import Cubing.Proofs.ReadingTokens

set_option autoImplicit false

/-! # An error is at the first token that cannot go on

Tokens that have been read without an error can always be completed: one more turn fills the
innermost list, and the groups are closed one after the other (`Reading.exists_reads`). A token that
the reading has no step for cannot be mended by what follows it, since a reading has one outcome
(`Reading.Reads.unique`).

So an error divides the tokens in two: what is before its index starts some notation, and one token
more starts none (`Tree.viable_of_ofTokens`). -/

namespace Cubing

/-- Some tokens can follow to make notation of these. -/
def Token.Viable (tokens : List Token) : Prop :=
  ∃ (rest : List Token) (t : Tree), t.Written (tokens ++ rest)

namespace Reading

variable {r next last : Reading} {token : Token} {tokens ts us : List Token}

/-! ## One outcome -/

theorem Step.unique (h : Step r token next) (h' : Step r token last) : next = last :=
  Except.ok.inj ((h.step_eq .unexpectedEnd).symm.trans (h'.step_eq .unexpectedEnd))

theorem Reads.unique (h : Reads r ts next) (h' : Reads r ts last) : next = last := by
  induction h with
  | nil r =>
    cases h'
    rfl
  | cons hstep hrest ih =>
    cases h' with
    | cons hstep' hrest' =>
      rw [hstep.unique hstep'] at ih
      exact ih hrest'

theorem reads_append_iff :
    Reads r (ts ++ us) last ↔ ∃ next, Reads r ts next ∧ Reads next us last := by
  constructor
  · intro h
    induction ts generalizing r with
    | nil => exact ⟨r, .nil r, h⟩
    | cons t ts ih =>
      cases h with
      | cons hstep hrest =>
        obtain ⟨next, hts, hus⟩ := ih hrest
        exact ⟨next, .cons hstep hts, hus⟩
  · rintro ⟨next, hts, hus⟩
    exact hts.append hus

/-! ## Groups can be closed -/

/-- Elements are completed by one more turn and the tokens that close the groups around them. -/
theorem exists_reads_elements (around : List OpenGroup) (e : Elements) :
    ∃ us e', Reads (elements e around) us (elements e' []) := by
  obtain ⟨token, t, hturn⟩ : ∃ (token : Token) (t : Turn), token.turn? = some t :=
    ⟨⟨.turn, ['R']⟩, ⟨.face .R, .cw⟩, by decide⟩
  have hfull (e : Elements) : (e.addTurn t).toTree ≠ [] := e.toTree_addTurn_ne_nil t
  induction around generalizing e with
  | nil => exact ⟨[], e, .nil _⟩
  | cons group outer ih =>
    have hsecond (before : Elements) (kind : Bracket) (a : Tree) (e : Elements) :
        ∃ us e', Reads (elements e (.secondSide before kind a :: outer)) us (elements e' []) := by
      obtain ⟨us, e', hrest⟩ := ih (before.addGroup (.bracket kind a (e.addTurn t).toTree))
      exact ⟨token :: ⟨.rightBracket, [']']⟩ :: us, e',
        .cons (.turn hturn) (.cons (.closeBracket rfl (hfull e)) hrest)⟩
    cases group with
    | firstSide before =>
      obtain ⟨us, e', hrest⟩ := hsecond before .conjugate (e.addTurn t).toTree .empty
      exact ⟨token :: ⟨.colon, [':']⟩ :: us, e',
        .cons (.turn hturn) (.cons (.separator .conjugate rfl (hfull e)) hrest)⟩
    | secondSide before kind a => exact hsecond before kind a e
    | parens before =>
      obtain ⟨us, e', hrest⟩ :=
        ih (before.addGroup (.repeated (e.addTurn t).toTree (repeatCount ['2'])))
      exact ⟨token :: ⟨.rightParen, [')']⟩ :: ⟨.multiplier, ['2']⟩ :: us, e',
        .cons (.turn hturn) (.cons (.closeParens rfl (hfull e)) (.cons (.count rfl) hrest))⟩

/-- **Whatever has been read can be completed.** -/
theorem exists_reads (r : Reading) : ∃ us e, Reads r us (elements e []) := by
  cases r with
  | elements current around => exact exists_reads_elements around current
  | counting body before around =>
    obtain ⟨us, e, hrest⟩ :=
      exists_reads_elements around (before.addGroup (.repeated body (repeatCount ['2'])))
    exact ⟨⟨.multiplier, ['2']⟩ :: us, e, .cons (.count rfl) hrest⟩

theorem viable_iff_reads : Token.Viable tokens ↔ ∃ r, Reads start tokens r := by
  constructor
  · rintro ⟨rest, t, hwritten⟩
    -- The fused tree is written by the same tokens, and they are read as it.
    have hread := Tree.ofTokens_of_written hwritten.fuse (Tree.joined_fuse t)
    obtain ⟨e, hreads, -⟩ := Tree.ofTokens_eq_ok_iff.1 hread
    obtain ⟨r, hr, -⟩ := reads_append_iff.1 hreads
    exact ⟨r, hr⟩
  · rintro ⟨r, hr⟩
    obtain ⟨us, e, hus⟩ := exists_reads r
    have hread := Tree.ofTokens_eq_ok_iff.2 ⟨e, hr.append hus, rfl⟩
    exact ⟨us, e.toTree, (Tree.ofTokens_eq_ok_iff_written.1 hread).1⟩

/-! ## Where a reading stops -/

/-- The cause for which a reading does not go on with a token, or does not end where there is none. -/
def Stops (r : Reading) (index : Nat) (cause : SyntaxError.Cause) : Option Token → Prop
  | none => r.finish = .error cause
  | some token => r.step token (.unexpectedToken token.chars (index + 1)) = .error cause

/-- A reading ends with an error where there is no step for a token, or at the end. -/
theorem of_run_eq_error {e : SyntaxError} {index : Nat} (h : r.run index tokens = .error e) :
    ∃ k next, e.index = index + k ∧ k ≤ tokens.length ∧ Reads r (tokens.take k) next ∧
      next.Stops e.index e.cause tokens[k]? := by
  induction tokens generalizing r index with
  | nil =>
    unfold run at h
    delta Except.mapError at h
    split at h
    · rename_i cause hfinish
      cases h
      exact ⟨0, r, rfl, Nat.le_refl 0, .nil r, hfinish⟩
    · cases h
  | cons token tokens ih =>
    rw [run] at h
    split at h
    · rename_i next hstep
      obtain ⟨k, last, hindex, hle, hreads, hstops⟩ := ih h
      refine ⟨k + 1, last, by omega, Nat.succ_le_succ hle, .cons (.of_step hstep) hreads, ?_⟩
      simpa using hstops
    · rename_i cause hstep
      cases h
      exact ⟨0, r, rfl, Nat.zero_le _, .nil r, hstep⟩

end Reading

/-- Where an error is, the tokens before it have been read, and nothing leads on. -/
theorem Tree.stops_of_ofTokens {tokens : List Token} {e : SyntaxError}
    (h : ofTokens tokens = .error e) :
    ∃ r, Reading.Reads .start (tokens.take e.index) r ∧ r.Stops e.index e.cause tokens[e.index]? ∧
      e.index ≤ tokens.length := by
  obtain ⟨k, r, hindex, hle, hreads, hstops⟩ := Reading.of_run_eq_error h
  obtain rfl : e.index = k := by omega
  exact ⟨r, hreads, hstops, hle⟩

/-- **An error is at the first token that cannot go on.** -/
theorem Tree.viable_of_ofTokens {tokens : List Token} {e : SyntaxError}
    (h : ofTokens tokens = .error e) :
    Token.Viable (tokens.take e.index)
      ∧ (e.index = tokens.length
        ∨ e.index < tokens.length ∧ ¬ Token.Viable (tokens.take (e.index + 1))) := by
  obtain ⟨r, hreads, hstops, hle⟩ := stops_of_ofTokens h
  refine ⟨Reading.viable_iff_reads.2 ⟨r, hreads⟩, ?_⟩
  cases htoken : tokens[e.index]? with
  | none => exact .inl (Nat.le_antisymm hle (List.getElem?_eq_none_iff.1 htoken))
  | some token =>
    obtain ⟨hlt, -⟩ := List.getElem?_eq_some_iff.1 htoken
    refine .inr ⟨hlt, fun hviable => ?_⟩
    obtain ⟨last, hlast⟩ := Reading.viable_iff_reads.1 hviable
    rw [List.take_add_one, htoken, Reading.reads_append_iff] at hlast
    obtain ⟨r', hreads', hstep⟩ := hlast
    obtain rfl := hreads.unique hreads'
    rw [htoken] at hstops
    cases hstep with
    | cons hstep _ => cases hstops.symm.trans (hstep.step_eq _)

end Cubing
