import Cubing.Algorithm
import Cubing.Proofs.Fusing

set_option autoImplicit false

/-! # What has been read accounts for the tokens

The reading of tokens is a machine with a stack of open groups. `Reading.Step` says once what a token
can do to it, and `Reading.Reads` what tokens one after the other do; a reading returns a tree if its
tokens lead to a list of elements with no group open (`Tree.ofTokens_eq_ok_iff`).

At every moment the open groups and the elements of the machine account for the tokens read so far
(`Reading.Wrote`): the tokens write the elements, and open the groups around them. A step keeps the
account, so what a reading returns is written by its tokens (`Tree.written_of_ofTokens`). -/

namespace Cubing

namespace Reading

/-! ## Steps -/

/-- What reading a token does. -/
inductive Step : Reading → Token → Reading → Prop where
  | turn {current : Elements} {around : List OpenGroup} {token : Token} {t : Turn}
      (turn : token.turn? = some t) :
      Step (elements current around) token (elements (current.addTurn t) around)
  | openBracket {current : Elements} {around : List OpenGroup} {token : Token}
      (kind : token.kind = .leftBracket) :
      Step (elements current around) token (elements .empty (.firstSide current :: around))
  | openParens {current : Elements} {around : List OpenGroup} {token : Token}
      (kind : token.kind = .leftParen) :
      Step (elements current around) token (elements .empty (.parens current :: around))
  | separator (bracket : Bracket) {current before : Elements} {outer : List OpenGroup}
      {token : Token} (kind : token.kind = bracket.separatorKind) (full : current.toTree ≠ []) :
      Step (elements current (.firstSide before :: outer)) token
        (elements .empty (.secondSide before bracket current.toTree :: outer))
  | closeBracket {bracket : Bracket} {a : Tree} {current before : Elements}
      {outer : List OpenGroup} {token : Token} (kind : token.kind = .rightBracket)
      (full : current.toTree ≠ []) :
      Step (elements current (.secondSide before bracket a :: outer)) token
        (elements (before.addGroup (.bracket bracket a current.toTree)) outer)
  | closeParens {current before : Elements} {outer : List OpenGroup} {token : Token}
      (kind : token.kind = .rightParen) (full : current.toTree ≠ []) :
      Step (elements current (.parens before :: outer)) token
        (counting current.toTree before outer)
  | count {body : Tree} {before : Elements} {around : List OpenGroup} {token : Token}
      (kind : token.kind = .multiplier) :
      Step (counting body before around) token
        (elements (before.addGroup (.repeated body (repeatCount token.chars))) around)

variable {r next last : Reading} {token : Token} {tokens ts us : List Token} {t : Tree}

theorem Step.of_separate (bracket : Bracket) {current : Elements} {around : List OpenGroup}
    {unexpected : SyntaxError.Cause} (hkind : token.kind = bracket.separatorKind)
    (h : separate bracket current around unexpected = .ok next) :
    Step (elements current around) token next := by
  unfold separate at h
  split at h
  · split at h
    · cases h
    · rename_i hfull
      cases h
      exact .separator bracket hkind fun hnil => hfull ((Elements.isEmpty_iff _).2 hnil)
  · cases h

theorem Step.of_step {unexpected : SyntaxError.Cause} (h : r.step token unexpected = .ok next) :
    Step r token next := by
  have hfull {e : Elements} (he : ¬ e.isEmpty) : e.toTree ≠ [] :=
    fun hnil => he ((Elements.isEmpty_iff e).2 hnil)
  unfold step at h
  cases r with
  | counting body before around =>
    dsimp only at h
    split at h
    · rename_i hkind
      cases h
      exact .count hkind
    · cases h
  | elements current around =>
    dsimp only at h
    split at h
    · rename_i hkind
      split at h
      · rename_i t hturn
        cases h
        exact .turn (by simp [Token.turn?, hkind, hturn])
      · cases h
    · rename_i hkind
      cases h
      exact .openBracket hkind
    · rename_i hkind
      cases h
      exact .openParens hkind
    · rename_i hkind
      exact .of_separate .conjugate hkind h
    · rename_i hkind
      exact .of_separate .commutator hkind h
    · rename_i hkind
      split at h
      · cases h
      · split at h
        · cases h
        · rename_i he
          cases h
          exact .closeBracket hkind (hfull he)
      · cases h
    · rename_i hkind
      split at h
      · split at h
        · cases h
        · rename_i he
          cases h
          exact .closeParens hkind (hfull he)
      · cases h
    · cases h

theorem Step.step_eq (h : Step r token next) (unexpected : SyntaxError.Cause) :
    r.step token unexpected = .ok next := by
  have hfull {e : Elements} (he : e.toTree ≠ []) : e.isEmpty = false := by
    rw [← Bool.not_eq_true, Elements.isEmpty_iff]
    exact he
  cases h with
  | @turn _ _ _ t turn =>
    unfold Token.turn? at turn
    split at turn
    · rename_i hkind
      simp [step, hkind, turn]
    · cases turn
  | openBracket kind => simp [step, kind]
  | openParens kind => simp [step, kind]
  | separator bracket kind full =>
    cases bracket <;> simp only [Bracket.separatorKind] at kind <;>
      simp [step, separate, kind, hfull full]
  | closeBracket kind full => simp [step, kind, hfull full]
  | closeParens kind full => simp [step, kind, hfull full]
  | count kind => simp [step, kind]

theorem step_eq_ok_iff {unexpected : SyntaxError.Cause} :
    r.step token unexpected = .ok next ↔ Step r token next :=
  ⟨.of_step, fun h => h.step_eq unexpected⟩

/-- Right behind an opening bracket is its first side, without elements. -/
theorem Step.of_leftBracket (h : Step r token next) (hkind : token.kind = .leftBracket) :
    ∃ before outer, next = elements .empty (.firstSide before :: outer) := by
  have hstep := h.step_eq .unexpectedEnd
  cases r with
  | counting body before around => simp [step, hkind] at hstep
  | elements current around =>
    simp only [step, hkind, Except.ok.injEq] at hstep
    exact ⟨current, around, hstep.symm⟩

/-- Right behind an opening parenthesis is its list, without elements. -/
theorem Step.of_leftParen (h : Step r token next) (hkind : token.kind = .leftParen) :
    ∃ before outer, next = elements .empty (.parens before :: outer) := by
  have hstep := h.step_eq .unexpectedEnd
  cases r with
  | counting body before around => simp [step, hkind] at hstep
  | elements current around =>
    simp only [step, hkind, Except.ok.injEq] at hstep
    exact ⟨current, around, hstep.symm⟩

/-- A closing parenthesis is read behind elements, and their count is read next. -/
theorem Step.of_rightParen (h : Step r token next) (hkind : token.kind = .rightParen) :
    ∃ current before outer, r = elements current (.parens before :: outer) ∧ current.toTree ≠ []
      ∧ next = counting current.toTree before outer := by
  cases h with
  | closeParens kind full => exact ⟨_, _, _, rfl, full, rfl⟩
  | turn turn => simp [Token.turn?, hkind] at turn
  | openBracket kind => cases kind.symm.trans hkind
  | openParens kind => cases kind.symm.trans hkind
  | separator bracket kind full => cases bracket <;> cases kind.symm.trans hkind
  | closeBracket kind full => cases kind.symm.trans hkind
  | count kind => cases kind.symm.trans hkind

/-! ## Runs -/

/-- What reading tokens one after the other does. -/
inductive Reads : Reading → List Token → Reading → Prop where
  | nil (r : Reading) : Reads r [] r
  | cons {r next last : Reading} {token : Token} {tokens : List Token} (h : Step r token next)
      (rest : Reads next tokens last) : Reads r (token :: tokens) last

theorem Reads.append (h : Reads r ts next) (h' : Reads next us last) : Reads r (ts ++ us) last := by
  induction h with
  | nil r => exact h'
  | cons hstep _ ih => exact .cons hstep (ih h')

theorem Reads.single (h : Step r token next) : Reads r [token] next := .cons h (.nil next)

theorem finish_eq_ok_iff : r.finish = .ok t ↔ ∃ e, r = elements e [] ∧ e.toTree = t := by
  constructor
  · intro h
    unfold finish at h
    split at h
    · cases h
    · cases h
      exact ⟨_, rfl, rfl⟩
    · cases h
    · cases h
    · cases h
  · rintro ⟨e, rfl, rfl⟩
    rfl

/-- A reading returns a tree if the tokens lead to its elements with no group open. -/
theorem run_eq_ok_iff {index : Nat} :
    r.run index tokens = .ok t ↔ ∃ e, Reads r tokens (elements e []) ∧ e.toTree = t := by
  induction tokens generalizing r index with
  | nil =>
    rw [run, mapError_eq_ok_iff, finish_eq_ok_iff]
    constructor
    · rintro ⟨e, rfl, ht⟩
      exact ⟨e, .nil _, ht⟩
    · rintro ⟨e, hreads, ht⟩
      cases hreads
      exact ⟨e, rfl, ht⟩
  | cons token tokens ih =>
    rw [run]
    constructor
    · intro h
      split at h
      · rename_i next hstep
        obtain ⟨e, hreads, ht⟩ := ih.1 h
        exact ⟨e, .cons (step_eq_ok_iff.1 hstep) hreads, ht⟩
      · cases h
    · rintro ⟨e, hreads, ht⟩
      cases hreads with
      | cons hstep hrest =>
        rw [hstep.step_eq]
        exact ih.2 ⟨e, hrest, ht⟩

end Reading

theorem Tree.ofTokens_eq_ok_iff {tokens : List Token} {t : Tree} :
    ofTokens tokens = .ok t ↔
      ∃ e, Reading.Reads .start tokens (.elements e []) ∧ e.toTree = t :=
  Reading.run_eq_ok_iff

/-! ## Lists under construction -/

namespace Elements

theorem toTree_of_turns_eq_nil {e : Elements} (h : e.turns = []) : e.toTree = e.nodes.reverse := by
  simp [toTree, closed, h]

theorem toTree_of_turns_ne_nil {e : Elements} (h : e.turns ≠ []) :
    e.toTree = e.nodes.reverse ++ [.seq e.turns.reverse] := by
  simp [toTree, closed, h]

/-- A list under construction that another sequence may follow has no open one. -/
theorem turns_eq_nil_of_isChain {e : Elements} {ts : List Turn} {t : Tree}
    (h : (e.toTree ++ .seq ts :: t).IsChain Node.Separate) : e.turns = [] := by
  by_contra hne
  rw [toTree_of_turns_ne_nil hne, List.append_assoc, List.isChain_append] at h
  have hpair := (List.isChain_cons_cons.1 h.2.1).1
  cases hpair rfl

theorem toTree_addTurn_ne_nil (e : Elements) (t : Turn) : (e.addTurn t).toTree ≠ [] := by
  simp [addTurn, toTree, closed]

variable {e : Elements} {tokens group : List Token} {token : Token} {t : Turn} {n : Node}

/-- One more turn is written by one more token. -/
theorem written_addTurn (h : e.toTree.Written tokens) (ht : token.turn? = some t) :
    (e.addTurn t).toTree.Written (tokens ++ [token]) := by
  have hturn : [token].map Token.turn? = [t].map some := by simp [ht]
  have hnew : (e.addTurn t).toTree = e.nodes.reverse ++ [.seq (e.turns.reverse ++ [t])] := by
    rw [toTree_of_turns_ne_nil (by simp [addTurn])]
    simp [addTurn]
  rw [hnew]
  by_cases hempty : e.turns = []
  · rw [toTree_of_turns_eq_nil hempty] at h
    refine h.append (Node.listWritten_singleton_iff.2 ?_)
    exact .seq (by simp) (by simpa [hempty] using hturn)
  · rw [toTree_of_turns_ne_nil hempty] at h
    obtain ⟨here, there, hnodes, hseq, rfl⟩ := Node.listWritten_append_iff.1 h
    cases Node.listWritten_singleton_iff.1 hseq with
    | seq nonempty turns =>
      rw [List.append_assoc]
      refine hnodes.append (Node.listWritten_singleton_iff.2 (.seq (by simp) ?_))
      rw [List.map_append, List.map_append, turns, hturn]

theorem written_addGroup (h : e.toTree.Written tokens) (hn : n.Written group) :
    (e.addGroup n).toTree.Written (tokens ++ group) := by
  rw [toTree_addGroup]
  exact h.append (Node.listWritten_singleton_iff.2 hn)

end Elements

/-! ## What has been read accounts for the tokens -/

/-- Tokens that open groups, each after the elements before it. -/
inductive OpenGroup.Wrote : List OpenGroup → List Token → Prop where
  | nil : Wrote [] []
  | firstSide {outer : List OpenGroup} {before : Elements} {ts bs : List Token} {opening : Token}
      (around : Wrote outer ts) (writes : before.toTree.Written bs)
      (left : opening.kind = .leftBracket) :
      Wrote (.firstSide before :: outer) (ts ++ bs ++ [opening])
  | secondSide {outer : List OpenGroup} {before : Elements} {kind : Bracket} {a : Tree}
      {ts bs as : List Token} {opening mid : Token} (around : Wrote outer ts)
      (writes : before.toTree.Written bs) (left : opening.kind = .leftBracket) (first : a ≠ [])
      (writesFirst : a.Written as) (between : mid.kind = kind.separatorKind) :
      Wrote (.secondSide before kind a :: outer) (ts ++ bs ++ (opening :: as ++ [mid]))
  | parens {outer : List OpenGroup} {before : Elements} {ts bs : List Token} {opening : Token}
      (around : Wrote outer ts) (writes : before.toTree.Written bs)
      (left : opening.kind = .leftParen) :
      Wrote (.parens before :: outer) (ts ++ bs ++ [opening])

namespace Reading

/-- Tokens that lead to a reading: they open the groups around it and write its elements. -/
inductive Wrote : Reading → List Token → Prop where
  | elements {current : Elements} {around : List OpenGroup} {ts us : List Token}
      (opened : OpenGroup.Wrote around ts) (writes : current.toTree.Written us) :
      Wrote (.elements current around) (ts ++ us)
  | counting {body : Tree} {before : Elements} {around : List OpenGroup} {ts bs us : List Token}
      {opening closing : Token} (opened : OpenGroup.Wrote around ts)
      (writes : before.toTree.Written bs) (left : opening.kind = .leftParen) (contents : body ≠ [])
      (writesBody : body.Written us) (right : closing.kind = .rightParen) :
      Wrote (.counting body before around) (ts ++ bs ++ (opening :: us ++ [closing]))

variable {r next : Reading} {tokens us : List Token} {token : Token}

/-- A group that has just been opened is around no elements. -/
theorem Wrote.of_opened {around : List OpenGroup} (h : OpenGroup.Wrote around tokens) :
    Wrote (.elements .empty around) tokens := by
  simpa using Wrote.elements h (show Elements.empty.toTree.Written [] from .nil)

/-- **A step keeps the account.** -/
theorem Wrote.step (h : r.Wrote tokens) (hstep : Step r token next) :
    next.Wrote (tokens ++ [token]) := by
  cases hstep with
  | turn turn =>
    obtain ⟨opened, writes⟩ := h
    rw [List.append_assoc]
    exact .elements opened (Elements.written_addTurn writes turn)
  | openBracket kind =>
    obtain ⟨opened, writes⟩ := h
    exact .of_opened (.firstSide opened writes kind)
  | openParens kind =>
    obtain ⟨opened, writes⟩ := h
    exact .of_opened (.parens opened writes kind)
  | separator bracket kind full =>
    obtain ⟨opened, writes⟩ := h
    cases opened with
    | firstSide around before left =>
      simpa using Wrote.of_opened (.secondSide around before left full writes kind)
  | closeBracket kind full =>
    obtain ⟨opened, writes⟩ := h
    cases opened with
    | secondSide around before left first writesFirst between =>
      have hgroup := Node.Written.bracket left between kind first full writesFirst writes
      simpa using Wrote.elements around (Elements.written_addGroup before hgroup)
  | closeParens kind full =>
    obtain ⟨opened, writes⟩ := h
    cases opened with
    | parens around before left =>
      simpa using Wrote.counting around before left full writes kind
  | count kind =>
    cases h with
    | counting opened before left contents writesBody right =>
      have hgroup := Node.Written.repeated left right kind contents writesBody
      simpa using Wrote.elements opened (Elements.written_addGroup before hgroup)

theorem Wrote.reads (h : r.Wrote tokens) (hreads : Reads r us next) : next.Wrote (tokens ++ us) := by
  induction hreads generalizing tokens with
  | nil r => simpa using h
  | cons hstep _ ih => simpa using ih (h.step hstep)

end Reading

/-- **What is read is written.** -/
theorem Tree.written_of_ofTokens {tokens : List Token} {t : Tree} (h : ofTokens tokens = .ok t) :
    t.Written tokens := by
  obtain ⟨e, hreads, rfl⟩ := ofTokens_eq_ok_iff.1 h
  obtain ⟨⟨⟩, writes⟩ := (Reading.Wrote.of_opened .nil).reads hreads
  exact writes

end Cubing
