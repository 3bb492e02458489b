import Cubing.Proofs.TrialSteps
import Cubing.Proofs.ViablePrefixes

set_option autoImplicit false

/-! # Reading by trial agrees with reading in one pass

At an index where an element or a list of elements is to be read, the rules and the machine do the
same: both find it and go on behind it, or both end with the same error
(`Backtracking.ElementAgrees`, `Backtracking.ListAgrees`). The rules may come to the same element
again and again, once for each kind that a bracket around it is tried as, but what they do there does
not depend on what has failed before. An element at an index is compared if lists agree at all later
ones, and a list if its first element does.

So reading by trial has a result within any bound beyond the number of tokens, and the furthest of
its failures is where the machine stops (`Backtracking.readWithin_eq`): at the first token that
cannot go on (`Backtracking.read_stops_at_first_offence`). -/

namespace Cubing

/-! ## Reading on from an index -/

namespace Reading

variable {r next : Reading} {tokens us : List Token} {token : Token} {k : Nat}

/-- Goes on with a reading at a token of a list. -/
def runFrom (r : Reading) (tokens : List Token) (k : Nat) : Except SyntaxError Tree :=
  r.run k (tokens.drop k)

theorem run_append (h : Reads r us next) (rest : List Token) :
    r.run k (us ++ rest) = next.run (k + us.length) rest := by
  induction h generalizing k with
  | nil r => rfl
  | cons hstep hrest ih =>
    rw [List.cons_append, run, hstep.step_eq]
    simp only
    rw [ih, List.length_cons, Nat.add_right_comm]
    rfl

theorem runFrom_of_step (h : tokens[k]? = some token) (hstep : Step r token next) :
    r.runFrom tokens k = next.runFrom tokens (k + 1) := by
  rw [runFrom, Backtracking.drop_of_getElem? h]
  exact run_append (.single hstep) _

theorem runFrom_of_error {cause : SyntaxError.Cause} (h : tokens[k]? = some token)
    (hstep : r.step token (.unexpectedToken token.chars (k + 1)) = .error cause) :
    r.runFrom tokens k = .error ⟨k, cause⟩ := by
  rw [runFrom, Backtracking.drop_of_getElem? h, run, hstep]

theorem runFrom_of_end (h : tokens[k]? = none) :
    r.runFrom tokens k = r.finish.mapError (⟨k, ·⟩) := by
  rw [runFrom, List.drop_eq_nil_of_le (List.getElem?_eq_none_iff.1 h)]
  rfl

end Reading

namespace Backtracking

open Reading (runFrom Step runFrom_of_step runFrom_of_error runFrom_of_end)

variable {tokens : List Token} {token : Token} {k : Nat}

/-! ## Errors -/

theorem error_of_cause (k : Nat) (cause : SyntaxError.Cause) :
    (⟨k, some cause⟩ : Failure).error tokens = ⟨k, cause⟩ := rfl

theorem error_of_token (h : tokens[k]? = some token) :
    (⟨k, none⟩ : Failure).error tokens = ⟨k, .unexpectedToken token.chars (k + 1)⟩ := by
  simp [Failure.error, h]

/-- At the end, an empty list is reported, and otherwise that the end is unexpected. -/
theorem error_of_end (h : tokens[k]? = none) (empty : Bool) (cause : SyntaxError.Cause) :
    (⟨k, if empty then some cause else none⟩ : Failure).error tokens
      = ⟨k, if empty then cause else .unexpectedEnd⟩ := by
  cases empty <;> simp [Failure.error, h]

theorem isEmpty_toTree (e : Elements) : e.toTree.isEmpty = e.isEmpty := by
  rw [Bool.eq_iff_iff, List.isEmpty_iff, Elements.isEmpty_iff]

/-- A list that something must close ends with an error at the end of the tokens, and where it is
    closed without an element in it. -/
theorem runFrom_of_unclosed {current : Elements} {around : List OpenGroup} {closing : Token.Kind}
    {cause : SyntaxError.Cause}
    (hfinish : (Reading.elements current around).finish
      = .error (if current.isEmpty then cause else .unexpectedEnd))
    (hstep : ∀ token unexpected, token.kind = closing → current.isEmpty = true →
      (Reading.elements current around).step token unexpected = .error cause)
    (hended : ∀ token ∈ tokens[k]?, token.kind = closing)
    (hclosed : tokens[k]? = none ∨ current.toTree = []) :
    (Reading.elements current around).runFrom tokens k
      = .error ((⟨k, if current.toTree.isEmpty then some cause else none⟩
          : Failure).error tokens) := by
  rw [isEmpty_toTree]
  cases htoken : tokens[k]? with
  | none =>
    rw [runFrom_of_end htoken, error_of_end htoken, hfinish]
    rfl
  | some token =>
    have hempty : current.isEmpty = true :=
      (Elements.isEmpty_iff current).2 (hclosed.resolve_left (by simp [htoken]))
    rw [if_pos hempty, error_of_cause]
    exact runFrom_of_error htoken (hstep token _ (hended token htoken) hempty)

/-! ## What is compared -/

/-- The tokens that end the innermost open list. -/
def ends : List OpenGroup → Token.Kind → Bool
  | [] => fun _ => false
  | .firstSide _ :: _ => endsFirstSide
  | .secondSide .. :: _ => (· = .rightBracket)
  | .parens _ :: _ => (· = .rightParen)

/-- The open sequence, if there is one, cannot go on. -/
def Complete (tokens : List Token) (e : Elements) (k : Nat) : Prop :=
  e.turns ≠ [] → ∀ token ∈ tokens[k]?, token.turn? = none

/-- An element is found and added, or both readings end with the same error. -/
inductive ElementAgrees (tokens : List Token) (lists : ListReader) (e : Elements)
    (around : List OpenGroup) (k : Nat) : Prop where
  | found (n : Node) (next : Nat) (e' : Elements) (later : k < next)
    (finds : Finds (readNode tokens lists) k n next) (adds : e'.toTree = e.toTree ++ [n])
    (complete : Complete tokens e' next)
    (runs : (Reading.elements e around).runFrom tokens k
      = (Reading.elements e' around).runFrom tokens next)
  | broken (error : SyntaxError) (breaks : Breaks (readNode tokens lists) k k error)
    (runs : (Reading.elements e around).runFrom tokens k = .error error)

/-- Elements are found up to a token that ends them and added, or both readings end with the same
    error. -/
inductive ListAgrees (tokens : List Token) (lists : ListReader) (e : Elements)
    (around : List OpenGroup) (k : Nat) : Prop where
  | found (ns : List Node) (next : Nat) (e' : Elements) (later : k ≤ next)
    (finds : Finds (lists (ends around)) k ns next) (adds : e'.toTree = e.toTree ++ ns)
    (ended : ∀ token ∈ tokens[next]?, ends around token.kind)
    (runs : (Reading.elements e around).runFrom tokens k
      = (Reading.elements e' around).runFrom tokens next)
  | broken (error : SyntaxError) (breaks : Breaks (lists (ends around)) k k error)
    (runs : (Reading.elements e around).runFrom tokens k = .error error)

/-- Lists agree at all later indices. -/
def AgreesAfter (tokens : List Token) (lists : ListReader) (k : Nat) : Prop :=
  ∀ j, k < j → ∀ e around, Complete tokens e j → ListAgrees tokens lists e around j

variable {lists : ListReader} {e : Elements} {around : List OpenGroup} {bound : Nat}

/-! ## Elements -/

theorem elementAgrees_of_turns (hcomplete : Complete tokens e k) (htoken : tokens[k]? = some token)
    (hturn : token.turn? ≠ none) : ElementAgrees tokens lists e around k := by
  have hfull : leadingTurns (tokens.drop k) ≠ [] :=
    fun hnil => hturn ((leadingTurns_eq_nil_iff htoken).1 hnil)
  have hopen : e.turns = [] := by
    by_contra hne
    exact hturn (hcomplete hne token htoken)
  have hfinds := finds_readSequence hfull
  obtain ⟨us, rest, hdrop, hturns, hend⟩ := leadingTurns_spec (tokens.drop k)
  generalize leadingTurns (tokens.drop k) = ts at hfull hfinds hturns
  have hlength : us.length = ts.length := by simpa using congrArg List.length hturns
  have hrest : tokens.drop (k + ts.length) = rest := by
    rw [← hlength, ← List.drop_drop, ← hdrop, List.drop_left]
  refine .found (.seq ts) (k + ts.length) ⟨e.nodes, ts.reverse ++ e.turns⟩
    (Nat.lt_add_of_pos_right (List.length_pos_iff.2 hfull)) ?_ ?_ ?_ ?_
  · rw [readNode_eq]
    exact hfinds.orElse
  · rw [Elements.toTree_of_turns_ne_nil (by simp [hfull]), Elements.toTree_of_turns_eq_nil hopen]
    simp [hopen]
  · intro _ token htoken
    rw [← List.head?_drop, hrest] at htoken
    exact hend token htoken
  · rw [runFrom, ← hdrop, Reading.run_append (Reading.reads_turns hturns around), runFrom, hrest,
      hlength]

/-- A token that neither starts an element nor ends the innermost list is unexpected. -/
theorem step_eq_unexpected {unexpected : SyntaxError.Cause} (hturn : token.turn? = none)
    (hbracket : token.kind ≠ .leftBracket) (hparen : token.kind ≠ .leftParen)
    (hends : ends around token.kind = false) :
    (Reading.elements e around).step token unexpected = .error unexpected := by
  cases hkind : token.kind with
  | leftBracket => exact absurd hkind hbracket
  | leftParen => exact absurd hkind hparen
  | turn =>
    have hnone : Turn.ofChars? token.chars = none := by simpa [Token.turn?, hkind] using hturn
    simp [Reading.step, hkind, hnone]
  | multiplier => simp [Reading.step, hkind]
  | rightBracket | colon | comma | rightParen =>
    rw [hkind] at hends
    rcases around with _ | ⟨_ | _ | _, outer⟩
    -- The token finds no group that it could end, or it would end the innermost list.
    all_goals first
      | simp [Reading.step, Reading.separate, hkind]; done
      | cases hends

theorem elementAgrees_of_unexpected (htoken : tokens[k]? = some token) (hturn : token.turn? = none)
    (hbracket : token.kind ≠ .leftBracket) (hparen : token.kind ≠ .leftParen)
    (hends : ends around token.kind = false) : ElementAgrees tokens lists e around k := by
  have hseq := misses_readSequence ((leadingTurns_eq_nil_iff htoken).2 hturn)
  have hgroup (kind : Bracket) : Misses (readBracket tokens lists kind) k k ⟨k, none⟩ :=
    misses_readBracket (by simpa [htoken] using hbracket)
  have hrepeated : Misses (readRepeated tokens lists) k k ⟨k, none⟩ :=
    misses_readRepeated (by simpa [htoken] using hparen)
  have hdeepest : deepest? [⟨k, none⟩, ⟨k, none⟩, ⟨k, none⟩, ⟨k, none⟩] = some ⟨k, none⟩ := by
    simp [deepest?, deeper]
  have hbreaks := breaks_readNode hseq (hgroup .conjugate) (hgroup .commutator) hrepeated hdeepest
  refine .broken _ hbreaks ?_
  rw [error_of_token htoken]
  exact runFrom_of_error htoken (step_eq_unexpected hturn hbracket hparen hends)

/-! ## Brackets -/

section

variable {kind : Bracket} {a : Tree} {first : Elements} {mid : Nat}

theorem complete_empty : Complete tokens .empty k := fun hne => absurd rfl hne

theorem complete_addGroup (n : Node) : Complete tokens (e.addGroup n) k := fun hne => absurd rfl hne

/-- With its separator read, a bracket is read like its second side. -/
theorem elementAgrees_of_secondSide (h : FirstSide tokens lists k kind a mid)
    (hruns : (Reading.elements e around).runFrom tokens k
      = (Reading.elements .empty (.secondSide e kind a :: around)).runFrom tokens (mid + 1))
    (hsecond : ListAgrees tokens lists .empty (.secondSide e kind a :: around) (mid + 1)) :
    ElementAgrees tokens lists e around k := by
  rcases hsecond with ⟨b, last, second, hle, hb, hadds, hended, hlast⟩ | ⟨error, hbreaks, hlast⟩
  · have htree : second.toTree = b := by simpa using hadds
    subst htree
    have hended' : ∀ token ∈ tokens[last]?, token.kind = .rightBracket := by
      simpa [ends] using hended
    by_cases hclosed : tokens[last]? = none ∨ second.toTree = []
    · -- The bracket's own kind is given up where its second side ends.
      have hmisses := (h.leads hle).misses (misses_readSecondSide hb hclosed)
      refine .broken _ (h.breaks_readNode hmisses hle) ((hruns.trans hlast).trans ?_)
      refine runFrom_of_unclosed rfl ?_ hended' hclosed
      intro token unexpected hkind hempty
      simp [Reading.step, hkind, hempty]
    · rw [not_or] at hclosed
      obtain ⟨token, htoken⟩ := Option.ne_none_iff_exists'.1 hclosed.1
      have hbound : mid < last + 1 := Nat.lt_succ_of_lt hle
      obtain ⟨rest, hleads⟩ := h.leads_readNode hbound
      have hfinds := (h.leads hbound).finds (finds_readSecondSide hb hclosed.1 hclosed.2)
      refine .found _ (last + 1) (e.addGroup (.bracket kind a second.toTree))
        (Nat.lt_trans h.later hbound) (hleads.finds hfinds.orElse) (by simp) (complete_addGroup _)
        ((hruns.trans hlast).trans ?_)
      exact runFrom_of_step htoken (.closeBracket (hended' token htoken) hclosed.2)
  · have hbound : mid < mid + 1 := Nat.lt_succ_self mid
    obtain ⟨rest, hleads⟩ := h.leads_readNode hbound
    have hbracket := (h.leads hbound).breaks (breaks_readSecondSide hbreaks)
    refine .broken error ((hleads.breaks hbracket.orElse).mono ?_) (hruns.trans hlast)
    exact Nat.le_of_lt (Nat.lt_trans h.later hbound)

theorem endsFirstSide_iff {kind : Token.Kind} :
    endsFirstSide kind ↔
      kind = .rightBracket ∨ ∃ bracket : Bracket, kind = bracket.separatorKind := by
  constructor
  · intro h
    cases kind with
    | rightBracket => exact .inl rfl
    | colon => exact .inr ⟨.conjugate, rfl⟩
    | comma => exact .inr ⟨.commutator, rfl⟩
    | turn | leftBracket | leftParen | rightParen | multiplier => cases h
  · rintro (rfl | ⟨_ | _, rfl⟩) <;> rfl

/-- A first side ends with an error, if no separator can follow it. An empty first side is reported
    as that of a conjugate, which is tried first. -/
theorem runFrom_firstSide (hended : ∀ token ∈ tokens[mid]?, endsFirstSide token.kind)
    (hclosed : ∀ kind : Bracket,
      (tokens[mid]?).map (·.kind) ≠ some kind.separatorKind ∨ first.toTree = []) :
    (Reading.elements first (.firstSide e :: around)).runFrom tokens mid
      = .error ((⟨mid, firstSideCause? .conjugate first.toTree ((tokens[mid]?).map (·.kind))⟩
          : Failure).error tokens) := by
  rw [firstSideCause?, isEmpty_toTree]
  cases htoken : tokens[mid]? with
  | none =>
    rw [runFrom_of_end htoken, Option.map_none, if_neg (by simp), error_of_end htoken]
    rfl
  | some token =>
    have hkind := hended token htoken
    by_cases hright : token.kind = .rightBracket
    · rw [Option.map_some, if_pos (by simp [hright]), error_of_cause]
      exact runFrom_of_error htoken (by simp [Reading.step, hright])
    · obtain ⟨kind, hseparator⟩ := (endsFirstSide_iff.1 hkind).resolve_left hright
      have hempty : first.isEmpty = true := (Elements.isEmpty_iff first).2
        ((hclosed kind).resolve_left (by simp [htoken, hseparator]))
      rw [Option.map_some, if_neg (by simp [hright]), if_pos hempty, error_of_cause]
      refine runFrom_of_error htoken ?_
      cases kind <;> simp only [Bracket.separatorKind] at hseparator <;>
        simp [Reading.step, Reading.separate, hseparator, hempty]

theorem elementAgrees_of_bracket (htoken : tokens[k]? = some token)
    (hkind : token.kind = .leftBracket)
    (hlater : AgreesAfter tokens lists k) :
    ElementAgrees tokens lists e around k := by
  have hopen : (tokens[k]?).map (·.kind) = some .leftBracket := by simp [htoken, hkind]
  have hseq := misses_readSequence_of_kind hopen (by decide)
  have hstep : (Reading.elements e around).runFrom tokens k
      = (Reading.elements .empty (.firstSide e :: around)).runFrom tokens (k + 1) :=
    runFrom_of_step htoken (.openBracket hkind)
  rcases hlater (k + 1) (Nat.lt_succ_self k) .empty (.firstSide e :: around) complete_empty with
    ⟨a, mid, first, hle, ha, hadds, hended, hruns⟩ | ⟨error, hbreaks, hruns⟩
  · have htree : first.toTree = a := by simpa using hadds
    subst htree
    by_cases hclosed : ∀ kind : Bracket,
        (tokens[mid]?).map (·.kind) ≠ some kind.separatorKind ∨ first.toTree = []
    · have hmisses (kind : Bracket) :=
        misses_readBracket_of_firstSide kind hopen ha hle (hclosed kind)
      have hrepeated : Misses (readRepeated tokens lists) k k ⟨k, none⟩ :=
        misses_readRepeated (by simp [hopen])
      have hstart : k < mid := hle
      -- Both kinds are given up at the same token, and the conjugate comes first.
      refine .broken _ (breaks_readNode hseq (hmisses .conjugate) (hmisses .commutator) hrepeated ?_)
        ((hstep.trans hruns).trans (runFrom_firstSide hended hclosed))
      simp [deepest?, deeper, hstart, Nat.lt_asymm hstart]
    · simp only [not_forall, not_or, not_not] at hclosed
      obtain ⟨kind, hseparator, hfull⟩ := hclosed
      obtain ⟨separator, hseparator', hkind'⟩ := Option.map_eq_some_iff.1 hseparator
      have hsecond : (Reading.elements first (.firstSide e :: around)).runFrom tokens mid
          = (Reading.elements .empty (.secondSide e kind first.toTree :: around)).runFrom tokens
            (mid + 1) :=
        runFrom_of_step hseparator' (.separator kind hkind' hfull)
      exact elementAgrees_of_secondSide ⟨hopen, ha, hle, hseparator, hfull⟩
        ((hstep.trans hruns).trans hsecond)
        (hlater (mid + 1) (Nat.lt_succ_of_lt hle) .empty _ complete_empty)
  · refine .broken error ?_ (hstep.trans hruns)
    rw [readNode_eq]
    exact ((hseq.leads (Nat.lt_succ_self k)).breaks
      (breaks_readBracket hopen hbreaks (Nat.lt_succ_self k)).orElse).mono (Nat.le_succ k)

end

/-! ## Repetitions -/

section

variable {contents : Elements} {mid : Nat}

/-- Only a count goes on after a closing parenthesis. -/
theorem runFrom_counting {body : Tree} (h : (tokens[mid]?).map (·.kind) ≠ some .multiplier) :
    (Reading.counting body e around).runFrom tokens mid = .error ⟨mid, .missingMultiplier⟩ := by
  cases htoken : tokens[mid]? with
  | none =>
    rw [runFrom_of_end htoken]
    rfl
  | some token =>
    have hkind : token.kind ≠ .multiplier := by simpa [htoken] using h
    exact runFrom_of_error htoken (by simp [Reading.step])

theorem elementAgrees_of_parens (htoken : tokens[k]? = some token)
    (hkind : token.kind = .leftParen)
    (hlater : AgreesAfter tokens lists k) :
    ElementAgrees tokens lists e around k := by
  have hopen : (tokens[k]?).map (·.kind) = some .leftParen := by simp [htoken, hkind]
  have hstep : (Reading.elements e around).runFrom tokens k
      = (Reading.elements .empty (.parens e :: around)).runFrom tokens (k + 1) :=
    runFrom_of_step htoken (.openParens hkind)
  rcases hlater (k + 1) (Nat.lt_succ_self k) .empty (.parens e :: around) complete_empty with
    ⟨body, mid, contents, hle, hbody, hadds, hended, hruns⟩ | ⟨error, hcontents, hruns⟩
  · have htree : contents.toTree = body := by simpa using hadds
    subst htree
    have hended' : ∀ token ∈ tokens[mid]?, token.kind = .rightParen := by simpa [ends] using hended
    by_cases hclosed : tokens[mid]? = none ∨ contents.toTree = []
    · have hmisses := misses_readRepeated_of_contents hopen hbody hle hclosed
      refine .broken _ (breaks_readNode_of_readRepeated hopen hmisses hle) ?_
      refine (hstep.trans hruns).trans (runFrom_of_unclosed rfl ?_ hended' hclosed)
      intro token unexpected hkind hempty
      simp [Reading.step, hkind, hempty]
    · rw [not_or] at hclosed
      obtain ⟨closing, hclosing⟩ := Option.ne_none_iff_exists'.1 hclosed.1
      have hcounting : (Reading.elements contents (.parens e :: around)).runFrom tokens mid
          = (Reading.counting contents.toTree e around).runFrom tokens (mid + 1) :=
        runFrom_of_step hclosing (.closeParens (hended' closing hclosing) hclosed.2)
      have hleads {bound : Nat} (hbound : mid < bound) :=
        leads_readCount hopen hbody hle hclosed.1 hclosed.2 hbound
      by_cases hcount : (tokens[mid + 1]?).map (·.kind) = some .multiplier
      · obtain ⟨count, hcount, hmultiplier⟩ := Option.map_eq_some_iff.1 hcount
        have hfinds := (hleads (by omega)).finds (finds_readCount hcount hmultiplier)
        obtain ⟨rest, hnode⟩ := leads_readRepeated hopen (show k < mid + 1 + 1 by omega)
        refine .found _ (mid + 2) (e.addGroup (.repeated contents.toTree (repeatCount count.chars)))
          (by omega) (hnode.finds hfinds.orElse) (by simp) (complete_addGroup _) ?_
        rw [hstep, hruns, hcounting]
        exact runFrom_of_step hcount (.count hmultiplier)
      · have hmisses := (hleads (Nat.lt_succ_self mid)).misses
          (f := ⟨mid + 1, some .missingMultiplier⟩) (misses_readCount hcount)
        refine .broken _ (breaks_readNode_of_readRepeated hopen hmisses (Nat.lt_succ_of_lt hle)) ?_
        rw [hstep, hruns, hcounting, error_of_cause]
        exact runFrom_counting hcount
  · obtain ⟨rest, hnode⟩ := leads_readRepeated hopen (Nat.lt_succ_self k)
    have hrepeated := breaks_readRepeated hopen hcontents (Nat.lt_succ_self k)
    refine .broken error ?_ (hstep.trans hruns)
    exact (hnode.breaks hrepeated.orElse).mono (Nat.le_succ k)

end

/-! ## Lists -/

theorem elementAgrees_of_later (hcomplete : Complete tokens e k) (htoken : tokens[k]? = some token)
    (hends : ends around token.kind = false)
    (hlater : AgreesAfter tokens lists k) :
    ElementAgrees tokens lists e around k := by
  by_cases hturn : token.turn? = none
  · by_cases hbracket : token.kind = .leftBracket
    · exact elementAgrees_of_bracket htoken hbracket hlater
    · by_cases hparen : token.kind = .leftParen
      · exact elementAgrees_of_parens htoken hparen hlater
      · exact elementAgrees_of_unexpected htoken hturn hbracket hparen hends
  · exact elementAgrees_of_turns hcomplete htoken hturn

/-- A list ends without another element where its group does. -/
theorem listAgrees_of_ended (h : ∀ token ∈ tokens[k]?, ends around token.kind) :
    ListAgrees tokens (readUntil tokens (bound + 1)) e around k := by
  refine .found [] k e (Nat.le_refl k) ?_ (by simp) h rfl
  rw [readUntil]
  refine ((finds_current? tokens k).leads (Nat.le_refl k)).finds ?_
  cases htoken : tokens[k]? with
  | none => exact finds_pure [] k
  | some token =>
    simp only [Option.map_some, h token htoken, if_true]
    exact finds_pure [] k

/-- Another element is read before the rest of the list. -/
theorem listAgrees_of_element (htoken : tokens[k]? = some token)
    (hends : ends around token.kind = false)
    (helement : ElementAgrees tokens (readUntil tokens bound) e around k)
    (hlater : AgreesAfter tokens (readUntil tokens bound) k) :
    ListAgrees tokens (readUntil tokens (bound + 1)) e around k := by
  have hhere (last : Nat) (hle : k ≤ last) :
      Leads (readUntil tokens (bound + 1) (ends around)) k (do
        let n ← readNode tokens (readUntil tokens bound)
        let ns ← readUntil tokens bound (ends around)
        return n :: ns) k last := by
    rw [readUntil]
    refine ((finds_current? tokens k).leads hle).trans ?_
    simp only [htoken, Option.map_some, hends, Bool.false_eq_true, if_false]
    exact .refl _ k last
  rcases helement with ⟨n, mid, e', hlt, hfinds, hadds, hcomplete, hruns⟩ | ⟨error, hbreaks, hruns⟩
  · rcases hlater mid hlt e' around hcomplete with
      ⟨ns, last, e'', hle, hrest, hadds', hended, hruns'⟩ | ⟨error, hbreaks, hruns'⟩
    · refine .found (n :: ns) last e'' (by omega) ?_ (by simp [hadds', hadds]) hended
        (hruns.trans hruns')
      exact ((hhere last (by omega)).trans (hfinds.leads hle)).finds
        ((hrest.leads (Nat.le_refl last)).finds (finds_pure _ _))
    · refine .broken error ?_ (hruns.trans hruns')
      exact (((hhere mid (by omega)).trans (hfinds.leads (Nat.le_refl mid))).breaks
        hbreaks.bind).mono (Nat.le_of_lt hlt)
  · exact .broken error ((hhere k (Nat.le_refl k)).breaks hbreaks.bind) hruns

/-- Each element takes a token, and the lists in it start behind one, so a bound beyond the tokens
    that are left is kept by all lists that are still to be read. -/
theorem listAgrees (hbound : tokens.length - k < bound) (hcomplete : Complete tokens e k) :
    ListAgrees tokens (readUntil tokens bound) e around k := by
  induction bound generalizing k e around with
  | zero => omega
  | succ bound ih =>
    by_cases hended : ∀ token ∈ tokens[k]?, ends around token.kind
    · exact listAgrees_of_ended hended
    · simp only [Option.mem_def, not_forall, Bool.not_eq_true] at hended
      obtain ⟨token, htoken, hends⟩ := hended
      obtain ⟨hlt, -⟩ := List.getElem?_eq_some_iff.1 htoken
      have hlater : AgreesAfter tokens (readUntil tokens bound) k :=
        fun j hj e around hcomplete => ih (by omega) hcomplete
      exact listAgrees_of_element htoken hends
        (elementAgrees_of_later hcomplete htoken hends hlater) hlater

/-- **Reading by trial gives what reading in one pass does**, within any bound beyond the number of
    tokens. The furthest failure of all attempts is where the one pass stops, and says the same. -/
theorem readWithin_eq (h : tokens.length < bound) :
    readWithin tokens bound = some (Tree.ofTokens tokens) := by
  have hstart : Tree.ofTokens tokens = (Reading.elements .empty []).runFrom tokens 0 := rfl
  have hagrees : ListAgrees tokens (readUntil tokens bound) .empty [] 0 :=
    listAgrees h complete_empty
  rcases hagrees with
    ⟨ns, last, e, hle, hfinds, hadds, hended, hruns⟩ | ⟨error, hbreaks, hruns⟩
  · have hend : tokens[last]? = none := by
      by_contra hsome
      obtain ⟨token, htoken⟩ := Option.ne_none_iff_exists'.1 hsome
      cases hended token htoken
    have hread : Tree.ofTokens tokens = .ok e.toTree := by
      rw [hstart, hruns, runFrom_of_end hend]
      rfl
    obtain ⟨new, htrial, -⟩ := hfinds []
    have htree : e.toTree = ns := by simpa using hadds
    rw [hread, htree]
    show (readUntil tokens bound (ends []) ⟨0, []⟩).bind _ = _
    rw [htrial]
    rfl
  · rw [hstart, hruns]
    show (readUntil tokens bound (ends []) ⟨0, []⟩).bind _ = _
    rw [hbreaks [] (by simp)]
    rfl

theorem read_eq (tokens : List Token) : read tokens = some (Tree.ofTokens tokens) :=
  readWithin_eq (Nat.lt_succ_self tokens.length)

/-- **Reading by trial accepts exactly the grammar.** Tokens are accepted if the grammar derives them
    in any way, and they are read as the one derivation whose longest runs of turns are one sequence
    each. -/
theorem read_accepts_grammar (tokens : List Token) :
    ((∃ t, read tokens = some (.ok t)) ↔ ∃ t, Tree.Written t tokens)
      ∧ ∀ t, read tokens = some (.ok t) ↔ t.Written tokens ∧ t.Joined := by
  rw [read_eq]
  simp only [Option.some.injEq]
  exact ⟨Tree.exists_ofTokens_eq_ok_iff, fun _ => Tree.ofTokens_eq_ok_iff_written⟩

/-- **The error of reading by trial is at the first token that cannot go on.** It is the error of
    reading in one pass; some notation starts with the tokens before it; and either these are all, or
    no notation starts with one token more. -/
theorem read_stops_at_first_offence {tokens : List Token} {e : SyntaxError}
    (h : read tokens = some (.error e)) :
    Tree.ofTokens tokens = .error e ∧ Token.Viable (tokens.take e.index)
      ∧ (e.index = tokens.length
        ∨ e.index < tokens.length ∧ ¬ Token.Viable (tokens.take (e.index + 1))) := by
  rw [read_eq] at h
  have herror := Option.some.inj h
  exact ⟨herror, Tree.viable_of_ofTokens herror⟩

/-- In a commutator with a commutator in it, each tried as a conjugate before, a repetition lacks its
    count. -/
theorem read_stops_at_first_offence_nested :
    let tokens : List Token :=
      [⟨.leftBracket, ['[']⟩, ⟨.leftBracket, ['[']⟩, ⟨.turn, ['R']⟩, ⟨.comma, [',']⟩,
        ⟨.turn, ['U']⟩, ⟨.rightBracket, [']']⟩, ⟨.comma, [',']⟩, ⟨.leftParen, ['(']⟩,
        ⟨.turn, ['F']⟩, ⟨.rightParen, [')']⟩, ⟨.rightBracket, [']']⟩, ⟨.turn, ['D']⟩]
    let e : SyntaxError := ⟨10, .missingMultiplier⟩
    read tokens = some (.error e)
      ∧ Tree.ofTokens tokens = .error e ∧ Token.Viable (tokens.take e.index)
      ∧ (e.index = tokens.length
        ∨ e.index < tokens.length ∧ ¬ Token.Viable (tokens.take (e.index + 1))) := by
  intro tokens e
  have hread : read tokens = some (.error e) :=
    (read_eq tokens).trans (congrArg some (by decide +kernel))
  exact ⟨hread, read_stops_at_first_offence hread⟩

end Backtracking

end Cubing
