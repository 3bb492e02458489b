import Cubing.Proofs.ReadingByTrial

set_option autoImplicit false

/-! # What the cause of an error says is so

The cause of an error is about the token at its index, the one before it, and the innermost group
that is open there (`SyntaxError.Truthful`). Which groups are open can be told from the tokens alone
(`Token.openLists`), and the machine that reads them holds the same groups on its stack
(`Reading.Reads.lists_eq`). What a machine lacks where it stops is told by its innermost list
(`Reading.Lacks`), and a list without elements is right behind the token that began it
(`Reading.Step.begins`).

There is one exception. A bracket that has nothing before its comma is a commutator, but it has been
tried as a conjugate before, at the same token, and of two failures that are equally far the first is
reported. So the error names the wrong kind of bracket there, and there only
(`Backtracking.read_truthful_iff`). -/

namespace Cubing

/-! ## What causes say -/

namespace Token

/-- What a token does to the lists that are open, the innermost first. A list is known by the kind of
    token that begins it: the first side of a bracket by the opening token, the second by the
    separator. -/
def openList (lists : List Kind) (token : Token) : List Kind :=
  match token.kind with
  | .leftBracket | .leftParen => token.kind :: lists
  | .colon | .comma => token.kind :: lists.tail
  | .rightBracket | .rightParen => lists.tail
  | .turn | .multiplier => lists

/-- The lists of groups that are open after some tokens, the innermost first. -/
def openLists (tokens : List Token) : List Kind := tokens.foldl openList []

end Token

namespace SyntaxError

/-- The kind of the token at the index of an error, if there is one. -/
def here? (tokens : List Token) (e : SyntaxError) : Option Token.Kind :=
  (tokens[e.index]?).map (·.kind)

/-- The kind of the token before the index of an error, if there is one. -/
def last? (tokens : List Token) (e : SyntaxError) : Option Token.Kind :=
  (tokens.take e.index).getLast?.map (·.kind)

/-- What the cause of an error says of the tokens. -/
def Truthful (tokens : List Token) (e : SyntaxError) : Prop :=
  match e.cause with
  | .unexpectedEnd => tokens[e.index]? = none
  | .unexpectedToken text position =>
    (tokens[e.index]?).map (·.chars) = some text ∧ position = e.index + 1
  | .missingSeparator =>
    e.here? tokens = some .rightBracket
      ∧ (Token.openLists (tokens.take e.index)).head? = some .leftBracket
  | .emptyLeftSide kind =>
    e.last? tokens = some .leftBracket
      ∧ (e.here? tokens = none ∨ e.here? tokens = some kind.separatorKind)
  | .emptyRightSide kind =>
    e.last? tokens = some kind.separatorKind
      ∧ (e.here? tokens = none ∨ e.here? tokens = some .rightBracket)
  | .emptyRepetition =>
    e.last? tokens = some .leftParen
      ∧ (e.here? tokens = none ∨ e.here? tokens = some .rightParen)
  | .missingMultiplier =>
    e.last? tokens = some .rightParen ∧ e.here? tokens ≠ some .multiplier

/-- Nothing stands before the comma of a bracket. -/
def IsEmptyBeforeComma (tokens : List Token) (e : SyntaxError) : Prop :=
  e.last? tokens = some .leftBracket ∧ e.here? tokens = some .comma

end SyntaxError

/-! ## The groups of a reading -/

/-- The kind of token that begins the innermost list of a group. -/
def OpenGroup.list : OpenGroup → Token.Kind
  | firstSide _ => .leftBracket
  | secondSide _ kind _ => kind.separatorKind
  | parens _ => .leftParen

namespace Reading

/-- The groups around what has been read, the innermost first. -/
def around : Reading → List OpenGroup
  | elements _ around => around
  | counting _ _ around => around

variable {r next : Reading} {token : Token} {tokens : List Token}

theorem Step.lists_eq (h : Step r token next) :
    next.around.map (·.list) = Token.openList (r.around.map (·.list)) token := by
  cases h with
  | turn turn =>
    unfold Token.turn? at turn
    split at turn
    · rename_i hkind
      simp [Token.openList, hkind, around]
    · cases turn
  | openBracket kind => simp [Token.openList, kind, around, OpenGroup.list]
  | openParens kind => simp [Token.openList, kind, around, OpenGroup.list]
  | separator bracket kind full =>
    cases bracket <;> simp only [Bracket.separatorKind] at kind <;>
      simp [Token.openList, kind, around, OpenGroup.list, Bracket.separatorKind]
  | closeBracket kind full => simp [Token.openList, kind, around]
  | closeParens kind full => simp [Token.openList, kind, around]
  | count kind => simp [Token.openList, kind, around]

/-- **The groups of a reading are those that its tokens have opened.** -/
theorem Reads.lists_eq (h : Reads r tokens next) :
    next.around.map (·.list) = tokens.foldl Token.openList (r.around.map (·.list)) := by
  induction h with
  | nil r => rfl
  | cons hstep _ ih => rw [ih, hstep.lists_eq, List.foldl_cons]

/-! ## The last token -/

/-- A group without elements in its list has just been opened, or its separator just been read. -/
theorem Step.begins {current : Elements} {group : OpenGroup} {outer : List OpenGroup}
    (h : Step r token (elements current (group :: outer))) (hempty : current.toTree = []) :
    token.kind = group.list := by
  cases h with
  | turn turn => exact absurd hempty (Elements.toTree_addTurn_ne_nil _ _)
  | openBracket kind => exact kind
  | openParens kind => exact kind
  | separator bracket kind full => exact kind
  | closeBracket kind full => simp at hempty
  | count kind => simp at hempty

theorem Step.closes {body : Tree} {before : Elements} {outer : List OpenGroup}
    (h : Step r token (counting body before outer)) : token.kind = .rightParen := by
  cases h with
  | closeParens kind full => exact kind

/-! ## What is missing -/

/-- What a reading lacks where a token of some kind stands, or none does. -/
inductive Lacks : Reading → Option Token.Kind → SyntaxError.Cause → Prop where
  | separator {current before : Elements} {outer : List OpenGroup} :
      Lacks (elements current (.firstSide before :: outer)) (some .rightBracket) .missingSeparator
  | firstSide {current before : Elements} {outer : List OpenGroup} {here? : Option Token.Kind}
      (empty : current.toTree = [])
      (here : here? = none ∨ here? = some .colon ∨ here? = some .comma) :
      Lacks (elements current (.firstSide before :: outer)) here? (.emptyLeftSide .conjugate)
  | secondSide {current before : Elements} {kind : Bracket} {a : Tree} {outer : List OpenGroup}
      {here? : Option Token.Kind} (empty : current.toTree = [])
      (here : here? = none ∨ here? = some .rightBracket) :
      Lacks (elements current (.secondSide before kind a :: outer)) here? (.emptyRightSide kind)
  | contents {current before : Elements} {outer : List OpenGroup} {here? : Option Token.Kind}
      (empty : current.toTree = []) (here : here? = none ∨ here? = some .rightParen) :
      Lacks (elements current (.parens before :: outer)) here? .emptyRepetition
  | count {body : Tree} {before : Elements} {around : List OpenGroup} {here? : Option Token.Kind}
      (here : here? ≠ some .multiplier) : Lacks (counting body before around) here? .missingMultiplier

theorem lacks_of_separate {kind : Bracket} {current : Elements} {around : List OpenGroup}
    {unexpected cause : SyntaxError.Cause}
    (h : separate kind current around unexpected = .error cause) :
    cause = unexpected ∨ Lacks (elements current around) (some kind.separatorKind) cause := by
  unfold separate at h
  split at h
  · split at h
    · rename_i hempty
      cases h
      refine .inr (.firstSide ((Elements.isEmpty_iff _).1 hempty) ?_)
      cases kind <;> simp [Bracket.separatorKind]
    · cases h
  · cases h
    exact .inl rfl

/-- A token that there is no step for is unexpected, or something is missing before it. -/
theorem lacks_of_step {unexpected cause : SyntaxError.Cause}
    (h : r.step token unexpected = .error cause) :
    cause = unexpected ∨ Lacks r (some token.kind) cause := by
  unfold step at h
  cases r with
  | counting body before around =>
    dsimp only at h
    split at h
    · cases h
    · rename_i hkind
      cases h
      exact .inr (.count (by simpa using hkind))
  | elements current around =>
    dsimp only at h
    split at h
    · split at h
      · cases h
      · cases h
        exact .inl rfl
    · cases h
    · cases h
    · rename_i hkind
      rw [hkind]
      exact lacks_of_separate h
    · rename_i hkind
      rw [hkind]
      exact lacks_of_separate h
    · rename_i hkind
      rw [hkind]
      split at h
      · cases h
        exact .inr .separator
      · split at h
        · rename_i hempty
          cases h
          exact .inr (.secondSide ((Elements.isEmpty_iff _).1 hempty) (.inr rfl))
        · cases h
      · cases h
        exact .inl rfl
    · rename_i hkind
      rw [hkind]
      split at h
      · split at h
        · rename_i hempty
          cases h
          exact .inr (.contents ((Elements.isEmpty_iff _).1 hempty) (.inr rfl))
        · cases h
      · cases h
        exact .inl rfl
    · cases h
      exact .inl rfl

theorem lacks_of_finish {cause : SyntaxError.Cause} (h : r.finish = .error cause) :
    cause = .unexpectedEnd ∨ Lacks r none cause := by
  unfold finish at h
  split at h
  · cases h
    exact .inr (.count (by simp))
  · cases h
  all_goals
    cases h
    split
    · rename_i hempty
      have hnil := (Elements.isEmpty_iff _).1 hempty
      right
      constructor <;> simp [hnil]
    · exact .inl rfl

end Reading

/-! ## Errors -/

section

variable {tokens : List Token} {e : SyntaxError} {r : Reading}

/-- A reading is as it was left by the last token before an error. -/
theorem Reading.Reads.last?_cases (h : Reads .start (tokens.take e.index) r) :
    (e.last? tokens = none ∧ r = .start)
      ∨ ∃ before token, Step before token r ∧ e.last? tokens = some token.kind := by
  rcases List.eq_nil_or_concat (tokens.take e.index) with hnil | ⟨front, token, hfront⟩
  · rw [hnil] at h
    cases h
    exact .inl ⟨by rw [SyntaxError.last?, hnil]; rfl, rfl⟩
  · rw [hfront, List.concat_eq_append] at h
    obtain ⟨before, -, hlast⟩ := reads_append_iff.1 h
    cases hlast with
    | cons hstep hnil =>
      cases hnil
      exact .inr ⟨before, token, hstep, by simp [SyntaxError.last?, hfront]⟩

theorem Reading.Reads.last?_of_empty {current : Elements} {group : OpenGroup}
    {outer : List OpenGroup}
    (h : Reads .start (tokens.take e.index) (elements current (group :: outer)))
    (hempty : current.toTree = []) : e.last? tokens = some group.list := by
  rcases h.last?_cases with ⟨-, hstart⟩ | ⟨before, token, hstep, hlast⟩
  · simp [start] at hstart
  · rw [hlast, hstep.begins hempty]

/-- **What a reading lacks is so**, unless an empty first side is taken for that of a conjugate. -/
theorem Reading.Lacks.truthful (h : r.Lacks (e.here? tokens) e.cause)
    (hreads : Reads .start (tokens.take e.index) r) (hcomma : ¬ e.IsEmptyBeforeComma tokens) :
    e.Truthful tokens := by
  unfold SyntaxError.Truthful
  generalize hhere : e.here? tokens = here? at h ⊢
  generalize e.cause = cause at h ⊢
  cases h with
  | separator =>
    have hlists : Token.openLists (tokens.take e.index) = _ := hreads.lists_eq.symm
    exact ⟨rfl, by rw [hlists]; rfl⟩
  | firstSide empty here =>
    have hlast := hreads.last?_of_empty empty
    refine ⟨hlast, here.imp_right fun hseparator => hseparator.resolve_right ?_⟩
    exact fun hmid => hcomma ⟨hlast, hhere.trans hmid⟩
  | secondSide empty here => exact ⟨hreads.last?_of_empty empty, here⟩
  | contents empty here => exact ⟨hreads.last?_of_empty empty, here⟩
  | count here =>
    rcases hreads.last?_cases with ⟨-, hstart⟩ | ⟨before, token, hstep, hlast⟩
    · simp [start] at hstart
    · exact ⟨hlast.trans (congrArg some hstep.closes), here⟩

/-- Where an error is, the token or the end is unexpected, or something is missing. -/
theorem Reading.Stops.truthful_or_lacks (h : r.Stops e.index e.cause tokens[e.index]?) :
    e.Truthful tokens ∨ r.Lacks (e.here? tokens) e.cause := by
  unfold SyntaxError.here?
  cases htoken : tokens[e.index]? with
  | none =>
    rw [htoken] at h
    refine (lacks_of_finish h).imp_left fun hcause => ?_
    simp [SyntaxError.Truthful, hcause, htoken]
  | some token =>
    rw [htoken] at h
    refine (lacks_of_step h).imp_left fun hcause => ?_
    simp [SyntaxError.Truthful, hcause, htoken]

/-- Before a comma right behind an opening bracket, the empty first side is reported as that of a
    conjugate. -/
theorem Reading.Stops.cause_eq (h : r.Stops e.index e.cause tokens[e.index]?)
    (hreads : Reads .start (tokens.take e.index) r) (hcomma : e.IsEmptyBeforeComma tokens) :
    e.cause = .emptyLeftSide .conjugate := by
  obtain ⟨hlast, hhere⟩ := hcomma
  obtain ⟨token, htoken, hkind⟩ := Option.map_eq_some_iff.1 hhere
  rcases hreads.last?_cases with ⟨hnone, -⟩ | ⟨before, opening, hstep, hlast'⟩
  · cases hnone.symm.trans hlast
  · obtain ⟨outer, around, rfl⟩ :=
      hstep.of_leftBracket (Option.some.inj (hlast'.symm.trans hlast))
    rw [htoken] at h
    have hempty : Elements.empty.isEmpty = true := rfl
    simp only [Stops, step, hkind, separate, hempty, if_true] at h
    exact (Except.error.inj h).symm

end

namespace Backtracking

/-- **The cause of an error is so, with one exception.** What the error of a reading says of the
    token at its index, of the one before it and of the groups that are open is so exactly if it is
    not at a comma right behind an opening bracket. There the empty first side of a commutator is
    reported as that of a conjugate. -/
theorem read_truthful_iff {tokens : List Token} {e : SyntaxError}
    (h : read tokens = some (.error e)) :
    (e.Truthful tokens ↔ ¬ e.IsEmptyBeforeComma tokens)
      ∧ (e.IsEmptyBeforeComma tokens → e.cause = .emptyLeftSide .conjugate) := by
  rw [read_eq] at h
  obtain ⟨r, hreads, hstops, -⟩ := Tree.stops_of_ofTokens (Option.some.inj h)
  have hcause := hstops.cause_eq hreads
  refine ⟨⟨?_, fun hcomma => ?_⟩, hcause⟩
  · intro htrue hcomma
    rw [SyntaxError.Truthful, hcause hcomma] at htrue
    rw [hcomma.2] at htrue
    obtain ⟨-, hnone | hcolon⟩ := htrue
    · cases hnone
    · cases hcolon
  · exact hstops.truthful_or_lacks.elim id fun hlacks => hlacks.truthful hreads hcomma

/-- Inside a repetition, after a commutator has been read, a bracket closes that is tried as a
    conjugate and as a commutator and has no separator. -/
theorem read_truthful_iff_nested :
    let tokens : List Token :=
      [⟨.leftParen, ['(']⟩, ⟨.leftBracket, ['[']⟩, ⟨.turn, ['R']⟩, ⟨.comma, [',']⟩,
        ⟨.turn, ['U']⟩, ⟨.rightBracket, [']']⟩, ⟨.leftBracket, ['[']⟩, ⟨.turn, ['F']⟩,
        ⟨.rightBracket, [']']⟩, ⟨.rightParen, [')']⟩]
    let e : SyntaxError := ⟨8, .missingSeparator⟩
    read tokens = some (.error e) ∧ e.Truthful tokens := by
  intro tokens e
  have hread : read tokens = some (.error e) :=
    (read_eq tokens).trans (congrArg some (by decide +kernel))
  refine ⟨hread, (read_truthful_iff hread).1.2 ?_⟩
  rintro ⟨hlast, -⟩
  cases hlast

/-- The bracket `[, U]` is a commutator, and its error names a conjugate. -/
theorem read_untruthful_before_comma :
    let tokens : List Token :=
      [⟨.leftBracket, ['[']⟩, ⟨.comma, [',']⟩, ⟨.turn, ['U']⟩, ⟨.rightBracket, [']']⟩]
    let e : SyntaxError := ⟨1, .emptyLeftSide .conjugate⟩
    read tokens = some (.error e) ∧ e.here? tokens = some (Bracket.separatorKind .commutator)
      ∧ ¬ e.Truthful tokens := by
  intro tokens e
  have hread : read tokens = some (.error e) :=
    (read_eq tokens).trans (congrArg some (by decide +kernel))
  refine ⟨hread, rfl, ?_⟩
  rintro ⟨-, hnone | hcolon⟩
  · cases hnone
  · cases hcolon

end Backtracking

end Cubing
