import Cubing.Notation.Parsing

set_option autoImplicit false

/-! # The grammar of notation

`Tree.Written t tokens` says that a list of tokens is a way to write a tree: the rules of the
grammar, one for each kind of element, without a word about how tokens are read. Only the kinds of
punctuation tokens count, not their characters.

A run of turns could be cut into sequences in many ways. A tree is `Tree.Joined` if it never has two
sequences side by side, so that every longest run of turns is one sequence. -/

namespace Cubing

/-- The turn that a token stands for. -/
def Token.turn? (token : Token) : Option Turn :=
  match token.kind with
  | .turn => Turn.ofChars? token.chars
  | _ => none

/-- The kind of token that separates the sides of a bracket. -/
def Bracket.separatorKind : Bracket → Token.Kind
  | commutator => .comma
  | conjugate => .colon

mutual

/-- Tokens that write one element. -/
inductive Node.Written : Node → List Token → Prop where
  /-- Turns write a sequence; there is at least one. -/
  | seq {ts : List Turn} {tokens : List Token} (nonempty : ts ≠ [])
      (turns : tokens.map Token.turn? = ts.map some) : Node.Written (.seq ts) tokens
  /-- Two sides that are not empty, with a separator between them and brackets around them. -/
  | bracket {kind : Bracket} {a b : List Node} {as bs : List Token} {opening mid closing : Token}
      (left : opening.kind = .leftBracket) (between : mid.kind = kind.separatorKind)
      (right : closing.kind = .rightBracket) (first : a ≠ []) (second : b ≠ [])
      (writesFirst : Node.ListWritten a as) (writesSecond : Node.ListWritten b bs) :
      Node.Written (.bracket kind a b) (opening :: as ++ mid :: bs ++ [closing])
  /-- Contents that are not empty in parentheses, followed by a count. -/
  | repeated {body : List Node} {tokens : List Token} {opening closing count : Token}
      (left : opening.kind = .leftParen) (right : closing.kind = .rightParen)
      (counts : count.kind = .multiplier) (contents : body ≠ [])
      (writes : Node.ListWritten body tokens) :
      Node.Written (.repeated body (repeatCount count.chars)) (opening :: tokens ++ [closing, count])

/-- Tokens that write elements one after the other. -/
inductive Node.ListWritten : List Node → List Token → Prop where
  | nil : Node.ListWritten [] []
  | cons {n : Node} {ns : List Node} {here there : List Token} (writes : Node.Written n here)
      (rest : Node.ListWritten ns there) : Node.ListWritten (n :: ns) (here ++ there)

end

/-- Tokens that write an algorithm. -/
def Tree.Written (t : Tree) (tokens : List Token) : Prop := Node.ListWritten t tokens

theorem Node.ListWritten.append {ms ns : List Node} {ts us : List Token}
    (hm : Node.ListWritten ms ts) (hn : Node.ListWritten ns us) :
    Node.ListWritten (ms ++ ns) (ts ++ us) := by
  induction ms generalizing ts with
  | nil =>
    cases hm
    exact hn
  | cons m ms ih =>
    cases hm with
    | cons writes rest =>
      rw [List.append_assoc]
      exact .cons writes (ih rest)

namespace Node

variable {ms ns : List Node} {n : Node} {tokens : List Token}

theorem listWritten_nil_iff : ListWritten [] tokens ↔ tokens = [] := by
  constructor
  · intro h
    cases h
    rfl
  · rintro rfl
    exact .nil

theorem listWritten_cons_iff :
    ListWritten (n :: ns) tokens ↔
      ∃ here there, Written n here ∧ ListWritten ns there ∧ here ++ there = tokens := by
  constructor
  · intro h
    cases h with
    | cons writes rest => exact ⟨_, _, writes, rest, rfl⟩
  · rintro ⟨here, there, writes, rest, rfl⟩
    exact .cons writes rest

theorem listWritten_singleton_iff : ListWritten [n] tokens ↔ Written n tokens := by
  simp [listWritten_cons_iff, listWritten_nil_iff]

theorem listWritten_append_iff :
    ListWritten (ms ++ ns) tokens ↔
      ∃ here there, ListWritten ms here ∧ ListWritten ns there ∧ here ++ there = tokens := by
  constructor
  · intro h
    induction ms generalizing tokens with
    | nil => exact ⟨[], tokens, .nil, h, rfl⟩
    | cons m ms ih =>
      obtain ⟨first, rest, hm, hrest, rfl⟩ := listWritten_cons_iff.1 h
      obtain ⟨here, there, hms, hns, rfl⟩ := ih hrest
      exact ⟨first ++ here, there, .cons hm hms, hns, List.append_assoc ..⟩
  · rintro ⟨here, there, hms, hns, rfl⟩
    exact hms.append hns

/-- Every element takes at least one token. -/
theorem Written.tokens_ne_nil (h : Written n tokens) : tokens ≠ [] := by
  cases h with
  | @seq ts _ nonempty turns =>
    rintro rfl
    cases ts with
    | nil => exact nonempty rfl
    | cons t ts => cases turns
  | bracket => simp
  | repeated => simp

theorem ListWritten.eq_nil_iff (h : ListWritten ns tokens) : ns = [] ↔ tokens = [] := by
  cases h with
  | nil => simp
  | cons writes rest => simp [writes.tokens_ne_nil]

end Node

/-- Induction over the way an algorithm is written: its first element is of one of the three kinds,
    and the statement holds of what is written inside that element and after it. -/
@[elab_as_elim]
theorem Tree.Written.induction
    {motive : (t : Tree) → (tokens : List Token) → t.Written tokens → Prop}
    (nil : motive [] [] .nil)
    (seq : ∀ {ts : List Turn} {t : Tree} {here there : List Token} (nonempty : ts ≠ [])
      (turns : here.map Token.turn? = ts.map some) (rest : t.Written there),
      motive t there rest → motive (.seq ts :: t) (here ++ there) (.cons (.seq nonempty turns) rest))
    (bracket : ∀ {kind : Bracket} {a b t : Tree} {as bs there : List Token}
      {opening mid closing : Token} (left : opening.kind = .leftBracket)
      (between : mid.kind = kind.separatorKind) (right : closing.kind = .rightBracket)
      (first : a ≠ []) (second : b ≠ []) (writesFirst : a.Written as) (writesSecond : b.Written bs)
      (rest : t.Written there),
      motive a as writesFirst → motive b bs writesSecond → motive t there rest →
      motive (.bracket kind a b :: t) (opening :: as ++ mid :: bs ++ [closing] ++ there)
        (.cons (.bracket left between right first second writesFirst writesSecond) rest))
    (repeated : ∀ {body t : Tree} {tokens there : List Token} {opening closing count : Token}
      (left : opening.kind = .leftParen) (right : closing.kind = .rightParen)
      (counts : count.kind = .multiplier) (contents : body ≠ []) (writes : body.Written tokens)
      (rest : t.Written there),
      motive body tokens writes → motive t there rest →
      motive (.repeated body (repeatCount count.chars) :: t)
        (opening :: tokens ++ [closing, count] ++ there)
        (.cons (.repeated left right counts contents writes) rest))
    {t : Tree} {tokens : List Token} (h : t.Written tokens) : motive t tokens h := by
  induction t using Tree.induction generalizing tokens with
  | nil =>
    cases h
    exact nil
  | seq ts t ih =>
    cases h with
    | cons writes rest =>
      cases writes with
      | seq nonempty turns => exact seq nonempty turns rest (ih rest)
  | bracket kind a b t iha ihb ih =>
    cases h with
    | cons writes rest =>
      cases writes with
      | bracket left between right first second writesFirst writesSecond =>
        exact bracket left between right first second writesFirst writesSecond rest
          (iha writesFirst) (ihb writesSecond) (ih rest)
  | repeated body n t ihbody ih =>
    cases h with
    | cons writes rest =>
      cases writes with
      | repeated left right counts contents writes =>
        exact repeated left right counts contents writes rest (ihbody writes) (ih rest)

/-! ## Longest runs -/

/-- Whether no two sequences stand side by side in a list. -/
def Node.apart : List Node → Bool
  | m :: n :: ns => !(m.isSeq && n.isSeq) && Node.apart (n :: ns)
  | _ => true

mutual

/-- Whether no two sequences stand side by side anywhere in an element. -/
def Node.joined : Node → Bool
  | .seq _ => true
  | .bracket _ a b =>
    Node.apart a && Node.listJoined a && (Node.apart b && Node.listJoined b)
  | .repeated body _ => Node.apart body && Node.listJoined body

/-- Whether no two sequences stand side by side anywhere in the elements of a list. -/
def Node.listJoined : List Node → Bool
  | [] => true
  | n :: ns => n.joined && Node.listJoined ns

end

/-- No two sequences stand side by side anywhere in a tree. -/
def Tree.Joined (t : Tree) : Prop := Node.apart t && Node.listJoined t

instance (t : Tree) : Decidable t.Joined := inferInstanceAs (Decidable (_ = true))

end Cubing
