import Cubing.Notation.Token
import Cubing.Tree

set_option autoImplicit false

/-! # Reading tokens as a tree

The grammar has one sequence of elements at every level:

- `element  :=  turn+  |  '[' element+ ':' element+ ']'  |  '[' element+ ',' element+ ']'
  |  '(' element+ ')' count`
- `algorithm  :=  element*`

A token decides by its kind alone what it does to the groups that are open, so tokens are read one
by one, from left to right, without looking ahead or back. What has been read is a `Reading`: the
elements of the innermost open list and the groups around it, the innermost first. The first token
that does not fit ends the reading, and its error says what is missing there. -/

namespace Cubing

/-! ## Errors -/

/-- What is wrong at a token, or at the end. -/
inductive SyntaxError.Cause where
  /-- The text ends while a group is open. -/
  | unexpectedEnd
  /-- A token stands where none of its kind can. -/
  | unexpectedToken (text : List Char) (position : Nat)
  /-- Brackets close without `:` or `,` between them. -/
  | missingSeparator
  | emptyLeftSide (kind : Bracket)
  | emptyRightSide (kind : Bracket)
  | emptyRepetition
  /-- No count follows a closing parenthesis. -/
  | missingMultiplier
  deriving DecidableEq

structure SyntaxError where
  /-- The index of the token that does not fit, from 0; the number of tokens if the end does not. -/
  index : Nat
  cause : SyntaxError.Cause
  deriving DecidableEq

def SyntaxError.Cause.message : SyntaxError.Cause → String
  | unexpectedEnd => "Unexpected end of input."
  | unexpectedToken text position =>
    s!"Unexpected token {String.ofList text} at position {position}."
  | missingSeparator => "Missing seperator : or , inside brackets."
  | emptyLeftSide kind => s!"Left side of {kind.name} can't be empty."
  | emptyRightSide kind => s!"Right side of {kind.name} can't be empty."
  | emptyRepetition => "Repeating group can't be empty."
  | missingMultiplier => "Repeating group must be followed by a multiplier."

def SyntaxError.message (e : SyntaxError) : String := e.cause.message

/-! ## Repeat counts -/

/-- The largest repeat count. -/
def maxCount : Nat := UInt32.size - 1

/-- The number that characters write: decimal digits, after one plus sign if there is one. -/
def decimalValue? (cs : List Char) : Option Nat :=
  let digits := match cs with | '+' :: rest => rest | _ => cs
  if !digits.isEmpty && digits.all Char.isDigit then some (Nat.ofDigitChars 10 digits 0) else none

/-- The repeat count that characters write. Whatever is no count in range counts as the largest. -/
def repeatCount (cs : List Char) : UInt32 :=
  .ofNat (((decimalValue? cs).map (min · maxCount)).getD maxCount)

theorem decimalValue?_eq_some {cs : List Char} (hne : cs ≠ []) (hdigits : ∀ c ∈ cs, c.isDigit) :
    decimalValue? cs = some (Nat.ofDigitChars 10 cs 0) := by
  cases cs with
  | nil => exact absurd rfl hne
  | cons c cs =>
    have hplus : c ≠ '+' := by
      rintro rfl
      cases hdigits '+' List.mem_cons_self
    simp only [decimalValue?]
    split
    · rename_i heq
      cases heq
      exact absurd rfl hplus
    · have hall : (c :: cs).all Char.isDigit := List.all_eq_true.2 hdigits
      simp [hall]

/-- Digits count what they write, as far as counts go. -/
theorem toNat_repeatCount {cs : List Char} (hne : cs ≠ []) (hdigits : ∀ c ∈ cs, c.isDigit) :
    (repeatCount cs).toNat = min (Nat.ofDigitChars 10 cs 0) maxCount := by
  have hlt : min (Nat.ofDigitChars 10 cs 0) maxCount < UInt32.size :=
    Nat.lt_of_le_of_lt (Nat.min_le_right _ _) (by decide)
  rw [repeatCount, decimalValue?_eq_some hne hdigits]
  exact UInt32.toNat_ofNat_of_lt' hlt

/-! ## Lists under construction -/

/-- A list of elements of which the last may be a sequence that still grows. Both parts hold the
    latest first. -/
structure Elements where
  /-- The finished elements. -/
  nodes : List Node
  /-- The turns read since. -/
  turns : List Turn

namespace Elements

def empty : Elements := ⟨[], []⟩

def isEmpty (e : Elements) : Bool := e.nodes.isEmpty && e.turns.isEmpty

/-- The finished elements, latest first, once the open sequence is one of them. -/
def closed (e : Elements) : List Node :=
  if e.turns.isEmpty then e.nodes else .seq e.turns.reverse :: e.nodes

def toTree (e : Elements) : Tree := e.closed.reverse

/-- Adds a turn to the open sequence. -/
def addTurn (e : Elements) (t : Turn) : Elements := ⟨e.nodes, t :: e.turns⟩

/-- Closes the open sequence and adds a group after it. -/
def addGroup (e : Elements) (n : Node) : Elements := ⟨n :: e.closed, []⟩

@[simp] theorem toTree_empty : empty.toTree = [] := rfl

@[simp] theorem toTree_addGroup (e : Elements) (n : Node) :
    (e.addGroup n).toTree = e.toTree ++ [n] := by
  simp [toTree, addGroup, closed]

theorem isEmpty_iff (e : Elements) : e.isEmpty ↔ e.toTree = [] := by
  obtain ⟨nodes, turns⟩ := e
  cases turns <;> simp [isEmpty, toTree, closed]

end Elements

/-! ## Reading -/

/-- A group that has been opened, with the elements read before it. -/
inductive OpenGroup where
  /-- A bracket before its separator. -/
  | firstSide (before : Elements)
  /-- A bracket after its separator, with its first side. -/
  | secondSide (before : Elements) (kind : Bracket) (a : Tree)
  | parens (before : Elements)

/-- What has been read of an algorithm: a list of elements, or a pair of parentheses that still
    lacks its count; and the groups around it, the innermost first. -/
inductive Reading where
  | elements (current : Elements) (around : List OpenGroup)
  | counting (body : Tree) (before : Elements) (around : List OpenGroup)

namespace Reading

def start : Reading := elements .empty []

/-- Reads a separator: it ends the first side of a bracket, which must not be empty. An empty first
    side is always reported as that of a conjugate. -/
def separate (kind : Bracket) (current : Elements) (around : List OpenGroup)
    (unexpected : SyntaxError.Cause) : Except SyntaxError.Cause Reading :=
  match around with
  | .firstSide before :: outer =>
    if current.isEmpty then .error (.emptyLeftSide .conjugate)
    else .ok (elements .empty (.secondSide before kind current.toTree :: outer))
  | _ => .error unexpected

/-- Reads one token. `unexpected` is the cause to report where no token of its kind can stand. -/
def step (r : Reading) (token : Token) (unexpected : SyntaxError.Cause) :
    Except SyntaxError.Cause Reading :=
  match r with
  | counting body before around =>
    match token.kind with
    | .multiplier =>
      .ok (elements (before.addGroup (.repeated body (repeatCount token.chars))) around)
    | _ => .error .missingMultiplier
  | elements current around =>
    match token.kind with
    | .turn =>
      match Turn.ofChars? token.chars with
      | some t => .ok (elements (current.addTurn t) around)
      | none => .error unexpected
    | .leftBracket => .ok (elements .empty (.firstSide current :: around))
    | .leftParen => .ok (elements .empty (.parens current :: around))
    | .colon => separate .conjugate current around unexpected
    | .comma => separate .commutator current around unexpected
    | .rightBracket =>
      match around with
      | .firstSide _ :: _ => .error .missingSeparator
      | .secondSide before kind a :: outer =>
        if current.isEmpty then .error (.emptyRightSide kind)
        else .ok (elements (before.addGroup (.bracket kind a current.toTree)) outer)
      | _ => .error unexpected
    | .rightParen =>
      match around with
      | .parens before :: outer =>
        if current.isEmpty then .error .emptyRepetition
        else .ok (counting current.toTree before outer)
      | _ => .error unexpected
    | .multiplier => .error unexpected

/-- Ends the reading: no group may be open any more. -/
def finish : Reading → Except SyntaxError.Cause Tree
  | counting .. => .error .missingMultiplier
  | elements current [] => .ok current.toTree
  | elements current (.firstSide _ :: _) =>
    .error (if current.isEmpty then .emptyLeftSide .conjugate else .unexpectedEnd)
  | elements current (.secondSide _ kind _ :: _) =>
    .error (if current.isEmpty then .emptyRightSide kind else .unexpectedEnd)
  | elements current (.parens _ :: _) =>
    .error (if current.isEmpty then .emptyRepetition else .unexpectedEnd)

/-- Reads tokens to the end, the first of which has a given index. -/
def run (r : Reading) (index : Nat) : List Token → Except SyntaxError Tree
  | [] => r.finish.mapError (⟨index, ·⟩)
  | token :: tokens =>
    match r.step token (.unexpectedToken token.chars (index + 1)) with
    | .ok next => next.run (index + 1) tokens
    | .error cause => .error ⟨index, cause⟩

end Reading

def Tree.ofTokens (tokens : List Token) : Except SyntaxError Tree := Reading.start.run 0 tokens

end Cubing
