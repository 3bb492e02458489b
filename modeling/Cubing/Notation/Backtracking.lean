import Cubing.Notation.Grammar

set_option autoImplicit false

/-! # Reading by trial

The grammar can also be read off rule by rule: at a cursor, try a sequence, then each kind of group,
and take the first that fits. A rule that does not fit writes down where it failed, takes the cursor
back, and leaves the place to the next rule. What it has written down stays: once no rule fits, the
error is the failure furthest into the tokens, whichever attempt it comes from.

A group that has been tried as a conjugate is read again from its start when it is tried as a
commutator. An error inside a group ends the whole reading at once.

A list of elements is read with a bound on how many are read one after the other and one inside the
other, and without a result beyond it. The number of tokens is bound enough, and the result is what
`Tree.ofTokens` gives without ever going back; both are proved where the two are compared. -/

namespace Cubing.Backtracking

/-! ## Failures -/

/-- An attempt that did not fit. -/
structure Failure where
  /-- The index of the token where it stopped. -/
  index : Nat
  /-- What is wrong there, if there is more to say than that the token does not fit. -/
  cause? : Option SyntaxError.Cause
  deriving DecidableEq

/-- Keeps a failure if it is further into the tokens than the furthest so far. -/
def deeper (deepest : Option Failure) (f : Failure) : Option Failure :=
  if deepest.all (·.index < f.index) then some f else deepest

/-- The first of the furthest failures. -/
def deepest? (failures : List Failure) : Option Failure := failures.foldl deeper none

/-- The failure as an error. Without a cause of its own it is the token, or that there is none. -/
def Failure.error (tokens : List Token) (f : Failure) : SyntaxError where
  index := f.index
  cause := f.cause?.getD <|
    match tokens[f.index]? with
    | none => .unexpectedEnd
    | some token => .unexpectedToken token.chars (f.index + 1)

/-! ## The cursor -/

structure State where
  cursor : Nat
  /-- All failures so far in the order in which they happened. Going back keeps them. -/
  failures : List Failure

/-- A step of the reading: it goes on, ends with an error, or is beyond the bound. -/
abbrev Reader (α : Type) := StateT State (ExceptT SyntaxError Option) α

def position : Reader Nat := return (← get).cursor

def advance : Reader Unit := modify fun s => ⟨s.cursor + 1, s.failures⟩

/-- Gives an attempt up: writes down a failure at the cursor and goes back to the start. -/
def giveUp (start : Nat) (cause? : Option SyntaxError.Cause) : Reader (Option Node) := do
  modify fun s => ⟨start, s.failures ++ [⟨s.cursor, cause?⟩]⟩
  return none

section

variable (tokens : List Token)

/-- The kind of the token at the cursor. -/
def current? : Reader (Option Token.Kind) := return (tokens[← position]?).map (·.kind)

/-- The error to report when nothing fits. -/
def deepestError : Reader SyntaxError := do
  let s ← get
  return ((deepest? s.failures).getD ⟨s.cursor, none⟩).error tokens

/-! ## Rules -/

/-- The turns at the start of some tokens. -/
def leadingTurns : List Token → List Turn
  | [] => []
  | token :: rest =>
    match token.turn? with
    | some t => t :: leadingTurns rest
    | none => []

def readSequence : Reader (Option Node) := do
  let start ← position
  let ts := leadingTurns (tokens.drop start)
  if ts.isEmpty then
    giveUp start none
  else
    modify fun s => ⟨start + ts.length, s.failures⟩
    return some (.seq ts)

/-- Reads the count of some contents. -/
def readCount (start : Nat) (body : Tree) : Reader (Option Node) := do
  match tokens[← position]? with
  | some ⟨.multiplier, digits⟩ =>
    advance
    return some (.repeated body (repeatCount digits))
  | _ => giveUp start (some .missingMultiplier)

/-- Whether the first side of a bracket ends at a token. -/
def endsFirstSide : Token.Kind → Bool
  | .colon | .comma | .rightBracket => true
  | _ => false

/-- How the elements up to a token that ends them are read. -/
abbrev ListReader := (Token.Kind → Bool) → Reader (List Node)

section

variable (lists : ListReader)

/-- Reads a bracket on after its separator. -/
def readSecondSide (kind : Bracket) (start : Nat) (a : Tree) : Reader (Option Node) := do
  let b ← lists (· = .rightBracket)
  if (← current? tokens).isNone || b.isEmpty then
    giveUp start (if b.isEmpty then some (.emptyRightSide kind) else none)
  else
    advance
    return some (.bracket kind a b)

/-- Reads a bracket of the given kind, or gives it up. -/
def readBracket (kind : Bracket) : Reader (Option Node) := do
  let start ← position
  if (← current? tokens) ≠ some .leftBracket then
    giveUp start none
  else
    advance
    let a ← lists endsFirstSide
    let separator ← current? tokens
    if separator ≠ some kind.separatorKind || a.isEmpty then
      giveUp start <|
        if separator = some .rightBracket then some .missingSeparator
        else if a.isEmpty then some (.emptyLeftSide kind) else none
    else
      advance
      readSecondSide tokens lists kind start a

/-- Reads contents in parentheses and their count, or gives them up. -/
def readRepeated : Reader (Option Node) := do
  let start ← position
  if (← current? tokens) ≠ some .leftParen then
    giveUp start none
  else
    advance
    let body ← lists (· = .rightParen)
    if (← current? tokens).isNone || body.isEmpty then
      giveUp start (if body.isEmpty then some .emptyRepetition else none)
    else
      advance
      readCount tokens start body

/-- Reads one element by the first rule that fits. -/
def readNode : Reader Node := do
  match ← readSequence tokens with
  | some n => return n
  | none =>
    match ← readBracket tokens lists .conjugate with
    | some n => return n
    | none =>
      match ← readBracket tokens lists .commutator with
      | some n => return n
      | none =>
        match ← readRepeated tokens lists with
        | some n => return n
        | none => throw (← deepestError tokens)

end

/-- Reads elements up to a token that ends them, or to the end. The first argument bounds how many
    elements are read one after the other or one inside the other. -/
def readUntil : Nat → ListReader
  | 0, _ => fun _ => none
  | bound + 1, ends => do
    match ← current? tokens with
    | none => return []
    | some kind =>
      if ends kind then return []
      else
        let n ← readNode tokens (readUntil bound)
        let ns ← readUntil bound ends
        return n :: ns

/-- Reads all tokens as elements, within a bound. -/
def readWithin (bound : Nat) : Option (Except SyntaxError Tree) :=
  ((readUntil tokens bound fun _ => false).run' ⟨0, []⟩).run

/-- Reads all tokens as elements. Every element takes a token, so their number is bound enough. -/
def read : Option (Except SyntaxError Tree) := readWithin tokens (tokens.length + 1)

end

/-! ## Token by token

The rules take the turns of a sequence at once, and a count together with the check that it is one.
The cursor moves on by single tokens: turns are taken in a loop, and a count is taken by its index
after its kind has been checked. There is no result if the loop is beyond its bound, or the index
outside the tokens. That neither happens, and that these are the rules above, is proved where
reading is shown to end. -/

section

variable (tokens : List Token)

/-- Reads turns up to a token that is none, whatever its kind says. The first argument bounds how
    many are read. -/
def readTurns : Nat → Reader (List Turn)
  | 0 => fun _ => none
  | bound + 1 => do
    match (tokens[← position]?).bind Token.turn? with
    | none => return []
    | some t =>
      advance
      let ts ← readTurns bound
      return t :: ts

/-- The rule of sequences, turn by turn within a bound. -/
def readSequenceWithin (bound : Nat) : Reader (Option Node) := do
  let ts ← readTurns tokens bound
  if ts.isEmpty then
    giveUp (← position) none
  else
    return some (.seq ts)

/-- The token that the cursor is the index of. -/
def tokenHere : Reader Token := do
  match tokens[← position]? with
  | some token => return token
  | none => fun _ => none

/-- Reads the count of some contents by its index. -/
def readCountHere (start : Nat) (body : Tree) : Reader (Option Node) := do
  if (← current? tokens) ≠ some .multiplier then
    giveUp start (some .missingMultiplier)
  else
    let count ← tokenHere tokens
    advance
    return some (.repeated body (repeatCount count.chars))

end

end Cubing.Backtracking
