import Cubing.Text.Blank
import Cubing.Tree

set_option autoImplicit false

/-! # Spellings

Notation has more than one way to write the same thing. The prime of a turn is an apostrophe or one of
two typographic primes, the `2` of a half turn may have a prime beside it, and a wide turn is written
with the lower-case letter or with the upper-case letter and a `w`. A count stands directly behind its
parenthesis, or behind one star. Everywhere else there may be blanks, and nowhere is there need of any.

`Tree.Spelling t cs` says that a text is one of the spellings of a tree. Each turn and each count in it
is spelled as it likes, whatever the spellings of the others. -/

namespace Cubing

open Text (isBlank)

/-! ## Turns -/

/-- The characters that are written for a prime. -/
def primes : List Char := ['\'', '\u2019', '\u2032']

def Move.spellings : Move → List (List Char)
  | wide f => [[f.wideLetter], [f.letter, 'w']]
  | m => [[m.letter]]

/-- What may be written for a direction behind the letter of a move. -/
def Direction.spellings : Direction → List (List Char)
  | cw => [[]]
  | double => ['2'] :: primes.flatMap fun p => [['2', p], [p, '2']]
  | ccw => primes.map fun p => [p]

/-- All spellings of a turn: those of its move, each with those of its direction. -/
def Turn.spellings (t : Turn) : List (List Char) :=
  t.move.spellings.flatMap fun ms => t.direction.spellings.map fun ds => ms ++ ds

/-- Turns one after the other, each in one of its spellings and with any blanks before it. -/
inductive Turn.ListSpelling : List Turn → List Char → Prop where
  | nil : Turn.ListSpelling [] []
  | cons {t : Turn} {ts : List Turn} {gap here there : List Char} (blanks : ∀ c ∈ gap, isBlank c)
      (spelled : here ∈ t.spellings) (rest : Turn.ListSpelling ts there) :
      Turn.ListSpelling (t :: ts) (gap ++ here ++ there)

/-! ## Groups -/

/-- What may stand between a closing parenthesis and its count. -/
def stars : List (List Char) := [[], ['*']]

mutual

/-- A text is one of the spellings of a node. -/
inductive Node.Spelling : Node → List Char → Prop where
  | seq {ts : List Turn} {cs : List Char} (turns : Turn.ListSpelling ts cs) :
      Node.Spelling (.seq ts) cs
  | bracket {kind : Bracket} {a b : List Node} {as bs : List Char}
      (first : Node.ListSpelling a as) (second : Node.ListSpelling b bs) :
      Node.Spelling (.bracket kind a b) ('[' :: as ++ kind.separator :: bs ++ [']'])
  | repeated {body : List Node} {n : UInt32} {cs star : List Char}
      (contents : Node.ListSpelling body cs) (starred : star ∈ stars) :
      Node.Spelling (.repeated body n) ('(' :: cs ++ ')' :: star ++ Nat.toDigits 10 n.toNat)

/-- Nodes one after the other, each in one of its spellings, with any blanks before each and at the
    end. -/
inductive Node.ListSpelling : List Node → List Char → Prop where
  | nil {gap : List Char} (blanks : ∀ c ∈ gap, isBlank c) : Node.ListSpelling [] gap
  | cons {n : Node} {ns : List Node} {gap here there : List Char} (blanks : ∀ c ∈ gap, isBlank c)
      (spelled : Node.Spelling n here) (rest : Node.ListSpelling ns there) :
      Node.ListSpelling (n :: ns) (gap ++ here ++ there)

end

/-- A text is one of the spellings of a tree. -/
def Tree.Spelling (t : Tree) (cs : List Char) : Prop := Node.ListSpelling t cs

end Cubing
