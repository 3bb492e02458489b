import Cubing.Notation.Reading
import Cubing.Tree.MultiplierBound
import Cubing.Tree.OuterTurns
import Cubing.Tree.Printer
import Cubing.Tree.Simplification
import Cubing.Tree.TurnCount

set_option autoImplicit false

/-! # Algorithms within limits

An `Algorithm` is a text together with the tree that was read from it. `Algorithm.ofText` reads one
within `Limits`, which are checked in order of cost: the length of the text before it is read, the
repeat counts and the size of the expansion on the tree, and only then, with the expansion known to
be small enough to carry out, the number of turns that are left after simplifying it.

All other views of an algorithm are computed from its tree. -/

namespace Cubing

/-! ## Limits -/

/-- Bounds on an algorithm. -/
structure Limits where
  /-- Largest length of the text, in characters. -/
  maxLength : Nat := 64
  /-- Largest number of turns after expanding and simplifying. -/
  maxTurns : Nat := 64
  /-- Largest number of turns after expanding, before simplifying. -/
  maxExpandedTurns : Nat := 4096
  /-- Largest repeat count. -/
  maxMultiplier : UInt32 := 6
  deriving DecidableEq

namespace Limits

/-- Limits for text from outside. -/
def standard : Limits := {}

/-- Limits that nothing exceeds: the largest count and the largest repeat count. -/
def unlimited : Limits := ⟨Count.cap, Count.cap, Count.cap, .ofNat maxCount⟩

end Limits

/-- Why a text is no algorithm within limits. -/
inductive AlgorithmError where
  | tooLong (length max : Nat)
  /-- There are too many turns, before or after simplifying. -/
  | tooManyTurns (turns max : Nat)
  | unreadable (e : ReadError)
  | multiplierTooLarge (e : MultiplierTooLarge)
  deriving DecidableEq

def AlgorithmError.message : AlgorithmError → String
  | tooLong length max =>
    s!"Algorithm can't be longer than {max} characters (length: {length})."
  | tooManyTurns turns max => s!"Algorithm can't be longer than {max} turns (length: {turns})."
  | unreadable e => e.message
  | multiplierTooLarge e => e.message

/-! ## Algorithms -/

/-- A text and the tree it was read as. -/
structure Algorithm where
  raw : String
  tree : Tree
  deriving DecidableEq

namespace Algorithm

/-- The turns of the expanded and simplified algorithm. -/
def turns (a : Algorithm) : List Turn :=
  (Tree.clean (Tree.sequence a.tree)).topTurns

/-- The simplified algorithm as text. -/
def clean (a : Algorithm) : String := Tree.text (Tree.clean a.tree)

/-- An algorithm is shown by its simplified text. -/
instance : ToString Algorithm := ⟨clean⟩

/-- The simplified inverse as text. -/
def inverse (a : Algorithm) : String := Tree.text (Tree.clean (Tree.inv a.tree))

/-- The expanded and simplified algorithm as text. -/
def sequence (a : Algorithm) : String := Tree.text (Tree.clean (Tree.sequence a.tree))

/-- The algorithm expanded to outer face turns only and simplified, as text. -/
def rotationless (a : Algorithm) : String := Tree.text (Tree.clean (Tree.rotationless a.tree))

/-- The inverse algorithm. Its text is the simplified one. -/
def inv (a : Algorithm) : Algorithm := ⟨a.inverse, Tree.inv a.tree⟩

/-- Reads a text as an algorithm within limits. -/
def ofText (s : String) (limits : Limits := .standard) : Except AlgorithmError Algorithm := do
  if limits.maxLength < s.length then
    throw (.tooLong s.length limits.maxLength)
  let tree ← (Tree.ofText s).mapError .unreadable
  (tree.checkMultipliers limits.maxMultiplier).mapError .multiplierTooLarge
  if limits.maxExpandedTurns < tree.turnCount then
    throw (.tooManyTurns tree.turnCount limits.maxExpandedTurns)
  let algorithm : Algorithm := ⟨s, tree⟩
  if limits.maxTurns < algorithm.turns.length then
    throw (.tooManyTurns algorithm.turns.length limits.maxTurns)
  return algorithm

end Algorithm

/-! ## Accepted texts -/

section

variable {ε ε' α β : Type}

theorem bind_eq_ok_iff {x : Except ε α} {f : α → Except ε β} {b : β} :
    (x >>= f) = .ok b ↔ ∃ a, x = .ok a ∧ f a = .ok b := by
  cases x <;> simp [bind, Except.bind]

theorem mapError_eq_ok_iff {x : Except ε α} {f : ε → ε'} {a : α} :
    x.mapError f = .ok a ↔ x = .ok a := by
  delta Except.mapError
  cases x <;> simp

theorem check_eq_ok_iff {c : Prop} [Decidable c] {e : ε} {f : α → Except ε β} {x : Except ε β}
    {b : β} : (if c then throw e >>= f else x) = .ok b ↔ ¬ c ∧ x = .ok b := by
  by_cases hc : c
  · rw [if_pos hc]
    exact iff_of_false nofun fun h => h.1 hc
  · rw [if_neg hc]
    exact (and_iff_right hc).symm

end

/-- A text is accepted if it is notation and passes every check. -/
theorem Algorithm.ofText_eq_ok_iff {s : String} {limits : Limits} {a : Algorithm} :
    ofText s limits = .ok a ↔ a.raw = s ∧ s.length ≤ limits.maxLength ∧ Tree.ofText s = .ok a.tree
      ∧ a.tree.checkMultipliers limits.maxMultiplier = .ok ()
      ∧ a.tree.turnCount ≤ limits.maxExpandedTurns ∧ a.turns.length ≤ limits.maxTurns := by
  obtain ⟨raw, tree⟩ := a
  simp only [ofText, check_eq_ok_iff, bind_eq_ok_iff, mapError_eq_ok_iff, Nat.not_lt]
  constructor
  · rintro ⟨hlength, t, ht, _, hcheck, hcount, hturns, hok⟩
    cases hok
    exact ⟨rfl, hlength, ht, hcheck, hcount, hturns⟩
  · rintro ⟨rfl, hlength, ht, hcheck, hcount, hturns⟩
    exact ⟨hlength, tree, ht, (), hcheck, hcount, hturns, rfl⟩

end Cubing
