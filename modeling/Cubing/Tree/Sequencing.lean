import Cubing.Tree.Inverse
import Cubing.Tree.Rules

set_option autoImplicit false

/-! # Carrying out an expansion

Expansion is carried out by rules: every group is replaced by what it stands for, from the
inside out, until one sequence of turns is left. The groups inside a group are gone before the group
itself is expanded, so undoing a side only ever reverses sequences. -/

namespace Cubing

/-- A list done a number of times. Doing nothing any number of times is doing nothing. -/
def Node.times (body : List Node) (n : Nat) : List Node :=
  if body.isEmpty then [] else (List.replicate n body).flatten

theorem Node.times_eq (body : List Node) (n : Nat) :
    Node.times body n = (List.replicate n body).flatten := by
  unfold Node.times
  split
  · rename_i h
    rw [List.isEmpty_iff.1 h]
    simp
  · rfl

theorem Node.length_times (body : List Node) (n : Nat) :
    (Node.times body n).length = body.length * n := by
  rw [Node.times_eq]
  simp [Nat.mul_comm]

/-- The rules of expansion. At the end all sequences are joined into one. -/
def Rules.expansion : Rules Id where
  bracket
    | .conjugate, a, b => pure (.splice (a ++ b ++ Tree.inv a))
    | .commutator, a, b => pure (.splice (a ++ b ++ Tree.inv a ++ Tree.inv b))
  repeated body n := pure (.splice (Node.times body n.toNat))
  root nodes := pure [.seq (Tree.topTurns nodes)]

theorem Rules.expansion_repeated (body : List Node) (n : UInt32) :
    Rules.expansion.repeated body n = pure (.splice (Node.times body n.toNat)) := rfl

/-- An algorithm with every group expanded: a single sequence. -/
def Tree.sequence (t : Tree) : Tree := t.transform Rules.expansion

end Cubing
