import Cubing.Orientation
import Cubing.Tree.Sequencing
import Cubing.Turn.Decomposition

set_option autoImplicit false

/-! # Doing without rotations

Every algorithm can be done with outer face turns alone: wide turns and middle layers are outer
turns and a rotation, and instead of rotating the cube, later turns are made on the faces that the
rotation would have brought to their places. -/

namespace Cubing

/-- The outer turns that a list of turns makes on a cube held in a given way: rotations only change
    how it is held. -/
def Orientation.faceTurns (o : Orientation) : List Turn → List Turn
  | [] => []
  | t :: ts =>
    match t.move with
    | .rotation a => (o.rotate a t.direction).faceTurns ts
    | _ => o.turn t :: o.faceTurns ts

/-- The outer face turns that do what a list of turns does, starting from the identity and up to
    how the cube is held at the end. -/
def Turn.faceTurns (ts : List Turn) : List Turn :=
  Orientation.identity.faceTurns (ts.flatMap Turn.outer)

/-- The rule that replaces each sequence by its outer face turns, every sequence by itself. -/
def Rules.faceTurns : Rules Id where
  seq ts := pure (.keep (.seq (Turn.faceTurns ts)))

/-- Every sequence of an algorithm as outer face turns. -/
def Tree.faceTurns (t : Tree) : Tree := t.transform Rules.faceTurns

/-- An algorithm expanded to outer face turns only. -/
def Tree.rotationless (t : Tree) : Tree := t.sequence.faceTurns

end Cubing
