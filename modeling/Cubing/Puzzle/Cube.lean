import Cubing.Algorithm
import Cubing.Puzzle.Layer
import Cubing.Puzzle.Slots

set_option autoImplicit false

/-! # The cube

A cube is the piece in every slot together with how the cube is held. Slots stay with the physical
cube: a rotation changes only the orientation, and a face turn turns the layer of whatever face the
orientation puts there. Wide turns and middle layers are done as the outer turns and rotations they
amount to.

Every layer turn is one, two or three clockwise quarter turns of the layer. Two quarter turns of a
side layer twist each corner by three in all, and so not at all. -/

namespace Cubing

/-- A state of the 3×3×3 cube. -/
structure Cube where
  corners : CornerTable CornerPiece
  edges : EdgeTable EdgePiece
  orientation : Orientation
  deriving DecidableEq

namespace Cube

/-- The solved cube, held in the starting orientation. -/
def solved : Cube := ⟨.ofFn .solved, .ofFn .solved, .identity⟩

/-- Whether every piece is in its own slot and not twisted or flipped, however the cube is held. -/
def isSolved (c : Cube) : Bool := c.corners = solved.corners && c.edges = solved.edges

def isOriented (c : Cube) : Bool := c.orientation.isIdentity

/-- Takes the cube back to the starting orientation without moving any pieces. -/
def orient (c : Cube) : Cube := ⟨c.corners, c.edges, .identity⟩

/-! ## Turning -/

/-- Turns a physical outer layer one quarter turn clockwise. -/
def quarterTurn (c : Cube) (layer : Face) : Cube where
  corners := .ofFn fun s =>
    let source := layer.corners.source s
    (c.corners.get source).twistBy (layer.twist source)
  edges := .ofFn fun s =>
    let source := layer.edges.source s
    (c.edges.get source).flipBy (layer.flip source)
  orientation := c.orientation

def turnLayer (c : Cube) (layer : Face) : Direction → Cube
  | .cw => c.quarterTurn layer
  | .double => (c.quarterTurn layer).quarterTurn layer
  | .ccw => ((c.quarterTurn layer).quarterTurn layer).quarterTurn layer

/-- Makes an outer face turn or a rotation; any other turn does nothing here. -/
def applyOuter (c : Cube) (t : Turn) : Cube :=
  match t.move with
  | .face f => c.turnLayer (c.orientation.face f) t.direction
  | .rotation a => ⟨c.corners, c.edges, c.orientation.rotate a t.direction⟩
  | .wide _ | .slice _ => c

/-- Makes a turn: the outer turns and rotations that it amounts to. -/
def applyTurn (c : Cube) (t : Turn) : Cube := t.outer.foldl applyOuter c

def applyTurns (c : Cube) (ts : List Turn) : Cube := ts.foldl applyTurn c

@[simp] theorem applyTurns_nil (c : Cube) : c.applyTurns [] = c := rfl

@[simp] theorem applyTurns_cons (c : Cube) (t : Turn) (ts : List Turn) :
    c.applyTurns (t :: ts) = (c.applyTurn t).applyTurns ts := rfl

@[simp] theorem applyTurns_append (c : Cube) (ts us : List Turn) :
    c.applyTurns (ts ++ us) = (c.applyTurns ts).applyTurns us := by
  simp [applyTurns]

def apply (c : Cube) (a : Algorithm) : Cube := c.applyTurns a.turns

/-- Reads a text as an algorithm within standard limits and makes its turns. -/
def applyText (c : Cube) (s : String) : Except AlgorithmError Cube := do
  return c.apply (← Algorithm.ofText s)

/-- The cube that a scramble makes of the solved one. -/
def ofScramble (s : String) : Except AlgorithmError Cube := solved.applyText s

/-! ## Calls -/

/-- What can be asked of a cube. To scramble it or to solve it is to apply an algorithm, given as one
    or as text. -/
inductive Call where
  | apply (a : Algorithm)
  | applyText (s : String)
  | applyTurns (ts : List Turn)
  | applyTurn (t : Turn)
  | orient

/-- What a call makes of a cube, unless it fails. -/
def call (c : Cube) : Call → Except AlgorithmError Cube
  | .apply a => return c.apply a
  | .applyText s => c.applyText s
  | .applyTurns ts => return c.applyTurns ts
  | .applyTurn t => return c.applyTurn t
  | .orient => return c.orient

/-- The cube after a call, which is the cube before it if the call fails. -/
def after (c : Cube) (k : Call) : Cube := (c.call k).toOption.getD c

/-- The cube after several calls. -/
def run (c : Cube) (ks : List Call) : Cube := ks.foldl after c

/-! ## Text -/

/-- The corners in the order of their slots. -/
def cornersText (c : Cube) : String := " ".intercalate (c.corners.toList.map CornerPiece.text)

/-- The edges in the order of their slots. -/
def edgesText (c : Cube) : String := " ".intercalate (c.edges.toList.map EdgePiece.text)

end Cube

end Cubing
