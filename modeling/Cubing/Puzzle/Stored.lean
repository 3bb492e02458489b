import Cubing.Puzzle.Cube

set_option autoImplicit false

/-! # The cube in bytes

A `Cube` counts twists modulo three and flips modulo two. A stored cube keeps either count in a byte,
and adds to it as bytes are added, which overflows if the sum does not fit. It turns a layer in one
pass, whatever the direction: the pieces of the layer are taken out, twisted and flipped unless the
turn is a half turn, moved on along their rings and put back.

Every step that adds bytes gives no result if one of the sums overflows. -/

namespace Cubing

/-- The sum of two bytes, unless it overflows. -/
def addBytes? (a b : UInt8) : Option UInt8 :=
  if a.toNat + b.toNat < UInt8.size then some (a + b) else none

/-! ## Pieces -/

structure StoredCorner where
  corner : Corner
  twist : UInt8
  deriving DecidableEq

namespace StoredCorner

def twistBy? (p : StoredCorner) (n : UInt8) : Option StoredCorner := do
  return ⟨p.corner, (← addBytes? p.twist (n % 3)) % 3⟩

/-- Twists the corner taken from a place on a ring, counted from 0: by one and by two in turn. -/
def twistAt? (p : StoredCorner) (i : UInt8) : Option StoredCorner := do
  p.twistBy? (← addBytes? (i % 2) 1)

end StoredCorner

structure StoredEdge where
  edge : Edge
  flip : UInt8
  deriving DecidableEq

def StoredEdge.flipOver (p : StoredEdge) : StoredEdge := ⟨p.edge, p.flip ^^^ 1⟩

/-! ## Rings -/

namespace Ring

variable {α β : Type}

def toList (r : Ring α) : List α := [r.first, r.second, r.third, r.fourth]

def map (g : α → β) (r : Ring α) : Ring β := ⟨g r.first, g r.second, g r.third, g r.fourth⟩

/-- Moves everything on a ring on by some slots. -/
def rotateRight (r : Ring α) : Nat → Ring α
  | 0 => r
  | n + 1 => rotateRight ⟨r.fourth, r.first, r.second, r.third⟩ n

/-- Puts new entries into the slots of a ring, one after the other. -/
def put [DecidableEq α] (slots : Ring α) (entries : Ring β) (g : α → β) : α → β := fun s =>
  if s = slots.fourth then entries.fourth
  else if s = slots.third then entries.third
  else if s = slots.second then entries.second
  else if s = slots.first then entries.first
  else g s

def twist? (r : Ring StoredCorner) : Option (Ring StoredCorner) := do
  return ⟨← r.first.twistAt? 0, ← r.second.twistAt? 1, ← r.third.twistAt? 2,
    ← r.fourth.twistAt? 3⟩

end Ring

namespace Face

/-- Whether quarter turns of a layer twist its corners. -/
def twists : Face → Bool
  | F | R | B | L => true
  | U | D => false

/-- Whether quarter turns of a layer flip its edges. -/
def flips : Face → Bool
  | F | B => true
  | U | R | D | L => false

end Face

/-! ## Cubes -/

structure StoredCube where
  corners : CornerTable StoredCorner
  edges : EdgeTable StoredEdge
  orientation : Orientation
  deriving DecidableEq

namespace StoredCube

def solved : StoredCube := ⟨.ofFn (⟨·, 0⟩), .ofFn (⟨·, 0⟩), .identity⟩

def orient (c : StoredCube) : StoredCube := ⟨c.corners, c.edges, .identity⟩

/-- The corners of a layer, twisted as a turn of the layer twists them. -/
def cornersOf? (c : StoredCube) (layer : Face) (d : Direction) : Option (Ring StoredCorner) :=
  let corners := layer.corners.map c.corners.get
  if d ≠ .double ∧ layer.twists then corners.twist? else some corners

/-- The edges of a layer, flipped as a turn of the layer flips them. -/
def edgesOf (c : StoredCube) (layer : Face) (d : Direction) : Ring StoredEdge :=
  let edges := layer.edges.map c.edges.get
  if d ≠ .double ∧ layer.flips then edges.map .flipOver else edges

/-- Turns a physical outer layer in one pass. -/
def turnLayer? (c : StoredCube) (layer : Face) (d : Direction) : Option StoredCube := do
  let corners := (← c.cornersOf? layer d).rotateRight d.quarterTurns
  let edges := (c.edgesOf layer d).rotateRight d.quarterTurns
  return ⟨.ofFn (layer.corners.put corners c.corners.get),
    .ofFn (layer.edges.put edges c.edges.get), c.orientation⟩

/-- Makes an outer face turn or a rotation; any other turn does nothing here. -/
def applyOuter? (c : StoredCube) (t : Turn) : Option StoredCube :=
  match t.move with
  | .face f => c.turnLayer? (c.orientation.face f) t.direction
  | .rotation a => some ⟨c.corners, c.edges, c.orientation.rotate a t.direction⟩
  | .wide _ | .slice _ => some c

def applyTurn? (c : StoredCube) (t : Turn) : Option StoredCube := t.outer.foldlM applyOuter? c

def applyTurns? (c : StoredCube) (ts : List Turn) : Option StoredCube := ts.foldlM applyTurn? c

/-- What a call makes of a cube: no result if a sum of bytes overflows, an error if the call fails. -/
def call? (c : StoredCube) : Cube.Call → Option (Except AlgorithmError StoredCube)
  | .apply a => do return .ok (← c.applyTurns? a.turns)
  | .applyText s =>
    match Algorithm.ofText s with
    | .ok a => do return .ok (← c.applyTurns? a.turns)
    | .error e => return .error e
  | .applyTurns ts => do return .ok (← c.applyTurns? ts)
  | .applyTurn t => do return .ok (← c.applyTurn? t)
  | .orient => return .ok c.orient

/-- The cube after a call, which is the cube before it if the call fails. -/
def after? (c : StoredCube) (k : Cube.Call) : Option StoredCube := do
  return (← c.call? k).toOption.getD c

/-- The cube after several calls. -/
def run? (c : StoredCube) (ks : List Cube.Call) : Option StoredCube := ks.foldlM after? c

end StoredCube

/-! ## Storing -/

def CornerPiece.stored (p : CornerPiece) : StoredCorner := ⟨p.corner, .ofNat p.twist⟩

def EdgePiece.stored (p : EdgePiece) : StoredEdge := ⟨p.edge, .ofNat p.flip⟩

/-- A cube as it is stored. -/
def Cube.stored (c : Cube) : StoredCube where
  corners := .ofFn fun s => (c.corners.get s).stored
  edges := .ofFn fun s => (c.edges.get s).stored
  orientation := c.orientation

end Cubing
