import Cubing.Puzzle.Piece

set_option autoImplicit false

/-! # The pieces of a layer

An outer layer holds four corners and four edges, each on a *ring* of slots around the face. A
quarter turn clockwise moves every piece of a ring one slot on. It also changes orientations: a side
layer twists its corners, by one and by two in turn around the ring, and the front and the back
layer flip their edges. -/

namespace Cubing

/-- Four slots around a face, clockwise. -/
structure Ring (α : Type) where
  first : α
  second : α
  third : α
  fourth : α

namespace Ring

variable {α : Type} [DecidableEq α]

/-- The slot whose piece a clockwise quarter turn brings to a given slot. -/
def source (r : Ring α) (s : α) : α :=
  if s = r.first then r.fourth
  else if s = r.second then r.first
  else if s = r.third then r.second
  else if s = r.fourth then r.third
  else s

/-- The place of a slot on the ring, counted from 0, if it is there. -/
def index? (r : Ring α) (s : α) : Option Nat :=
  if s = r.first then some 0
  else if s = r.second then some 1
  else if s = r.third then some 2
  else if s = r.fourth then some 3
  else none

end Ring

namespace Face

/-- The corner slots around a face. -/
def corners : Face → Ring Corner
  | U => ⟨.UBL, .UBR, .UFR, .UFL⟩
  | F => ⟨.UFL, .UFR, .DFR, .DFL⟩
  | R => ⟨.UFR, .UBR, .DBR, .DFR⟩
  | D => ⟨.DFL, .DFR, .DBR, .DBL⟩
  | B => ⟨.UBR, .UBL, .DBL, .DBR⟩
  | L => ⟨.UBL, .UFL, .DFL, .DBL⟩

/-- The edge slots around a face. -/
def edges : Face → Ring Edge
  | U => ⟨.UB, .UR, .UF, .UL⟩
  | F => ⟨.UF, .FR, .DF, .FL⟩
  | R => ⟨.UR, .BR, .DR, .FR⟩
  | D => ⟨.DF, .DR, .DB, .DL⟩
  | B => ⟨.UB, .BL, .DB, .BR⟩
  | L => ⟨.UL, .FL, .DL, .BL⟩

/-- How often a clockwise quarter turn of a face twists the corner that it takes from a slot. -/
def twist (f : Face) (s : Corner) : Nat :=
  match f with
  | U | D => 0
  | F | R | B | L => ((f.corners.index? s).map (· % 2 + 1)).getD 0

/-- How often a clockwise quarter turn of a face flips the edge that it takes from a slot. -/
def flip (f : Face) (s : Edge) : Nat :=
  match f with
  | F | B => if (f.edges.index? s).isSome then 1 else 0
  | U | R | D | L => 0

end Face

end Cubing
