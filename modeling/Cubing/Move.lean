set_option autoImplicit false

/-! # Moves of a 3×3×3 cube

A *move* says which layers turn and about which axis, not how far: an outer face, a face together
with the middle layer behind it, a middle layer alone, or the whole cube. Each move has one letter
of notation, and the letters tell the moves apart, so reading a letter is looking it up. Two moves
that turn layers about the same axis commute; `Move.layerAxis?` names that axis, and gives none to
whole-cube rotations, which never count as turning a layer. -/

namespace Cubing

/-! ## Faces -/

/-- The six outer faces: up, front, right, down, back, left. -/
inductive Face where
  | U | F | R | D | B | L
  deriving DecidableEq, Ord

namespace Face

def all : List Face := [U, F, R, D, B, L]

theorem mem_all (f : Face) : f ∈ all := by cases f <;> decide

/-- The letter of the outer face turn. -/
def letter : Face → Char
  | U => 'U' | F => 'F' | R => 'R' | D => 'D' | B => 'B' | L => 'L'

/-- The letter of the wide turn: the face's letter in lower case. -/
def wideLetter : Face → Char
  | U => 'u' | F => 'f' | R => 'r' | D => 'd' | B => 'b' | L => 'l'

def ofLetter? (c : Char) : Option Face := all.find? (·.letter = c)

def opposite : Face → Face
  | U => D | F => B | R => L | D => U | B => F | L => R

@[simp] theorem opposite_opposite (f : Face) : f.opposite.opposite = f := by cases f <;> rfl

end Face

/-! ## Axes and middle layers -/

/-- The axes of the cube: `x` runs through `R` and `L`, `y` through `U` and `D`, `z` through `F`
    and `B`. -/
inductive Axis where
  | x | y | z
  deriving DecidableEq, Ord

namespace Axis

def all : List Axis := [x, y, z]

def letter : Axis → Char
  | x => 'x' | y => 'y' | z => 'z'

end Axis

/-- The axis through a face and its opposite. -/
def Face.axis : Face → Axis
  | .U | .D => .y
  | .F | .B => .z
  | .R | .L => .x

/-- The face that a whole-cube rotation about an axis turns like. -/
def Axis.leadFace : Axis → Face
  | .x => .R | .y => .U | .z => .F

@[simp] theorem Axis.axis_leadFace (a : Axis) : a.leadFace.axis = a := by cases a <;> rfl

/-- The middle layers: `M` between `R` and `L`, `E` between `U` and `D`, `S` between `F` and `B`. -/
inductive Slice where
  | M | E | S
  deriving DecidableEq, Ord

namespace Slice

def all : List Slice := [M, E, S]

def letter : Slice → Char
  | M => 'M' | E => 'E' | S => 'S'

/-- The face whose direction the middle layer follows. -/
def homeFace : Slice → Face
  | M => .L | E => .D | S => .F

/-- The middle layer that follows a given face, where there is one. -/
def ofHomeFace? (f : Face) : Option Slice := all.find? (·.homeFace = f)

def axis (s : Slice) : Axis := s.homeFace.axis

/-- Of a face and its opposite, one is the home face of a middle layer. -/
theorem ofHomeFace?_opposite (f : Face) (h : ofHomeFace? f = none) :
    (ofHomeFace? f.opposite).isSome := by
  revert h
  cases f <;> decide

end Slice

/-! ## Moves -/

/-- What turns, without how far. Declared in the order moves compare: outer faces, wide turns,
    middle layers, whole-cube rotations. -/
inductive Move where
  /-- One outer layer, such as `R`. -/
  | face (f : Face)
  /-- An outer layer and the middle layer behind it, such as `r`. -/
  | wide (f : Face)
  /-- One middle layer, such as `M`. -/
  | slice (s : Slice)
  /-- The whole cube, such as `x`. -/
  | rotation (a : Axis)
  deriving DecidableEq, Ord

namespace Move

def letter : Move → Char
  | face f => f.letter
  | wide f => f.wideLetter
  | slice s => s.letter
  | rotation a => a.letter

/-- All moves, in the order in which a run of parallel turns lists them: outer faces first, then
    wide turns with `b` before `d`, then middle layers; rotations close the list. -/
def all : List Move :=
  [face .U, face .F, face .R, face .D, face .B, face .L,
   wide .U, wide .F, wide .R, wide .B, wide .D, wide .L,
   slice .M, slice .E, slice .S,
   rotation .x, rotation .y, rotation .z]

theorem mem_all (m : Move) : m ∈ all := by
  cases m with
  | face f => cases f <;> decide
  | wide f => cases f <;> decide
  | slice s => cases s <;> decide
  | rotation a => cases a <;> decide

theorem nodup_all : all.Nodup := by decide

def ofLetter? (c : Char) : Option Move := all.find? (·.letter = c)

@[simp] theorem ofLetter?_letter (m : Move) : ofLetter? m.letter = some m := by
  cases m with
  | face f => cases f <;> rfl
  | wide f => cases f <;> rfl
  | slice s => cases s <;> rfl
  | rotation a => cases a <;> rfl

/-- Only a move's own letter is read as that move. -/
theorem letter_of_ofLetter? {c : Char} {m : Move} (h : ofLetter? c = some m) : m.letter = c := by
  simpa using List.find?_some h

theorem ofLetter?_eq_some_iff {c : Char} {m : Move} : ofLetter? c = some m ↔ m.letter = c :=
  ⟨letter_of_ofLetter?, fun h => h ▸ ofLetter?_letter m⟩

/-- The axis along which a move turns layers; none for rotations. -/
def layerAxis? : Move → Option Axis
  | face f => some f.axis
  | wide f => some f.axis
  | slice s => some s.axis
  | rotation _ => none

def isRotation : Move → Bool
  | rotation _ => true
  | _ => false

theorem isRotation_iff (m : Move) : m.isRotation ↔ m.layerAxis? = none := by
  cases m <;> simp [isRotation, layerAxis?]

end Move

end Cubing
