import Cubing.Turn

set_option autoImplicit false

/-! # How the cube is held

A whole-cube rotation moves no piece relative to the others; it changes which physical face sits
where. An `Orientation` records that: for each place, the face that is there now. It is all that a
rotation has to update, and all that is needed to read a turn written for the cube as it is held as
a turn of the cube as it started (`Orientation.turn`). -/

namespace Cubing

/-! ## Rotating places -/

/-- The place whose face a clockwise quarter rotation about an axis brings to a given place. The
    two places on the axis keep theirs. -/
def Axis.source : Axis → Face → Face
  | .x, .U => .F | .x, .F => .D | .x, .D => .B | .x, .B => .U
  | .y, .F => .R | .y, .R => .B | .y, .B => .L | .y, .L => .F
  | .z, .U => .L | .z, .L => .D | .z, .D => .R | .z, .R => .U
  | _, f => f

/-- The place whose face a rotation brings to a given place: one source step for each quarter
    turn. -/
def Axis.sourceBy (a : Axis) : Direction → Face → Face
  | .cw, f => a.source f
  | .double, f => a.source (a.source f)
  | .ccw, f => a.source (a.source (a.source f))

/-! ## Orientations -/

/-- The physical face at each of the six places. -/
structure Orientation where
  u : Face
  f : Face
  r : Face
  d : Face
  b : Face
  l : Face
  deriving DecidableEq

namespace Orientation

/-- The physical face that sits at a place. -/
def face (o : Orientation) : Face → Face
  | .U => o.u | .F => o.f | .R => o.r | .D => o.d | .B => o.b | .L => o.l

def ofFn (g : Face → Face) : Orientation := ⟨g .U, g .F, g .R, g .D, g .B, g .L⟩

@[simp] theorem face_ofFn (g : Face → Face) (p : Face) : (ofFn g).face p = g p := by
  cases p <;> rfl

@[ext] theorem ext {o q : Orientation} (h : ∀ p, o.face p = q.face p) : o = q := by
  cases o
  cases q
  rw [mk.injEq]
  exact ⟨h .U, h .F, h .R, h .D, h .B, h .L⟩

/-- The starting orientation: every face at its own place. -/
def identity : Orientation := ofFn id

@[simp] theorem face_identity (p : Face) : identity.face p = p := by simp [identity]

def isIdentity (o : Orientation) : Bool := o = identity

def rotate (o : Orientation) (a : Axis) (d : Direction) : Orientation :=
  ofFn fun p => o.face (a.sourceBy d p)

@[simp] theorem face_rotate (o : Orientation) (a : Axis) (d : Direction) (p : Face) :
    (o.rotate a d).face p = o.face (a.sourceBy d p) := by simp [rotate]

/-- The turn of the cube as it started that a turn of the cube as it is held amounts to. An outer
    or wide turn is the same turn of the face that sits there. A middle layer follows the face at
    its home face's place: if no middle layer has that face as its home, the face opposite does, and
    the layer turns the other way. Rotations are left alone. -/
def turn (o : Orientation) (t : Turn) : Turn :=
  match t.move with
  | .face p => ⟨.face (o.face p), t.direction⟩
  | .wide p => ⟨.wide (o.face p), t.direction⟩
  | .slice s =>
    let home := o.face s.homeFace
    match Slice.ofHomeFace? home with
    | some s' => ⟨.slice s', t.direction⟩
    | none =>
      match Slice.ofHomeFace? home.opposite with
      | some s' => ⟨.slice s', t.direction.inv⟩
      | none => t
  | .rotation _ => t

@[simp] theorem turn_face (o : Orientation) (p : Face) (d : Direction) :
    o.turn ⟨.face p, d⟩ = ⟨.face (o.face p), d⟩ := rfl

/-- The faces at the six places as letters, in the order `U F R D B L`. -/
def text (o : Orientation) : String := String.ofList (Face.all.map fun p => (o.face p).letter)

end Orientation

end Cubing
