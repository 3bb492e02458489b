import Cubing.Orientation
import Cubing.Proofs.Space

set_option autoImplicit false

/-! # The held cube in space

An orientation that rotations reach from the starting one is a rotation of space: it takes a place of
the cube as it is held to the place of the physical cube that is there. It keeps the layers and the
sense of turning (`Place.physical_turned`), so a face turn made on the cube as it is held is a face
turn of the physical cube. Every result here is an induction on the rotations made. -/

namespace Cubing

/-! ## Opposite faces -/

@[simp] theorem Axis.source_opposite (a : Axis) (f : Face) :
    a.source f.opposite = (a.source f).opposite := by
  cases a <;> cases f <;> rfl

/-- Four quarter rotations bring every face back. -/
theorem Axis.source_four (a : Axis) (f : Face) :
    a.source (a.source (a.source (a.source f))) = f := by
  cases a <;> cases f <;> rfl

theorem Axis.source_bijective (a : Axis) : Function.Bijective a.source :=
  ⟨fun f g h => by rw [← a.source_four f, h, a.source_four], fun f => ⟨_, a.source_four f⟩⟩

namespace Orientation

theorem rotate_double (o : Orientation) (a : Axis) :
    o.rotate a .double = (o.rotate a .cw).rotate a .cw := by
  ext p
  simp [Axis.sourceBy]

theorem rotate_ccw (o : Orientation) (a : Axis) :
    o.rotate a .ccw = ((o.rotate a .cw).rotate a .cw).rotate a .cw := by
  ext p
  simp [Axis.sourceBy]

/-- The orientations that quarter rotations reach from the starting one. -/
inductive Reachable : Orientation → Prop where
  | identity : Reachable identity
  | quarter {o : Orientation} (h : Reachable o) (a : Axis) : Reachable (o.rotate a .cw)

theorem Reachable.rotate {o : Orientation} (h : o.Reachable) (a : Axis) (d : Direction) :
    (o.rotate a d).Reachable := by
  cases d with
  | cw => exact h.quarter a
  | double => exact rotate_double o a ▸ (h.quarter a).quarter a
  | ccw => exact rotate_ccw o a ▸ ((h.quarter a).quarter a).quarter a

/-- However the cube is held, opposite places show opposite faces. -/
theorem Reachable.face_opposite {o : Orientation} (h : o.Reachable) (p : Face) :
    o.face p.opposite = (o.face p).opposite := by
  induction h generalizing p with
  | identity => simp
  | quarter h a ih => simp [Axis.sourceBy, ih]

/-- However the cube is held, every face is at one place. -/
theorem Reachable.face_bijective {o : Orientation} (h : o.Reachable) :
    Function.Bijective o.face := by
  induction h with
  | identity =>
    have hface : Orientation.identity.face = id := funext face_identity
    rw [hface]
    exact Function.bijective_id
  | @quarter o h a ih =>
    have hface : (o.rotate a .cw).face = o.face ∘ a.source := funext fun p => by
      simp [Axis.sourceBy]
    rw [hface]
    exact ih.comp a.source_bijective

/-! ## From places to physical places -/

/-- The physical direction of a direction of the cube as it is held: the direction towards a place
    becomes the direction towards the face that is there. -/
def physical (o : Orientation) (v : Vec) : Vec :=
  v.x • (o.face .R).normal + v.y • (o.face .U).normal + v.z • (o.face .F).normal

@[simp] theorem physical_identity (v : Vec) : identity.physical v = v := by
  ext <;> simp [physical, Face.normal]

theorem Reachable.physical_normal {o : Orientation} (h : o.Reachable) (p : Face) :
    o.physical p.normal = (o.face p).normal := by
  have hopp (q : Face) : (o.face q.opposite).normal = -(o.face q).normal := by
    rw [h.face_opposite, Face.normal_opposite]
  have hneg (v : Vec) : o.physical (-v) = -o.physical v := by
    ext <;> simp only [physical, Vec.x_add, Vec.x_neg, Vec.x_smul, Vec.y_add, Vec.y_neg, Vec.y_smul,
      Vec.z_add, Vec.z_neg, Vec.z_smul] <;> ring
  have hlead (a : Axis) : o.physical a.leadFace.normal = (o.face a.leadFace).normal := by
    cases a
    · change (1 : Int) • _ + (0 : Int) • _ + (0 : Int) • _ = _
      ext <;> simp [Axis.leadFace]
    · change (0 : Int) • _ + (1 : Int) • _ + (0 : Int) • _ = _
      ext <;> simp [Axis.leadFace]
    · change (0 : Int) • _ + (0 : Int) • _ + (1 : Int) • _ = _
      ext <;> simp [Axis.leadFace]
  rcases p.eq_leadFace_or with hp | ⟨-, hp⟩
  · rw [hp, hlead]
  · rw [hp, Face.normal_opposite, hneg, hlead, hopp]

/-- A quarter rotation changes the physical direction as turning back by a quarter does. -/
theorem Reachable.physical_rotate_cw {o : Orientation} (h : o.Reachable) (a : Axis) (v : Vec) :
    (o.rotate a .cw).physical v = o.physical (v.quarter a.leadFace.opposite.normal) := by
  have hopp (q : Face) : (o.face q.opposite).normal = -(o.face q).normal := by
    rw [h.face_opposite, Face.normal_opposite]
  have hL : (o.face .L).normal = -(o.face .R).normal := hopp .R
  have hD : (o.face .D).normal = -(o.face .U).normal := hopp .U
  have hB : (o.face .B).normal = -(o.face .F).normal := hopp .F
  cases a <;> ext <;>
    simp [physical, Axis.sourceBy, Axis.source, Axis.leadFace, Face.opposite, Vec.quarter_normal,
      hL, hD, hB] <;>
    ring

/-- **Turning commutes with going over to physical directions:** what turns clockwise as seen from a
    place turns clockwise as seen from the face that is there. -/
theorem Reachable.physical_quarter {o : Orientation} (h : o.Reachable) (f : Face) (v : Vec) :
    o.physical (v.quarter f.normal) = (o.physical v).quarter (o.face f).normal := by
  induction h generalizing f v with
  | identity => simp
  | quarter h a ih =>
    have hstep : (v.quarter f.normal).quarter a.leadFace.opposite.normal
        = (v.quarter a.leadFace.opposite.normal).quarter (a.source f).normal := by
      cases a <;> cases f <;>
        simp [Vec.quarter_normal, Axis.leadFace, Face.opposite, Axis.source]
    rw [h.physical_rotate_cw, h.physical_rotate_cw, hstep, ih, face_rotate, Axis.sourceBy]

/-- Going over to physical directions keeps how far out a layer is. -/
theorem Reachable.physical_dot {o : Orientation} (h : o.Reachable) (f : Face) (v : Vec) :
    (o.physical v).dot (o.face f).normal = v.dot f.normal := by
  induction h generalizing f v with
  | identity => simp
  | quarter h a ih =>
    have hstep : (v.quarter a.leadFace.opposite.normal).dot (a.source f).normal
        = v.dot f.normal := by
      cases a <;> cases f <;>
        simp only [Axis.leadFace, Face.opposite, Vec.quarter_normal, Axis.source] <;>
        simp [Vec.dot, Face.normal]
    rw [h.physical_rotate_cw, face_rotate, Axis.sourceBy, ih, hstep]

/-- A direction is told by its physical direction: how far it goes towards every face shows. -/
theorem Reachable.physical_injective {o : Orientation} (h : o.Reachable) :
    Function.Injective o.physical := by
  intro v w hvw
  have hdot (f : Face) : v.dot f.normal = w.dot f.normal := by
    rw [← h.physical_dot f v, hvw, h.physical_dot f w]
  have hx := hdot .R
  have hy := hdot .U
  have hz := hdot .F
  simp only [Vec.dot, Face.normal, mul_one, mul_zero, add_zero, zero_add] at hx hy hz
  exact Vec.ext hx hy hz

end Orientation

/-! ## Physical places -/

namespace Place

/-- The place of the physical cube that is at a place of the cube as it is held. -/
def physical (o : Orientation) (p : Place) : Place :=
  ⟨o.physical p.position, o.physical p.normal⟩

@[simp] theorem physical_identity (p : Place) : p.physical .identity = p := by simp [physical]

variable {o : Orientation}

theorem physical_quarter (h : o.Reachable) (f : Face) (p : Place) :
    (p.quarter f).physical o = (p.physical o).quarter (o.face f) := by
  simp only [physical, quarter, h.physical_quarter]

theorem depth_physical (h : o.Reachable) (f : Face) (p : Place) :
    (p.physical o).depth (o.face f) = p.depth f := h.physical_dot f p.position

theorem physical_quarter_iterate (h : o.Reachable) (f : Face) (n : Nat) (p : Place) :
    ((quarter f)^[n] p).physical o = (quarter (o.face f))^[n] (p.physical o) := by
  induction n with
  | zero => rfl
  | succ n ih =>
    rw [Function.iterate_succ_apply', physical_quarter h, ih, Function.iterate_succ_apply']

/-- Turns of the same layers by the same amount, one made as seen from a place and the other as seen
    from the face that is there, are the same turn. -/
theorem physical_turned_of_leader (h : o.Reachable) (t u : Turn)
    (hleader : u.move.leader = o.face t.move.leader)
    (hlayers : u.move.turnsLayer = t.move.turnsLayer) (hdirection : u.direction = t.direction)
    (p : Place) : (p.turned t).physical o = (p.physical o).turned u := by
  simp only [turned, hleader, hlayers, hdirection, depth_physical h]
  split
  · exact physical_quarter_iterate h ..
  · rfl

/-- **A face turn of the cube as it is held is a turn of the physical face that is there.** -/
theorem physical_turned (h : o.Reachable) (f : Face) (d : Direction) (p : Place) :
    (p.turned ⟨.face f, d⟩).physical o = (p.physical o).turned ⟨.face (o.face f), d⟩ :=
  physical_turned_of_leader h ⟨.face f, d⟩ ⟨.face (o.face f), d⟩ rfl rfl rfl p

theorem physical_rotate_cw (h : o.Reachable) (a : Axis) (p : Place) :
    p.physical (o.rotate a .cw) = (p.quarter a.leadFace.opposite).physical o := by
  simp only [physical, quarter, h.physical_rotate_cw]

/-- **Rotating the cube shows at every place what the rotation brings there.** -/
theorem physical_rotate (h : o.Reachable) (a : Axis) (d : Direction) (p : Place) :
    p.physical (o.rotate a d) = (p.turned ⟨.rotation a, d.inv⟩).physical o := by
  have hback : p.turned ⟨.rotation a, d.inv⟩
      = (quarter a.leadFace.opposite)^[d.quarterTurns] p :=
    (quarter_opposite_iterate a.leadFace d p).symm
  rw [hback]
  cases d with
  | cw => exact physical_rotate_cw h a p
  | double =>
    rw [Orientation.rotate_double, physical_rotate_cw (h.quarter a), physical_rotate_cw h]
    rfl
  | ccw =>
    rw [Orientation.rotate_ccw, physical_rotate_cw ((h.quarter a).quarter a),
      physical_rotate_cw (h.quarter a), physical_rotate_cw h]
    rfl

theorem exists_physical_eq (h : o.Reachable) (q : Place) : ∃ p : Place, p.physical o = q := by
  induction h generalizing q with
  | identity => exact ⟨q, physical_identity q⟩
  | quarter h a ih =>
    obtain ⟨p, rfl⟩ := ih q
    refine ⟨p.quarter a.leadFace, ?_⟩
    rw [physical_rotate_cw h, quarter_opposite, ← Function.iterate_succ_apply, quarter_four]

end Place

end Cubing
