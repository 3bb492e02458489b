import Cubing.Proofs.NormalForm
import Cubing.Proofs.SimplifiedEffect
import Cubing.Tree.OuterTurns

set_option autoImplicit false

/-! # Doing without rotations keeps the pieces

Two cubes run side by side. One makes all turns, rotations included. The other makes the outer face
turns only and is never rotated; they are found with an orientation that is kept on the side and
starts at the identity. At every point the first cube is the second one held as that orientation says
(`Cube.held`): a rotation only changes the orientation, and an outer face turn turns the same physical
layer of both. So the pieces are always in the same slots (`Cube.foldl_applyOuter_held`), however the
cube was held at the start. -/

namespace Cubing

/-! ## Frames within frames -/

namespace Orientation

/-- How a cube is held after the rotations that lead from the identity to `o`, if it was held as in
    `q` before. -/
def comp (q o : Orientation) : Orientation := ofFn fun p => q.face (o.face p)

variable (q o : Orientation)

@[simp] theorem face_comp (p : Face) : (q.comp o).face p = q.face (o.face p) := by simp [comp]

@[simp] theorem comp_identity : q.comp identity = q := by
  ext p
  simp

/-- One more rotation is one more after those that lead to `o`. -/
theorem comp_rotate (a : Axis) (d : Direction) : (q.comp o).rotate a d = q.comp (o.rotate a d) := by
  ext p
  simp

end Orientation

namespace Cube

/-- A cube after the rotations that lead from the identity to an orientation. -/
def held (c : Cube) (o : Orientation) : Cube := ⟨c.corners, c.edges, c.orientation.comp o⟩

@[simp] theorem held_identity (c : Cube) : c.held .identity = c := by simp [held]

/-- Turning a physical layer does not depend on how the cube is held. -/
theorem turnLayer_held (c : Cube) (o : Orientation) (f : Face) (d : Direction) :
    (c.held o).turnLayer f d = (c.turnLayer f d).held o := by
  cases d <;> rfl

/-- An outer face turn of the rotated cube turns the layer that the translated turn turns. -/
theorem applyOuter_face_held (c : Cube) (o : Orientation) (f : Face) (d : Direction) :
    (c.held o).applyOuter ⟨.face f, d⟩ = (c.applyTurn (o.turn ⟨.face f, d⟩)).held o := by
  show (c.held o).turnLayer ((c.orientation.comp o).face f) d = _
  rw [turnLayer_held, Orientation.face_comp]
  rfl

/-- A rotation of the rotated cube leaves the cube itself alone. -/
theorem applyOuter_rotation_held (c : Cube) (o : Orientation) (a : Axis) (d : Direction) :
    (c.held o).applyOuter ⟨.rotation a, d⟩ = c.held (o.rotate a d) := by
  show Cube.mk c.corners c.edges ((c.orientation.comp o).rotate a d) = _
  rw [Orientation.comp_rotate]
  rfl

/-- **The pieces are those of the cube that is never rotated.** Outer face turns and rotations make of
    a rotated cube what the outer face turns alone make of the cube, again rotated in some way. -/
theorem foldl_applyOuter_held (c : Cube) (o : Orientation) {ts : List Turn}
    (hts : ∀ t ∈ ts, t.decompose? = none) :
    ∃ o', ts.foldl applyOuter (c.held o) = (c.applyTurns (o.faceTurns ts)).held o' := by
  induction ts generalizing c o with
  | nil => exact ⟨o, rfl⟩
  | cons t ts ih =>
    obtain ⟨ht, hrest⟩ := List.forall_mem_cons.1 hts
    rw [List.foldl_cons]
    rcases Turn.eq_of_decompose?_eq_none ht with ⟨f, d, rfl⟩ | ⟨a, d, rfl⟩
    · rw [applyOuter_face_held]
      exact ih _ o hrest
    · rw [applyOuter_rotation_held]
      exact ih c _ hrest

theorem applyTurns_eq_foldl_applyOuter (c : Cube) (ts : List Turn) :
    c.applyTurns ts = (ts.flatMap Turn.outer).foldl applyOuter c :=
  List.foldl_flatMap.symm

end Cube

/-! ## Outer face turns -/

namespace Turn

theorem decompose?_of_mem_flatMap_outer {ts : List Turn} :
    ∀ t ∈ ts.flatMap outer, t.decompose? = none := by
  intro t ht
  obtain ⟨u, -, hu⟩ := List.mem_flatMap.1 ht
  exact decompose?_of_mem_outer hu

end Turn

theorem Orientation.exists_face_of_mem_faceTurns (o : Orientation) {ts : List Turn}
    (hts : ∀ t ∈ ts, t.decompose? = none) : ∀ u ∈ o.faceTurns ts, ∃ f, u.move = .face f := by
  induction ts generalizing o with
  | nil => simp [faceTurns]
  | cons t ts ih =>
    obtain ⟨ht, hrest⟩ := List.forall_mem_cons.1 hts
    rcases Turn.eq_of_decompose?_eq_none ht with ⟨f, d, rfl⟩ | ⟨a, d, rfl⟩
    · exact List.forall_mem_cons.2 ⟨⟨_, rfl⟩, ih o hrest⟩
    · exact ih _ hrest

namespace Cube

/-- Outer face turns do not change how the cube is held. -/
theorem orientation_applyTurns_of_face {c : Cube} {us : List Turn}
    (hus : ∀ u ∈ us, ∃ f, u.move = .face f) : (c.applyTurns us).orientation = c.orientation := by
  induction us generalizing c with
  | nil => rfl
  | cons u us ih =>
    obtain ⟨⟨f, hf⟩, hrest⟩ := List.forall_mem_cons.1 hus
    obtain ⟨m, d⟩ := u
    obtain rfl : m = .face f := hf
    rw [applyTurns_cons, ih hrest]
    exact orientation_turnLayer c _ d

/-- The outer face turns of a list of turns do what the turns do, but for how the cube is held. -/
theorem applyTurns_faceTurns (c : Cube) (ts : List Turn) :
    c.applyTurns (Turn.faceTurns ts)
      = ⟨(c.applyTurns ts).corners, (c.applyTurns ts).edges, c.orientation⟩ := by
  have houter : ∀ t ∈ ts.flatMap Turn.outer, t.decompose? = none :=
    Turn.decompose?_of_mem_flatMap_outer
  obtain ⟨o, ho⟩ := foldl_applyOuter_held c .identity houter
  rw [held_identity, ← applyTurns_eq_foldl_applyOuter] at ho
  have horientation : (c.applyTurns (Turn.faceTurns ts)).orientation = c.orientation :=
    orientation_applyTurns_of_face (Orientation.exists_face_of_mem_faceTurns .identity houter)
  rw [ho, ← horientation]
  rfl

end Cube

/-! ## Algorithms without rotations -/

namespace Tree

theorem rotationless_eq (t : Tree) : t.rotationless = [.seq (Turn.faceTurns t.expand)] := by
  rw [rotationless, sequence_eq, faceTurns]
  show (Node.listTransformM Rules.faceTurns [.seq t.expand]).run = _
  rw [Node.listTransformM_cons, Node.transformM_seq fun _ => rfl]
  simp [Rules.faceTurns, Replacement.toList]

end Tree

namespace Cube

/-- **Doing without rotations keeps the pieces.** The turns of an algorithm without rotations are
    outer face turns, those that its expansion amounts to. On every reachable cube they put every
    piece where the expansion puts it, and they leave the cube held as it was; so do the turns that
    are left once they are simplified. If the algorithm expands to no more sequences than can be
    counted, so it is with repetitions carried out element by element. -/
theorem Reachable.rotationless_keeps_pieces {c : Cube} (hc : c.Reachable) (t : Tree) :
    let us := Turn.faceTurns t.expand
    let d := c.applyTurns t.expand
    t.sequence.turns? = some t.expand ∧ t.rotationless.turns? = some us
      ∧ t.rotationless.clean.turns? = some (Turn.reduce us) ∧ (∀ u ∈ us, ∃ f, u.move = .face f)
      ∧ c.applyTurns us = ⟨d.corners, d.edges, c.orientation⟩
      ∧ c.applyTurns (Turn.reduce us) = ⟨d.corners, d.edges, c.orientation⟩
      ∧ (t.sequenceCount < UInt64.size → t.sequenceByCycling.faceTurns = t.rotationless) := by
  intro us d
  have hus : t.rotationless.turns? = some us := by
    rw [t.rotationless_eq]
    simp [us, Tree.turns?, Node.turns?]
  have hvs : t.rotationless.clean.turns? = some (Turn.reduce us) := by
    rw [t.rotationless_eq]
    exact Tree.turns?_clean_seq us
  have hface : ∀ u ∈ us, ∃ f, u.move = .face f :=
    Orientation.exists_face_of_mem_faceTurns .identity Turn.decompose?_of_mem_flatMap_outer
  have heffect := c.applyTurns_faceTurns t.expand
  have hreduce : c.applyTurns (Turn.reduce us) = c.applyTurns us :=
    applyTurns_congr hc.orientation (.reduce us)
  refine ⟨t.turns?_sequence, hus, hvs, hface, heffect, hreduce.trans heffect, fun h => ?_⟩
  rw [(Tree.sequenceByCycling_of_lt h).1]
  rfl

/-- Wide turns and middle layers that change how the cube is held, on a scrambled cube that is not
    held as it started. -/
theorem Reachable.rotationless_keeps_pieces_rotated :
    let c := Cube.solved.applyTurns [⟨.rotation .y, .cw⟩, ⟨.face .R, .cw⟩, ⟨.wide .F, .double⟩]
    let t : Tree := [.bracket .conjugate [.seq [⟨.rotation .x, .cw⟩, ⟨.slice .M, .cw⟩]]
      [.seq [⟨.wide .U, .ccw⟩]], .seq [⟨.slice .E, .double⟩]]
    let us : List Turn := [⟨.face .R, .cw⟩, ⟨.face .L, .ccw⟩, ⟨.face .D, .ccw⟩, ⟨.face .F, .ccw⟩,
      ⟨.face .B, .cw⟩, ⟨.face .U, .double⟩, ⟨.face .D, .double⟩]
    let d := c.applyTurns t.expand
    (c.Reachable ∧ c.isOriented = false ∧ d.orientation ≠ c.orientation
        ∧ t.sequenceCount < UInt64.size ∧ Turn.faceTurns t.expand = us ∧ Turn.reduce us = us)
      ∧ t.sequence.turns? = some t.expand ∧ t.rotationless.turns? = some us
      ∧ t.rotationless.clean.turns? = some (Turn.reduce us) ∧ (∀ u ∈ us, ∃ f, u.move = .face f)
      ∧ c.applyTurns us = ⟨d.corners, d.edges, c.orientation⟩
      ∧ c.applyTurns (Turn.reduce us) = ⟨d.corners, d.edges, c.orientation⟩
      ∧ t.sequenceByCycling.faceTurns = t.rotationless := by
  intro c t us d
  have hc : c.Reachable := .turns .solved _
  have hcount : t.sequenceCount < UInt64.size := by decide
  have hus : Turn.faceTurns t.expand = us := by decide +kernel
  obtain ⟨hsequence, hturns, hclean, hface, heffect, hreduced, hcycling⟩ :=
    rotationless_keeps_pieces hc t
  rw [hus] at hturns hclean hface heffect hreduced
  exact ⟨⟨hc, by decide +kernel, by decide +kernel, hcount, hus, by decide +kernel⟩, hsequence,
    hturns, hclean, hface, heffect, hreduced, hcycling hcount⟩

end Cube

end Cubing
