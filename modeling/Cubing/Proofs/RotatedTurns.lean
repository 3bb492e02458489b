import Cubing.Proofs.TurningStickers

set_option autoImplicit false

/-! # Turns of a rotated cube

A turn of a cube that has been rotated is another turn of the cube before, rotated afterwards.
`Orientation.turn` says which one, and the cube never asks it: it follows every turn, also the
rotations hidden in wide turns and middle layers, by what it does to the orientation.

That both agree is a fact of space. An orientation that rotations lead to is itself a rotation of
space, and takes the layers and the sense of a turn along (`Orientation.Reachable.physical_turn`). A
middle layer has no face of its own to follow there: if no middle layer is at home where its home face
comes to lie, then one is at home opposite, and turning along is turning that one backwards. -/

namespace Cubing

/-! ## The translated turn in space -/

/-- A middle layer turned backwards, as seen from the face opposite to its home face. -/
theorem Place.turned_slice_inv {s : Slice} {f : Face} (hs : s.homeFace = f.opposite) (d : Direction)
    (p : Place) :
    p.turned ⟨.slice s, d.inv⟩
      = if p.depth f = 0 then (quarter f)^[d.quarterTurns] p else p := by
  have hback : (quarter f.opposite)^[d.inv.quarterTurns] p = (quarter f)^[d.quarterTurns] p := by
    rw [quarter_opposite_iterate, Direction.inv_inv]
  simp only [turned, Move.leader, Move.turnsLayer, hs, depth_opposite, hback, Int.neg_eq_zero,
    decide_eq_true_eq]

namespace Orientation

/-- A middle layer's turn is one of the middle layer that is at home at the face at its home face's
    place, or a backwards turn of the one at home opposite. -/
theorem turn_slice (o : Orientation) (s : Slice) (d : Direction) :
    ∃ s', (s'.homeFace = o.face s.homeFace ∧ o.turn ⟨.slice s, d⟩ = ⟨.slice s', d⟩)
      ∨ (s'.homeFace = (o.face s.homeFace).opposite
        ∧ o.turn ⟨.slice s, d⟩ = ⟨.slice s', d.inv⟩) := by
  have home_of {f : Face} {s' : Slice} (hs' : Slice.ofHomeFace? f = some s') : s'.homeFace = f := by
    simpa using List.find?_some hs'
  cases hhome : Slice.ofHomeFace? (o.face s.homeFace) with
  | some s' => exact ⟨s', .inl ⟨home_of hhome, by simp [turn, hhome]⟩⟩
  | none =>
    obtain ⟨s', hs'⟩ := Option.isSome_iff_exists.1 (Slice.ofHomeFace?_opposite _ hhome)
    exact ⟨s', .inr ⟨home_of hs', by simp [turn, hhome, hs']⟩⟩

/-- Translating a turn and turning it backwards go together. -/
theorem turn_inv (o : Orientation) (t : Turn) : o.turn t.inv = (o.turn t).inv := by
  obtain ⟨m, d⟩ := t
  cases m with
  | face f => rfl
  | wide f => rfl
  | rotation a => rfl
  | slice s =>
    simp only [turn, Turn.inv]
    cases Slice.ofHomeFace? (o.face s.homeFace) with
    | some s' => rfl
    | none => cases Slice.ofHomeFace? (o.face s.homeFace).opposite <;> rfl

/-- **To make a turn and go over to physical places is to go over and make the translated turn.** -/
theorem Reachable.physical_turn {o : Orientation} (h : o.Reachable) {t : Turn}
    (ht : t.isRotation = false) (p : Place) :
    (p.turned t).physical o = (p.physical o).turned (o.turn t) := by
  obtain ⟨m, d⟩ := t
  cases m with
  | face f => exact Place.physical_turned h f d p
  | wide f =>
    exact Place.physical_turned_of_leader h ⟨.wide f, d⟩ ⟨.wide (o.face f), d⟩ rfl rfl rfl p
  | rotation a => cases ht
  | slice s =>
    obtain ⟨s', ⟨hhome, hturn⟩ | ⟨hhome, hturn⟩⟩ := o.turn_slice s d
    · rw [hturn]
      exact Place.physical_turned_of_leader h ⟨.slice s, d⟩ ⟨.slice s', d⟩ hhome rfl rfl p
    · rw [hturn, Place.turned_slice_inv hhome, Place.depth_physical h,
        ← Place.physical_quarter_iterate h]
      by_cases hlayer : p.depth s.homeFace = 0 <;>
        simp [Place.turned, Move.leader, Move.turnsLayer, hlayer]

/-! ## Several rotations -/

/-- How the cube is held after some rotations. Turns that are no rotations are passed over. -/
def rotatedBy (o : Orientation) : List Turn → Orientation
  | [] => o
  | r :: rs =>
    match r.move with
    | .rotation a => (o.rotate a r.direction).rotatedBy rs
    | _ => o.rotatedBy rs

end Orientation

/-- Rotations show at every place what they bring there. -/
theorem Place.physical_rotatedBy {o : Orientation} (h : o.Reachable) {rs : List Turn}
    (hrs : ∀ r ∈ rs, r.isRotation) (p : Place) :
    p.physical (o.rotatedBy rs) = (p.carried (Turn.invList rs)).physical o := by
  induction rs generalizing o with
  | nil => rfl
  | cons r rs ih =>
    obtain ⟨hr, hrest⟩ := List.forall_mem_cons.1 hrs
    obtain ⟨m, d⟩ := r
    cases m with
    | rotation a =>
      rw [Turn.invList_cons, carried_append]
      exact (ih (h.rotate a d) hrest).trans (physical_rotate h a d _)
    | face f => cases hr
    | wide f => cases hr
    | slice s => cases hr

theorem Orientation.Reachable.rotatedBy {o : Orientation} (h : o.Reachable) (rs : List Turn) :
    (o.rotatedBy rs).Reachable := by
  induction rs generalizing o with
  | nil => exact h
  | cons r rs ih =>
    rw [Orientation.rotatedBy]
    split
    · exact ih (h.rotate _ _)
    · exact ih h

/-! ## On the cube -/

namespace Cube

/-- **A turn of the rotated cube is the translated turn of the cube, rotated afterwards.** If some
    rotations lead from the identity to an orientation, then on every reachable cube a turn that
    follows them does what the turn that the orientation translates it to does before them: the pieces,
    their twists and flips and how the cube is held are the same. This goes for cubes held as they
    started, where the orientation is how the cube is held when the turn is made, and for all others. -/
theorem Reachable.applyTurn_rotated {c : Cube} (hc : c.Reachable) {rs : List Turn}
    (hrs : ∀ r ∈ rs, r.isRotation) {t : Turn} (ht : t.isRotation = false) :
    (c.applyTurns rs).applyTurn t
      = (c.applyTurn ((Orientation.identity.rotatedBy rs).turn t)).applyTurns rs := by
  let o := Orientation.identity.rotatedBy rs
  have ho : o.Reachable := .rotatedBy .identity rs
  have hcarried (p : Place) : p.carried (Turn.invList rs) = p.physical o := by
    rw [Place.physical_rotatedBy .identity hrs, Place.physical_identity]
  have hword : (c.applyTurns rs).applyTurn t = c.applyTurns (rs ++ [t]) := by simp
  rw [hword]
  show c.applyTurns (rs ++ [t]) = c.applyTurns (o.turn t :: rs)
  obtain ⟨hafter, hstickers⟩ := stickers_applyTurns hc.orientation (rs ++ [t])
  obtain ⟨hbefore, hstickers'⟩ := stickers_applyTurns hc.orientation (o.turn t :: rs)
  refine eq_of_stickers hafter hbefore ?_
  rw [hstickers, hstickers']
  ext p : 1
  -- Both ways the sticker at a place comes from where turning back, and then holding the cube as the
  -- rotations leave it, takes that place.
  calc c.stickers.turns (rs ++ [t]) p
      = c.stickers ((p.turned t.inv).physical o) := by
        rw [Stickers.turns_apply, Turn.invList_append, Place.carried_append, hcarried]
        rfl
    _ = c.stickers ((p.physical o).turned (o.turn t).inv) := by
        rw [ho.physical_turn (t := t.inv) ht, o.turn_inv]
    _ = c.stickers.turns (o.turn t :: rs) p := by
        rw [Stickers.turns_apply, Turn.invList_cons, Place.carried_append, hcarried]
        rfl

/-- After `x` and `y'` a turn of `E` is a turn of `M` or `S` made backwards, on a scrambled cube. -/
theorem Reachable.applyTurn_rotated_backwards :
    let c := Cube.solved.applyTurns [⟨.face .R, .cw⟩, ⟨.face .U, .double⟩, ⟨.face .F, .ccw⟩]
    let rs : List Turn := [⟨.rotation .x, .cw⟩, ⟨.rotation .y, .ccw⟩]
    c.Reachable ∧ c.isOriented ∧ (∀ r ∈ rs, r.isRotation)
      ∧ (Orientation.identity.rotatedBy rs).turn ⟨.slice .E, .cw⟩ = ⟨.slice .S, .ccw⟩
      ∧ (c.applyTurns rs).applyTurn ⟨.slice .E, .cw⟩
        = (c.applyTurn ⟨.slice .S, .ccw⟩).applyTurns rs := by
  intro c rs
  have hc : c.Reachable := .turns .solved _
  have hrs : ∀ r ∈ rs, r.isRotation := by decide
  exact ⟨hc, by decide +kernel, hrs, by decide, applyTurn_rotated hc hrs rfl⟩

end Cube

end Cubing
