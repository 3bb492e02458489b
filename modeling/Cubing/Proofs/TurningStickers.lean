import Cubing.Proofs.Stickers

set_option autoImplicit false

/-! # Turning the cube is turning its stickers

The slot tables, the twists and flips of a quarter turn, the rotations of the orientation and the
words for wide turns and middle layers are one story about the physical cube: to turn the cube and
then look at its stickers is to turn its stickers in space (`Cube.stickers_applyTurn`). It is told
turn by turn, a quarter turn of a physical layer first. -/

namespace Cubing

/-! ## Quarter turns of physical layers -/

/-- The facelet whose sticker a clockwise quarter turn of a face brings to a facelet: as many
    facelets back as the piece is twisted or flipped on its way. -/
def Face.origin (f : Face) : Facelet → Facelet
  | .corner s i =>
    let source := f.corners.source s
    .corner source (i - ((CornerPiece.solved source).twistBy (f.twist source)).twist)
  | .edge s i =>
    let source := f.edges.source s
    .edge source (i - ((EdgePiece.solved source).flipBy (f.flip source)).flip)
  | .centre g => .centre g

/-- The slot tables put every sticker where a quarter turn in space takes it. -/
theorem Face.origin_place_turned (f : Face) (x : Facelet) :
    (f.origin x).place.turned ⟨.face f, .cw⟩ = x.place := by
  have hall : ∀ f ∈ all, ∀ x ∈ Facelet.all,
      (f.origin x).place.turned ⟨.face f, .cw⟩ = x.place := by decide +kernel
  exact hall f (mem_all f) x (Facelet.mem_all x)

/-- Four quarter turns bring every sticker back. -/
theorem Face.origin_four (f : Face) (x : Facelet) :
    f.origin (f.origin (f.origin (f.origin x))) = x := by
  have hall : ∀ f ∈ all, ∀ x ∈ Facelet.all,
      f.origin (f.origin (f.origin (f.origin x))) = x := by decide +kernel
  exact hall f (mem_all f) x (Facelet.mem_all x)

theorem Face.origin_place (f : Face) (x : Facelet) :
    x.place.turned ⟨.face f, .ccw⟩ = (f.origin x).place := by
  rw [← f.origin_place_turned x]
  exact Place.turned_turned_inv ⟨.face f, .cw⟩ _

/-- Turning back by a quarter takes facelets to their origins, and places that are no facelets to
    places that are none. -/
theorem Place.facelet?_turned (f : Face) (p : Place) :
    (p.turned ⟨.face f, .ccw⟩).facelet? = p.facelet?.map f.origin := by
  cases h : p.facelet? with
  | some x => rw [← place_of_facelet? h, f.origin_place, Facelet.facelet?_place, Option.map_some]
  | none =>
    cases hback : (p.turned ⟨.face f, .ccw⟩).facelet? with
    | none => rfl
    | some y =>
      -- Three more quarter turns back from a facelet there is a facelet here.
      have hy : (f.origin (f.origin (f.origin y))).place.turned ⟨.face f, .ccw⟩
          = p.turned ⟨.face f, .ccw⟩ := by
        rw [f.origin_place, f.origin_four, place_of_facelet? hback]
      rw [← turned_injective _ hy, Facelet.facelet?_place] at h
      cases h

namespace Cube

/-- A quarter turn shows on every facelet what was on its origin. -/
theorem shown_quarterTurn (c : Cube) (f : Face) (x : Facelet) :
    (c.quarterTurn f).shown x = c.shown (f.origin x) := by
  have htwist : ∀ i k t : Fin 3, i - (k + t) = i - t - k := by decide
  have hflip : ∀ i k t : Fin 2, i - (k + t) = i - t - k := by decide
  cases x with
  | corner s i =>
    simp [shown, quarterTurn, Face.origin, CornerPiece.solved, CornerPiece.twistBy, htwist]
  | edge s i =>
    simp [shown, quarterTurn, Face.origin, EdgePiece.solved, EdgePiece.flipBy, hflip]
  | centre g => rfl

theorem physicalStickers_quarterTurn (c : Cube) (f : Face) :
    (c.quarterTurn f).physicalStickers = c.physicalStickers.turn ⟨.face f, .cw⟩ := by
  ext q : 1
  have horigin : (q.turned ⟨.face f, .ccw⟩).facelet? = q.facelet?.map f.origin :=
    Place.facelet?_turned f q
  calc (c.quarterTurn f).physicalStickers q
      = q.facelet?.map fun x => c.shown (f.origin x) := by
        simp [physicalStickers, funext (c.shown_quarterTurn f)]
    _ = (q.turned ⟨.face f, .ccw⟩).facelet?.map c.shown := by
        rw [horigin, Option.map_map]; rfl
    _ = c.physicalStickers.turn ⟨.face f, .cw⟩ q := rfl

/-- Turning a physical layer turns the physical stickers. -/
theorem physicalStickers_turnLayer (c : Cube) (f : Face) (d : Direction) :
    (c.turnLayer f d).physicalStickers = c.physicalStickers.turn ⟨.face f, d⟩ := by
  -- One, two or three quarter turns are as many turns of the stickers, about one axis.
  have hword (ts : List Turn) (hts : ∀ t ∈ ts, t = ⟨.face f, .cw⟩)
      (h : ∀ n, Turn.totalAmount ts n % 4 = Turn.totalAmount [⟨.face f, d⟩] n % 4) :
      c.physicalStickers.turns ts = c.physicalStickers.turns [⟨.face f, d⟩] := by
    have haxis : ∀ t ∈ ts, t.axis = f.axis := fun t ht => by rw [hts t ht]; rfl
    have hsingle : ∀ t ∈ [(⟨.face f, d⟩ : Turn)], t.axis = f.axis := by
      simp [Turn.axis, Move.leader]
    exact c.physicalStickers.turns_congr haxis hsingle h
  cases d with
  | cw => exact c.physicalStickers_quarterTurn f
  | double =>
    rw [turnLayer, physicalStickers_quarterTurn, physicalStickers_quarterTurn]
    refine hword [⟨.face f, .cw⟩, ⟨.face f, .cw⟩] (by simp) fun n => ?_
    simp only [Turn.totalAmount_cons, Turn.totalAmount_nil, Turn.amount, Direction.quarterTurns]
    omega
  | ccw =>
    rw [turnLayer, physicalStickers_quarterTurn, physicalStickers_quarterTurn,
      physicalStickers_quarterTurn]
    refine hword [⟨.face f, .cw⟩, ⟨.face f, .cw⟩, ⟨.face f, .cw⟩] (by simp) fun n => ?_
    simp only [Turn.totalAmount_cons, Turn.totalAmount_nil, Turn.amount, Direction.quarterTurns]
    omega

/-! ## Turns of the cube as it is held -/

@[simp] theorem orientation_quarterTurn (c : Cube) (f : Face) :
    (c.quarterTurn f).orientation = c.orientation := rfl

@[simp] theorem orientation_turnLayer (c : Cube) (f : Face) (d : Direction) :
    (c.turnLayer f d).orientation = c.orientation := by
  cases d <;> rfl

theorem reachable_orientation_applyOuter {c : Cube} (h : c.orientation.Reachable) (t : Turn) :
    (c.applyOuter t).orientation.Reachable := by
  unfold applyOuter
  split
  · simpa using h
  · exact h.rotate _ _
  · exact h
  · exact h

/-- An outer face turn or a rotation turns the stickers. -/
theorem stickers_applyOuter {c : Cube} (h : c.orientation.Reachable) {t : Turn}
    (ht : t.decompose? = none) : (c.applyOuter t).stickers = c.stickers.turn t := by
  obtain ⟨m, d⟩ := t
  ext p : 1
  cases m with
  | face f =>
    calc (c.applyOuter ⟨.face f, d⟩).stickers p
        = (c.turnLayer (c.orientation.face f) d).physicalStickers (p.physical c.orientation) := by
          simp [stickers, applyOuter]
      _ = c.physicalStickers ((p.physical c.orientation).turned
            ⟨.face (c.orientation.face f), d.inv⟩) := by
          rw [physicalStickers_turnLayer]; rfl
      _ = c.physicalStickers ((p.turned ⟨.face f, d.inv⟩).physical c.orientation) := by
          rw [Place.physical_turned h]
  | rotation a =>
    calc (c.applyOuter ⟨.rotation a, d⟩).stickers p
        = c.physicalStickers (p.physical (c.orientation.rotate a d)) := rfl
      _ = c.physicalStickers ((p.turned ⟨.rotation a, d.inv⟩).physical c.orientation) := by
          rw [Place.physical_rotate h]
  | wide f => cases ht
  | slice s => cases ht

theorem stickers_foldl_applyOuter {c : Cube} (h : c.orientation.Reachable) {ts : List Turn}
    (hts : ∀ t ∈ ts, t.decompose? = none) :
    (ts.foldl applyOuter c).orientation.Reachable
      ∧ (ts.foldl applyOuter c).stickers = c.stickers.turns ts := by
  induction ts generalizing c with
  | nil => exact ⟨h, rfl⟩
  | cons t ts ih =>
    have hstep := stickers_applyOuter h (hts t List.mem_cons_self)
    have hrest := ih (reachable_orientation_applyOuter h t)
      (fun u hu => hts u (List.mem_cons_of_mem t hu))
    rw [hstep] at hrest
    exact hrest

theorem reachable_orientation_applyTurn {c : Cube} (h : c.orientation.Reachable) (t : Turn) :
    (c.applyTurn t).orientation.Reachable :=
  (stickers_foldl_applyOuter h fun _ hu => Turn.decompose?_of_mem_outer hu).1

/-- There are stickers only in the three layers along each axis. -/
theorem stickers_eq_none {c : Cube} (h : c.orientation.Reachable) {p : Place} {f : Face}
    (hp : p.depth f ∉ [-1, 0, 1]) : c.stickers p = none := by
  have hnone : (p.physical c.orientation).facelet? = none := by
    rw [← Option.not_isSome_iff_eq_none, Place.isSome_facelet?_iff]
    rintro ⟨hdepth, -⟩
    exact hp (Place.depth_physical h f p ▸ hdepth (c.orientation.face f))
  rw [stickers, physicalStickers, hnone, Option.map_none]

/-- **Turning the cube turns its stickers.** A wide turn or a middle layer's turn is made as outer
    turns and a rotation, which give each of the three layers the same amount. -/
theorem stickers_applyTurn {c : Cube} (h : c.orientation.Reachable) (t : Turn) :
    (c.applyTurn t).stickers = c.stickers.turn t := by
  have hword : (c.applyTurn t).stickers = c.stickers.turns t.outer :=
    (stickers_foldl_applyOuter h fun _ hu => Turn.decompose?_of_mem_outer hu).2
  have houter : ∀ u ∈ t.outer, u.axis = t.axis := fun _ => Turn.axis_of_mem_outer
  have hsingle : ∀ u ∈ [t], u.axis = t.axis := by simp
  rw [hword]
  ext p : 1
  by_cases hp : p.depth t.axis.leadFace ∈ [-1, 0, 1]
  · refine c.stickers.turns_apply_congr houter hsingle p ?_
    simpa using t.totalAmount_outer hp
  · -- No sticker comes from outside the three layers, in whatever way the layers turn.
    have hnone {ts : List Turn} (hts : ∀ u ∈ ts, u.axis = t.axis) :
        c.stickers.turns ts p = none := by
      rw [Stickers.turns_apply]
      apply stickers_eq_none h (f := t.axis.leadFace)
      rwa [Place.depth_carried (Turn.axis_of_mem_invList hts)]
    exact (hnone houter).trans (hnone hsingle).symm

theorem stickers_applyTurns {c : Cube} (h : c.orientation.Reachable) (ts : List Turn) :
    (c.applyTurns ts).orientation.Reachable
      ∧ (c.applyTurns ts).stickers = c.stickers.turns ts := by
  induction ts generalizing c with
  | nil => exact ⟨h, rfl⟩
  | cons t ts ih =>
    have hrest := ih (reachable_orientation_applyTurn h t)
    rw [stickers_applyTurn h] at hrest
    exact hrest

/-! ## Reachable cubes -/

/-- The cubes that turns and reorienting reach from the solved one. -/
inductive Reachable : Cube → Prop where
  | solved : Reachable solved
  | turn {c : Cube} (h : Reachable c) (t : Turn) : Reachable (c.applyTurn t)
  | orient {c : Cube} (h : Reachable c) : Reachable c.orient

theorem Reachable.orientation {c : Cube} (h : c.Reachable) : c.orientation.Reachable := by
  induction h with
  | solved => exact .identity
  | turn h t ih => exact reachable_orientation_applyTurn ih t
  | orient h ih => exact .identity

theorem Reachable.turns {c : Cube} (h : c.Reachable) (ts : List Turn) :
    (c.applyTurns ts).Reachable := by
  induction ts generalizing c with
  | nil => exact h
  | cons t ts ih => exact ih (h.turn t)

/-- **The engine is the physical cube.** From every reachable cube, to make a turn, or any turns, and
    then look at the stickers is to look at the stickers and then turn them in space. -/
theorem Reachable.stickers_follow_turns {c : Cube} (h : c.Reachable) :
    (∀ t : Turn, (c.applyTurn t).stickers = c.stickers.turn t)
      ∧ ∀ ts : List Turn, (c.applyTurns ts).stickers = c.stickers.turns ts :=
  ⟨stickers_applyTurn h.orientation, fun ts => (stickers_applyTurns h.orientation ts).2⟩

/-- A middle layer's turn on a scrambled cube that is not held as it started. -/
theorem Reachable.stickers_follow_turns_scrambled :
    let c := Cube.solved.applyTurns
      [⟨.rotation .x, .cw⟩, ⟨.face .R, .cw⟩, ⟨.wide .U, .ccw⟩, ⟨.face .F, .double⟩]
    c.Reachable ∧ c.isSolved = false ∧ c.isOriented = false
      ∧ (c.applyTurn ⟨.slice .M, .ccw⟩).stickers = c.stickers.turn ⟨.slice .M, .ccw⟩ := by
  intro c
  have hc : c.Reachable := .turns .solved _
  exact ⟨hc, by decide +kernel, by decide +kernel, (stickers_follow_turns hc).1 _⟩

end Cube

end Cubing
