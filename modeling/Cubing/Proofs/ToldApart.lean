import Cubing.Proofs.TurningStickers

set_option autoImplicit false

/-! # Turns are told apart on the solved cube

Whatever cube is turned, turns bring to a place the sticker of the place that they carry there. On
the solved cube every facelet shows its own name, so it tells which place that is. Turns that make
the same of the solved cube therefore bring every sticker from the same place, on any cube: held in
another way the cube shows other stickers, but at the same places in space. -/

namespace Cubing

namespace Place

/-- The facelets of the physical cube are at the same places of space as those of the cube as it is
    held. -/
theorem isSome_facelet?_of_physical {o : Orientation} (h : o.Reachable) {p : Place}
    (hp : (p.physical o).facelet?.isSome) : p.facelet?.isSome := by
  obtain ⟨hdepth, f, hnormal, hout⟩ := (isSome_facelet?_iff _).1 hp
  obtain ⟨g, rfl⟩ := h.face_bijective.surjective f
  refine (isSome_facelet?_iff p).2 ⟨fun k => depth_physical h k p ▸ hdepth _, g, ?_, ?_⟩
  · exact h.physical_injective (hnormal.trans (h.physical_normal g).symm)
  · rwa [depth_physical h] at hout

end Place

namespace Cube

/-- There are stickers only on facelets. -/
theorem stickers_eq_none_of_facelet? {c : Cube} (h : c.orientation.Reachable) {p : Place}
    (hp : p.facelet? = none) : c.stickers p = none := by
  have hnone : (p.physical c.orientation).facelet? = none := by
    rw [← Option.not_isSome_iff_eq_none]
    intro hsome
    have hfacelet := Place.isSome_facelet?_of_physical h hsome
    rw [hp] at hfacelet
    cases hfacelet
  rw [stickers, physicalStickers, hnone, Option.map_none]

/-- The solved cube shows at every facelet that facelet's own sticker. -/
theorem stickers_solved : solved.stickers = Place.facelet? := by
  have htwist : ∀ i : Fin 3, i - 0 = i := by decide
  have hflip : ∀ i : Fin 2, i - 0 = i := by decide
  have hshown : solved.shown = id := by
    funext x
    cases x with
    | corner s i => simp [shown, solved, CornerPiece.solved, htwist]
    | edge s i => simp [shown, solved, EdgePiece.solved, hflip]
    | centre f => rfl
  ext p : 1
  show (p.physical .identity).facelet?.map solved.shown = p.facelet?
  rw [hshown, Place.physical_identity, Option.map_id_fun, id]

/-- **Trying turns on the solved cube is enough.** Turns that make the same cube of the solved one
    make the same cube of every reachable one, however it is held. -/
theorem Reachable.applyTurns_eq_of_solved {c : Cube} (hc : c.Reachable) {ts us : List Turn}
    (h : Cube.solved.applyTurns ts = Cube.solved.applyTurns us) : c.applyTurns ts = c.applyTurns us := by
  -- The place from where turns bring a sticker, as far as the solved cube shows it.
  have hplace (p : Place) : (p.carried (Turn.invList ts)).facelet?
      = (p.carried (Turn.invList us)).facelet? := by
    have hstickers := congrFun (congrArg stickers h) p
    rwa [(stickers_applyTurns .identity ts).2, (stickers_applyTurns .identity us).2,
      Stickers.turns_apply, Stickers.turns_apply, stickers_solved] at hstickers
  obtain ⟨hts, hstickers⟩ := stickers_applyTurns hc.orientation ts
  obtain ⟨hus, hstickers'⟩ := stickers_applyTurns hc.orientation us
  refine eq_of_stickers hts hus ?_
  rw [hstickers, hstickers']
  ext p : 1
  rw [Stickers.turns_apply, Stickers.turns_apply]
  cases hfrom : (p.carried (Turn.invList ts)).facelet? with
  | some x =>
    rw [← Place.place_of_facelet? hfrom, ← Place.place_of_facelet? ((hplace p).symm.trans hfrom)]
  | none =>
    rw [stickers_eq_none_of_facelet? hc.orientation hfrom,
      stickers_eq_none_of_facelet? hc.orientation ((hplace p).symm.trans hfrom)]

/-- Six times `R U R' U'` does nothing to the solved cube, and so to a scrambled one that is not held
    as it started. -/
theorem Reachable.applyTurns_eq_of_solved_scrambled :
    let c := Cube.solved.applyTurns [⟨.rotation .z, .ccw⟩, ⟨.face .R, .cw⟩, ⟨.wide .U, .ccw⟩]
    let once : List Turn := [⟨.face .R, .cw⟩, ⟨.face .U, .cw⟩, ⟨.face .R, .ccw⟩, ⟨.face .U, .ccw⟩]
    let six := (List.replicate 6 once).flatten
    c.Reachable ∧ c.isOriented = false ∧ c.applyTurns once ≠ c
      ∧ Cube.solved.applyTurns six = Cube.solved.applyTurns [] ∧ c.applyTurns six = c.applyTurns [] := by
  intro c once six
  have hc : c.Reachable := .turns .solved _
  have hsolved : Cube.solved.applyTurns six = Cube.solved.applyTurns [] := by decide +kernel
  exact ⟨hc, by decide +kernel, by decide +kernel, hsolved, applyTurns_eq_of_solved hc hsolved⟩

end Cube

end Cubing
