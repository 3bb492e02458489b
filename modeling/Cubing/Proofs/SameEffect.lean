import Cubing.Proofs.Alike
import Cubing.Proofs.TurningStickers

set_option autoImplicit false

/-! # Alike turns have the same effect

Parallel turns are about one axis, and so are turns of one move; on stickers they do what their
amounts add up to, in any order. So alike lists of turns move stickers alike, and since the stickers
determine the cube, they make the same cube of any cube. The laws of single turns, how they are
undone, repeated and merged and which of them trade places, are the cases that being alike is built
from (`Cube.Reachable.turn_laws`). -/

namespace Cubing

namespace Turn

theorem axis_of_layerAxis? {t : Turn} {a : Axis} (h : t.move.layerAxis? = some a) :
    t.axis = a := by
  obtain ⟨m, d⟩ := t
  cases m with
  | face f => exact Option.some.inj h
  | wide f => exact Option.some.inj h
  | slice s => exact Option.some.inj h
  | rotation b => cases h

theorem axis_eq_of_parallel {a b : Turn} (h : a.parallel b) : a.axis = b.axis := by
  simp only [parallel, Bool.and_eq_true, decide_eq_true_eq] at h
  obtain ⟨c, hc⟩ := Option.isSome_iff_exists.1 h.1
  rw [axis_of_layerAxis? hc, axis_of_layerAxis? (h.2 ▸ hc)]

theorem totalAmount_merge {a b : Turn} (h : a.move = b.move) (d : Int) :
    totalAmount (merge a b).toList d % 4 = totalAmount [a, b] d % 4 := by
  have htwo : totalAmount [a, b] d
      = (a.direction.quarterTurns + b.direction.quarterTurns) * a.move.rate d := by
    simp [amount, h, Nat.add_mul]
  rw [toList_merge h, totalAmount_ofQuarterTurns?, htwo]

/-- Alike turns move stickers alike. -/
theorem Alike.stickers {ts us : List Turn} (h : Alike ts us) (s : Stickers) :
    s.turns ts = s.turns us := by
  induction h generalizing s with
  | refl ts => rfl
  | symm h ih => exact (ih s).symm
  | trans h h' ih ih' => exact (ih s).trans (ih' s)
  | @swap a b h =>
    have haxis : a.axis = b.axis := axis_eq_of_parallel h
    refine s.turns_congr (a := a.axis) (by simp [haxis]) (by simp [haxis]) ?_
    intro d
    simp [Nat.add_comm]
  | merge a b =>
    by_cases hmove : a.move = b.move
    · have haxis : b.axis = a.axis := by rw [axis, axis, hmove]
      have hmerged : ∀ t ∈ (Turn.merge a b).toList, t.axis = a.axis := by
        intro t ht
        exact axis_of_ofQuarterTurns? (toList_merge hmove ▸ ht)
      exact s.turns_congr (by simp [haxis]) hmerged fun d => (totalAmount_merge hmove d).symm
    · rw [Turn.merge, if_neg hmove]
      rfl
  | append h h' ih ih' => rw [Stickers.turns_append, Stickers.turns_append, ih, ih']

end Turn

namespace Cube

/-- **Alike turns make the same cube**, how it is held included. -/
theorem applyTurns_congr {c : Cube} (hc : c.orientation.Reachable) {ts us : List Turn}
    (h : Turn.Alike ts us) : c.applyTurns ts = c.applyTurns us := by
  obtain ⟨hts, hstickers⟩ := stickers_applyTurns hc ts
  obtain ⟨hus, hstickers'⟩ := stickers_applyTurns hc us
  refine eq_of_stickers hts hus ?_
  rw [hstickers, hstickers', h.stickers]

/-! ## The laws of turns -/

/-- **The algebra of turns holds on the cube.** On every reachable cube, however it is held, a turn
    and its inverse do nothing, a turn made several times does what the repeated turn does, two turns
    do what they merge to, and parallel turns may be made in either order. -/
theorem Reachable.turn_laws {c : Cube} (hc : c.Reachable) (a b : Turn) (n : Nat) :
    (c.applyTurn a).applyTurn a.inv = c
      ∧ c.applyTurns (List.replicate n a) = (a.times? n).elim c c.applyTurn
      ∧ (c.applyTurn a).applyTurn b = c.applyTurns (Turn.merge a b).toList
      ∧ (a.parallel b → (c.applyTurn a).applyTurn b = (c.applyTurn b).applyTurn a) := by
  have hlaw {ts us : List Turn} (h : Turn.Alike ts us) : c.applyTurns ts = c.applyTurns us :=
    applyTurns_congr hc.orientation h
  refine ⟨hlaw (.turn_inv a), ?_, hlaw (.merge a b), fun h => hlaw (.swap h)⟩
  rw [hlaw (.replicate a n)]
  cases a.times? n <;> rfl

/-- A wide turn backwards and a middle layer's turn along one axis, on a scrambled cube that is not
    held as it started; three of the former are one forwards. -/
theorem Reachable.turn_laws_parallel :
    let c := Cube.solved.applyTurns [⟨.rotation .z, .cw⟩, ⟨.face .R, .cw⟩, ⟨.wide .U, .ccw⟩]
    let a : Turn := ⟨.wide .L, .ccw⟩
    let b : Turn := ⟨.slice .M, .double⟩
    c.Reachable ∧ c.isOriented = false ∧ a.parallel b ∧ a.times? 3 = some ⟨.wide .L, .cw⟩
      ∧ (c.applyTurn a).applyTurn a.inv = c
      ∧ c.applyTurns (List.replicate 3 a) = c.applyTurn ⟨.wide .L, .cw⟩
      ∧ (c.applyTurn a).applyTurn b = c.applyTurns [a, b]
      ∧ (c.applyTurn a).applyTurn b = (c.applyTurn b).applyTurn a := by
  intro c a b
  have hc : c.Reachable := .turns .solved _
  have hparallel : a.parallel b := by decide
  have hthree : a.times? 3 = some ⟨.wide .L, .cw⟩ := by decide
  obtain ⟨hinv, htimes, hmerge, hswap⟩ := turn_laws hc a b 3
  rw [hthree] at htimes
  exact ⟨hc, by decide +kernel, hparallel, hthree, hinv, htimes, hmerge, hswap hparallel⟩

end Cube

end Cubing
