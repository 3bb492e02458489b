import Cubing.Proofs.Inverses
import Cubing.Proofs.NormalForm
import Cubing.Proofs.SimplifiedEffect

set_option autoImplicit false

/-! # Undoing an algorithm undoes its effect

Groups are undone as groups, so the inverse of an algorithm is another tree, and what is made on a
cube is its own expansion, simplified on its own. Still its expansion is the expansion undone, turn
for turn (`Tree.expand_inv`). The turns of an algorithm are alike to its expansion, so the turns of an
algorithm and of its inverse cancel, from any cube and in either order (`Cube.Reachable.inv_undoes`).
-/

namespace Cubing

/-! ## The turns of an inverse -/

namespace Algorithm

/-- The turns of an algorithm are its expansion, reduced. -/
theorem turns_eq (a : Algorithm) : a.turns = Turn.reduce a.tree.expand := by
  rw [turns, Tree.sequence_eq]
  exact Tree.topTurns_of_turns? (Tree.turns?_clean_seq _)

theorem alike_turns (a : Algorithm) : Turn.Alike a.turns a.tree.expand := by
  rw [turns_eq]
  exact Turn.Alike.reduce _

/-- The turns of an inverse are alike to the turns undone. -/
theorem alike_turns_inv (a : Algorithm) : Turn.Alike a.inv.turns (Turn.invList a.turns) := by
  calc a.inv.turns
    Turn.Alike _ (Tree.expand a.inv.tree) := a.inv.alike_turns
    Turn.Alike _ (Turn.invList a.tree.expand) := .of_eq a.tree.expand_inv
    Turn.Alike _ (Turn.invList a.turns) := a.alike_turns.symm.invList

end Algorithm

namespace Cube

/-- **An inverse undoes its algorithm.** On every reachable cube an algorithm and then its inverse,
    or the inverse and then the algorithm, make the very cube again, how it is held included. -/
theorem Reachable.inv_undoes {c : Cube} (hc : c.Reachable) (a : Algorithm) :
    (c.apply a).apply a.inv = c ∧ (c.apply a.inv).apply a = c := by
  have hundo : Turn.Alike (a.turns ++ a.inv.turns) [] :=
    (a.alike_turns_inv.append_left _).trans (.append_invList _)
  have hredo : Turn.Alike (a.inv.turns ++ a.turns) [] :=
    (a.alike_turns_inv.append_right _).trans (.invList_append _)
  constructor
  · show (c.applyTurns a.turns).applyTurns a.inv.turns = c
    rw [← applyTurns_append, applyTurns_congr hc.orientation hundo, applyTurns_nil]
  · show (c.applyTurns a.inv.turns).applyTurns a.turns = c
    rw [← applyTurns_append, applyTurns_congr hc.orientation hredo, applyTurns_nil]

/-- An accepted text with a wide turn in its setup, on a scrambled cube that is not held as it
    started. -/
theorem Reachable.inv_undoes_accepted :
    let c := Cube.solved.applyTurns [⟨.rotation .z, .ccw⟩, ⟨.face .F, .cw⟩, ⟨.slice .E, .cw⟩]
    let a : Algorithm := ⟨"[r U: [x' D2, M]] (R' F)3",
      [.bracket .conjugate [.seq [⟨.wide .R, .cw⟩, ⟨.face .U, .cw⟩]]
          [.bracket .commutator [.seq [⟨.rotation .x, .ccw⟩, ⟨.face .D, .double⟩]]
            [.seq [⟨.slice .M, .cw⟩]]],
        .repeated [.seq [⟨.face .R, .ccw⟩, ⟨.face .F, .cw⟩]] 3]⟩
    Algorithm.ofText "[r U: [x' D2, M]] (R' F)3" = .ok a ∧ c.Reachable ∧ c.isOriented = false
      ∧ c.apply a ≠ c ∧ (c.apply a).apply a.inv = c ∧ (c.apply a.inv).apply a = c := by
  intro c a
  have haccepted : Algorithm.ofText "[r U: [x' D2, M]] (R' F)3" = .ok a := by decide +kernel
  have hc : c.Reachable := .turns .solved _
  exact ⟨haccepted, hc, by decide +kernel, by decide +kernel, inv_undoes hc a⟩

end Cube

end Cubing
