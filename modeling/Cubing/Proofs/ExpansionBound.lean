import Cubing.Algorithm
import Cubing.Proofs.NodesWithin
import Cubing.Proofs.TurnCounts
import Mathlib.Control.Monad.Basic

set_option autoImplicit false

/-! # What the bound on expansions bounds

An expansion is carried out from the inside out: the contents of every group are expanded before the
group is. `Algorithm.ofText` bounds the expansion of the whole tree by a count, and the count is the
length of that expansion (`Node.listTurnCount_eq`). Every group holds its sides and its contents at
least once, so the bound passes down to every node, with one exception. A repetition by zero stands
for nothing however long its contents are, so the bound says nothing about the nodes within one, and
those are expanded all the same (`Algorithm.ofText_bounds_nodes`). -/

namespace Cubing

/-! ## Expansions within expansions -/

namespace Node

variable {n : Node} {t : Tree}

theorem length_expand_le_of_mem (h : n ∈ t) : n.expand.length ≤ t.expand.length := by
  obtain ⟨front, back, rfl⟩ := List.append_of_mem h
  simp only [Tree.expand_append, Tree.expand_cons, List.length_append]
  omega

theorem length_expand_sides_le (kind : Bracket) (a b : List Node) :
    (Tree.expand a).length + (Tree.expand b).length ≤ (bracket kind a b).expand.length := by
  cases kind with
  | commutator =>
    rw [length_expand_commutator]
    omega
  | conjugate =>
    rw [length_expand_conjugate]
    omega

/-- What a live node expands to is part of what the algorithm expands to. -/
theorem Live.length_expand_le (h : n.Live t) : n.expand.length ≤ t.expand.length := by
  induction h with
  | here h => exact length_expand_le_of_mem h
  | @left t kind a b h _ ih =>
    have hbracket := length_expand_le_of_mem h
    have hsides := length_expand_sides_le kind a b
    omega
  | @right t kind a b h _ ih =>
    have hbracket := length_expand_le_of_mem h
    have hsides := length_expand_sides_le kind a b
    omega
  | @body t body c h hc _ ih =>
    -- A repetition that is not by zero holds its contents at least once.
    have hpos : 0 < c.toNat := Nat.pos_of_ne_zero fun h => hc (UInt32.toNat_inj.1 h)
    have hbody : (Tree.expand body).length ≤ (repeated body c).expand.length := by
      rw [length_expand_repeated]
      exact Nat.le_mul_of_pos_right _ hpos
    exact Nat.le_trans ih (Nat.le_trans hbody (length_expand_le_of_mem h))

end Node

/-! ## Accepted algorithms -/

namespace Algorithm

/-- **What the bound on expansions bounds.** In an accepted algorithm every live node expands to no
    more turns than the limit, as far as they are counted. So if the limit is one that a count can
    exceed, it bounds the expansion of every node at every depth just if it bounds those within
    repetitions by zero, which no check looks at. -/
theorem ofText_bounds_nodes {s : String} {limits : Limits} {a : Algorithm}
    (h : ofText s limits = .ok a) :
    (∀ n : Node, n.Live a.tree → min n.expand.length Count.cap ≤ limits.maxExpandedTurns)
      ∧ (limits.maxExpandedTurns < Count.cap →
        ((∀ n : Node, n.Anywhere a.tree → n.expand.length ≤ limits.maxExpandedTurns)
          ↔ ∀ n : Node, n.Skipped a.tree → n.expand.length ≤ limits.maxExpandedTurns)) := by
  obtain ⟨-, -, -, -, hcount, -⟩ := ofText_eq_ok_iff.1 h
  have hwhole : min a.tree.expand.length Count.cap ≤ limits.maxExpandedTurns :=
    Node.listTurnCount_eq a.tree ▸ hcount
  have hlive : ∀ n : Node, n.Live a.tree
      → min n.expand.length Count.cap ≤ limits.maxExpandedTurns := by
    intro n hn
    have := hn.length_expand_le
    omega
  refine ⟨hlive, fun hlimit => ⟨fun hall n hn => hall n hn.anywhere, ?_⟩⟩
  intro hskipped n hn
  rcases hn.live_or_skipped with hn | hn
  · have := hlive n hn
    omega
  · exact hskipped n hn

/-- Repeated turns and their repetition, within standard limits. -/
theorem ofText_bounds_nodes_repeated :
    let a : Algorithm := ⟨"((R U)2)6 [x: M]", [.repeated [.repeated [.seq
      [⟨.face .R, .cw⟩, ⟨.face .U, .cw⟩]] 2] 6,
      .bracket .conjugate [.seq [⟨.rotation .x, .cw⟩]] [.seq [⟨.slice .M, .cw⟩]]]⟩
    ofText "((R U)2)6 [x: M]" = .ok a ∧ Limits.standard.maxExpandedTurns < Count.cap
      ∧ (∀ n : Node, n.Live a.tree → min n.expand.length Count.cap ≤ 4096)
      ∧ ((∀ n : Node, n.Anywhere a.tree → n.expand.length ≤ 4096)
          ↔ ∀ n : Node, n.Skipped a.tree → n.expand.length ≤ 4096) := by
  intro a
  have h : ofText "((R U)2)6 [x: M]" = .ok a := by decide +kernel
  have hlimit : Limits.standard.maxExpandedTurns < Count.cap := by decide
  exact ⟨h, hlimit, (ofText_bounds_nodes h).1, (ofText_bounds_nodes h).2 hlimit⟩

/-- The bound does not hold for every node of every accepted algorithm: within a repetition by zero
    a node can expand to more turns than the limit. -/
theorem ofText_repeated_by_zero_unbounded :
    ∃ (a : Algorithm) (n : Node), ofText "((((((R)6)6)6)6)6)0" = .ok a ∧ n.Anywhere a.tree
      ∧ Limits.standard.maxExpandedTurns < n.expand.length := by
  let six (n : Node) : Node := .repeated [n] 6
  let deep : Node := six (six (six (six (six (.seq [⟨.face .R, .cw⟩])))))
  have hdeep : deep.expand.length = 7776 := by
    simp [deep, six, Node.length_expand_repeated, -Node.expand_repeated]
  refine ⟨⟨"((((((R)6)6)6)6)6)0", [.repeated [deep] 0]⟩, deep, by decide +kernel, ?_, ?_⟩
  · exact .body List.mem_cons_self trivial (.here List.mem_cons_self)
  · rw [hdeep]
    decide

end Algorithm

end Cubing
