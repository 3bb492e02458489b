import Cubing.Tree.Expansion
import Cubing.Tree.TurnCount

set_option autoImplicit false

/-! # Counting is expanding

The turns of an algorithm are counted without expanding it, and every sum and product on the way is
capped. Still the count is the length of the expansion, capped once at the end
(`Node.listTurnCount_eq`). What is cut off on the way would have been cut off anyhow: a sum with a
capped count is capped, and so is a product with one, unless the other factor is zero. Then the
product is zero, whether or not the first factor was cut off.

For the same reason it does not matter in which order the elements of a list are added up
(`Node.foldl_turnCount`). -/

namespace Cubing

/-! ## Capped arithmetic -/

namespace Count

theorem add_min (m n : Nat) : add (min m cap) (min n cap) = min (m + n) cap := by
  simp only [add]
  omega

theorem mul_min (m n : Nat) : mul (min m cap) n = min (m * n) cap := by
  rw [mul]
  rcases Nat.eq_zero_or_pos n with rfl | hn
  · simp
  · rcases Nat.le_total m cap with hm | hm
    · rw [Nat.min_eq_left hm]
    · have hcap : cap ≤ cap * n := Nat.le_mul_of_pos_right cap hn
      have hmul : cap * n ≤ m * n := Nat.mul_le_mul_right n hm
      rw [Nat.min_eq_right hm, Nat.min_eq_right hcap, Nat.min_eq_right (Nat.le_trans hcap hmul)]

theorem add_le_cap (m n : Nat) : add m n ≤ cap := Nat.min_le_right _ _

theorem add_assoc (k m n : Nat) : add (add k m) n = add k (add m n) := by
  simp only [add]
  omega

theorem add_zero {n : Nat} (h : n ≤ cap) : add n 0 = n := Nat.min_eq_left h

theorem zero_add {n : Nat} (h : n ≤ cap) : add 0 n = n := by
  rw [add, Nat.zero_add, Nat.min_eq_left h]

end Count

/-! ## The length of an expansion -/

namespace Node

theorem length_expand_commutator (a b : List Node) :
    (bracket .commutator a b).expand.length
      = ((Tree.expand a).length + (Tree.expand b).length) * 2 := by
  simp [Bracket.expand]
  omega

theorem length_expand_conjugate (a b : List Node) :
    (bracket .conjugate a b).expand.length
      = (Tree.expand a).length * 2 + (Tree.expand b).length := by
  simp [Bracket.expand]
  omega

theorem length_expand_repeated (body : List Node) (c : UInt32) :
    (repeated body c).expand.length = (Tree.expand body).length * c.toNat := by
  simp [Turn.timesList, Nat.mul_comm]

/-! ## Counts -/

/-- **The count of a list of nodes is the length of its expansion**, capped. -/
theorem listTurnCount_eq (t : Tree) : listTurnCount t = min t.expand.length Count.cap := by
  induction t using Tree.induction with
  | nil => rfl
  | seq ts t ih => simp [listTurnCount, turnCount, ih, Count.add_min]
  | bracket kind a b t iha ihb ih =>
    have hbracket : (bracket kind a b).turnCount
        = min (bracket kind a b).expand.length Count.cap := by
      cases kind with
      | commutator =>
        rw [turnCount, iha, ihb, Count.add_min, Count.mul_min, length_expand_commutator]
      | conjugate =>
        rw [turnCount, iha, ihb, Count.mul_min, Count.add_min, length_expand_conjugate]
    rw [listTurnCount, ih, hbracket, Count.add_min, Tree.expand_cons, List.length_append]
  | repeated body c t ihbody ih =>
    have hrepeated : (repeated body c).turnCount
        = min (repeated body c).expand.length Count.cap := by
      rw [turnCount, ihbody, Count.mul_min, length_expand_repeated]
    rw [listTurnCount, ih, hrepeated, Count.add_min, Tree.expand_cons, List.length_append]

/-- Adding up from the left gives the same count as adding up from the right. -/
theorem foldl_turnCount {k : Nat} (hk : k ≤ Count.cap) (ns : List Node) :
    (ns.map turnCount).foldl Count.add k = Count.add k (listTurnCount ns) := by
  induction ns generalizing k with
  | nil => exact (Count.add_zero hk).symm
  | cons n ns ih =>
    rw [List.map_cons, List.foldl_cons, ih (Count.add_le_cap _ _), Count.add_assoc, listTurnCount]

end Node

namespace Tree

theorem turnCount_eq (t : Tree) : t.turnCount = min t.expand.length Count.cap :=
  Node.listTurnCount_eq t

/-- **Counting is exact up to the cap.** The count of an algorithm is the length of its expansion or,
    if the expansion is longer than can be counted, the largest count. The equations determine that
    length, from the lengths of the parts. At every depth the elements of a list may as well be added
    up from the left. -/
theorem turnCount_exact_up_to_cap (t : Tree) :
    t.turnCount = min t.expand.length (UInt64.size - 1)
      ∧ (∀ (n : Node) (ns : Tree), (Tree.expand (n :: ns)).length
          = n.expand.length + ns.expand.length)
      ∧ (∀ a b : Tree, (Node.bracket .conjugate a b).expand.length
          = 2 * a.expand.length + b.expand.length)
      ∧ (∀ a b : Tree, (Node.bracket .commutator a b).expand.length
          = 2 * a.expand.length + 2 * b.expand.length)
      ∧ (∀ (body : Tree) (n : UInt32), (Node.repeated body n).expand.length
          = n.toNat * body.expand.length)
      ∧ ∀ ns : List Node, Node.listTurnCount ns = (ns.map Node.turnCount).foldl Count.add 0 := by
  refine ⟨t.turnCount_eq, fun n ns => ?_, fun a b => ?_, fun a b => ?_, fun body n => ?_,
    fun ns => ?_⟩
  · rw [expand_cons, List.length_append]
  · rw [Node.length_expand_conjugate, Nat.mul_comm]
  · rw [Node.length_expand_commutator]
    omega
  · rw [Node.length_expand_repeated, Nat.mul_comm]
  · have hcap : Node.listTurnCount ns ≤ Count.cap := by
      rw [Node.listTurnCount_eq]
      exact Nat.min_le_right _ _
    rw [Node.foldl_turnCount (Nat.zero_le _), Count.zero_add hcap]

end Tree

end Cubing
