import Cubing.Algorithm
import Cubing.Proofs.NormalForm
import Cubing.Tree.Inverse

set_option autoImplicit false

/-! # The repeat counts of an algorithm

Which repeat counts an algorithm has, at any depth. The check of repeat counts reports the first of
them that is above the bound (`Tree.checkMultipliers_eq`). Simplifying drops repetitions and never
makes one, and undoing an algorithm keeps its counts, so what passes the check passes it simplified
and undone. -/

namespace Cubing

namespace Node

mutual

/-- The repeat counts in a node, from the inside out and from left to right. -/
def counts : Node → List UInt32
  | seq _ => []
  | bracket _ a b => listCounts a ++ listCounts b
  | repeated body n => listCounts body ++ [n]

def listCounts : List Node → List UInt32
  | [] => []
  | n :: ns => n.counts ++ listCounts ns

end

end Node

namespace Tree

/-- The repeat counts of an algorithm, in the order in which they are checked. -/
def counts (t : Tree) : List UInt32 := Node.listCounts t

@[simp] theorem counts_nil : counts [] = [] := rfl

@[simp] theorem counts_cons (n : Node) (t : Tree) : counts (n :: t) = n.counts ++ counts t := rfl

@[simp] theorem counts_append (s t : Tree) : counts (s ++ t) = counts s ++ counts t := by
  induction s with
  | nil => rfl
  | cons n s ih => simp [ih]

theorem mem_counts_iff {t : Tree} {c : UInt32} : c ∈ t.counts ↔ ∃ n ∈ t, c ∈ n.counts := by
  induction t with
  | nil => simp
  | cons n t ih => simp [ih]

end Tree

namespace Node

@[simp] theorem counts_seq (ts : List Turn) : (seq ts).counts = [] := rfl

@[simp] theorem counts_bracket (kind : Bracket) (a b : List Node) :
    (bracket kind a b).counts = Tree.counts a ++ Tree.counts b := by
  rw [counts]
  rfl

@[simp] theorem counts_repeated (body : List Node) (n : UInt32) :
    (repeated body n).counts = Tree.counts body ++ [n] := by
  rw [counts]
  rfl

end Node

/-! ## The check -/

namespace MultiplierTooLarge

variable {α β : Type}

/-- A value, unless one of some counts is above the bound; then the first such count. -/
def check (max : UInt32) (counts : List UInt32) (x : α) : Except MultiplierTooLarge α :=
  match counts.find? (max < ·) with
  | none => .ok x
  | some n => .error ⟨n, max⟩

/-- Counts checked one after the other. -/
theorem check_bind {max : UInt32} {ms ns : List UInt32} {x : α} {y : β}
    {f : α → Except MultiplierTooLarge β} (h : f x = check max ns y) :
    check max ms x >>= f = check max (ms ++ ns) y := by
  unfold check at h ⊢
  rw [List.find?_append]
  cases ms.find? (max < ·) with
  | none => exact h
  | some n => rfl

theorem check_eq_ok_iff {max : UInt32} {counts : List UInt32} {x y : α} :
    check max counts x = .ok y ↔ x = y ∧ ∀ n ∈ counts, n ≤ max := by
  have hnone : counts.find? (max < ·) = none ↔ ∀ n ∈ counts, n ≤ max := by simp
  rw [← hnone, check]
  cases counts.find? (max < ·) <;> simp

end MultiplierTooLarge

open MultiplierTooLarge (check check_bind)

/-- The rule that bounds counts leaves the elements in place as long as no count is above the
    bound. -/
theorem Node.listTransformM_multiplierBound (max : UInt32) (t : Tree) :
    Node.listTransformM (Rules.multiplierBound max) t = check max t.counts t := by
  have hcons {n : Node} {t : Tree}
      (hn : n.transformM (Rules.multiplierBound max) = check max n.counts (.keep n))
      (ht : Node.listTransformM (Rules.multiplierBound max) t = check max t.counts t) :
      Node.listTransformM (Rules.multiplierBound max) (n :: t)
        = check max (Tree.counts (n :: t)) (n :: t) := by
    rw [Node.listTransformM, hn, ht, Tree.counts_cons]
    refine check_bind ?_
    conv_rhs => rw [← List.append_nil t.counts]
    exact check_bind rfl
  induction t using Tree.induction with
  | nil => rfl
  | seq ts t ih =>
    refine hcons ?_ ih
    rw [Node.transformM, Rules.transformTurns_of_keep _ fun _ => rfl, pure_bind]
    rfl
  | bracket kind a b t iha ihb ih =>
    refine hcons ?_ ih
    rw [Node.transformM, iha, ihb, Node.counts_bracket]
    refine check_bind ?_
    conv_rhs => rw [← List.append_nil (Tree.counts b)]
    exact check_bind rfl
  | repeated body n t ihbody ih =>
    refine hcons ?_ ih
    rw [Node.transformM, ihbody, Node.counts_repeated]
    refine check_bind ?_
    show (if max < n then Except.error ⟨n, max⟩ else .ok (Replacement.keep (Node.repeated body n)))
      = check max [n] (Replacement.keep (Node.repeated body n))
    by_cases h : max < n <;> simp [check, h]

namespace Tree

/-- **The check of repeat counts** reports the first count above the bound, from the inside out and
    from left to right, if there is one. -/
theorem checkMultipliers_eq (t : Tree) (max : UInt32) :
    t.checkMultipliers max = check max t.counts () := by
  have htransform : t.transformM (Rules.multiplierBound max) = check max t.counts t := by
    rw [transformM, Node.listTransformM_multiplierBound]
    conv_rhs => rw [← List.append_nil t.counts]
    exact check_bind rfl
  rw [checkMultipliers, htransform]
  unfold check
  cases t.counts.find? (max < ·) <;> rfl

theorem checkMultipliers_eq_ok_iff {t : Tree} {max : UInt32} :
    t.checkMultipliers max = .ok () ↔ ∀ n ∈ t.counts, n ≤ max := by
  rw [checkMultipliers_eq, MultiplierTooLarge.check_eq_ok_iff]
  simp

end Tree

/-! ## Counts of simplified algorithms -/

namespace Node

variable {n : Node} {a b : List Node}

theorem counts_tidy_subset (ns : List Node) : Tree.counts (tidy ns) ⊆ Tree.counts ns := by
  intro c hc
  obtain ⟨n, hn, hcn⟩ := Tree.mem_counts_iff.1 hc
  rcases mem_tidy hn with ⟨ts, -, -, rfl⟩ | ⟨hn, -⟩
  · simp at hcn
  · exact Tree.mem_counts_iff.2 ⟨n, hn, hcn⟩

/-- Folding a setup keeps the counts. -/
theorem counts_foldSetup? (h : foldSetup? a b = some n) :
    n.counts = (bracket .conjugate a b).counts := by
  obtain ⟨front, setup, last, x, last', other, rfl, rfl, -, rfl⟩ := foldSetup?_eq_some_iff.1 h
  simp

theorem counts_simplifyConjugate_subset (a b : List Node) :
    Tree.counts (simplifyConjugate a b).toList ⊆ (bracket .conjugate a b).counts := by
  unfold simplifyConjugate
  split
  · simp [Replacement.toList]
  · split
    · simp [Replacement.toList]
    · cases hfold : foldSetup? a b with
      | none => simp [Replacement.toList]
      | some n => simp [Replacement.toList, counts_foldSetup? hfold]

theorem counts_simplifyCommutator_subset (a b : List Node) :
    Tree.counts (simplifyCommutator a b).toList ⊆ (bracket .commutator a b).counts := by
  unfold simplifyCommutator
  split <;> simp [Replacement.toList]

theorem counts_simplifyRepeated_subset (body : List Node) (c : UInt32) :
    Tree.counts (simplifyRepeated body c).toList ⊆ (repeated body c).counts := by
  unfold simplifyRepeated
  split
  · simp [Replacement.toList]
  · split
    · simp [Replacement.toList]
    · split
      · rename_i t _
        cases t.times? c.toNat <;> simp [Replacement.toList, Replacement.ofOption]
      · simp [Replacement.toList]

/-- No rule of simplification makes a new count. -/
theorem relates_simplification_counts :
    Rules.simplification.Relates fun s t => t.counts ⊆ s.counts where
  turn _ := rfl
  nil := List.Subset.refl _
  append ha hb := by
    rw [Tree.counts_append, Tree.counts_append]
    exact List.append_subset.2 ⟨List.subset_append_of_subset_left _ ha,
      List.subset_append_of_subset_right _ hb⟩
  seq ts := by
    have hseq : (Rules.simplification.seq ts).run.toList = (reducedSeq? ts).toList := by
      simp [Rules.simplification]
    rw [hseq]
    cases h : reducedSeq? ts with
    | none => simp
    | some n =>
      obtain ⟨-, rfl⟩ := reducedSeq?_eq_some_iff.1 h
      simp
  bracket kind {a a' b b'} ha hb := by
    have hsides : (bracket kind (tidy a') (tidy b')).counts ⊆ Tree.counts [bracket kind a b] := by
      have ha' := List.Subset.trans (counts_tidy_subset a') ha
      have hb' := List.Subset.trans (counts_tidy_subset b') hb
      simpa using And.intro (List.subset_append_of_subset_left _ ha')
        (List.subset_append_of_subset_right _ hb')
    cases kind with
    | conjugate => exact List.Subset.trans (counts_simplifyConjugate_subset _ _) hsides
    | commutator => exact List.Subset.trans (counts_simplifyCommutator_subset _ _) hsides
  repeated {body body'} c hbody := by
    have hbodies : (repeated (tidy body') c).counts ⊆ Tree.counts [repeated body c] := by
      have hbody' := List.Subset.trans (counts_tidy_subset body') hbody
      simpa using List.subset_append_of_subset_left _ hbody'
    exact List.Subset.trans (counts_simplifyRepeated_subset _ c) hbodies

end Node

namespace Tree

/-- **Simplifying makes no new counts.** -/
theorem counts_clean_subset (t : Tree) : t.clean.counts ⊆ t.counts :=
  List.Subset.trans (Node.counts_tidy_subset _)
    (Node.relates_simplification_counts.listTransformM t)

/-! ## Counts of inverses -/

theorem relatesInverse_counts : RelatesInverse fun s t => t.counts.Perm s.counts where
  nil := .refl _
  append hs ht := by
    rw [counts_append, counts_append]
    exact (ht.append hs).trans List.perm_append_comm
  seq _ := .refl _
  conjugate a {b b'} hb := by
    rw [counts_cons, counts_cons, Node.counts_bracket, Node.counts_bracket]
    exact (hb.append_left _).append_right _
  commutator a b := by
    rw [counts_cons, counts_cons, Node.counts_bracket, Node.counts_bracket]
    exact List.perm_append_comm.append_right _
  repeated n hbody := by
    rw [counts_cons, counts_cons, Node.counts_repeated, Node.counts_repeated]
    exact (hbody.append_right _).append_right _

/-- **Undoing an algorithm keeps its counts**, in another order. -/
theorem counts_inv_perm (t : Tree) : t.inv.counts.Perm t.counts := relatesInverse_counts.inv t

end Tree

end Cubing
