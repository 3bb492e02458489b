import Cubing.Proofs.NodesWithin
import Cubing.Proofs.NormalForm

set_option autoImplicit false

/-! # Simplifying what has been simplified

On a simplified algorithm all rules of simplification are done, except that a conjugate may fold
again: simplifying it once more is folding every setup that folds (`Node.transformM_simplified`).
Folding changes the last turn of the setup, so nothing changes only if nothing folds, and in a
simplified algorithm what folds is what spins. -/

namespace Cubing

namespace Node

variable {n : Node} {ns a b : List Node}

/-! ## Folding once more -/

mutual

/-- A node with every setup folded that folds, from the inside out. -/
def refold : Node → Node
  | seq ts => seq ts
  | bracket .conjugate a b =>
    (foldSetup? (listRefold a) (listRefold b)).getD
      (bracket .conjugate (listRefold a) (listRefold b))
  | bracket .commutator a b => bracket .commutator (listRefold a) (listRefold b)
  | repeated body c => repeated (listRefold body) c

def listRefold : List Node → List Node
  | [] => []
  | n :: ns => n.refold :: listRefold ns

end

theorem listRefold_eq_map (ns : List Node) : listRefold ns = ns.map refold := by
  induction ns with
  | nil => rfl
  | cons n ns ih => simp [listRefold, ih]

@[simp] theorem refold_seq (ts : List Turn) : (seq ts).refold = seq ts := rfl

theorem refold_conjugate (a b : List Node) :
    (bracket .conjugate a b).refold
      = (foldSetup? (a.map refold) (b.map refold)).getD
        (bracket .conjugate (a.map refold) (b.map refold)) := by
  rw [refold, listRefold_eq_map, listRefold_eq_map]

@[simp] theorem refold_commutator (a b : List Node) :
    (bracket .commutator a b).refold = bracket .commutator (a.map refold) (b.map refold) := by
  rw [refold, listRefold_eq_map, listRefold_eq_map]

@[simp] theorem refold_repeated (body : List Node) (c : UInt32) :
    (repeated body c).refold = repeated (body.map refold) c := by
  rw [refold, listRefold_eq_map]

theorem exists_refold_conjugate (a b : List Node) :
    ∃ a' b', (bracket .conjugate a b).refold = bracket .conjugate a' b' := by
  rw [refold_conjugate]
  cases h : foldSetup? (a.map refold) (b.map refold) with
  | none => exact ⟨_, _, rfl⟩
  | some n =>
    obtain ⟨front, setup, last, x, last', other, -, -, -, rfl⟩ := foldSetup?_eq_some_iff.1 h
    exact ⟨_, _, rfl⟩

/-- Folding takes place in groups only. -/
theorem refold_eq_seq_iff {ts : List Turn} : n.refold = seq ts ↔ n = seq ts := by
  cases n with
  | seq us => simp
  | bracket kind a b =>
    cases kind with
    | conjugate =>
      obtain ⟨a', b', h⟩ := exists_refold_conjugate a b
      simp [h]
    | commutator => simp
  | repeated body c => simp

@[simp] theorem turns?_refold (n : Node) : n.refold.turns? = n.turns? := by
  cases n with
  | seq ts => rfl
  | bracket kind a b =>
    cases kind with
    | conjugate =>
      obtain ⟨a', b', h⟩ := exists_refold_conjugate a b
      rw [h]
      rfl
    | commutator => rw [refold_commutator]; rfl
  | repeated body c => rw [refold_repeated]; rfl

@[simp] theorem isSeq_refold (n : Node) : n.refold.isSeq = n.isSeq := by
  rw [isSeq, isSeq, turns?_refold]

theorem turns?_map_refold (ns : List Node) : Tree.turns? (ns.map refold) = Tree.turns? ns := by
  induction ns with
  | nil => rfl
  | cons n ns ih => simp only [List.map_cons, Tree.turns?, turns?_refold, ih]

theorem singleAxis_map_refold (ns : List Node) : singleAxis (ns.map refold) = singleAxis ns := by
  rw [singleAxis, singleAxis, turns?_map_refold]

theorem Tidied.map_refold (h : Tidied ns) : Tidied (ns.map refold) where
  ne_nil ts hts := by
    obtain ⟨n, hn, hseq⟩ := List.mem_map.1 hts
    exact h.ne_nil ts (refold_eq_seq_iff.1 hseq ▸ hn)
  reduced ts hts := by
    obtain ⟨n, hn, hseq⟩ := List.mem_map.1 hts
    exact h.reduced ts (refold_eq_seq_iff.1 hseq ▸ hn)
  apart := by
    rw [List.isChain_map]
    refine h.apart.imp ?_
    intro m n hmn
    simpa [Separate] using hmn

/-! ## Simplifying once more is folding once more -/

theorem simplifyRepeated_eq_keep {body : List Node} {c : UInt32} (hzero : c ≠ 0) (hone : c ≠ 1)
    (hne : body ≠ []) (hturn : ∀ t, body ≠ [seq [t]]) :
    simplifyRepeated body c = .keep (repeated body c) := by
  unfold simplifyRepeated
  rw [if_neg (by simp [hzero, hne]), if_neg hone]
  split
  · exact (hturn _ rfl).elim
  · rfl

/-- **What simplification does to a simplified node is to fold its setups.** -/
theorem transformM_simplified (h : n.Simplified) :
    (n.transformM Rules.simplification).run = .keep n.refold := by
  induction h with
  | seq hne hts =>
    have hseq : reducedSeq? _ = some _ := reducedSeq?_eq_some_iff.2
      ⟨(Turn.reduce_eq_self hts).symm ▸ hne, congrArg seq (Turn.reduce_eq_self hts).symm⟩
    rw [transformM_seq fun _ => rfl]
    simp [Rules.simplification, hseq, Replacement.ofOption]
  | @conjugate a b ha hb hta htb hnea hneb hfold iha ihb =>
    rw [transformM_bracket, listTransformM_eq_map iha, listTransformM_eq_map ihb]
    have hsides : (Rules.simplification.bracket .conjugate (a.map refold) (b.map refold)).run
        = simplifyConjugate (a.map refold) (b.map refold) := by
      simp [Rules.simplification, hta.map_refold.tidy_eq, htb.map_refold.tidy_eq]
    rw [hsides, simplifyConjugate, refold_conjugate]
    simp [hnea, hneb]
  | @commutator a b ha hb hta htb hnea hneb haxis iha ihb =>
    rw [transformM_bracket, listTransformM_eq_map iha, listTransformM_eq_map ihb]
    have hsides : (Rules.simplification.bracket .commutator (a.map refold) (b.map refold)).run
        = simplifyCommutator (a.map refold) (b.map refold) := by
      simp [Rules.simplification, hta.map_refold.tidy_eq, htb.map_refold.tidy_eq]
    rw [hsides, simplifyCommutator, ← List.map_append, singleAxis_map_refold, haxis]
    simp [hnea, hneb]
  | @repeated body c hbody ht hne hzero hone hturn ih =>
    rw [transformM_repeated, listTransformM_eq_map ih]
    have hbody : (Rules.simplification.repeated (body.map refold) c).run
        = simplifyRepeated (body.map refold) c := by
      simp [Rules.simplification, ht.map_refold.tidy_eq]
    have hturn : ∀ t, body.map refold ≠ [.seq [t]] := by
      intro t ht
      obtain ⟨n, rfl, hn⟩ := List.map_eq_singleton_iff.1 ht
      exact hturn t (by rw [refold_eq_seq_iff.1 hn])
    rw [hbody, simplifyRepeated_eq_keep hzero hone (by simpa using hne) hturn, refold_repeated]

/-! ## When nothing folds -/

/-- A conjugate is left alone just if its sides are and it does not fold. -/
theorem refold_conjugate_eq_self_iff :
    (bracket .conjugate a b).refold = bracket .conjugate a b ↔
      a.map refold = a ∧ b.map refold = b ∧ foldSetup? a b = none := by
  rw [refold_conjugate]
  constructor
  · intro h
    cases hfold : foldSetup? (a.map refold) (b.map refold) with
    | none =>
      obtain ⟨ha, hb⟩ : a.map refold = a ∧ b.map refold = b := by simpa [hfold] using h
      rw [ha, hb] at hfold
      exact ⟨ha, hb, hfold⟩
    | some n =>
      -- Folding changes the last turn of the setup, which is in a sequence and stays otherwise.
      obtain ⟨front, setup, last, x, last', other, ha, -, hmerge, rfl⟩ :=
        foldSetup?_eq_some_iff.1 hfold
      obtain ⟨rfl, -⟩ : front ++ [seq (setup ++ [last'])] = a
          ∧ [bracket .commutator other [seq [x.inv]]] = b := by simpa [hfold] using h
      rw [List.map_append] at ha
      obtain ⟨-, hlast⟩ := List.append_inj' ha rfl
      have hsame : last' = last := by simpa using hlast
      exact (Turn.ne_of_merge_eq_merged hmerge hsame).elim
  · rintro ⟨ha, hb, hfold⟩
    rw [ha, hb, hfold]
    rfl

theorem map_refold_eq_self_iff_forall : ns.map refold = ns ↔ ∀ n ∈ ns, n.refold = n := by
  simpa using List.map_inj_left (f := refold) (g := id) (l := ns)

/-- Where nothing changes, no conjugate folds at any depth. -/
theorem foldSetup?_eq_none_of_anywhere {t : Tree} (ht : t.map refold = t)
    (h : (bracket .conjugate a b).Anywhere t) : foldSetup? a b = none := by
  induction h with
  | here h =>
    have hself := map_refold_eq_self_iff_forall.1 ht _ h
    exact (refold_conjugate_eq_self_iff.1 hself).2.2
  | @left t kind c d h _ ih =>
    have hself := map_refold_eq_self_iff_forall.1 ht _ h
    cases kind with
    | conjugate => exact ih (refold_conjugate_eq_self_iff.1 hself).1
    | commutator => exact ih (by simpa using (bracket.inj (refold_commutator c d ▸ hself)).2.1)
  | @right t kind c d h _ ih =>
    have hself := map_refold_eq_self_iff_forall.1 ht _ h
    cases kind with
    | conjugate => exact ih (refold_conjugate_eq_self_iff.1 hself).2.1
    | commutator => exact ih (by simpa using (bracket.inj (refold_commutator c d ▸ hself)).2.2)
  | @body t body c h _ _ ih =>
    have hself := map_refold_eq_self_iff_forall.1 ht _ h
    exact ih (by simpa using (repeated.inj (refold_repeated body c ▸ hself)).1)

/-- Where no conjugate folds at any depth, nothing changes. -/
theorem map_refold_eq_self {t : Tree}
    (h : ∀ a b, (bracket .conjugate a b).Anywhere t → foldSetup? a b = none) :
    t.map refold = t := by
  induction t using Tree.induction with
  | nil => rfl
  | seq ts t ih =>
    rw [List.map_cons, refold_seq, ih fun a b hn => h a b (hn.mono (List.subset_cons_self _ _))]
  | bracket kind c d t ihc ihd ih =>
    have hc := ihc fun a b hn => h a b (.left List.mem_cons_self hn)
    have hd := ihd fun a b hn => h a b (.right List.mem_cons_self hn)
    have ht := ih fun a b hn => h a b (hn.mono (List.subset_cons_self _ _))
    rw [List.map_cons, ht]
    cases kind with
    | conjugate =>
      have hself := h c d (.here List.mem_cons_self)
      rw [refold_conjugate_eq_self_iff.2 ⟨hc, hd, hself⟩]
    | commutator => rw [refold_commutator, hc, hd]
  | repeated body c t ihbody ih =>
    have hbody := ihbody fun a b hn => h a b (.body List.mem_cons_self trivial hn)
    have ht := ih fun a b hn => h a b (hn.mono (List.subset_cons_self _ _))
    rw [List.map_cons, refold_repeated, hbody, ht]

/-- In a simplified algorithm the nodes at every depth are simplified. -/
theorem Simplified.of_anywhere {t : Tree} (ht : ∀ m ∈ t, m.Simplified) (h : n.Anywhere t) :
    n.Simplified := by
  induction h with
  | here h => exact ht _ h
  | left h _ ih => cases ht _ h <;> exact ih ‹_›
  | right h _ ih => cases ht _ h <;> exact ih ‹_›
  | body h _ _ ih => cases ht _ h; exact ih ‹_›

theorem Spins.foldSetup?_ne_none (h : Spins a b) : foldSetup? a b ≠ none := by
  obtain ⟨front, setup, p, y, x, p', rfl, rfl, -, -, -, hmerge⟩ := h
  have hfold := foldSetup?_eq_some_iff.2
    ⟨front, setup, p, y, p', [seq [x]], rfl, rfl, hmerge, rfl⟩
  simp [hfold]

end Node

namespace Tree

open Node

/-- Simplifying a simplified algorithm folds its setups. -/
theorem clean_clean_eq_map (t : Tree) : t.clean.clean = t.clean.map refold := by
  obtain ⟨hsimplified, htidied⟩ := simplified_clean t
  have hnodes := listTransformM_eq_map fun n hn => transformM_simplified (hsimplified n hn)
  calc t.clean.clean
      = tidy (Node.listTransformM Rules.simplification t.clean).run := rfl
    _ = tidy (t.clean.map refold) := by rw [hnodes]
    _ = t.clean.map refold := htidied.map_refold.tidy_eq

/-- **When simplifying twice is simplifying once**: just if no conjugate in the simplified algorithm
    spins, at any depth. -/
theorem clean_clean_eq_iff (t : Tree) :
    t.clean.clean = t.clean ↔
      ¬ ∃ a b, (bracket .conjugate a b).Anywhere t.clean ∧ Spins a b := by
  rw [clean_clean_eq_map]
  constructor
  · rintro h ⟨a, b, hconjugate, hspins⟩
    exact hspins.foldSetup?_ne_none (foldSetup?_eq_none_of_anywhere h hconjugate)
  · intro h
    refine map_refold_eq_self ?_
    intro a b hconjugate
    cases Simplified.of_anywhere (simplified_clean t).1 hconjugate with
    | conjugate _ _ _ _ _ _ hfold =>
      exact hfold.resolve_right fun hspins => h ⟨a, b, hconjugate, hspins⟩

/-- Simplifying twice is not always simplifying once: the setup of `[x: [x, x]]` folds every time. -/
theorem clean_clean_ne_of_spinning :
    let x : List Node := [.seq [⟨.rotation .x, .cw⟩]]
    let t : Tree := [.bracket .conjugate x [.bracket .commutator x x]]
    t.clean.clean ≠ t.clean := by
  decide +kernel

end Tree

end Cubing
