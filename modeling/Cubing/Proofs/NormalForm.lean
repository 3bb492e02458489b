import Cubing.Proofs.Reduced
import Cubing.Proofs.Rewriting
import Cubing.Tree.Simplification

set_option autoImplicit false

/-! # The form of simplified algorithms

A list of elements is *tidied* if its sequences are reduced, none of them empty and no two of them
neighbours; tidying makes lists so and leaves such lists alone. A node is *simplified* if its sides
and contents are tidied lists of simplified nodes, none of them empty, and no rule of simplification
removes or unwraps it.

One rule is not done when it has been used once: folding the setup of a conjugate can leave a
conjugate that folds again. That happens only among rotations about one axis (`Node.Spins`), since
turns along one layer axis make a commutator that is removed. So of the conjugates in a simplified
algorithm those that do not spin do not fold. -/

namespace Cubing

namespace Node

variable {n m : Node} {ns a b : List Node} {ts us : List Turn}

/-! ## Tidied lists -/

/-- Two nodes that are not both sequences. -/
def Separate (m n : Node) : Prop := m.isSeq → n.isSeq = false

theorem separate_of_not_isSeq (h : m.isSeq = false) (n : Node) : Separate m n := by
  intro hm
  rw [h] at hm
  cases hm

/-- A list whose sequences are reduced, not empty and apart. -/
structure Tidied (ns : List Node) : Prop where
  ne_nil : ∀ ts, seq ts ∈ ns → ts ≠ []
  reduced : ∀ ts, seq ts ∈ ns → Turn.Reduced ts
  apart : ns.IsChain Separate

theorem join_eq_self (h : ns.IsChain Separate) : join ns = ns := by
  induction ns with
  | nil => rfl
  | cons n ns ih =>
    obtain ⟨hhead, hns⟩ := List.isChain_cons.1 h
    cases n with
    | seq ts =>
      rw [join, ih hns]
      split
      · cases hhead _ rfl rfl
      · rfl
    | bracket kind a b => rw [join_bracket, ih hns]
    | repeated body c => rw [join_repeated, ih hns]

theorem isChain_join (ns : List Node) : (join ns).IsChain Separate := by
  induction ns with
  | nil => exact .nil
  | cons n ns ih =>
    cases n with
    | seq ts =>
      rw [join]
      split
      · rename_i us rest hjoin
        rw [hjoin, List.isChain_cons] at ih
        exact List.isChain_cons.2 ih
      · rename_i hjoined
        refine List.isChain_cons.2 ⟨?_, ih⟩
        intro m hm _
        cases m with
        | seq us =>
          obtain ⟨rest, hrest⟩ := List.head?_eq_some_iff.1 hm
          exact (hjoined us rest hrest).elim
        | bracket kind a b => rfl
        | repeated body c => rfl
    | bracket kind a b => exact List.isChain_cons.2 ⟨fun m _ => separate_of_not_isSeq rfl m, ih⟩
    | repeated body c => exact List.isChain_cons.2 ⟨fun m _ => separate_of_not_isSeq rfl m, ih⟩

/-- Joining makes new sequences only. -/
theorem mem_of_mem_join (h : n ∈ join ns) (hn : n.isSeq = false) : n ∈ ns := by
  induction ns with
  | nil => exact h
  | cons m ns ih =>
    cases m with
    | seq ts =>
      rw [join] at h
      split at h
      · rename_i us rest hjoin
        rcases List.mem_cons.1 h with rfl | h
        · cases hn
        · exact List.mem_cons_of_mem _ (ih (hjoin ▸ List.mem_cons_of_mem _ h))
      · rcases List.mem_cons.1 h with rfl | h
        · cases hn
        · exact List.mem_cons_of_mem _ (ih h)
    | bracket kind a b =>
      rcases List.mem_cons.1 h with rfl | h
      · exact List.mem_cons_self
      · exact List.mem_cons_of_mem _ (ih h)
    | repeated body c =>
      rcases List.mem_cons.1 h with rfl | h
      · exact List.mem_cons_self
      · exact List.mem_cons_of_mem _ (ih h)

theorem reduceSeq?_of_not_isSeq (h : n.isSeq = false) : reduceSeq? n = some n := by
  cases n with
  | seq ts => cases h
  | bracket kind a b => rfl
  | repeated body c => rfl

theorem reducedSeq?_eq_some_iff :
    reducedSeq? ts = some n ↔ Turn.reduce ts ≠ [] ∧ n = seq (Turn.reduce ts) := by
  unfold reducedSeq?
  split
  · rename_i hnil
    simp [hnil]
  · rename_i us hne
    rw [Option.some.injEq, eq_comm]
    exact ⟨fun h => ⟨hne, h⟩, fun h => h.2⟩

/-- What reducing a node leaves is a reduced sequence, or the node itself. -/
theorem of_reduceSeq?_eq_some (h : reduceSeq? m = some n) :
    (∃ ts, ts ≠ [] ∧ Turn.Reduced ts ∧ n = seq ts) ∨ n = m ∧ n.isSeq = false := by
  cases m with
  | seq ts =>
    obtain ⟨hne, rfl⟩ := reducedSeq?_eq_some_iff.1 h
    exact .inl ⟨_, hne, Turn.reduced_reduce ts, rfl⟩
  | bracket kind a b =>
    obtain rfl : bracket kind a b = n := by simpa [reduceSeq?] using h
    exact .inr ⟨rfl, rfl⟩
  | repeated body c =>
    obtain rfl : repeated body c = n := by simpa [reduceSeq?] using h
    exact .inr ⟨rfl, rfl⟩

theorem isSeq_of_reduceSeq?_eq_some (h : reduceSeq? m = some n) : n.isSeq = m.isSeq := by
  rcases of_reduceSeq?_eq_some h with ⟨us, -, -, rfl⟩ | ⟨rfl, -⟩
  · cases m with
    | seq ts => rfl
    | bracket kind a b => cases h
    | repeated body c => cases h
  · rfl

/-- Dropping sequences keeps sequences apart. -/
theorem isChain_filterMap_reduceSeq? (h : ns.IsChain Separate) :
    (ns.filterMap reduceSeq?).IsChain Separate := by
  induction ns with
  | nil => exact .nil
  | cons m ns ih =>
    obtain ⟨hhead, hns⟩ := List.isChain_cons.1 h
    cases hm : reduceSeq? m with
    | none => simpa [hm] using ih hns
    | some n =>
      rw [List.filterMap_cons_some hm]
      refine List.isChain_cons.2 ⟨?_, ih hns⟩
      intro k hk hn
      -- What follows a sequence is a group, and it stays.
      have hmseq : m.isSeq := isSeq_of_reduceSeq?_eq_some hm ▸ hn
      cases ns with
      | nil => cases hk
      | cons p ns =>
        have hp : p.isSeq = false := hhead p rfl hmseq
        rw [List.filterMap_cons_some (reduceSeq?_of_not_isSeq hp)] at hk
        cases hk
        exact hp

theorem mem_tidy (h : n ∈ tidy ns) :
    (∃ ts, ts ≠ [] ∧ Turn.Reduced ts ∧ n = seq ts) ∨ n ∈ ns ∧ n.isSeq = false := by
  obtain ⟨m, hm, hmn⟩ := List.mem_filterMap.1 h
  rcases of_reduceSeq?_eq_some hmn with hseq | ⟨rfl, hn⟩
  · exact .inl hseq
  · exact .inr ⟨mem_of_mem_join hm hn, hn⟩

/-- **Tidying makes lists tidied.** -/
theorem tidied_tidy (ns : List Node) : Tidied (tidy ns) where
  ne_nil ts hts := by
    rcases mem_tidy hts with ⟨us, hne, -, hus⟩ | ⟨-, hseq⟩
    · cases hus
      exact hne
    · cases hseq
  reduced ts hts := by
    rcases mem_tidy hts with ⟨us, -, hreduced, hus⟩ | ⟨-, hseq⟩
    · cases hus
      exact hreduced
    · cases hseq
  apart := isChain_filterMap_reduceSeq? (isChain_join ns)

/-- Tidying leaves tidied lists alone. -/
theorem Tidied.tidy_eq (h : Tidied ns) : tidy ns = ns := by
  have hself : ∀ n ∈ ns, reduceSeq? n = some n := by
    intro n hn
    cases n with
    | seq ts =>
      rw [reduceSeq?, reducedSeq?_eq_some_iff, Turn.reduce_eq_self (h.reduced ts hn)]
      exact ⟨h.ne_nil ts hn, rfl⟩
    | bracket kind a b => rfl
    | repeated body c => rfl
  rw [tidy, join_eq_self h.apart, List.filterMap_congr hself, List.filterMap_some]

/-- The last sequence of a tidied list may change its turns. -/
theorem Tidied.replace_last {front : List Node} (h : Tidied (front ++ [seq ts])) (hne : us ≠ [])
    (hus : Turn.Reduced us) : Tidied (front ++ [seq us]) where
  ne_nil vs hvs := by
    rcases List.mem_append.1 hvs with hvs | hvs
    · exact h.ne_nil vs (List.mem_append_left _ hvs)
    · cases List.mem_singleton.1 hvs
      exact hne
  reduced vs hvs := by
    rcases List.mem_append.1 hvs with hvs | hvs
    · exact h.reduced vs (List.mem_append_left _ hvs)
    · cases List.mem_singleton.1 hvs
      exact hus
  apart := by
    obtain ⟨hfront, -, hmeet⟩ := List.isChain_append.1 h.apart
    refine List.isChain_append.2 ⟨hfront, .singleton _, ?_⟩
    intro m hm n hn hseq
    -- The last element was a sequence before, so none stands next to it.
    cases hmeet m hm (seq ts) rfl hseq

/-! ## Simplified nodes -/

/-- The sides of a conjugate of rotations about one axis that folds: the second is a commutator of
    two single turns, these two and the last turn of the setup are rotations about the same axis, and
    the last turn of the setup and the first of the commutator do not cancel. -/
def Spins (a b : List Node) : Prop :=
  ∃ front setup p y x p', a = front ++ [seq (setup ++ [p])]
    ∧ b = [bracket .commutator [seq [y]] [seq [x]]] ∧ p.isRotation ∧ y.move = p.move
    ∧ x.move = p.move ∧ Turn.merge p y = .merged p'

/-- A node that simplification leaves as it is, but for the folding of setups that spin. -/
inductive Simplified : Node → Prop where
  | seq {ts : List Turn} (hne : ts ≠ []) (h : Turn.Reduced ts) : Simplified (seq ts)
  | conjugate {a b : List Node} (ha : ∀ n ∈ a, Simplified n) (hb : ∀ n ∈ b, Simplified n)
      (hta : Tidied a) (htb : Tidied b) (hnea : a ≠ []) (hneb : b ≠ [])
      (hfold : foldSetup? a b = none ∨ Spins a b) : Simplified (bracket .conjugate a b)
  | commutator {a b : List Node} (ha : ∀ n ∈ a, Simplified n) (hb : ∀ n ∈ b, Simplified n)
      (hta : Tidied a) (htb : Tidied b) (hnea : a ≠ []) (hneb : b ≠ [])
      (haxis : singleAxis (a ++ b) = false) : Simplified (bracket .commutator a b)
  | repeated {body : List Node} {c : UInt32} (hbody : ∀ n ∈ body, Simplified n)
      (ht : Tidied body) (hne : body ≠ []) (hzero : c ≠ 0) (hone : c ≠ 1)
      (hturn : ∀ t, body ≠ [.seq [t]]) : Simplified (repeated body c)

theorem Simplified.tidied_singleton (h : Simplified n) : Tidied [n] where
  ne_nil ts hts := by
    cases List.mem_singleton.1 hts
    cases h
    assumption
  reduced ts hts := by
    cases List.mem_singleton.1 hts
    cases h
    assumption
  apart := .singleton n

theorem simplified_tidy (h : ∀ n ∈ ns, Simplified n) : ∀ n ∈ tidy ns, Simplified n := by
  intro n hn
  rcases mem_tidy hn with ⟨ts, hne, hts, rfl⟩ | ⟨hn, -⟩
  · exact .seq hne hts
  · exact h n hn

/-! ## What the rules put in place -/

theorem simplified_simplifyRepeated {body : List Node} (h : ∀ n ∈ body, Simplified n)
    (ht : Tidied body) (c : UInt32) : ∀ n ∈ (simplifyRepeated body c).toList, Simplified n := by
  unfold simplifyRepeated
  split
  · simp [Replacement.toList]
  · rename_i hcases
    obtain ⟨hzero, hne⟩ : c ≠ 0 ∧ body ≠ [] := by simpa using hcases
    split
    · exact h
    · rename_i hone
      split
      · intro n hn
        rw [Replacement.toList_ofOption, Option.mem_toList] at hn
        obtain ⟨u, -, rfl⟩ := Option.map_eq_some_iff.1 hn
        exact .seq (List.cons_ne_nil u []) (Turn.reduced_singleton u)
      · rename_i hturn
        intro n hn
        cases List.mem_singleton.1 hn
        exact .repeated h ht hne hzero hone fun t ht => hturn t ht

theorem simplified_simplifyCommutator (ha : ∀ n ∈ a, Simplified n) (hb : ∀ n ∈ b, Simplified n)
    (hta : Tidied a) (htb : Tidied b) :
    ∀ n ∈ (simplifyCommutator a b).toList, Simplified n := by
  unfold simplifyCommutator
  split
  · simp [Replacement.toList]
  · rename_i hcases
    obtain ⟨hne, haxis⟩ : (a ≠ [] ∧ b ≠ []) ∧ singleAxis (a ++ b) = false := by
      simpa using hcases
    intro n hn
    cases List.mem_singleton.1 hn
    exact .commutator ha hb hta htb hne.1 hne.2 haxis

/-- Sides of a commutator may trade places, and a single turn may change its direction, without
    the commutator coming to lie along a single axis. -/
theorem singleAxis_swap_inv (x : Turn) (ns : List Node) :
    singleAxis (ns ++ [seq [x.inv]]) = singleAxis ([seq [x]] ++ ns) := by
  have hparallel (ts : List Turn) : (∀ t ∈ ts ++ [x.inv], ∀ u ∈ ts ++ [x.inv], t.parallel u)
      ↔ ∀ t ∈ [x] ++ ts, ∀ u ∈ [x] ++ ts, t.parallel u := by
    have hinv : ∀ t, t.parallel x.inv = t.parallel x ∧ x.inv.parallel t = x.parallel t :=
      fun t => ⟨rfl, rfl⟩
    simp [hinv, or_imp, forall_and]
    tauto
  have hone (y : Turn) : Tree.turns? [seq [y]] = some [y] := rfl
  rw [Bool.eq_iff_iff, singleAxis_iff, singleAxis_iff]
  simp only [Tree.turns?_append_eq_some_iff, hone]
  constructor
  · rintro ⟨_, ⟨ts, _, hts, ⟨rfl⟩, rfl⟩, h⟩
    exact ⟨[x] ++ ts, ⟨[x], ts, rfl, hts, rfl⟩, (hparallel ts).1 h⟩
  · rintro ⟨_, ⟨_, ts, ⟨rfl⟩, hts, rfl⟩, h⟩
    exact ⟨ts ++ [x.inv], ⟨ts, [x.inv], hts, rfl, rfl⟩, (hparallel ts).2 h⟩

/-- A conjugate that has been folded is simplified, and if it folds again it spins. -/
theorem simplified_foldSetup? (ha : ∀ n ∈ a, Simplified n) (hb : ∀ n ∈ b, Simplified n)
    (hta : Tidied a) (h : foldSetup? a b = some n) : Simplified n := by
  obtain ⟨front, setup, last, x, last', other, rfl, rfl, hmerge, rfl⟩ :=
    foldSetup?_eq_some_iff.1 h
  obtain ⟨hxmove, hlastmove⟩ := Turn.move_of_merge_eq_merged hmerge
  have hcommutator := hb _ List.mem_cons_self
  cases hcommutator with
  | commutator hx hother htx htother hnex hneother haxis =>
    have hreduced : Turn.Reduced (setup ++ [last']) := by
      refine Turn.Reduced.of_moves (hta.reduced (setup ++ [last]) (by simp)) ?_
      simp [hlastmove]
    have hsetup : Simplified (.seq (setup ++ [last'])) := .seq (by simp) hreduced
    have hxinv : Simplified (.seq [x.inv]) :=
      .seq (List.cons_ne_nil _ _) (Turn.reduced_singleton _)
    have hcommutator : Simplified (bracket .commutator other [.seq [x.inv]]) := by
      refine .commutator hother ?_ htother hxinv.tidied_singleton hneother (List.cons_ne_nil _ _) ?_
      · exact List.forall_mem_singleton.2 hxinv
      · rw [singleAxis_swap_inv, haxis]
    refine .conjugate ?_ (List.forall_mem_singleton.2 hcommutator)
      (hta.replace_last (by simp) hreduced) hcommutator.tidied_singleton (by simp) (by simp) ?_
    · intro m hm
      rcases List.mem_append.1 hm with hm | hm
      · exact ha m (List.mem_append_left _ hm)
      · cases List.mem_singleton.1 hm
        exact hsetup
    · -- If it folds again, the other side has become the single turn that the setup takes in.
      cases hagain : foldSetup? (front ++ [.seq (setup ++ [last'])])
          [bracket .commutator other [.seq [x.inv]]] with
      | none => exact .inl rfl
      | some n =>
        obtain ⟨front', setup', p, y, p', other', hsetup', hcommutator', hmerge', -⟩ :=
          foldSetup?_eq_some_iff.1 hagain
        obtain ⟨rfl, hlast⟩ := List.append_inj' hsetup' rfl
        obtain ⟨rfl, rfl⟩ : other = [.seq [y]] ∧ other' = [.seq [x.inv]] := by
          simpa [eq_comm] using hcommutator'
        obtain ⟨rfl, rfl⟩ : setup = setup' ∧ last' = p := by simpa using hlast
        have hymove := (Turn.move_of_merge_eq_merged hmerge').1
        have hpmove : x.move = last'.move := hxmove.trans hlastmove.symm
        refine .inr ⟨front, setup, last', y, x.inv, p', rfl, rfl, ?_, hymove, hpmove, hmerge'⟩
        by_contra hrotation
        -- Two turns of one layer make a commutator along a single axis.
        have hlayer : last'.move.layerAxis?.isSome := by
          rw [Turn.isRotation, Move.isRotation_iff] at hrotation
          exact Option.isSome_iff_ne_none.2 hrotation
        have hsingle : singleAxis ([.seq [x]] ++ [.seq [y]]) :=
          singleAxis_iff.2 ⟨[x, y], rfl, by simp [Turn.parallel, hpmove, hymove, hlayer]⟩
        rw [haxis] at hsingle
        cases hsingle

theorem simplified_simplifyConjugate (ha : ∀ n ∈ a, Simplified n) (hb : ∀ n ∈ b, Simplified n)
    (hta : Tidied a) (htb : Tidied b) :
    ∀ n ∈ (simplifyConjugate a b).toList, Simplified n := by
  unfold simplifyConjugate
  split
  · simp [Replacement.toList]
  · rename_i hneb
    split
    · exact hb
    · rename_i hnea
      intro n hn
      cases List.mem_singleton.1 hn
      cases hfold : foldSetup? a b with
      | none =>
        exact .conjugate ha hb hta htb (by simpa using hnea) (by simpa using hneb) (.inl hfold)
      | some m => exact simplified_foldSetup? ha hb hta hfold

/-- Every rule of simplification puts simplified nodes in place. -/
theorem simplified_simplification :
    Rules.simplification.Relates fun _ ns => ∀ n ∈ ns, Simplified n where
  turn _ := rfl
  nil := by simp
  append ha hb n hn := (List.mem_append.1 hn).elim (ha n) (hb n)
  seq ts n hn := by
    have hn : reducedSeq? ts = some n := by simpa [Rules.simplification] using hn
    obtain ⟨hne, rfl⟩ := reducedSeq?_eq_some_iff.1 hn
    exact .seq hne (Turn.reduced_reduce ts)
  bracket kind {a a' b b'} ha hb := by
    have hsides := simplified_tidy ha
    have hsides' := simplified_tidy hb
    cases kind with
    | conjugate =>
      exact simplified_simplifyConjugate hsides hsides' (tidied_tidy a') (tidied_tidy b')
    | commutator =>
      exact simplified_simplifyCommutator hsides hsides' (tidied_tidy a') (tidied_tidy b')
  repeated {body body'} c hbody :=
    simplified_simplifyRepeated (simplified_tidy hbody) (tidied_tidy body') c

end Node

namespace Tree

/-- **Simplified algorithms hold simplified nodes**, none of their sequences next to another. -/
theorem simplified_clean (t : Tree) : (∀ n ∈ t.clean, n.Simplified) ∧ Node.Tidied t.clean :=
  ⟨Node.simplified_tidy (Node.simplified_simplification.listTransformM t), Node.tidied_tidy _⟩

/-- Simplifying a single sequence reduces it. -/
theorem clean_seq (ts : List Turn) : Tree.clean [.seq ts] = (Node.reducedSeq? ts).toList := by
  have hclean : Tree.clean [.seq ts] = Node.tidy (Node.reducedSeq? ts).toList := by
    show Node.tidy (Node.listTransformM Rules.simplification [.seq ts]).run = _
    rw [Node.listTransformM_cons, Node.transformM_seq Node.simplified_simplification.turn]
    simp [Rules.simplification]
  rw [hclean]
  cases hseq : Node.reducedSeq? ts with
  | none => rfl
  | some n =>
    obtain ⟨hne, rfl⟩ := Node.reducedSeq?_eq_some_iff.1 hseq
    have hsimplified : Node.Simplified (.seq (Turn.reduce ts)) := .seq hne (Turn.reduced_reduce ts)
    exact hsimplified.tidied_singleton.tidy_eq

theorem turns?_clean_seq (ts : List Turn) :
    (Tree.clean [.seq ts]).turns? = some (Turn.reduce ts) := by
  rw [clean_seq, Node.reducedSeq?]
  split
  · rename_i hnil
    rw [hnil]
    rfl
  · simp [turns?, Node.turns?]

end Tree

end Cubing
