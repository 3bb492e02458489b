import Cubing.Proofs.ExpansionBound
import Cubing.Proofs.RepeatCounts
import Cubing.Proofs.RotationlessEffect
import Cubing.Proofs.SimplifiedText
import Cubing.Proofs.UndoneEffect

set_option autoImplicit false

/-! # The views of an algorithm

An algorithm is seen simplified, expanded, undone, or as its turns. Alike expansions reduce to the
same turns, so it makes no difference to what is seen of an expansion whether the tree was simplified
before it was expanded (`Tree.clean_sequence_clean`).

Simplifying makes neither new turns nor new counts, and a simplified tree is read back from its text.
So the texts of the views of an accepted algorithm are accepted under the same limits, but for their
own length, and have the turns that they should have (`Algorithm.ofText_views`).

Neither makes new sequences, and what is read expands to no more sequences than turns. So the views
are the same if repetitions are carried out element by element (`Algorithm.views_by_cycling`). -/

namespace Cubing

open Turn (Alike)

/-! ## Simplifying before expanding -/

namespace Tree

/-- Alike expansions look alike once they are simplified. -/
theorem clean_sequence_congr {s t : Tree} (h : Alike s.expand t.expand) :
    s.sequence.clean = t.sequence.clean := by
  rw [sequence_eq, sequence_eq, clean_seq, clean_seq, Node.reducedSeq?, Node.reducedSeq?,
    h.reduce_eq]

end Tree

namespace Algorithm

/-- Algorithms with alike expansions have the same turns. -/
theorem turns_congr {a b : Algorithm} (h : Alike a.tree.expand b.tree.expand) :
    a.turns = b.turns := by
  rw [turns_eq, turns_eq, h.reduce_eq]

end Algorithm

/-- **Simplifying an algorithm before it is expanded makes no difference** to its simplified
    expansion, and so neither to its expanded view nor to its turns. If the algorithm expands to no
    more sequences than can be counted, so it is with repetitions carried out element by element. -/
theorem Tree.clean_sequence_clean (t : Tree) :
    t.clean.sequence.clean = t.sequence.clean
      ∧ (∀ raw raw' : String,
        (Algorithm.mk raw t.clean).sequence = (Algorithm.mk raw' t).sequence
          ∧ (Algorithm.mk raw t.clean).turns = (Algorithm.mk raw' t).turns)
      ∧ (t.sequenceCount < UInt64.size →
        t.clean.sequenceByCycling.clean = t.sequenceByCycling.clean) := by
  have hclean : t.clean.sequence.clean = t.sequence.clean := clean_sequence_congr t.alike_clean.symm
  refine ⟨hclean, fun raw raw' => ⟨?_, Algorithm.turns_congr t.alike_clean.symm⟩, fun h => ?_⟩
  · rw [Algorithm.sequence, hclean]
    rfl
  · rw [(sequenceByCycling_of_lt h).1, (sequenceByCycling_of_lt h).2, hclean]

/-- A conjugate whose setup folds, behind a turn that meets its inverse only when all is expanded. -/
theorem Tree.clean_sequence_clean_folded :
    let t : Tree := [.seq [⟨.face .L, .cw⟩],
      .bracket .conjugate [.seq [⟨.face .L, .ccw⟩, ⟨.rotation .x, .cw⟩]]
        [.bracket .commutator [.seq [⟨.rotation .x, .cw⟩]] [.seq [⟨.face .F, .cw⟩]]]]
    t.sequenceCount < UInt64.size ∧ t.clean ≠ t
      ∧ t.clean.sequence.clean = t.sequence.clean
      ∧ (Algorithm.mk "" t.clean).turns = (Algorithm.mk "" t).turns
      ∧ t.clean.sequenceByCycling.clean = t.sequenceByCycling.clean := by
  intro t
  have hcount : t.sequenceCount < UInt64.size := by decide
  obtain ⟨hclean, hviews, hcycling⟩ := t.clean_sequence_clean
  exact ⟨hcount, by decide +kernel, hclean, (hviews "" "").2, hcycling hcount⟩

/-! ## Views of accepted algorithms -/

namespace Tree

theorem turnCount_le_of_length_le {s t : Tree} (h : s.expand.length ≤ t.expand.length) :
    s.turnCount ≤ t.turnCount := by
  rw [turnCount_eq, turnCount_eq]
  omega

end Tree

namespace Algorithm

/-- **An inverse has as many turns as the algorithm.** -/
theorem length_turns_inv (a : Algorithm) : a.inv.turns.length = a.turns.length := by
  have hinv : Turn.Alike (Turn.invList a.turns) a.inv.tree.expand :=
    a.alike_turns_inv.symm.trans a.inv.alike_turns
  have hback : Turn.Alike a.tree.expand (Turn.invList a.inv.turns) := by
    calc a.tree.expand
      Turn.Alike _ a.turns := a.alike_turns.symm
      Turn.Alike _ (Turn.invList (Turn.invList a.turns)) := .of_eq (by simp)
      Turn.Alike _ (Turn.invList a.inv.turns) := a.alike_turns_inv.symm.invList
  refine Nat.le_antisymm ?_ ?_
  · rw [turns_eq a.inv, ← Turn.length_invList a.turns]
    exact hinv.symm.length_reduce_le
  · rw [turns_eq a, ← Turn.length_invList a.inv.turns]
    exact hback.length_reduce_le

/-- The simplified text of a tree within limits is accepted. It is read as the simplified tree, and
    has the turns of the tree's expansion. -/
theorem ofText_text_clean {t : Tree} {limits : Limits}
    (hlength : t.clean.text.length ≤ limits.maxLength)
    (hcounts : ∀ n ∈ t.counts, n ≤ limits.maxMultiplier)
    (hcount : t.turnCount ≤ limits.maxExpandedTurns)
    (hturns : (Turn.reduce t.expand).length ≤ limits.maxTurns) :
    ∃ a, ofText t.clean.text limits = .ok a ∧ a.tree = t.clean ∧ a.turns = Turn.reduce t.expand := by
  have heq : (Algorithm.mk t.clean.text t.clean).turns = Turn.reduce t.expand := by
    rw [turns_eq, t.alike_clean.symm.reduce_eq]
  refine ⟨⟨t.clean.text, t.clean⟩, ofText_eq_ok_iff.2 ?_, rfl, heq⟩
  refine ⟨rfl, hlength, t.ofText_text_clean, ?_, ?_, heq ▸ hturns⟩
  · exact Tree.checkMultipliers_eq_ok_iff.2 fun n hn => hcounts n (t.counts_clean_subset hn)
  · exact Nat.le_trans (Tree.turnCount_le_of_length_le t.length_expand_clean_le) hcount

/-- **The views of an accepted algorithm are accepted.** The texts of an accepted algorithm simplified,
    expanded and undone are accepted under its limits, whatever bound there is on lengths that they
    keep, and each is read as the tree that it shows. The first two have the turns of the algorithm,
    its expansion reduced; the third has those of its inverse, the expansion undone and reduced; and
    these are as many. -/
theorem ofText_views {s : String} {limits : Limits} {a : Algorithm}
    (h : ofText s limits = .ok a) :
    (∀ n, a.clean.length ≤ n → ∃ b, ofText a.clean { limits with maxLength := n } = .ok b
        ∧ b.tree = a.tree.clean ∧ b.turns = a.turns)
      ∧ (∀ n, a.sequence.length ≤ n → ∃ b, ofText a.sequence { limits with maxLength := n } = .ok b
        ∧ b.tree = a.tree.sequence.clean ∧ b.turns = a.turns)
      ∧ (∀ n, a.inverse.length ≤ n → ∃ b, ofText a.inverse { limits with maxLength := n } = .ok b
        ∧ b.tree = a.tree.inv.clean ∧ b.turns = a.inv.turns)
      ∧ a.turns = Turn.reduce a.tree.expand
      ∧ a.inv.turns = Turn.reduce (Turn.invList a.tree.expand)
      ∧ a.inv.turns.length = a.turns.length := by
  obtain ⟨-, -, -, hcheck, hcount, hturns⟩ := ofText_eq_ok_iff.1 h
  have hcounts := Tree.checkMultipliers_eq_ok_iff.1 hcheck
  have hlengths := a.length_turns_inv
  have hinverse : a.inv.turns = Turn.reduce (Turn.invList a.tree.expand) :=
    a.inv.turns_eq.trans (congrArg Turn.reduce a.tree.expand_inv)
  refine ⟨fun n hn => ?_, fun n hn => ?_, fun n hn => ?_, a.turns_eq, hinverse, hlengths⟩
  · rw [turns_eq] at hturns ⊢
    exact ofText_text_clean hn hcounts hcount hturns
  · have hexpand : a.tree.sequence.expand = a.tree.expand := by simp [Tree.sequence_eq]
    have hnocounts : a.tree.sequence.counts = [] := by simp [Tree.sequence_eq]
    rw [turns_eq, ← hexpand] at hturns ⊢
    refine ofText_text_clean hn ?_ (Nat.le_trans (Tree.turnCount_le_of_length_le ?_) hcount) hturns
    · simp [hnocounts]
    · exact Nat.le_of_eq (congrArg List.length hexpand)
  · rw [← hlengths] at hturns
    rw [turns_eq] at hturns ⊢
    refine ofText_text_clean hn ?_ (Nat.le_trans (Tree.turnCount_le_of_length_le ?_) hcount) hturns
    · exact fun n hn => hcounts n (a.tree.counts_inv_perm.subset hn)
    · rw [Tree.expand_inv, Turn.length_invList]

/-- A repetition around a conjugate, and a commutator with a repetition that simplifying takes away. -/
theorem ofText_views_nested :
    let s := "(R [y: U' l2])2 [M, (F)3]"
    let a : Algorithm := ⟨s,
      [.repeated [.seq [⟨.face .R, .cw⟩], .bracket .conjugate [.seq [⟨.rotation .y, .cw⟩]]
          [.seq [⟨.face .U, .ccw⟩, ⟨.wide .L, .double⟩]]] 2,
        .bracket .commutator [.seq [⟨.slice .M, .cw⟩]] [.repeated [.seq [⟨.face .F, .cw⟩]] 3]]⟩
    let limits : Limits := { Limits.standard with maxLength := Count.cap }
    let turns : List Turn := [⟨.face .R, .cw⟩, ⟨.rotation .y, .cw⟩, ⟨.face .U, .ccw⟩,
      ⟨.wide .L, .double⟩, ⟨.rotation .y, .ccw⟩, ⟨.face .R, .cw⟩, ⟨.rotation .y, .cw⟩,
      ⟨.face .U, .ccw⟩, ⟨.wide .L, .double⟩, ⟨.rotation .y, .ccw⟩, ⟨.slice .M, .cw⟩,
      ⟨.face .F, .ccw⟩, ⟨.slice .M, .ccw⟩, ⟨.face .F, .cw⟩]
    let undone : List Turn := [⟨.face .F, .ccw⟩, ⟨.slice .M, .cw⟩, ⟨.face .F, .cw⟩,
      ⟨.slice .M, .ccw⟩, ⟨.rotation .y, .cw⟩, ⟨.wide .L, .double⟩, ⟨.face .U, .cw⟩,
      ⟨.rotation .y, .ccw⟩, ⟨.face .R, .ccw⟩, ⟨.rotation .y, .cw⟩, ⟨.wide .L, .double⟩,
      ⟨.face .U, .cw⟩, ⟨.rotation .y, .ccw⟩, ⟨.face .R, .ccw⟩]
    ofText s = .ok a
      ∧ (∃ b, ofText a.clean limits = .ok b ∧ b.tree = a.tree.clean ∧ b.turns = turns)
      ∧ (∃ b, ofText a.sequence limits = .ok b ∧ b.tree = a.tree.sequence.clean ∧ b.turns = turns)
      ∧ (∃ b, ofText a.inverse limits = .ok b ∧ b.tree = a.tree.inv.clean ∧ b.turns = undone)
      ∧ Turn.reduce a.tree.expand = turns ∧ Turn.reduce (Turn.invList a.tree.expand) = undone
      ∧ undone.length = turns.length := by
  intro s a limits turns undone
  have haccepted : ofText s = .ok a := by decide +kernel
  have hturns : a.turns = turns := by decide +kernel
  have hundone : a.inv.turns = undone := by decide +kernel
  obtain ⟨hclean, hsequence, hinverse, hreduced, hreduced', hlengths⟩ := ofText_views haccepted
  rw [hturns] at hclean hsequence hreduced hlengths
  rw [hundone] at hinverse hreduced' hlengths
  exact ⟨haccepted, hclean Count.cap (by decide +kernel), hsequence Count.cap (by decide +kernel),
    hinverse Count.cap (by decide +kernel), hreduced.symm, hreduced'.symm, hlengths⟩

/-! ## Repetitions element by element -/

/-- An algorithm that is accepted under a bound that can be exceeded expands to no more turns than
    can be counted. -/
theorem length_expand_lt_of_ofText {s : String} {limits : Limits} {a : Algorithm}
    (h : ofText s limits = .ok a) (hlimit : limits.maxExpandedTurns < Count.cap) :
    a.tree.expand.length < UInt64.size := by
  obtain ⟨-, -, -, -, hcount, -⟩ := ofText_eq_ok_iff.1 h
  rw [Tree.turnCount_eq] at hcount
  have hcap : Count.cap < UInt64.size := by decide
  omega

/-- **All views may be computed with repetitions carried out element by element**, if an accepted
    algorithm expands to no more turns than can be counted (`length_expand_lt_of_ofText`): its turns,
    its expanded and its rotationless text, and the turns of its inverse. -/
theorem views_by_cycling {s : String} {limits : Limits} {a : Algorithm}
    (h : ofText s limits = .ok a) (hlength : a.tree.expand.length < UInt64.size) :
    a.turns = (Tree.clean a.tree.sequenceByCycling).topTurns
      ∧ a.sequence = Tree.text (Tree.clean a.tree.sequenceByCycling)
      ∧ a.rotationless = Tree.text (Tree.clean (Tree.faceTurns a.tree.sequenceByCycling))
      ∧ a.inv.turns = (Tree.clean a.inv.tree.sequenceByCycling).topTurns := by
  obtain ⟨-, -, hread, -⟩ := ofText_eq_ok_iff.1 h
  obtain ⟨tokens, -, hwritten, -⟩ := Tree.ofText_eq_ok_iff.1 hread
  have hcount : a.tree.sequenceCount < UInt64.size :=
    Nat.lt_of_le_of_lt hwritten.sequenceCount_le hlength
  have hcycling := (Tree.sequenceByCycling_of_lt hcount).1
  have hinverse : a.inv.tree.sequenceByCycling = a.inv.tree.sequence :=
    (Tree.sequenceByCycling_of_lt (a.tree.sequenceCount_inv ▸ hcount)).1
  rw [hcycling, hinverse]
  exact ⟨rfl, rfl, rfl, rfl⟩

end Algorithm

end Cubing
