import Cubing.Proofs.CleaningTwice
import Cubing.Proofs.ReadingBack
import Cubing.Proofs.UniqueReduction

set_option autoImplicit false

/-! # Simplified algorithms and their text

What simplification promises is a property of each node at every depth (`Node.Settled`): sequences are
canonical, groups have something on each side, repetitions repeat, and no commutator lies along a
single axis. Each rule settles the node that it puts in place, and the list around it only joins
sequences afterwards, so the promise is read off the form in which simplification leaves a node
(`Node.Simplified.settled`).

A settled tree shows something in each of its lists and has no two sequences side by side. So its
canonical text is read as the tree itself. -/

namespace Cubing

/-! ## Simplified trees are read back -/

namespace Node

variable {n : Node} {ns : List Node}

theorem Simplified.ne_seq_nil (h : n.Simplified) : n ≠ Node.seq [] := by
  rintro rfl
  cases h with
  | seq hne => exact hne rfl

theorem shows_of_simplified (hne : ns ≠ []) (h : ∀ n ∈ ns, n.Simplified) : shows ns := by
  obtain ⟨n, ns, rfl⟩ := List.exists_cons_of_ne_nil hne
  exact (shows_iff _).2 ⟨n, List.mem_cons_self, (h n List.mem_cons_self).ne_seq_nil⟩

theorem Simplified.filled (h : n.Simplified) : n.filled := by
  induction h with
  | seq => rfl
  | conjugate ha hb hta htb hnea hneb hfold iha ihb =>
    exact Tree.filled_bracket_iff.2 ⟨⟨shows_of_simplified hnea ha, Tree.filled_iff.2 iha⟩,
      shows_of_simplified hneb hb, Tree.filled_iff.2 ihb⟩
  | commutator ha hb hta htb hnea hneb haxis iha ihb =>
    exact Tree.filled_bracket_iff.2 ⟨⟨shows_of_simplified hnea ha, Tree.filled_iff.2 iha⟩,
      shows_of_simplified hneb hb, Tree.filled_iff.2 ihb⟩
  | repeated hbody ht hne hzero hone hturn ih =>
    exact Tree.filled_repeated_iff.2 ⟨shows_of_simplified hne hbody, Tree.filled_iff.2 ih⟩

theorem Simplified.joined (h : n.Simplified) : n.joined := by
  induction h with
  | seq => rfl
  | conjugate ha hb hta htb hnea hneb hfold iha ihb =>
    exact Tree.joined_bracket_iff.2
      ⟨(Tree.joined_iff _).2 ⟨hta.apart, iha⟩, (Tree.joined_iff _).2 ⟨htb.apart, ihb⟩⟩
  | commutator ha hb hta htb hnea hneb haxis iha ihb =>
    exact Tree.joined_bracket_iff.2
      ⟨(Tree.joined_iff _).2 ⟨hta.apart, iha⟩, (Tree.joined_iff _).2 ⟨htb.apart, ihb⟩⟩
  | repeated hbody ht hne hzero hone hturn ih =>
    exact Tree.joined_repeated_iff.2 ((Tree.joined_iff _).2 ⟨ht.apart, ih⟩)

end Node

theorem Tree.joined_clean (t : Tree) : t.clean.Joined := by
  obtain ⟨hsimplified, htidied⟩ := simplified_clean t
  exact (joined_iff _).2 ⟨htidied.apart, fun n hn => (hsimplified n hn).joined⟩

/-- **A simplified tree is read back from its text.** -/
theorem Tree.ofText_text_clean (t : Tree) : ofText t.clean.text = .ok t.clean := by
  obtain ⟨hsimplified, -⟩ := simplified_clean t
  have hfilled : t.clean.Filled := filled_iff.2 fun n hn => (hsimplified n hn).filled
  have hfull (ts) (h : (Node.seq ts).Anywhere t.clean) : ts ≠ [] := by
    rintro rfl
    exact (Node.Simplified.of_anywhere hsimplified h).ne_seq_nil rfl
  have hread := ofText_text hfilled
  rwa [fuse_eq_self t.joined_clean hfull] at hread

/-! ## What simplification promises -/

namespace Turn

/-- Turns that no round of reduction changes: the turns of a run stand in the order of `Move.all`,
    each of its moves once, and neighbours are of different moves. -/
structure Canonical (ts : List Turn) : Prop where
  reduce_eq : reduce ts = ts
  runs_ordered : ∀ run ∈ runs ts, (∀ t ∈ run, t.isRotation = false) →
    run.Pairwise fun t u => t.move.rank < u.move.rank
  moves_differ : ts.IsChain fun t u => t.move ≠ u.move

theorem Reduced.canonical {ts : List Turn} (h : Reduced ts) : Canonical ts where
  reduce_eq := reduce_eq_self h
  runs_ordered _ hrun hlayers := h.pairwise_of_mem_runs hrun hlayers
  moves_differ := ((List.isChain_map _).1 h).imp fun _ _ hab => hab.1

end Turn

namespace Node

variable {n : Node} {ns : List Node}

/-- Whether a list holds nothing but sequences of turns of layers along one axis. -/
def AlongAxis (axis : Axis) (ns : List Node) : Prop :=
  ∀ n ∈ ns, ∃ ts, n = seq ts ∧ ∀ t ∈ ts, t.move.layerAxis? = some axis

theorem AlongAxis.turns? {axis : Axis} (h : AlongAxis axis ns) :
    ∃ ts, Tree.turns? ns = some ts ∧ ∀ t ∈ ts, t.move.layerAxis? = some axis := by
  induction ns with
  | nil => exact ⟨[], rfl, by simp⟩
  | cons n ns ih =>
    obtain ⟨⟨us, rfl, hus⟩, hns⟩ := List.forall_mem_cons.1 h
    obtain ⟨vs, hvs, haxis⟩ := ih hns
    refine ⟨us ++ vs, Tree.turns?_cons_eq_some_iff.2 ⟨us, vs, rfl, hvs, rfl⟩, ?_⟩
    intro t ht
    rcases List.mem_append.1 ht with ht | ht
    · exact hus t ht
    · exact haxis t ht

theorem AlongAxis.singleAxis {axis : Axis} (h : AlongAxis axis ns) : singleAxis ns := by
  obtain ⟨ts, hts, haxis⟩ := h.turns?
  refine singleAxis_iff.2 ⟨ts, hts, ?_⟩
  intro t ht u hu
  simp [Turn.parallel, haxis t ht, haxis u hu]

/-- What simplification promises of a node. -/
def Settled : Node → Prop
  | seq ts => ts ≠ [] ∧ Turn.Canonical ts
  | bracket .conjugate a b => a ≠ [] ∧ b ≠ []
  | bracket .commutator a b => a ≠ [] ∧ b ≠ [] ∧ ¬ ∃ axis, AlongAxis axis (a ++ b)
  | repeated body c => body ≠ [] ∧ c ≠ 0 ∧ c ≠ 1 ∧ ∀ t, body ≠ [seq [t]]

theorem Simplified.settled (h : n.Simplified) : n.Settled := by
  rcases h with ⟨hne, hts⟩ | ⟨-, -, -, -, hnea, hneb, -⟩ | ⟨-, -, -, -, hnea, hneb, haxis⟩
    | ⟨-, -, hne, hzero, hone, hturn⟩
  · exact ⟨hne, hts.canonical⟩
  · exact ⟨hnea, hneb⟩
  · refine ⟨hnea, hneb, ?_⟩
    rintro ⟨axis, halong⟩
    rw [halong.singleAxis] at haxis
    cases haxis
  · exact ⟨hne, hzero, hone, hturn⟩

end Node

namespace Tree

/-- **Simplified algorithms are in normal form and lose nothing in print.** At every depth each node
    is settled and no two sequences stand side by side, and the canonical text is read as the
    simplified algorithm itself. -/
theorem clean_settles (t : Tree) :
    (∀ n : Node, n.Anywhere t.clean → n.Settled) ∧ t.clean.Joined
      ∧ ofText t.clean.text = .ok t.clean := by
  refine ⟨fun n hn => ?_, t.joined_clean, t.ofText_text_clean⟩
  exact (Node.Simplified.of_anywhere (simplified_clean t).1 hn).settled

/-- A conjugate without a setup joins its neighbour, a commutator of parallel turns goes away, and a
    setup is folded into a commutator of which a side is joined from two. -/
theorem clean_settles_folded :
    let t : Tree :=
      [.seq [⟨.face .R, .cw⟩], .bracket .conjugate [.seq []] [.seq [⟨.face .R, .cw⟩]],
        .repeated [.bracket .commutator [.seq [⟨.slice .M, .cw⟩]]
          [.seq [⟨.face .L, .cw⟩, ⟨.face .R, .cw⟩]]] 3,
        .bracket .conjugate [.seq [⟨.face .U, .cw⟩]]
          [.bracket .commutator [.seq [⟨.face .U, .cw⟩]]
            [.repeated [.seq [⟨.face .L, .double⟩]] 3,
              .seq [⟨.slice .E, .cw⟩, ⟨.face .L, .ccw⟩]]]]
    let commutator : Node := .bracket .commutator
      [.seq [⟨.face .L, .double⟩, ⟨.slice .E, .cw⟩, ⟨.face .L, .ccw⟩]] [.seq [⟨.face .U, .ccw⟩]]
    t.clean = [.seq [⟨.face .R, .double⟩],
        .bracket .conjugate [.seq [⟨.face .U, .double⟩]] [commutator]]
      ∧ commutator.Settled ∧ t.clean.Joined ∧ ofText t.clean.text = .ok t.clean := by
  intro t commutator
  have hclean : t.clean = [.seq [⟨.face .R, .double⟩],
      .bracket .conjugate [.seq [⟨.face .U, .double⟩]] [commutator]] := by decide +kernel
  have hcommutator : commutator.Anywhere t.clean := by
    rw [hclean]
    exact .right (List.mem_cons_of_mem _ List.mem_cons_self) (.here List.mem_cons_self)
  obtain ⟨hsettled, hjoined, hback⟩ := clean_settles t
  exact ⟨hclean, hsettled commutator hcommutator, hjoined, hback⟩

end Tree

end Cubing
