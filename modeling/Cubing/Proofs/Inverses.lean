import Cubing.Proofs.Sizes

set_option autoImplicit false

/-! # What undoing does to a tree

The inverse of an algorithm is found without expanding anything, each kind of group in its own way.
Still its expansion is the expansion undone, turn for turn (`Tree.expand_inv`): a conjugate keeps its
setup because what it wraps is undone between the same turns, and a commutator of the sides swapped
is the commutator undone. No turns have to cancel for that, so counts are kept, and undoing twice
gives the tree back (`Tree.inv_inv`). -/

namespace Cubing

namespace Turn

theorem invList_timesList (ts : List Turn) (n : Nat) :
    invList (timesList ts n) = timesList (invList ts) n := by
  induction n with
  | zero => rfl
  | succ n ih =>
    calc invList (timesList ts (n + 1))
      _ = invList (timesList ts n) ++ invList ts := by
        rw [timesList, List.replicate_succ, List.flatten_cons, invList_append, ← timesList]
      _ = timesList (invList ts) (n + 1) := by
        rw [ih, timesList, timesList, List.replicate_succ', List.flatten_append,
          List.flatten_singleton]

end Turn

namespace Tree

/-! ## Undoing twice -/

theorem relatesInverse_inv : RelatesInverse fun s t => t.inv = s where
  nil := rfl
  append hs ht := by rw [inv_append, hs, ht]
  seq ts := by simp
  conjugate a {b b'} hb := by simp [hb]
  commutator a b := by simp
  repeated n hbody := by simp [hbody]

theorem inv_inv (t : Tree) : t.inv.inv = t := relatesInverse_inv.inv t

/-! ## The expansion of an inverse -/

theorem relatesInverse_expand : RelatesInverse fun s t => t.expand = Turn.invList s.expand where
  nil := rfl
  append hs ht := by rw [expand_append, expand_append, Turn.invList_append, hs, ht]
  seq ts := by simp
  conjugate a {b b'} hb := by simp [Bracket.expand, hb]
  commutator a b := by simp [Bracket.expand]
  repeated n hbody := by simp [hbody, Turn.invList_timesList]

/-- **The inverse of an algorithm expands to its expansion undone.** -/
theorem expand_inv (t : Tree) : t.inv.expand = Turn.invList t.expand := relatesInverse_expand.inv t

theorem turnCount_inv (t : Tree) : t.inv.turnCount = t.turnCount := by
  rw [turnCount_eq, turnCount_eq, expand_inv, Turn.length_invList]

/-! ## Exact inverses -/

/-- **The inverse of an algorithm is exact.** The inverse of an inverse is the algorithm that it was
    made from, and an inverse is counted to have as many turns. Sequenced, it has the turns of the
    algorithm's expansion in reverse order, each of them turned the other way. If the algorithm expands
    to no more sequences than can be counted, all this holds with repetitions carried out element by
    element. -/
theorem inv_is_exact (t : Tree) :
    t.inv.inv = t ∧ t.inv.turnCount = t.turnCount
      ∧ t.sequence.turns? = some t.expand
      ∧ t.inv.sequence.turns? = some (t.expand.map fun u => ⟨u.move, u.direction.inv⟩).reverse
      ∧ (t.sequenceCount < UInt64.size →
        t.sequenceByCycling = t.sequence ∧ t.inv.sequenceByCycling = t.inv.sequence) := by
  refine ⟨t.inv_inv, t.turnCount_inv, t.turns?_sequence, ?_, fun h => ?_⟩
  · rw [turns?_sequence, expand_inv]
    rfl
  · have hcap : t.sequenceCount ≤ Count.cap := Nat.le_pred_of_lt h
    have hcap' : t.inv.sequenceCount ≤ Count.cap := t.sequenceCount_inv ▸ hcap
    exact ⟨sequenceByCycling_eq hcap, sequenceByCycling_eq hcap'⟩

/-- A conjugate within a commutator, and a repetition of a conjugate. -/
theorem inv_is_exact_nested :
    let t : Tree := [.bracket .commutator
        [.bracket .conjugate [.seq [⟨.face .R, .cw⟩]] [.seq [⟨.wide .F, .ccw⟩]]]
        [.seq [⟨.slice .M, .ccw⟩, ⟨.face .U, .double⟩]],
      .repeated [.bracket .conjugate [.seq [⟨.rotation .x, .cw⟩]]
        [.seq [⟨.face .D, .cw⟩], .seq [⟨.face .L, .cw⟩]]] 3]
    t.sequenceCount < UInt64.size ∧ t.inv.inv = t ∧ t.inv.turnCount = t.turnCount
      ∧ t.sequence.turns? = some t.expand
      ∧ t.inv.sequence.turns? = some (t.expand.map fun u => ⟨u.move, u.direction.inv⟩).reverse
      ∧ t.sequenceByCycling = t.sequence ∧ t.inv.sequenceByCycling = t.inv.sequence := by
  intro t
  have hcount : t.sequenceCount < UInt64.size := by decide
  obtain ⟨hinv, hturns, hsequence, hundone, hcycling⟩ := t.inv_is_exact
  exact ⟨hcount, hinv, hturns, hsequence, hundone, hcycling hcount⟩

end Tree

end Cubing
