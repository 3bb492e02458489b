import Cubing.Proofs.Rewriting
import Cubing.Tree.Cycling
import Cubing.Tree.Expansion

set_option autoImplicit false

/-! # Sequencing carries out the expansion

After the rules of expansion an algorithm has only sequences left, and together they hold the turns
of the expansion, turn for turn (`Tree.sequence_eq`). The invariant of the transformation is that all
turns are at top level: then undoing a side reverses sequences only, and no group is left that the
closing rule would drop.

Copying repetitions element by element makes no difference as long as the expansion does not have
more sequences than can be counted (`Tree.sequenceByCycling_eq`). A repetition that is cut short has
too many, and so has everything around it. Only a repetition by zero has not, and it takes nothing of
what was cut short. -/

namespace Cubing

namespace Tree

theorem turns?_inv {t : Tree} {ts : List Turn} (h : t.turns? = some ts) :
    t.inv.turns? = some (Turn.invList ts) := by
  induction t generalizing ts with
  | nil =>
    obtain rfl : [] = ts := by simpa using h
    rfl
  | cons n t ih =>
    obtain ⟨us, vs, hus, hvs, rfl⟩ := turns?_cons_eq_some_iff.1 h
    have hn : Tree.turns? [n.inv] = some (Turn.invList us) := by
      cases n with
      | seq us' =>
        obtain rfl : us' = us := by simpa [Node.turns?] using hus
        simp [turns?, Node.turns?]
      | bracket kind a b => cases hus
      | repeated body n => cases hus
    rw [inv_cons, Turn.invList_append]
    exact turns?_append (ih hvs) hn

theorem turns?_times {t : Tree} {ts : List Turn} (h : t.turns? = some ts) (n : Nat) :
    Tree.turns? (Node.times t n) = some (Turn.timesList ts n) := by
  rw [Node.times_eq]
  induction n with
  | zero => rfl
  | succ n ih =>
    rw [List.replicate_succ, List.flatten_cons, Turn.timesList, List.replicate_succ,
      List.flatten_cons]
    exact turns?_append h ih

/-- Every rule of expansion puts sequences in place that hold the turns of the expansion. -/
theorem relates_expansion :
    Rules.expansion.Relates fun s t => t.turns? = some s.expand where
  turn _ := rfl
  nil := rfl
  append ha hb := by
    rw [expand_append]
    exact turns?_append ha hb
  seq ts := by simp [Rules.expansion, Replacement.toList, turns?, Node.turns?]
  bracket kind {a a' b b'} ha hb := by
    cases kind with
    | conjugate =>
      have hword := turns?_append (turns?_append ha hb) (turns?_inv ha)
      simpa [Rules.expansion, Replacement.toList, Bracket.expand] using hword
    | commutator =>
      have hword := turns?_append (turns?_append (turns?_append ha hb) (turns?_inv ha))
        (turns?_inv hb)
      simpa [Rules.expansion, Replacement.toList, Bracket.expand] using hword
  repeated n hbody := by
    simpa [Rules.expansion, Replacement.toList] using turns?_times hbody n.toNat

/-- **Sequencing an algorithm leaves one sequence, its expansion.** -/
theorem sequence_eq (t : Tree) : t.sequence = [.seq t.expand] := by
  have hturns := topTurns_of_turns? (relates_expansion.listTransformM t)
  rw [← hturns]
  rfl

theorem turns?_sequence (t : Tree) : t.sequence.turns? = some t.expand := by
  rw [sequence_eq]
  simp [turns?, Node.turns?]

end Tree

/-! ## Repetitions element by element -/

namespace Node

@[simp] theorem cycleFrom_zero (body rest : List Node) : cycleFrom body rest 0 = [] := by
  cases rest <;> rfl

/-- What is left of a round comes before anything else. -/
theorem cycleFrom_rest_add (body rest : List Node) (k : Nat) :
    cycleFrom body rest (rest.length + k) = rest ++ cycleFrom body [] k := by
  induction rest with
  | nil => simp
  | cons n rest ih =>
    have hlength : (n :: rest).length + k = rest.length + k + 1 := by
      rw [List.length_cons]
      omega
    rw [hlength, cycleFrom, ih, List.cons_append]

/-- At the end of a round a new one is begun. -/
theorem cycleFrom_self (body : List Node) (k : Nat) :
    cycleFrom body body k = cycleFrom body [] k := by
  cases k with
  | zero => simp
  | succ k => cases body <;> rfl

/-- **Full rounds repeat a list.** -/
theorem cycleFrom_rounds (body : List Node) (k : Nat) :
    cycleFrom body body (body.length * k) = times body k := by
  rw [times_eq, cycleFrom_self]
  induction k with
  | zero => simp
  | succ k ih =>
    calc cycleFrom body [] (body.length * (k + 1))
      _ = cycleFrom body body (body.length + body.length * k) := by
        rw [cycleFrom_self, Nat.mul_succ, Nat.add_comm]
      _ = body ++ (List.replicate k body).flatten := by rw [cycleFrom_rest_add, ih]
      _ = (List.replicate (k + 1) body).flatten := by
        rw [List.replicate_succ, List.flatten_cons]

end Node

namespace Tree

/-- Every rule of expansion puts as many elements in place as are counted. -/
theorem relates_sequenceCount :
    Rules.expansion.Relates fun s t => t.length = s.sequenceCount where
  turn _ := rfl
  nil := rfl
  append ha hb := by simp [ha, hb]
  seq ts := rfl
  bracket kind {a a' b b'} ha hb := by
    cases kind with
    | conjugate =>
      simp [Rules.expansion, Replacement.toList, ha, hb]
      omega
    | commutator =>
      simp [Rules.expansion, Replacement.toList, ha, hb]
      omega
  repeated n hbody := by simp [Rules.expansion, Replacement.toList, Node.length_times, hbody]

theorem length_expansion (t : Tree) :
    (Node.listTransformM Rules.expansion t).run.length = t.sequenceCount :=
  relates_sequenceCount.listTransformM t

/-- What can be counted is copied in full: every rule that copies element by element puts the same
    in place as the rule of expansion. -/
theorem relates_cycling :
    Rules.cycling.Relates fun s t =>
      s.sequenceCount ≤ Count.cap → t = (Node.listTransformM Rules.expansion s).run where
  turn _ := rfl
  nil _ := rfl
  append {a a' b b'} ha hb hcap := by
    rw [sequenceCount_append] at hcap
    rw [Node.listTransformM_append, ha (by omega), hb (by omega)]
  seq ts _ := by
    rw [Node.listTransformM_cons, Node.transformM_seq fun _ => rfl]
    rfl
  bracket kind {a a' b b'} ha hb hcap := by
    -- A bracket has both its sides at least once.
    have hsides : a.sequenceCount ≤ Count.cap ∧ b.sequenceCount ≤ Count.cap := by
      cases kind <;> simp at hcap <;> omega
    obtain rfl := ha hsides.1
    obtain rfl := hb hsides.2
    rw [Node.listTransformM_cons, Node.transformM_bracket, Node.listTransformM_nil,
      List.append_nil]
    rfl
  repeated {body body'} n hbody hcap := by
    simp only [sequenceCount_cons, Node.sequenceCount_repeated, sequenceCount_nil,
      Nat.add_zero] at hcap
    rw [Node.listTransformM_cons, Node.transformM_repeated, Node.listTransformM_nil,
      List.append_nil, Rules.cycling_repeated, Rules.expansion_repeated]
    rcases Nat.eq_zero_or_pos n.toNat with hzero | hpos
    -- Nothing is known of contents that are repeated by zero, and nothing of them is copied.
    · simp [hzero, Count.mul, Node.times_eq]
    · obtain rfl := hbody (Nat.le_trans (Nat.le_mul_of_pos_right _ hpos) hcap)
      rw [← length_expansion] at hcap
      rw [Count.mul, Nat.min_eq_left hcap, Node.cycleFrom_rounds]

theorem cycling_eq_expansion {t : Tree} (h : t.sequenceCount ≤ Count.cap) :
    (Node.listTransformM Rules.cycling t).run = (Node.listTransformM Rules.expansion t).run :=
  relates_cycling.listTransformM t h

/-- **Copying element by element makes no difference** to an expansion that can be counted. -/
theorem sequenceByCycling_eq {t : Tree} (h : t.sequenceCount ≤ Count.cap) :
    t.sequenceByCycling = t.sequence := by
  show [Node.seq (topTurns (Node.listTransformM Rules.cycling t).run)]
    = [Node.seq (topTurns (Node.listTransformM Rules.expansion t).run)]
  rw [cycling_eq_expansion h]

/-! ## Sequencing -/

theorem isSeq_of_turns? {t : Tree} {ts : List Turn} (h : t.turns? = some ts) :
    ∀ n ∈ t, n.isSeq := by
  induction t generalizing ts with
  | nil => simp
  | cons n t ih =>
    obtain ⟨us, vs, hus, hvs, -⟩ := turns?_cons_eq_some_iff.1 h
    have hn : n.isSeq := by simp [Node.isSeq, hus]
    exact List.forall_mem_cons.2 ⟨hn, ih hvs⟩

/-- **Sequencing carries out the expansion.** An algorithm that expands to no more sequences than can
    be counted is sequenced to its expansion, turn for turn, whether its repetitions are carried out
    as a whole or element by element. Both ways the closing rule is given the same elements, as many
    as are counted, and all of them are sequences: there is no group that it would drop. -/
theorem sequencing_carries_out_expansion {t : Tree} (h : t.sequenceCount < UInt64.size) :
    t.sequenceByCycling = [.seq t.expand] ∧ t.sequence = [.seq t.expand]
      ∧ (Node.listTransformM Rules.cycling t).run = (Node.listTransformM Rules.expansion t).run
      ∧ (Node.listTransformM Rules.expansion t).run.length = t.sequenceCount
      ∧ ∀ n ∈ (Node.listTransformM Rules.expansion t).run, n.isSeq := by
  have hcap : t.sequenceCount ≤ Count.cap := Nat.le_pred_of_lt h
  have hflat : turns? (Node.listTransformM Rules.expansion t).run = some t.expand :=
    relates_expansion.listTransformM t
  refine ⟨?_, t.sequence_eq, cycling_eq_expansion hcap, t.length_expansion, isSeq_of_turns? hflat⟩
  rw [sequenceByCycling_eq hcap, sequence_eq]

/-- A repetition within a conjugate within a commutator, and a repetition by zero of more sequences
    than can be counted. -/
theorem sequencing_carries_out_expansion_nested :
    let most : UInt32 := 4294967295
    let t : Tree := [.bracket .commutator
        [.bracket .conjugate [.seq [⟨.face .R, .cw⟩]]
          [.repeated [.seq [⟨.rotation .x, .cw⟩], .seq [⟨.wide .F, .double⟩]] 2]]
        [.seq [⟨.slice .M, .ccw⟩]],
      .repeated [.repeated [.repeated [.repeated [.seq [⟨.face .D, .cw⟩]] most] most] most] 0]
    t.sequenceCount < UInt64.size
      ∧ t.expand = [⟨.face .R, .cw⟩, ⟨.rotation .x, .cw⟩, ⟨.wide .F, .double⟩,
        ⟨.rotation .x, .cw⟩, ⟨.wide .F, .double⟩, ⟨.face .R, .ccw⟩, ⟨.slice .M, .ccw⟩,
        ⟨.face .R, .cw⟩, ⟨.wide .F, .double⟩, ⟨.rotation .x, .ccw⟩, ⟨.wide .F, .double⟩,
        ⟨.rotation .x, .ccw⟩, ⟨.face .R, .ccw⟩, ⟨.slice .M, .cw⟩]
      ∧ t.sequenceByCycling = [.seq t.expand] ∧ t.sequence = [.seq t.expand]
      ∧ (Node.listTransformM Rules.cycling t).run = (Node.listTransformM Rules.expansion t).run
      ∧ (Node.listTransformM Rules.expansion t).run.length = t.sequenceCount
      ∧ ∀ n ∈ (Node.listTransformM Rules.expansion t).run, n.isSeq := by
  intro most t
  have hcount : t.sequenceCount < UInt64.size := by decide
  exact ⟨hcount, by decide, sequencing_carries_out_expansion hcount⟩

end Tree

end Cubing
