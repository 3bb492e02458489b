import Cubing.Notation.Grammar
import Cubing.Proofs.Reduced
import Cubing.Proofs.Sequencing
import Cubing.Proofs.TurnCounts
import Cubing.Tree.Simplification

set_option autoImplicit false

/-! # Sizes of algorithms

How many turns an algorithm expands to and how many sequences it expands to are both *sizes*: they add
up over lists and through groups in the same way, and differ only in what they give to a sequence
(`Tree.IsSize`). No size grows as an algorithm is simplified (`Tree.IsSize.clean_le`): joining and
reducing sequences makes them no larger, folding a setup changes turns but not their number, and all
other rules only drop or unwrap. Undoing an algorithm keeps its sizes (`Tree.IsSize.inv_eq`).

So what can be carried out element by element can be once it is simplified. And what is written has no
empty sequences, so it expands to no more sequences than turns (`Tree.Written.sequenceCount_le`): where
the turns can be counted, repetitions may be carried out in either way. -/

namespace Cubing

namespace Tree

/-- A size of algorithms: it adds up like the lengths of expansions, from a size of sequences that
    goes by their length. -/
structure IsSize (size : Tree → Nat) : Prop where
  append (s t : Tree) : size (s ++ t) = size s + size t
  conjugate (a b : Tree) : size [.bracket .conjugate a b] = size a * 2 + size b
  commutator (a b : Tree) : size [.bracket .commutator a b] = (size a + size b) * 2
  repeated (body : Tree) (n : UInt32) : size [.repeated body n] = size body * n.toNat
  seq_le {ts us : List Turn} (h : ts.length ≤ us.length) : size [.seq ts] ≤ size [.seq us]
  seq_append_le (ts us : List Turn) : size [.seq (ts ++ us)] ≤ size [.seq ts] + size [.seq us]

/-- **The length of the expansion is a size.** -/
theorem isSize_length_expand : IsSize fun t => t.expand.length where
  append s t := by rw [expand_append, List.length_append]
  conjugate a b := by
    rw [expand_cons, expand_nil, List.append_nil, Node.length_expand_conjugate]
  commutator a b := by
    rw [expand_cons, expand_nil, List.append_nil, Node.length_expand_commutator]
  repeated body n := by
    rw [expand_cons, expand_nil, List.append_nil, Node.length_expand_repeated]
  seq_le h := by simpa using h
  seq_append_le ts us := by simp

/-- **The number of sequences is a size.** -/
theorem isSize_sequenceCount : IsSize sequenceCount where
  append := sequenceCount_append
  conjugate a b := by simp
  commutator a b := by simp
  repeated body n := by simp
  seq_le _ := Nat.le_refl 1
  seq_append_le _ _ := Nat.le_add_left 1 1

namespace IsSize

open Node (join reducedSeq? reduceSeq? tidy foldSetup? simplifyConjugate simplifyCommutator
  simplifyRepeated)

variable {size : Tree → Nat} {n : Node} {a b : List Node}

theorem nil (h : IsSize size) : size [] = 0 := by
  have hnil := h.append [] []
  rw [List.append_nil] at hnil
  omega

theorem cons (h : IsSize size) (n : Node) (t : Tree) : size (n :: t) = size [n] + size t :=
  h.append [n] t

theorem seq_congr (h : IsSize size) {ts us : List Turn} (hlength : ts.length = us.length) :
    size [.seq ts] = size [.seq us] :=
  Nat.le_antisymm (h.seq_le (Nat.le_of_eq hlength)) (h.seq_le (Nat.le_of_eq hlength.symm))

/-! ## Tidied lists -/

theorem join_le (h : IsSize size) (ns : List Node) : size (join ns) ≤ size ns := by
  induction ns with
  | nil => exact Nat.le_refl _
  | cons n ns ih =>
    rw [h.cons n ns]
    cases n with
    | seq ts =>
      rw [join]
      split
      · rename_i us rest hjoin
        rw [hjoin, h.cons] at ih
        rw [h.cons]
        have hseq := h.seq_append_le ts us
        omega
      · rw [h.cons]
        exact Nat.add_le_add_left ih _
    | bracket kind a b =>
      rw [Node.join_bracket, h.cons]
      exact Nat.add_le_add_left ih _
    | repeated body c =>
      rw [Node.join_repeated, h.cons]
      exact Nat.add_le_add_left ih _

theorem reducedSeq?_le (h : IsSize size) (ts : List Turn) :
    size (reducedSeq? ts).toList ≤ size [.seq ts] := by
  unfold reducedSeq?
  split
  · rw [Option.toList_none, h.nil]
    exact Nat.zero_le _
  · exact h.seq_le (Turn.length_reduce_le ts)

theorem reduceSeq?_le (h : IsSize size) (n : Node) : size (reduceSeq? n).toList ≤ size [n] := by
  cases n with
  | seq ts => exact h.reducedSeq?_le ts
  | bracket kind a b => exact Nat.le_refl _
  | repeated body c => exact Nat.le_refl _

theorem tidy_le (h : IsSize size) (ns : List Node) : size (tidy ns) ≤ size ns := by
  have hreduced (ns : List Node) : size (ns.filterMap reduceSeq?) ≤ size ns := by
    induction ns with
    | nil => exact Nat.le_refl _
    | cons n ns ih =>
      rw [Node.filterMap_reduceSeq?_cons, h.append, h.cons]
      exact Nat.add_le_add (h.reduceSeq?_le n) ih
  exact Nat.le_trans (hreduced (join ns)) (h.join_le ns)

/-! ## The rules -/

/-- Folding a setup replaces turns one for one. -/
theorem foldSetup?_eq (h : IsSize size) (hfold : foldSetup? a b = some n) :
    size [n] = size [.bracket .conjugate a b] := by
  obtain ⟨front, setup, last, x, last', other, rfl, rfl, -, rfl⟩ :=
    Node.foldSetup?_eq_some_iff.1 hfold
  have hsetup : size [.seq (setup ++ [last'])] = size [.seq (setup ++ [last])] :=
    h.seq_congr (by simp)
  have hturn : size [.seq [x.inv]] = size [.seq [x]] := h.seq_congr rfl
  rw [h.conjugate, h.conjugate, h.commutator, h.commutator, h.append, h.append, hsetup, hturn,
    Nat.add_comm (size other)]

theorem simplifyConjugate_le (h : IsSize size) (a b : List Node) :
    size (simplifyConjugate a b).toList ≤ size [.bracket .conjugate a b] := by
  unfold simplifyConjugate
  split
  · rw [Replacement.toList, h.nil]
    exact Nat.zero_le _
  · split
    · rw [Replacement.toList, h.conjugate]
      exact Nat.le_add_left _ _
    · cases hfold : foldSetup? a b with
      | none => exact Nat.le_refl _
      | some n => exact Nat.le_of_eq (h.foldSetup?_eq hfold)

theorem simplifyCommutator_le (h : IsSize size) (a b : List Node) :
    size (simplifyCommutator a b).toList ≤ size [.bracket .commutator a b] := by
  unfold simplifyCommutator
  split
  · rw [Replacement.toList, h.nil]
    exact Nat.zero_le _
  · exact Nat.le_refl _

theorem simplifyRepeated_le (h : IsSize size) (body : List Node) (c : UInt32) :
    size (simplifyRepeated body c).toList ≤ size [.repeated body c] := by
  unfold simplifyRepeated
  split
  · rw [Replacement.toList, h.nil]
    exact Nat.zero_le _
  · rename_i hzero
    have hpos : 0 < c.toNat := by
      refine Nat.pos_of_ne_zero fun hc => hzero ?_
      obtain rfl : c = 0 := UInt32.toNat_inj.1 hc
      rfl
    have hbody : size body ≤ size [.repeated body c] := by
      rw [h.repeated]
      exact Nat.le_mul_of_pos_right _ hpos
    split
    · exact hbody
    · split
      · rename_i t
        cases t.times? c.toNat with
        | none =>
          rw [Option.map_none, Replacement.toList_ofOption, Option.toList_none, h.nil]
          exact Nat.zero_le _
        | some u =>
          have hturn : size [.seq [u]] ≤ size [.seq [t]] := h.seq_le (Nat.le_refl _)
          exact Nat.le_trans hturn hbody
      · exact Nat.le_refl _

/-- No rule of simplification makes anything larger. -/
theorem relates_simplification (h : IsSize size) :
    Rules.simplification.Relates fun s t => size t ≤ size s where
  turn _ := rfl
  nil := Nat.le_refl _
  append ha hb := by
    rw [h.append, h.append]
    exact Nat.add_le_add ha hb
  seq ts := by simpa [Rules.simplification] using h.reducedSeq?_le ts
  bracket kind {a a' b b'} ha hb := by
    have ha' := Nat.le_trans (h.tidy_le a') ha
    have hb' := Nat.le_trans (h.tidy_le b') hb
    cases kind with
    | conjugate =>
      refine Nat.le_trans (h.simplifyConjugate_le _ _) ?_
      rw [h.conjugate, h.conjugate]
      omega
    | commutator =>
      refine Nat.le_trans (h.simplifyCommutator_le _ _) ?_
      rw [h.commutator, h.commutator]
      omega
  repeated {body body'} c hbody := by
    refine Nat.le_trans (h.simplifyRepeated_le _ c) ?_
    rw [h.repeated, h.repeated]
    exact Nat.mul_le_mul_right _ (Nat.le_trans (h.tidy_le body') hbody)

/-- **No size grows as an algorithm is simplified.** -/
theorem clean_le (h : IsSize size) (t : Tree) : size t.clean ≤ size t :=
  Nat.le_trans (h.tidy_le _) (h.relates_simplification.listTransformM t)

/-! ## Inverses -/

theorem relatesInverse (h : IsSize size) : RelatesInverse fun s t => size t = size s where
  nil := rfl
  append hs ht := by rw [h.append, h.append, hs, ht, Nat.add_comm]
  seq ts := h.seq_congr (Turn.length_invList ts)
  conjugate a {b b'} hb := by rw [h.conjugate, h.conjugate, hb]
  commutator a b := by rw [h.commutator, h.commutator, Nat.add_comm]
  repeated n hbody := by rw [h.repeated, h.repeated, hbody]

/-- **Undoing an algorithm keeps its sizes.** -/
theorem inv_eq (h : IsSize size) (t : Tree) : size t.inv = size t := h.relatesInverse.inv t

end IsSize

/-! ## Turns and sequences -/

/-- **Simplifying makes no new turns.** -/
theorem length_expand_clean_le (t : Tree) : t.clean.expand.length ≤ t.expand.length :=
  isSize_length_expand.clean_le t

/-- **Simplifying makes no new sequences.** -/
theorem sequenceCount_clean_le (t : Tree) : t.clean.sequenceCount ≤ t.sequenceCount :=
  isSize_sequenceCount.clean_le t

/-- Undoing changes the order of the sequences that an algorithm expands to, not their number. -/
theorem sequenceCount_inv (t : Tree) : t.inv.sequenceCount = t.sequenceCount :=
  isSize_sequenceCount.inv_eq t

/-- **What is written expands to no more sequences than turns**, since none of them is empty. -/
theorem Written.sequenceCount_le {t : Tree} {tokens : List Token} (h : t.Written tokens) :
    t.sequenceCount ≤ t.expand.length := by
  induction h using Tree.Written.induction with
  | nil => exact Nat.le_refl _
  | seq nonempty turns rest ih =>
    have hfull := List.length_pos_of_ne_nil nonempty
    rw [sequenceCount_cons, Node.sequenceCount_seq, expand_cons, Node.expand_seq,
      List.length_append]
    omega
  | @bracket kind _ _ _ _ _ _ _ _ _ left between right first second _ _ rest iha ihb ih =>
    rw [sequenceCount_cons, expand_cons, List.length_append]
    cases kind with
    | conjugate =>
      rw [Node.sequenceCount_conjugate, Node.length_expand_conjugate]
      omega
    | commutator =>
      rw [Node.sequenceCount_commutator, Node.length_expand_commutator]
      omega
  | repeated left right counts contents writes rest ihbody ih =>
    rw [sequenceCount_cons, expand_cons, List.length_append, Node.sequenceCount_repeated,
      Node.length_expand_repeated]
    exact Nat.add_le_add (Nat.mul_le_mul_right _ ihbody) ih

/-! ## Repetitions element by element -/

/-- An algorithm that expands to no more sequences than can be counted is expanded the same with
    repetitions carried out element by element, and so is its simplified form. -/
theorem sequenceByCycling_of_lt {t : Tree} (h : t.sequenceCount < UInt64.size) :
    t.sequenceByCycling = t.sequence ∧ t.clean.sequenceByCycling = t.clean.sequence := by
  have hcap : t.sequenceCount ≤ Count.cap := Nat.le_pred_of_lt h
  exact ⟨sequenceByCycling_eq hcap,
    sequenceByCycling_eq (Nat.le_trans t.sequenceCount_clean_le hcap)⟩

/-- What is written can be expanded element by element if its turns can be counted. -/
theorem Written.sequenceByCycling_eq {t : Tree} {tokens : List Token} (h : t.Written tokens)
    (hlength : t.expand.length < UInt64.size) : t.sequenceByCycling = t.sequence :=
  (sequenceByCycling_of_lt (Nat.lt_of_le_of_lt h.sequenceCount_le hlength)).1

end Tree

end Cubing
