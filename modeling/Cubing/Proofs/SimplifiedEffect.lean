import Cubing.Proofs.SameEffect
import Cubing.Proofs.Sizes

set_option autoImplicit false

/-! # Simplifying keeps the effect

Every rule of simplification puts something in place whose expansion is alike, whatever alike
contents it is given (`Node.relates_simplification`). So the expansion of a simplified algorithm is
alike to that of the algorithm, and on every cube the two make the same cube. -/

namespace Cubing

namespace Node

open Turn (Alike)

/-! ## Sequences -/

@[simp] theorem expand_join (ns : List Node) : Tree.expand (join ns) = Tree.expand ns := by
  induction ns with
  | nil => rfl
  | cons n ns ih =>
    cases n with
    | seq ts =>
      rw [join]
      split
      · rename_i us rest hjoin
        simp [← ih, hjoin]
      · simp [ih]
    | bracket kind a b => simp [ih]
    | repeated body n => simp [ih]

@[simp] theorem expand_reducedSeq? (ts : List Turn) :
    Tree.expand (reducedSeq? ts).toList = Turn.reduce ts := by
  unfold reducedSeq?
  split
  · rename_i hnil
    rw [hnil]
    rfl
  · simp

theorem alike_reducedSeq? (ts : List Turn) :
    Alike ts (Tree.expand (reducedSeq? ts).toList) := by
  rw [expand_reducedSeq?]
  exact (Alike.reduce ts).symm

theorem alike_reduceSeq? (n : Node) : Alike n.expand (Tree.expand (reduceSeq? n).toList) := by
  cases n with
  | seq ts => exact alike_reducedSeq? ts
  | bracket kind a b => exact .of_eq (by simp [reduceSeq?])
  | repeated body n => exact .of_eq (by simp [reduceSeq?])

theorem alike_tidy (ns : List Node) : Alike (Tree.expand ns) (Tree.expand (tidy ns)) := by
  have hreduced (ns : List Node) :
      Alike (Tree.expand ns) (Tree.expand (ns.filterMap reduceSeq?)) := by
    induction ns with
    | nil => exact .refl []
    | cons n ns ih =>
      rw [filterMap_reduceSeq?_cons, Tree.expand_append]
      exact (alike_reduceSeq? n).append ih
  rw [← expand_join ns]
  exact hreduced (join ns)

/-! ## Conjugates -/

theorem alike_foldSetup? {a b : List Node} {n : Node} (h : foldSetup? a b = some n) :
    Alike (bracket .conjugate a b).expand n.expand := by
  obtain ⟨front, setup, last, x, last', other, rfl, rfl, hmerge, rfl⟩ :=
    foldSetup?_eq_some_iff.1 h
  have hlast : Alike [last, x] [last'] := by
    simpa [hmerge, Turn.Merge.toList] using Alike.merge last x
  -- The turn that the setup has taken in is undone along with it.
  have hundo : Alike (x :: Turn.invList [last']) (Turn.invList [last]) := by
    calc x :: Turn.invList [last']
      Alike _ (x :: Turn.invList [last, x]) := (hlast.invList.symm).cons x
      Alike _ ([x, x.inv] ++ Turn.invList [last]) := .of_eq (by simp [Turn.invList])
      Alike _ (Turn.invList [last]) := (Alike.turn_inv x).append_right _
  have hset := hlast.append_left (Tree.expand front ++ setup)
  have hundone := hundo.append_right (Turn.invList (Tree.expand front ++ setup))
  have hmiddle := Alike.refl
    (Tree.expand other ++ [x.inv] ++ Turn.invList (Tree.expand other))
  simpa [Bracket.expand, Turn.invList] using (hset.append hmiddle).append hundone.symm

theorem alike_simplifyConjugate (a b : List Node) :
    Alike (bracket .conjugate a b).expand (Tree.expand (simplifyConjugate a b).toList) := by
  unfold simplifyConjugate
  split
  · rename_i hb
    rw [List.isEmpty_iff.1 hb]
    simpa [Bracket.expand, Replacement.toList] using Alike.append_invList (Tree.expand a)
  · split
    · rename_i ha
      rw [List.isEmpty_iff.1 ha]
      exact .of_eq (by simp [Bracket.expand, Replacement.toList])
    · cases hfold : foldSetup? a b with
      | none => exact .of_eq (by simp [Replacement.toList])
      | some n => simpa [Replacement.toList] using alike_foldSetup? hfold

/-! ## Commutators -/

theorem parallel_of_singleAxis {ns : List Node} (h : singleAxis ns) :
    ∀ t ∈ Tree.expand ns, ∀ u ∈ Tree.expand ns, t.parallel u := by
  obtain ⟨ts, hts, hparallel⟩ := singleAxis_iff.1 h
  rwa [Tree.expand_of_turns? hts]

theorem alike_simplifyCommutator (a b : List Node) :
    Alike (bracket .commutator a b).expand (Tree.expand (simplifyCommutator a b).toList) := by
  unfold simplifyCommutator
  split
  · rename_i h
    have hcases : (a = [] ∨ b = []) ∨ singleAxis (a ++ b) = true := by simpa using h
    rcases hcases with (rfl | rfl) | haxis
    · simpa [Bracket.expand, Replacement.toList] using Alike.append_invList (Tree.expand b)
    · simpa [Bracket.expand, Replacement.toList] using Alike.append_invList (Tree.expand a)
    · have hparallel := parallel_of_singleAxis haxis
      rw [Tree.expand_append] at hparallel
      simpa [Replacement.toList] using Alike.commutator_of_parallel hparallel
  · exact .of_eq (by simp [Replacement.toList])

/-! ## Repetitions -/

theorem alike_simplifyRepeated (body : List Node) (n : UInt32) :
    Alike (repeated body n).expand (Tree.expand (simplifyRepeated body n).toList) := by
  unfold simplifyRepeated
  split
  · rename_i h
    have hcases : n = 0 ∨ body = [] := by simpa using h
    rcases hcases with rfl | rfl <;> exact .of_eq (by simp [Turn.timesList, Replacement.toList])
  · split
    · rename_i hone
      exact .of_eq (by simp [hone, Turn.timesList, Replacement.toList])
    · split
      · rename_i t _
        have hword : Turn.timesList [t] n.toNat = List.replicate n.toNat t := by
          simp [Turn.timesList]
        have htimes := Alike.replicate t n.toNat
        rw [← hword] at htimes
        cases h : t.times? n.toNat with
        | none => simpa [h, Replacement.toList, Replacement.ofOption] using htimes
        | some u => simpa [h, Replacement.toList, Replacement.ofOption] using htimes
      · exact .of_eq (by simp [Replacement.toList])

/-! ## All rules -/

/-- Simplification keeps expansions alike. -/
theorem relates_simplification :
    Rules.simplification.Relates fun s t => Alike s.expand t.expand where
  turn _ := rfl
  nil := .refl []
  append ha hb := by
    rw [Tree.expand_append, Tree.expand_append]
    exact ha.append hb
  seq ts := by simpa [Rules.simplification] using alike_reducedSeq? ts
  bracket kind {a a' b b'} ha hb := by
    have hsides : Alike (Tree.expand [bracket kind a b])
        (bracket kind (tidy a') (tidy b')).expand := by
      simpa using (ha.trans (alike_tidy a')).bracket kind (hb.trans (alike_tidy b'))
    cases kind with
    | conjugate => exact hsides.trans (alike_simplifyConjugate _ _)
    | commutator => exact hsides.trans (alike_simplifyCommutator _ _)
  repeated {body body'} n hbody := by
    have hbodies : Alike (Tree.expand [repeated body n]) (repeated (tidy body') n).expand := by
      simpa using (hbody.trans (alike_tidy body')).timesList n.toNat
    exact hbodies.trans (alike_simplifyRepeated _ n)

end Node

namespace Tree

theorem alike_clean (t : Tree) : Turn.Alike t.expand t.clean.expand :=
  (Node.relates_simplification.listTransformM t).trans (Node.alike_tidy _)

end Tree

/-- **Simplifying keeps the effect.** An algorithm and its simplified form are sequenced to their
    expansions, and from every reachable cube the two expansions make the same cube, however it is
    held. If the algorithm expands to no more sequences than can be counted, so it is with repetitions
    carried out element by element. -/
theorem Cube.Reachable.clean_keeps_effect {c : Cube} (hc : c.Reachable) (t : Tree) :
    t.sequence.turns? = some t.expand ∧ t.clean.sequence.turns? = some t.clean.expand
      ∧ c.applyTurns t.expand = c.applyTurns t.clean.expand
      ∧ (t.sequenceCount < UInt64.size →
        t.sequenceByCycling = t.sequence ∧ t.clean.sequenceByCycling = t.clean.sequence) :=
  ⟨t.turns?_sequence, t.clean.turns?_sequence, applyTurns_congr hc.orientation t.alike_clean,
    Tree.sequenceByCycling_of_lt⟩

/-- A setup rotation that is folded into a commutator, between groups that go away. -/
theorem Cube.Reachable.clean_keeps_effect_folded :
    let c := Cube.solved.applyTurns [⟨.rotation .y, .cw⟩, ⟨.face .R, .cw⟩, ⟨.wide .U, .ccw⟩]
    let t : Tree :=
      [.repeated [.seq [⟨.face .L, .cw⟩]] 0,
        .bracket .conjugate [.seq [⟨.slice .M, .cw⟩, ⟨.rotation .x, .cw⟩]]
          [.bracket .commutator [.seq [⟨.rotation .x, .double⟩]] [.seq [⟨.face .F, .cw⟩]]],
        .bracket .commutator [.seq []] [.seq [⟨.face .B, .double⟩]]]
    c.Reachable ∧ t.clean.length = 1 ∧ t.sequenceCount < UInt64.size
      ∧ t.expand = [⟨.slice .M, .cw⟩, ⟨.rotation .x, .cw⟩, ⟨.rotation .x, .double⟩, ⟨.face .F, .cw⟩,
        ⟨.rotation .x, .double⟩, ⟨.face .F, .ccw⟩, ⟨.rotation .x, .ccw⟩, ⟨.slice .M, .ccw⟩,
        ⟨.face .B, .double⟩, ⟨.face .B, .double⟩]
      ∧ t.clean.expand = [⟨.slice .M, .cw⟩, ⟨.rotation .x, .ccw⟩, ⟨.face .F, .cw⟩,
        ⟨.rotation .x, .double⟩, ⟨.face .F, .ccw⟩, ⟨.rotation .x, .double⟩, ⟨.rotation .x, .cw⟩,
        ⟨.slice .M, .ccw⟩]
      ∧ t.sequence.turns? = some t.expand ∧ t.clean.sequence.turns? = some t.clean.expand
      ∧ c.applyTurns t.expand = c.applyTurns t.clean.expand
      ∧ t.sequenceByCycling = t.sequence ∧ t.clean.sequenceByCycling = t.clean.sequence := by
  intro c t
  have hc : c.Reachable := .turns .solved _
  have hcount : t.sequenceCount < UInt64.size := by decide
  obtain ⟨hsequence, hclean, heffect, hcycling⟩ := clean_keeps_effect hc t
  exact ⟨hc, by decide +kernel, hcount, by decide +kernel, by decide +kernel, hsequence, hclean,
    heffect, hcycling hcount⟩

end Cubing
