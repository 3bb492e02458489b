import Cubing.Proofs.Runs
import Cubing.Tree.Expansion

set_option autoImplicit false

/-! # Turns that do alike

Two lists of turns are *alike* if one becomes the other by letting neighbours along one layer axis
trade places and by merging neighbours of one move. Nothing here mentions a cube: rotations merge
among each other but never trade places, as in `Turn.reduce`.

Alike lists are equal in a group: turns undone cancel (`Alike.append_invList`), so lists that are
alike stay so undone, repeated, and within brackets. Reducing a list only rearranges it
(`Alike.reduce`). -/

namespace Cubing

namespace Turn

/-- Lists of turns that rearranging and merging make the same. -/
inductive Alike : List Turn → List Turn → Prop where
  | refl (ts : List Turn) : Alike ts ts
  | symm {ts us : List Turn} (h : Alike ts us) : Alike us ts
  | trans {ts us vs : List Turn} (h : Alike ts us) (h' : Alike us vs) : Alike ts vs
  /-- Neighbours along one layer axis trade places. -/
  | swap {a b : Turn} (h : a.parallel b) : Alike [a, b] [b, a]
  /-- Neighbours of one move become what they amount to. -/
  | merge (a b : Turn) : Alike [a, b] (merge a b).toList
  /-- What stands before and after may change as well. -/
  | append {ts us vs ws : List Turn} (h : Alike ts us) (h' : Alike vs ws) :
      Alike (ts ++ vs) (us ++ ws)

namespace Alike

variable {ts us vs ws : List Turn}

instance : Trans Alike Alike Alike := ⟨trans⟩

theorem of_eq (h : ts = us) : Alike ts us := h ▸ refl ts

theorem append_left (vs : List Turn) (h : Alike ts us) : Alike (vs ++ ts) (vs ++ us) :=
  append (refl vs) h

theorem append_right (vs : List Turn) (h : Alike ts us) : Alike (ts ++ vs) (us ++ vs) :=
  append h (refl vs)

theorem cons (t : Turn) (h : Alike ts us) : Alike (t :: ts) (t :: us) := append_left [t] h

theorem flatMap {α : Type} {f g : α → List Turn} {xs : List α}
    (h : ∀ x ∈ xs, Alike (f x) (g x)) : Alike (xs.flatMap f) (xs.flatMap g) := by
  induction xs with
  | nil => exact refl []
  | cons x xs ih =>
    have hx := h x List.mem_cons_self
    exact append hx (ih fun y hy => h y (List.mem_cons_of_mem x hy))

/-! ## Quarter turns of one move -/

/-- Quarter turns of one move add up. -/
theorem quarterTurns_add (m : Move) (i j : Nat) :
    Alike ((ofQuarterTurns? m i).toList ++ (ofQuarterTurns? m j).toList)
      (ofQuarterTurns? m (i + j)).toList := by
  have hmod (k l : Nat) (h : k % 4 = l % 4) : ofQuarterTurns? m k = ofQuarterTurns? m l := by
    rw [ofQuarterTurns?, ofQuarterTurns?, ← Direction.ofQuarterTurns?_mod, h,
      Direction.ofQuarterTurns?_mod]
  cases hi : Direction.ofQuarterTurns? i with
  | none =>
    have hsum : (i + j) % 4 = j % 4 := by
      have := (Direction.ofQuarterTurns?_eq_none_iff i).1 hi
      omega
    exact of_eq (by rw [hmod _ _ hsum]; simp [ofQuarterTurns?, hi])
  | some d =>
    cases hj : Direction.ofQuarterTurns? j with
    | none =>
      have hsum : (i + j) % 4 = i % 4 := by
        have := (Direction.ofQuarterTurns?_eq_none_iff j).1 hj
        omega
      exact of_eq (by rw [hmod _ _ hsum]; simp [ofQuarterTurns?, hj])
    | some e =>
      have hsum : (i + j) % 4 = (d.quarterTurns + e.quarterTurns) % 4 := by
        rw [Direction.quarterTurns_of_ofQuarterTurns? hi,
          Direction.quarterTurns_of_ofQuarterTurns? hj]
        omega
      have hmerge : (Turn.merge ⟨m, d⟩ ⟨m, e⟩).toList = (ofQuarterTurns? m (i + j)).toList := by
        rw [hmod _ _ hsum]
        exact toList_merge rfl
      rw [← hmerge]
      simpa [ofQuarterTurns?, hi, hj] using merge ⟨m, d⟩ ⟨m, e⟩

/-- A turn made again and again is the repeated turn. -/
theorem replicate (t : Turn) (n : Nat) : Alike (List.replicate n t) (t.times? n).toList := by
  have hone : (ofQuarterTurns? t.move t.direction.quarterTurns).toList = [t] := by
    simp [ofQuarterTurns?]
  induction n with
  | zero => exact of_eq (by simp [times?, ofQuarterTurns?, Direction.ofQuarterTurns?])
  | succ n ih =>
    calc t :: List.replicate n t
      Alike _ ([t] ++ (t.times? n).toList) := ih.cons t
      Alike _ (t.times? (n + 1)).toList := by
        rw [← hone, times?, times?, Nat.mul_succ, Nat.add_comm]
        exact quarterTurns_add t.move _ _

/-! ## Undoing -/

theorem turn_inv (t : Turn) : Alike [t, t.inv] [] := by
  simpa [merge_inv, Merge.toList] using merge t t.inv

/-- Turns and the same turns undone cancel. -/
theorem append_invList (ts : List Turn) : Alike (ts ++ invList ts) [] := by
  induction ts with
  | nil => exact refl []
  | cons t ts ih =>
    calc t :: ts ++ invList (t :: ts)
      Alike _ ([t] ++ (ts ++ invList ts) ++ [t.inv]) := of_eq (by simp [invList])
      Alike _ ([t] ++ [] ++ [t.inv]) := (ih.append_left [t]).append_right [t.inv]
      Alike _ [] := turn_inv t

theorem invList_append (ts : List Turn) : Alike (invList ts ++ ts) [] := by
  simpa using append_invList (Turn.invList ts)

theorem invList (h : Alike ts us) : Alike (invList ts) (invList us) := by
  calc Turn.invList ts
    Alike _ (Turn.invList ts ++ []) := of_eq (by simp)
    Alike _ (Turn.invList ts ++ (us ++ Turn.invList us)) := (append_invList us).symm.append_left _
    Alike _ (Turn.invList ts ++ (ts ++ Turn.invList us)) :=
      (h.symm.append_right _).append_left _
    Alike _ ((Turn.invList ts ++ ts) ++ Turn.invList us) := of_eq (by simp)
    Alike _ ([] ++ Turn.invList us) := (invList_append ts).append_right _

theorem timesList (h : Alike ts us) (n : Nat) : Alike (timesList ts n) (timesList us n) := by
  induction n with
  | zero => exact refl []
  | succ n ih => simpa [Turn.timesList, List.replicate_succ] using append h ih

/-- Alike sides make brackets alike. -/
theorem bracket (kind : Bracket) (h : Alike ts us) (h' : Alike vs ws) :
    Alike (kind.expand ts vs) (kind.expand us ws) := by
  cases kind with
  | conjugate => exact (h.append h').append h.invList
  | commutator => exact ((h.append h').append h.invList).append h'.invList

/-! ## Parallel turns -/

/-- Parallel turns may stand in any order. -/
theorem of_perm (h : ts.Perm us) (hp : ∀ a ∈ ts, ∀ b ∈ ts, a.parallel b) : Alike ts us := by
  induction h with
  | nil => exact refl []
  | cons t _ ih =>
    refine (ih ?_).cons t
    intro a ha b hb
    exact hp a (List.mem_cons_of_mem t ha) b (List.mem_cons_of_mem t hb)
  | swap a b ts =>
    have hab : b.parallel a := hp b (by simp) a (by simp)
    exact (swap hab).append_right ts
  | trans hts _ ih ih' =>
    refine (ih hp).trans (ih' ?_)
    intro a ha b hb
    exact hp a (hts.mem_iff.2 ha) b (hts.mem_iff.2 hb)

/-- A commutator of parallel turns does nothing. -/
theorem commutator_of_parallel (h : ∀ a ∈ ts ++ us, ∀ b ∈ ts ++ us, a.parallel b) :
    Alike (Bracket.commutator.expand ts us) [] := by
  calc Bracket.commutator.expand ts us
    Alike _ (ts ++ us ++ Turn.invList (us ++ ts)) := of_eq (by simp [Bracket.expand])
    Alike _ (us ++ ts ++ Turn.invList (us ++ ts)) :=
      (of_perm List.perm_append_comm h).append_right _
    Alike _ [] := append_invList _

end Alike

/-! ## Reduction rearranges -/

namespace Alike

theorem sortRun {ts run : List Turn} (h : run ∈ runs ts) : Alike (sortRun run) run := by
  unfold Turn.sortRun
  split
  · exact refl run
  · rename_i hrotation
    refine of_perm (byMove_perm run) ?_
    intro a ha b hb
    have hmem {t : Turn} (ht : t ∈ byMove run) : t ∈ run := (byMove_perm run).mem_iff.1 ht
    have harotation : a.isRotation = false := by
      simpa using List.any_eq_false.1 (Bool.not_eq_true _ ▸ hrotation) a (hmem ha)
    exact parallel_of_sameAxis (sameAxis_of_mem_runs h (hmem ha) (hmem hb)) harotation

theorem sortRuns (ts : List Turn) : Alike (sortRuns ts) ts := by
  calc (runs ts).flatMap Turn.sortRun
    Alike _ ((runs ts).flatMap id) := flatMap fun _ h => sortRun h
    Alike _ ts := of_eq (by rw [List.flatMap_id, flatten_runs])

/-- The merged turns and one more. -/
theorem mergeOnto (done : List Turn) (t : Turn) :
    Alike (mergeOnto done t).reverse (done.reverse ++ [t]) := by
  cases done with
  | nil => exact refl [t]
  | cons latest earlier =>
    have hmerge : Alike (earlier.reverse ++ (Turn.merge latest t).toList)
        ((latest :: earlier).reverse ++ [t]) := by
      simpa using (merge latest t).symm.append_left earlier.reverse
    rw [Turn.mergeOnto]
    cases h : Turn.merge latest t with
    | cancelled => simpa [h, Merge.toList] using hmerge
    | merged u => simpa [h, Merge.toList] using hmerge
    | unmerged a b => exact of_eq (by simp)

theorem mergeNeighbours (ts : List Turn) : Alike (mergeNeighbours ts) ts := by
  suffices h : ∀ done : List Turn,
      Alike (ts.foldl Turn.mergeOnto done).reverse (done.reverse ++ ts) by
    exact h []
  induction ts with
  | nil => intro done; exact of_eq (by simp)
  | cons t ts ih =>
    intro done
    calc (ts.foldl Turn.mergeOnto (Turn.mergeOnto done t)).reverse
      Alike _ ((Turn.mergeOnto done t).reverse ++ ts) := ih _
      Alike _ ((done.reverse ++ [t]) ++ ts) := (mergeOnto done t).append_right ts
      Alike _ (done.reverse ++ t :: ts) := of_eq (by simp)

theorem reduceRound (ts : List Turn) : Alike (reduceRound ts) ts :=
  (mergeNeighbours _).trans (sortRuns ts)

theorem settle (fuel : Nat) (ts : List Turn) : Alike (settle fuel ts) ts := by
  induction fuel generalizing ts with
  | zero => exact refl ts
  | succ fuel ih =>
    rw [Turn.settle]
    split
    · exact refl ts
    · exact (ih _).trans (reduceRound ts)

/-- **Reduction only rearranges and merges.** -/
theorem reduce (ts : List Turn) : Alike (reduce ts) ts := settle _ ts

end Alike

end Turn

end Cubing
