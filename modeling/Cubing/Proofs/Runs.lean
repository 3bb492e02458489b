import Cubing.Turn.Reduction
import Mathlib.Data.List.Chain
import Mathlib.Data.List.Nodup
import Mathlib.Data.List.Perm.Basic
import Mathlib.Data.List.SplitBy

set_option autoImplicit false

/-! # Runs and their sorting

A round of reduction sorts a list of turns run by run. Sorting a run only moves turns about
(`Turn.sortRun_perm`) and sorts by the place of their moves in `Move.all`; as it keeps the axis of
the run, the runs of the sorted list are the sorted runs (`Turn.runs_sortRuns`), and sorting twice is
sorting once. -/

namespace Cubing

/-- The place of a move in the order in which runs are listed. -/
def Move.rank (m : Move) : Nat := all.idxOf m

theorem Move.eq_of_rank {m n : Move} (h : m.rank = n.rank) : m = n :=
  (List.idxOf_inj (mem_all m)).1 h

namespace Turn

variable {a b c : Turn} {ts run : List Turn}

/-! ## Turns of one axis -/

theorem sameAxis_iff : sameAxis a b ↔ a.move.layerAxis? = b.move.layerAxis? := by
  simp [sameAxis]

theorem sameAxis_trans (hab : sameAxis a b) (hbc : sameAxis b c) : sameAxis a c :=
  sameAxis_iff.2 ((sameAxis_iff.1 hab).trans (sameAxis_iff.1 hbc))

instance : Trans (fun a b => sameAxis a b = true) (fun a b => sameAxis a b = true)
    (fun a b => sameAxis a b = true) := ⟨sameAxis_trans⟩

instance : Std.Symm fun a b => sameAxis a b = true :=
  ⟨fun _ _ hab => sameAxis_iff.2 (sameAxis_iff.1 hab).symm⟩

theorem parallel_of_sameAxis (h : sameAxis a b) (ha : a.isRotation = false) : a.parallel b := by
  have haxis : a.move.layerAxis? ≠ none := by
    rw [Ne, ← Move.isRotation_iff, ← isRotation, ha]
    exact Bool.false_ne_true
  simp [parallel, ← sameAxis_iff.1 h, Option.isSome_iff_ne_none, haxis]

theorem sameAxis_of_mem_runs (h : run ∈ runs ts) (ha : a ∈ run) (hb : b ∈ run) :
    sameAxis a b := by
  have hpairwise : run.Pairwise fun a b => sameAxis a b = true :=
    List.isChain_iff_pairwise.1 (List.isChain_of_mem_splitBy h)
  exact hpairwise.forall_of_forall (fun a _ => sameAxis_iff.2 rfl) ha hb

theorem flatten_runs (ts : List Turn) : (runs ts).flatten = ts := List.flatten_splitBy _ _

theorem nil_notMem_runs (ts : List Turn) : [] ∉ runs ts := List.nil_notMem_splitBy _ _

theorem ne_nil_of_mem_runs (h : run ∈ runs ts) : run ≠ [] := List.ne_nil_of_mem_splitBy h

/-! ## Turns move by move -/

/-- Listing the turns of some moves move by move keeps those turns. -/
theorem flatMap_filter_move_perm {ms : List Move} (hms : ms.Nodup) (ts : List Turn) :
    (ms.flatMap fun m => ts.filter (·.move = m)).Perm (ts.filter (·.move ∈ ms)) := by
  induction ms with
  | nil => simp
  | cons m ms ih =>
    obtain ⟨hm, hms⟩ := List.nodup_cons.1 hms
    have hfirst : (ts.filter (·.move ∈ m :: ms)).filter (·.move = m) = ts.filter (·.move = m) := by
      rw [List.filter_filter]
      exact List.filter_congr (by simp +contextual)
    have hrest : (ts.filter (·.move ∈ m :: ms)).filter (fun t => !decide (t.move = m))
        = ts.filter (·.move ∈ ms) := by
      rw [List.filter_filter]
      refine List.filter_congr ?_
      intro t _
      by_cases ht : t.move = m
      · simp [ht, hm]
      · simp [ht]
    have hsplit := List.filter_append_perm (·.move = m) (ts.filter (·.move ∈ m :: ms))
    rw [hfirst, hrest] at hsplit
    exact ((ih hms).append_left _).trans hsplit

theorem byMove_perm (ts : List Turn) : (byMove ts).Perm ts := by
  simpa [byMove, Move.mem_all] using flatMap_filter_move_perm Move.nodup_all ts

/-- Listing turns move by move keeps the order of the turns of one move. -/
theorem filter_byMove (ts : List Turn) (m : Move) :
    (byMove ts).filter (·.move = m) = ts.filter (·.move = m) := by
  have hnone {ms : List Move} (hm : m ∉ ms) :
      (ms.flatMap fun n => ts.filter (·.move = n)).filter (·.move = m) = [] := by
    rw [List.filter_eq_nil_iff]
    intro t ht htm
    obtain ⟨n, hn, htn⟩ := List.mem_flatMap.1 ht
    simp only [List.mem_filter, decide_eq_true_eq] at htn htm
    exact hm (htm ▸ htn.2 ▸ hn)
  obtain ⟨front, back, hall⟩ := List.append_of_mem (Move.mem_all m)
  have hnodup : (front ++ m :: back).Nodup := hall ▸ Move.nodup_all
  obtain ⟨-, hback, hfront⟩ := List.nodup_append.1 hnodup
  have hmfront : m ∉ front := fun h => hfront m h m List.mem_cons_self rfl
  rw [byMove, hall, List.flatMap_append, List.flatMap_cons, List.filter_append, List.filter_append,
    hnone hmfront, hnone (List.nodup_cons.1 hback).1]
  simp

@[simp] theorem byMove_byMove (ts : List Turn) : byMove (byMove ts) = byMove ts := by
  simp only [byMove.eq_def (byMove ts), filter_byMove]
  rfl

theorem pairwise_byMove (ts : List Turn) :
    (byMove ts).Pairwise fun a b => a.move.rank ≤ b.move.rank := by
  have hmoves : Move.all.Pairwise fun m n => m.rank ≤ n.rank := by decide
  rw [byMove, List.pairwise_flatMap]
  constructor
  · intro m _
    refine List.pairwise_of_forall_mem_list ?_
    intro a ha b hb
    simp only [List.mem_filter, decide_eq_true_eq] at ha hb
    rw [ha.2, hb.2]
  · refine hmoves.imp ?_
    intro m n hmn a ha b hb
    simp only [List.mem_filter, decide_eq_true_eq] at ha hb
    rw [ha.2, hb.2]
    exact hmn

/-- Turns that are in order already are listed as they are. -/
theorem byMove_eq_self (h : ts.Pairwise fun a b => a.move.rank < b.move.rank) :
    byMove ts = ts := by
  have hnodup : (ts.map fun t => t.move.rank).Nodup := List.pairwise_map.2 (h.imp Nat.ne_of_lt)
  refine (byMove_perm ts).eq_of_pairwise ?_ (pairwise_byMove ts) (h.imp Nat.le_of_lt)
  intro a b ha hb hab hba
  have ha : a ∈ ts := (byMove_perm ts).mem_iff.1 ha
  exact List.inj_on_of_nodup_map hnodup ha hb (Nat.le_antisymm hab hba)

/-! ## Sorted runs -/

theorem sortRun_perm (run : List Turn) : (sortRun run).Perm run := by
  unfold sortRun
  split
  · exact .refl run
  · exact byMove_perm run

theorem mem_sortRun : a ∈ sortRun run ↔ a ∈ run := (sortRun_perm run).mem_iff

theorem sortRun_ne_nil (h : run ≠ []) : sortRun run ≠ [] := by
  intro hnil
  have hperm := sortRun_perm run
  rw [hnil] at hperm
  exact h hperm.symm.eq_nil

@[simp] theorem sortRun_sortRun (run : List Turn) : sortRun (sortRun run) = sortRun run := by
  have hsorted : (sortRun run).any isRotation = run.any isRotation := (sortRun_perm run).any_eq
  rw [sortRun, hsorted]
  split
  · rfl
  · rename_i h
    rw [sortRun, if_neg h, byMove_byMove]

/-- The runs of the sorted list are the sorted runs. -/
theorem runs_sortRuns (ts : List Turn) : runs (sortRuns ts) = (runs ts).map sortRun := by
  rw [sortRuns, List.flatMap_def]
  refine List.splitBy_flatten ?_ ?_ ?_
  · intro hnil
    obtain ⟨run, hrun, hsorted⟩ := List.mem_map.1 hnil
    exact sortRun_ne_nil (ne_nil_of_mem_runs hrun) hsorted
  · intro sorted hsorted
    obtain ⟨run, hrun, rfl⟩ := List.mem_map.1 hsorted
    refine (List.pairwise_of_forall_mem_list fun a ha b hb => ?_).isChain
    exact sameAxis_of_mem_runs hrun (mem_sortRun.1 ha) (mem_sortRun.1 hb)
  · rw [List.isChain_map]
    refine (List.isChain_getLast_head_splitBy sameAxis ts).imp_of_mem_imp ?_
    rintro run run' hrun hrun' ⟨hne, hne', hapart⟩
    -- The last turn of one run and the first of the next stand for the axes of their runs.
    refine ⟨sortRun_ne_nil hne, sortRun_ne_nil hne', Bool.eq_false_iff.2 fun hsame => ?_⟩
    have hlast := sameAxis_of_mem_runs hrun (List.getLast_mem hne)
      (mem_sortRun.1 (List.getLast_mem (sortRun_ne_nil hne)))
    have hhead := sameAxis_of_mem_runs hrun'
      (mem_sortRun.1 (List.head_mem (sortRun_ne_nil hne'))) (List.head_mem hne')
    exact Bool.eq_false_iff.1 hapart (sameAxis_trans (sameAxis_trans hlast hsame) hhead)

@[simp] theorem sortRuns_sortRuns (ts : List Turn) : sortRuns (sortRuns ts) = sortRuns ts := by
  rw [sortRuns, runs_sortRuns, List.flatMap_map]
  simp [sortRuns]

theorem sortRuns_perm (ts : List Turn) : (sortRuns ts).Perm ts := by
  have hruns : ((runs ts).flatMap sortRun).Perm ((runs ts).flatMap id) :=
    List.Perm.flatMap_left _ fun run _ => sortRun_perm run
  rwa [List.flatMap_id, flatten_runs] at hruns

end Turn

end Cubing
