import Cubing.Proofs.Runs

set_option autoImplicit false

/-! # Reduced lists of turns

A list of turns is *reduced* if neighbours are of different moves and neighbours along one layer axis
stand in the order of `Move.all`. These are the lists that a round of reduction leaves alone
(`Turn.reduceRound_eq_self_iff`), and whether a list is one shows in its moves.

Rounds get there: a round that merges shortens the list, and after a round that only sorts the next
one changes nothing. So the length of the list is fuel enough (`Turn.reduced_reduce`). -/

namespace Cubing

/-- Whether two moves can follow each other in a reduced list. -/
def Move.InOrder (m n : Move) : Prop :=
  m ≠ n ∧ (m.layerAxis?.isSome → m.layerAxis? = n.layerAxis? → m.rank < n.rank)

instance (m n : Move) : Decidable (m.InOrder n) := inferInstanceAs (Decidable (_ ∧ _))

namespace Turn

variable {a b t : Turn} {ts us run : List Turn}

/-- Whether the moves of a list of turns stand as in a reduced one. -/
def Reduced (ts : List Turn) : Prop := (ts.map move).IsChain Move.InOrder

theorem Reduced.of_moves (h : Reduced ts) (hmoves : us.map move = ts.map move) : Reduced us := by
  rwa [Reduced, hmoves]

theorem reduced_singleton (t : Turn) : Reduced [t] := .singleton _

/-! ## Merging -/

theorem mergeOnto_of_ne {done : List Turn} (h : ∀ latest ∈ done.head?, latest.move ≠ t.move) :
    mergeOnto done t = t :: done := by
  cases done with
  | nil => rfl
  | cons latest earlier =>
    have hne : latest.move ≠ t.move := h latest rfl
    simp [mergeOnto, merge, hne]

theorem length_mergeOnto_of_eq {latest : Turn} (earlier : List Turn)
    (h : latest.move = t.move) : (mergeOnto (latest :: earlier) t).length ≤ earlier.length + 1 := by
  rw [mergeOnto, merge, if_pos h]
  cases ofQuarterTurns? latest.move (latest.direction.quarterTurns + t.direction.quarterTurns) <;>
    simp

/-- Where neighbours are of different moves, nothing merges. -/
theorem foldl_mergeOnto_of_isChain {done : List Turn}
    (hmeet : ∀ latest ∈ done.head?, ∀ t ∈ ts.head?, latest.move ≠ t.move)
    (h : ts.IsChain fun a b => a.move ≠ b.move) :
    ts.foldl mergeOnto done = ts.reverse ++ done := by
  induction ts generalizing done with
  | nil => rfl
  | cons t ts ih =>
    obtain ⟨ht, hts⟩ := List.isChain_cons.1 h
    have hne : ∀ latest ∈ done.head?, latest.move ≠ t.move := fun _ hlatest => hmeet _ hlatest t rfl
    rw [List.foldl_cons, mergeOnto_of_ne hne, ih (by simpa using ht) hts]
    simp

theorem length_foldl_mergeOnto_le (ts done : List Turn) :
    (ts.foldl mergeOnto done).length ≤ done.length + ts.length := by
  induction ts generalizing done with
  | nil => simp
  | cons t ts ih =>
    have hstep := length_mergeOnto_le done t
    have hrest := ih (mergeOnto done t)
    simp only [List.foldl_cons, List.length_cons]
    omega

/-- Where merging takes no turn away, neighbours are of different moves. -/
theorem isChain_of_length_foldl_mergeOnto {done : List Turn}
    (h : (ts.foldl mergeOnto done).length = done.length + ts.length) :
    (∀ latest ∈ done.head?, ∀ t ∈ ts.head?, latest.move ≠ t.move)
      ∧ ts.IsChain fun a b => a.move ≠ b.move := by
  induction ts generalizing done with
  | nil => simp
  | cons t ts ih =>
    have hne : ∀ latest ∈ done.head?, latest.move ≠ t.move := by
      intro latest hlatest hmove
      obtain ⟨earlier, rfl⟩ := List.head?_eq_some_iff.1 hlatest
      have hmerged := length_mergeOnto_of_eq earlier hmove
      have hrest := length_foldl_mergeOnto_le ts (mergeOnto (latest :: earlier) t)
      simp only [List.foldl_cons, List.length_cons] at h
      omega
    have hlength : (ts.foldl mergeOnto (t :: done)).length = (t :: done).length + ts.length := by
      simp only [List.foldl_cons, mergeOnto_of_ne hne, List.length_cons] at h ⊢
      omega
    obtain ⟨ht, hts⟩ := ih hlength
    exact ⟨by simpa using hne, List.isChain_cons.2 ⟨by simpa using ht, hts⟩⟩

theorem mergeNeighbours_eq_self (h : ts.IsChain fun a b => a.move ≠ b.move) :
    mergeNeighbours ts = ts := by
  rw [mergeNeighbours, foldl_mergeOnto_of_isChain (by simp) h]
  simp

theorem isChain_of_length_mergeNeighbours (h : (mergeNeighbours ts).length = ts.length) :
    ts.IsChain fun a b => a.move ≠ b.move := by
  have hlength : (ts.foldl mergeOnto []).length = ([] : List Turn).length + ts.length := by
    simpa [mergeNeighbours] using h
  exact (isChain_of_length_foldl_mergeOnto hlength).2

/-! ## Rounds -/

theorem length_reduceRound_le (ts : List Turn) : (reduceRound ts).length ≤ ts.length := by
  have hmerge := length_mergeNeighbours_le (sortRuns ts)
  rwa [(sortRuns_perm ts).length_eq] at hmerge

/-- A round that takes no turn away only sorts, and leaves neighbours of different moves. -/
theorem reduceRound_of_length (h : (reduceRound ts).length = ts.length) :
    reduceRound ts = sortRuns ts ∧ (sortRuns ts).IsChain fun a b => a.move ≠ b.move := by
  have hchain : (sortRuns ts).IsChain fun a b => a.move ≠ b.move := by
    refine isChain_of_length_mergeNeighbours ?_
    rw [(sortRuns_perm ts).length_eq]
    exact h
  exact ⟨mergeNeighbours_eq_self hchain, hchain⟩

/-- After a round that takes no turn away the next round changes nothing. -/
theorem reduceRound_reduceRound (h : (reduceRound ts).length = ts.length) :
    reduceRound (reduceRound ts) = reduceRound ts := by
  obtain ⟨hround, hchain⟩ := reduceRound_of_length h
  rw [hround, reduceRound, sortRuns_sortRuns, mergeNeighbours_eq_self hchain]

/-! ## What rounds leave alone -/

/-- A list is reduced if each of its runs is. -/
theorem reduced_iff_runs : Reduced ts ↔ ∀ run ∈ runs ts, Reduced run := by
  have hmeet : (runs ts).IsChain fun run run' =>
      ∀ a ∈ run.getLast?, ∀ b ∈ run'.head?, a.move.InOrder b.move := by
    refine (List.isChain_getLast_head_splitBy sameAxis ts).imp ?_
    rintro run run' ⟨hne, hne', hapart⟩ a ha b hb
    obtain rfl : run.getLast hne = a := by simpa [List.getLast?_eq_some_getLast hne] using ha
    obtain rfl : run'.head hne' = b := by simpa [List.head?_eq_some_head hne'] using hb
    have haxis := fun h => Bool.eq_false_iff.1 hapart (sameAxis_iff.2 h)
    exact ⟨fun hmove => haxis (by rw [hmove]), fun _ h => absurd h haxis⟩
  simp only [Reduced, List.isChain_map]
  conv_lhs => rw [← flatten_runs ts, List.isChain_flatten (nil_notMem_runs ts)]
  exact and_iff_left hmeet

/-- Sorting leaves alone the runs that are in order. -/
theorem reduced_iff_of_sameAxis (haxis : ∀ a ∈ run, ∀ b ∈ run, sameAxis a b) :
    Reduced run ↔ sortRun run = run ∧ run.IsChain fun a b => a.move ≠ b.move := by
  rw [Reduced, List.isChain_map, sortRun]
  split
  · -- Rotations are never sorted.
    rename_i hrotation
    obtain ⟨r, hr, hrotation⟩ := List.any_eq_true.1 hrotation
    have hnone : ∀ a ∈ run, a.move.layerAxis? = none := by
      intro a ha
      rw [sameAxis_iff.1 (haxis a ha r hr)]
      exact (Move.isRotation_iff r.move).1 hrotation
    have horder : ∀ a b, a ∈ run → b ∈ run → (a.move.InOrder b.move ↔ a.move ≠ b.move) := by
      intro a b ha _
      simp [Move.InOrder, hnone a ha]
    simpa using List.IsChain.iff_of_mem_imp horder
  · rename_i hrotation
    have horder : ∀ a b, a ∈ run → b ∈ run →
        (a.move.InOrder b.move ↔ a.move.rank < b.move.rank) := by
      intro a b ha hb
      have harotation : a.isRotation = false := by
        simpa using List.any_eq_false.1 (Bool.not_eq_true _ ▸ hrotation) a ha
      obtain ⟨hsome, hsame⟩ : a.move.layerAxis?.isSome ∧ a.move.layerAxis? = b.move.layerAxis? := by
        simpa [parallel] using parallel_of_sameAxis (haxis a ha b hb) harotation
      constructor
      · intro h
        exact h.2 hsome hsame
      · intro h
        exact ⟨fun hmove => by simp [hmove] at h, fun _ _ => h⟩
    rw [List.IsChain.iff_of_mem_imp horder]
    constructor
    · intro h
      have hranks : (run.map fun t => t.move.rank).Pairwise (· < ·) :=
        List.isChain_iff_pairwise.1 ((List.isChain_map _).2 h)
      exact ⟨byMove_eq_self (List.pairwise_map.1 hranks), h.imp fun a b hab hmove => by
        simp [hmove] at hab⟩
    · rintro ⟨hsorted, hne⟩
      have hle : run.IsChain fun a b => a.move.rank ≤ b.move.rank :=
        hsorted ▸ (pairwise_byMove run).isChain
      rw [List.isChain_iff_getElem] at hne hle ⊢
      intro i hi
      exact Nat.lt_of_le_of_ne (hle i hi) fun hrank => hne i hi (Move.eq_of_rank hrank)

/-- **The lists that a round leaves alone are the reduced ones.** -/
theorem reduceRound_eq_self_iff : reduceRound ts = ts ↔ Reduced ts := by
  have hruns : Reduced ts ↔
      ∀ run ∈ runs ts, sortRun run = run ∧ run.IsChain fun a b => a.move ≠ b.move := by
    rw [reduced_iff_runs]
    refine forall₂_congr ?_
    intro run hrun
    exact reduced_iff_of_sameAxis fun a ha b hb => sameAxis_of_mem_runs hrun ha hb
  constructor
  · intro h
    obtain ⟨hsort, hchain⟩ := reduceRound_of_length (congrArg List.length h)
    have hsorted : sortRuns ts = ts := hsort.symm.trans h
    have hmap : (runs ts).map sortRun = (runs ts).map id := by
      rw [← runs_sortRuns, hsorted, List.map_id]
    rw [hsorted, ← flatten_runs ts, List.isChain_flatten (nil_notMem_runs ts)] at hchain
    exact hruns.2 fun run hrun => ⟨List.map_inj_left.1 hmap run hrun, hchain.1 run hrun⟩
  · intro h
    have hsorted : sortRuns ts = ts := by
      have hmap : (runs ts).map sortRun = (runs ts).map id :=
        List.map_inj_left.2 fun run hrun => (hruns.1 h run hrun).1
      rw [sortRuns, List.flatMap_def, hmap, List.map_id, flatten_runs]
    have hchain : ts.IsChain fun a b => a.move ≠ b.move :=
      (List.isChain_map _ |>.1 h).imp fun _ _ hab => hab.1
    rw [reduceRound, hsorted, mergeNeighbours_eq_self hchain]

/-! ## Rounds come to an end -/

theorem reduced_settle {fuel : Nat} (h : ts.length + 2 ≤ fuel) : Reduced (settle fuel ts) := by
  induction fuel generalizing ts with
  | zero => omega
  | succ fuel ih =>
    rw [settle]
    by_cases hfixed : reduceRound ts = ts
    · simpa [hfixed] using reduceRound_eq_self_iff.1 hfixed
    · have hle := length_reduceRound_le ts
      rw [if_neg (by simpa using hfixed)]
      rcases Nat.lt_or_eq_of_le hle with hlt | heq
      · exact ih (by omega)
      · -- The next round changes nothing, and there is fuel for it.
        have hnext : reduceRound (reduceRound ts) = reduceRound ts := reduceRound_reduceRound heq
        obtain ⟨fuel, rfl⟩ : ∃ k, fuel = k + 1 := ⟨fuel - 1, by omega⟩
        simpa [settle, hnext] using reduceRound_eq_self_iff.1 hnext

/-- **Reduction ends in a reduced list.** -/
theorem reduced_reduce (ts : List Turn) : Reduced (reduce ts) := reduced_settle (Nat.le_refl _)

/-- Reduction never adds turns. -/
theorem length_reduce_le (ts : List Turn) : (reduce ts).length ≤ ts.length := by
  suffices h : ∀ fuel, (settle fuel ts).length ≤ ts.length by exact h _
  intro fuel
  induction fuel generalizing ts with
  | zero => exact Nat.le_refl _
  | succ fuel ih =>
    rw [settle]
    split
    · exact Nat.le_refl _
    · exact Nat.le_trans (ih _) (length_reduceRound_le ts)

/-- Reduced lists are their own reduction. -/
theorem reduce_eq_self (h : Reduced ts) : reduce ts = ts := by
  simp [reduce, settle, reduceRound_eq_self_iff.2 h]

end Turn

end Cubing
