import Cubing.Proofs.Reduced

set_option autoImplicit false

/-! # How many rounds a reduction takes

The length of a list is no measure for its rounds: a round may keep it and still change the list. But
whether a round keeps the length shows in what merging does to the sorted list. If some turn meets
one of its own move (`Turn.Merges`), the two become one turn or none, and the list gets shorter. If
none does, the round only sorts, and since sorting twice is sorting once, the next round is the last.
So there are at most as many rounds that merge as turns, and at most two more
(`Turn.rounds_come_to_an_end`). -/

namespace Cubing.Turn

variable {a b : Turn} {ts us : List Turn} {n : Nat}

/-! ## Rounds that merge -/

/-- While neighbours are merged from left to right, some turn does not stay beside the latest one:
    it merges with it or cancels it. -/
def Merges (ts : List Turn) : Prop :=
  ∃ front t back, ts = front ++ t :: back ∧
    ∃ latest ∈ (front.foldl mergeOnto []).head?, merge latest t ≠ .unmerged latest t

theorem merge_ne_unmerged_iff : merge a b ≠ .unmerged a b ↔ a.move = b.move := by
  by_cases hmove : a.move = b.move
  · rw [merge, if_pos hmove]
    cases ofQuarterTurns? a.move (a.direction.quarterTurns + b.direction.quarterTurns) <;>
      simp [hmove]
  · simp [merge, hmove]

/-- Turns that meet leave one turn less at least, and no other step adds one. -/
theorem length_mergeNeighbours_lt (h : Merges ts) : (mergeNeighbours ts).length < ts.length := by
  obtain ⟨front, t, back, rfl, latest, hlatest, hmerge⟩ := h
  obtain ⟨earlier, hdone⟩ := List.head?_eq_some_iff.1 hlatest
  have hfront : earlier.length + 1 ≤ front.length := by
    simpa [hdone] using length_foldl_mergeOnto_le front []
  have hmeet := length_mergeOnto_of_eq earlier (merge_ne_unmerged_iff.1 hmerge)
  have hback := length_foldl_mergeOnto_le back (mergeOnto (latest :: earlier) t)
  rw [mergeNeighbours, List.length_reverse, List.foldl_append, List.foldl_cons, hdone,
    List.length_append, List.length_cons]
  omega

/-- Where no turns meet, merging changes nothing. -/
theorem mergeNeighbours_of_not_merges (h : ¬ Merges ts) : mergeNeighbours ts = ts := by
  suffices hdone : ts.foldl mergeOnto [] = ts.reverse by
    rw [mergeNeighbours, hdone, List.reverse_reverse]
  induction ts using List.reverseRecOn with
  | nil => rfl
  | append_singleton ts t ih =>
    have hfront : ¬ Merges ts := by
      rintro ⟨front, u, back, rfl, hmeet⟩
      exact h ⟨front, u, back ++ [t], by simp, hmeet⟩
    have hne : ∀ latest ∈ ts.reverse.head?, latest.move ≠ t.move := by
      intro latest hlatest hmove
      exact h ⟨ts, t, [], rfl, latest, by rwa [ih hfront], merge_ne_unmerged_iff.2 hmove⟩
    rw [List.foldl_append, ih hfront, List.foldl_cons, List.foldl_nil, mergeOnto_of_ne hne]
    simp

theorem length_reduceRound_lt (h : Merges (sortRuns ts)) : (reduceRound ts).length < ts.length := by
  have hlt := length_mergeNeighbours_lt h
  rwa [(sortRuns_perm ts).length_eq] at hlt

theorem reduceRound_of_not_merges (h : ¬ Merges (sortRuns ts)) : reduceRound ts = sortRuns ts :=
  mergeNeighbours_of_not_merges h

/-- After a round that only sorts, a round changes nothing. -/
theorem reduceRound_reduceRound_of_not_merges (h : ¬ Merges (sortRuns ts)) :
    reduceRound (reduceRound ts) = reduceRound ts := by
  refine reduceRound_reduceRound ?_
  rw [reduceRound_of_not_merges h, (sortRuns_perm ts).length_eq]

/-! ## Rounds one after the other -/

/-- Rounds that merge take a turn each; one that only sorts and one that changes nothing follow at
    most. -/
theorem Settles.le (h : Settles ts n us) : n ≤ ts.length + 2 := by
  induction h with
  | unchanged => omega
  | @changed ts us n h rest ih =>
    by_cases hmerges : Merges (sortRuns ts)
    · have hlt := length_reduceRound_lt hmerges
      omega
    · cases rest with
      | unchanged => omega
      | changed hnext => exact absurd (reduceRound_reduceRound_of_not_merges hmerges) hnext

/-- Any fuel for all the rounds is enough. -/
theorem Settles.settle_eq {fuel : Nat} (h : Settles ts n us) (hle : n ≤ fuel) :
    settle fuel ts = us := by
  induction h generalizing fuel with
  | unchanged h =>
    obtain ⟨fuel, rfl⟩ : ∃ k, fuel = k + 1 := ⟨fuel - 1, by omega⟩
    simp [settle, h]
  | changed h rest ih =>
    obtain ⟨fuel, rfl⟩ : ∃ k, fuel = k + 1 := ⟨fuel - 1, by omega⟩
    simp [settle, h, ih (Nat.le_of_succ_le_succ hle)]

/-- If fuel is enough for a reduced list, rounds without a bound come to an end on it. -/
theorem exists_settles {fuel : Nat} (h : Reduced (settle fuel ts)) :
    ∃ n, Settles ts n (settle fuel ts) := by
  induction fuel generalizing ts with
  | zero => exact ⟨1, .unchanged (reduceRound_eq_self_iff.2 h)⟩
  | succ fuel ih =>
    by_cases hfixed : reduceRound ts = ts
    · exact ⟨1, by simpa [settle, hfixed] using Settles.unchanged hfixed⟩
    · simp only [settle, beq_iff_eq, if_neg hfixed] at h ⊢
      obtain ⟨n, hn⟩ := ih h
      exact ⟨n + 1, .changed hfixed hn⟩

/-- **Rounds come to an end**: after two more than there are turns at most, and with the reduced
    list. A round that merges or cancels turns shortens the list, and after one that only sorts the
    next changes nothing. -/
theorem rounds_come_to_an_end (ts : List Turn) :
    (∃ n us, Settles ts n us)
      ∧ (∀ n us, Settles ts n us → n ≤ ts.length + 2 ∧ us = reduce ts)
      ∧ (Merges (sortRuns ts) → (reduceRound ts).length < ts.length)
      ∧ (¬ Merges (sortRuns ts) →
          reduceRound ts = sortRuns ts ∧ reduceRound (reduceRound ts) = reduceRound ts) := by
  refine ⟨?_, ?_, length_reduceRound_lt, ?_⟩
  · obtain ⟨n, hn⟩ := exists_settles (reduced_reduce ts)
    exact ⟨n, _, hn⟩
  · intro n us h
    exact ⟨h.le, (h.settle_eq h.le).symm⟩
  · intro h
    exact ⟨reduceRound_of_not_merges h, reduceRound_reduceRound_of_not_merges h⟩

/-- Two turns cancel between two that come to stand in the wrong order: a round merges, the next only
    sorts, and the third is the last. -/
theorem rounds_come_to_an_end_crossed :
    let ts : List Turn := [⟨.face .L, .cw⟩, ⟨.face .U, .cw⟩, ⟨.face .U, .ccw⟩, ⟨.face .R, .cw⟩]
    let us : List Turn := [⟨.face .R, .cw⟩, ⟨.face .L, .cw⟩]
    (Settles ts 3 us ∧ 3 ≤ ts.length + 2 ∧ us = reduce ts)
      ∧ (Merges (sortRuns ts) ∧ (reduceRound ts).length < ts.length)
      ∧ ¬ Merges (sortRuns (reduceRound ts)) ∧ reduceRound (reduceRound ts) = us
      ∧ reduceRound us = us := by
  intro ts us
  have hmerges : Merges (sortRuns ts) :=
    ⟨ts.take 2, ⟨.face .U, .ccw⟩, ts.drop 3, by decide, ⟨.face .U, .cw⟩, by decide, by decide⟩
  have hsecond : reduceRound (reduceRound ts) = us := by decide
  have hsorts : ¬ Merges (sortRuns (reduceRound ts)) := fun h =>
    absurd (length_reduceRound_lt h) (by decide)
  obtain ⟨-, -, -, hlast⟩ := rounds_come_to_an_end (reduceRound ts)
  have hthird : reduceRound us = us := hsecond ▸ (hlast hsorts).2
  have hsettles : Settles ts 3 us :=
    .changed (by decide) (.changed (by decide) (hsecond ▸ .unchanged (hsecond.symm ▸ hthird)))
  obtain ⟨-, hsettled, hshort, -⟩ := rounds_come_to_an_end ts
  exact ⟨⟨hsettles, hsettled 3 us hsettles⟩, ⟨hmerges, hshort hmerges⟩, hsorts, hsecond, hthird⟩

end Cubing.Turn
