import Cubing.Turn

set_option autoImplicit false

/-! # Reducing a list of turns

Neighbouring turns of the same move add up, and turns along the same axis may trade places first.
Reduction does both, round after round, until a round changes nothing. One round cuts the list into
its *runs*, the longest stretches of turns along one axis, lists each run's turns move by move, and
then merges neighbours from left to right.

A merge can bring two runs of the same axis together, so one round need not be enough; but a round
that merges nothing only sorts, and sorting twice is sorting once. So the length of the list bounds
the number of rounds, and `reduce` runs on that bound. -/

namespace Cubing

namespace Turn

/-! ## Runs of parallel turns -/

/-- Whether two turns belong to one run: their moves have the same layer axis, or both are
    rotations. -/
def sameAxis (a b : Turn) : Bool := a.move.layerAxis? = b.move.layerAxis?

/-- The longest stretches of turns along one axis, in order. Stretches of rotations are runs too. -/
def runs (ts : List Turn) : List (List Turn) := ts.splitBy sameAxis

/-- The turns of a list move by move, in the order of `Move.all`, turns of one move in their given
    order. Since every turn has a move, this is the stable sort of the list by move. -/
def byMove (ts : List Turn) : List Turn := Move.all.flatMap fun m => ts.filter (·.move = m)

/-- Sorts one run. Rotations do not commute, so a run of rotations stays as it is. -/
def sortRun (run : List Turn) : List Turn := if run.any isRotation then run else byMove run

def sortRuns (ts : List Turn) : List Turn := (runs ts).flatMap sortRun

/-! ## Merging neighbours -/

/-- Adds a turn to a list of merged turns, latest first: it merges with the latest turn if both are
    of the same move. -/
def mergeOnto (done : List Turn) (t : Turn) : List Turn :=
  match done with
  | [] => [t]
  | latest :: earlier =>
    match merge latest t with
    | .cancelled => earlier
    | .merged u => u :: earlier
    | .unmerged _ _ => t :: done

/-- Merges neighbours of the same move from left to right. -/
def mergeNeighbours (ts : List Turn) : List Turn := (ts.foldl mergeOnto []).reverse

theorem length_mergeOnto_le (done : List Turn) (t : Turn) :
    (mergeOnto done t).length ≤ done.length + 1 := by
  unfold mergeOnto
  cases done with
  | nil => simp
  | cons latest earlier =>
    dsimp only
    split
    · simp
      omega
    · simp
    · simp

/-- Merging never adds turns. -/
theorem length_mergeNeighbours_le (ts : List Turn) : (mergeNeighbours ts).length ≤ ts.length := by
  suffices h : ∀ done : List Turn, (ts.foldl mergeOnto done).length ≤ done.length + ts.length by
    simpa [mergeNeighbours] using h []
  induction ts with
  | nil => simp
  | cons t ts ih =>
    intro done
    have hstep := length_mergeOnto_le done t
    have hrest := ih (mergeOnto done t)
    simp only [List.foldl_cons, List.length_cons]
    omega

/-! ## Rounds -/

/-- One round: sort every run, then merge neighbours. -/
def reduceRound (ts : List Turn) : List Turn := mergeNeighbours (sortRuns ts)

/-- Repeats rounds until one changes nothing, at most as many as the fuel allows. -/
def settle : Nat → List Turn → List Turn
  | 0, ts => ts
  | fuel + 1, ts =>
    let next := reduceRound ts
    if next == ts then ts else settle fuel next

/-- The reduced form of a list of turns: no round changes it any more. -/
def reduce (ts : List Turn) : List Turn := settle (ts.length + 2) ts

@[simp] theorem reduce_nil : reduce [] = [] := rfl

/-- Rounds without a bound on their number: `Settles ts n us` says that the `n`-th round from `ts` on
    is the first that changes nothing, and that it leaves `us` as it is. -/
inductive Settles : List Turn → Nat → List Turn → Prop where
  | unchanged {ts : List Turn} (h : reduceRound ts = ts) : Settles ts 1 ts
  | changed {ts us : List Turn} {n : Nat} (h : reduceRound ts ≠ ts)
      (rest : Settles (reduceRound ts) n us) : Settles ts (n + 1) us

end Turn

end Cubing
