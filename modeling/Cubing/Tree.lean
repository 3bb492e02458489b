import Cubing.Turn

set_option autoImplicit false

/-! # Algorithms as trees

An algorithm is a list of *nodes*, each of them a sequence of turns, a bracket of two lists (a
conjugate or a commutator), or a list repeated a number of times. The tree keeps what was written;
expansion, inversion and simplification are functions on it.

Recursion over a tree is a pair of functions, one on nodes and one on lists of nodes, since a node
holds lists of nodes. -/

namespace Cubing

/-- The two brackets. -/
inductive Bracket where
  /-- `[A, B]`, which does `A`, `B`, `A` undone, `B` undone. -/
  | commutator
  /-- `[A: B]`, which does `A`, `B`, `A` undone. -/
  | conjugate
  deriving DecidableEq

namespace Bracket

def name : Bracket → String
  | commutator => "commutator"
  | conjugate => "conjugate"

/-- The character between the two sides. -/
def separator : Bracket → Char
  | commutator => ','
  | conjugate => ':'

end Bracket

/-- One element of an algorithm. -/
inductive Node where
  /-- Turns without grouping, such as `R U R' U'`. -/
  | seq (turns : List Turn)
  /-- A conjugate or a commutator with its two sides. -/
  | bracket (kind : Bracket) (a b : List Node)
  /-- A list done a number of times, such as `(R U)3`. -/
  | repeated (body : List Node) (count : UInt32)

/-- A whole algorithm: the elements at top level. -/
abbrev Tree := List Node

namespace Node

/-! ## Equality -/

mutual

/-- Equality of nodes is decided side by side. -/
def decEq : (m n : Node) → Decidable (m = n)
  | seq ts, seq us => decidable_of_iff (ts = us) (by simp)
  | bracket k a b, bracket l c d =>
    match decEqList a c, decEqList b d with
    | isTrue ha, isTrue hb => decidable_of_iff (k = l) (by simp [ha, hb])
    | isFalse ha, _ => isFalse (by simp [ha])
    | _, isFalse hb => isFalse (by simp [hb])
  | repeated a n, repeated b m =>
    match decEqList a b with
    | isTrue ha => decidable_of_iff (n = m) (by simp [ha])
    | isFalse ha => isFalse (by simp [ha])
  | seq _, bracket .. | seq _, repeated .. | bracket .., seq _ | bracket .., repeated ..
  | repeated .., seq _ | repeated .., bracket .. => isFalse (by simp)

def decEqList : (xs ys : List Node) → Decidable (xs = ys)
  | [], [] => isTrue rfl
  | [], _ :: _ | _ :: _, [] => isFalse (by simp)
  | x :: xs, y :: ys =>
    match decEq x y, decEqList xs ys with
    | isTrue hx, isTrue hxs => isTrue (by simp [hx, hxs])
    | isFalse hx, _ => isFalse (by simp [hx])
    | _, isFalse hxs => isFalse (by simp [hxs])

end

instance : DecidableEq Node := decEq

/-! ## Sequences -/

/-- The turns of a sequence; none for a group. -/
def turns? : Node → Option (List Turn)
  | seq ts => some ts
  | bracket .. | repeated .. => none

def isSeq (n : Node) : Bool := n.turns?.isSome

end Node

namespace Tree

/-- Induction over a whole algorithm, groups included: the first element is a sequence, a bracket or
    a repetition, and the statement holds within it and for the elements that follow. -/
@[elab_as_elim]
theorem induction {motive : Tree → Prop} (nil : motive [])
    (seq : ∀ ts t, motive t → motive (.seq ts :: t))
    (bracket : ∀ kind a b t, motive a → motive b → motive t → motive (.bracket kind a b :: t))
    (repeated : ∀ body n t, motive body → motive t → motive (.repeated body n :: t)) :
    (t : Tree) → motive t
  | [] => nil
  | .seq ts :: t => seq ts t (induction nil seq bracket repeated t)
  | .bracket kind a b :: t =>
    bracket kind a b t (induction nil seq bracket repeated a)
      (induction nil seq bracket repeated b) (induction nil seq bracket repeated t)
  | .repeated body n :: t =>
    repeated body n t (induction nil seq bracket repeated body)
      (induction nil seq bracket repeated t)

/-- All turns of an algorithm in order, if it has no groups at top level. -/
def turns? : Tree → Option (List Turn)
  | [] => some []
  | n :: ns => do return (← n.turns?) ++ (← turns? ns)

/-- The turns of the sequences at top level in order, whatever stands between them. -/
def topTurns (t : Tree) : List Turn := t.flatMap fun n => n.turns?.getD []

@[simp] theorem turns?_nil : turns? [] = some [] := rfl

@[simp] theorem topTurns_nil : topTurns [] = [] := rfl

@[simp] theorem topTurns_seq (ts : List Turn) (t : Tree) :
    topTurns (.seq ts :: t) = ts ++ topTurns t := rfl

theorem turns?_cons_eq_some_iff {n : Node} {t : Tree} {ts : List Turn} :
    turns? (n :: t) = some ts ↔ ∃ us vs, n.turns? = some us ∧ t.turns? = some vs ∧ us ++ vs = ts := by
  simp only [turns?, Option.bind_eq_bind, Option.pure_def, Option.bind_eq_some_iff,
    Option.some.injEq]
  constructor
  · rintro ⟨us, hus, vs, hvs, rfl⟩
    exact ⟨us, vs, hus, hvs, rfl⟩
  · rintro ⟨us, vs, hus, hvs, rfl⟩
    exact ⟨us, hus, vs, hvs, rfl⟩

/-- The turns at top level of one algorithm after another. -/
theorem turns?_append_eq_some_iff {s t : Tree} {ts : List Turn} :
    Tree.turns? (s ++ t) = some ts ↔
      ∃ us vs, s.turns? = some us ∧ t.turns? = some vs ∧ us ++ vs = ts := by
  induction s generalizing ts with
  | nil => simp
  | cons n s ih =>
    simp only [List.cons_append, turns?_cons_eq_some_iff, ih]
    constructor
    · rintro ⟨us, vs, hus, ⟨vs', ws, hvs', hws, rfl⟩, rfl⟩
      exact ⟨us ++ vs', ws, ⟨us, vs', hus, hvs', rfl⟩, hws, List.append_assoc ..⟩
    · rintro ⟨us, vs, ⟨us', ws, hus', hws, rfl⟩, hvs, rfl⟩
      exact ⟨us', ws ++ vs, hus', ⟨ws, vs, hws, hvs, rfl⟩, (List.append_assoc ..).symm⟩

theorem turns?_append {s t : Tree} {ts us : List Turn} (hs : s.turns? = some ts)
    (ht : t.turns? = some us) : Tree.turns? (s ++ t) = some (ts ++ us) :=
  turns?_append_eq_some_iff.2 ⟨ts, us, hs, ht, rfl⟩

/-- Where all turns are at top level, both views agree. -/
theorem topTurns_of_turns? {t : Tree} {ts : List Turn} (h : t.turns? = some ts) :
    t.topTurns = ts := by
  induction t generalizing ts with
  | nil => simpa [turns?] using h
  | cons n ns ih =>
    obtain ⟨us, vs, hus, hvs, rfl⟩ := turns?_cons_eq_some_iff.1 h
    simpa [topTurns, hus] using ih hvs

end Tree

end Cubing
