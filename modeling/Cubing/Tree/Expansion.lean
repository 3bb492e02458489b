import Cubing.Tree

set_option autoImplicit false

/-! # What a tree stands for

Every tree stands for a list of turns, its *expansion*. A sequence stands for its turns, a conjugate
`[A: B]` for `A`, `B` and `A` undone, a commutator `[A, B]` for `A`, `B`, `A` undone and `B` undone,
a repetition for its contents again and again, and a list for its elements one after the other.

The expansion is what all other functions on trees are measured against: it is defined by what
brackets and counts mean, without a word about how an expansion is carried out. -/

namespace Cubing

/-- A list of turns done a number of times. -/
def Turn.timesList (ts : List Turn) (n : Nat) : List Turn := (List.replicate n ts).flatten

/-- The turns that a bracket of two lists of turns stands for. -/
def Bracket.expand (as bs : List Turn) : Bracket → List Turn
  | conjugate => as ++ bs ++ Turn.invList as
  | commutator => as ++ bs ++ Turn.invList as ++ Turn.invList bs

mutual

/-- The turns that a node stands for. -/
def Node.expand : Node → List Turn
  | .seq ts => ts
  | .bracket kind a b => kind.expand (Node.listExpand a) (Node.listExpand b)
  | .repeated body n => Turn.timesList (Node.listExpand body) n.toNat

def Node.listExpand : List Node → List Turn
  | [] => []
  | n :: ns => n.expand ++ Node.listExpand ns

end

def Tree.expand (t : Tree) : List Turn := Node.listExpand t

/-! ## Equations -/

namespace Tree

@[simp] theorem expand_nil : expand [] = [] := rfl

@[simp] theorem expand_cons (n : Node) (t : Tree) : expand (n :: t) = n.expand ++ expand t := rfl

@[simp] theorem expand_append (s t : Tree) : expand (s ++ t) = expand s ++ expand t := by
  induction s with
  | nil => rfl
  | cons n s ih => simp [ih]

/-- Where all turns are at top level, they are what the algorithm stands for. -/
theorem expand_of_turns? {t : Tree} {ts : List Turn} (h : t.turns? = some ts) : t.expand = ts := by
  induction t generalizing ts with
  | nil => simpa using h
  | cons n t ih =>
    obtain ⟨us, vs, hus, hvs, rfl⟩ := turns?_cons_eq_some_iff.1 h
    cases n with
    | seq us' =>
      obtain rfl : us' = us := by simpa [Node.turns?] using hus
      rw [expand_cons, ih hvs, Node.expand]
    | bracket kind a b => cases hus
    | repeated body n => cases hus

end Tree

namespace Node

@[simp] theorem expand_seq (ts : List Turn) : (seq ts).expand = ts := rfl

@[simp] theorem expand_bracket (kind : Bracket) (a b : List Node) :
    (bracket kind a b).expand = kind.expand (Tree.expand a) (Tree.expand b) := by
  rw [expand]; rfl

@[simp] theorem expand_repeated (body : List Node) (n : UInt32) :
    (repeated body n).expand = Turn.timesList (Tree.expand body) n.toNat := by
  rw [expand]; rfl

end Node

end Cubing
