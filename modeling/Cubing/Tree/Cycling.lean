import Cubing.Tree.Sequencing
import Cubing.Tree.TurnCount

set_option autoImplicit false

/-! # Repeating element by element

A repetition can be carried out by copying its contents one element at a time, starting anew whenever
they run out. How many copies there have to be is a product of two counts, and it is capped like every
product of counts, so a repetition that has more elements than can be counted is cut short.

`Tree.sequenceByCycling` is sequencing with repetitions carried out in this way. It agrees with
`Tree.sequence` wherever the expansion does not have more elements than can be counted. -/

namespace Cubing

/-- The first elements of what is left of a round, and then of round after round of a list. A list
    without elements has no rounds. -/
def Node.cycleFrom (body : List Node) : List Node → Nat → List Node
  | _, 0 => []
  | n :: rest, k + 1 => n :: Node.cycleFrom body rest k
  | [], k + 1 =>
    match body with
    | [] => []
    | n :: rest => n :: Node.cycleFrom body rest k

/-- The rules of expansion, with repetitions copied element by element. -/
def Rules.cycling : Rules Id where
  bracket := Rules.expansion.bracket
  repeated body n := pure (.splice (Node.cycleFrom body body (Count.mul body.length n.toNat)))
  root := Rules.expansion.root

theorem Rules.cycling_repeated (body : List Node) (n : UInt32) :
    Rules.cycling.repeated body n
      = pure (.splice (Node.cycleFrom body body (Count.mul body.length n.toNat))) := rfl

/-- An algorithm expanded with repetitions copied element by element. -/
def Tree.sequenceByCycling (t : Tree) : Tree := t.transform Rules.cycling

mutual

/-- The number of sequences that a node is replaced by when it is expanded, not capped. -/
def Node.sequenceCount : Node → Nat
  | .seq _ => 1
  | .bracket .commutator a b => (Node.listSequenceCount a + Node.listSequenceCount b) * 2
  | .bracket .conjugate a b => Node.listSequenceCount a * 2 + Node.listSequenceCount b
  | .repeated body n => Node.listSequenceCount body * n.toNat

def Node.listSequenceCount : List Node → Nat
  | [] => 0
  | n :: ns => n.sequenceCount + Node.listSequenceCount ns

end

/-- The number of sequences that an algorithm expands to before they are joined. -/
def Tree.sequenceCount (t : Tree) : Nat := Node.listSequenceCount t

/-! ## Equations -/

namespace Tree

@[simp] theorem sequenceCount_nil : sequenceCount [] = 0 := rfl

@[simp] theorem sequenceCount_cons (n : Node) (t : Tree) :
    sequenceCount (n :: t) = n.sequenceCount + sequenceCount t := rfl

@[simp] theorem sequenceCount_append (s t : Tree) :
    sequenceCount (s ++ t) = sequenceCount s + sequenceCount t := by
  induction s with
  | nil => simp
  | cons n s ih => simp [ih, Nat.add_assoc]

end Tree

namespace Node

@[simp] theorem sequenceCount_seq (ts : List Turn) : (seq ts).sequenceCount = 1 := rfl

@[simp] theorem sequenceCount_commutator (a b : List Node) :
    (bracket .commutator a b).sequenceCount
      = (Tree.sequenceCount a + Tree.sequenceCount b) * 2 := by
  rw [sequenceCount]; rfl

@[simp] theorem sequenceCount_conjugate (a b : List Node) :
    (bracket .conjugate a b).sequenceCount
      = Tree.sequenceCount a * 2 + Tree.sequenceCount b := by
  rw [sequenceCount]; rfl

@[simp] theorem sequenceCount_repeated (body : List Node) (n : UInt32) :
    (repeated body n).sequenceCount = Tree.sequenceCount body * n.toNat := by
  rw [sequenceCount]; rfl

end Node

end Cubing
