import Cubing.Tree

set_option autoImplicit false

/-! # Counting turns without expanding

A short text can expand to more turns than could ever be held, so the length of the expansion is
computed from the tree. Counting is capped: every sum and product stops at `Count.cap`, the largest
64-bit word. -/

namespace Cubing

namespace Count

/-- The largest count. -/
def cap : Nat := UInt64.size - 1

def add (m n : Nat) : Nat := min (m + n) cap

def mul (m n : Nat) : Nat := min (m * n) cap

end Count

mutual

/-- The number of turns a node expands to, capped. -/
def Node.turnCount : Node → Nat
  | .seq ts => min ts.length Count.cap
  | .bracket .commutator a b => Count.mul (Count.add (Node.listTurnCount a) (Node.listTurnCount b)) 2
  | .bracket .conjugate a b => Count.add (Count.mul (Node.listTurnCount a) 2) (Node.listTurnCount b)
  | .repeated body n => Count.mul (Node.listTurnCount body) n.toNat

def Node.listTurnCount : List Node → Nat
  | [] => 0
  | n :: ns => Count.add n.turnCount (Node.listTurnCount ns)

end

def Tree.turnCount (t : Tree) : Nat := Node.listTurnCount t

end Cubing
