import Cubing.Tree

set_option autoImplicit false

/-! # Replacing elements from the leaves up

A set of `Rules` says, for each kind of element, what stands in its place once everything inside it
has been replaced: nothing, one element, or several. `Tree.transformM` applies rules to a whole tree.
It meets every turn before its sequence, the first side of a bracket before the second, the inside
of a group before the group, and the whole list of top-level elements last; what a rule returns is
not met again.

The rules act in a monad, so they may keep state from one element to the next and may fail, which
ends the transformation. Rules without effects are rules in `Id`. -/

namespace Cubing

/-- What to put in place of an element. -/
inductive Replacement (α : Type) where
  | remove
  | keep (x : α)
  | splice (xs : List α)

namespace Replacement

variable {α : Type}

/-- The elements that are put in place. -/
def toList : Replacement α → List α
  | remove => []
  | keep x => [x]
  | splice xs => xs

/-- Keeps an element that is there and removes one that is not. -/
def ofOption : Option α → Replacement α
  | none => remove
  | some x => keep x

@[simp] theorem toList_ofOption (x? : Option α) : (ofOption x?).toList = x?.toList := by
  cases x? <;> rfl

end Replacement

/-- One rule for each kind of element. A rule that is not given puts the element back. -/
structure Rules (m : Type → Type) [Monad m] where
  turn : Turn → m (Replacement Turn) := fun t => pure (.keep t)
  seq : List Turn → m (Replacement Node) := fun ts => pure (.keep (.seq ts))
  bracket : Bracket → List Node → List Node → m (Replacement Node) :=
    fun kind a b => pure (.keep (.bracket kind a b))
  repeated : List Node → UInt32 → m (Replacement Node) :=
    fun body n => pure (.keep (.repeated body n))
  /-- Replaces the top-level elements. -/
  root : List Node → m Tree := pure

section

variable {m : Type → Type} [Monad m]

/-- What takes the places of the turns of a sequence, in order. -/
def Rules.transformTurns (r : Rules m) (ts : List Turn) : m (List Turn) := do
  return (← ts.mapM r.turn).flatMap Replacement.toList

mutual

/-- Replaces a node: first what is in it, then the node itself. -/
def Node.transformM (r : Rules m) : Node → m (Replacement Node)
  | .seq ts => do r.seq (← r.transformTurns ts)
  | .bracket kind a b => do
    let a ← Node.listTransformM r a
    let b ← Node.listTransformM r b
    r.bracket kind a b
  | .repeated body n => do r.repeated (← Node.listTransformM r body) n

/-- Replaces the nodes of a list one after the other and joins what takes their places. -/
def Node.listTransformM (r : Rules m) : List Node → m (List Node)
  | [] => pure []
  | n :: ns => do
    let here ← n.transformM r
    let there ← Node.listTransformM r ns
    return here.toList ++ there

end

/-- Transforms a tree: first every top-level element, then the list of them. -/
def Tree.transformM (r : Rules m) (t : Tree) : m Tree := do r.root (← Node.listTransformM r t)

end

def Tree.transform (r : Rules Id) (t : Tree) : Tree := (t.transformM r).run

/-! ## Turn by turn -/

section

variable {m : Type → Type} [Monad m] [LawfulMonad m] (r : Rules m)

theorem Rules.transformTurns_nil : r.transformTurns [] = pure [] := by simp [transformTurns]

/-- What takes the place of the first turn stands first. -/
theorem Rules.transformTurns_cons (t : Turn) (ts : List Turn) :
    r.transformTurns (t :: ts) = do
      let here ← r.turn t
      let there ← r.transformTurns ts
      return here.toList ++ there := by
  simp [transformTurns]

end

/-! ## Rules that keep turns -/

/-- Rules that put every turn back leave the turns of a sequence alone. -/
theorem Rules.transformTurns_of_keep {m : Type → Type} [Monad m] [LawfulMonad m] (r : Rules m)
    (h : ∀ t, r.turn t = pure (.keep t)) (ts : List Turn) : r.transformTurns ts = pure ts := by
  have hturn : r.turn = fun t => pure (.keep t) := funext h
  rw [Rules.transformTurns, hturn, List.mapM_pure]
  simp [List.flatMap_map, Replacement.toList]

end Cubing
