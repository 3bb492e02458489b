import Cubing.Tree

set_option autoImplicit false

/-! # Undoing an algorithm

To undo a list of elements, undo each, the last one first. Groups stay groups: a conjugate keeps its
first side and undoes the second, a commutator swaps its sides, and a repetition undoes its
contents. -/

namespace Cubing

mutual

/-- The node that undoes a node. -/
def Node.inv : Node → Node
  | .seq ts => .seq (Turn.invList ts)
  | .bracket .conjugate a b => .bracket .conjugate a (Node.invEach b).reverse
  | .bracket .commutator a b => .bracket .commutator b a
  | .repeated body n => .repeated (Node.invEach body).reverse n

def Node.invEach : List Node → List Node
  | [] => []
  | n :: ns => n.inv :: Node.invEach ns

end

/-- The algorithm that undoes an algorithm. -/
def Tree.inv (t : Tree) : Tree := (Node.invEach t).reverse

/-! ## Equations -/

namespace Node

@[simp] theorem inv_seq (ts : List Turn) : (seq ts).inv = seq (Turn.invList ts) := rfl

@[simp] theorem inv_conjugate (a b : List Node) :
    (bracket .conjugate a b).inv = bracket .conjugate a (Tree.inv b) := rfl

@[simp] theorem inv_commutator (a b : List Node) :
    (bracket .commutator a b).inv = bracket .commutator b a := rfl

@[simp] theorem inv_repeated (body : List Node) (n : UInt32) :
    (repeated body n).inv = repeated (Tree.inv body) n := rfl

theorem invEach_eq_map (ns : List Node) : invEach ns = ns.map inv := by
  induction ns with
  | nil => rfl
  | cons n ns ih => simp [invEach, ih]

end Node

namespace Tree

theorem inv_eq (t : Tree) : t.inv = (t.map Node.inv).reverse := by
  simp [inv, Node.invEach_eq_map]

@[simp] theorem inv_nil : inv [] = [] := rfl

@[simp] theorem inv_cons (n : Node) (t : Tree) : inv (n :: t) = inv t ++ [n.inv] := by
  simp [inv_eq]

@[simp] theorem inv_append (s t : Tree) : inv (s ++ t) = inv t ++ inv s := by
  simp [inv_eq]

@[simp] theorem length_inv (t : Tree) : t.inv.length = t.length := by simp [inv_eq]

/-! ## What relates an algorithm to its inverse -/

/-- A relation between lists of nodes that holds between each kind of element and its inverse, if it
    holds for the lists that are undone within it, and that turns around with the order of a list. -/
structure RelatesInverse (R : Tree → Tree → Prop) : Prop where
  nil : R [] []
  append {s s' t t' : Tree} (hs : R s s') (ht : R t t') : R (s ++ t) (t' ++ s')
  seq (ts : List Turn) : R [.seq ts] [.seq (Turn.invList ts)]
  conjugate (a : Tree) {b b' : Tree} (hb : R b b') :
    R [.bracket .conjugate a b] [.bracket .conjugate a b']
  commutator (a b : Tree) : R [.bracket .commutator a b] [.bracket .commutator b a]
  repeated {body body' : Tree} (n : UInt32) (hbody : R body body') :
    R [.repeated body n] [.repeated body' n]

/-- **What relates elements to their inverses relates an algorithm to its inverse.** -/
theorem RelatesInverse.inv {R : Tree → Tree → Prop} (h : RelatesInverse R) (t : Tree) :
    R t t.inv := by
  induction t using Tree.induction with
  | nil => exact h.nil
  | seq ts t ih =>
    rw [inv_cons]
    exact h.append (h.seq ts) ih
  | bracket kind a b t iha ihb ih =>
    rw [inv_cons]
    cases kind with
    | conjugate => exact h.append (h.conjugate a ihb) ih
    | commutator => exact h.append (h.commutator a b) ih
  | repeated body n t ihbody ih =>
    rw [inv_cons]
    exact h.append (h.repeated n ihbody) ih

end Tree

end Cubing
