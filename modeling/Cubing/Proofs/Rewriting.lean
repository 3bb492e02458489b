import Cubing.Tree.Rules

set_option autoImplicit false

/-! # What rules keep

The principle behind every transformation without effects: if each rule relates what it is given to
what it puts in its place, for any contents that are already related, then the whole transformation
relates an algorithm to what becomes of it (`Rules.Relates.listTransformM`). The relation is one of
lists of nodes, since an element may be replaced by several or by none, and it has to hold piece by
piece.

With a relation that ignores its first argument this is how rules establish a shape. -/

namespace Cubing

variable {r : Rules Id} {R : Tree → Tree → Prop}

/-- Rules that keep turns and relate every element to what they put in its place. -/
structure Rules.Relates (r : Rules Id) (R : Tree → Tree → Prop) : Prop where
  turn (t : Turn) : r.turn t = pure (.keep t)
  nil : R [] []
  append {a a' b b' : Tree} (ha : R a a') (hb : R b b') : R (a ++ b) (a' ++ b')
  seq (ts : List Turn) : R [.seq ts] (r.seq ts).run.toList
  bracket (kind : Bracket) {a a' b b' : Tree} (ha : R a a') (hb : R b b') :
    R [.bracket kind a b] (r.bracket kind a' b').run.toList
  repeated {body body' : Tree} (n : UInt32) (hbody : R body body') :
    R [.repeated body n] (r.repeated body' n).run.toList

/-! ## Transformations step by step -/

@[simp] theorem Node.listTransformM_nil (r : Rules Id) :
    (Node.listTransformM r []).run = [] := rfl

@[simp] theorem Node.listTransformM_cons (r : Rules Id) (n : Node) (ns : List Node) :
    (Node.listTransformM r (n :: ns)).run
      = (n.transformM r).run.toList ++ (Node.listTransformM r ns).run := rfl

theorem Node.listTransformM_append (r : Rules Id) (s t : List Node) :
    (Node.listTransformM r (s ++ t)).run
      = (Node.listTransformM r s).run ++ (Node.listTransformM r t).run := by
  induction s with
  | nil => rfl
  | cons n s ih => simp [ih]

theorem Node.transformM_seq (h : ∀ t, r.turn t = pure (.keep t)) (ts : List Turn) :
    (Node.seq ts).transformM r = r.seq ts := by
  rw [Node.transformM, Rules.transformTurns_of_keep r h, pure_bind]

@[simp] theorem Node.transformM_bracket (r : Rules Id) (kind : Bracket) (a b : List Node) :
    (Node.bracket kind a b).transformM r
      = r.bracket kind (Node.listTransformM r a).run (Node.listTransformM r b).run := rfl

@[simp] theorem Node.transformM_repeated (r : Rules Id) (body : List Node) (n : UInt32) :
    (Node.repeated body n).transformM r = r.repeated (Node.listTransformM r body).run n := rfl

/-- Rules that put one node in the place of each node of a list map the list. -/
theorem Node.listTransformM_eq_map {f : Node → Node} {ns : List Node}
    (h : ∀ n ∈ ns, (n.transformM r).run = .keep (f n)) :
    (Node.listTransformM r ns).run = ns.map f := by
  induction ns with
  | nil => rfl
  | cons n ns ih =>
    have hn := h n List.mem_cons_self
    rw [listTransformM_cons, hn, ih fun m hm => h m (List.mem_cons_of_mem n hm)]
    rfl

namespace Rules.Relates

/-- **What rules relate element by element they relate as a whole.** -/
theorem listTransformM (h : r.Relates R) (t : Tree) : R t (Node.listTransformM r t).run := by
  induction t using Tree.induction with
  | nil => exact h.nil
  | seq ts t ih =>
    rw [Node.listTransformM_cons, Node.transformM_seq h.turn]
    exact h.append (h.seq ts) ih
  | bracket kind a b t iha ihb ih =>
    rw [Node.listTransformM_cons, Node.transformM_bracket]
    exact h.append (h.bracket kind iha ihb) ih
  | repeated body n t ihbody ih =>
    rw [Node.listTransformM_cons, Node.transformM_repeated]
    exact h.append (h.repeated n ihbody) ih

end Rules.Relates

end Cubing
