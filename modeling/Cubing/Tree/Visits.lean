import Cubing.Tree.Rules

set_option autoImplicit false

/-! # The calls of a transformation

Rules with effects may behave differently at every call, so when they are called, and with what, is
part of what a transformation does. The order in which a tree is to be visited is fixed by the tree
alone (`Tree.postorder`). What a call is given depends on the replies to earlier calls, and only on
those for what was inside the element (`Tree.Traversal`).

To see the calls that a transformation makes, its rules are replaced by rules that do the same and
also keep a record of every call (`Rules.recorded`). -/

namespace Cubing

variable {ε σ : Type}

/-! ## Effects -/

/-- A computation that keeps a state and may fail. What it did to the state before it failed stays. -/
abbrev Effects (ε σ : Type) := ExceptT ε (StateM σ)

namespace Effects

variable {α β : Type}

/-- How a computation ends that is started in a state, and the state that it leaves. -/
def runFrom (x : Effects ε σ α) (s : σ) : Except ε α × σ := (x.run.run s).run

@[simp] theorem runFrom_pure (a : α) (s : σ) :
    runFrom (pure a : Effects ε σ α) s = (.ok a, s) := rfl

/-- The next computation starts in the state that the last one has left, and only if that one has not
    failed. -/
theorem runFrom_bind (x : Effects ε σ α) (f : α → Effects ε σ β) (s : σ) :
    runFrom (x >>= f) s =
      match x.runFrom s with
      | (.ok a, s') => (f a).runFrom s'
      | (.error e, s') => (.error e, s') := by
  show ((x >>= f).run.run s).run = _
  rw [ExceptT.run_bind, StateT.run_bind, runFrom]
  rcases x.run.run s with ⟨outcome, s'⟩
  cases outcome <;> rfl

end Effects

/-! ## Calls -/

namespace Rules

/-- What a rule is called with: an element, with what has taken the places of its contents. -/
inductive Visit where
  | turn (t : Turn)
  | seq (turns : List Turn)
  | bracket (kind : Bracket) (a b : List Node)
  | repeated (body : List Node) (count : UInt32)
  | root (nodes : List Node)

/-- What a rule returns. -/
abbrev Visit.Reply : Visit → Type
  | turn _ => Replacement Turn
  | seq _ | bracket .. | repeated .. => Replacement Node
  | root _ => Tree

/-- Calls the rule for the element that is visited. -/
def answer {m : Type → Type} [Monad m] (r : Rules m) : (v : Visit) → m v.Reply
  | .turn t => r.turn t
  | .seq ts => r.seq ts
  | .bracket kind a b => r.bracket kind a b
  | .repeated body n => r.repeated body n
  | .root nodes => r.root nodes

/-- A call of a rule and how it ended. -/
structure Call (ε : Type) where
  visit : Visit
  outcome : Except ε visit.Reply

/-- Calls a rule and notes the call down, whether it fails or not. -/
def record (r : Rules (Effects ε σ)) (v : Visit) : Effects ε (σ × List (Call ε)) v.Reply :=
  ExceptT.mk fun s =>
    let (outcome, s') := (r.answer v).runFrom s.1
    (outcome, s', s.2 ++ [⟨v, outcome⟩])

/-- The same rules, which also keep a record of all calls. -/
def recorded (r : Rules (Effects ε σ)) : Rules (Effects ε (σ × List (Call ε))) where
  turn t := r.record (.turn t)
  seq ts := r.record (.seq ts)
  bracket kind a b := r.record (.bracket kind a b)
  repeated body n := r.record (.repeated body n)
  root nodes := r.record (.root nodes)

end Rules

/-! ## Post-order -/

/-- What an element is, apart from what is inside it. -/
inductive Label where
  | turn (t : Turn)
  | seq
  | bracket (kind : Bracket)
  | repeated (count : UInt32)
  | root
  deriving DecidableEq

def Rules.Visit.label : Visit → Label
  | turn t => .turn t
  | seq _ => .seq
  | bracket kind _ _ => .bracket kind
  | repeated _ n => .repeated n
  | root _ => .root

def Rules.Call.label (c : Call ε) : Label := c.visit.label

mutual

/-- The elements of a node, each after what is inside it. -/
def Node.postorder : Node → List Label
  | .seq ts => ts.map .turn ++ [.seq]
  | .bracket kind a b => Node.listPostorder a ++ Node.listPostorder b ++ [.bracket kind]
  | .repeated body n => Node.listPostorder body ++ [.repeated n]

def Node.listPostorder : List Node → List Label
  | [] => []
  | n :: ns => n.postorder ++ Node.listPostorder ns

end

/-- The elements of an algorithm, each after what is inside it, the algorithm itself last. -/
def Tree.postorder (t : Tree) : List Label := Node.listPostorder t ++ [.root]

example : Tree.postorder [.bracket .commutator [.seq [⟨.face .R, .cw⟩]] [.repeated [] 2], .seq []]
    = [.turn ⟨.face .R, .cw⟩, .seq, .repeated 2, .bracket .commutator, .seq, .root] := by decide

/-! ## Traversals -/

namespace Rules

/-- Calls, none of which failed, for some turns in order, and what takes the places of the turns. -/
inductive TurnsVisited : List Turn → List (Call ε) → List Turn → Prop where
  | nil : TurnsVisited [] [] []
  | cons {t : Turn} {ts after : List Turn} {calls : List (Call ε)} (reply : Replacement Turn)
    (rest : TurnsVisited ts calls after) :
    TurnsVisited (t :: ts) (⟨.turn t, .ok reply⟩ :: calls) (reply.toList ++ after)

mutual

/-- Calls, none of which failed, that visit what is inside a node and then the node, and what takes
    its place: the call for the node is given what has taken the places of its contents. -/
inductive NodeVisited : Node → List (Call ε) → Replacement Node → Prop where
  | seq {ts ts' : List Turn} {calls : List (Call ε)} (turns : TurnsVisited ts calls ts')
    (reply : Replacement Node) :
    NodeVisited (.seq ts) (calls ++ [⟨.seq ts', .ok reply⟩]) reply
  | bracket {kind : Bracket} {a a' b b' : List Node} {callsA callsB : List (Call ε)}
    (first : Visited a callsA a') (second : Visited b callsB b') (reply : Replacement Node) :
    NodeVisited (.bracket kind a b) (callsA ++ callsB ++ [⟨.bracket kind a' b', .ok reply⟩]) reply
  | repeated {body body' : List Node} {n : UInt32} {calls : List (Call ε)}
    (inside : Visited body calls body') (reply : Replacement Node) :
    NodeVisited (.repeated body n) (calls ++ [⟨.repeated body' n, .ok reply⟩]) reply

/-- Calls, none of which failed, for some nodes in order, and what takes the places of the nodes. -/
inductive Visited : List Node → List (Call ε) → List Node → Prop where
  | nil : Visited [] [] []
  | cons {n : Node} {ns after : List Node} {calls later : List (Call ε)} {reply : Replacement Node}
    (node : NodeVisited n calls reply) (rest : Visited ns later after) :
    Visited (n :: ns) (calls ++ later) (reply.toList ++ after)

end

end Rules

/-- Calls that visit all of an algorithm, and the algorithm that the last of them returns. -/
def Tree.Traversal (t : Tree) (calls : List (Rules.Call ε)) (t' : Tree) : Prop :=
  ∃ before nodes, Rules.Visited t before nodes ∧ calls = before ++ [⟨.root nodes, .ok t'⟩]

end Cubing
