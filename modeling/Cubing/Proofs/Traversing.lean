import Cubing.Tree.Visits

set_option autoImplicit false

/-! # Transformations visit in post-order

A transformation with recording rules is followed step by step beside the same transformation with
the rules alone. `Records x y whole` says that `y` is `x` with a record: it has the outcome of `x` and
leaves its state, and the calls that it adds to the record are `whole` if `x` succeeds. If `x` fails,
they break off at a call that failed with the same error, and had that call been answered instead,
whatever the reply, more calls would have made them whole. Recording composes along a sequence of
steps (`Records.bind`), and the recursion over the tree is made of such sequences. -/

namespace Cubing

namespace Rules

variable {ε σ α β : Type}

/-! ## Recording -/

/-- Calls that lead to an outcome: all that were to be made, or those up to the first that failed. -/
def Ends (whole : List (Call ε) → α → Prop) (calls : List (Call ε)) : Except ε α → Prop
  | .ok a => whole calls a
  | .error e => ∃ before v, calls = before ++ [⟨v, .error e⟩]
      ∧ ∀ reply, ∃ later a, whole (before ++ ⟨v, .ok reply⟩ :: later) a

section

variable {whole : List (Call ε) → α → Prop} {next : α → List (Call ε) → β → Prop}
  {both : List (Call ε) → β → Prop} {calls later : List (Call ε)}

/-- Once the first calls are all made, the others lead to the outcome. -/
theorem Ends.append {a : α} {outcome : Except ε β}
    (hboth : ∀ {calls a later b}, whole calls a → next a later b → both (calls ++ later) b)
    (h : whole calls a) (h' : Ends (next a) later outcome) :
    Ends both (calls ++ later) outcome := by
  cases outcome with
  | ok b => exact hboth h h'
  | error e =>
    obtain ⟨before, v, rfl, hlater⟩ := h'
    refine ⟨calls ++ before, v, by simp, fun reply => ?_⟩
    obtain ⟨rest, b, hrest⟩ := hlater reply
    exact ⟨rest, b, by simpa using hboth h hrest⟩

/-- A failure among the first calls is the end. Had that call been answered, the first calls would
    have been made whole, and then the others. -/
theorem Ends.of_error {e : ε}
    (hboth : ∀ {calls a later b}, whole calls a → next a later b → both (calls ++ later) b)
    (h : Ends whole calls (.error e)) (hnext : ∀ a, ∃ later b, next a later b) :
    Ends both calls (.error e) := by
  obtain ⟨before, v, rfl, hlater⟩ := h
  refine ⟨before, v, rfl, fun reply => ?_⟩
  obtain ⟨rest, a, hrest⟩ := hlater reply
  obtain ⟨later, b, hb⟩ := hnext a
  exact ⟨rest ++ later, b, by simpa using hboth hrest hb⟩

end

/-- A computation, the same computation with a record of its calls, and the calls it has to make. -/
structure Records (x : Effects ε σ α) (y : Effects ε (σ × List (Call ε)) α)
    (whole : List (Call ε) → α → Prop) : Prop where
  /-- The calls to make can be made. -/
  complete : ∃ calls a, whole calls a
  runFrom (s : σ) (log : List (Call ε)) : ∃ calls,
    y.runFrom (s, log) = ((x.runFrom s).1, (x.runFrom s).2, log ++ calls)
      ∧ Ends whole calls (x.runFrom s).1

namespace Records

variable {x : Effects ε σ α} {y : Effects ε (σ × List (Call ε)) α}
  {f : α → Effects ε σ β} {g : α → Effects ε (σ × List (Call ε)) β}
  {whole : List (Call ε) → α → Prop} {next : α → List (Call ε) → β → Prop}
  {both : List (Call ε) → β → Prop}

theorem of_pure {a : α} (h : whole [] a) :
    Records (pure a : Effects ε σ α) (pure a) whole where
  complete := ⟨[], a, h⟩
  runFrom s log := ⟨[], by simp, h⟩

/-- Recording two computations one after the other is recording both. -/
theorem bind (hx : Records x y whole) (hf : ∀ a, Records (f a) (g a) (next a))
    (hboth : ∀ {calls a later b}, whole calls a → next a later b → both (calls ++ later) b) :
    Records (x >>= f) (y >>= g) both where
  complete := by
    obtain ⟨calls, a, h⟩ := hx.complete
    obtain ⟨later, b, h'⟩ := (hf a).complete
    exact ⟨calls ++ later, b, hboth h h'⟩
  runFrom s log := by
    obtain ⟨calls, hrun, hends⟩ := hx.runFrom s log
    rw [Effects.runFrom_bind, Effects.runFrom_bind, hrun]
    rcases hstep : x.runFrom s with ⟨outcome, s'⟩
    rw [hstep] at hends
    cases outcome with
    | ok a =>
      obtain ⟨later, hrun', hends'⟩ := (hf a).runFrom s' (log ++ calls)
      exact ⟨calls ++ later, by simpa using hrun', .append @hboth hends hends'⟩
    | error e => exact ⟨calls, rfl, .of_error @hboth hends fun a => (hf a).complete⟩

/-- Recording what takes the place of one element and of those that follow. -/
theorem cons {γ : Type} {x : Effects ε σ (Replacement γ)}
    {y : Effects ε (σ × List (Call ε)) (Replacement γ)} {xs : Effects ε σ (List γ)}
    {ys : Effects ε (σ × List (Call ε)) (List γ)} {first : List (Call ε) → Replacement γ → Prop}
    {rest both : List (Call ε) → List γ → Prop} (hx : Records x y first)
    (hxs : Records xs ys rest)
    (hboth : ∀ {calls reply later after}, first calls reply → rest later after →
      both (calls ++ later) (reply.toList ++ after)) :
    Records (do let here ← x; let there ← xs; return here.toList ++ there)
      (do let here ← y; let there ← ys; return here.toList ++ there) both := by
  have htail (here : Replacement γ) :
      Records (do let there ← xs; return here.toList ++ there)
        (do let there ← ys; return here.toList ++ there)
        fun later all => ∃ after, rest later after ∧ all = here.toList ++ after := by
    have hdone (there : List γ) :
        Records (pure (here.toList ++ there) : Effects ε σ (List γ)) (pure (here.toList ++ there))
          fun calls all => calls = [] ∧ all = here.toList ++ there := .of_pure ⟨rfl, rfl⟩
    refine hxs.bind hdone ?_
    rintro later there _ _ hlater ⟨rfl, rfl⟩
    exact ⟨there, by simpa using hlater, rfl⟩
  refine hx.bind htail ?_
  rintro calls here later _ hhere ⟨after, hlater, rfl⟩
  exact hboth hhere hlater

end Records

theorem Visit.nonempty_reply (v : Visit) : Nonempty v.Reply := by
  cases v with
  | root nodes => exact ⟨nodes⟩
  | turn t => exact ⟨.remove⟩
  | seq ts => exact ⟨.remove⟩
  | bracket kind a b => exact ⟨.remove⟩
  | repeated body n => exact ⟨.remove⟩

variable (r : Rules (Effects ε σ))

/-- One call is recorded as itself. -/
theorem records_answer (v : Visit) :
    Records (r.answer v) (r.record v) fun calls reply => calls = [⟨v, .ok reply⟩] where
  complete := v.nonempty_reply.elim fun reply => ⟨_, reply, rfl⟩
  runFrom s log := by
    refine ⟨[⟨v, ((r.answer v).runFrom s).1⟩], rfl, ?_⟩
    cases ((r.answer v).runFrom s).1 with
    | ok reply => rfl
    | error e => exact ⟨[], v, rfl, fun reply => ⟨[], reply, rfl⟩⟩

/-! ## Visiting a tree -/

theorem records_turns (ts : List Turn) :
    Records (r.transformTurns ts) (r.recorded.transformTurns ts) (TurnsVisited ts) := by
  induction ts with
  | nil =>
    rw [transformTurns_nil, transformTurns_nil]
    exact .of_pure .nil
  | cons t ts ih =>
    rw [transformTurns_cons, transformTurns_cons]
    refine (r.records_answer (.turn t)).cons ih ?_
    rintro _ reply later after rfl hlater
    exact .cons reply hlater

/-- **A transformation makes the calls of a traversal**, and its result is what they lead to. -/
theorem records_nodes (ns : List Node) :
    Records (Node.listTransformM r ns) (Node.listTransformM r.recorded ns) (Visited ns) := by
  induction ns using Tree.induction with
  | nil =>
    rw [Node.listTransformM, Node.listTransformM]
    exact .of_pure .nil
  | seq ts ns ih =>
    rw [Node.listTransformM, Node.listTransformM]
    have hnode : Records (Node.transformM r (.seq ts)) (Node.transformM r.recorded (.seq ts))
        (NodeVisited (.seq ts)) := by
      rw [Node.transformM, Node.transformM]
      refine (r.records_turns ts).bind (fun ts' => r.records_answer (.seq ts')) ?_
      rintro calls ts' _ reply hturns rfl
      exact .seq hturns reply
    exact hnode.cons ih .cons
  | bracket kind a b ns iha ihb ih =>
    rw [Node.listTransformM, Node.listTransformM]
    have hnode : Records (Node.transformM r (.bracket kind a b))
        (Node.transformM r.recorded (.bracket kind a b)) (NodeVisited (.bracket kind a b)) := by
      rw [Node.transformM, Node.transformM]
      have hsecond (a' : List Node) :
          Records (do let b' ← Node.listTransformM r b; r.bracket kind a' b')
            (do let b' ← Node.listTransformM r.recorded b; r.recorded.bracket kind a' b')
            fun calls reply => ∃ callsB b', Visited b callsB b'
              ∧ calls = callsB ++ [⟨.bracket kind a' b', .ok reply⟩] := by
        refine ihb.bind (fun b' => r.records_answer (.bracket kind a' b')) ?_
        rintro callsB b' _ reply hb rfl
        exact ⟨callsB, b', hb, rfl⟩
      refine iha.bind hsecond ?_
      rintro callsA a' _ reply ha ⟨callsB, b', hb, rfl⟩
      rw [← List.append_assoc]
      exact .bracket ha hb reply
    exact hnode.cons ih .cons
  | repeated body n ns ihbody ih =>
    rw [Node.listTransformM, Node.listTransformM]
    have hnode : Records (Node.transformM r (.repeated body n))
        (Node.transformM r.recorded (.repeated body n)) (NodeVisited (.repeated body n)) := by
      rw [Node.transformM, Node.transformM]
      refine ihbody.bind (fun body' => r.records_answer (.repeated body' n)) ?_
      rintro calls body' _ reply hbody rfl
      exact .repeated hbody reply
    exact hnode.cons ih .cons

theorem records_tree (t : Tree) :
    Records (t.transformM r) (t.transformM r.recorded) t.Traversal := by
  rw [Tree.transformM, Tree.transformM]
  refine (r.records_nodes t).bind (fun nodes => r.records_answer (.root nodes)) ?_
  rintro before nodes _ t' hnodes rfl
  exact ⟨before, nodes, hnodes, rfl⟩

/-! ## Post-order -/

theorem TurnsVisited.map_label {ts after : List Turn} {calls : List (Call ε)}
    (h : TurnsVisited ts calls after) : calls.map Call.label = ts.map Label.turn := by
  induction h with
  | nil => rfl
  | cons reply rest ih => simpa [Call.label, Visit.label] using ih

/-- The calls visit the elements in post-order, whatever the replies are. -/
theorem Visited.map_label {ns after : List Node} {calls : List (Call ε)}
    (h : Visited ns calls after) : calls.map Call.label = Node.listPostorder ns := by
  induction ns using Tree.induction generalizing calls after with
  | nil =>
    cases h
    rfl
  | seq ts ns ih =>
    cases h with
    | cons node rest =>
      cases node with
      | seq turns reply =>
        simp [Node.listPostorder, Node.postorder, turns.map_label, ih rest, Call.label,
          Visit.label]
  | bracket kind a b ns iha ihb ih =>
    cases h with
    | cons node rest =>
      cases node with
      | bracket first second reply =>
        simp [Node.listPostorder, Node.postorder, iha first, ihb second, ih rest, Call.label,
          Visit.label]
  | repeated body n ns ihbody ih =>
    cases h with
    | cons node rest =>
      cases node with
      | repeated inside reply =>
        simp [Node.listPostorder, Node.postorder, ihbody inside, ih rest, Call.label, Visit.label]

end Rules

namespace Tree

variable {ε σ : Type}

theorem Traversal.map_label {t t' : Tree} {calls : List (Rules.Call ε)}
    (h : t.Traversal calls t') : calls.map Rules.Call.label = t.postorder := by
  obtain ⟨before, nodes, hvisited, rfl⟩ := h
  simp [postorder, hvisited.map_label, Rules.Call.label, Rules.Visit.label]

/-- **A transformation visits every element once, in post-order, and stops at the first failure.** With
    rules that keep a state and may fail, started in any state, it ends as it does without a record
    of its calls. If it succeeds, the calls are those of a traversal: all elements in post-order, each
    given the replies for what is inside it, one after the other, and the last reply is the result.
    If it fails, the calls are a beginning of the post-order. The last of them failed, with the error
    that is the result; those before succeeded, and with any reply in place of the failure they would
    go on to be a traversal, so each of them was given what it should be. -/
theorem transformM_in_postorder (r : Rules (Effects ε σ)) (t : Tree) (s : σ) :
    ∃ calls, (t.transformM r.recorded).runFrom (s, [])
        = (((t.transformM r).runFrom s).1, ((t.transformM r).runFrom s).2, calls)
      ∧ match ((t.transformM r).runFrom s).1 with
        | .ok t' => calls.map Rules.Call.label = t.postorder ∧ t.Traversal calls t'
        | .error e => calls.map Rules.Call.label <+: t.postorder
          ∧ ∃ before v, calls = before ++ [⟨v, .error e⟩]
            ∧ ∀ reply, ∃ later t', t.Traversal (before ++ ⟨v, .ok reply⟩ :: later) t' := by
  obtain ⟨calls, hrun, hends⟩ := (r.records_tree t).runFrom s []
  refine ⟨calls, hrun, ?_⟩
  cases hout : ((t.transformM r).runFrom s).1 with
  | ok t' =>
    rw [hout] at hends
    exact ⟨hends.map_label, hends⟩
  | error e =>
    rw [hout] at hends
    obtain ⟨before, v, rfl, hlater⟩ := hends
    obtain ⟨reply⟩ := v.nonempty_reply
    obtain ⟨later, t', htraversal⟩ := hlater reply
    refine ⟨⟨later.map Rules.Call.label, ?_⟩, before, v, rfl, hlater⟩
    rw [← htraversal.map_label]
    simp [Rules.Call.label]

end Tree

end Cubing
