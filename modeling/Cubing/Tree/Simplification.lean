import Cubing.Tree.Rules
import Cubing.Turn.Reduction

set_option autoImplicit false

/-! # Simplifying an algorithm

Simplification keeps the groups of an algorithm but drops what does nothing. Sequences are reduced,
neighbouring sequences joined; a group that has become empty, or whose effect is none, goes away; a
group that has become trivial leaves its contents. One rule looks deeper: a conjugate whose setup
ends in the very move that a commutator inside begins with takes that move into the setup
(`Node.foldSetup?`). -/

namespace Cubing

namespace Node

/-! ## Lists of nodes -/

/-- Joins neighbouring sequences. -/
def join : List Node → List Node
  | [] => []
  | seq ts :: ns =>
    match join ns with
    | seq us :: rest => seq (ts ++ us) :: rest
    | joined => seq ts :: joined
  | n :: ns => n :: join ns

@[simp] theorem join_bracket (kind : Bracket) (a b ns : List Node) :
    join (bracket kind a b :: ns) = bracket kind a b :: join ns := rfl

@[simp] theorem join_repeated (body : List Node) (c : UInt32) (ns : List Node) :
    join (repeated body c :: ns) = repeated body c :: join ns := rfl

/-- A sequence reduced, or nothing if no turn is left. -/
def reducedSeq? (ts : List Turn) : Option Node :=
  match Turn.reduce ts with
  | [] => none
  | us => some (seq us)

/-- Reduces a node that is a sequence, and drops it if no turn is left. -/
def reduceSeq? : Node → Option Node
  | seq ts => reducedSeq? ts
  | n => some n

theorem filterMap_reduceSeq?_cons (n : Node) (ns : List Node) :
    (n :: ns).filterMap reduceSeq? = (reduceSeq? n).toList ++ ns.filterMap reduceSeq? := by
  cases h : reduceSeq? n <;> simp [h]

/-- Joins neighbouring sequences and reduces each of them. -/
def tidy (ns : List Node) : List Node := (join ns).filterMap reduceSeq?

/-- Whether a list holds nothing but turns along one layer axis. -/
def singleAxis (ns : List Node) : Bool :=
  match Tree.turns? ns with
  | none => false
  | some [] => true
  | some (t :: ts) => (t :: ts).all t.parallel

/-- A list is along a single axis if it holds turns only, each of them parallel to each. -/
theorem singleAxis_iff {ns : List Node} :
    singleAxis ns ↔ ∃ ts, Tree.turns? ns = some ts ∧ ∀ t ∈ ts, ∀ u ∈ ts, t.parallel u := by
  unfold singleAxis
  split
  · rename_i hnone
    simp [hnone]
  · rename_i hnil
    simp [hnil]
  · rename_i t ts hts
    simp only [hts, Option.some.injEq, exists_eq_left', List.all_eq_true]
    constructor
    · intro h u hu v hv
      have htu := h u hu
      have htv := h v hv
      simp only [Turn.parallel, Bool.and_eq_true, decide_eq_true_eq] at htu htv ⊢
      exact ⟨htu.2 ▸ htu.1, htu.2.symm.trans htv.2⟩
    · intro h
      exact h t List.mem_cons_self

/-! ## Folding a setup turn into a commutator -/

/-- Folds the last setup turn of `[A: [X, B]]` into the commutator, where `X` is a single turn and
    the two merge into one turn: with `A` ending in `P`, the turn `P X` takes the place of `P`, and
    the commutator becomes `[B, X']`. Both do `A' P X B X' B' P' A''` for the rest `A'` of the setup
    and its undoing `A''`. -/
def foldSetup? (a b : List Node) : Option Node :=
  match a.getLast?, b with
  | some (seq setup), [bracket .commutator [seq [x]] other] =>
    match setup.getLast? with
    | none => none
    | some last =>
      match Turn.merge last x with
      | .merged last' =>
        some (bracket .conjugate (a.dropLast ++ [seq (setup.dropLast ++ [last'])])
          [bracket .commutator other [seq [x.inv]]])
      | _ => none
  | _, _ => none

/-- The shape that folding a setup turn looks for, and what it makes of it. -/
theorem foldSetup?_eq_some_iff {a b : List Node} {n : Node} :
    foldSetup? a b = some n ↔
      ∃ front setup last x last' other, a = front ++ [seq (setup ++ [last])]
        ∧ b = [bracket .commutator [seq [x]] other] ∧ Turn.merge last x = .merged last'
        ∧ n = bracket .conjugate (front ++ [seq (setup ++ [last'])])
          [bracket .commutator other [seq [x.inv]]] := by
  constructor
  · intro h
    unfold foldSetup? at h
    split at h
    · rename_i setup x other hlast
      split at h
      · cases h
      · rename_i last hlast'
        split at h
        · rename_i last' hmerge
          obtain ⟨front, rfl⟩ := List.getLast?_eq_some_iff.1 hlast
          obtain ⟨setup, rfl⟩ := List.getLast?_eq_some_iff.1 hlast'
          refine ⟨front, setup, last, x, last', other, rfl, rfl, hmerge, ?_⟩
          simpa using h.symm
        · cases h
    · cases h
  · rintro ⟨front, setup, last, x, last', other, rfl, rfl, hmerge, rfl⟩
    simp [foldSetup?, hmerge]

/-! ## The rules -/

/-- A conjugate does nothing without its second side, and needs no setup that is empty. -/
def simplifyConjugate (a b : List Node) : Replacement Node :=
  if b.isEmpty then .remove
  else if a.isEmpty then .splice b
  else .keep ((foldSetup? a b).getD (bracket .conjugate a b))

/-- A commutator does nothing if one of its sides is empty, or if both turn layers along one axis
    only and so trade places freely. -/
def simplifyCommutator (a b : List Node) : Replacement Node :=
  if a.isEmpty || b.isEmpty || singleAxis (a ++ b) then .remove
  else .keep (bracket .commutator a b)

/-- A repetition of nothing or by nothing does nothing, a repetition by one is its contents, and a
    repeated single turn is a turn again. -/
def simplifyRepeated (body : List Node) (n : UInt32) : Replacement Node :=
  if n = 0 || body.isEmpty then .remove
  else if n = 1 then .splice body
  else
    match body with
    | [seq [t]] => .ofOption ((t.times? n.toNat).map fun u => seq [u])
    | _ => .keep (repeated body n)

end Node

/-- The rules of simplification. -/
def Rules.simplification : Rules Id where
  seq ts := pure (.ofOption (Node.reducedSeq? ts))
  bracket
    | .conjugate, a, b => pure (Node.simplifyConjugate (Node.tidy a) (Node.tidy b))
    | .commutator, a, b => pure (Node.simplifyCommutator (Node.tidy a) (Node.tidy b))
  repeated body n := pure (Node.simplifyRepeated (Node.tidy body) n)
  root nodes := pure (Node.tidy nodes)

/-- A simplified algorithm of the same effect. -/
def Tree.clean (t : Tree) : Tree := t.transform Rules.simplification

end Cubing
