import Cubing.Proofs.Alike
import Cubing.Proofs.Reduced
import Mathlib.Data.ZMod.Basic
import Mathlib.GroupTheory.CoprodI

set_option autoImplicit false

/-! # Alike turns reduce to the same list

Trading places and merging are the laws of a group. Every move has order four; moves along one layer
axis commute, and nothing else does. So the group is a free product, with one factor for the layers
along each axis and one for the rotations about each axis, and alike lists of turns have the same
product in it (`Turn.Alike.product_eq`).

A reduced list, cut into stretches of turns of one factor, is the normal form of its product: no
stretch amounts to nothing, neighbouring stretches are of different factors, and the quarter turns of
a stretch tell its turns. Normal forms in a free product are unique, so of all lists alike to one
another just one is reduced (`Turn.Reduced.eq_of_alike`). Reducing decides which lists are alike
(`Turn.alike_iff_reduce_eq`) and picks the same one of them for all (`Turn.reduce_canonical`). -/

namespace Cubing

/-! ## Factors -/

/-- What turns: the layers along an axis, or the whole cube about one. -/
inductive Factor where
  | layers (a : Axis)
  | whole (a : Axis)
  deriving DecidableEq

namespace Move

/-- The factor of a move: moves of one factor commute. -/
def factor : Move → Factor
  | face f | wide f => .layers f.axis
  | slice s => .layers s.axis
  | rotation a => .whole a

theorem layerAxis?_eq_some_iff {m : Move} {a : Axis} :
    m.layerAxis? = some a ↔ m.factor = .layers a := by
  cases m <;> simp [layerAxis?, factor]

theorem eq_rotation_of_factor {m : Move} {a : Axis} (h : m.factor = .whole a) :
    m = .rotation a := by
  cases m with
  | rotation b => exact congrArg rotation (Factor.whole.inj h)
  | face f => cases h
  | wide f => cases h
  | slice s => cases h

theorem factor_eq_of_layerAxis? {m n : Move} (hm : m.layerAxis?.isSome)
    (h : m.layerAxis? = n.layerAxis?) : m.factor = n.factor := by
  obtain ⟨a, ha⟩ := Option.isSome_iff_exists.1 hm
  rw [layerAxis?_eq_some_iff.1 ha, layerAxis?_eq_some_iff.1 (h ▸ ha)]

/-- Moves of one factor stand in the order of `Move.all` in a reduced list. -/
theorem InOrder.rank_lt {m n : Move} (h : m.InOrder n) (hfactor : m.factor = n.factor) :
    m.rank < n.rank := by
  cases hm : m.factor with
  | layers a =>
    have haxis := layerAxis?_eq_some_iff.2 hm
    refine h.2 (Option.isSome_of_eq_some haxis) ?_
    rw [haxis, layerAxis?_eq_some_iff.2 (hfactor ▸ hm)]
  | whole a =>
    -- Rotations of one factor are about one axis, so they are the same move.
    have hsame := (eq_rotation_of_factor hm).trans (eq_rotation_of_factor (hfactor ▸ hm)).symm
    exact absurd hsame h.1

end Move

/-! ## The group of turns -/

/-- The free product of one group for each factor, in which every move counts its quarter turns
    modulo four. -/
abbrev TurnGroup : Type := Monoid.CoprodI fun _ : Factor => Multiplicative (Move → ZMod 4)

namespace TurnGroup

/-- Quarter turns of moves of one factor. -/
def ofQuarters (k : Factor) (v : Move → ZMod 4) : TurnGroup :=
  Monoid.CoprodI.of (i := k) (.ofAdd v)

theorem ofQuarters_zero (k : Factor) : ofQuarters k 0 = 1 := map_one _

theorem ofQuarters_add (k : Factor) (v w : Move → ZMod 4) :
    ofQuarters k (v + w) = ofQuarters k v * ofQuarters k w := map_mul _ _ _

end TurnGroup

namespace Turn

open TurnGroup (ofQuarters ofQuarters_zero ofQuarters_add)

variable {ts us run : List Turn}

/-- How many quarter turns a turn gives to each move. -/
def quarters (t : Turn) : Move → ZMod 4 := Pi.single t.move t.direction.quarterTurns

/-- How many quarter turns several turns give to each move. -/
def listQuarters (ts : List Turn) : Move → ZMod 4 := (ts.map quarters).sum

@[simp] theorem listQuarters_cons (t : Turn) (ts : List Turn) :
    listQuarters (t :: ts) = t.quarters + listQuarters ts := by simp [listQuarters]

/-- A turn as an element of the group of turns. -/
def element (t : Turn) : TurnGroup := ofQuarters t.move.factor t.quarters

def product (ts : List Turn) : TurnGroup := (ts.map element).prod

@[simp] theorem product_nil : product [] = 1 := rfl

@[simp] theorem product_cons (t : Turn) (ts : List Turn) :
    product (t :: ts) = t.element * product ts := by simp [product]

@[simp] theorem product_append (ts us : List Turn) :
    product (ts ++ us) = product ts * product us := by simp [product]

theorem product_flatten (tss : List (List Turn)) :
    product tss.flatten = (tss.map product).prod := by
  induction tss with
  | nil => rfl
  | cons ts tss ih => simp [ih]

/-- Turns of one factor multiply by adding up their quarter turns. -/
theorem product_of_factor {k : Factor} (h : ∀ t ∈ ts, t.move.factor = k) :
    product ts = ofQuarters k (listQuarters ts) := by
  induction ts with
  | nil => exact (ofQuarters_zero k).symm
  | cons t ts ih =>
    obtain ⟨ht, hts⟩ := List.forall_mem_cons.1 h
    rw [product_cons, listQuarters_cons, ofQuarters_add, ih hts, element, ht]

/-! ## Alike turns have the same product -/

theorem product_ofQuarterTurns? (m : Move) (n : Nat) :
    product (ofQuarterTurns? m n).toList = ofQuarters m.factor (Pi.single m n) := by
  cases h : Direction.ofQuarterTurns? n with
  | none =>
    have hn : (n : ZMod 4) = 0 :=
      (ZMod.natCast_eq_zero_iff n 4).2
        (Nat.dvd_of_mod_eq_zero ((Direction.ofQuarterTurns?_eq_none_iff n).1 h))
    simp [ofQuarterTurns?, h, hn, ofQuarters_zero]
  | some d =>
    have hd : ((d.quarterTurns : Nat) : ZMod 4) = n := by
      rw [Direction.quarterTurns_of_ofQuarterTurns? h, ZMod.natCast_mod]
    simp [ofQuarterTurns?, h, element, quarters, hd]

/-- **Alike turns have the same product.** -/
theorem Alike.product_eq (h : Alike ts us) : product ts = product us := by
  induction h with
  | refl ts => rfl
  | symm h ih => exact ih.symm
  | trans h h' ih ih' => exact ih.trans ih'
  | @swap a b h =>
    obtain ⟨haxis, hsame⟩ : a.move.layerAxis?.isSome ∧ a.move.layerAxis? = b.move.layerAxis? := by
      simpa [parallel] using h
    have hfactor : b.move.factor = a.move.factor :=
      (Move.factor_eq_of_layerAxis? haxis hsame).symm
    rw [product_of_factor (k := a.move.factor) (by simp [hfactor]),
      product_of_factor (k := a.move.factor) (by simp [hfactor])]
    simp [add_comm, listQuarters]
  | merge a b =>
    by_cases hmove : a.move = b.move
    · rw [product_of_factor (k := a.move.factor) (by simp [hmove]), toList_merge hmove,
        product_ofQuarterTurns?]
      simp [listQuarters, quarters, hmove, Pi.single_add]
    · rw [Turn.merge, if_neg hmove]
      rfl
  | append h h' ih ih' => rw [product_append, product_append, ih, ih']

/-! ## Turns read off their quarter turns -/

/-- The turns that give every move its quarter turns, in the order of `Move.all`. -/
def ofListQuarters (v : Move → ZMod 4) : List Turn :=
  Move.all.flatMap fun m => (ofQuarterTurns? m (v m).val).toList

theorem listQuarters_apply (ts : List Turn) (m : Move) :
    listQuarters ts m
      = ((ts.filter (·.move = m)).map fun t => (t.direction.quarterTurns : ZMod 4)).sum := by
  induction ts with
  | nil => rfl
  | cons t ts ih =>
    rw [listQuarters_cons, Pi.add_apply, ih, quarters]
    by_cases h : t.move = m
    · subst h
      simp
    · simp [h]

/-- Turns in order are told by the quarter turns that they give to each move. -/
theorem ofListQuarters_listQuarters (h : ts.Pairwise fun a b => a.move.rank < b.move.rank) :
    ofListQuarters (listQuarters ts) = ts := by
  conv_rhs => rw [← byMove_eq_self h]
  rw [ofListQuarters, byMove]
  congr 1
  funext m
  rw [listQuarters_apply]
  have hordered : (ts.filter (·.move = m)).Pairwise fun a b => a.move.rank < b.move.rank :=
    h.sublist List.filter_sublist
  have hmove : ∀ t ∈ ts.filter (·.move = m), t.move = m := by simp
  generalize ts.filter (·.move = m) = us at hordered hmove
  -- A move is turned at most once.
  rcases us with _ | ⟨⟨n, d⟩, _ | ⟨b, us⟩⟩
  · rfl
  · obtain rfl : n = m := hmove _ List.mem_cons_self
    cases d <;> rfl
  · have hlt : n.rank < b.move.rank := (List.pairwise_cons.1 hordered).1 b List.mem_cons_self
    have hn : n = m := hmove _ List.mem_cons_self
    have hb : b.move = m := hmove b (List.mem_cons_of_mem _ List.mem_cons_self)
    rw [hn, hb] at hlt
    exact absurd hlt (Nat.lt_irrefl _)

/-! ## Stretches of one factor -/

def sameFactor (a b : Turn) : Bool := a.move.factor = b.move.factor

theorem sameFactor_iff {a b : Turn} : sameFactor a b ↔ a.move.factor = b.move.factor := by
  simp [sameFactor]

instance : Trans (fun a b => sameFactor a b = true) (fun a b => sameFactor a b = true)
    (fun a b => sameFactor a b = true) :=
  ⟨fun hab hbc => sameFactor_iff.2 ((sameFactor_iff.1 hab).trans (sameFactor_iff.1 hbc))⟩

/-- The longest stretches of turns of one factor, in order. -/
def stretches (ts : List Turn) : List (List Turn) := ts.splitBy sameFactor

/-- The factor of the first turn. Stretches are not empty. -/
def leadFactor : List Turn → Factor
  | [] => .whole .x
  | t :: _ => t.move.factor

theorem factor_of_mem_stretches (h : run ∈ stretches ts) :
    ∀ t ∈ run, t.move.factor = leadFactor run := by
  cases run with
  | nil => simp
  | cons t run =>
    have hpairwise := List.isChain_iff_pairwise.1 (List.isChain_of_mem_splitBy h)
    refine List.forall_mem_cons.2 ⟨rfl, ?_⟩
    intro u hu
    exact (sameFactor_iff.1 ((List.pairwise_cons.1 hpairwise).1 u hu)).symm

/-- Turns of one factor are in order where they are reduced. -/
theorem Reduced.pairwise_of_factor {k : Factor} (h : Reduced run)
    (hfactor : ∀ t ∈ run, t.move.factor = k) :
    run.Pairwise fun a b => a.move.rank < b.move.rank := by
  have hchain : run.IsChain fun a b => a.move.InOrder b.move := (List.isChain_map _).1 h
  have hranks : run.IsChain fun a b => a.move.rank < b.move.rank := by
    refine hchain.imp_of_mem_imp ?_
    intro a b ha hb hab
    exact hab.rank_lt ((hfactor a ha).trans (hfactor b hb).symm)
  exact List.pairwise_map.1 (List.isChain_iff_pairwise.1 ((List.isChain_map _).2 hranks))

/-- A stretch of a reduced list is in order. -/
theorem Reduced.pairwise_of_mem_stretches (hts : Reduced ts) (h : run ∈ stretches ts) :
    run.Pairwise fun a b => a.move.rank < b.move.rank := by
  obtain ⟨front, back, hsplit⟩ : ∃ front back, front ++ run ++ back = ts := by
    rw [← List.flatten_splitBy sameFactor ts]
    exact List.infix_of_mem_flatten h
  have hwhole : (front ++ run ++ back).IsChain fun a b => a.move.InOrder b.move :=
    hsplit ▸ (List.isChain_map _).1 hts
  have hrun : Reduced run := (List.isChain_map _).2 hwhole.left_of_append.right_of_append
  exact hrun.pairwise_of_factor (factor_of_mem_stretches h)

/-- A run of a reduced list is in order, unless it is of rotations. -/
theorem Reduced.pairwise_of_mem_runs (hts : Reduced ts) (h : run ∈ runs ts)
    (hlayers : ∀ t ∈ run, t.isRotation = false) :
    run.Pairwise fun a b => a.move.rank < b.move.rank := by
  obtain ⟨t, rest, rfl⟩ := List.exists_cons_of_ne_nil (ne_nil_of_mem_runs h)
  refine (reduced_iff_runs.1 hts _ h).pairwise_of_factor (k := t.move.factor) ?_
  intro u hu
  have haxis := sameAxis_iff.1 (sameAxis_of_mem_runs h hu List.mem_cons_self)
  refine Move.factor_eq_of_layerAxis? ?_ haxis
  rw [Option.isSome_iff_ne_none, Ne, ← Move.isRotation_iff, ← isRotation, hlayers u hu]
  exact Bool.false_ne_true

/-- **A reduced list is a normal form** in the group of turns, stretch by stretch. -/
def Reduced.word (h : Reduced ts) :
    Monoid.CoprodI.Word fun _ : Factor => Multiplicative (Move → ZMod 4) where
  toList := (stretches ts).map fun run => ⟨leadFactor run, .ofAdd (listQuarters run)⟩
  ne_one := by
    rintro _ hl hone
    obtain ⟨run, hrun, rfl⟩ := List.mem_map.1 hl
    have hzero : listQuarters run = 0 := hone
    have hnil := ofListQuarters_listQuarters (h.pairwise_of_mem_stretches hrun)
    rw [hzero] at hnil
    exact List.ne_nil_of_mem_splitBy hrun hnil.symm
  chain_ne := by
    rw [List.isChain_map]
    refine (List.isChain_getLast_head_splitBy sameFactor ts).imp_of_mem_imp ?_
    rintro run run' hrun hrun' ⟨hne, hne', hapart⟩ hlead
    refine Bool.eq_false_iff.1 hapart (sameFactor_iff.2 ?_)
    rw [factor_of_mem_stretches hrun _ (List.getLast_mem hne),
      factor_of_mem_stretches hrun' _ (List.head_mem hne')]
    exact hlead

theorem Reduced.prod_word (h : Reduced ts) : h.word.prod = product ts := by
  have hruns : ∀ run ∈ stretches ts, ofQuarters (leadFactor run) (listQuarters run) = product run :=
    fun run hrun => (product_of_factor (factor_of_mem_stretches hrun)).symm
  have hprod : h.word.prod
      = ((stretches ts).map fun run => ofQuarters (leadFactor run) (listQuarters run)).prod := by
    rw [Monoid.CoprodI.Word.prod, Reduced.word, List.map_map]
    rfl
  rw [hprod, List.map_congr_left hruns, ← product_flatten, stretches, List.flatten_splitBy]

/-! ## Reduced lists are unique -/

/-- **Alike reduced lists are equal.** -/
theorem Reduced.eq_of_alike (hts : Reduced ts) (hus : Reduced us) (h : Alike ts us) : ts = us := by
  have hword : hts.word = hus.word := by
    classical
    refine Monoid.CoprodI.Word.equiv.symm.injective ?_
    show hts.word.prod = hus.word.prod
    rw [hts.prod_word, hus.prod_word, h.product_eq]
  have hlists : (stretches ts).map listQuarters = (stretches us).map listQuarters := by
    have hpairs := congrArg (fun w => w.toList.map fun p => Multiplicative.toAdd p.2) hword
    simpa [Reduced.word, Function.comp_def] using hpairs
  have hback {ts : List Turn} (h : Reduced ts) :
      ((stretches ts).map listQuarters).map ofListQuarters = stretches ts := by
    rw [List.map_map]
    refine (List.map_congr_left fun run hrun => ?_).trans (List.map_id _)
    exact ofListQuarters_listQuarters (h.pairwise_of_mem_stretches hrun)
  have hstretches : stretches ts = stretches us := by rw [← hback hts, hlists, hback hus]
  rw [← List.flatten_splitBy sameFactor ts, ← List.flatten_splitBy sameFactor us]
  exact congrArg List.flatten hstretches

theorem Alike.reduce_eq (h : Alike ts us) : Turn.reduce ts = Turn.reduce us :=
  (reduced_reduce ts).eq_of_alike (reduced_reduce us)
    ((Alike.reduce ts).trans (h.trans (Alike.reduce us).symm))

/-- Of lists alike to one another the reduced one is the shortest. -/
theorem Alike.length_reduce_le (h : Alike ts us) : (Turn.reduce ts).length ≤ us.length :=
  h.reduce_eq ▸ Turn.length_reduce_le us

/-- **Reducing decides whether turns are alike.** -/
theorem alike_iff_reduce_eq : Alike ts us ↔ reduce ts = reduce us := by
  refine ⟨Alike.reduce_eq, fun h => ?_⟩
  calc ts
    Alike _ (reduce ts) := (Alike.reduce ts).symm
    Alike _ (reduce us) := .of_eq h
    Alike _ us := Alike.reduce us

/-- **Reducing computes a canonical form.** Lists reduce to the same list if and only if trading
    places and merging make them the same; turns followed by the same turns undone reduce to
    nothing; and of all lists alike to a list its reduced form is the one that no round changes. -/
theorem reduce_canonical :
    (∀ ts us, reduce ts = reduce us ↔ Alike ts us)
      ∧ (∀ ts, reduce (ts ++ invList ts) = [])
      ∧ ∀ ts us, reduce ts = us ↔ reduceRound us = us ∧ Alike ts us := by
  refine ⟨fun ts us => alike_iff_reduce_eq.symm, fun ts => ?_, fun ts us => ?_⟩
  · rw [(Alike.append_invList ts).reduce_eq, reduce_nil]
  · rw [reduceRound_eq_self_iff]
    constructor
    · rintro rfl
      exact ⟨reduced_reduce ts, (Alike.reduce ts).symm⟩
    · rintro ⟨hus, h⟩
      rw [h.reduce_eq, reduce_eq_self hus]

end Turn

end Cubing
