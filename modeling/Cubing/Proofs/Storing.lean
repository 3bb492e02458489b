import Cubing.Puzzle.Stored
import Mathlib.Algebra.Group.Fin.Basic
import Mathlib.Logic.Function.Iterate

set_option autoImplicit false

/-! # Storing the cube in bytes

Storing a cube and then making a call on it in bytes is making the call and then storing the cube
(`Cube.call?_stored`). In particular no sum of bytes overflows: a stored twist is below three, and so
is what is added to it (`CornerPiece.twistBy?_stored`).

What has to be compared is the turn of a layer in one pass with as many quarter turns. Moving what is
on a ring on by a slot is reading it one source step back (`Ring.rotateRight_map`), so a pass takes
every piece from as many source steps back as there are quarter turns; and the twists that a piece
gets from two quarter turns, like the flips, add up to none (`Cube.corners_turnLayer`). -/

namespace Cubing

/-! ## Pieces -/

theorem addBytes?_eq_some {a b : UInt8} (h : a.toNat + b.toNat < 256) :
    addBytes? a b = some (a + b) := if_pos h

theorem CornerPiece.toNat_twist_stored (p : CornerPiece) : p.stored.twist.toNat = p.twist :=
  UInt8.toNat_ofNat_of_lt (Nat.lt_trans p.twist.isLt (by decide))

theorem EdgePiece.toNat_flip_stored (p : EdgePiece) : p.stored.flip.toNat = p.flip :=
  UInt8.toNat_ofNat_of_lt (Nat.lt_trans p.flip.isLt (by decide))

/-- **Twisting does not overflow**, however far a corner is twisted. -/
theorem CornerPiece.twistBy?_stored (p : CornerPiece) (n : UInt8) :
    p.stored.twistBy? n = some (p.twistBy n.toNat).stored := by
  have hbyte := p.toNat_twist_stored
  have hbyte' := (p.twistBy n.toNat).toNat_twist_stored
  have hoffset : (n % 3).toNat = n.toNat % 3 := UInt8.toNat_mod n 3
  have hsum : addBytes? p.stored.twist (n % 3) = some (p.stored.twist + n % 3) :=
    addBytes?_eq_some (by omega)
  have htwist : (p.stored.twist + n % 3) % 3 = (p.twistBy n.toNat).stored.twist := by
    rw [← UInt8.toNat_inj, hbyte', UInt8.toNat_mod, UInt8.toNat_add, hbyte, hoffset, twistBy,
      Fin.val_add, Fin.val_ofNat]
    show (p.twist + n.toNat % 3) % 2 ^ 8 % 3 = (p.twist + n.toNat % 3) % 3
    omega
  simp only [StoredCorner.twistBy?, hsum, Option.bind_eq_bind, Option.bind_some, htwist]
  rfl

theorem EdgePiece.flipOver_stored (p : EdgePiece) : p.stored.flipOver = (p.flipBy 1).stored := by
  have hflip : ∀ i : Fin 2, UInt8.ofNat i ^^^ 1 = .ofNat (i + Fin.ofNat 2 1 : Fin 2) := by decide
  simp [stored, StoredEdge.flipOver, flipBy, hflip]

namespace CornerPiece

/-- Only how often a corner is twisted modulo three matters. -/
theorem twistBy_congr (p : CornerPiece) {m n : Nat} (h : m % 3 = n % 3) :
    p.twistBy m = p.twistBy n := by
  have htwist : Fin.ofNat 3 m = Fin.ofNat 3 n := Fin.ext h
  rw [twistBy, twistBy, htwist]

@[simp] theorem twistBy_zero (p : CornerPiece) : p.twistBy 0 = p := by simp [twistBy]

theorem twistBy_twistBy (p : CornerPiece) (m n : Nat) :
    (p.twistBy m).twistBy n = p.twistBy (m + n) := by
  have hsum : Fin.ofNat 3 m + Fin.ofNat 3 n = Fin.ofNat 3 (m + n) :=
    Fin.ext (Nat.add_mod m n 3).symm
  simp only [twistBy, ← hsum, add_assoc]

theorem twistAt?_stored (p : CornerPiece) (i : UInt8) :
    p.stored.twistAt? i = some (p.twistBy (i.toNat % 2 + 1)).stored := by
  have hplace : (i % 2).toNat = i.toNat % 2 := UInt8.toNat_mod i 2
  have hone : (1 : UInt8).toNat = 1 := rfl
  have hsum : (i % 2 + 1).toNat = i.toNat % 2 + 1 := by
    rw [UInt8.toNat_add, hplace, hone]
    omega
  rw [StoredCorner.twistAt?, addBytes?_eq_some (by omega)]
  simp [twistBy?_stored, hsum]

end CornerPiece

namespace EdgePiece

/-- Only how often an edge is flipped modulo two matters. -/
theorem flipBy_congr (p : EdgePiece) {m n : Nat} (h : m % 2 = n % 2) :
    p.flipBy m = p.flipBy n := by
  have hflip : Fin.ofNat 2 m = Fin.ofNat 2 n := Fin.ext h
  rw [flipBy, flipBy, hflip]

@[simp] theorem flipBy_zero (p : EdgePiece) : p.flipBy 0 = p := by simp [flipBy]

theorem flipBy_flipBy (p : EdgePiece) (m n : Nat) : (p.flipBy m).flipBy n = p.flipBy (m + n) := by
  have hsum : Fin.ofNat 2 m + Fin.ofNat 2 n = Fin.ofNat 2 (m + n) :=
    Fin.ext (Nat.add_mod m n 2).symm
  simp only [flipBy, ← hsum, add_assoc]

end EdgePiece

/-! ## Rings -/

namespace Ring

variable {α β : Type} [DecidableEq α] {r : Ring α} {s : α}

theorem source_of_notMem (h : s ∉ r.toList) : r.source s = s := by
  simp only [toList, List.mem_cons, List.not_mem_nil, or_false, not_or] at h
  simp [source, h]

/-- Moving what is on a ring on by some slots is reading it as many source steps back. -/
theorem rotateRight_map (hr : r.toList.Nodup) (h : α → β) (n : Nat) :
    (r.map h).rotateRight n = r.map fun s => h (r.source^[n] s) := by
  induction n generalizing h with
  | zero => rfl
  | succ n ih =>
    have hstep : (r.map h).rotateRight (n + 1) = (r.map (h ∘ r.source)).rotateRight n := by
      rw [rotateRight]
      congr 1
      simp only [toList, List.nodup_cons, List.mem_cons, not_or] at hr
      simp [map, source, Ne.symm, hr]
    rw [hstep, ih]
    simp only [Function.iterate_succ_apply', Function.comp_apply]

/-- Entries that are put back moved on are read some source steps back, if nothing else is new. -/
theorem put_rotateRight_map (hr : r.toList.Nodup) {g h : α → β} (hoff : ∀ s ∉ r.toList, h s = g s)
    (n : Nat) : r.put ((r.map h).rotateRight n) g = fun s => h (r.source^[n] s) := by
  rw [rotateRight_map hr]
  funext s
  by_cases hs : s ∈ r.toList
  · simp only [put, map]
    grind [toList]
  · have hfixed : r.source^[n] s = s := Function.iterate_fixed (source_of_notMem hs) n
    rw [hfixed, hoff s hs]
    simp only [toList, List.mem_cons, List.not_mem_nil, or_false, not_or] at hs
    simp [put, hs]

end Ring

namespace Face

theorem nodup_corners (f : Face) : f.corners.toList.Nodup := by cases f <;> decide

theorem nodup_edges (f : Face) : f.edges.toList.Nodup := by cases f <;> decide

/-- How often turning a layer twists the corner that it takes from a slot. -/
def turnTwist (f : Face) (d : Direction) (s : Corner) : Nat := if d = .double then 0 else f.twist s

/-- How often turning a layer flips the edge that it takes from a slot. -/
def turnFlip (f : Face) (d : Direction) (s : Edge) : Nat := if d = .double then 0 else f.flip s

/-- Two quarter turns of a layer twist a corner by three in all. -/
theorem twist_source (f : Face) (s : Corner) : (f.twist (f.corners.source s) + f.twist s) % 3 = 0 := by
  have hall : ∀ f ∈ all, ∀ s ∈ Corner.all, (f.twist (f.corners.source s) + f.twist s) % 3 = 0 := by
    decide
  exact hall f (mem_all f) s (Corner.mem_all s)

theorem flip_source (f : Face) (s : Edge) : (f.flip (f.edges.source s) + f.flip s) % 2 = 0 := by
  have hall : ∀ f ∈ all, ∀ s ∈ Edge.all, (f.flip (f.edges.source s) + f.flip s) % 2 = 0 := by
    decide
  exact hall f (mem_all f) s (Edge.mem_all s)

/-- A layer that twists its corners twists them by one and by two in turn. -/
theorem twist_of_twists (f : Face) (h : f.twists = true) :
    f.twist f.corners.first = 1 ∧ f.twist f.corners.second = 2 ∧ f.twist f.corners.third = 1
      ∧ f.twist f.corners.fourth = 2 := by
  revert h
  cases f <;> decide

theorem twist_of_twists_eq_false (f : Face) (h : f.twists = false) (s : Corner) : f.twist s = 0 := by
  revert h
  cases f <;> simp [twists, twist]

theorem flip_of_flips (f : Face) (h : f.flips = true) :
    f.flip f.edges.first = 1 ∧ f.flip f.edges.second = 1 ∧ f.flip f.edges.third = 1
      ∧ f.flip f.edges.fourth = 1 := by
  revert h
  cases f <;> decide

theorem flip_of_flips_eq_false (f : Face) (h : f.flips = false) (s : Edge) : f.flip s = 0 := by
  revert h
  cases f <;> simp [flips, flip]

theorem turnTwist_of_notMem (f : Face) (d : Direction) (s : Corner) (h : s ∉ f.corners.toList) :
    f.turnTwist d s = 0 := by
  have hall : ∀ f ∈ all, ∀ s ∈ Corner.all, s ∉ f.corners.toList → f.twist s = 0 := by decide
  rw [turnTwist, hall f (mem_all f) s (Corner.mem_all s) h, ite_self]

theorem turnFlip_of_notMem (f : Face) (d : Direction) (s : Edge) (h : s ∉ f.edges.toList) :
    f.turnFlip d s = 0 := by
  have hall : ∀ f ∈ all, ∀ s ∈ Edge.all, s ∉ f.edges.toList → f.flip s = 0 := by decide
  rw [turnFlip, hall f (mem_all f) s (Edge.mem_all s) h, ite_self]

end Face

/-! ## Layers -/

namespace Cube

/-- **A layer turn moves and twists corners in one pass.** -/
theorem corners_turnLayer (c : Cube) (f : Face) (d : Direction) (s : Corner) :
    (c.turnLayer f d).corners.get s =
      (c.corners.get (f.corners.source^[d.quarterTurns] s)).twistBy
        (f.turnTwist d (f.corners.source^[d.quarterTurns] s)) := by
  cases d with
  | cw => simp [turnLayer, quarterTurn, Direction.quarterTurns, Face.turnTwist]
  | double =>
    simp only [turnLayer, quarterTurn, CornerTable.get_ofFn, CornerPiece.twistBy_twistBy]
    exact CornerPiece.twistBy_congr _ (f.twist_source _)
  | ccw =>
    simp only [turnLayer, quarterTurn, CornerTable.get_ofFn, CornerPiece.twistBy_twistBy]
    refine CornerPiece.twistBy_congr _ ?_
    have htwists := f.twist_source (f.corners.source s)
    show _ = f.twist (f.corners.source (f.corners.source (f.corners.source s))) % 3
    omega

theorem edges_turnLayer (c : Cube) (f : Face) (d : Direction) (s : Edge) :
    (c.turnLayer f d).edges.get s =
      (c.edges.get (f.edges.source^[d.quarterTurns] s)).flipBy
        (f.turnFlip d (f.edges.source^[d.quarterTurns] s)) := by
  cases d with
  | cw => simp [turnLayer, quarterTurn, Direction.quarterTurns, Face.turnFlip]
  | double =>
    simp only [turnLayer, quarterTurn, EdgeTable.get_ofFn, EdgePiece.flipBy_flipBy]
    exact EdgePiece.flipBy_congr _ (f.flip_source _)
  | ccw =>
    simp only [turnLayer, quarterTurn, EdgeTable.get_ofFn, EdgePiece.flipBy_flipBy]
    refine EdgePiece.flipBy_congr _ ?_
    have hflips := f.flip_source (f.edges.source s)
    show _ = f.flip (f.edges.source (f.edges.source (f.edges.source s))) % 2
    omega

/-! ## Steps in bytes -/

theorem get_corners_stored (c : Cube) :
    c.stored.corners.get = fun s => (c.corners.get s).stored := by
  funext s
  simp [stored]

theorem get_edges_stored (c : Cube) : c.stored.edges.get = fun s => (c.edges.get s).stored := by
  funext s
  simp [stored]

/-- Twisting the corners of a layer does not overflow. -/
theorem cornersOf?_stored (c : Cube) (f : Face) (d : Direction) :
    c.stored.cornersOf? f d
      = some (f.corners.map fun s => ((c.corners.get s).twistBy (f.turnTwist d s)).stored) := by
  rw [StoredCube.cornersOf?, get_corners_stored]
  by_cases hd : d = .double
  · simp [hd, Face.turnTwist]
  · cases hf : f.twists with
    | false => simp [Face.turnTwist, f.twist_of_twists_eq_false hf]
    | true =>
      obtain ⟨hfirst, hsecond, hthird, hfourth⟩ := f.twist_of_twists hf
      simp [hd, Face.turnTwist, Ring.twist?, Ring.map, CornerPiece.twistAt?_stored, hfirst, hsecond,
        hthird, hfourth]

theorem edgesOf_stored (c : Cube) (f : Face) (d : Direction) :
    c.stored.edgesOf f d
      = f.edges.map fun s => ((c.edges.get s).flipBy (f.turnFlip d s)).stored := by
  rw [StoredCube.edgesOf, get_edges_stored]
  by_cases hd : d = .double
  · simp [hd, Face.turnFlip]
  · cases hf : f.flips with
    | false => simp [Face.turnFlip, f.flip_of_flips_eq_false hf]
    | true =>
      obtain ⟨hfirst, hsecond, hthird, hfourth⟩ := f.flip_of_flips hf
      simp [hd, Face.turnFlip, Ring.map, EdgePiece.flipOver_stored, hfirst, hsecond, hthird, hfourth]

/-- **Turning a layer in bytes**, in one pass, is turning it by quarter turns. -/
theorem turnLayer?_stored (c : Cube) (f : Face) (d : Direction) :
    c.stored.turnLayer? f d = some (c.turnLayer f d).stored := by
  let corner (s : Corner) : StoredCorner := ((c.corners.get s).twistBy (f.turnTwist d s)).stored
  let edge (s : Edge) : StoredEdge := ((c.edges.get s).flipBy (f.turnFlip d s)).stored
  have hcorners : c.stored.cornersOf? f d = some (f.corners.map corner) := cornersOf?_stored c f d
  have hedges : c.stored.edgesOf f d = f.edges.map edge := edgesOf_stored c f d
  have hcorner : ∀ s ∉ f.corners.toList, corner s = c.stored.corners.get s := by
    intro s hs
    simp [corner, get_corners_stored, f.turnTwist_of_notMem d s hs]
  have hedge : ∀ s ∉ f.edges.toList, edge s = c.stored.edges.get s := by
    intro s hs
    simp [edge, get_edges_stored, f.turnFlip_of_notMem d s hs]
  calc c.stored.turnLayer? f d
      = some ⟨.ofFn fun s => corner (f.corners.source^[d.quarterTurns] s),
          .ofFn fun s => edge (f.edges.source^[d.quarterTurns] s), c.orientation⟩ := by
        simp only [StoredCube.turnLayer?, hcorners, hedges, Option.bind_eq_bind, Option.bind_some,
          Ring.put_rotateRight_map f.nodup_corners hcorner,
          Ring.put_rotateRight_map f.nodup_edges hedge]
        rfl
    _ = some (c.turnLayer f d).stored := by
        simp only [stored, corners_turnLayer, edges_turnLayer, corner, edge]
        cases d <;> rfl

theorem applyOuter?_stored (c : Cube) (t : Turn) :
    c.stored.applyOuter? t = some (c.applyOuter t).stored := by
  obtain ⟨m, d⟩ := t
  cases m with
  | face f => exact turnLayer?_stored c (c.orientation.face f) d
  | wide f => rfl
  | slice s => rfl
  | rotation a => rfl

end Cube

/-- Steps that succeed on what is stored succeed one after the other. -/
theorem foldlM_stored {α : Type} {step? : StoredCube → α → Option StoredCube} {step : Cube → α → Cube}
    (h : ∀ c x, step? c.stored x = some (step c x).stored) (c : Cube) (xs : List α) :
    xs.foldlM step? c.stored = some (xs.foldl step c).stored := by
  induction xs generalizing c with
  | nil => rfl
  | cons x xs ih =>
    rw [List.foldlM_cons, h, Option.bind_eq_bind, Option.bind_some, ih]
    rfl

namespace Cube

theorem applyTurn?_stored (c : Cube) (t : Turn) :
    c.stored.applyTurn? t = some (c.applyTurn t).stored :=
  foldlM_stored applyOuter?_stored c t.outer

theorem applyTurns?_stored (c : Cube) (ts : List Turn) :
    c.stored.applyTurns? ts = some (c.applyTurns ts).stored :=
  foldlM_stored applyTurn?_stored c ts

/-- **A call in bytes** makes what the call makes, and fails if it fails. -/
theorem call?_stored (c : Cube) (k : Call) :
    c.stored.call? k = some ((c.call k).map Cube.stored) := by
  cases k with
  | apply a =>
    rw [StoredCube.call?, applyTurns?_stored]
    rfl
  | applyText s =>
    rw [StoredCube.call?, call, applyText]
    cases Algorithm.ofText s with
    | error e => rfl
    | ok a =>
      simp only [applyTurns?_stored]
      rfl
  | applyTurns ts =>
    rw [StoredCube.call?, applyTurns?_stored]
    rfl
  | applyTurn t =>
    rw [StoredCube.call?, applyTurn?_stored]
    rfl
  | orient => rfl

theorem after?_stored (c : Cube) (k : Call) : c.stored.after? k = some (c.after k).stored := by
  rw [StoredCube.after?, call?_stored, after]
  cases c.call k <;> rfl

/-- **Calls in bytes never overflow**, and make what the calls make. -/
theorem run?_stored (c : Cube) (ks : List Call) : c.stored.run? ks = some (c.run ks).stored :=
  foldlM_stored after?_stored c ks

end Cube

end Cubing
