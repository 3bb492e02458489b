import Cubing.Proofs.Storing
import Cubing.Proofs.TurningStickers
import Mathlib.Algebra.BigOperators.Group.Finset.Basic
import Mathlib.GroupTheory.Perm.List
import Mathlib.GroupTheory.Perm.Sign

set_option autoImplicit false

/-! # Reachable cubes are legal

Taking a cube apart and putting it together again makes states that no turns make. A state is *legal*
if every piece is there once, the twists add up to full turns and the flips to double flips, corners
and edges are permuted alike as to parity, and the cube is held as a cube can be held in space
(`StoredCube.Legal`).

A quarter turn of a layer is a cycle of four corners and a cycle of four edges, both odd, and the
twists and flips that it makes cancel within the layer. So it keeps all of that, and so does
everything that is made of quarter turns, rotations and reorienting. Legality is stated for the cube
in bytes, on which calls never overflow (`StoredCube.run_legal`). -/

namespace Cubing

open Equiv (Perm)

instance : Fintype Corner := ⟨⟨Corner.all, by decide⟩, Corner.mem_all⟩

instance : Fintype Edge := ⟨⟨Edge.all, by decide⟩, Edge.mem_all⟩

/-! ## Legal cubes -/

/-- What every state has that turns can make. -/
structure StoredCube.Legal (c : StoredCube) : Prop where
  corner_once : ∀ k : Corner, ∃! s, (c.corners.get s).corner = k
  edge_once : ∀ k : Edge, ∃! s, (c.edges.get s).edge = k
  twist_lt : ∀ s, (c.corners.get s).twist < 3
  flip_lt : ∀ s, (c.edges.get s).flip < 2
  twists : (∑ s, (c.corners.get s).twist.toNat) % 3 = 0
  flips : (∑ s, (c.edges.get s).flip.toNat) % 2 = 0
  /-- The pieces are in their slots by permutations of the same parity. -/
  same_parity : ∃ (σ : Perm Corner) (τ : Perm Edge), (∀ s, (c.corners.get s).corner = σ s)
    ∧ (∀ s, (c.edges.get s).edge = τ s) ∧ σ.sign = τ.sign
  face_bijective : Function.Bijective c.orientation.face
  face_opposite : ∀ f, c.orientation.face f.opposite = (c.orientation.face f).opposite
  /-- Three places that stand like the axes of a right-handed system show faces that do. -/
  right_handed : ∀ f g h : Face, f.normal.cross g.normal = h.normal →
    (c.orientation.face f).normal.cross (c.orientation.face g).normal
      = (c.orientation.face h).normal

/-- **However the cube is held, it is turned and not mirrored:** places show faces that stand to one
    another as the places do. -/
theorem Orientation.Reachable.face_cross {o : Orientation} (h : o.Reachable) {f g k : Face}
    (hfgk : f.normal.cross g.normal = k.normal) :
    (o.face f).normal.cross (o.face g).normal = (o.face k).normal := by
  induction h generalizing f g k with
  | identity => simpa using hfgk
  | quarter h a ih =>
    have hstep : ∀ a ∈ Axis.all, ∀ f ∈ Face.all, ∀ g ∈ Face.all, ∀ k ∈ Face.all,
        f.normal.cross g.normal = k.normal →
          (a.source f).normal.cross (a.source g).normal = (a.source k).normal := by
      decide
    simp only [face_rotate, Axis.sourceBy]
    exact ih (hstep a (by cases a <;> decide) f (Face.mem_all f) g (Face.mem_all g) k
      (Face.mem_all k) hfgk)

/-! ## Quarter turns as cycles -/

namespace Ring

variable {α : Type} [DecidableEq α] {r : Ring α}

/-- The slots that a quarter turn takes pieces from, as a permutation. -/
def cycle (r : Ring α) : Perm α := List.formPerm [r.first, r.fourth, r.third, r.second]

theorem cycle_apply (hr : r.toList.Nodup) (s : α) : r.cycle s = r.source s := by
  simp only [toList, List.nodup_cons, List.mem_cons, not_or] at hr
  simp only [cycle, List.formPerm_cons_cons, List.formPerm_singleton, mul_one, Perm.mul_apply,
    Equiv.swap_apply_def, source]
  grind

theorem sign_cycle [Fintype α] (hr : r.toList.Nodup) : r.cycle.sign = -1 := by
  simp only [toList, List.nodup_cons, List.mem_cons, not_or] at hr
  simp [cycle, List.formPerm_cons_cons, Ne.symm, hr]

/-- If amounts add up to none modulo some number, and so do the new ones around a ring, they still do
    after everything has moved on along the ring and taken in what is new where it was. -/
theorem sum_source_mod [Fintype α] (hr : r.toList.Nodup) {m : Nat} {g new : α → Nat}
    (hg : (∑ s, g s) % m = 0) (hnew : (∑ s, new s) % m = 0) :
    (∑ s, (g (r.source s) + new (r.source s)) % m) % m = 0 := by
  have hmoved (h : α → Nat) : ∑ s, h (r.source s) = ∑ s, h s := by
    simp only [← cycle_apply hr]
    exact Equiv.sum_comp r.cycle h
  rw [← Finset.sum_nat_mod, Finset.sum_add_distrib, hmoved g, hmoved new, Nat.add_mod, hg, hnew]
  exact Nat.zero_mod m

end Ring

namespace Cube

/-- What quarter turns keep of the pieces of a cube, however it is held. -/
structure Legal (c : Cube) : Prop where
  arranged : ∃ (σ : Perm Corner) (τ : Perm Edge), (∀ s, (c.corners.get s).corner = σ s)
    ∧ (∀ s, (c.edges.get s).edge = τ s) ∧ σ.sign = τ.sign
  twists : (∑ s, (c.corners.get s).twist.val) % 3 = 0
  flips : (∑ s, (c.edges.get s).flip.val) % 2 = 0

theorem legal_solved : solved.Legal where
  arranged := ⟨1, 1, fun s => by simp [solved, CornerPiece.solved],
    fun s => by simp [solved, EdgePiece.solved], by simp⟩
  twists := by simp [solved, CornerPiece.solved]
  flips := by simp [solved, EdgePiece.solved]

/-- **A quarter turn keeps a cube legal.** -/
theorem Legal.quarterTurn {c : Cube} (h : c.Legal) (f : Face) : (c.quarterTurn f).Legal where
  arranged := by
    obtain ⟨σ, τ, hσ, hτ, hsign⟩ := h.arranged
    refine ⟨σ * f.corners.cycle, τ * f.edges.cycle, ?_, ?_, ?_⟩
    · intro s
      simp [Cube.quarterTurn, CornerPiece.twistBy, hσ, Ring.cycle_apply f.nodup_corners]
    · intro s
      simp [Cube.quarterTurn, EdgePiece.flipBy, hτ, Ring.cycle_apply f.nodup_edges]
    · -- Four corners and four edges go round, so both parities change.
      rw [Perm.sign_mul, Perm.sign_mul, Ring.sign_cycle f.nodup_corners,
        Ring.sign_cycle f.nodup_edges, hsign]
  twists := by
    have hlayer : (∑ s, f.twist s) % 3 = 0 := by cases f <;> decide
    have htwists := Ring.sum_source_mod f.nodup_corners h.twists hlayer
    simpa [Cube.quarterTurn, CornerPiece.twistBy, Fin.val_add] using htwists
  flips := by
    have hlayer : (∑ s, f.flip s) % 2 = 0 := by cases f <;> decide
    have hflips := Ring.sum_source_mod f.nodup_edges h.flips hlayer
    simpa [Cube.quarterTurn, EdgePiece.flipBy, Fin.val_add] using hflips

theorem Legal.turnLayer {c : Cube} (h : c.Legal) (f : Face) (d : Direction) :
    (c.turnLayer f d).Legal := by
  cases d with
  | cw => exact h.quarterTurn f
  | double => exact (h.quarterTurn f).quarterTurn f
  | ccw => exact ((h.quarterTurn f).quarterTurn f).quarterTurn f

theorem Legal.applyOuter {c : Cube} (h : c.Legal) (t : Turn) : (c.applyOuter t).Legal := by
  unfold Cube.applyOuter
  split
  · exact h.turnLayer _ _
  · exact ⟨h.arranged, h.twists, h.flips⟩
  · exact h
  · exact h

theorem Legal.applyTurn {c : Cube} (h : c.Legal) (t : Turn) : (c.applyTurn t).Legal := by
  have houter (ts : List Turn) {c : Cube} (h : c.Legal) : (ts.foldl Cube.applyOuter c).Legal := by
    induction ts generalizing c with
    | nil => exact h
    | cons t ts ih => exact ih (h.applyOuter t)
  exact houter t.outer h

/-! ## Reachable cubes -/

theorem Reachable.legal {c : Cube} (h : c.Reachable) : c.Legal := by
  induction h with
  | solved => exact legal_solved
  | turn h t ih => exact ih.applyTurn t
  | orient h ih => exact ⟨ih.arranged, ih.twists, ih.flips⟩

/-- What a call can do: it makes turns, none if it fails, or takes the cube back to the starting
    orientation. -/
theorem after_eq (c : Cube) (k : Call) :
    (∃ ts, c.after k = c.applyTurns ts) ∨ c.after k = c.orient := by
  have hok {k : Call} {c' : Cube} (h : c.call k = .ok c') : c.after k = c' := by
    rw [after, h]
    rfl
  cases k with
  | apply a => exact .inl ⟨a.turns, hok rfl⟩
  | applyText s =>
    cases h : Algorithm.ofText s with
    | error e =>
      refine .inl ⟨[], ?_⟩
      rw [after, call, applyText, h]
      rfl
    | ok a =>
      refine .inl ⟨a.turns, hok ?_⟩
      rw [call, applyText, h]
      rfl
  | applyTurns ts => exact .inl ⟨ts, hok rfl⟩
  | applyTurn t => exact .inl ⟨[t], hok rfl⟩
  | orient => exact .inr (hok rfl)

theorem Reachable.after {c : Cube} (h : c.Reachable) (k : Call) : (c.after k).Reachable := by
  rcases c.after_eq k with ⟨ts, hturns⟩ | horient
  · rw [hturns]
    exact h.turns ts
  · rw [horient]
    exact h.orient

theorem Reachable.run {c : Cube} (h : c.Reachable) (ks : List Call) : (c.run ks).Reachable := by
  induction ks generalizing c with
  | nil => exact h
  | cons k ks ih => exact ih (h.after k)

/-- Reachable cubes are legal as they are stored. -/
theorem Reachable.legal_stored {c : Cube} (h : c.Reachable) : c.stored.Legal := by
  obtain ⟨⟨σ, τ, hσ, hτ, hsign⟩, htwists, hflips⟩ := h.legal
  have hcorner (s : Corner) : (c.stored.corners.get s).corner = σ s := by
    simpa only [get_corners_stored, CornerPiece.stored] using hσ s
  have hedge (s : Edge) : (c.stored.edges.get s).edge = τ s := by
    simpa only [get_edges_stored, EdgePiece.stored] using hτ s
  have htwist (s : Corner) : (c.stored.corners.get s).twist.toNat = (c.corners.get s).twist := by
    rw [get_corners_stored, CornerPiece.toNat_twist_stored]
  have hflip (s : Edge) : (c.stored.edges.get s).flip.toNat = (c.edges.get s).flip := by
    rw [get_edges_stored, EdgePiece.toNat_flip_stored]
  exact {
    corner_once := fun k => by
      simp only [hcorner]
      exact σ.bijective.existsUnique k
    edge_once := fun k => by
      simp only [hedge]
      exact τ.bijective.existsUnique k
    twist_lt := fun s => UInt8.lt_iff_toNat_lt.2 (htwist s ▸ (c.corners.get s).twist.isLt)
    flip_lt := fun s => UInt8.lt_iff_toNat_lt.2 (hflip s ▸ (c.edges.get s).flip.isLt)
    twists := by simpa only [htwist] using htwists
    flips := by simpa only [hflip] using hflips
    same_parity := ⟨σ, τ, hcorner, hedge, hsign⟩
    face_bijective := h.orientation.face_bijective
    face_opposite := h.orientation.face_opposite
    right_handed := fun _ _ _ => h.orientation.face_cross }

end Cube

/-- **Every state that calls reach is legal.** From the solved cube, calls one after the other never
    overflow a byte, whether they fail or not, and leave a legal cube: the one that they make of the
    solved cube, as it is stored. -/
theorem StoredCube.run_legal (ks : List Cube.Call) :
    solved.run? ks = some (Cube.solved.run ks).stored ∧ (Cube.solved.run ks).stored.Legal :=
  ⟨Cube.run?_stored Cube.solved ks, (Cube.Reachable.run .solved ks).legal_stored⟩

end Cubing
