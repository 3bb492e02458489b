import Cubing.Proofs.Holding
import Cubing.Puzzle.Cube
import Mathlib.Data.Fin.VecNotation

set_option autoImplicit false

/-! # The stickers of a cube

The cube of the puzzle, slots with pieces in them and a way of being held, seen as 54 stickers in
space. Every slot has two or three *facelets*, the places for the stickers of its piece, counted from
the one on `U` or `D` (for an edge that has neither, from the one on `F` or `B`); a corner's facelets
are counted clockwise. A twist or a flip says how many facelets further the piece's stickers sit.

The stickers of a cube determine it (`Cube.eq_of_stickers`), so whatever holds of turning stickers in
space holds of the cube. -/

namespace Cubing

/-! ## Facelets -/

/-- The faces that a corner slot touches, clockwise from `U` or `D`. -/
def Corner.sides : Corner → Fin 3 → Face
  | .UBL => ![.U, .L, .B] | .UBR => ![.U, .B, .R] | .UFR => ![.U, .R, .F] | .UFL => ![.U, .F, .L]
  | .DFL => ![.D, .L, .F] | .DFR => ![.D, .F, .R] | .DBR => ![.D, .R, .B] | .DBL => ![.D, .B, .L]

/-- The faces that an edge slot touches, `U` or `D` first, or else `F` or `B`. -/
def Edge.sides : Edge → Fin 2 → Face
  | .UB => ![.U, .B] | .UR => ![.U, .R] | .UF => ![.U, .F] | .UL => ![.U, .L]
  | .FL => ![.F, .L] | .FR => ![.F, .R] | .BR => ![.B, .R] | .BL => ![.B, .L]
  | .DF => ![.D, .F] | .DR => ![.D, .R] | .DB => ![.D, .B] | .DL => ![.D, .L]

/-- The facelets of the physical cube. They also name the stickers, each by the facelet where it is
    on the solved cube. -/
inductive Facelet where
  /-- A facelet of a corner slot, counted clockwise. -/
  | corner (s : Corner) (i : Fin 3)
  | edge (s : Edge) (i : Fin 2)
  | centre (f : Face)
  deriving DecidableEq

namespace Facelet

def all : List Facelet :=
  Corner.all.flatMap (fun s => List.ofFn (corner s)) ++ Edge.all.flatMap (fun s => List.ofFn (edge s))
    ++ Face.all.map centre

theorem mem_all (x : Facelet) : x ∈ all := by
  cases x with
  | corner s i => cases s <;> (revert i; decide)
  | edge s i => cases s <;> (revert i; decide)
  | centre f => cases f <;> decide

/-- Where the layers of some faces meet. -/
def cubie (faces : List Face) : Vec := (faces.map Face.normal).foldr (· + ·) ⟨0, 0, 0⟩

/-- Where a facelet is in space. The cubie of a slot is where the layers of its sides meet. -/
def place : Facelet → Place
  | corner s i => ⟨cubie (List.ofFn s.sides), (s.sides i).normal⟩
  | edge s i => ⟨cubie (List.ofFn s.sides), (s.sides i).normal⟩
  | centre f => ⟨f.normal, f.normal⟩

end Facelet

/-- The facelet at a place, if there is one. -/
def Place.facelet? (p : Place) : Option Facelet := Facelet.all.find? (·.place = p)

@[simp] theorem Facelet.facelet?_place (x : Facelet) : x.place.facelet? = some x := by
  have hall : ∀ x ∈ all, x.place.facelet? = some x := by decide +kernel
  exact hall x (mem_all x)

theorem Place.place_of_facelet? {p : Place} {x : Facelet} (h : p.facelet? = some x) :
    x.place = p := by
  simpa using List.find?_some h

/-- The facelets are the outer sides of the cubies: a cubie is within one step of the middle along
    every axis, and has a side outwards on every face that it reaches. -/
theorem Place.isSome_facelet?_iff (p : Place) :
    p.facelet?.isSome ↔
      (∀ f, p.depth f ∈ [-1, 0, 1]) ∧ ∃ f : Face, p.normal = f.normal ∧ p.depth f = 1 := by
  constructor
  · intro h
    obtain ⟨x, hx⟩ := Option.isSome_iff_exists.1 h
    have hdepth : ∀ x ∈ Facelet.all, ∀ f ∈ Face.all, x.place.depth f ∈ [-1, 0, 1] := by
      decide +kernel
    have hout : ∀ x ∈ Facelet.all, ∃ f ∈ Face.all,
        x.place.normal = f.normal ∧ x.place.depth f = 1 := by
      decide +kernel
    rw [← place_of_facelet? hx]
    obtain ⟨f, -, hf⟩ := hout x (Facelet.mem_all x)
    exact ⟨fun g => hdepth x (Facelet.mem_all x) g (Face.mem_all g), f, hf⟩
  · rintro ⟨hdepth, f, hnormal, hout⟩
    have hall : ∀ x ∈ [-1, 0, 1], ∀ y ∈ [-1, 0, 1], ∀ z ∈ [-1, 0, 1], ∀ f ∈ Face.all,
        depth f ⟨⟨x, y, z⟩, f.normal⟩ = 1 → (facelet? ⟨⟨x, y, z⟩, f.normal⟩).isSome := by
      decide +kernel
    obtain ⟨⟨x, y, z⟩, n⟩ := p
    obtain rfl : n = f.normal := hnormal
    have hx : x ∈ [-1, 0, 1] := by simpa [depth, Vec.dot, Face.normal] using hdepth .R
    have hy : y ∈ [-1, 0, 1] := by simpa [depth, Vec.dot, Face.normal] using hdepth .U
    have hz : z ∈ [-1, 0, 1] := by simpa [depth, Vec.dot, Face.normal] using hdepth .F
    exact hall x hx y hy z hz f (Face.mem_all f) hout

/-! ## Stickers in space -/

/-- The sticker at each place, if there is one. -/
def Stickers : Type := Place → Option Facelet

namespace Stickers

@[ext] theorem ext {s s' : Stickers} (h : ∀ p, s p = s' p) : s = s' := funext h

/-- Turns the stickers: to every place comes the sticker that was where the turn takes it from. -/
def turn (s : Stickers) (t : Turn) : Stickers := fun p => s (p.turned t.inv)

def turns (s : Stickers) (ts : List Turn) : Stickers := ts.foldl turn s

@[simp] theorem turns_nil (s : Stickers) : s.turns [] = s := rfl

@[simp] theorem turns_cons (s : Stickers) (t : Turn) (ts : List Turn) :
    s.turns (t :: ts) = (s.turn t).turns ts := rfl

theorem turns_append (s : Stickers) (ts us : List Turn) :
    s.turns (ts ++ us) = (s.turns ts).turns us := by
  simp [turns]

/-- Where the sticker that comes to a place was before, all turns undone. -/
theorem turns_apply (s : Stickers) (ts : List Turn) (p : Place) :
    s.turns ts p = s (p.carried (Turn.invList ts)) := by
  induction ts generalizing s with
  | nil => rfl
  | cons t ts ih =>
    rw [turns_cons, ih, Turn.invList_cons, Place.carried_append]
    rfl

/-- Turns about one axis that give the layer of a place the same amount bring the same sticker
    there. -/
theorem turns_apply_congr (s : Stickers) {a : Axis} {ts us : List Turn}
    (hts : ∀ t ∈ ts, t.axis = a) (hus : ∀ u ∈ us, u.axis = a) (p : Place)
    (h : Turn.totalAmount ts (p.depth a.leadFace) % 4
      = Turn.totalAmount us (p.depth a.leadFace) % 4) :
    s.turns ts p = s.turns us p := by
  have hinvs := Turn.totalAmount_invList ts (p.depth a.leadFace)
  have hinvs' := Turn.totalAmount_invList us (p.depth a.leadFace)
  rw [turns_apply, turns_apply, Place.carried_congr (Turn.axis_of_mem_invList hts)
    (Turn.axis_of_mem_invList hus) p (by omega)]

theorem turns_congr (s : Stickers) {a : Axis} {ts us : List Turn} (hts : ∀ t ∈ ts, t.axis = a)
    (hus : ∀ u ∈ us, u.axis = a)
    (h : ∀ d, Turn.totalAmount ts d % 4 = Turn.totalAmount us d % 4) :
    s.turns ts = s.turns us := by
  ext p : 1
  exact s.turns_apply_congr hts hus p (h _)

end Stickers

namespace Cube

/-- The sticker on a facelet of the physical cube. -/
def shown (c : Cube) : Facelet → Facelet
  | .corner s i => .corner (c.corners.get s).corner (i - (c.corners.get s).twist)
  | .edge s i => .edge (c.edges.get s).edge (i - (c.edges.get s).flip)
  | .centre f => .centre f

/-- The stickers of the physical cube, however it is held: every slot's piece and the fixed
    middles. -/
def physicalStickers (c : Cube) : Stickers := fun q => q.facelet?.map c.shown

/-- The stickers of a cube as it is held: at every place, what the physical cube has there. -/
def stickers (c : Cube) : Stickers := fun p => c.physicalStickers (p.physical c.orientation)

/-- A cube is determined by the stickers on its physical facelets. -/
theorem pieces_eq_of_shown {c d : Cube} (h : c.shown = d.shown) :
    c.corners = d.corners ∧ c.edges = d.edges := by
  have htwist : ∀ i j : Fin 3, 0 - i = 0 - j → i = j := by decide
  have hflip : ∀ i j : Fin 2, 0 - i = 0 - j → i = j := by decide
  constructor
  · ext s
    obtain ⟨hname, hcount⟩ := Facelet.corner.inj (congrFun h (.corner s 0))
    have heq := htwist _ _ hcount
    cases hc : c.corners.get s
    cases hd : d.corners.get s
    rw [hc, hd] at hname heq
    rw [CornerPiece.mk.injEq]
    exact ⟨hname, heq⟩
  · ext s
    obtain ⟨hname, hcount⟩ := Facelet.edge.inj (congrFun h (.edge s 0))
    have heq := hflip _ _ hcount
    cases hc : c.edges.get s
    cases hd : d.edges.get s
    rw [hc, hd] at hname heq
    rw [EdgePiece.mk.injEq]
    exact ⟨hname, heq⟩

theorem stickers_eq_some {c : Cube} {p : Place} {x : Facelet}
    (h : p.physical c.orientation = x.place) : c.stickers p = some (c.shown x) := by
  rw [stickers, physicalStickers, h, Facelet.facelet?_place, Option.map_some]

/-- **The stickers determine the cube**, how it is held included. -/
theorem eq_of_stickers {c d : Cube} (hc : c.orientation.Reachable) (hd : d.orientation.Reachable)
    (h : c.stickers = d.stickers) : c = d := by
  have horientation : c.orientation = d.orientation := by
    ext f
    have hcentre {e : Cube} (he : e.orientation.Reachable) :
        e.stickers (Facelet.place (.centre f)) = some (.centre (e.orientation.face f)) := by
      apply stickers_eq_some (x := .centre (e.orientation.face f))
      simp [Place.physical, Facelet.place, he.physical_normal]
    have := (hcentre hc).symm.trans ((congrFun h _).trans (hcentre hd))
    simpa using this
  have hshown : c.shown = d.shown := by
    funext x
    obtain ⟨p, hp⟩ := Place.exists_physical_eq hc x.place
    have := (stickers_eq_some hp).symm.trans
      ((congrFun h p).trans (stickers_eq_some (horientation ▸ hp)))
    simpa using this
  obtain ⟨hcorners, hedges⟩ := pieces_eq_of_shown hshown
  cases c
  cases d
  rw [mk.injEq]
  exact ⟨hcorners, hedges, horientation⟩

end Cube

end Cubing
