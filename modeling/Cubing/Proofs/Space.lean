import Cubing.Turn.Decomposition
import Mathlib.Logic.Function.Iterate
import Mathlib.Tactic.Ring

set_option autoImplicit false

/-! # Turning in space

The reference for every turn of the cube: stickers in space. The cube is centred at the origin, with
`x` pointing to `R`, `y` to `U` and `z` to `F`. A sticker is at a *place*, the position of its cubie
together with the outward normal of the side that it sticks on. A turn takes some of the three layers
along an axis and turns them clockwise by quarter turns, as seen from the face it turns like.

So a turn gives every layer along one axis a number of quarter turns (`Turn.amount`), and turns about
the same axis do what their amounts add up to (`Place.carried_congr`). Commuting, merging and undoing
turns, and replacing wide turns and middle layers by outer turns and a rotation, are arithmetic on
these numbers. -/

namespace Cubing

/-! ## Vectors -/

/-- A vector with integer coordinates. -/
@[ext] structure Vec where
  /-- Towards `R`. -/
  x : Int
  /-- Towards `U`. -/
  y : Int
  /-- Towards `F`. -/
  z : Int
  deriving DecidableEq

namespace Vec

instance : Add Vec := ⟨fun v w => ⟨v.x + w.x, v.y + w.y, v.z + w.z⟩⟩
instance : Neg Vec := ⟨fun v => ⟨-v.x, -v.y, -v.z⟩⟩
instance : SMul Int Vec := ⟨fun k v => ⟨k * v.x, k * v.y, k * v.z⟩⟩

@[simp] theorem x_add (v w : Vec) : (v + w).x = v.x + w.x := rfl
@[simp] theorem y_add (v w : Vec) : (v + w).y = v.y + w.y := rfl
@[simp] theorem z_add (v w : Vec) : (v + w).z = v.z + w.z := rfl
@[simp] theorem x_neg (v : Vec) : (-v).x = -v.x := rfl
@[simp] theorem y_neg (v : Vec) : (-v).y = -v.y := rfl
@[simp] theorem z_neg (v : Vec) : (-v).z = -v.z := rfl
@[simp] theorem x_smul (k : Int) (v : Vec) : (k • v).x = k * v.x := rfl
@[simp] theorem y_smul (k : Int) (v : Vec) : (k • v).y = k * v.y := rfl
@[simp] theorem z_smul (k : Int) (v : Vec) : (k • v).z = k * v.z := rfl

def dot (v w : Vec) : Int := v.x * w.x + v.y * w.y + v.z * w.z

def cross (v w : Vec) : Vec :=
  ⟨v.y * w.z - v.z * w.y, v.z * w.x - v.x * w.z, v.x * w.y - v.y * w.x⟩

/-- A vector turned clockwise by a quarter about a unit vector, seen from that vector's tip: the
    part along the unit vector stays, the part across it moves on by a right angle. -/
def quarter (v n : Vec) : Vec := v.dot n • n + v.cross n

end Vec

/-- The outward normal of a face. -/
def Face.normal : Face → Vec
  | .R => ⟨1, 0, 0⟩ | .L => ⟨-1, 0, 0⟩
  | .U => ⟨0, 1, 0⟩ | .D => ⟨0, -1, 0⟩
  | .F => ⟨0, 0, 1⟩ | .B => ⟨0, 0, -1⟩

/-- A quarter turn in coordinates: `U`, `R`, `D`, `L` follow each other around `F`, and alike for
    the other faces. -/
theorem Vec.quarter_normal (v : Vec) (f : Face) :
    v.quarter f.normal = match f with
      | .R => ⟨v.x, v.z, -v.y⟩ | .L => ⟨v.x, -v.z, v.y⟩
      | .U => ⟨-v.z, v.y, v.x⟩ | .D => ⟨v.z, v.y, -v.x⟩
      | .F => ⟨v.y, -v.x, v.z⟩ | .B => ⟨-v.y, v.x, v.z⟩ := by
  cases f <;> ext <;> simp [quarter, dot, cross, Face.normal]

/-! ## Places -/

/-- A place for a sticker. -/
@[ext] structure Place where
  /-- Where the cubie is, with coordinates -1, 0 and 1. -/
  position : Vec
  /-- The outward unit normal of the cubie's side. -/
  normal : Vec
  deriving DecidableEq

namespace Place

/-- How far out towards a face the layer of a place is: 1 for the layer of the face, 0 for the
    middle layer, -1 for the layer of the opposite face. -/
def depth (f : Face) (p : Place) : Int := p.position.dot f.normal

/-- A place turned clockwise by a quarter, seen from a face. -/
def quarter (f : Face) (p : Place) : Place :=
  ⟨p.position.quarter f.normal, p.normal.quarter f.normal⟩

end Place

/-! ## Turns -/

/-- The face that a move turns like. -/
def Move.leader : Move → Face
  | .face f | .wide f => f
  | .slice s => s.homeFace
  | .rotation a => a.leadFace

/-- Whether a move turns the layer at a depth towards its leader. -/
def Move.turnsLayer (m : Move) (depth : Int) : Bool :=
  match m with
  | .face _ => depth = 1
  | .wide _ => depth = 1 || depth = 0
  | .slice _ => depth = 0
  | .rotation _ => true

/-- Where a turn takes the sticker at a place. -/
def Place.turned (t : Turn) (p : Place) : Place :=
  if t.move.turnsLayer (p.depth t.move.leader) then
    (Place.quarter t.move.leader)^[t.direction.quarterTurns] p
  else p

/-! ## Quarter turns -/

theorem Face.eq_leadFace_or (f : Face) :
    f = f.axis.leadFace ∨ f ≠ f.axis.leadFace ∧ f = f.axis.leadFace.opposite := by
  cases f <;> decide

@[simp] theorem Face.normal_opposite (f : Face) : f.opposite.normal = -f.normal := by
  cases f <;> rfl

namespace Place

@[simp] theorem depth_opposite (f : Face) (p : Place) : p.depth f.opposite = -p.depth f := by
  simp only [depth, Face.normal_opposite, Vec.dot, Vec.x_neg, Vec.y_neg, Vec.z_neg]
  ring

/-- Turning about a face's axis keeps every layer along that axis. -/
@[simp] theorem depth_quarter (f : Face) (p : Place) : (p.quarter f).depth f = p.depth f := by
  cases f <;> simp [depth, quarter, Vec.quarter, Vec.dot, Vec.cross, Face.normal]

@[simp] theorem depth_quarter_iterate (f : Face) (n : Nat) (p : Place) :
    ((quarter f)^[n] p).depth f = p.depth f := by
  induction n generalizing p with
  | zero => rfl
  | succ n ih => rw [Function.iterate_succ_apply, ih, depth_quarter]

/-- Four quarter turns are a full turn. -/
theorem quarter_four (f : Face) (p : Place) : (quarter f)^[4] p = p := by
  cases f <;> simp [quarter, Vec.quarter_normal]

/-- Quarter turns of a place count modulo four. -/
theorem quarter_iterate_mod (f : Face) (n : Nat) (p : Place) :
    (quarter f)^[n % 4] p = (quarter f)^[n] p := by
  have hfull : (quarter f)^[4] = id := funext (quarter_four f)
  conv_rhs => rw [← Nat.mod_add_div n 4, Function.iterate_add, Function.iterate_mul, hfull]
  simp

/-- Clockwise as seen from the opposite face is counterclockwise. -/
theorem quarter_opposite (f : Face) (p : Place) : p.quarter f.opposite = (quarter f)^[3] p := by
  cases f <;> simp [quarter, Vec.quarter_normal, Face.opposite]

/-- So turning as seen from the opposite face is turning backwards. -/
theorem quarter_opposite_iterate (f : Face) (d : Direction) (p : Place) :
    (quarter f.opposite)^[d.quarterTurns] p = (quarter f)^[d.inv.quarterTurns] p := by
  have hquarter : quarter f.opposite = (quarter f)^[3] := funext (quarter_opposite f)
  rw [hquarter, ← Function.iterate_mul, ← quarter_iterate_mod]
  cases d <;> rfl

/-! ## Layers along an axis -/

/-- Turns every layer along an axis by its own number of quarter turns, clockwise as seen from the
    leading face. -/
def spin (a : Axis) (k : Int → Nat) (p : Place) : Place :=
  (quarter a.leadFace)^[k (p.depth a.leadFace)] p

@[simp] theorem depth_spin (a : Axis) (k : Int → Nat) (p : Place) :
    (p.spin a k).depth a.leadFace = p.depth a.leadFace := depth_quarter_iterate _ _ _

/-- Turns about one axis add up layer by layer. -/
theorem spin_spin (a : Axis) (j k : Int → Nat) (p : Place) :
    (p.spin a j).spin a k = p.spin a fun d => j d + k d := by
  have hdepth := depth_spin a j p
  rw [spin, hdepth, spin, spin, ← Function.iterate_add_apply, Nat.add_comm]

/-- Only the quarter turns of a place's own layer matter, and they count modulo four. -/
theorem spin_congr (a : Axis) {j k : Int → Nat} (p : Place)
    (h : j (p.depth a.leadFace) % 4 = k (p.depth a.leadFace) % 4) : p.spin a j = p.spin a k := by
  rw [spin, spin, ← quarter_iterate_mod, h, quarter_iterate_mod]

end Place

/-! ## Turns as amounts -/

/-- How often the layer at a depth turns for each quarter turn of a move, clockwise as seen from the
    face leading the axis. If the move turns like the opposite face, every quarter turn backwards
    counts as three. -/
def Move.rate (m : Move) (d : Int) : Nat :=
  if m.leader = m.leader.axis.leadFace then
    if m.turnsLayer d then 1 else 0
  else
    if m.turnsLayer (-d) then 3 else 0

namespace Turn

def axis (t : Turn) : Axis := t.move.leader.axis

/-- The number of quarter turns that a turn gives to the layer at a depth along its axis. -/
def amount (t : Turn) (d : Int) : Nat := t.direction.quarterTurns * t.move.rate d

/-- The number of quarter turns that several turns about one axis give to a layer. -/
def totalAmount (ts : List Turn) (d : Int) : Nat := (ts.map (·.amount d)).sum

@[simp] theorem totalAmount_nil (d : Int) : totalAmount [] d = 0 := rfl

@[simp] theorem totalAmount_cons (t : Turn) (ts : List Turn) (d : Int) :
    totalAmount (t :: ts) d = t.amount d + totalAmount ts d := by simp [totalAmount]

@[simp] theorem axis_inv (t : Turn) : t.inv.axis = t.axis := rfl

theorem axis_of_ofQuarterTurns? {m : Move} {n : Nat} {t : Turn}
    (h : t ∈ (ofQuarterTurns? m n).toList) : t.axis = m.leader.axis := by
  obtain ⟨d, -, rfl⟩ : ∃ d, Direction.ofQuarterTurns? n = some d ∧ ⟨m, d⟩ = t := by
    simpa [ofQuarterTurns?] using h
  rfl

/-- What `n` quarter turns of a move amount to gives every layer `n` times the move's rate. -/
theorem totalAmount_ofQuarterTurns? (m : Move) (n : Nat) (d : Int) :
    totalAmount (ofQuarterTurns? m n).toList d % 4 = n * m.rate d % 4 := by
  cases h : Direction.ofQuarterTurns? n with
  | none =>
    have hn : n % 4 = 0 := (Direction.ofQuarterTurns?_eq_none_iff n).1 h
    simp [ofQuarterTurns?, h, Nat.mul_mod, hn]
  | some k =>
    have hk : k.quarterTurns = n % 4 := Direction.quarterTurns_of_ofQuarterTurns? h
    simp [ofQuarterTurns?, h, amount, hk, Nat.mod_mul_mod]

/-- A turn and its inverse give every layer full turns. -/
theorem amount_inv (t : Turn) (d : Int) : (t.amount d + t.inv.amount d) % 4 = 0 := by
  have hfull : t.direction.quarterTurns + t.inv.direction.quarterTurns = 4 := by
    cases h : t.direction <;> simp [inv, h, Direction.inv, Direction.quarterTurns]
  rw [amount, amount, move_inv, ← Nat.add_mul, hfull, Nat.mul_mod_right]

theorem totalAmount_append (ts us : List Turn) (d : Int) :
    totalAmount (ts ++ us) d = totalAmount ts d + totalAmount us d := by
  simp [totalAmount]

theorem totalAmount_invList (ts : List Turn) (d : Int) :
    (totalAmount ts d + totalAmount (invList ts) d) % 4 = 0 := by
  induction ts with
  | nil => rfl
  | cons t ts ih =>
    have ht := t.amount_inv d
    rw [invList_cons, totalAmount_append, totalAmount_cons, totalAmount_cons, totalAmount_nil]
    omega

theorem axis_of_mem_invList {a : Axis} {ts : List Turn} (hts : ∀ t ∈ ts, t.axis = a) :
    ∀ u ∈ invList ts, u.axis = a := by
  intro u hu
  obtain ⟨t, ht, rfl⟩ : ∃ t ∈ ts, t.inv = u := by simpa [invList] using hu
  exact hts t ht

/-- In the three layers of the cube, the outer turns and rotations that a turn amounts to give every
    layer as many quarter turns as the turn itself does. -/
theorem totalAmount_outer (t : Turn) {d : Int} (hd : d ∈ [-1, 0, 1]) :
    totalAmount t.outer d % 4 = t.amount d % 4 := by
  have hall : ∀ m ∈ Move.all, ∀ k ∈ [Direction.cw, .double, .ccw], ∀ d ∈ [-1, 0, 1],
      totalAmount (outer ⟨m, k⟩) d % 4 = amount ⟨m, k⟩ d % 4 := by decide
  obtain ⟨m, k⟩ := t
  exact hall m (Move.mem_all m) k (by cases k <;> simp) d hd

theorem axis_of_mem_outer {t u : Turn} (h : u ∈ t.outer) : u.axis = t.axis := by
  have hall : ∀ m ∈ Move.all, ∀ k ∈ [Direction.cw, .double, .ccw],
      ∀ u ∈ outer ⟨m, k⟩, u.axis = m.leader.axis := by decide
  obtain ⟨m, k⟩ := t
  exact hall m (Move.mem_all m) k (by cases k <;> simp) u h

end Turn

namespace Place

/-- A turn is the spin with its amounts. -/
theorem turned_eq_spin (t : Turn) (p : Place) : p.turned t = p.spin t.axis t.amount := by
  have hleader : t.move.leader = t.axis.leadFace ∨
      t.move.leader ≠ t.axis.leadFace ∧ t.move.leader = t.axis.leadFace.opposite :=
    t.move.leader.eq_leadFace_or
  rcases hleader with hlead | ⟨hne, hopp⟩
  · have hrate (d : Int) : t.move.rate d = if t.move.turnsLayer d then 1 else 0 := if_pos hlead
    rw [turned, spin, Turn.amount, hrate, hlead]
    split <;> simp
  · have hdepth : -p.depth t.axis.leadFace = p.depth t.move.leader := by
      rw [hopp, depth_opposite]
    have hrate (d : Int) : t.move.rate d = if t.move.turnsLayer (-d) then 3 else 0 := if_neg hne
    have hquarter : quarter t.move.leader = (quarter t.axis.leadFace)^[3] := by
      funext q
      rw [hopp, quarter_opposite]
    rw [turned, spin, Turn.amount, hrate, hdepth, hquarter, ← Function.iterate_mul]
    split <;> simp [Nat.mul_comm]

/-- Where turns made one after the other take the sticker at a place. -/
def carried (p : Place) (ts : List Turn) : Place := ts.foldl (fun q t => q.turned t) p

@[simp] theorem carried_nil (p : Place) : p.carried [] = p := rfl

@[simp] theorem carried_cons (p : Place) (t : Turn) (ts : List Turn) :
    p.carried (t :: ts) = (p.turned t).carried ts := rfl

theorem carried_append (p : Place) (ts us : List Turn) :
    p.carried (ts ++ us) = (p.carried ts).carried us := by
  simp [carried]

theorem carried_eq_spin {a : Axis} {ts : List Turn} (hts : ∀ t ∈ ts, t.axis = a) (p : Place) :
    p.carried ts = p.spin a (Turn.totalAmount ts) := by
  induction ts generalizing p with
  | nil => rfl
  | cons t ts ih =>
    have ht : t.axis = a := hts t List.mem_cons_self
    have hrest := ih (fun u hu => hts u (List.mem_cons_of_mem t hu)) (p.turned t)
    rw [carried_cons, hrest, turned_eq_spin, ht, spin_spin]
    rfl

theorem depth_carried {a : Axis} {ts : List Turn} (hts : ∀ t ∈ ts, t.axis = a) (p : Place) :
    (p.carried ts).depth a.leadFace = p.depth a.leadFace := by
  rw [carried_eq_spin hts, depth_spin]

/-- **Turns about one axis do what their amounts add up to.** -/
theorem carried_congr {a : Axis} {ts us : List Turn} (hts : ∀ t ∈ ts, t.axis = a)
    (hus : ∀ u ∈ us, u.axis = a) (p : Place)
    (h : Turn.totalAmount ts (p.depth a.leadFace) % 4
      = Turn.totalAmount us (p.depth a.leadFace) % 4) :
    p.carried ts = p.carried us := by
  rw [carried_eq_spin hts, carried_eq_spin hus, spin_congr a p h]

@[simp] theorem turned_turned_inv (t : Turn) (p : Place) : (p.turned t).turned t.inv = p := by
  have hts : ∀ u ∈ [t, t.inv], u.axis = t.axis := by simp
  have hnil : ∀ u ∈ ([] : List Turn), u.axis = t.axis := by simp
  refine carried_congr hts hnil p ?_
  simpa using t.amount_inv _

@[simp] theorem turned_inv_turned (t : Turn) (p : Place) : (p.turned t.inv).turned t = p := by
  simpa using turned_turned_inv t.inv p

theorem turned_injective (t : Turn) : Function.Injective (turned t) :=
  Function.LeftInverse.injective (turned_turned_inv t)

end Place

end Cubing
