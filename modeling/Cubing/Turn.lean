import Cubing.Move

set_option autoImplicit false

/-! # Turns

A *turn* is a move together with a direction: one, two or three clockwise quarter turns. Four
quarter turns are no turn at all, so directions are the nonzero residues modulo four, and every
operation below (inverse, repetition, merging neighbours) is arithmetic on that number. A turn is
written as its move's letter followed by nothing, `2` or `'`. -/

namespace Cubing

/-! ## Directions -/

/-- How far a move turns. Declared in the order directions compare. -/
inductive Direction where
  /-- A quarter turn clockwise, written without suffix. -/
  | cw
  /-- A half turn, written `2`. -/
  | double
  /-- A quarter turn counterclockwise, written `'`. -/
  | ccw
  deriving DecidableEq, Ord

namespace Direction

/-- The number of clockwise quarter turns, from 1 to 3. -/
def quarterTurns : Direction → Nat
  | cw => 1
  | double => 2
  | ccw => 3

/-- The direction of `n` clockwise quarter turns, if they amount to a turn. -/
def ofQuarterTurns? (n : Nat) : Option Direction :=
  match n % 4 with
  | 1 => some cw
  | 2 => some double
  | 3 => some ccw
  | _ => none

@[simp] theorem ofQuarterTurns?_quarterTurns (d : Direction) :
    ofQuarterTurns? d.quarterTurns = some d := by cases d <;> rfl

/-- Quarter turns count modulo four. -/
theorem ofQuarterTurns?_mod (n : Nat) : ofQuarterTurns? (n % 4) = ofQuarterTurns? n := by
  simp [ofQuarterTurns?]

theorem ofQuarterTurns?_eq_none_iff (n : Nat) : ofQuarterTurns? n = none ↔ n % 4 = 0 := by
  unfold ofQuarterTurns?
  have h : n % 4 < 4 := Nat.mod_lt n (by decide)
  generalize n % 4 = k at h
  match k, h with
  | 0, _ => simp
  | 1, _ => simp
  | 2, _ => simp
  | 3, _ => simp

theorem quarterTurns_of_ofQuarterTurns? {n : Nat} {d : Direction}
    (h : ofQuarterTurns? n = some d) : d.quarterTurns = n % 4 := by
  unfold ofQuarterTurns? at h
  split at h
  · rename_i hmod
    cases h
    exact hmod.symm
  · rename_i hmod
    cases h
    exact hmod.symm
  · rename_i hmod
    cases h
    exact hmod.symm
  · cases h

def inv : Direction → Direction
  | cw => ccw
  | double => double
  | ccw => cw

@[simp] theorem inv_inv (d : Direction) : d.inv.inv = d := by cases d <;> rfl

@[simp] theorem quarterTurns_inv (d : Direction) : d.inv.quarterTurns = 4 - d.quarterTurns := by
  cases d <;> rfl

/-- The characters that write a direction after the move's letter. -/
def suffix : Direction → List Char
  | cw => []
  | double => ['2']
  | ccw => ['\'']

theorem suffix_length_le (d : Direction) : d.suffix.length ≤ 1 := by cases d <;> decide

theorem eq_of_mem_suffix {d : Direction} {c : Char} (h : c ∈ d.suffix) : c = '\'' ∨ c = '2' := by
  cases d with
  | cw => cases h
  | double => exact .inr (List.mem_singleton.1 h)
  | ccw => exact .inl (List.mem_singleton.1 h)

def ofSuffix? : List Char → Option Direction
  | [] => some cw
  | ['2'] => some double
  | ['\''] => some ccw
  | _ => none

@[simp] theorem ofSuffix?_suffix (d : Direction) : ofSuffix? d.suffix = some d := by
  cases d <;> rfl

theorem suffix_of_ofSuffix? {cs : List Char} {d : Direction} (h : ofSuffix? cs = some d) :
    d.suffix = cs := by
  unfold ofSuffix? at h
  split at h <;> simp at h <;> subst h <;> rfl

end Direction

/-! ## Turns -/

/-- A single turn, such as `R`, `u2`, `M'` or `x`. -/
structure Turn where
  move : Move
  direction : Direction
  deriving DecidableEq

namespace Turn

def sameMove (a b : Turn) : Bool := a.move = b.move

/-- Whether two turns turn layers along the same axis. Rotations are parallel to nothing. -/
def parallel (a b : Turn) : Bool :=
  a.move.layerAxis?.isSome && a.move.layerAxis? = b.move.layerAxis?

def isDouble (t : Turn) : Bool := t.direction = .double

def isSingle (t : Turn) : Bool := !t.isDouble

def isRotation (t : Turn) : Bool := t.move.isRotation

/-- The turn that undoes a turn. -/
def inv (t : Turn) : Turn := ⟨t.move, t.direction.inv⟩

@[simp] theorem inv_inv (t : Turn) : t.inv.inv = t := by simp [inv]

@[simp] theorem move_inv (t : Turn) : t.inv.move = t.move := rfl

/-- Several turns undone: each turn undone, the last one first. -/
def invList (ts : List Turn) : List Turn := (ts.map inv).reverse

@[simp] theorem invList_nil : invList [] = [] := rfl

@[simp] theorem invList_cons (t : Turn) (ts : List Turn) :
    invList (t :: ts) = invList ts ++ [t.inv] := by simp [invList]

@[simp] theorem invList_append (ts us : List Turn) :
    invList (ts ++ us) = invList us ++ invList ts := by simp [invList]

@[simp] theorem invList_invList (ts : List Turn) : invList (invList ts) = ts := by
  simp [invList, List.map_reverse, Function.comp_def]

@[simp] theorem length_invList (ts : List Turn) : (invList ts).length = ts.length := by
  simp [invList]

/-- A move turned by `n` clockwise quarter turns, if that is a turn at all. -/
def ofQuarterTurns? (m : Move) (n : Nat) : Option Turn :=
  (Direction.ofQuarterTurns? n).map (⟨m, ·⟩)

/-- A turn done `n` times, if that is a turn at all. -/
def times? (t : Turn) (n : Nat) : Option Turn :=
  ofQuarterTurns? t.move (t.direction.quarterTurns * n)

/-- What two neighbouring turns amount to. -/
inductive Merge where
  /-- They undo each other. -/
  | cancelled
  /-- They are one turn of their common move. -/
  | merged (t : Turn)
  /-- They are of different moves and stay two turns. -/
  | unmerged (a b : Turn)
  deriving DecidableEq

def Merge.toList : Merge → List Turn
  | cancelled => []
  | merged t => [t]
  | unmerged a b => [a, b]

/-- Merges two neighbouring turns: quarter turns of the same move add up. -/
def merge (a b : Turn) : Merge :=
  if a.move = b.move then
    match ofQuarterTurns? a.move (a.direction.quarterTurns + b.direction.quarterTurns) with
    | some t => .merged t
    | none => .cancelled
  else
    .unmerged a b

/-- Turns of one move become what their quarter turns amount to. -/
theorem toList_merge {a b : Turn} (h : a.move = b.move) :
    (merge a b).toList
      = (ofQuarterTurns? a.move (a.direction.quarterTurns + b.direction.quarterTurns)).toList := by
  rw [merge, if_pos h]
  cases ofQuarterTurns? a.move (a.direction.quarterTurns + b.direction.quarterTurns) <;> rfl

/-- Only turns of one move become one turn, and it is of that move. -/
theorem move_of_merge_eq_merged {a b c : Turn} (h : merge a b = .merged c) :
    b.move = a.move ∧ c.move = a.move := by
  by_cases hmove : a.move = b.move
  · rw [merge, if_pos hmove, ofQuarterTurns?] at h
    cases hsum : Direction.ofQuarterTurns? (a.direction.quarterTurns + b.direction.quarterTurns)
      with
    | none => simp [hsum] at h
    | some d =>
      obtain rfl : ⟨a.move, d⟩ = c := by simpa [hsum] using h
      exact ⟨hmove.symm, rfl⟩
  · simp [merge, hmove] at h

/-- What two turns become is neither of them. -/
theorem ne_of_merge_eq_merged {a b c : Turn} (h : merge a b = .merged c) : c ≠ a := by
  rintro rfl
  obtain ⟨hmove, -⟩ := move_of_merge_eq_merged h
  obtain ⟨m, d⟩ := c
  obtain ⟨m, e⟩ := b
  cases hmove
  revert h
  cases d <;> cases e <;> simp [merge, ofQuarterTurns?, Direction.quarterTurns,
    Direction.ofQuarterTurns?]

theorem merge_inv (t : Turn) : merge t t.inv = .cancelled := by
  obtain ⟨m, d⟩ := t
  cases d <;> simp [merge, inv, ofQuarterTurns?, Direction.inv, Direction.quarterTurns,
    Direction.ofQuarterTurns?]

/-! ## Spelling -/

def chars (t : Turn) : List Char := t.move.letter :: t.direction.suffix

/-- The text of a turn: the move's letter followed by the direction's suffix. -/
def text (t : Turn) : String := String.ofList t.chars

def ofChars? : List Char → Option Turn
  | [] => none
  | c :: cs => do return ⟨← Move.ofLetter? c, ← Direction.ofSuffix? cs⟩

def ofText? (s : String) : Option Turn := ofChars? s.toList

@[simp] theorem ofChars?_chars (t : Turn) : ofChars? t.chars = some t := by
  simp [ofChars?, chars]

@[simp] theorem ofText?_text (t : Turn) : ofText? t.text = some t := by
  simp [ofText?, text]

/-- Only a turn's own spelling is read as that turn. -/
theorem chars_of_ofChars? {cs : List Char} {t : Turn} (h : ofChars? cs = some t) :
    t.chars = cs := by
  cases cs with
  | nil => simp [ofChars?] at h
  | cons c cs =>
    simp only [ofChars?, Option.bind_eq_bind, Option.pure_def, Option.bind_eq_some_iff,
      Option.some.injEq] at h
    obtain ⟨m, hm, d, hd, rfl⟩ := h
    simp [chars, Move.letter_of_ofLetter? hm, Direction.suffix_of_ofSuffix? hd]

theorem ofChars?_eq_some_iff {cs : List Char} {t : Turn} : ofChars? cs = some t ↔ t.chars = cs :=
  ⟨chars_of_ofChars?, fun h => h ▸ ofChars?_chars t⟩

end Turn

end Cubing
