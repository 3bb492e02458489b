import Cubing.Turn

set_option autoImplicit false

/-! # Wide turns and middle layers as outer turns

Turning two layers of three is turning the whole cube and then holding the third layer back. So a
wide turn is a turn of the far face together with a whole-cube rotation, and a middle layer's turn
is a turn of both outer faces together with one. `Turn.decompose?` gives these words for the turns
that have one; outer face turns and rotations are left alone. -/

namespace Cubing

/-- The whole-cube rotation that turns like a face does in a given direction. -/
def Face.rotation (f : Face) (d : Direction) : Turn :=
  ⟨.rotation f.axis, if f = f.axis.leadFace then d else d.inv⟩

namespace Turn

/-- The outer face turns and the closing rotation that a wide turn or a middle layer's turn amounts
    to. A wide turn of `f` turns the far face in its own direction and then the whole cube like `f`.
    A middle layer's turn is a rotation in which both outer faces stay behind: the face leading the
    rotation turns against it, the face opposite along with it. -/
def decompose? (t : Turn) : Option (List Turn) :=
  match t.move with
  | .wide f => some [⟨.face f.opposite, t.direction⟩, f.rotation t.direction]
  | .slice s =>
    let whole := s.homeFace.rotation t.direction
    let lead := s.axis.leadFace
    some [⟨.face lead, whole.direction.inv⟩, ⟨.face lead.opposite, whole.direction⟩, whole]
  | .face _ | .rotation _ => none

/-- The decompositions written out: each turn that has one, and its words. -/
def decompositions : List (String × List String) :=
  [("u", ["D", "y"]), ("u2", ["D2", "y2"]), ("u'", ["D'", "y'"]),
    ("f", ["B", "z"]), ("f2", ["B2", "z2"]), ("f'", ["B'", "z'"]),
    ("r", ["L", "x"]), ("r2", ["L2", "x2"]), ("r'", ["L'", "x'"]),
    ("d", ["U", "y'"]), ("d2", ["U2", "y2"]), ("d'", ["U'", "y"]),
    ("b", ["F", "z'"]), ("b2", ["F2", "z2"]), ("b'", ["F'", "z"]),
    ("l", ["R", "x'"]), ("l2", ["R2", "x2"]), ("l'", ["R'", "x"]),
    ("M", ["R", "L'", "x'"]), ("M2", ["R2", "L2", "x2"]), ("M'", ["R'", "L", "x"]),
    ("E", ["U", "D'", "y'"]), ("E2", ["U2", "D2", "y2"]), ("E'", ["U'", "D", "y"]),
    ("S", ["F'", "B", "z"]), ("S2", ["F2", "B2", "z2"]), ("S'", ["F", "B'", "z'"])]

/-- **Every turn has the decomposition that is written out for it**, or none. -/
theorem decompose?_eq_lookup (t : Turn) :
    t.decompose?.map (·.map text) = decompositions.lookup t.text := by
  have hall : ∀ m ∈ Move.all, ∀ d ∈ [Direction.cw, .double, .ccw],
      (decompose? ⟨m, d⟩).map (·.map text) = decompositions.lookup (text ⟨m, d⟩) := by
    decide +kernel
  obtain ⟨m, d⟩ := t
  exact hall m (Move.mem_all m) d (by cases d <;> decide)

/-- What needs no decomposing is an outer face turn or a rotation. -/
theorem eq_of_decompose?_eq_none {t : Turn} (h : t.decompose? = none) :
    (∃ f d, t = ⟨.face f, d⟩) ∨ ∃ a d, t = ⟨.rotation a, d⟩ := by
  obtain ⟨m, d⟩ := t
  cases m with
  | face f => exact .inl ⟨f, d, rfl⟩
  | wide f => cases h
  | slice s => cases h
  | rotation a => exact .inr ⟨a, d, rfl⟩

/-- A turn as outer face turns and rotations. -/
def outer (t : Turn) : List Turn := t.decompose?.getD [t]

/-- Only outer faces and the whole cube turn in a decomposed turn. -/
theorem decompose?_of_mem_outer {t u : Turn} (h : u ∈ t.outer) : u.decompose? = none := by
  obtain ⟨m, d⟩ := t
  cases m <;> simp [outer, decompose?] at h
  all_goals grind [decompose?, Face.rotation]

end Turn

end Cubing
