import Cubing.Puzzle.Piece

set_option autoImplicit false

/-! # Tables indexed by slots

A cube holds one corner in each corner slot and one edge in each edge slot. A table with one entry
for each slot is a function on slots, stored entry by entry: `get` reads it, `ofFn` stores a
function, and two tables are equal if they agree on every slot. -/

namespace Cubing

/-- One entry for each corner slot. -/
structure CornerTable (α : Type) where
  ubl : α
  ubr : α
  ufr : α
  ufl : α
  dfl : α
  dfr : α
  dbr : α
  dbl : α
  deriving DecidableEq

namespace CornerTable

variable {α : Type}

def get (t : CornerTable α) : Corner → α
  | .UBL => t.ubl | .UBR => t.ubr | .UFR => t.ufr | .UFL => t.ufl
  | .DFL => t.dfl | .DFR => t.dfr | .DBR => t.dbr | .DBL => t.dbl

def ofFn (g : Corner → α) : CornerTable α :=
  ⟨g .UBL, g .UBR, g .UFR, g .UFL, g .DFL, g .DFR, g .DBR, g .DBL⟩

def toList (t : CornerTable α) : List α := Corner.all.map t.get

@[simp] theorem get_ofFn (g : Corner → α) (s : Corner) : (ofFn g).get s = g s := by
  cases s <;> rfl

@[ext] theorem ext {t u : CornerTable α} (h : ∀ s, t.get s = u.get s) : t = u := by
  cases t
  cases u
  rw [mk.injEq]
  exact ⟨h .UBL, h .UBR, h .UFR, h .UFL, h .DFL, h .DFR, h .DBR, h .DBL⟩

end CornerTable

/-- One entry for each edge slot. -/
structure EdgeTable (α : Type) where
  ub : α
  ur : α
  uf : α
  ul : α
  fl : α
  fr : α
  br : α
  bl : α
  df : α
  dr : α
  db : α
  dl : α
  deriving DecidableEq

namespace EdgeTable

variable {α : Type}

def get (t : EdgeTable α) : Edge → α
  | .UB => t.ub | .UR => t.ur | .UF => t.uf | .UL => t.ul
  | .FL => t.fl | .FR => t.fr | .BR => t.br | .BL => t.bl
  | .DF => t.df | .DR => t.dr | .DB => t.db | .DL => t.dl

def ofFn (g : Edge → α) : EdgeTable α :=
  ⟨g .UB, g .UR, g .UF, g .UL, g .FL, g .FR, g .BR, g .BL, g .DF, g .DR, g .DB, g .DL⟩

def toList (t : EdgeTable α) : List α := Edge.all.map t.get

@[simp] theorem get_ofFn (g : Edge → α) (s : Edge) : (ofFn g).get s = g s := by
  cases s <;> rfl

@[ext] theorem ext {t u : EdgeTable α} (h : ∀ s, t.get s = u.get s) : t = u := by
  cases t
  cases u
  rw [mk.injEq]
  exact ⟨h .UB, h .UR, h .UF, h .UL, h .FL, h .FR, h .BR, h .BL, h .DF, h .DR, h .DB, h .DL⟩

end EdgeTable

end Cubing
