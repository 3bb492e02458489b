import Cubing.Move

set_option autoImplicit false

/-! # Pieces

The cube has eight corners and twelve edges. Each is named by the faces it shows when solved, and
the place where it is then is named alike; so a corner's name serves both for a piece and for a
slot. A piece also has an orientation in its slot: a corner its twist, one of three, an edge its
flip, one of two. -/

namespace Cubing

/-! ## Corners -/

/-- The corners, and the slots they are in when solved. -/
inductive Corner where
  | UBL | UBR | UFR | UFL | DFL | DFR | DBR | DBL
  deriving DecidableEq

namespace Corner

def all : List Corner := [UBL, UBR, UFR, UFL, DFL, DFR, DBR, DBL]

theorem mem_all (s : Corner) : s ∈ all := by cases s <;> decide

def name : Corner → String
  | UBL => "UBL" | UBR => "UBR" | UFR => "UFR" | UFL => "UFL"
  | DFL => "DFL" | DFR => "DFR" | DBR => "DBR" | DBL => "DBL"

def ofName? (s : String) : Option Corner := all.find? (·.name = s)

end Corner

structure CornerPiece where
  corner : Corner
  /-- How often the piece has been twisted against its solved orientation, modulo three. -/
  twist : Fin 3
  deriving DecidableEq

namespace CornerPiece

def solved (c : Corner) : CornerPiece := ⟨c, 0⟩

def twistBy (p : CornerPiece) (n : Nat) : CornerPiece := ⟨p.corner, p.twist + Fin.ofNat 3 n⟩

/-- The name of the corner followed by its twist. -/
def text (p : CornerPiece) : String := s!"{p.corner.name}{p.twist.val}"

end CornerPiece

/-! ## Edges -/

/-- The edges, and the slots they are in when solved. -/
inductive Edge where
  | UB | UR | UF | UL | FL | FR | BR | BL | DF | DR | DB | DL
  deriving DecidableEq

namespace Edge

def all : List Edge := [UB, UR, UF, UL, FL, FR, BR, BL, DF, DR, DB, DL]

theorem mem_all (s : Edge) : s ∈ all := by cases s <;> decide

def name : Edge → String
  | UB => "UB" | UR => "UR" | UF => "UF" | UL => "UL"
  | FL => "FL" | FR => "FR" | BR => "BR" | BL => "BL"
  | DF => "DF" | DR => "DR" | DB => "DB" | DL => "DL"

def ofName? (s : String) : Option Edge := all.find? (·.name = s)

end Edge

structure EdgePiece where
  edge : Edge
  /-- How often the piece has been flipped against its solved orientation, modulo two. -/
  flip : Fin 2
  deriving DecidableEq

namespace EdgePiece

def solved (e : Edge) : EdgePiece := ⟨e, 0⟩

def flipBy (p : EdgePiece) (n : Nat) : EdgePiece := ⟨p.edge, p.flip + Fin.ofNat 2 n⟩

/-- The name of the edge followed by its flip. -/
def text (p : EdgePiece) : String := s!"{p.edge.name}{p.flip.val}"

end EdgePiece

end Cubing
