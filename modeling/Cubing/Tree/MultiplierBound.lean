import Cubing.Tree.Rules

set_option autoImplicit false

/-! # Bounding repeat counts

The grammar admits any repeat count; whoever expands an algorithm wants a bound. Counts are checked
from the inside out and from left to right, and the first one above the bound is reported. -/

namespace Cubing

/-- A repeat count above the bound. -/
structure MultiplierTooLarge where
  multiplier : UInt32
  max : UInt32
  deriving DecidableEq

def MultiplierTooLarge.message (e : MultiplierTooLarge) : String :=
  s!"Multiplier can't be higher than {e.max.toNat}."

/-- The rule that refuses repeat counts above a bound. -/
def Rules.multiplierBound (max : UInt32) : Rules (Except MultiplierTooLarge) where
  repeated body n :=
    if max < n then .error ⟨n, max⟩ else .ok (.keep (.repeated body n))

/-- Checks that no repeat count of an algorithm is above a bound. -/
def Tree.checkMultipliers (t : Tree) (max : UInt32) : Except MultiplierTooLarge Unit := do
  discard (t.transformM (Rules.multiplierBound max))

end Cubing
