/-!
# Measures

Lengths and velocities are binary32 numbers. A `Measure` keeps the bit pattern, so that equality is
decidable and means "the same number, written the same way"; what a check asks of a measure is a
statement about the pattern. Only the quotient of a length and a velocity is left to the floating
point unit.
-/

set_option autoImplicit false

namespace Mobility

/-- A binary32 number, kept as its bit pattern. -/
structure Measure where
  bits : UInt32
deriving DecidableEq

namespace Measure

/-- The number with this pattern. -/
def toFloat (m : Measure) : Float32 := Float32.ofBits m.bits

/-- The pattern of a number. -/
def ofFloat (x : Float32) : Measure := ⟨x.toBits⟩

/-- The pattern without the sign. Patterns of larger numbers are larger. -/
def magnitude (m : Measure) : Nat := m.bits.toNat % 0x80000000

/-- Whether the sign bit is set. -/
def negative (m : Measure) : Bool := 0x80000000 ≤ m.bits.toNat

/-- Whether the pattern stands for a number, and not for an infinity or for no number. -/
def isFinite (m : Measure) : Bool := m.magnitude < 0x7f800000

/-- Whether this is a finite number above zero. -/
def isPositive (m : Measure) : Bool := m.isFinite && !m.negative && m.magnitude != 0

/-- Whether this is a finite number that isn't below zero. Both zeros are. -/
def isNonnegative (m : Measure) : Bool := m.isFinite && (!m.negative || m.magnitude == 0)

end Measure

end Mobility
