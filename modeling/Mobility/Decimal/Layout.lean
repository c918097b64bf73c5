import Mobility.Decimal.Shortest
import Mobility.Measure

/-!
# Measures as text

A measure is written with the fewest digits that read back as the same measure. Positional notation
is used from a millionth up to, but not including, ten trillion, and always has a digit behind the
point; all else is written with an exponent, whose sign is always there.
-/

set_option autoImplicit false

namespace Mobility

/-- The text of a decimal. -/
def Decimal.text (d : Decimal) : String :=
  let digits := toString d.digits
  let zeros (n : Int) : String := "".pushn '0' n.toNat
  let point : Int := digits.length + d.exponent
  if 0 ≤ d.exponent ∧ point ≤ 13 then digits ++ zeros d.exponent ++ ".0"
  else if 0 < point ∧ point ≤ 13 then
    String.ofList (digits.toList.take point.toNat) ++ "." ++
      String.ofList (digits.toList.drop point.toNat)
  else if -6 < point ∧ point ≤ 0 then "0." ++ zeros (-point) ++ digits
  else
    let fraction := digits.toList.drop 1
    let first := String.ofList (digits.toList.take 1)
    let mantissa := if fraction.isEmpty then first else first ++ "." ++ String.ofList fraction
    let sign := if point - 1 < 0 then "-" else "+"
    mantissa ++ "e" ++ sign ++ toString (point - 1).natAbs

namespace Measure

/-- The exponent field of the pattern. -/
def exponentField (m : Measure) : Nat := m.magnitude / 0x800000

/-- The significand: a number below `2 ^ 24`. -/
def significand (m : Measure) : Nat :=
  m.magnitude % 0x800000 + if m.exponentField = 0 then 0 else 0x800000

/-- A finite measure, apart from its sign, and the numbers that are rounded to it. They reach half
as far down as up where the exponent changes. In units of a quarter of the last digit. -/
def rounded (m : Measure) : Rounded where
  low := 4 * m.significand - if m.magnitude % 0x800000 = 0 ∧ 1 < m.exponentField then 1 else 2
  middle := 4 * m.significand
  high := 4 * m.significand + 2
  power := (max m.exponentField 1 : Nat) - 152
  closed := m.significand % 2 = 0

/-- The shortest decimal of a finite measure above zero. It lies between `10 ^ -45` and `10 ^ 39`,
and no measure needs a grid finer than `10 ^ -53`. -/
def decimal (m : Measure) : Decimal := (m.rounded.search 93 39).getD ⟨0, 0⟩

/-- The text of a finite measure. There is none for the other ones. -/
def text? (m : Measure) : Option String :=
  if !m.isFinite then none
  else
    let sign := if m.negative then "-" else ""
    some (sign ++ if m.magnitude = 0 then "0.0" else m.decimal.text)

end Measure

end Mobility
