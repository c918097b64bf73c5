/-!
# Shortest decimals

A floating point number stands for every real number that is rounded to it. Its shortest decimal is
the one with the fewest digits among those, and of several with equally many digits the nearest one.
`Rounded.shortest` finds it in whole numbers: it tests the two neighbours of the number on grids of
multiples of a power of ten, from coarse to fine, and the first grid with a hit wins.
-/

set_option autoImplicit false

namespace Mobility

/-- The number `digits * 10 ^ exponent`. -/
structure Decimal where
  digits : Nat
  exponent : Int
deriving DecidableEq

/-- The number `middle * 2 ^ power` with the numbers that are rounded to it: those between
`low * 2 ^ power` and `high * 2 ^ power`. The ends belong to them if `closed` holds. -/
structure Rounded where
  low : Nat
  middle : Nat
  high : Nat
  power : Int
  closed : Bool
deriving DecidableEq

namespace Rounded

/-- The numerator of `base ^ exponent`. -/
def above (base : Nat) (exponent : Int) : Nat := base.pow exponent.toNat

/-- The denominator of `base ^ exponent`. -/
def below (base : Nat) (exponent : Int) : Nat := base.pow (-exponent).toNat

/-- A multiple of `2 ^ power` on the scale on which the numbers `d * 10 ^ exponent` are the
multiples of `r.step exponent`. -/
def scale (r : Rounded) (exponent : Int) (n : Nat) : Nat :=
  n * above 2 r.power * below 10 exponent

/-- The distance of two numbers on the grid of `10 ^ exponent`. -/
def step (r : Rounded) (exponent : Int) : Nat := above 10 exponent * below 2 r.power

/-- Whether `d * 10 ^ exponent` is rounded to this number. -/
def holds (r : Rounded) (exponent : Int) (d : Nat) : Bool :=
  let x := d * r.step exponent
  if r.closed then r.scale exponent r.low ≤ x && x ≤ r.scale exponent r.high
  else r.scale exponent r.low < x && x < r.scale exponent r.high

/-- The nearest number on the grid of `10 ^ exponent` which is rounded to this one. Of two equally
near ones the even one is taken. -/
def onGrid (r : Rounded) (exponent : Int) : Option Nat :=
  let x := r.scale exponent r.middle
  let step := r.step exponent
  let d := x / step
  let below := x - d * step
  let above := (d + 1) * step - x
  match r.holds exponent d, r.holds exponent (d + 1) with
  | false, false => none
  | true, false => some d
  | false, true => some (d + 1)
  | true, true =>
    if below < above then some d
    else if above < below then some (d + 1)
    else if d % 2 = 0 then some d else some (d + 1)

/-- The hit on the coarsest of the grids of `10 ^ exponent`, `10 ^ (exponent - 1)` and so on, of
which there are `grids`. -/
def search (r : Rounded) : Nat → Int → Option Decimal
  | 0, _ => none
  | grids + 1, exponent =>
    match r.onGrid exponent with
    | some d => some ⟨d, exponent⟩
    | none => search r grids (exponent - 1)

end Rounded

end Mobility
