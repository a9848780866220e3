import UnitText.Binary64

/-!
Shortest decimals of binary numbers.

A positive binary number `m * 2 ^ q` is read back from every decimal that lies
between the midpoints to its two neighbours, and from the midpoints themselves
if `m` is even.  Among the decimals that read back, the one with the fewest
digits is chosen, and of those the one nearest to the number; of two that are
equally near the larger one.

The search goes through grids of decimals, the multiples of `10 ^ s`, from the
coarse to the fine.  On every grid only the two decimals next to the number
have to be tried, and all comparisons are made between natural numbers.
-/

namespace UnitText

/-- The decimal number `digits * 10 ^ exponent`. -/
structure Decimal where
  digits : Nat
  exponent : Int
deriving DecidableEq, Repr

/-- A positive number with the ends of the interval that reads back as it, all
three counted in units of `2 ^ unit`. -/
structure ReadBack where
  low : Nat
  center : Nat
  high : Nat
  /-- Whether the ends belong to the interval. -/
  closed : Bool
  unit : Int
deriving DecidableEq, Repr

namespace ReadBack

/-- The interval of a finite number other than zero, its sign left out. -/
def ofBinary64 (x : Binary64) : ReadBack :=
  let center := 4 * x.significand
  { low := center - (if x.isNarrowBelow then 1 else 2)
    center
    high := center + 2
    closed := x.significand % 2 == 0
    unit := x.unit - 2 }

/-- Factors `(a, b)` such that `n` units are `n * a / b` steps of `10 ^ step`. -/
def stepFactors (t : ReadBack) (step : Int) : Nat × Nat :=
  (Nat.pow 2 t.unit.toNat * Nat.pow 10 (-step).toNat,
    Nat.pow 2 (-t.unit).toNat * Nat.pow 10 step.toNat)

/-- An end of the interval lies on the right side of a decimal. -/
def admits (t : ReadBack) (x y : Nat) : Bool :=
  if t.closed then x ≤ y else x < y

/-- The decimal that is chosen on the grid of the multiples of `10 ^ step`, if
one of them reads back. -/
def onGrid? (t : ReadBack) (step : Int) : Option Decimal :=
  let (a, b) := t.stepFactors step
  let d := t.center * a / b
  let below := t.admits (t.low * a) (d * b)
  let above := t.admits ((d + 1) * b) (t.high * a)
  if below && (!above || 2 * t.center * a < (2 * d + 1) * b) then some ⟨d, step⟩
  else if above then some ⟨d + 1, step⟩
  else none

/-- The number of digits before the decimal point; zero or less for a number
that is less than one. -/
def magnitude (t : ReadBack) : Int :=
  let (a, b) := t.stepFactors (-400)
  (Nat.toDigits 10 (t.center * a / b)).length - 400

/-- The number itself, written out in full. -/
def exact (t : ReadBack) : Decimal :=
  if 0 ≤ t.unit then ⟨t.center * Nat.pow 2 t.unit.toNat, 0⟩
  else ⟨t.center * Nat.pow 5 (-t.unit).toNat, t.unit⟩

/-- The shortest decimal that reads back; seventeen digits always suffice. -/
def shortest (t : ReadBack) : Decimal :=
  let steps := (List.range 17).map fun n : Nat => t.magnitude - 1 - n
  (steps.findSome? t.onGrid?).getD t.exact

end ReadBack

/-- The shortest decimal that reads back as a finite number other than zero,
its sign left out. -/
def Binary64.shortest (x : Binary64) : Decimal :=
  (ReadBack.ofBinary64 x).shortest

example : Binary64.one.shortest = ⟨1, 0⟩ := by
  decide +kernel

/-- One tenth has one digit, although the binary number is not one tenth. -/
example : (Binary64.mk 0x3fb999999999999a).shortest = ⟨1, -1⟩ := by
  decide +kernel

/-- The least positive number. -/
example : (Binary64.mk 1).shortest = ⟨5, -324⟩ := by
  decide +kernel

/-- Two decimals of seventeen digits are equally near to this power of two. -/
example : (Binary64.mk 0x3e60000000000000).shortest =
    ⟨29802322387695313, -24⟩ := by
  decide +kernel

end UnitText
