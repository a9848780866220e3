/-!
Floating-point numbers as 64-bit words.

A word holds a sign bit, eleven exponent bits and fifty-two fraction bits.
Nothing is computed with these numbers here, they are only told apart and
written down, so the word itself is the number and equality is equality of
words.
-/

namespace UnitText

/-- A floating-point number of the binary64 format. -/
structure Binary64 where
  bits : UInt64
deriving DecidableEq, Repr

namespace Binary64

/-- The number one. -/
def one : Binary64 :=
  ⟨0x3ff0000000000000⟩

instance : Inhabited Binary64 := ⟨⟨0⟩⟩

/-- The sign bit, which zeros and numbers that are not numbers have too. -/
def isNegative (x : Binary64) : Bool :=
  Nat.pow 2 63 ≤ x.bits.toNat

/-- The exponent field. -/
def biasedExponent (x : Binary64) : Nat :=
  x.bits.toNat / Nat.pow 2 52 % Nat.pow 2 11

/-- The fraction field. -/
def fraction (x : Binary64) : Nat :=
  x.bits.toNat % Nat.pow 2 52

def isInfinite (x : Binary64) : Bool :=
  x.biasedExponent == 2047 && x.fraction == 0

def isNaN (x : Binary64) : Bool :=
  x.biasedExponent == 2047 && x.fraction != 0

/-- Whether the number is zero, of either sign. -/
def isZero (x : Binary64) : Bool :=
  x.biasedExponent == 0 && x.fraction == 0

/-- Whether the number is one. -/
def isOne (x : Binary64) : Bool :=
  x == one

/-- The whole number `m` in the magnitude `m * 2 ^ unit` of a finite number. -/
def significand (x : Binary64) : Nat :=
  if x.biasedExponent = 0 then x.fraction else Nat.pow 2 52 + x.fraction

/-- The power of two that the significand of a finite number counts. -/
def unit (x : Binary64) : Int :=
  (max 1 x.biasedExponent : Nat) - 1075

/-- Whether the next smaller number lies at half the usual distance, because
the significand is the least one of its exponent. -/
def isNarrowBelow (x : Binary64) : Bool :=
  x.fraction == 0 && 1 < x.biasedExponent

example : one.significand = 2 ^ 52 ∧ one.unit = -52 ∧ one.isNarrowBelow := by
  decide

end Binary64

end UnitText
