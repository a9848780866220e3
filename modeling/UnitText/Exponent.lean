import UnitText.Ratio

/-!
The powers to which units are raised: ratios of two 32-bit words.
-/

namespace UnitText

/-- The power to which a unit is raised. -/
abbrev Exponent := Ratio 32

/-- A fraction that is no exponent: its denominator is zero, or its lowest
terms with a positive denominator are not both words. -/
structure MalformedExponent where
  numer : Int
  denom : Int
deriving DecidableEq, Repr

/-- What is told about a malformed exponent. -/
def MalformedExponent.message (e : MalformedExponent) : String :=
  "malformed exponent " ++ toString e.numer ++ "/" ++ toString e.denom
    ++ ": denominator must be non-zero and the reduced fraction must fit in i32"

namespace Exponent

/-- A whole number as an exponent. -/
def ofInt (n : Int) (h : IsWord 32 n := by decide) : Exponent :=
  ⟨Rat.ofInt n, h, show IsWord 32 1 by decide⟩

/-- The exponent of a unit that carries none. -/
def one : Exponent :=
  ofInt 1

/-- The exponent that inverts a unit. -/
def minusOne : Exponent :=
  ofInt (-1)

instance : Inhabited Exponent := ⟨one⟩

/-- The exponent `numer / denom`, if that fraction is one. -/
def ofFraction (numer denom : Int) : Except MalformedExponent Exponent :=
  match Ratio.ofFraction numer denom with
  | .ok q => .ok q
  | .error _ => .error ⟨numer, denom⟩

example : (ofFraction (-6) 4).toOption.map (·.toRat) = some (-3 / 2) := by
  decide +kernel

example : (ofFraction 1 (-2 ^ 31)).toOption = none := by
  decide +kernel

example : (ofFraction (-2 ^ 31) (-2)).toOption = some (ofInt (2 ^ 30)) := by
  decide +kernel

end Exponent

end UnitText
