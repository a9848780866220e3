import UnitText.Decimal
import UnitText.Ratio

/-!
The texts of bare numbers.

A floating-point number is written with the fewest digits that read back as it,
and always with a decimal point or an exponent, so that it stays one.
-/

namespace UnitText

/-- A whole number in decimal digits. -/
def intText (n : Int) : String :=
  if n < 0 then "-" ++ toString n.natAbs else toString n.natAbs

namespace Decimal

/-- The digits without zeros at the end. -/
def significantDigits (d : Decimal) : List Char :=
  ((Nat.toDigits 10 d.digits).reverse.dropWhile (· == '0')).reverse

/-- How many digits stand before the decimal point, or minus the number of
zeros right behind it. -/
def pointPosition (d : Decimal) : Int :=
  (Nat.toDigits 10 d.digits).length + d.exponent

/-- Digits around a decimal point, at least one on either side. -/
def positionalText (d : Decimal) : String :=
  let digits := d.significantDigits
  let point := d.pointPosition
  let zeros (n : Int) := List.replicate n.toNat '0'
  let whole := digits.take point.toNat ++ zeros (point - digits.length)
  let part := zeros (-point) ++ digits.drop point.toNat
  let filled (cs : List Char) := if cs.isEmpty then ['0'] else cs
  String.ofList (filled whole ++ '.' :: filled part)

/-- One digit, the others behind a decimal point if there are any, and the
power of ten. -/
def exponentText (d : Decimal) : String :=
  let digits :=
    match d.significantDigits with
    | [] => ['0']
    | [c] => [c]
    | c :: cs => c :: '.' :: cs
  String.ofList digits ++ "e" ++ intText (d.pointPosition - 1)

/-- Magnitudes from 0.0001 to below ten to the sixteenth are written around the
point, the others with an exponent. -/
def text (d : Decimal) : String :=
  if -4 < d.pointPosition ∧ d.pointPosition ≤ 16 then d.positionalText
  else d.exponentText

end Decimal

/-- The number with its sign left out. -/
def Binary64.magnitudeText (x : Binary64) : String :=
  if x.isNaN then "NaN"
  else if x.isInfinite then "Inf"
  else if x.isZero then "0.0"
  else x.shortest.text

/-- A floating-point number; what is not a number has no sign. -/
def Binary64.text (x : Binary64) : String :=
  if x.isNegative && !x.isNaN then "-" ++ x.magnitudeText else x.magnitudeText

/-- A ratio as an exact quotient. -/
def Ratio.text {w : Nat} (q : Ratio w) : String :=
  intText q.num ++ "//" ++ toString q.den

/-- A complex number from the text of its real part and from the sign and the
magnitude of its imaginary part. -/
def complexText (re : String) (negative : Bool) (magnitude : String) : String :=
  re ++ (if negative then " - " else " + ") ++ magnitude ++ "i"

example : intText (-12) = "-12" ∧ intText 0 = "0" := by
  decide +kernel

example : Decimal.text ⟨15, -1⟩ = "1.5" ∧ Decimal.text ⟨1, 15⟩ = "1000000000000000.0" ∧
    Decimal.text ⟨1, -4⟩ = "0.0001" ∧ Decimal.text ⟨15, 15⟩ = "1.5e16" ∧
    Decimal.text ⟨99, -6⟩ = "9.9e-5" := by
  decide +kernel

example : (Binary64.mk 0xbff0000000000000).text = "-1.0" ∧
    (Binary64.mk 0x8000000000000000).text = "-0.0" ∧
    (Binary64.mk 0xfff0000000000000).text = "-Inf" ∧
    (Binary64.mk 0xfff8000000000000).text = "NaN" := by
  decide +kernel

end UnitText
