import Mathlib.Data.Rat.Lemmas
import Mathlib.Tactic.FieldSimp
import Mathlib.Tactic.Linarith
import Mathlib.Tactic.Ring
import UnitText.Ratio

/-!
Sums and products of bounded ratios are exact or overflow.

`OrOverflow` says of an outcome that it is a result with a given property or the
overflow error, so a wrong number is excluded and so is any other error.
Outcomes of that kind are chained by `OrOverflow.bind`.
-/

namespace UnitText

variable {α β : Type} {w : Nat}

/-- What bounded arithmetic may come to: a result with a property, or an
overflow. -/
def OrOverflow (property : α → Prop) : Except ArithmeticError α → Prop
  | .ok result => property result
  | .error cause => cause = .overflow

namespace OrOverflow

variable {P : α → Prop} {Q : β → Prop} {x : Except ArithmeticError α}

/-- A step may be followed by another one that does well after it. -/
theorem bind {f : α → Except ArithmeticError β} (hx : OrOverflow P x)
    (hf : ∀ a, P a → OrOverflow Q (f a)) : OrOverflow Q (x >>= f) := by
  cases x with
  | error cause => exact hx
  | ok a => exact hf a hx

theorem of_ok (hx : OrOverflow P x) {a : α} (ha : x = .ok a) : P a := by
  subst ha
  exact hx

/-- What has no result has overflowed. -/
theorem eq_overflow_iff (hx : OrOverflow P x) : x = .error .overflow ↔ ¬∃ a, x = .ok a := by
  cases x with
  | error cause =>
      obtain rfl : cause = .overflow := hx
      exact iff_of_true rfl fun ⟨a, ha⟩ => nomatch ha
  | ok a => exact iff_of_false (fun h => nomatch h) (not_not_intro ⟨a, rfl⟩)

/-- Outcomes with the same results are the same. -/
theorem eq_of_ok_iff {P' : α → Prop} {y : Except ArithmeticError α} (hx : OrOverflow P x)
    (hy : OrOverflow P' y) (h : ∀ a, x = .ok a ↔ y = .ok a) : x = y := by
  cases y with
  | error cause =>
      obtain rfl : cause = .overflow := hy
      refine hx.eq_overflow_iff.mpr fun ⟨a, ha⟩ => ?_
      cases (h a).mp ha
  | ok a => exact (h a).mpr rfl

end OrOverflow

theorem checkWord_exact (n : Int) : OrOverflow (· = n) (checkWord w n) := by
  unfold checkWord
  split
  · rfl
  · rfl

namespace Ratio

theorem ofRat?_eq_some {q : Rat} {x : Ratio w} (h : ofRat? q = some x) :
    x.toRat = q := by
  unfold ofRat? at h
  split at h
  · cases h
    rfl
  · cases h

theorem ofFraction_exact (n : Int) {d : Int} (hd : d ≠ 0) :
    OrOverflow (fun q : Ratio w => q.toRat = n / d) (ofFraction n d) := by
  unfold ofFraction
  rw [if_neg hd]
  cases hq : (ofRat? (Rat.divInt n d) : Option (Ratio w)) with
  | none => rfl
  | some q =>
      have hrat := ofRat?_eq_some hq
      rw [Rat.divInt_eq_div] at hrat
      exact hrat

theorem toRat_eq_div (x : Ratio w) : x.toRat = (x.num : ℚ) / x.den :=
  (Rat.num_div_den x.toRat).symm

/-- A whole number is its numerator. -/
theorem toRat_of_isInteger {x : Ratio w} (hx : x.isInteger) : x.toRat = x.num := by
  have hden : x.den = 1 := beq_iff_eq.mp hx
  rw [toRat_eq_div, hden, Nat.cast_one, div_one]

theorem den_ne_zero (x : Ratio w) : (x.den : ℚ) ≠ 0 :=
  Nat.cast_ne_zero.mpr x.den_pos.ne'

/-- Scaling a numerator to a multiple of its denominator changes nothing. -/
theorem num_mul_div_den {x : Ratio w} {common : Nat} (hdvd : x.den ∣ common)
    (hpos : common ≠ 0) :
    ((x.num * ((common : Int) / (x.den : Int)) : Int) : ℚ) / common = x.toRat := by
  obtain ⟨k, rfl⟩ := hdvd
  have hk : (k : ℚ) ≠ 0 := by
    intro h
    exact hpos (by rw [Nat.cast_eq_zero.mp h, Nat.mul_zero])
  have hden := x.den_ne_zero
  have hquot : ((x.den * k : Nat) : Int) / (x.den : Int) = k := by
    rw [Nat.cast_mul]
    exact Int.mul_ediv_cancel_left _ (Int.natCast_ne_zero.mpr x.den_pos.ne')
  rw [hquot, toRat_eq_div]
  push_cast
  field_simp

/-- A sum is exact or overflows. -/
theorem add_exact (x y : Ratio w) :
    OrOverflow (fun z => z.toRat = x.toRat + y.toRat) (x.add y) := by
  unfold add
  split
  · next hden =>
      apply (checkWord_exact _).bind
      rintro total rfl
      have hsum : x.toRat + y.toRat =
          ((x.num + y.num : Int) : ℚ) / ((x.den : Int) : ℚ) := by
        rw [toRat_eq_div x, toRat_eq_div y, ← hden]
        push_cast
        ring
      rw [hsum]
      exact ofFraction_exact _ (Int.natCast_ne_zero.mpr x.den_pos.ne')
  · apply (checkWord_exact _).bind
    rintro common rfl
    apply (checkWord_exact _).bind
    rintro left rfl
    apply (checkWord_exact _).bind
    rintro right rfl
    apply (checkWord_exact _).bind
    rintro total rfl
    have hpos : Nat.lcm x.den y.den ≠ 0 :=
      Nat.lcm_ne_zero x.den_pos.ne' y.den_pos.ne'
    have hx := num_mul_div_den (Nat.dvd_lcm_left x.den y.den) hpos
    have hy := num_mul_div_den (Nat.dvd_lcm_right x.den y.den) hpos
    rw [← hx, ← hy, ← add_div, ← Int.cast_add]
    exact ofFraction_exact _ (Int.natCast_ne_zero.mpr hpos)

/-- Dividing numerators and denominators crosswise by common factors does not
change a product of fractions. -/
theorem cross_reduced_div {a b c d g h : Int} (hga : g ∣ a) (hgd : g ∣ d)
    (hhb : h ∣ b) (hhc : h ∣ c) (hb : b ≠ 0) (hd : d ≠ 0) :
    ((a / g * (c / h) : Int) : ℚ) / ((b / h * (d / g) : Int) : ℚ) =
      (a : ℚ) / b * (c / d) := by
  obtain ⟨a, rfl⟩ := hga
  obtain ⟨d, rfl⟩ := hgd
  obtain ⟨b, rfl⟩ := hhb
  obtain ⟨c, rfl⟩ := hhc
  obtain ⟨hh, hb⟩ := mul_ne_zero_iff.mp hb
  obtain ⟨hg, hd⟩ := mul_ne_zero_iff.mp hd
  rw [Int.mul_ediv_cancel_left _ hg, Int.mul_ediv_cancel_left _ hh,
    Int.mul_ediv_cancel_left _ hh, Int.mul_ediv_cancel_left _ hg]
  push_cast
  field_simp

theorem ediv_ne_zero_of_dvd {a b : Int} (hdvd : b ∣ a) (ha : a ≠ 0) : a / b ≠ 0 := by
  intro hzero
  have hcancel := Int.ediv_mul_cancel hdvd
  rw [hzero, zero_mul] at hcancel
  exact ha hcancel.symm

/-- A product is exact or overflows. -/
theorem mul_exact (x y : Ratio w) :
    OrOverflow (fun z => z.toRat = x.toRat * y.toRat) (x.mul y) := by
  have hx : (x.den : Int) ≠ 0 := Int.natCast_ne_zero.mpr x.den_pos.ne'
  have hy : (y.den : Int) ≠ 0 := Int.natCast_ne_zero.mpr y.den_pos.ne'
  have hgd := Int.gcd_dvd_right x.num y.den
  have hhb := Int.gcd_dvd_left x.den y.num
  have hproduct := cross_reduced_div (Int.gcd_dvd_left x.num y.den) hgd hhb
    (Int.gcd_dvd_right x.den y.num) hx hy
  unfold mul
  apply (checkWord_exact _).bind
  rintro numer rfl
  apply (checkWord_exact _).bind
  rintro denom rfl
  rw [toRat_eq_div x, toRat_eq_div y, ← Int.cast_natCast x.den,
    ← Int.cast_natCast y.den, ← hproduct]
  have hdenom : (x.den : Int) / (Int.gcd x.den y.num : Int) *
      ((y.den : Int) / (Int.gcd x.num y.den : Int)) ≠ 0 :=
    mul_ne_zero (ediv_ne_zero_of_dvd hhb hx) (ediv_ne_zero_of_dvd hgd hy)
  exact ofFraction_exact _ hdenom

end Ratio

end UnitText
