import Mathlib.Data.Nat.Prime.Basic
import Mathlib.Data.Rat.Lemmas
import Mathlib.Tactic.FieldSimp
import UnitText.Binary64
import UnitText.Proofs.Representable
import UnitText.Writing.Unit

/-!
Fractions that binary numbers hold exactly.

A rational number is a whole number over a power of two just if its lowest denominator is a
power of two (`isDyadic_iff`).  Every finite floating-point number is of this kind, and so is
a fraction of this kind a floating-point number unless it needs more than 53 bits or lies too
near to zero (`Binary64.exists_value_eq`), which exponents never do.  Main statement: an
exponent is written with plain division just if nothing is lost by it
(`Power.plain_iff_lossless`).
-/

namespace UnitText

/-- A number with a finite binary expansion. -/
def IsDyadic (q : ℚ) : Prop :=
  ∃ (k : Int) (e : Nat), q = k / 2 ^ e

/-- Lowest terms show whether a binary expansion is finite. -/
theorem isDyadic_iff (q : ℚ) : IsDyadic q ↔ ∃ e, q.den = 2 ^ e := by
  constructor
  · rintro ⟨k, e, h⟩
    have hdvd : q.den ∣ 2 ^ e := den_dvd_of_eq_div (h.trans (by push_cast; rfl))
    obtain ⟨j, -, hj⟩ := (Nat.dvd_prime_pow Nat.prime_two).mp hdvd
    exact ⟨j, hj⟩
  · rintro ⟨e, h⟩
    refine ⟨q.num, e, ?_⟩
    have hcast : ((q.den : Nat) : ℚ) = 2 ^ e := by rw [h, Nat.cast_pow, Nat.cast_ofNat]
    rw [← hcast, Rat.num_div_den]

/-- The test for a power of two decides whether a binary expansion is finite. -/
theorem isDyadic_iff_log2 (q : ℚ) : IsDyadic q ↔ q.den = Nat.pow 2 q.den.log2 := by
  rw [isDyadic_iff]
  constructor
  · rintro ⟨e, h⟩
    rw [h, Nat.log2_two_pow]
    rfl
  · intro h
    exact ⟨q.den.log2, h⟩

instance (q : ℚ) : Decidable (IsDyadic q) :=
  decidable_of_iff _ (isDyadic_iff_log2 q).symm

/-- Whole multiples of powers of two have finite binary expansions. -/
theorem isDyadic_mul_zpow (k u : Int) : IsDyadic (k * 2 ^ u) := by
  obtain ⟨n, rfl | rfl⟩ := u.eq_nat_or_neg
  · refine ⟨k * 2 ^ n, 0, ?_⟩
    push_cast
    rw [zpow_natCast, pow_zero, div_one]
  · refine ⟨k, n, ?_⟩
    rw [zpow_neg, zpow_natCast, div_eq_mul_inv]

namespace Binary64

/-- Whether the word stands for a finite number. -/
def isFinite (x : Binary64) : Bool :=
  !x.isInfinite && !x.isNaN

/-- The whole number that a finite number is up to a power of two. -/
def signedSignificand (x : Binary64) : Int :=
  if x.isNegative then -x.significand else x.significand

/-- The exact value of a finite number. -/
def value (x : Binary64) : ℚ :=
  x.signedSignificand * 2 ^ x.unit

example : (mk 0xbfd8000000000000).value = -3 / 8 := by
  decide +kernel

theorem isFinite_iff (x : Binary64) : x.isFinite ↔ x.biasedExponent ≠ 2047 := by
  unfold isFinite isInfinite isNaN
  grind

theorem isDyadic_value (x : Binary64) : IsDyadic x.value :=
  isDyadic_mul_zpow x.signedSignificand x.unit

/-- The word that is made of three fields. -/
def ofFields (negative : Bool) (biased fraction : Nat) : Binary64 :=
  ⟨.ofNat ((if negative then 2 ^ 63 else 0) + biased * 2 ^ 52 + fraction)⟩

section Fields

variable {negative : Bool} {biased fraction : Nat}

theorem toNat_ofFields (hbiased : biased < 2 ^ 11) (hfraction : fraction < 2 ^ 52) :
    (ofFields negative biased fraction).bits.toNat =
      (if negative then 2 ^ 63 else 0) + biased * 2 ^ 52 + fraction := by
  apply UInt64.toNat_ofNat_of_lt
  unfold UInt64.size
  split <;> omega

/-- The fields of a word are those that it is made of. -/
theorem fields_ofFields (hbiased : biased < 2 ^ 11) (hfraction : fraction < 2 ^ 52) :
    (ofFields negative biased fraction).isNegative = negative ∧
      (ofFields negative biased fraction).biasedExponent = biased ∧
      (ofFields negative biased fraction).fraction = fraction := by
  simp only [isNegative, biasedExponent, Binary64.fraction, toNat_ofFields hbiased hfraction,
    Nat.pow_eq]
  cases negative with
  | true =>
      simp only [↓reduceIte, decide_eq_true_eq]
      omega
  | false =>
      simp only [Bool.false_eq_true, ↓reduceIte, decide_eq_false_iff_not]
      omega

end Fields

/-- A whole number of just 53 bits times a power of two in range is a finite number. -/
theorem exists_value_eq_of_normal {m u : Int} (hlow : 2 ^ 52 ≤ m.natAbs)
    (hhigh : m.natAbs < 2 ^ 53) (hu : -1074 ≤ u) (hu' : u ≤ 971) :
    ∃ x : Binary64, x.isFinite ∧ x.value = m * 2 ^ u := by
  obtain ⟨biased, hbiased⟩ : ∃ biased : Nat, (biased : Int) = u + 1075 :=
    ⟨(u + 1075).toNat, Int.toNat_of_nonneg (by omega)⟩
  have hbound : biased < 2 ^ 11 := by omega
  have hfraction : m.natAbs - 2 ^ 52 < 2 ^ 52 := by omega
  let x := ofFields (decide (m < 0)) biased (m.natAbs - 2 ^ 52)
  obtain ⟨hnegative, hexponent, hfrac⟩ : x.isNegative = decide (m < 0) ∧
      x.biasedExponent = biased ∧ x.fraction = m.natAbs - 2 ^ 52 :=
    fields_ofFields hbound hfraction
  have hsignificand : x.significand = m.natAbs := by
    rw [significand, hexponent, hfrac, if_neg (by omega)]
    exact Nat.add_sub_cancel' hlow
  have hsigned : x.signedSignificand = m := by
    simp only [signedSignificand, hnegative, hsignificand, decide_eq_true_eq]
    omega
  have hunit : x.unit = u := by
    rw [Binary64.unit, hexponent]
    omega
  refine ⟨x, ?_, ?_⟩
  · rw [isFinite_iff, hexponent]
    omega
  · rw [value, hsigned, hunit]

/-- A whole number of at most 53 bits over a power of two is a finite number.  The bits that
are missing are filled up with zeros. -/
theorem exists_value_eq {k : Int} {e : Nat} (hk : k.natAbs < 2 ^ 53) (he : e ≤ 1022) :
    ∃ x : Binary64, x.isFinite ∧ x.value = k / 2 ^ e := by
  rcases eq_or_ne k 0 with rfl | hne
  · refine ⟨⟨0⟩, by decide, ?_⟩
    have hzero : (Binary64.mk 0).signedSignificand = 0 := by decide
    rw [value, hzero, Int.cast_zero, zero_mul, zero_div]
  · have hpos : k.natAbs ≠ 0 := Int.natAbs_ne_zero.mpr hne
    have hlog : k.natAbs.log2 < 53 := (Nat.log2_lt hpos).mpr hk
    obtain ⟨s, hs⟩ : ∃ s, k.natAbs.log2 + s = 52 := ⟨52 - k.natAbs.log2, by omega⟩
    have habs : (k * 2 ^ s).natAbs = k.natAbs * 2 ^ s := by
      rw [Int.natAbs_mul, Int.natAbs_pow]
      rfl
    have hlow : 2 ^ 52 ≤ (k * 2 ^ s).natAbs := by
      rw [habs, ← hs, pow_add]
      exact Nat.mul_le_mul_right _ (Nat.log2_self_le hpos)
    have hhigh : (k * 2 ^ s).natAbs < 2 ^ 53 := by
      have hlt : k.natAbs < 2 ^ (k.natAbs.log2 + 1) := Nat.lt_log2_self
      rw [habs, show 53 = k.natAbs.log2 + 1 + s by omega, pow_add]
      exact Nat.mul_lt_mul_of_pos_right hlt (Nat.two_pow_pos s)
    obtain ⟨x, hfinite, hx⟩ :=
      exists_value_eq_of_normal (u := -(e + s : Nat)) hlow hhigh (by omega) (by omega)
    refine ⟨x, hfinite, ?_⟩
    rw [hx, zpow_neg, zpow_natCast, pow_add]
    push_cast
    field_simp

end Binary64

namespace Power

/-- A fraction written with plain division. -/
def plainText (n : Int) (d : Nat) : String :=
  "^(" ++ intText n ++ "/" ++ toString d ++ ")"

/-- A fraction written with the exact quotient of whole numbers. -/
def quotientText (n : Int) (d : Nat) : String :=
  "^(" ++ intText n ++ "//" ++ toString d ++ ")"

theorem quotientText_ne_plainText (n : Int) (d : Nat) : quotientText n d ≠ plainText n d := by
  intro h
  have hlength := congrArg String.length h
  simp only [quotientText, plainText, String.length_append] at hlength
  have h2 : "//".length = 2 := by rfl
  have h1 : "/".length = 1 := by rfl
  omega

variable {q : Exponent}

/-- The stroke of a fraction shows whether its binary expansion is finite. -/
theorem text_ofExponent (hfraction : 1 < q.den) :
    (ofExponent q).text =
      if IsDyadic q.toRat then plainText q.num q.den else quotientText q.num q.den := by
  have hinteger : ¬q.isInteger := by
    rw [Ratio.isInteger, beq_iff_eq]
    omega
  have hdyadic : IsDyadic q.toRat ↔ q.den = Nat.pow 2 q.den.log2 := isDyadic_iff_log2 q.toRat
  rw [ofExponent, if_neg hinteger]
  simp only [hdyadic]
  split <;> rfl

/-- A finite binary expansion of an exponent is short, as both of its terms are words. -/
theorem exists_short_expansion (h : IsDyadic q.toRat) :
    ∃ (k : Int) (e : Nat), k.natAbs < 2 ^ 53 ∧ e ≤ 30 ∧ q.toRat = k / 2 ^ e := by
  obtain ⟨e, he⟩ := (isDyadic_iff q.toRat).mp h
  have hnum : -2 ^ 31 ≤ q.num ∧ q.num < 2 ^ 31 := q.num_isWord
  have hden : (q.den : Int) < 2 ^ 31 := q.den_isWord.2
  have hpow : q.den = 2 ^ e := he
  have hlt : 2 ^ e < 2 ^ 31 := by
    rw [hpow] at hden
    exact_mod_cast hden
  have hexp : e < 31 := (Nat.pow_lt_pow_iff_right Nat.one_lt_two).mp hlt
  refine ⟨q.num, e, by omega, by omega, ?_⟩
  rw [q.toRat_eq_div, hpow, Nat.cast_pow, Nat.cast_ofNat]

/-- A fraction is written with plain division just if it has a finite binary expansion.  Then
it has a short one, and so it is a floating-point number.  Any other fraction is written with
the exact quotient, and no floating-point number is equal to it.  Either way the terms that
are written are the lowest ones of whatever fraction the exponent was given as. -/
theorem plain_iff_lossless (hfraction : 1 < q.den) :
    ((ofExponent q).text = plainText q.num q.den ↔ IsDyadic q.toRat) ∧
      (IsDyadic q.toRat →
        ∃ (k : Int) (e : Nat), k.natAbs < 2 ^ 53 ∧ e ≤ 30 ∧ q.toRat = k / 2 ^ e ∧
          ∃ x : Binary64, x.isFinite ∧ x.value = q.toRat) ∧
      (¬IsDyadic q.toRat →
        (ofExponent q).text = quotientText q.num q.den ∧
          ∀ x : Binary64, x.isFinite → x.value ≠ q.toRat) ∧
      q.num.natAbs.Coprime q.den ∧
      ∀ a b, Exponent.ofFraction a b = .ok q → q.num * b = a * q.den := by
  have htext := text_ofExponent hfraction
  refine ⟨?_, fun h => ?_, fun h => ⟨?_, fun x _ hx => ?_⟩, q.reduced, fun a b hab => ?_⟩
  · rw [htext]
    split
    · next h => exact iff_of_true rfl h
    · next h => exact iff_of_false (quotientText_ne_plainText _ _) h
  · obtain ⟨k, e, hk, he, heq⟩ := exists_short_expansion h
    obtain ⟨x, hx, hvalue⟩ := Binary64.exists_value_eq hk (he.trans (by decide))
    exact ⟨k, e, hk, he, heq, x, hx, hvalue.trans heq.symm⟩
  · rw [htext, if_neg h]
  · exact h (hx ▸ x.isDyadic_value)
  · have hne : b ≠ 0 := by
      rintro rfl
      cases hab
    have hvalue := (Exponent.ofFraction_eq_ok_iff hne).mp hab
    have hne' : (b : ℚ) ≠ 0 := Int.cast_ne_zero.mpr hne
    rw [q.toRat_eq_div, div_eq_div_iff q.den_ne_zero hne'] at hvalue
    exact_mod_cast hvalue

/-- The greatest numerator over the greatest power of two, and a fraction that every binary
number misses. -/
theorem plain_iff_lossless_greatest_terms :
    let greatest : Exponent := ⟨2147483647 / 1073741824, by decide +kernel, by decide +kernel⟩
    let twelfths : Exponent := ⟨-7 / 12, by decide +kernel, by decide +kernel⟩
    1 < greatest.den ∧ 1 < twelfths.den ∧
      (ofExponent greatest).text = "^(2147483647/1073741824)" ∧
      (∃ x : Binary64, x.isFinite ∧ x.value = 2147483647 / 1073741824) ∧
      (ofExponent twelfths).text = "^(-7//12)" ∧
      ∀ x : Binary64, x.isFinite → x.value ≠ -7 / 12 := by
  intro greatest twelfths
  have hgreatest : 1 < greatest.den := by decide +kernel
  have htwelfths : 1 < twelfths.den := by decide +kernel
  have hdyadic : IsDyadic greatest.toRat := by decide +kernel
  have hother : ¬IsDyadic twelfths.toRat := by decide +kernel
  obtain ⟨hplain, hshort, -⟩ := plain_iff_lossless hgreatest
  obtain ⟨-, -, hquotient, -⟩ := plain_iff_lossless htwelfths
  obtain ⟨-, -, -, -, -, hvalue⟩ := hshort hdyadic
  obtain ⟨htext, hnone⟩ := hquotient hother
  refine ⟨hgreatest, htwelfths, ?_, hvalue, ?_, hnone⟩
  · rw [hplain.mpr hdyadic]
    decide +kernel
  · rw [htext]
    decide +kernel

end Power

end UnitText
