import Mathlib.RingTheory.Int.Basic
import UnitText.Proofs.Overflow

/-!
Which fractions are exponents.

A fraction of two words of 32 bits is brought to lowest terms among words of 64 bits, where
no number that is met is too great (`lowestTerms_of_wide`).  It is an exponent unless one of
its lowest terms is the negative of the least word, and that is so just if the other term of
the fraction is odd and both signs are dropped (`fits_divInt_iff`).  Main statement:
`Exponent.fails_iff_unrepresentable`.
-/

namespace UnitText

variable {w : Nat}

/-- The terms of a fraction when it has been brought to lowest terms with a positive
denominator.  All numbers met on the way have to be words. -/
def lowestTerms (w : Nat) (n d : Int) : Except ArithmeticError (Int × Int) := do
  if d = 0 then throw .zeroDenominator
  else if n = 0 then pure (0, 1)
  else if n = d then pure (1, 1)
  else
    let common ← checkWord w (Int.gcd n d)
    let numer ← checkWord w (n / common)
    let denom ← checkWord w (d / common)
    if denom < 0 then
      let numer ← checkWord w (-numer)
      let denom ← checkWord w (-denom)
      pure (numer, denom)
    else pure (numer, denom)

/-- The fractions of two words of 32 bits that are no exponents: those with the denominator
zero, and those of which one lowest term is the negative of the least word. -/
def Unrepresentable (n d : Int) : Prop :=
  d = 0 ∨ (d = -2 ^ 31 ∧ Odd n) ∨ (n = -2 ^ 31 ∧ d < 0 ∧ Odd d)

instance (n d : Int) : Decidable (Unrepresentable n d) :=
  inferInstanceAs (Decidable (_ ∨ _))

section Reduction

variable {n d : Int}

theorem divInt_terms_of_pos (hd : 0 < d) :
    (Rat.divInt n d).num = n / Int.gcd n d ∧ ((Rat.divInt n d).den : Int) = d / Int.gcd n d := by
  constructor
  · rw [Rat.num_divInt, Int.sign_eq_one_of_pos hd, one_mul, Int.gcd_comm]
  · rw [Rat.den_divInt, if_neg hd.ne', Int.gcd_comm, Int.natCast_ediv, Int.natAbs_of_nonneg hd.le]

/-- A negative denominator gives its sign to the numerator. -/
theorem divInt_terms_of_neg (hd : d < 0) :
    (Rat.divInt n d).num = -(n / Int.gcd n d) ∧
      ((Rat.divInt n d).den : Int) = -(d / Int.gcd n d) := by
  have hpos : 0 < -d := by omega
  obtain ⟨hnum, hden⟩ := divInt_terms_of_pos (n := -n) hpos
  rw [Rat.divInt_neg, neg_neg, Int.gcd_neg, Int.neg_gcd] at hnum hden
  exact ⟨hnum.trans (Int.neg_ediv_of_dvd (Int.gcd_dvd_left n d)),
    hden.trans (Int.neg_ediv_of_dvd (Int.gcd_dvd_right n d))⟩

/-- Where there is room for the terms of a fraction and their negatives, the fraction has
lowest terms. -/
theorem lowestTerms_of_wide (hd : d ≠ 0)
    (hwide : ∀ m : Int, m.natAbs ≤ max n.natAbs d.natAbs → IsWord w m) :
    lowestTerms w n d = .ok ((Rat.divInt n d).num, ((Rat.divInt n d).den : Int)) := by
  unfold lowestTerms
  rw [if_neg hd]
  split
  · next hn => simp [hn, pure, Except.pure]
  split
  · next hnd =>
      have hone : Rat.divInt d d = 1 := by
        rw [Rat.divInt_eq_div, div_self (Int.cast_ne_zero.mpr hd)]
      simp [hnd, hone, pure, Except.pure]
  have hgn := Int.gcd_dvd_left n d
  have hgd := Int.gcd_dvd_right n d
  have hcommon : IsWord w (Int.gcd n d) := by
    apply hwide
    have hle := Nat.le_of_dvd (Int.natAbs_pos.mpr hd) (Int.natAbs_dvd_natAbs.mpr hgd)
    omega
  have hnumer : (n / (Int.gcd n d : Int)).natAbs ≤ n.natAbs := by
    rw [Int.natAbs_ediv_of_dvd hgn]
    exact Nat.div_le_self _ _
  have hdenom : (d / (Int.gcd n d : Int)).natAbs ≤ d.natAbs := by
    rw [Int.natAbs_ediv_of_dvd hgd]
    exact Nat.div_le_self _ _
  have hwords : IsWord w (n / (Int.gcd n d : Int)) ∧ IsWord w (-(n / (Int.gcd n d : Int))) ∧
      IsWord w (d / (Int.gcd n d : Int)) ∧ IsWord w (-(d / (Int.gcd n d : Int))) := by
    refine ⟨hwide _ ?_, hwide _ ?_, hwide _ ?_, hwide _ ?_⟩ <;> omega
  simp only [checkWord_of_isWord, hcommon, hwords, bind, Except.bind, pure, Except.pure]
  rcases lt_or_gt_of_ne hd with hneg | hpos
  · obtain ⟨hnum, hden⟩ := divInt_terms_of_neg (n := n) hneg
    have hlow : d / (Int.gcd n d : Int) < 0 := by
      have hden_pos := (Rat.divInt n d).den_pos
      omega
    rw [if_pos hlow, hnum, hden]
  · obtain ⟨hnum, hden⟩ := divInt_terms_of_pos (n := n) hpos
    have hlow : ¬d / (Int.gcd n d : Int) < 0 := by omega
    rw [if_neg hlow, hnum, hden]

end Reduction

/-- A factor of a word is a word, unless it is the negative of the least word and the other
factor changes its sign. -/
theorem isWord_iff_of_mul {k a : Int} (hk : k ≠ 0) (h : IsWord w (k * a)) :
    IsWord w a ↔ ¬(a = 2 ^ (w - 1) ∧ k = -1) := by
  obtain ⟨hlow, hhigh⟩ := h
  have hpow : (0 : Int) < 2 ^ (w - 1) := pow_pos two_pos _
  change -2 ^ (w - 1) ≤ k * a at hlow
  change k * a < 2 ^ (w - 1) at hhigh
  change -2 ^ (w - 1) ≤ a ∧ a < 2 ^ (w - 1) ↔ _
  constructor
  · rintro ⟨-, hlt⟩ ⟨heq, -⟩
    omega
  · intro hnot
    rcases lt_or_gt_of_ne hk with hneg | hpos
    · refine ⟨by nlinarith, ?_⟩
      by_contra hle
      have hunit : k = -1 := by
        by_contra hne
        have htwo : k ≤ -2 := by omega
        nlinarith
      subst hunit
      exact hnot ⟨by omega, rfl⟩
    · exact ⟨by nlinarith, by nlinarith⟩

/-- Of two coprime numbers one is a power of two and loses its sign just if it has been the
negative of that power and the other one is odd. -/
theorem eq_two_pow_and_iff {a b k : Int} {e : Nat} (he : 0 < e) (hab : IsCoprime a b) :
    a = 2 ^ e ∧ k = -1 ↔ k * a = -2 ^ e ∧ k < 0 ∧ Odd (k * b) := by
  constructor
  · rintro ⟨rfl, rfl⟩
    have hodd : Odd b := Int.isCoprime_two_left.mp ((IsCoprime.pow_left_iff he).mp hab)
    refine ⟨neg_one_mul _, by omega, ?_⟩
    rw [neg_one_mul]
    exact hodd.neg
  · rintro ⟨hleast, hneg, hodd⟩
    -- An odd divisor of a power of two is a unit.
    have hcoprime : IsCoprime k (2 ^ e) :=
      (Int.isCoprime_two_right.mpr (Int.odd_mul.mp hodd).1).pow_right
    have hunit : IsUnit k := hcoprime.isUnit_of_dvd (Dvd.intro (-a) (by linarith))
    rcases Int.isUnit_iff.mp hunit with rfl | rfl
    · omega
    · exact ⟨by linarith, rfl⟩

/-- The lowest terms of a fraction of words of 32 bits are such words, unless one of them is
the negative of the least word. -/
theorem fits_divInt_iff {n d : Int} (hn : IsWord 32 n) (hd : IsWord 32 d) (hne : d ≠ 0) :
    Fits 32 (Rat.divInt n d) ↔ ¬Unrepresentable n d := by
  obtain ⟨k, hnum, hden⟩ := Rat.exists_eq_mul_div_num_and_eq_mul_div_den n hne
  rw [← Rat.divInt_eq_div] at hnum hden
  set q := Rat.divInt n d
  have hpos : (0 : Int) < q.den := Int.natCast_pos.mpr q.den_pos
  have hk : k ≠ 0 := by
    rintro rfl
    exact hne (by linarith)
  have hcoprime : IsCoprime q.num q.den := by
    rw [Int.isCoprime_iff_gcd_eq_one]
    exact q.reduced
  have hsign : k < 0 ↔ d < 0 := by
    rw [hden]
    exact ⟨fun hneg => mul_neg_of_neg_of_pos hneg hpos, fun hlt => neg_of_mul_neg_left hlt hpos.le⟩
  have hleast : d = -2 ^ 31 ∧ d < 0 ∧ Odd n ↔ d = -2 ^ 31 ∧ Odd n :=
    and_congr_right fun h => and_iff_right (by omega)
  have hnum_word := isWord_iff_of_mul hk (hnum ▸ hn)
  have hden_word := isWord_iff_of_mul hk (hden ▸ hd)
  rw [eq_two_pow_and_iff (by decide) hcoprime, ← hnum, ← hden, hsign] at hnum_word
  rw [eq_two_pow_and_iff (by decide) hcoprime.symm, ← hnum, ← hden, hsign, hleast] at hden_word
  rw [Fits, hnum_word, hden_word, Unrepresentable, not_or, not_or, and_iff_right hne, and_comm]

namespace Exponent

variable {n d : Int}

/-- A fraction comes to an exponent just if that is its exact value. -/
theorem ofFraction_eq_ok_iff (hd : d ≠ 0) {q : Exponent} :
    ofFraction n d = .ok q ↔ q.toRat = n / d := by
  constructor
  · intro h
    unfold ofFraction at h
    split at h
    · next hq =>
        cases h
        exact (Ratio.ofFraction_exact n hd).of_ok hq
    · cases h
  · intro h
    rw [ofFraction, Ratio.ofFraction_of_toRat_eq hd h]

/-- What is no exponent is reported with the terms that were given. -/
theorem ofFraction_eq_error_iff :
    ofFraction n d = .error ⟨n, d⟩ ↔ ¬∃ q, ofFraction n d = .ok q := by
  unfold ofFraction
  split <;> simp

theorem exists_ofFraction_iff (hn : IsWord 32 n) (hd : IsWord 32 d) :
    (∃ q, ofFraction n d = .ok q) ↔ ¬Unrepresentable n d := by
  by_cases hzero : d = 0
  · subst hzero
    have hnone : ¬∃ q, ofFraction n 0 = .ok q := ofFraction_eq_error_iff.mp rfl
    exact iff_of_false hnone (not_not_intro (Or.inl rfl))
  · rw [← fits_divInt_iff hn hd hzero, Rat.divInt_eq_div]
    constructor
    · rintro ⟨q, hq⟩
      rw [← (ofFraction_eq_ok_iff hzero).mp hq]
      exact q.fits
    · intro hfits
      exact ⟨⟨_, hfits.1, hfits.2⟩, (ofFraction_eq_ok_iff hzero).mpr rfl⟩

/-- A ratio is known by its terms. -/
theorem terms_eq_iff {q : Exponent} {x : ℚ} :
    (q.num, (q.den : Int)) = (x.num, (x.den : Int)) ↔ q.toRat = x := by
  constructor
  · intro h
    simp only [Prod.mk.injEq, Int.natCast_inj] at h
    exact Rat.ext h.1 h.2
  · rintro rfl
    rfl

/-- A fraction of two words is refused just if its denominator is zero, or if one of its
terms is the least word, which loses its sign, and the other one is odd.  Any other fraction
comes to the exponent that is its exact value, in lowest terms with a positive denominator.
When the fraction is brought to lowest terms in words of twice the size there is no overflow,
and what these terms are decides whether there is an exponent and which one.  So fractions
come to one exponent just if they are the same by cross multiplication. -/
theorem fails_iff_unrepresentable (hn : IsWord 32 n) (hd : IsWord 32 d) :
    (ofFraction n d = .error ⟨n, d⟩ ↔ Unrepresentable n d) ∧
      (¬Unrepresentable n d → ∃ q, ofFraction n d = .ok q ∧ q.toRat = n / d ∧
        q.num.natAbs.Coprime q.den ∧ 0 < q.den ∧ IsWord 32 q.num ∧ IsWord 32 q.den) ∧
      (d ≠ 0 → ∃ terms, lowestTerms 64 n d = .ok terms ∧
        ∀ q, ofFraction n d = .ok q ↔ (q.num, (q.den : Int)) = terms) ∧
      ∀ n' d' q q', ofFraction n d = .ok q → ofFraction n' d' = .ok q' →
        (q = q' ↔ n * d' = n' * d) := by
  have hexists := exists_ofFraction_iff hn hd
  have hnonzero : ∀ {n d : Int} {q}, ofFraction n d = .ok q → d ≠ 0 := by
    rintro n d q hq rfl
    cases hq
  refine ⟨?_, ?_, ?_, ?_⟩
  · rw [ofFraction_eq_error_iff, hexists, not_not]
  · intro hrepresentable
    obtain ⟨q, hq⟩ := hexists.mpr hrepresentable
    exact ⟨q, hq, (ofFraction_eq_ok_iff (hnonzero hq)).mp hq, q.reduced, q.den_pos,
      q.num_isWord, q.den_isWord⟩
  · intro hne
    have hwide : ∀ m : Int, m.natAbs ≤ max n.natAbs d.natAbs → IsWord 64 m := by
      intro m hm
      change -2 ^ 31 ≤ n ∧ n < 2 ^ 31 at hn
      change -2 ^ 31 ≤ d ∧ d < 2 ^ 31 at hd
      change -2 ^ 63 ≤ m ∧ m < 2 ^ 63
      omega
    refine ⟨_, lowestTerms_of_wide hne hwide, fun q => ?_⟩
    rw [ofFraction_eq_ok_iff hne, terms_eq_iff, Rat.divInt_eq_div]
  · intro n' d' q q' hq hq'
    have hne := hnonzero hq
    have hne' := hnonzero hq'
    have hvalue := (ofFraction_eq_ok_iff hne).mp hq
    have hvalue' := (ofFraction_eq_ok_iff hne').mp hq'
    rw [Ratio.ext_toRat_iff, hvalue, hvalue', ← Rat.divInt_eq_div, ← Rat.divInt_eq_div,
      Rat.divInt_eq_divInt_iff hne hne']

/-- The least word over an even number, where both signs are dropped and the terms get
smaller, and over an odd one. -/
theorem fails_iff_unrepresentable_least_word :
    let least : Int := -2 ^ 31
    IsWord 32 least ∧ IsWord 32 (-6) ∧ IsWord 32 (-3) ∧
      (∃ q, ofFraction least (-6) = .ok q ∧ q.toRat = (least : ℚ) / (-6 : Int) ∧
        lowestTerms 64 least (-6) = .ok (q.num, (q.den : Int)) ∧ ofFraction (2 ^ 30) 3 = .ok q) ∧
      ofFraction least (-3) = .error ⟨least, -3⟩ := by
  intro least
  have hleast : IsWord 32 least := by decide
  have heven : IsWord 32 (-6) := by decide
  have hodd : IsWord 32 (-3) := by decide
  obtain ⟨-, hvalue, hterms, hsame⟩ := fails_iff_unrepresentable hleast heven
  obtain ⟨q, hq, hrat, -⟩ := hvalue (by decide)
  obtain ⟨terms, hlowest, hnarrow⟩ := hterms (by decide)
  have hreduced : ∃ q', ofFraction (2 ^ 30) 3 = .ok q' :=
    (exists_ofFraction_iff (by decide) (by decide)).mpr (by decide)
  obtain ⟨q', hq'⟩ := hreduced
  have heq : q = q' := (hsame _ _ q q' hq hq').mpr (by decide)
  refine ⟨hleast, heven, hodd, ⟨q, hq, hrat, ?_, heq ▸ hq'⟩, ?_⟩
  · rw [hlowest, (hnarrow q).mp hq]
  · exact (fails_iff_unrepresentable hleast hodd).1.mpr (by decide)

end Exponent

end UnitText
