import UnitText.Proofs.NormalForm
import UnitText.Proofs.Overflow

/-!
Division undoes multiplication.

If an expression can be multiplied by another one and can be divided by it, then
neither way back overflows: each exponent on it is a sum of which both parts, over the
same denominator, have been met before (`Ratio.exists_add_back`).  Main statement:
`UnitExpr.division_undoes_multiplication`.
-/

namespace UnitText

/-- An exponent has a negative just if its numerator is not the least word. -/
theorem Exponent.exists_mul_minusOne_iff (x : Exponent) :
    (∃ y, x.mul minusOne = .ok y) ↔ x.num ≠ -2 ^ 31 := by
  have hnegative : x.toRat * minusOne.toRat = -x.toRat := mul_neg_one x.toRat
  have hpow : Int.pow 2 (32 - 1) = 2 ^ 31 := rfl
  obtain ⟨hlow, hhigh⟩ : IsWord 32 x.num := x.num_isWord
  rw [Ratio.exists_mul_iff, hnegative, Fits, Rat.neg_num, Rat.neg_den,
    and_iff_left x.den_isWord]
  change IsWord 32 (-x.num) ↔ _
  rw [hpow] at hlow hhigh
  rw [IsWord, hpow]
  omega

namespace UnitExpr

/-- An expression has a reciprocal just if no numerator is the least word. -/
theorem exists_inv_iff {e : UnitExpr} (he : e.Normal) :
    (∃ e', e.inv = .ok e') ↔ ∀ a ∈ e.atoms, a.exponent.num ≠ -2 ^ 31 := by
  rw [inv, exists_pow_iff he]
  exact forall₂_congr fun a _ => a.exponent.exists_mul_minusOne_iff

/-- The exponents of a base in two factors have a sum if the factors have a product. -/
theorem exists_add_of_mul {x y e : UnitExpr} (hx : x.Normal) (hy : y.Normal)
    (h : x.mul y = .ok e) {a b : Atom} (ha : a ∈ x.atoms) (hb : b ∈ y.atoms)
    (hbase : a.base = b.base) : ∃ q, a.exponent.add b.exponent = .ok q :=
  (exists_mul_iff hx hy).mp ⟨e, h⟩ b hb a ha hbase

/-- A factor that could have been taken away at once can be taken away from the
product, and what is left is the first factor. -/
theorem exists_mul_back {x y y' e e' : UnitExpr} (hx : x.Normal) (hy : y.Normal)
    (hy' : y'.Normal) (hdegree : y'.degree = -y.degree) (he : x.mul y = .ok e)
    (he' : x.mul y' = .ok e') : ∃ v, e.mul y' = .ok v ∧ v.atoms.Perm x.atoms := by
  obtain ⟨hne, hsum⟩ := (mul_exact hx hy).of_ok he
  have hback : ∃ v, e.mul y' = .ok v := by
    refine (exists_mul_iff hne hy').mpr fun b' hb' a ha hbase => ?_
    obtain ⟨hb'0, hb'degree⟩ := (hy'.mem_atoms_iff b').mp hb'
    obtain ⟨-, hadegree⟩ := (hne.mem_atoms_iff a).mp ha
    rw [hdegree, Pi.neg_apply] at hb'degree
    rw [hsum, Pi.add_apply, hbase] at hadegree
    have hb0 : y.degree b'.base ≠ 0 := by
      intro h
      rw [h, neg_zero] at hb'degree
      exact hb'0 hb'degree.symm
    obtain ⟨b, hb, hbbase, hbdegree⟩ := exists_atom_of_degree_ne_zero hb0
    have hneg : b'.exponent.toRat = -b.exponent.toRat := by rw [← hb'degree, hbdegree]
    by_cases hx0 : x.degree b'.base = 0
    · -- The first factor does not have the base: what is there is the second one's atom.
      refine Ratio.exists_add_of_eq_neg ?_
      rw [hneg, hbdegree, ← hadegree, hx0, zero_add]
    · obtain ⟨c, hc, hcbase, hcdegree⟩ := exists_atom_of_degree_ne_zero hx0
      obtain ⟨q, hq⟩ := exists_add_of_mul hx hy he hc hb (hcbase.trans hbbase.symm)
      obtain ⟨q', hq'⟩ := exists_add_of_mul hx hy' he' hc hb' hcbase
      have heq : a.exponent = q := by
        refine Ratio.ext_toRat ?_
        rw [Ratio.eq_add_of_add_eq_ok hq, hcdegree, hbdegree, hadegree]
      rw [heq]
      exact Ratio.exists_add_back hneg hq hq'
  obtain ⟨v, hv⟩ := hback
  obtain ⟨hnv, hvdegree⟩ := (mul_exact hne hy').of_ok hv
  refine ⟨v, hv, hnv.perm_of_degree_eq hx ?_⟩
  rw [hvdegree, hsum, hdegree, add_neg_cancel_right]

/-- An expression divided by itself is dimensionless, and this overflows just if it has
no reciprocal. -/
theorem div_self_iff {e : UnitExpr} (he : e.Normal) :
    e.div e = .ok dimensionless ↔ ∀ a ∈ e.atoms, a.exponent.num ≠ -2 ^ 31 := by
  rw [← exists_inv_iff he]
  constructor
  · intro h
    obtain ⟨e', h', -⟩ := exists_of_bind_eq_ok h
    exact ⟨e', h'⟩
  · rintro ⟨e', h⟩
    obtain ⟨he', hdegree⟩ := (inv_exact he).of_ok h
    have hmul : ∃ v, e.mul e' = .ok v := by
      refine (exists_mul_iff he he').mpr fun b hb a ha hbase => ?_
      refine Ratio.exists_add_of_eq_neg ?_
      rw [← ((he'.mem_atoms_iff b).mp hb).2, ← ((he.mem_atoms_iff a).mp ha).2, hdegree, hbase]
      rfl
    obtain ⟨v, hv⟩ := hmul
    obtain ⟨hnv, hvdegree⟩ := (mul_exact he he').of_ok hv
    have hperm : v.atoms.Perm dimensionless.atoms := by
      refine hnv.perm_of_degree_eq normal_dimensionless ?_
      rw [hvdegree, hdegree, add_neg_cancel, degree_dimensionless]
    have hv0 : v = dimensionless := by
      obtain ⟨atoms⟩ := v
      exact congrArg UnitExpr.mk hperm.eq_nil
    rw [div, h]
    exact hv0 ▸ hv

/-- If an expression has a product and a quotient with another one, then the product can
be divided and the quotient multiplied again without any overflow, and either has the
atoms of the expression up to their order.  An expression divided by itself is
dimensionless just if none of its numerators is the least word. -/
theorem division_undoes_multiplication {a b product quotient : UnitExpr} (ha : a.Normal)
    (hb : b.Normal) (hproduct : a.mul b = .ok product) (hquotient : a.div b = .ok quotient) :
    (∃ e, product.div b = .ok e ∧ e.atoms.Perm a.atoms) ∧
      (∃ e, quotient.mul b = .ok e ∧ e.atoms.Perm a.atoms) ∧
      ∀ e : UnitExpr, e.Normal →
        (e.div e = .ok dimensionless ↔ ∀ t ∈ e.atoms, t.exponent.num ≠ -2 ^ 31) := by
  obtain ⟨b', hinv, hquotient⟩ := exists_of_bind_eq_ok hquotient
  obtain ⟨hb', hdegree⟩ := (inv_exact hb).of_ok hinv
  refine ⟨?_, ?_, fun e he => div_self_iff he⟩
  · rw [div, hinv]
    exact exists_mul_back ha hb hb' hdegree hproduct hquotient
  · have hdegree' : b.degree = -b'.degree := by rw [hdegree, neg_neg]
    exact exists_mul_back ha hb' hb hdegree' hquotient hproduct

/-- A root that vanishes from the product and comes back, and seconds that the product
takes to the greatest exponent there is. -/
theorem division_undoes_multiplication_vanishing_root :
    let fifth : Exponent := ⟨1 / 5, by decide +kernel, by decide +kernel⟩
    let minusFifth : Exponent := ⟨-1 / 5, by decide +kernel, by decide +kernel⟩
    let twoFifths : Exponent := ⟨2 / 5, by decide +kernel, by decide +kernel⟩
    let a : UnitExpr := ⟨[⟨.none, Builtin.meter, fifth⟩, .ofUnit Builtin.second]⟩
    let b : UnitExpr :=
      ⟨[⟨.none, Builtin.second, .ofInt (2 ^ 31 - 2)⟩, ⟨.none, Builtin.meter, minusFifth⟩]⟩
    let product : UnitExpr := ⟨[⟨.none, Builtin.second, .ofInt (2 ^ 31 - 1)⟩]⟩
    let quotient : UnitExpr :=
      ⟨[⟨.none, Builtin.meter, twoFifths⟩, ⟨.none, Builtin.second, .ofInt (3 - 2 ^ 31)⟩]⟩
    a.Normal ∧ b.Normal ∧ a.mul b = .ok product ∧ a.div b = .ok quotient ∧
      (∃ e, product.div b = .ok e ∧ e.atoms.Perm a.atoms) ∧
      (∃ e, quotient.mul b = .ok e ∧ e.atoms.Perm a.atoms) ∧
      b.div b = .ok dimensionless := by
  intro fifth minusFifth twoFifths a b product quotient
  have ha : a.Normal := by decide +kernel
  have hb : b.Normal := by decide +kernel
  have hproduct : a.mul b = .ok product := by decide +kernel
  have hquotient : a.div b = .ok quotient := by decide +kernel
  obtain ⟨hdiv, hmul, hself⟩ := division_undoes_multiplication ha hb hproduct hquotient
  exact ⟨ha, hb, hproduct, hquotient, hdiv, hmul, (hself b hb).mpr (by decide +kernel)⟩

end UnitExpr

end UnitText
