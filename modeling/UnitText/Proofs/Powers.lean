import UnitText.Proofs.Terms

/-!
Powers of unit expressions.

A power has the terms of the expression raised to it, and it overflows only if one of
these does not fit into an exponent (`UnitExpr.Normal.pow_eq_ok_iff`).  So the laws of
powers are those of raised terms.  Main statement: powers are exact and keep the order of
atoms, powers of powers and of reciprocals come to one power, and the power of a product
is the product of the powers (`UnitExpr.powers_exact_in_order`).
-/

namespace UnitText

namespace UnitExpr

variable {e e' : UnitExpr}

/-- A power fails by nothing but an overflow. -/
theorem Normal.pow_orOverflow (he : e.Normal) (p : Exponent) :
    OrOverflow (fun e' => e'.terms = raiseTerms p.toRat e.terms) (e.pow p) := by
  cases hout : e.pow p with
  | error cause =>
      have hexact := pow_exact he p
      rw [hout] at hexact
      exact hexact
  | ok e' => exact he.terms_pow hout

/-- An expression has a power just if all exact exponents of it fit. -/
theorem Normal.exists_pow_iff_fits (he : e.Normal) (p : Exponent) :
    (∃ e', e.pow p = .ok e') ↔ ∀ a ∈ e.atoms, Fits 32 (a.exponent.toRat * p.toRat) := by
  rw [exists_pow_iff he]
  exact forall₂_congr fun a _ => Ratio.exists_mul_iff a.exponent p

/-- A power is the expression that has the raised terms, if there is one. -/
theorem Normal.pow_eq_ok_iff (he : e.Normal) (p : Exponent) :
    e.pow p = .ok e' ↔ e'.terms = raiseTerms p.toRat e.terms := by
  refine ⟨he.terms_pow, fun h => ?_⟩
  have hfits : ∀ a ∈ e.atoms, Fits 32 (a.exponent.toRat * p.toRat) := by
    intro a ha
    by_cases hp : p.toRat = 0
    · rw [hp, mul_zero]
      exact ⟨isWord_zero 32, by decide⟩
    · have hmem : a.term.raise p.toRat ∈ e'.terms := by
        rw [h, raiseTerms, if_neg hp]
        exact List.mem_map_of_mem (List.mem_map_of_mem ha)
      obtain ⟨a', -, ha'⟩ := List.mem_map.mp hmem
      have hexponent : a'.exponent.toRat = a.exponent.toRat * p.toRat :=
        congrArg Prod.snd ha'
      rw [← hexponent]
      exact a'.exponent.fits
  obtain ⟨e'', hpow⟩ := (he.exists_pow_iff_fits p).mpr hfits
  have hsame : e' = e'' := terms_injective (h.trans (he.terms_pow hpow).symm)
  rw [hpow, hsame]

/-- The power of a power is the power to the product of both. -/
theorem Normal.pow_pow (he : e.Normal) {p q r : Exponent} (hr : r.toRat = p.toRat * q.toRat)
    (h : e.pow p = .ok e') : e'.pow q = e.pow r := by
  have he' : e'.Normal := normal_pow h
  refine (he'.pow_orOverflow q).eq_of_ok_iff (he.pow_orOverflow r) fun e'' => ?_
  rw [he'.pow_eq_ok_iff, he.pow_eq_ok_iff, he.terms_pow h, raiseTerms_raiseTerms, hr]

theorem Normal.pow_one (he : e.Normal) : e.pow .one = .ok e := by
  have hone : Exponent.one.toRat = 1 := rfl
  rw [he.pow_eq_ok_iff, hone, raiseTerms_one]

theorem Normal.inv_inv (he : e.Normal) (h : e.inv = .ok e') : e'.inv = .ok e := by
  have hone : Exponent.one.toRat = Exponent.minusOne.toRat * Exponent.minusOne.toRat := by
    decide +kernel
  rw [inv, he.pow_pow hone h, he.pow_one]

/-- The power of a product and the product of the powers are the same, also in the order of
their atoms, if both of them are there. -/
theorem pow_mul_eq {a b left right : UnitExpr} (ha : a.Normal) (hb : b.Normal) {p : Exponent}
    (hleft : (do (← a.mul b).pow p) = .ok left)
    (hright : (do (← a.pow p).mul (← b.pow p)) = .ok right) : left = right := by
  obtain ⟨product, hproduct, hleft⟩ := exists_of_bind_eq_ok hleft
  obtain ⟨a', ha', hright⟩ := exists_of_bind_eq_ok hright
  obtain ⟨b', hb', hright⟩ := exists_of_bind_eq_ok hright
  apply terms_injective
  calc
    left.terms = raiseTerms p.toRat (addTerms a.terms b.terms) := by
      rw [(ha.mul hproduct).terms_pow hleft, terms_mul hproduct]
    _ = addTerms (raiseTerms p.toRat a.terms) (raiseTerms p.toRat b.terms) :=
      raiseTerms_addTerms _ _ _
    _ = right.terms := by rw [terms_mul hright, ha.terms_pow ha', hb.terms_pow hb']

/-- A power overflows just if the exact exponent of some atom does not fit.  If not, the
power zero is dimensionless, and any other has the atoms of the expression in their order
with exact exponents.  A power of a power is the power to the product, or both overflow; a
reciprocal has the expression as its reciprocal; and a product raised to a power has the
atoms of the product of the powers in the same order. -/
theorem powers_exact_in_order {e a b : UnitExpr} (he : e.Normal) (ha : a.Normal)
    (hb : b.Normal) (p : Exponent) :
    (e.pow p = .error .overflow ↔
        ∃ t ∈ e.atoms, ¬Fits 32 (t.exponent.toRat * p.toRat)) ∧
      (e.pow p ≠ .error .overflow → ∃ e', e.pow p = .ok e' ∧
        (p.toRat = 0 → e' = dimensionless) ∧
        (p.toRat ≠ 0 →
          e'.atoms.map (fun t => (t.base, t.exponent.toRat)) =
            e.atoms.map fun t => (t.base, t.exponent.toRat * p.toRat))) ∧
      (∀ q, Fits 32 (p.toRat * q.toRat) → ∀ e', e.pow p = .ok e' →
        ∃ r, p.mul q = .ok r ∧ r.toRat = p.toRat * q.toRat ∧ e'.pow q = e.pow r) ∧
      (∀ e', e.inv = .ok e' → e'.inv = .ok e) ∧
      ∀ left right, (do (← a.mul b).pow p) = .ok left →
        (do (← a.pow p).mul (← b.pow p)) = .ok right → left = right := by
  have hoverflow := (he.pow_orOverflow p).eq_overflow_iff
  refine ⟨?_, fun hnone => ?_, fun q hfits e' h => ?_, fun e' h => he.inv_inv h,
    fun left right => pow_mul_eq ha hb⟩
  · rw [hoverflow, he.exists_pow_iff_fits p]
    push Not
    rfl
  · obtain ⟨e', h⟩ := not_not.mp (mt hoverflow.mpr hnone)
    have hterms := he.terms_pow h
    refine ⟨e', h, fun hp => terms_injective ?_, fun hp => ?_⟩
    · rw [hterms, raiseTerms, if_pos hp]
      rfl
    · rw [raiseTerms, if_neg hp, terms, terms, List.map_map] at hterms
      exact hterms
  · obtain ⟨r, hr⟩ := (Ratio.exists_mul_iff p q).mpr hfits
    have hexact := Ratio.mul_eq_ok_iff.mp hr
    exact ⟨r, hr, hexact, he.pow_pow hexact h⟩

/-- A power whose terms are small although the numbers they come from are not, what it comes
to by two further powers of which one overflows, and a product in which seconds cancel. -/
theorem powers_exact_in_order_cross_reduced :
    let small : Exponent := ⟨3 / 65536, by decide +kernel, by decide +kernel⟩
    let great : Exponent := ⟨65536 / 3, by decide +kernel, by decide +kernel⟩
    let quarter : Exponent := ⟨1 / 4, by decide +kernel, by decide +kernel⟩
    let e : UnitExpr :=
      ⟨[⟨.none, Builtin.meter, great⟩, ⟨.none, Builtin.second, .ofInt (-2 ^ 30)⟩]⟩
    let e' : UnitExpr := ⟨[.ofUnit Builtin.meter, ⟨.none, Builtin.second, .ofInt (-49152)⟩]⟩
    let a : UnitExpr := ⟨[⟨.none, Builtin.meter, quarter⟩, .ofUnit Builtin.second]⟩
    let b : UnitExpr := ⟨[⟨.none, Builtin.second, .minusOne⟩, .ofUnit Builtin.meter]⟩
    let product : UnitExpr :=
      ⟨[⟨.none, Builtin.meter, ⟨15 / 262144, by decide +kernel, by decide +kernel⟩⟩]⟩
    e.Normal ∧ a.Normal ∧ b.Normal ∧ e.pow small = .ok e' ∧ e'.pow great = .ok e ∧
      (∃ r, small.mul (Exponent.ofInt 65537) = .ok r ∧ e.pow r = .error .overflow) ∧
      (do (← a.mul b).pow small) = .ok product ∧
      (do (← a.pow small).mul (← b.pow small)) = .ok product := by
  intro small great quarter e e' a b product
  have he : e.Normal := by decide +kernel
  have ha : a.Normal := by decide +kernel
  have hb : b.Normal := by decide +kernel
  have hpow : e.pow small = .ok e' := by decide +kernel
  obtain ⟨-, -, htwice, -, hproduct⟩ := powers_exact_in_order he ha hb small
  have hleft : (do (← a.mul b).pow small) = .ok product := by decide +kernel
  obtain ⟨r, -, hr, hback⟩ := htwice great (by decide +kernel) e' hpow
  obtain ⟨r', hr', -, hover⟩ := htwice (Exponent.ofInt 65537) (by decide +kernel) e' hpow
  have hone : r = Exponent.one := by
    refine Ratio.ext_toRat ?_
    rw [hr]
    decide +kernel
  have hover' : e'.pow (.ofInt 65537) = .error .overflow := by decide +kernel
  obtain ⟨right, hright⟩ : ∃ right, (do (← a.pow small).mul (← b.pow small)) = Except.ok right :=
    ⟨product, by decide +kernel⟩
  refine ⟨he, ha, hb, hpow, ?_, ⟨r', hr', hover ▸ hover'⟩, hleft, ?_⟩
  · rw [hback, hone]
    exact he.pow_one
  · rw [hproduct product right hleft hright]
    exact hright

end UnitExpr

end UnitText
