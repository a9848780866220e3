import UnitText.Proofs.Degree

/-!
When bounded arithmetic has a result.

Two ratios have a sum just if over some common denominator all the numbers that are met
are words: the denominator, both numerators over it and their sum
(`Ratio.exists_add_iff`).  They have a product just if the exact one fits into a ratio
(`Ratio.exists_mul_iff`).  A product of expressions overflows at nothing else than sums, one
for each base that both factors have (`UnitExpr.exists_mul_iff`).
-/

namespace UnitText

variable {α β : Type} {w : Nat}

/-- A number is a word if a positive multiple of it is one. -/
theorem IsWord.of_mul {n k : Int} (hk : 0 < k) (h : IsWord w (n * k)) : IsWord w n := by
  obtain ⟨hlow, hhigh⟩ := h
  have hpow : 0 < Int.pow 2 (w - 1) := pow_pos two_pos _
  constructor
  · by_contra hlt
    nlinarith
  · by_contra hle
    nlinarith

theorem isWord_zero (w : Nat) : IsWord w 0 := by
  have hpow : 0 < Int.pow 2 (w - 1) := pow_pos two_pos _
  exact ⟨neg_nonpos.mpr hpow.le, hpow⟩

theorem checkWord_of_isWord {n : Int} (h : IsWord w n) : checkWord w n = .ok n :=
  if_pos h

theorem isWord_of_checkWord {n m : Int} (h : checkWord w n = .ok m) : IsWord w n ∧ m = n := by
  unfold checkWord at h
  split at h
  · next hn => exact ⟨hn, (Except.ok.inj h).symm⟩
  · cases h

/-- The lowest denominator of a fraction divides the one that it is given with. -/
theorem den_dvd_of_eq_div {q : ℚ} {n : Int} {d : Nat} (h : q = (n : ℚ) / d) : q.den ∣ d := by
  have hdvd := Rat.den_dvd n d
  rw [Rat.divInt_eq_div, Int.cast_natCast, ← h] at hdvd
  exact Int.natCast_dvd_natCast.mp hdvd

/-- A rational number fits into a ratio if both of its terms are words. -/
def Fits (w : Nat) (q : ℚ) : Prop :=
  IsWord w q.num ∧ IsWord w q.den

instance (w : Nat) (q : ℚ) : Decidable (Fits w q) :=
  inferInstanceAs (Decidable (_ ∧ _))

theorem Ratio.fits (x : Ratio w) : Fits w x.toRat :=
  ⟨x.num_isWord, x.den_isWord⟩

namespace Ratio

/-- The numerator of a ratio over a multiple of its denominator. -/
def numOver (x : Ratio w) (d : Nat) : Int :=
  x.num * ((d : Int) / (x.den : Int))

theorem numOver_eq {x : Ratio w} {d : Nat} (hd : x.den ∣ d) :
    ((x.numOver d : Int) : ℚ) = x.toRat * d := by
  obtain ⟨k, rfl⟩ := hd
  have hden := x.den_ne_zero
  have hquot : ((x.den * k : Nat) : Int) / (x.den : Int) = k := by
    rw [Nat.cast_mul]
    exact Int.mul_ediv_cancel_left _ (Int.natCast_ne_zero.mpr x.den_pos.ne')
  rw [numOver, hquot, toRat_eq_div]
  push_cast
  field_simp

theorem numOver_den (x : Ratio w) : x.numOver x.den = x.num := by
  rw [numOver, Int.ediv_self (Int.natCast_ne_zero.mpr x.den_pos.ne'), mul_one]

/-- Over a multiple of a common denominator the numerator is that multiple. -/
theorem numOver_mul {x : Ratio w} {d : Nat} (hd : x.den ∣ d) (k : Nat) :
    x.numOver (d * k) = x.numOver d * k := by
  have h := numOver_eq (hd.trans (Dvd.intro k rfl))
  rw [Nat.cast_mul, ← mul_assoc, ← numOver_eq hd] at h
  exact_mod_cast h

/-- A fraction of words is a ratio, as its terms only get smaller. -/
theorem exists_ofFraction {n : Int} {d : Nat} (hpos : 0 < d) (hn : IsWord w n)
    (hd : IsWord w d) : ∃ q : Ratio w, ofFraction n d = .ok q := by
  have hne : (d : Int) ≠ 0 := Int.natCast_ne_zero.mpr hpos.ne'
  obtain ⟨k, hnum, hden⟩ := Rat.exists_eq_mul_div_num_and_eq_mul_div_den n hne
  rw [← Rat.divInt_eq_div, mul_comm] at hnum hden
  have hk : 0 < k := by
    by_contra hle
    have hcast : (0 : Int) < (Rat.divInt n d).den := Int.natCast_pos.mpr (Rat.den_pos _)
    nlinarith
  have hwords : IsWord w (Rat.divInt n d).num ∧ IsWord w (Rat.divInt n d).den :=
    ⟨.of_mul hk (hnum ▸ hn), .of_mul hk (hden ▸ hd)⟩
  refine ⟨⟨Rat.divInt n d, hwords.1, hwords.2⟩, ?_⟩
  rw [ofFraction, if_neg hne, ofRat?, dif_pos hwords]

/-- Over the denominator `d` both ratios and their sum are quotients of words. -/
structure FitOver (d : Nat) (x y : Ratio w) : Prop where
  pos : 0 < d
  left_dvd : x.den ∣ d
  right_dvd : y.den ∣ d
  den : IsWord w d
  left : IsWord w (x.numOver d)
  right : IsWord w (y.numOver d)
  total : IsWord w (x.numOver d + y.numOver d)

/-- Ratios that fit over a multiple of a common denominator fit over it. -/
theorem FitOver.of_mul {x y : Ratio w} {d k : Nat} (h : FitOver (d * k) x y)
    (hx : x.den ∣ d) (hy : y.den ∣ d) : FitOver d x y := by
  have hpos := Nat.pos_of_ne_zero (Nat.mul_ne_zero_iff.mp h.pos.ne').1
  have hk := Int.natCast_pos.mpr (Nat.pos_of_ne_zero (Nat.mul_ne_zero_iff.mp h.pos.ne').2)
  refine ⟨hpos, hx, hy, ?_, ?_, ?_, ?_⟩
  · have hden := h.den
    rw [Nat.cast_mul] at hden
    exact .of_mul hk hden
  · exact .of_mul hk (numOver_mul hx k ▸ h.left)
  · exact .of_mul hk (numOver_mul hy k ▸ h.right)
  · have htotal := h.total
    rw [numOver_mul hx, numOver_mul hy, ← add_mul] at htotal
    exact .of_mul hk htotal

/-- Ratios with a sum fit over their least common denominator. -/
theorem fitOver_lcm {x y z : Ratio w} (h : x.add y = .ok z) :
    FitOver (Nat.lcm x.den y.den) x y := by
  have hpos := Nat.lcm_pos x.den_pos y.den_pos
  have hx := Nat.dvd_lcm_left x.den y.den
  have hy := Nat.dvd_lcm_right x.den y.den
  unfold add at h
  split at h
  · next hden =>
      obtain ⟨total, htotal, -⟩ := exists_of_bind_eq_ok h
      have hlcm : Nat.lcm x.den y.den = x.den := by rw [← hden, Nat.lcm_self]
      have hright : y.numOver x.den = y.num := hden ▸ y.numOver_den
      rw [hlcm] at hpos hx hy ⊢
      refine ⟨hpos, hx, hy, x.den_isWord, ?_, ?_, ?_⟩
      · exact x.numOver_den ▸ x.num_isWord
      · exact hright ▸ y.num_isWord
      · rw [numOver_den, hright]
        exact (isWord_of_checkWord htotal).1
  · obtain ⟨common, hcommon, h⟩ := exists_of_bind_eq_ok h
    obtain ⟨hcommonWord, rfl⟩ := isWord_of_checkWord hcommon
    obtain ⟨left, hleft, h⟩ := exists_of_bind_eq_ok h
    obtain ⟨hleftWord, rfl⟩ := isWord_of_checkWord hleft
    obtain ⟨right, hright, h⟩ := exists_of_bind_eq_ok h
    obtain ⟨hrightWord, rfl⟩ := isWord_of_checkWord hright
    obtain ⟨total, htotal, -⟩ := exists_of_bind_eq_ok h
    exact ⟨hpos, hx, hy, hcommonWord, hleftWord, hrightWord, (isWord_of_checkWord htotal).1⟩

/-- Ratios that fit over a common denominator have a sum. -/
theorem FitOver.exists_add {x y : Ratio w} {d : Nat} (h : FitOver d x y) :
    ∃ z, x.add y = .ok z := by
  -- What fits over some common denominator fits over the least one.
  obtain ⟨k, rfl⟩ := Nat.lcm_dvd h.left_dvd h.right_dvd
  have hfit := h.of_mul (Nat.dvd_lcm_left x.den y.den) (Nat.dvd_lcm_right x.den y.den)
  unfold add
  split
  · next hden =>
      have hlcm : Nat.lcm x.den y.den = x.den := by rw [← hden, Nat.lcm_self]
      have hright : y.numOver x.den = y.num := hden ▸ y.numOver_den
      have htotal := hfit.total
      rw [hlcm, numOver_den, hright] at htotal
      rw [checkWord_of_isWord htotal]
      exact exists_ofFraction x.den_pos htotal x.den_isWord
  · have hleft := hfit.left
    have hright := hfit.right
    have htotal := hfit.total
    simp only [numOver] at hleft hright htotal
    simp only [checkWord_of_isWord, hfit.den, hleft, hright, htotal, bind, Except.bind]
    exact exists_ofFraction hfit.pos htotal hfit.den

/-- Two ratios have a sum just if they fit over some common denominator. -/
theorem exists_add_iff (x y : Ratio w) :
    (∃ z, x.add y = .ok z) ↔ ∃ d, FitOver d x y :=
  ⟨fun ⟨_, h⟩ => ⟨_, fitOver_lcm h⟩, fun ⟨_, h⟩ => h.exists_add⟩

theorem eq_add_of_add_eq_ok {x y z : Ratio w} (h : x.add y = .ok z) :
    z.toRat = x.toRat + y.toRat :=
  (add_exact x y).of_ok h

/-- A ratio and its negative always have a sum. -/
theorem exists_add_of_eq_neg {x y : Ratio w} (h : y.toRat = -x.toRat) :
    ∃ z, x.add y = .ok z := by
  have hden : y.den = x.den := by rw [den, den, h, Rat.neg_den]
  have hright : y.numOver x.den = y.num := hden ▸ y.numOver_den
  have htotal : x.num + y.num = 0 := by
    rw [num, num, h, Rat.neg_num, add_neg_cancel]
  refine (exists_add_iff x y).mpr ⟨x.den, x.den_pos, dvd_refl _, hden ▸ dvd_refl _, x.den_isWord,
    ?_, ?_, ?_⟩
  · exact x.numOver_den ▸ x.num_isWord
  · exact hright ▸ y.num_isWord
  · rw [numOver_den, hright, htotal]
    exact isWord_zero w

/-- What has been added can be taken away again, if it could have been taken away at
once: the numerators on the way back are those of the sum and of the number itself, over
the same denominator or a divisor of it. -/
theorem exists_add_back {x y y' z z' : Ratio w} (hy : y'.toRat = -y.toRat)
    (hz : x.add y = .ok z) (hz' : x.add y' = .ok z') : ∃ v, z.add y' = .ok v := by
  have hden : y'.den = y.den := by rw [den, den, hy, Rat.neg_den]
  have hfit := fitOver_lcm hz
  have hfit' := fitOver_lcm hz'
  rw [hden] at hfit'
  set d := Nat.lcm x.den y.den
  have hsum : z.toRat = ((x.numOver d + y.numOver d : Int) : ℚ) / d := by
    have hd : (d : ℚ) ≠ 0 := Nat.cast_ne_zero.mpr hfit.pos.ne'
    rw [eq_add_of_add_eq_ok hz, Int.cast_add, numOver_eq hfit.left_dvd,
      numOver_eq hfit.right_dvd]
    field_simp
  have hdvd : z.den ∣ d := den_dvd_of_eq_div hsum
  have hleft : z.numOver d = x.numOver d + y.numOver d := by
    have h := numOver_eq hdvd
    rw [eq_add_of_add_eq_ok hz, add_mul, ← numOver_eq hfit.left_dvd,
      ← numOver_eq hfit.right_dvd] at h
    exact_mod_cast h
  have hright : y'.numOver d = -y.numOver d := by
    have h := numOver_eq hfit'.right_dvd
    rw [hy, neg_mul, ← numOver_eq hfit.right_dvd] at h
    exact_mod_cast h
  refine (exists_add_iff z y').mpr ⟨d, hfit.pos, hdvd, hfit'.right_dvd, hfit.den, ?_,
    hfit'.right, ?_⟩
  · exact hleft ▸ hfit.total
  · rw [hleft, hright, add_neg_cancel_right]
    exact hfit.left

/-- A fraction that is the value of a ratio comes to this ratio. -/
theorem ofFraction_of_toRat_eq {z : Ratio w} {n d : Int} (hd : d ≠ 0) (hz : z.toRat = n / d) :
    ofFraction n d = .ok z := by
  have hof : ofRat? z.toRat = some z := dif_pos z.fits
  rw [ofFraction, if_neg hd, Rat.divInt_eq_div, ← hz, hof]

/-- Reducing each numerator against the other denominator leaves a product in lowest
terms. -/
theorem coprime_cross_reduced {a b c d : Nat} (hb : 0 < b) (hd : 0 < d) (hab : a.Coprime b)
    (hcd : c.Coprime d) :
    (a / a.gcd d * (c / b.gcd c)).Coprime (b / b.gcd c * (d / a.gcd d)) := by
  have hga := Nat.div_dvd_of_dvd (Nat.gcd_dvd_left a d)
  have hgd := Nat.div_dvd_of_dvd (Nat.gcd_dvd_right a d)
  have hhb := Nat.div_dvd_of_dvd (Nat.gcd_dvd_left b c)
  have hhc := Nat.div_dvd_of_dvd (Nat.gcd_dvd_right b c)
  have had := Nat.coprime_div_gcd_div_gcd (Nat.gcd_pos_of_pos_right a hd)
  have hbc := Nat.coprime_div_gcd_div_gcd (Nat.gcd_pos_of_pos_left c hb)
  refine Nat.Coprime.mul_left (.mul_right ?_ had) (.mul_right hbc.symm ?_)
  · exact (hab.coprime_dvd_left hga).coprime_dvd_right hhb
  · exact (hcd.coprime_dvd_left hhc).coprime_dvd_right hgd

/-- The numbers that a product meets are the terms of the exact one. -/
theorem cross_reduced_eq (x y : Ratio w) :
    x.num / (Int.gcd x.num y.den) * (y.num / (Int.gcd x.den y.num)) = (x.toRat * y.toRat).num ∧
      (x.den : Int) / (Int.gcd x.den y.num) * (y.den / (Int.gcd x.num y.den)) =
        (x.toRat * y.toRat).den := by
  have hgx := Int.gcd_dvd_left x.num y.den
  have hgy := Int.gcd_dvd_right x.num y.den
  have hhx := Int.gcd_dvd_left x.den y.num
  have hhy := Int.gcd_dvd_right x.den y.num
  have hx : 0 < (x.den : Int) := Int.natCast_pos.mpr x.den_pos
  have hy : 0 < (y.den : Int) := Int.natCast_pos.mpr y.den_pos
  have hproduct := cross_reduced_div hgx hgy hhx hhy hx.ne' hy.ne'
  have hpos : 0 < (x.den : Int) / (Int.gcd x.den y.num : Int) *
      ((y.den : Int) / (Int.gcd x.num y.den : Int)) :=
    mul_pos (Int.ediv_pos_of_pos_of_dvd hx (Int.natCast_nonneg _) hhx)
      (Int.ediv_pos_of_pos_of_dvd hy (Int.natCast_nonneg _) hgy)
  have hcoprime : (x.num / (Int.gcd x.num y.den) * (y.num / (Int.gcd x.den y.num))).natAbs.Coprime
      ((x.den : Int) / (Int.gcd x.den y.num) * (y.den / (Int.gcd x.num y.den))).natAbs := by
    rw [Int.natAbs_mul, Int.natAbs_mul, Int.natAbs_ediv_of_dvd hgx, Int.natAbs_ediv_of_dvd hgy,
      Int.natAbs_ediv_of_dvd hhx, Int.natAbs_ediv_of_dvd hhy]
    exact coprime_cross_reduced x.den_pos y.den_pos x.reduced y.reduced
  simp only [Int.cast_natCast, ← toRat_eq_div] at hproduct
  rw [← hproduct]
  exact ⟨(Rat.num_div_eq_of_coprime hpos hcoprime).symm,
    (Rat.den_div_eq_of_coprime hpos hcoprime).symm⟩

/-- A product overflows only if it must: what comes of it is the exact product, if that is a
ratio. -/
theorem mul_eq_ok_iff {x y z : Ratio w} : x.mul y = .ok z ↔ z.toRat = x.toRat * y.toRat := by
  refine ⟨(mul_exact x y).of_ok, fun h => ?_⟩
  obtain ⟨hnum, hden⟩ := cross_reduced_eq x y
  have hfits := z.fits
  rw [h, Fits] at hfits
  rw [mul, hnum, hden]
  simp only [checkWord_of_isWord, hfits, bind, Except.bind]
  refine ofFraction_of_toRat_eq (Int.natCast_ne_zero.mpr (x.toRat * y.toRat).den_nz) ?_
  rw [h, Int.cast_natCast, Rat.num_div_den]

/-- Two ratios have a product just if the exact one fits into a ratio. -/
theorem exists_mul_iff (x y : Ratio w) :
    (∃ z, x.mul y = .ok z) ↔ Fits w (x.toRat * y.toRat) := by
  constructor
  · rintro ⟨z, hz⟩
    rw [← mul_eq_ok_iff.mp hz]
    exact z.fits
  · intro h
    exact ⟨⟨_, h.1, h.2⟩, mul_eq_ok_iff.mpr rfl⟩

end Ratio

/-- Work on the members of a list succeeds just if it does on each of them. -/
theorem exists_mapM_iff {ε : Type} {f : α → Except ε β} {as : List α} :
    (∃ bs, as.mapM f = .ok bs) ↔ ∀ a ∈ as, ∃ b, f a = .ok b := by
  induction as with
  | nil => exact iff_of_true ⟨[], rfl⟩ fun _ ha => absurd ha List.not_mem_nil
  | cons a as ih =>
      rw [List.mapM_cons, List.forall_mem_cons, ← ih]
      constructor
      · rintro ⟨bs, h⟩
        obtain ⟨b, hb, h⟩ := exists_of_bind_eq_ok h
        obtain ⟨bs', hbs, -⟩ := exists_of_bind_eq_ok h
        exact ⟨⟨b, hb⟩, ⟨bs', hbs⟩⟩
      · rintro ⟨⟨b, hb⟩, ⟨bs, hbs⟩⟩
        rw [hb, hbs]
        exact ⟨b :: bs, rfl⟩

/-- What the results have in common with the members is the same list of both. -/
theorem map_eq_of_mapM {ε γ : Type} {f : α → Except ε β} {g : α → γ} {g' : β → γ}
    (hf : ∀ a b, f a = .ok b → g' b = g a) {as : List α} {bs : List β}
    (h : as.mapM f = .ok bs) : bs.map g' = as.map g := by
  induction as generalizing bs with
  | nil =>
      cases h
      rfl
  | cons a as ih =>
      rw [List.mapM_cons] at h
      obtain ⟨b, hb, h⟩ := exists_of_bind_eq_ok h
      obtain ⟨bs', hbs, h⟩ := exists_of_bind_eq_ok h
      cases h
      rw [List.map_cons, List.map_cons, hf a b hb, ih hbs]

/-- An atom can be inserted just if its exponent has a sum with that of its base. -/
theorem exists_insertAtom_iff {t : Atom} {atoms : List Atom}
    (hbases : (atoms.map Atom.base).Nodup) :
    (∃ atoms', insertAtom t atoms = .ok atoms') ↔
      ∀ a ∈ atoms, a.base = t.base → ∃ q, a.exponent.add t.exponent = .ok q := by
  induction atoms with
  | nil =>
      simp only [insertAtom]
      exact iff_of_true ⟨_, rfl⟩ fun _ ha => absurd ha List.not_mem_nil
  | cons a rest ih =>
      rw [List.map_cons, List.nodup_cons] at hbases
      rw [List.forall_mem_cons, insertAtom]
      split
      · next hbase =>
          have hrest : ∀ b ∈ rest, b.base ≠ t.base := by
            intro b hb heq
            exact hbases.1 (List.mem_map.mpr ⟨b, hb, heq.trans hbase.symm⟩)
          constructor
          · rintro ⟨atoms', h⟩
            obtain ⟨q, hq, -⟩ := exists_of_bind_eq_ok h
            exact ⟨fun _ => ⟨q, hq⟩, fun b hb heq => absurd heq (hrest b hb)⟩
          · rintro ⟨ha, -⟩
            obtain ⟨q, hq⟩ := ha hbase
            rw [hq]
            exact ⟨_, rfl⟩
      · next hbase =>
          constructor
          · rintro ⟨atoms', h⟩
            obtain ⟨rest', hrest, -⟩ := exists_of_bind_eq_ok h
            exact ⟨fun heq => absurd heq hbase, (ih hbases.2).mp ⟨rest', hrest⟩⟩
          · rintro ⟨-, hrest⟩
            obtain ⟨rest', hrest⟩ := (ih hbases.2).mpr hrest
            rw [hrest]
            exact ⟨_, rfl⟩

namespace UnitExpr

theorem exists_push_iff {e : UnitExpr} (he : e.Normal) (t : Atom) :
    (∃ e', e.push t = .ok e') ↔
      ∀ a ∈ e.atoms, a.base = t.base → ∃ q, a.exponent.add t.exponent = .ok q := by
  rw [← exists_insertAtom_iff he.1]
  constructor
  · rintro ⟨e', h⟩
    obtain ⟨atoms', hatoms, -⟩ := exists_of_bind_eq_ok h
    exact ⟨atoms', hatoms⟩
  · rintro ⟨atoms', h⟩
    rw [push, h]
    exact ⟨_, rfl⟩

/-- One more factor leaves the atoms of all other bases as they are. -/
theorem mem_atoms_push_iff {e e' : UnitExpr} (he : e.Normal) {t : Atom}
    (h : e.push t = .ok e') {a : Atom} (ha : a.base ≠ t.base) :
    a ∈ e'.atoms ↔ a ∈ e.atoms := by
  obtain ⟨he', hdegree⟩ := (push_exact t he).of_ok h
  rw [he.mem_atoms_iff, he'.mem_atoms_iff, hdegree, Pi.add_apply, Atom.degree,
    Pi.single_eq_of_ne ha, add_zero]

/-- Factors of different bases do not get in the way of each other: they can be added
just if each of them has a sum with what is there at the start. -/
theorem exists_pushAll_iff {ts : List Atom} (hts : (ts.map Atom.base).Nodup) {e : UnitExpr}
    (he : e.Normal) :
    (∃ e', ts.foldlM push e = .ok e') ↔
      ∀ t ∈ ts, ∀ a ∈ e.atoms, a.base = t.base → ∃ q, a.exponent.add t.exponent = .ok q := by
  induction ts generalizing e with
  | nil => exact iff_of_true ⟨e, rfl⟩ fun _ ht => absurd ht List.not_mem_nil
  | cons t ts ih =>
      rw [List.map_cons, List.nodup_cons] at hts
      rw [List.foldlM_cons, List.forall_mem_cons, ← exists_push_iff he]
      have hkept : ∀ {e'}, e.push t = .ok e' → ∀ s ∈ ts, ∀ a : Atom, a.base = s.base →
          (a ∈ e'.atoms ↔ a ∈ e.atoms) := by
        intro e' h s hs a ha
        refine mem_atoms_push_iff he h fun heq => hts.1 ?_
        exact List.mem_map.mpr ⟨s, hs, ha.symm.trans heq⟩
      constructor
      · rintro ⟨last, h⟩
        obtain ⟨e', hpush, h⟩ := exists_of_bind_eq_ok h
        refine ⟨⟨e', hpush⟩, fun s hs a ha heq => ?_⟩
        have hmem := (hkept hpush s hs a heq).mpr ha
        exact (ih hts.2 (he.push hpush)).mp ⟨last, h⟩ s hs a hmem heq
      · rintro ⟨⟨e', hpush⟩, hrest⟩
        rw [hpush]
        refine (ih hts.2 (he.push hpush)).mpr fun s hs a ha heq => ?_
        exact hrest s hs a ((hkept hpush s hs a heq).mp ha) heq

/-- Two expressions have a product just if wherever they share a base its exponents have
a sum. -/
theorem exists_mul_iff {x y : UnitExpr} (hx : x.Normal) (hy : y.Normal) :
    (∃ e, x.mul y = .ok e) ↔
      ∀ b ∈ y.atoms, ∀ a ∈ x.atoms, a.base = b.base →
        ∃ q, a.exponent.add b.exponent = .ok q :=
  exists_pushAll_iff hy.1 hx

/-- A list of factors of different bases always has a product. -/
theorem exists_ofAtoms {ts : List Atom} (hts : (ts.map Atom.base).Nodup) :
    ∃ e, ofAtoms ts = .ok e :=
  (exists_pushAll_iff hts normal_dimensionless).mpr fun _ _ _ ha => absurd ha List.not_mem_nil

/-- An expression has a power just if all of its exponents have a product with it. -/
theorem exists_pow_iff {e : UnitExpr} (he : e.Normal) (p : Exponent) :
    (∃ e', e.pow p = .ok e') ↔ ∀ a ∈ e.atoms, ∃ q, a.exponent.mul p = .ok q := by
  constructor
  · rintro ⟨e', h⟩ a ha
    obtain ⟨atoms', hatoms, -⟩ := exists_of_bind_eq_ok h
    obtain ⟨a', ha'⟩ := exists_mapM_iff.mp ⟨atoms', hatoms⟩ a ha
    obtain ⟨q, hq, -⟩ := exists_of_bind_eq_ok ha'
    exact ⟨q, hq⟩
  · intro h
    have hraise : ∀ a ∈ e.atoms, ∃ a', (do
        let q ← a.exponent.mul p
        pure (a.withExponent q)) = Except.ok a' := by
      intro a ha
      obtain ⟨q, hq⟩ := h a ha
      rw [hq]
      exact ⟨a.withExponent q, rfl⟩
    obtain ⟨atoms', hatoms⟩ := exists_mapM_iff.mpr hraise
    unfold pow
    rw [hatoms]
    refine exists_ofAtoms ?_
    rw [map_eq_of_mapM (g := Atom.base) ?_ hatoms]
    · exact he.1
    · intro a a' ha'
      obtain ⟨q, -, ha'⟩ := exists_of_bind_eq_ok ha'
      cases ha'
      rfl

end UnitExpr

end UnitText
