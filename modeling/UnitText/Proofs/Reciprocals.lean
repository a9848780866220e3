import UnitText.Proofs.Cancellation
import UnitText.Proofs.Powers
import UnitText.Proofs.Separators

/-!
The text of a reciprocal.

Where divisors are written, the text of an expression is a fraction of which each factor
shows the name and the magnitude of the exponent of one term, and the sign of the exponent
only tells the side (`UnitExpr.Normal.text_of_usesDivision`).  The reciprocal has the same
terms in the same order with all signs changed.  Main statement: the text of the reciprocal
has the sides of the fraction in exchange (`UnitExpr.inv_swaps_sides`).
-/

namespace UnitText

/-- What a fraction writes of a whole exponent: its magnitude, left out if it is one. -/
def magnitudeText (q : ℚ) : String :=
  if q.num.natAbs = 1 then "" else "^" ++ toString q.num.natAbs

/-- A fraction: the upper factors are multiplied, each lower one follows a `/`. -/
def fractionText (upper lower : List String) : String :=
  "*".intercalate upper ++ .join (lower.map ("/" ++ ·))

/-- The text of a term in a fraction. -/
def Context.factorText (c : Context) (t : Term) : String :=
  c.unitName t.1.1 t.1.2 ++ magnitudeText t.2

theorem magnitudeText_neg (q : ℚ) : magnitudeText (-q) = magnitudeText q := by
  rw [magnitudeText, magnitudeText, Rat.num_neg_eq_neg_num, Int.natAbs_neg]

/-- The sign of a term has nothing to do with its text in a fraction. -/
theorem Context.factorText_raise (c : Context) (t : Term) :
    c.factorText (t.raise (-1)) = c.factorText t := by
  rw [factorText, Term.raise, mul_neg_one, magnitudeText_neg]
  rfl

theorem intercalate_cons (separator first : String) (rest : List String) :
    separator.intercalate (first :: rest) = first ++ .join (rest.map (separator ++ ·)) := by
  induction rest generalizing first with
  | nil => simp
  | cons second rest ih =>
      rw [String.intercalate_cons_cons, ih, List.map_cons, String.join_cons]
      simp only [String.append_assoc]

theorem Power.text_ofInt_natAbs (q : Exponent) :
    (ofInt q.num.natAbs).text = magnitudeText q.toRat := by
  have hone : (q.num.natAbs : Int) = 1 ↔ q.toRat.num.natAbs = 1 := Nat.cast_eq_one
  rw [ofInt, magnitudeText]
  simp only [hone]
  split
  · rfl
  · rw [text, intText_natCast]
    rfl

namespace UnitExpr

/-- The terms that a fraction has above, and those that it has below. -/
def upper (e : UnitExpr) : List Term :=
  e.terms.filter fun t => 0 < t.2

def lower (e : UnitExpr) : List Term :=
  e.terms.filter fun t => t.2 < 0

variable {e e' : UnitExpr} {c : Context}

/-- What a whole exponent adds to a name where divisors are written. -/
theorem unitName_append_power {a : Atom} (hinteger : a.exponent.isInteger) :
    c.unitName a.scale a.unit ++ (followingFactor true a).power.text = c.factorText a.term := by
  rw [power_followingFactor_true a hinteger, Power.text_ofInt_natAbs]
  rfl

theorem text_followingFactor_true {a : Atom} (hinteger : a.exponent.isInteger) :
    (followingFactor true a).text (c.unitIdentifier a.unit) =
      (if a.exponent.toRat < 0 then "/" else "*") ++ c.factorText a.term := by
  have hjoint : (followingFactor true a).joint.text =
      if a.exponent.toRat < 0 then "/" else "*" := by
    rw [followingFactor, Ratio.isNegative_eq, Bool.true_and]
    simp only [decide_eq_true_iff]
    split
    · rfl
    · rfl
  rw [Factor.text, followingFactor_scale, hjoint, ← unitName_append_power hinteger]
  simp only [Context.unitName, String.append_assoc]

/-- A side of a fraction, read off the atoms. -/
theorem map_factorText_filter (c : Context) (e : UnitExpr) (sign : ℚ → Bool) :
    (e.terms.filter fun t => sign t.2).map c.factorText =
      (e.atoms.filter fun a => sign a.exponent.toRat).map fun a => c.factorText a.term := by
  rw [terms, List.filter_map, List.map_map]
  rfl

theorem map_factorText_upper (c : Context) (e : UnitExpr) :
    e.upper.map c.factorText =
      (e.atoms.filter fun a => 0 < a.exponent.toRat).map fun a => c.factorText a.term :=
  map_factorText_filter c e fun q => 0 < q

theorem map_factorText_lower (c : Context) (e : UnitExpr) :
    e.lower.map c.factorText =
      (e.atoms.filter fun a => a.exponent.toRat < 0).map fun a => c.factorText a.term :=
  map_factorText_filter c e fun q => q < 0

/-- Where divisors are written, the text is a fraction. -/
theorem Normal.text_of_usesDivision (he : e.Normal) (hdivision : e.usesDivision) :
    e.text c = fractionText (e.upper.map c.factorText) (e.lower.map c.factorText) := by
  obtain ⟨b, hb, hpositive⟩ := positives_pos_iff.mp (he.usesDivision_iff.mp hdivision).1
  have hmem : b ∈ e.atoms.filter fun a => 0 < a.exponent.toRat :=
    List.mem_filter.mpr ⟨hb, decide_eq_true hpositive⟩
  obtain ⟨first, rest, hupper⟩ := List.exists_cons_of_ne_nil (List.ne_nil_of_mem hmem)
  have hinteger : ∀ a ∈ e.atoms, a.exponent.isInteger :=
    fun a ha => isInteger_of_usesDivision hdivision ha
  have habove : ∀ a ∈ first :: rest, a ∈ e.atoms ∧ 0 < a.exponent.toRat := by
    intro a ha
    rw [← hupper, List.mem_filter, decide_eq_true_iff] at ha
    exact ha
  rw [List.forall_mem_cons] at habove
  have hordered : e.ordered = first :: (rest ++ e.atoms.filter fun a => a.exponent.toRat < 0) := by
    rw [he.ordered_eq, positiveFirst, hupper, List.cons_append]
  have hrest : ∀ a ∈ rest, (followingFactor true a).text (c.unitIdentifier a.unit) =
      "*" ++ c.factorText a.term := by
    intro a ha
    obtain ⟨ha, hpositive⟩ := habove.2 a ha
    rw [text_followingFactor_true (hinteger a ha), if_neg hpositive.asymm]
  have hbelow : ∀ a ∈ e.atoms.filter fun a => a.exponent.toRat < 0,
      (followingFactor true a).text (c.unitIdentifier a.unit) = "/" ++ c.factorText a.term := by
    intro a ha
    rw [List.mem_filter, decide_eq_true_iff] at ha
    rw [text_followingFactor_true (hinteger a ha.1), if_pos ha.2]
  rw [text_of_ordered_eq hordered, hdivision, unitName_append_power (hinteger _ habove.1.1),
    List.map_append, List.map_congr_left hrest, List.map_congr_left hbelow, String.join_append,
    map_factorText_upper, map_factorText_lower, hupper, fractionText, List.map_cons,
    intercalate_cons, List.map_map, List.map_map, String.append_assoc]
  rfl

/-- The reciprocal has the terms with all signs changed, in the same order. -/
theorem Normal.terms_inv (he : e.Normal) (h : e.inv = .ok e') :
    e'.terms = e.terms.map (Term.raise (-1)) := by
  have hminus : Exponent.minusOne.toRat = -1 := rfl
  rw [he.terms_pow h, hminus, raiseTerms, if_neg (by decide)]

theorem Normal.exists_neg_of_inv (he : e.Normal) (h : e.inv = .ok e') {a : Atom}
    (ha : a ∈ e.atoms) : ∃ a' ∈ e'.atoms, a'.exponent.toRat = -a.exponent.toRat := by
  have hmem : a.term.raise (-1) ∈ e'.terms := by
    rw [he.terms_inv h]
    exact List.mem_map_of_mem (List.mem_map_of_mem ha)
  obtain ⟨a', ha', hterm⟩ := List.mem_map.mp hmem
  exact ⟨a', ha', (congrArg Prod.snd hterm).trans (mul_neg_one _)⟩

/-- What was below in a fraction is above in its reciprocal, with the same text. -/
theorem Normal.map_factorText_upper_inv (he : e.Normal) (h : e.inv = .ok e') (c : Context) :
    e'.upper.map c.factorText = e.lower.map c.factorText := by
  have hsign : (fun t : Term => decide (0 < t.2)) ∘ Term.raise (-1) =
      fun t => decide (t.2 < 0) := by
    funext t
    rw [Function.comp_apply, Term.raise, mul_neg_one, decide_eq_decide]
    exact neg_pos
  rw [upper, lower, he.terms_inv h, List.filter_map, List.map_map, hsign]
  exact List.map_congr_left fun t _ => c.factorText_raise t

/-- The reciprocal of a fraction is a fraction. -/
theorem Normal.usesDivision_inv (he : e.Normal) (h : e.inv = .ok e')
    (hwhole : ∀ a ∈ e.atoms, a.exponent.isInteger)
    (hnegative : ∃ a ∈ e.atoms, a.exponent.toRat < 0) : e'.usesDivision := by
  have he' : e'.Normal := normal_inv h
  refine he'.usesDivision_iff.mpr ⟨?_, fun a' ha' => ?_⟩
  · obtain ⟨a, ha, hsign⟩ := hnegative
    obtain ⟨a', ha', hexponent⟩ := he.exists_neg_of_inv h ha
    refine positives_pos_iff.mpr ⟨a', ha', ?_⟩
    rw [hexponent]
    exact neg_pos.mpr hsign
  · obtain ⟨a, ha, hexponent⟩ := he'.exists_neg_of_inv (he.inv_inv h) ha'
    have hden : a.exponent.den = a'.exponent.den :=
      (congrArg Rat.den hexponent).trans (Rat.neg_den _)
    have hinteger := hwhole a ha
    rw [Ratio.isInteger, hden] at hinteger
    exact hinteger

/-- The text of a fraction has the factors with positive exponents above and those with
negative ones below.  If no exponent is the least word there is a reciprocal, and its text,
whatever is written before it, has the same factors in the same orders, where those above
and those below have changed places. -/
theorem inv_swaps_sides {steps : List Step} {ref : ContextRef} {c : Context}
    (hc : (Session.initial.run steps).context? ref = .ok c) {more : List Step} {r : Resolver}
    (hr : (Session.initial.run (steps ++ more)).HasResolver r) {e : UnitExpr} (he : e.Normal)
    (hwhole : ∀ a ∈ e.atoms, a.exponent.isInteger)
    (hpositive : ∃ a ∈ e.atoms, 0 < a.exponent.toRat)
    (hnegative : ∃ a ∈ e.atoms, a.exponent.toRat < 0)
    (hleast : ∀ a ∈ e.atoms, a.exponent.toRat ≠ -2 ^ 31) :
    let factor := fun a : Atom => a.nameIn c r ++ magnitudeText a.exponent.toRat
    let above := (e.atoms.filter fun a => 0 < a.exponent.toRat).map factor
    let below := (e.atoms.filter fun a => a.exponent.toRat < 0).map factor
    ((e.write c).run r).1 = fractionText above below ∧
      ∃ e', e.inv = .ok e' ∧
        ∀ more' r', (Session.initial.run (steps ++ more')).HasResolver r' →
          ((e'.write c).run r').1 = fractionText below above := by
  have hfactor : (fun a : Atom => a.nameIn c r ++ magnitudeText a.exponent.toRat) =
      fun a => c.factorText a.term := by
    funext a
    rw [Context.factorText, Atom.nameIn, ← Session.unitName_later hc more hr]
    rfl
  have hdivision : e.usesDivision :=
    he.usesDivision_iff.mpr ⟨positives_pos_iff.mpr hpositive, hwhole⟩
  intro factor above below
  have habove : above = e.upper.map c.factorText := by
    rw [map_factorText_upper, ← hfactor]
  have hbelow : below = e.lower.map c.factorText := by
    rw [map_factorText_lower, ← hfactor]
  obtain ⟨e', h⟩ := (exists_inv_iff he).mpr fun a ha hnum => hleast a ha <| by
    rw [Ratio.toRat_of_isInteger (hwhole a ha), hnum]
    norm_num
  have he' : e'.Normal := normal_inv h
  refine ⟨?_, e', h, fun more' r' hr' => ?_⟩
  · rw [Session.write_units_later hc more hr, he.text_of_usesDivision hdivision, habove, hbelow]
  · rw [Session.write_units_later hc more' hr',
      he'.text_of_usesDivision (he.usesDivision_inv h hwhole hnegative),
      he.map_factorText_upper_inv h, ← he'.map_factorText_upper_inv (he.inv_inv h), habove, hbelow]

/-- The greatest exponent there is, above and then below. -/
theorem inv_swaps_sides_greatest_exponent :
    let furlong : BaseUnit := ⟨"Furlong", "furlong"⟩
    let farm : Namespace := ⟨⟨1⟩, "farm", [("fur", .unit (.ofUnit furlong))]⟩
    let c : Context := ⟨[farm, Builtin.scope]⟩
    let perSecond : Atom := ⟨.none, Builtin.second, .minusOne⟩
    let greatest : Atom := ⟨.kilo, Builtin.meter, .ofInt (2 ^ 31 - 1)⟩
    let squared : Atom := ⟨.none, Builtin.ampere, .ofInt (-2)⟩
    let e : UnitExpr := ⟨[perSecond, greatest, squared, .ofUnit furlong]⟩
    let steps : List Step :=
      [.create "farm" "farm" [("fur", .unit (.ofUnit furlong))],
        .compose "all" ["farm", "builtin"]]
    let more : List Step := [.write (.inContext (.named "all")) (.units ⟨[.ofUnit furlong]⟩)]
    let r := (Session.initial.run (steps ++ more)).ambient.resolver
    (Session.initial.run steps).context? (.named "all") = .ok c ∧ r.indexedCount = 1 ∧
      ((e.write c).run r).1 = "km^2147483647*fur/s/A^2" ∧
      ∃ e', e.inv = .ok e' ∧ ((e'.write c).run .fresh).1 = "s*A^2/km^2147483647/fur" := by
  intro furlong farm c perSecond greatest squared e steps more r
  have hc : (Session.initial.run steps).context? (.named "all") = .ok c := by decide +kernel
  have hr : (Session.initial.run (steps ++ more)).HasResolver r := Or.inr rfl
  obtain ⟨htext, e', hinv, htext'⟩ := inv_swaps_sides hc hr (e := e) (by decide +kernel)
    (by decide +kernel) (by decide +kernel) (by decide +kernel) (by decide +kernel)
  refine ⟨hc, by decide +kernel, ?_, e', hinv, ?_⟩
  · rw [htext]
    decide +kernel
  · rw [htext' [] .fresh (Or.inr rfl)]
    decide +kernel

end UnitExpr

end UnitText
