import UnitText.Proofs.ReadBack

/-!
Separators and suffixes in unit text.

The text of an expression is split outside parentheses, as its reader does, and the parts
are looked at one by one: each is the name of an atom with a suffix for its exponent
(`IsFactorOf`).  Whether negative exponents follow `/` or keep their sign is decided once for
the whole expression, so the separators and the minus signs can be counted
(`UnitExpr.map_positiveFirst`).  Main statement: `UnitExpr.separators_and_suffixes`.
-/

namespace UnitText

/-- The separators of a unit text outside parentheses, in their order. -/
def separators (text : String) : List Char :=
  (splitText text).tail.map Prod.fst

/-- What a unit text writes of an exponent: all that follows the name. -/
def suffix (factor : List Char) : List Char :=
  factor.dropWhile (· ≠ '^')

/-- Whether all of an exponent stands in parentheses. -/
def Parenthesized (suffix : List Char) : Prop :=
  ∃ inner, suffix = '^' :: '(' :: (inner ++ [')'])

/-- The name that a resolver writes for an atom. -/
def Atom.nameIn (c : Context) (r : Resolver) (a : Atom) : String :=
  a.scale.symbol ++ ((Resolver.resolveUnit c a.unit).run r).1.identifier

/-- A factor is the name and the suffix of an atom: there is no suffix just if the exponent
is one, or minus one behind `/`, and it stands in parentheses just if the exponent is not
whole. -/
structure IsFactorOf (name : String) (q : Exponent) (part : Char × List Char) : Prop where
  name_suffix : part.2 = name.toList ++ suffix part.2
  suffix_eq_nil_iff : suffix part.2 = [] ↔ q.toRat = 1 ∨ q.toRat = -1 ∧ part.1 = '/'
  parenthesized_iff : Parenthesized (suffix part.2) ↔ ¬q.isInteger

/-- Splitting a text loses nothing of it. -/
theorem splitFactors_flatMap (depth : Nat) (cs : List Char) :
    (splitFactors depth cs).1 ++ (splitFactors depth cs).2.flatMap (fun part => part.1 :: part.2) =
      cs := by
  induction cs generalizing depth with
  | nil => rfl
  | cons c cs ih =>
      rw [splitFactors]
      split
      · rw [List.nil_append, List.flatMap_cons, List.cons_append, ih]
      · rw [List.cons_append, ih]

theorem splitText_flatMap (text : String) :
    (splitText text).flatMap (fun part => part.1 :: part.2) = '*' :: text.toList := by
  rw [splitText, List.flatMap_cons, List.cons_append, splitFactors_flatMap]

theorem count_minus_toString (n : Nat) : (toString n).toList.count '-' = 0 :=
  List.count_eq_zero.mpr fun h => nomatch isDigit_of_mem_toString h

theorem count_minus_intText (n : Int) :
    (intText n).toList.count '-' = if n < 0 then 1 else 0 := by
  unfold intText
  split
  · rw [String.toList_append, List.count_append, count_minus_toString]
    rfl
  · exact count_minus_toString _

namespace Power

/-- Whether a power is written as a fraction. -/
def isFraction : Power → Bool
  | binary _ _ => true
  | exact _ _ => true
  | _ => false

theorem text_eq_nil_iff (p : Power) : p.text.toList = [] ↔ p = omitted := by
  cases p with
  | omitted => simp [text]
  | whole | binary | exact => simp [text]

theorem parenthesized_text_iff (p : Power) : Parenthesized p.text.toList ↔ p.isFraction := by
  cases p with
  | omitted => exact iff_of_false (fun ⟨_, h⟩ => nomatch h) (fun h => nomatch h)
  | whole n =>
      refine iff_of_false (fun ⟨inner, h⟩ => ?_) (fun h => nomatch h)
      have hopen : '(' ∈ (intText n).toList := by
        have htail : (intText n).toList = '(' :: (inner ++ [')']) := by simpa [text] using h
        rw [htail]
        exact List.mem_cons_self
      exact ne_of_isNumeric (isNumeric_of_mem_intText hopen) rfl rfl
  | binary n d =>
      refine iff_of_true ⟨(intText n).toList ++ '/' :: (toString d).toList, ?_⟩ rfl
      simp [text]
  | exact n d =>
      refine iff_of_true ⟨(intText n).toList ++ '/' :: '/' :: (toString d).toList, ?_⟩ rfl
      simp [text]

theorem ofInt_eq_omitted_iff (n : Int) : ofInt n = omitted ↔ n = 1 := by
  unfold ofInt
  split <;> simp_all

theorem ofExponent_eq_omitted_iff (q : Exponent) : ofExponent q = omitted ↔ q.toRat = 1 := by
  have hone : q.toRat = 1 ↔ q.isInt 1 := by rw [Ratio.isInt_iff, Int.cast_one]
  rw [hone, Ratio.isInt, Bool.and_eq_true, beq_iff_eq, ofExponent]
  split
  · next hinteger => rw [ofInt_eq_omitted_iff, and_iff_left hinteger]
  · next hinteger =>
      refine iff_of_false (fun h => ?_) (fun h => hinteger h.2)
      split at h
      · cases h
      · cases h

@[simp] theorem isFraction_ofInt (n : Int) : (ofInt n).isFraction = false := by
  unfold ofInt
  split
  · rfl
  · rfl

theorem isFraction_ofExponent (q : Exponent) : (ofExponent q).isFraction = !q.isInteger := by
  unfold ofExponent
  split
  · next hinteger => rw [isFraction_ofInt, hinteger, Bool.not_true]
  · next hinteger =>
      rw [Bool.not_eq_true] at hinteger
      rw [hinteger]
      split
      · rfl
      · rfl

theorem count_minus_ofInt (n : Int) :
    (ofInt n).text.toList.count '-' = if n < 0 then 1 else 0 := by
  unfold ofInt
  split
  · next hone =>
      rw [hone]
      rfl
  · rw [text, String.toList_append, List.count_append, count_minus_intText]
    simp

theorem count_minus_ofExponent (q : Exponent) :
    (ofExponent q).text.toList.count '-' = if q.isNegative then 1 else 0 := by
  have hnegative : q.isNegative = decide (q.num < 0) := rfl
  unfold ofExponent
  rw [hnegative]
  split
  · rw [count_minus_ofInt]
    simp
  · split
    all_goals
      simp only [text, String.toList_append, List.count_append, count_minus_intText,
        count_minus_toString]
      simp

/-- A natural power is written with digits alone. -/
theorem mem_text_ofInt {n : Nat} {c : Char} (h : c ∈ (ofInt n).text.toList) :
    c = '^' ∨ c.isDigit := by
  unfold ofInt at h
  split at h
  · exact nomatch h
  · rw [text, intText_natCast, String.toList_append, List.mem_append] at h
    refine h.imp (fun h => ?_) isDigit_of_mem_toString
    simpa using h

end Power

namespace UnitExpr

section Factors

variable (division : Bool) (a : Atom)

theorem sign_followingFactor :
    (followingFactor division a).joint.sign =
      if division && a.exponent.isNegative then '/' else '*' := by
  unfold followingFactor
  split
  · rfl
  · rfl

/-- Where divisors are written, all that is seen of a whole exponent is its magnitude. -/
theorem power_followingFactor_true (hinteger : a.exponent.isInteger) :
    (followingFactor true a).power = .ofInt a.exponent.num.natAbs := by
  unfold followingFactor
  split
  · rfl
  · next hover =>
      have hnonneg : 0 ≤ a.exponent.num := not_lt.mp fun h => hover (decide_eq_true h)
      rw [Power.ofExponent, if_pos hinteger, Int.natAbs_of_nonneg hnonneg]

theorem power_followingFactor_false :
    (followingFactor false a).power = .ofExponent a.exponent :=
  rfl

/-- The power of a factor is left out if it is one, and behind `/` also if it is minus one. -/
theorem power_followingFactor_eq_omitted_iff (hinteger : division → a.exponent.isInteger) :
    (followingFactor division a).power = .omitted ↔
      a.exponent.toRat = 1 ∨
        a.exponent.toRat = -1 ∧ (followingFactor division a).joint.sign = '/' := by
  unfold followingFactor
  split
  · next hover =>
      rw [Bool.and_eq_true] at hover
      have hnegative : a.exponent.num < 0 := of_decide_eq_true hover.2
      rw [Power.ofDivisor, Power.ofInt_eq_omitted_iff,
        Ratio.toRat_of_isInteger (hinteger hover.1), Joint.sign, and_iff_left rfl]
      norm_cast
      omega
  · have hsign : Joint.times.sign ≠ '/' := by decide
    rw [Power.ofExponent_eq_omitted_iff, iff_false_intro hsign, and_false, or_false]

theorem isFraction_power_followingFactor (hinteger : division → a.exponent.isInteger) :
    (followingFactor division a).power.isFraction = !a.exponent.isInteger := by
  unfold followingFactor
  split
  · next hover =>
      rw [Bool.and_eq_true] at hover
      rw [Power.ofDivisor, Power.isFraction_ofInt, hinteger hover.1, Bool.not_true]
  · exact Power.isFraction_ofExponent _

/-- Behind `*` a negative exponent has its minus sign. -/
theorem count_minus_followingFactor_false {a : Atom} {identifier : String}
    (hname : '-' ∉ (a.scale.symbol ++ identifier).toList) :
    ((followingFactor false a).joint.sign ::
        (followingFactor false a).body identifier).count '-' =
      if a.exponent.isNegative then 1 else 0 := by
  rw [sign_followingFactor, Factor.body, followingFactor_name, power_followingFactor_false,
    Bool.false_and, List.count_cons_of_ne (by decide), List.count_append,
    List.count_eq_zero.mpr hname, Power.count_minus_ofExponent, zero_add]

end Factors

/-- How many atoms of an expression have a positive exponent. -/
def positives (e : UnitExpr) : Nat :=
  e.atoms.countP fun a => 0 < a.exponent.toRat

/-- How many atoms of an expression have a negative exponent. -/
def negatives (e : UnitExpr) : Nat :=
  e.atoms.countP fun a => a.exponent.toRat < 0

variable {e : UnitExpr} {c : Context}

/-- What is one thing for every positive exponent and another one for every negative one. -/
theorem map_positiveFirst {β : Type} {f : Atom → β} {x y : β}
    (hx : ∀ a ∈ e.atoms, 0 < a.exponent.toRat → f a = x)
    (hy : ∀ a ∈ e.atoms, a.exponent.toRat < 0 → f a = y) :
    e.positiveFirst.map f = List.replicate e.positives x ++ List.replicate e.negatives y := by
  rw [positiveFirst, List.map_append, positives, negatives, List.countP_eq_length_filter,
    List.countP_eq_length_filter]
  congr 1
  · refine List.map_eq_replicate_iff.mpr fun a ha => ?_
    rw [List.mem_filter, decide_eq_true_iff] at ha
    exact hx a ha.1 ha.2
  · refine List.map_eq_replicate_iff.mpr fun a ha => ?_
    rw [List.mem_filter, decide_eq_true_iff] at ha
    exact hy a ha.1 ha.2

theorem positives_pos_iff : 0 < e.positives ↔ ∃ a ∈ e.atoms, 0 < a.exponent.toRat := by
  simp only [positives, List.countP_pos_iff, decide_eq_true_iff]

theorem Normal.usesDivision_iff (he : e.Normal) :
    e.usesDivision ↔ 0 < e.positives ∧ ∀ a ∈ e.atoms, a.exponent.isInteger := by
  rw [usesDivision, Bool.and_eq_true, List.any_eq_true, List.all_eq_true, positives_pos_iff]
  refine and_congr_left fun _ => exists_congr fun a => and_congr_right fun ha => ?_
  have hne : a.exponent.toRat ≠ 0 := fun h => he.2 a ha (Rat.num_eq_zero.mpr h)
  rw [Ratio.not_isNegative_eq, decide_eq_true_iff]
  exact ⟨fun hle => lt_of_le_of_ne hle hne.symm, le_of_lt⟩

/-- The separators of the text of an expression join its atoms, from the second one on. -/
theorem separators_text (hnames : ∀ a ∈ e.atoms, Unbroken (c.unitName a.scale a.unit)) :
    separators (e.text c) =
      (e.ordered.map fun a => (followingFactor e.usesDivision a).joint.sign).tail := by
  by_cases hne : e.ordered = []
  · rw [text_of_ordered_eq_nil hne, hne]
    rfl
  · rw [separators, splitText_text hnames hne, ← List.map_tail, List.map_map, List.map_tail]
    rfl

/-- The signs of the text of an expression are those of its parts. -/
theorem flatMap_text (hnames : ∀ a ∈ e.atoms, Unbroken (c.unitName a.scale a.unit))
    (hne : e.ordered ≠ []) :
    '*' :: (e.text c).toList = e.ordered.flatMap fun a =>
      (followingFactor e.usesDivision a).joint.sign ::
        (followingFactor e.usesDivision a).body (c.unitIdentifier a.unit) := by
  rw [← splitText_flatMap, splitText_text hnames hne, List.flatMap_map]

/-- Where divisors are written, all factors that are multiplied come before them. -/
theorem Normal.separators_of_usesDivision (he : e.Normal)
    (hnames : ∀ a ∈ e.atoms, Unbroken (c.unitName a.scale a.unit)) (hdivision : e.usesDivision) :
    separators (e.text c) =
      List.replicate (e.positives - 1) '*' ++ List.replicate e.negatives '/' := by
  have hpositives := (he.usesDivision_iff.mp hdivision).1
  rw [separators_text hnames, he.ordered_eq, hdivision, map_positiveFirst (x := '*') (y := '/'),
    List.tail_append_of_ne_nil, List.tail_replicate]
  · exact mt (List.replicate_eq_nil_iff _).mp hpositives.ne'
  · intro a _ ha
    rw [sign_followingFactor, Ratio.isNegative_eq, decide_eq_false ha.asymm]
    rfl
  · intro a _ ha
    rw [sign_followingFactor, Ratio.isNegative_eq, decide_eq_true ha]
    rfl

theorem Normal.separators_of_not_usesDivision (he : e.Normal)
    (hnames : ∀ a ∈ e.atoms, Unbroken (c.unitName a.scale a.unit))
    (hdivision : e.usesDivision = false) :
    separators (e.text c) = List.replicate (e.positives + e.negatives - 1) '*' := by
  rw [separators_text hnames, he.ordered_eq, hdivision, map_positiveFirst (x := '*') (y := '*'),
    List.replicate_append_replicate, List.tail_replicate]
  · exact fun a _ _ => sign_followingFactor false a
  · exact fun a _ _ => sign_followingFactor false a

/-- Where divisors are written, nothing but their names can bring a minus sign or a
parenthesis. -/
theorem mem_text_of_usesDivision
    (hnames : ∀ a ∈ e.atoms, Unbroken (c.unitName a.scale a.unit)) (hdivision : e.usesDivision)
    {ch : Char} (h : ch ∈ (e.text c).toList) :
    ch = '*' ∨ ch = '/' ∨ ch = '^' ∨ ch.isDigit ∨
      ∃ a ∈ e.atoms, ch ∈ (c.unitName a.scale a.unit).toList := by
  have hne : e.ordered ≠ [] := by
    intro hnil
    rw [text_of_ordered_eq_nil hnil] at h
    exact nomatch h
  have hmem : ch ∈ '*' :: (e.text c).toList := List.mem_cons_of_mem _ h
  rw [flatMap_text hnames hne, hdivision] at hmem
  obtain ⟨a, ha, hch⟩ := List.mem_flatMap.mp hmem
  have ha := mem_ordered.mp ha
  rw [List.mem_cons, Factor.body, List.mem_append, followingFactor_name,
    power_followingFactor_true a (isInteger_of_usesDivision hdivision ha),
    sign_followingFactor] at hch
  rcases hch with hsign | hname | hpower
  · split at hsign
    · exact Or.inr (Or.inl hsign)
    · exact Or.inl hsign
  · exact Or.inr (Or.inr (Or.inr (Or.inr ⟨a, ha, hname⟩)))
  · rcases Power.mem_text_ofInt hpower with hcaret | hdigit
    · exact Or.inr (Or.inr (Or.inl hcaret))
    · exact Or.inr (Or.inr (Or.inr (Or.inl hdigit)))

/-- Where no divisors are written, each negative exponent has its minus sign. -/
theorem Normal.count_minus_of_not_usesDivision (he : e.Normal)
    (hnames : ∀ a ∈ e.atoms, Unbroken (c.unitName a.scale a.unit))
    (hminus : ∀ a ∈ e.atoms, '-' ∉ (c.unitName a.scale a.unit).toList)
    (hdivision : e.usesDivision = false) : (e.text c).toList.count '-' = e.negatives := by
  by_cases hne : e.ordered = []
  · have hatoms : e.atoms = [] := List.isEmpty_iff.mp (ordered_eq_nil_iff.mp hne)
    rw [text_of_ordered_eq_nil hne, negatives, hatoms]
    rfl
  · have hcount : ('*' :: (e.text c).toList).count '-' = e.negatives := by
      rw [flatMap_text hnames hne, List.count_flatMap, he.ordered_eq, hdivision,
        map_positiveFirst (x := 0) (y := 1), List.sum_append]
      · simp
      · intro a ha hpositive
        rw [Function.comp_apply, count_minus_followingFactor_false (hminus a ha),
          Ratio.isNegative_eq, decide_eq_false hpositive.asymm]
        rfl
      · intro a ha hnegative
        rw [Function.comp_apply, count_minus_followingFactor_false (hminus a ha),
          Ratio.isNegative_eq, decide_eq_true hnegative]
        rfl
    simpa using hcount

/-- The factors of the text of an expression are those of its ordered atoms. -/
theorem isFactorOf_splitText (hnames : ∀ a ∈ e.atoms, Unbroken (c.unitName a.scale a.unit))
    (hne : e.ordered ≠ []) :
    List.Forall₂ (fun a part => IsFactorOf (c.unitName a.scale a.unit) a.exponent part) e.ordered
      (splitText (e.text c)) := by
  rw [splitText_text hnames hne, List.forall₂_map_right_iff, List.forall₂_same]
  intro a ha
  have ha := mem_ordered.mp ha
  have hinteger : e.usesDivision → a.exponent.isInteger :=
    fun hdivision => isInteger_of_usesDivision hdivision ha
  have hunbroken : Unbroken
      ((followingFactor e.usesDivision a).name (c.unitIdentifier a.unit)) := by
    rw [followingFactor_name]
    exact hnames a ha
  have hsuffix : suffix ((followingFactor e.usesDivision a).body (c.unitIdentifier a.unit)) =
      (followingFactor e.usesDivision a).power.text.toList :=
    (Factor.takeWhile_body hunbroken).2
  refine ⟨?_, ?_, ?_⟩
  · rw [hsuffix, Factor.body, followingFactor_name]
    rfl
  · rw [hsuffix, Power.text_eq_nil_iff, power_followingFactor_eq_omitted_iff _ a hinteger]
  · rw [hsuffix, Power.parenthesized_text_iff, isFraction_power_followingFactor _ a hinteger,
      Bool.not_eq_true', Bool.not_eq_true]

/-- The law of separators and suffixes, for every context and every resolver that a session
has at any later time.  If there is a positive exponent and all of them are whole, the atoms
with positive exponents are multiplied and each other one follows a `/`, without any minus
sign or parenthesis.  If not, there is no `/` outside parentheses, and each negative exponent
brings one minus sign. -/
theorem separators_and_suffixes {steps : List Step} {ref : ContextRef} {c : Context}
    (hc : (Session.initial.run steps).context? ref = .ok c) {more : List Step} {r : Resolver}
    (hr : (Session.initial.run (steps ++ more)).HasResolver r) {e : UnitExpr} (he : e.Normal)
    (hnames : ∀ a ∈ e.atoms, ∀ ch ∈ (a.nameIn c r).toList,
      ch ∉ ['*', '/', '^', '(', ')', '-']) :
    let text := ((e.write c).run r).1
    (0 < e.positives → (∀ a ∈ e.atoms, a.exponent.isInteger) →
        separators text =
            List.replicate (e.positives - 1) '*' ++ List.replicate e.negatives '/' ∧
          ∀ ch ∈ text.toList, ch ∉ ['-', '(', ')']) ∧
      (¬(0 < e.positives ∧ ∀ a ∈ e.atoms, a.exponent.isInteger) →
        separators text = List.replicate (e.positives + e.negatives - 1) '*' ∧
          text.toList.count '-' = e.negatives) ∧
      (¬e.isDimensionless →
        List.Forall₂ (fun a part => IsFactorOf (a.nameIn c r) a.exponent part)
          e.positiveFirst (splitText text)) := by
  have hname : ∀ a : Atom, a.nameIn c r = c.unitName a.scale a.unit :=
    fun a => (Session.unitName_later hc more hr a.scale a.unit).symm
  simp only [hname, List.mem_cons, List.not_mem_nil, or_false, not_or] at hnames ⊢
  rw [Session.write_units_later hc more hr]
  have hunbroken : ∀ a ∈ e.atoms, Unbroken (c.unitName a.scale a.unit) := by
    intro a ha ch hch
    obtain ⟨htimes, hover, hcaret, hopen, hclose, -⟩ := hnames a ha ch hch
    exact ⟨htimes, hover, hcaret, hopen, hclose⟩
  have hdivision := he.usesDivision_iff
  refine ⟨fun hpositive hwhole => ?_, fun hnot => ?_, fun hne => ?_⟩
  · have hdivision := hdivision.mpr ⟨hpositive, hwhole⟩
    refine ⟨he.separators_of_usesDivision hunbroken hdivision, fun ch hch => ?_⟩
    rcases mem_text_of_usesDivision hunbroken hdivision hch with
      rfl | rfl | rfl | hdigit | ⟨a, ha, hname⟩
    · decide
    · decide
    · decide
    · refine ⟨?_, ?_, ?_⟩ <;> rintro rfl <;> cases hdigit
    · obtain ⟨-, -, -, hopen, hclose, hminus⟩ := hnames a ha ch hname
      exact ⟨hminus, hopen, hclose⟩
  · have hdivision : e.usesDivision = false := Bool.eq_false_iff.mpr (mt hdivision.mp hnot)
    refine ⟨he.separators_of_not_usesDivision hunbroken hdivision,
      he.count_minus_of_not_usesDivision hunbroken (fun a ha hminus => ?_) hdivision⟩
    exact (hnames a ha _ hminus).2.2.2.2.2 rfl
  · rw [← he.ordered_eq]
    exact isFactorOf_splitText hunbroken (mt ordered_eq_nil_iff.mp hne)

/-- The least exponent there is behind a `/`, and with its sign where a seventh is beside it.
Names come from a namespace that a resolver has met before and from the built-in one. -/
theorem separators_and_suffixes_least_exponent :
    let furlong : BaseUnit := ⟨"Furlong", "furlong"⟩
    let farm : Namespace := ⟨⟨1⟩, "farm", [("fur", .unit (.ofUnit furlong))]⟩
    let c : Context := ⟨[farm, Builtin.scope]⟩
    let kilometer : Atom := ⟨.kilo, Builtin.meter, .one⟩
    let least : Atom := ⟨.none, Builtin.second, .ofInt (-2 ^ 31)⟩
    let seventh : Atom := ⟨.none, furlong, ⟨-1 / 7, by decide +kernel, by decide +kernel⟩⟩
    let steps : List Step :=
      [.create "farm" "farm" [("fur", .unit (.ofUnit furlong))],
        .compose "all" ["farm", "builtin"]]
    let more : List Step := [.write (.inContext (.named "all")) (.units ⟨[seventh]⟩)]
    let r := (Session.initial.run (steps ++ more)).ambient.resolver
    let quotient := ((UnitExpr.write c ⟨[least, kilometer, .ofUnit furlong]⟩).run r).1
    let product := ((UnitExpr.write c ⟨[least, seventh, kilometer]⟩).run r).1
    (Session.initial.run steps).context? (.named "all") = .ok c ∧ r.indexedCount = 1 ∧
      (separators quotient = ['*', '/'] ∧ ∀ ch ∈ quotient.toList, ch ∉ ['-', '(', ')']) ∧
      (separators product = ['*', '*'] ∧ product.toList.count '-' = 2) ∧
      List.Forall₂ (fun a part => IsFactorOf (a.nameIn c r) a.exponent part)
        [kilometer, least, seventh] (splitText product) := by
  intro furlong farm c kilometer least seventh steps more r quotient product
  have hc : (Session.initial.run steps).context? (.named "all") = .ok c := by decide +kernel
  have hr : (Session.initial.run (steps ++ more)).HasResolver r := Or.inr rfl
  have hquotient : Normal ⟨[least, kilometer, .ofUnit furlong]⟩ := by decide +kernel
  have hproduct : Normal ⟨[least, seventh, kilometer]⟩ := by decide +kernel
  have hcounts : positives ⟨[least, kilometer, .ofUnit furlong]⟩ = 2 ∧
      negatives ⟨[least, kilometer, .ofUnit furlong]⟩ = 1 := by decide +kernel
  have hcounts' : positives ⟨[least, seventh, kilometer]⟩ = 1 ∧
      negatives ⟨[least, seventh, kilometer]⟩ = 2 := by decide +kernel
  have hordered : positiveFirst ⟨[least, seventh, kilometer]⟩ = [kilometer, least, seventh] := by
    decide +kernel
  have hnames {e : UnitExpr} (h : e.atoms.all fun a => (a.nameIn c r).toList.all
      (· ∉ ['*', '/', '^', '(', ')', '-'])) :
      ∀ a ∈ e.atoms, ∀ ch ∈ (a.nameIn c r).toList, ch ∉ ['*', '/', '^', '(', ')', '-'] := by
    simpa only [List.all_eq_true, decide_eq_true_iff] using h
  obtain ⟨hwhole, -, -⟩ := separators_and_suffixes hc hr hquotient (hnames (by decide +kernel))
  obtain ⟨-, hsigned, hfactors⟩ :=
    separators_and_suffixes hc hr hproduct (hnames (by decide +kernel))
  rw [hcounts.1, hcounts.2] at hwhole
  rw [hcounts'.1, hcounts'.2] at hsigned
  rw [hordered] at hfactors
  exact ⟨hc, by decide +kernel, hwhole (by decide) (by decide +kernel),
    hsigned (by decide +kernel), hfactors (by decide +kernel)⟩

end UnitExpr

end UnitText
