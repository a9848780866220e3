import UnitText.Builtin
import UnitText.Proofs.Reading

/-!
Names that tell units apart.

A context `Tells` units and logarithmic units if none of their names can be
mistaken: not for another name, and not for any other part of a text.  Main
statements: the built-in context tells all built-in units (`Builtin.tells`), and
where units are told, the text of a unit expression says which atoms it is the
product of (`UnitExpr.ordered_eq_of_text_eq`).
-/

namespace UnitText

/-- A plain name that cannot be taken for a number, the bound of a range, a quoted
literal or the marker of the dimensionless unit. -/
def ClearName (name : String) : Prop :=
  PlainName name ∧ name ≠ noUnitsText ∧
    (∀ c ∈ name.toList.head?, c.isDigit = false ∧ c ≠ '-') ∧
    ∀ c ∈ name.toList, c ≠ ':' ∧ c ≠ '"' ∧ c ≠ ' '

-- The instances go through the signs of the name: left to itself, instance search may
-- find that there are only finitely many signs and go through all of these.
instance (name : String) : Decidable (PlainName name) :=
  @instDecidableAnd _ _ _ (List.decidableBAll _ _)

instance (name : String) : Decidable (ClearName name) :=
  @instDecidableAnd _ _ _ (@instDecidableAnd _ _ _
    (@instDecidableAnd _ _ (Option.decidableForallMem _) (List.decidableBAll _ _)))

theorem ClearName.append {s t : String} (hs : s = "" ∨ ClearName s) (ht : ClearName t)
    (hne : s ++ t ≠ noUnitsText) : ClearName (s ++ t) := by
  rcases hs with rfl | hs
  · rwa [String.empty_append]
  · have hhead : (s.toList ++ t.toList).head? = s.toList.head? :=
      List.head?_append_of_ne_nil _ (mt String.toList_eq_nil_iff.mp hs.1.1)
    refine ⟨⟨?_, ?_⟩, hne, ?_, ?_⟩
    · intro hempty
      exact hs.1.1 (String.append_eq_empty_iff.mp hempty).1
    · rw [String.toList_append, List.forall_mem_append]
      exact ⟨hs.1.2, ht.1.2⟩
    · rw [String.toList_append, hhead]
      exact hs.2.2.1
    · rw [String.toList_append, List.forall_mem_append]
      exact ⟨hs.2.2.2, ht.2.2.2⟩

/-- The names that a context has for the given units, with any prefixes, and for the
given logarithmic units are clear, and no two of them are the same. -/
structure Context.Tells (c : Context) (units : Set BaseUnit) (logUnits : Set LogUnit) :
    Prop where
  clear_unitName : ∀ u ∈ units, ∀ p, ClearName (c.unitName p u)
  clear_logIdentifier : ∀ u ∈ logUnits, ClearName (c.logIdentifier u)
  unitName_inj : ∀ u ∈ units, ∀ v ∈ units, ∀ p q,
    c.unitName p u = c.unitName q v → p = q ∧ u = v
  logIdentifier_inj : ∀ u ∈ logUnits, ∀ v ∈ logUnits,
    c.logIdentifier u = c.logIdentifier v → u = v
  unitName_ne_logIdentifier : ∀ u ∈ units, ∀ v ∈ logUnits, ∀ p,
    c.unitName p u ≠ c.logIdentifier v

/-- A product of powers of the given units. -/
def UnitExpr.Over (units : Set BaseUnit) (e : UnitExpr) : Prop :=
  ∀ a ∈ e.atoms, a.unit ∈ units

/-- A function that tells the members of two lists apart tells the lists apart. -/
theorem eq_of_map_eq {α β : Type} {f : α → β} {P : α → Prop}
    (hinj : ∀ a b, P a → P b → f a = f b → a = b) {as bs : List α}
    (has : ∀ a ∈ as, P a) (hbs : ∀ b ∈ bs, P b) (h : as.map f = bs.map f) : as = bs := by
  induction as generalizing bs with
  | nil => exact (List.map_eq_nil_iff.mp h.symm).symm
  | cons a as ih =>
      obtain ⟨b, bs, rfl, hhead, htail⟩ := List.map_eq_cons_iff.mp h.symm
      rw [List.forall_mem_cons] at has hbs
      have hab : a = b := hinj a b has.1 hbs.1 hhead.symm
      rw [hab, ih has.2 hbs.2 htail.symm]

/-- Equal unit texts are texts of the same atoms in the same order. -/
theorem UnitExpr.ordered_eq_of_text_eq {c : Context} {units : Set BaseUnit}
    {logUnits : Set LogUnit} (htells : c.Tells units logUnits) {e e' : UnitExpr}
    (he : e.Over units) (he' : e'.Over units) (htext : e.text c = e'.text c) :
    e.ordered = e'.ordered := by
  have hreads := e.readUnits_text fun a ha => (htells.clear_unitName _ (he a ha) _).1
  have hreads' := e'.readUnits_text fun a ha => (htells.clear_unitName _ (he' a ha) _).1
  rw [htext, hreads'] at hreads
  have hatom : ∀ a b : Atom, a.unit ∈ units → b.unit ∈ units →
      (c.unitName a.scale a.unit, a.exponent.toRat) =
        (c.unitName b.scale b.unit, b.exponent.toRat) → a = b := by
    rintro ⟨p, u, k⟩ ⟨q, v, l⟩ hu hv h
    obtain ⟨hname, hexponent⟩ := Prod.ext_iff.mp h
    obtain ⟨rfl, rfl⟩ := htells.unitName_inj u hu v hv p q hname
    have hkl : k = l := Ratio.ext_toRat hexponent
    rw [hkl]
  exact eq_of_map_eq hatom (fun a ha => he a (mem_ordered.mp ha))
    (fun a ha => he' a (mem_ordered.mp ha)) (Option.some.inj hreads).symm

/-- A plain name that no unit has is not the text of an expression. -/
theorem UnitExpr.text_ne_plain {c : Context} {units : Set BaseUnit} {logUnits : Set LogUnit}
    (htells : c.Tells units logUnits) {e : UnitExpr} (he : e.Over units) {name : String}
    (hname : PlainName name) (hother : ∀ u ∈ units, ∀ p, c.unitName p u ≠ name) :
    e.text c ≠ name := by
  intro htext
  have hreads := e.readUnits_text fun a ha => (htells.clear_unitName _ (he a ha) _).1
  rw [htext, readUnits_plain hname, Option.some.injEq] at hreads
  obtain ⟨a, rest, hordered, ha, -⟩ := List.map_eq_cons_iff.mp hreads.symm
  have hmem : a ∈ e.atoms := mem_ordered.mp (by rw [hordered]; exact List.mem_cons_self)
  exact hother _ (he a hmem) _ (Prod.ext_iff.mp ha).1

/-- Nothing else of an expression is seen in its text than its atoms in order. -/
theorem UnitExpr.text_eq_of_ordered_eq (c : Context) {e e' : UnitExpr}
    (hordered : e.ordered = e'.ordered) : e.text c = e'.text c := by
  have hmem : ∀ a, a ∈ e.atoms ↔ a ∈ e'.atoms := by
    intro a
    rw [← mem_ordered, hordered, mem_ordered]
  have hdivision : e.usesDivision = e'.usesDivision := by
    rw [Bool.eq_iff_iff]
    simp only [usesDivision, Bool.and_eq_true, List.any_eq_true, List.all_eq_true, hmem]
  rw [text, text, factors, factors, hordered, hdivision]

namespace Builtin

/-- The context of the built-in namespace alone. -/
def context : Context :=
  .ofScopes [scope]

/-- The identifier of a built-in unit. -/
def identifier (u : BaseUnit) : String :=
  if u = percent then "percent" else u.abbreviation

theorem unitIdentifier_eq : ∀ u ∈ units, context.unitIdentifier u = identifier u := by
  decide +kernel

theorem logIdentifier_eq : ∀ u ∈ logUnits, context.logIdentifier u = u.abbreviation := by
  decide +kernel

theorem eq_of_identifier_suffix : ∀ u ∈ units, ∀ v ∈ units,
    (identifier u).toList <:+ (identifier v).toList → u = v := by
  decide +kernel

/-- No identifier ends in another one, so a name shows where its prefix ends. -/
theorem eq_of_unitName_eq {u v : BaseUnit} (hu : u ∈ units) (hv : v ∈ units) {p q : Prefix}
    (h : p.symbol ++ identifier u = q.symbol ++ identifier v) : p = q ∧ u = v := by
  have hlist := congrArg String.toList h
  rw [String.toList_append, String.toList_append] at hlist
  have hsuffix := List.suffix_append q.symbol.toList (identifier v).toList
  rw [← hlist] at hsuffix
  have huv : u = v := by
    rcases List.suffix_or_suffix_of_suffix (List.suffix_append _ _) hsuffix with hle | hle
    · exact eq_of_identifier_suffix u hu v hv hle
    · exact (eq_of_identifier_suffix v hv u hu hle).symm
  subst huv
  exact ⟨Prefix.symbol_injective (String.toList_inj.mp (List.append_cancel_right hlist)), rfl⟩

theorem clear_symbol : ∀ p ∈ Prefix.all, p.symbol = "" ∨ ClearName p.symbol := by
  decide +kernel

theorem clear_identifier : ∀ u ∈ units, ClearName (identifier u) := by
  decide +kernel

theorem name_ne_noUnitsText : ∀ p ∈ Prefix.all, ∀ u ∈ units,
    p.symbol ++ identifier u ≠ noUnitsText := by
  decide +kernel

theorem clear_abbreviation : ∀ u ∈ logUnits, ClearName u.abbreviation := by
  decide +kernel

theorem abbreviation_injective : ∀ u ∈ logUnits, ∀ v ∈ logUnits,
    u.abbreviation = v.abbreviation → u = v := by
  decide +kernel

theorem name_ne_abbreviation : ∀ p ∈ Prefix.all, ∀ u ∈ units, ∀ v ∈ logUnits,
    p.symbol ++ identifier u ≠ v.abbreviation := by
  decide +kernel

/-- The built-in context tells all built-in units and logarithmic units. -/
theorem tells : context.Tells { u | u ∈ units } { u | u ∈ logUnits } where
  clear_unitName u hu p := by
    rw [Context.unitName, unitIdentifier_eq u hu]
    exact .append (clear_symbol p p.mem_all) (clear_identifier u hu)
      (name_ne_noUnitsText p p.mem_all u hu)
  clear_logIdentifier u hu := by
    rw [logIdentifier_eq u hu]
    exact clear_abbreviation u hu
  unitName_inj u hu v hv p q h := by
    rw [Context.unitName, Context.unitName, unitIdentifier_eq u hu, unitIdentifier_eq v hv] at h
    exact eq_of_unitName_eq hu hv h
  logIdentifier_inj u hu v hv h := by
    rw [logIdentifier_eq u hu, logIdentifier_eq v hv] at h
    exact abbreviation_injective u hu v hv h
  unitName_ne_logIdentifier u hu v hv p := by
    rw [Context.unitName, unitIdentifier_eq u hu, logIdentifier_eq v hv]
    exact name_ne_abbreviation p p.mem_all u hu v hv

end Builtin

end UnitText
