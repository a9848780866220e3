import UnitText.Proofs.Journal
import UnitText.Proofs.SessionWorld

/-!
Which namespaces a text depends on.

A unit is named by the first namespace of a context that binds an identifier to it, its
provider (`Context.provider?`), and no other namespace has a say in it
(`SearchesFor.eq_provider`).  So the text of an item depends on the providers of its units
and logarithmic units alone (`Item.text_congr`).  Main statement: further namespaces leave
a text as it is if all its names are verified, and so does the removal of a namespace that
provides none of them (`Item.written_from_providers`).
-/

namespace UnitText

/-- The first namespace of a context that binds an identifier to the target. -/
def Context.provider? (c : Context) (target : Binding) : Option Namespace :=
  c.scopes.find? fun scope => scope.names target

theorem Context.names_of_provider? {c : Context} {target : Binding} {scope : Namespace}
    (h : c.provider? target = some scope) : scope.names target := by
  simpa using List.find?_some h

namespace SearchesFor

variable {target : Binding} {name? : List Namespace → Option String}

/-- The search finds in a context what it finds in the provider alone. -/
theorem eq_provider (h : SearchesFor target name?) (c : Context) :
    name? c.scopes = name? (c.provider? target).toList := by
  obtain ⟨scopes⟩ := c
  simp only [Context.provider?]
  induction scopes with
  | nil => rfl
  | cons scope rest ih =>
      by_cases hscope : scope.names target
      · obtain ⟨identifier, -, hname⟩ := h.take scope hscope
        rw [List.find?_cons, hscope, hname]
        exact (hname []).symm
      · rw [h.skip scope rest hscope, ih, List.find?_cons, Bool.eq_false_of_not_eq_true hscope]

/-- A name is found just if there is a provider. -/
theorem isSome_iff (h : SearchesFor target name?) (c : Context) :
    (name? c.scopes).isSome ↔ (c.provider? target).isSome := by
  rw [h.eq_provider]
  cases hprovider : c.provider? target with
  | none => rw [Option.toList_none, h.nil, Option.isSome_none, Option.isSome_none]
  | some scope =>
      obtain ⟨identifier, -, hname⟩ := h.take scope (Context.names_of_provider? hprovider)
      rw [Option.toList_some, hname]
      exact iff_of_true rfl rfl

/-- The namespaces in front are searched first. -/
theorem append (h : SearchesFor target name?) (before after : List Namespace) :
    name? (before ++ after) = (name? before).or (name? after) := by
  induction before with
  | nil => simp [h.nil]
  | cons scope rest ih =>
      by_cases hscope : scope.names target
      · obtain ⟨identifier, -, hname⟩ := h.take scope hscope
        simp [hname]
      · rw [List.cons_append, h.skip _ _ hscope, h.skip _ _ hscope, ih]

theorem congr (h : SearchesFor target name?) {c c' : Context}
    (hprovider : c'.provider? target = c.provider? target) :
    name? c'.scopes = name? c.scopes := by
  rw [h.eq_provider c', h.eq_provider c, hprovider]

end SearchesFor

namespace Context

variable {c c' : Context}

theorem scanUnit_congr {unit : BaseUnit}
    (h : c'.provider? (.bare unit) = c.provider? (.bare unit)) :
    c'.scanUnit unit = c.scanUnit unit := by
  rw [scanUnit, scanUnit, (searchesFor_unitName? unit).congr h]

theorem scanLogUnit_congr {unit : LogUnit}
    (h : c'.provider? (.log unit) = c.provider? (.log unit)) :
    c'.scanLogUnit unit = c.scanLogUnit unit := by
  rw [scanLogUnit, scanLogUnit, (searchesFor_logUnitName? unit).congr h]

end Context

theorem Resolution.verified_ofName? (abbreviation : String) (name? : Option String) :
    (ofName? abbreviation name?).verified = name?.isSome := by
  cases name? <;> rfl

namespace Context

variable {c : Context}

theorem verified_scanUnit_iff {unit : BaseUnit} :
    (c.scanUnit unit).verified ↔ (c.provider? (.bare unit)).isSome := by
  rw [scanUnit, Resolution.verified_ofName?]
  exact (searchesFor_unitName? unit).isSome_iff c

theorem verified_scanLogUnit_iff {unit : LogUnit} :
    (c.scanLogUnit unit).verified ↔ (c.provider? (.log unit)).isSome := by
  rw [scanLogUnit, Resolution.verified_ofName?]
  exact (searchesFor_logUnitName? unit).isSome_iff c

end Context

/-- The units of an expression. -/
def UnitExpr.baseUnits (e : UnitExpr) : List BaseUnit :=
  e.atoms.map Atom.unit

/-- The logarithmic units in which a value is expressed, from the outside in. -/
def Value.logUnits : Value → List LogUnit
  | .log _ value unit => unit :: value.logUnits
  | _ => []

namespace Item

def baseUnits : Item → List BaseUnit
  | .quantity q => q.unit.baseUnits
  | .log _ => []
  | .range r => r.unit.baseUnits
  | .units e => e.baseUnits
  | .noUnits => []

def logUnits : Item → List LogUnit
  | .quantity q => q.value.logUnits
  | .log q => q.toValue.logUnits
  | .range r => r.start.logUnits ++ r.step.logUnits ++ r.stop.logUnits
  | .units _ => []
  | .noUnits => []

/-- What the identifiers in the text of an item stand for. -/
def targets (x : Item) : List Binding :=
  x.baseUnits.map .bare ++ x.logUnits.map .log

end Item

section Congruence

variable {c c' : Context}

theorem UnitExpr.text_congr {e : UnitExpr}
    (h : ∀ unit ∈ e.baseUnits, c'.scanUnit unit = c.scanUnit unit) : e.text c' = e.text c := by
  rw [text, text]
  congr 1
  refine List.map_congr_left fun f hf => ?_
  have hmem : f.unit ∈ e.baseUnits := by
    have hfactor : f.unit ∈ e.factors.map Factor.unit := List.mem_map_of_mem hf
    rw [map_unit_factors] at hfactor
    obtain ⟨a, ha, hunit⟩ := List.mem_map.mp hfactor
    exact hunit ▸ List.mem_map_of_mem (mem_ordered.mp ha)
  rw [Context.unitIdentifier, Context.unitIdentifier, h f.unit hmem]

theorem Value.text_congr (o : Options) {v : Value}
    (h : ∀ unit ∈ v.logUnits, c'.scanLogUnit unit = c.scanLogUnit unit) :
    v.text o c' = v.text o c := by
  induction v with
  | int | float | ratio | complex | complexInt | custom => rfl
  | log kind value unit ih =>
      rw [logUnits, List.forall_mem_cons] at h
      rw [text, text, Context.logIdentifier, Context.logIdentifier, h.1, ih h.2]

/-- Items are written alike in contexts that name all of their units alike. -/
theorem Item.text_congr (o : Options) {x : Item}
    (hunits : ∀ unit ∈ x.baseUnits, c'.scanUnit unit = c.scanUnit unit)
    (hlogs : ∀ unit ∈ x.logUnits, c'.scanLogUnit unit = c.scanLogUnit unit) :
    x.text o c' = x.text o c := by
  cases x with
  | quantity q =>
      simp only [text, Quantity.text]
      rw [Value.text_congr o hlogs, UnitExpr.text_congr hunits]
  | log q =>
      simp only [text]
      rw [Value.text_congr o hlogs]
  | range r =>
      simp only [logUnits, List.forall_mem_append] at hlogs
      obtain ⟨⟨hstart, hstep⟩, hstop⟩ := hlogs
      simp only [text, QuantityRange.text, QuantityRange.boundsText]
      rw [Value.text_congr o hstart, Value.text_congr o hstep, Value.text_congr o hstop,
        UnitExpr.text_congr hunits]
  | units e =>
      simp only [text, UnitExpr.textAlone]
      rw [UnitExpr.text_congr hunits]
  | noUnits => rfl

end Congruence

namespace Context

variable {c : Context} {target : Binding}

/-- What is added stands behind what was there. -/
theorem exists_scopes_addAll (c : Context) (scopes : List Namespace) :
    ∃ more, (c.addAll scopes).scopes = c.scopes ++ more ∧ ∀ ns ∈ more, ns ∈ scopes := by
  induction scopes generalizing c with
  | nil => exact ⟨[], (List.append_nil _).symm, List.forall_mem_nil _⟩
  | cons ns rest ih =>
      obtain ⟨more, hscopes, hmore⟩ := ih (c.add ns)
      change ∃ more, ((c.add ns).addAll rest).scopes = c.scopes ++ more ∧ _
      by_cases h : c.contains ns
      · rw [add_of_contains h] at hscopes ⊢
        exact ⟨more, hscopes, fun other hother => List.mem_cons_of_mem _ (hmore other hother)⟩
      · rw [scopes_add h, List.append_assoc] at hscopes
        refine ⟨[ns] ++ more, hscopes, List.forall_mem_cons.mpr ⟨List.mem_cons_self, ?_⟩⟩
        exact fun other hother => List.mem_cons_of_mem _ (hmore other hother)

theorem provider?_addAll (h : (c.provider? target).isSome) (scopes : List Namespace) :
    (c.addAll scopes).provider? target = c.provider? target := by
  obtain ⟨more, hscopes, -⟩ := c.exists_scopes_addAll scopes
  rw [provider?, hscopes, List.find?_append]
  exact Option.or_of_isSome h

/-- Leaving out namespaces does not change the provider as long as it stays itself. -/
theorem find?_names_filter (kept : Namespace → Bool) {scopes : List Namespace}
    (h : ∀ scope, (scopes.find? fun scope => scope.names target) = some scope → kept scope) :
    ((scopes.filter kept).find? fun scope => scope.names target) =
      scopes.find? fun scope => scope.names target := by
  induction scopes with
  | nil => rfl
  | cons scope rest ih =>
      rw [List.find?_cons] at h ⊢
      cases hscope : scope.names target with
      | true =>
          rw [hscope] at h
          rw [List.filter_cons, if_pos (h scope rfl), List.find?_cons, hscope]
      | false =>
          rw [hscope] at h
          rw [List.filter_cons, ← ih h]
          split
          · rw [List.find?_cons, hscope]
          · rfl

theorem scopes_removeAll (c : Context) (scopes : List Namespace) :
    (c.removeAll scopes).scopes =
      c.scopes.filter fun scope => scope.id ∉ scopes.map Namespace.id := by
  induction scopes generalizing c with
  | nil => simp [removeAll]
  | cons ns rest ih =>
      change ((c.remove ns).removeAll rest).scopes = _
      rw [ih, remove, List.filter_filter]
      refine List.filter_congr fun scope _ => ?_
      rw [Bool.eq_iff_iff, Bool.and_eq_true, bne_iff_ne, decide_eq_true_iff, decide_eq_true_iff,
        List.map_cons, List.mem_cons, not_or, and_comm]

theorem provider?_removeAll {scopes : List Namespace}
    (h : ∀ ns ∈ scopes, (c.provider? target).map Namespace.id ≠ some ns.id) :
    (c.removeAll scopes).provider? target = c.provider? target := by
  rw [provider?, scopes_removeAll]
  refine find?_names_filter _ fun scope hscope => ?_
  rw [decide_eq_true_iff]
  intro hmem
  obtain ⟨ns, hns, hid⟩ := List.mem_map.mp hmem
  refine h ns hns ?_
  rw [provider?, hscope, hid]
  rfl

/-- Namespaces that a context does not hold can be added and removed again. -/
theorem removeAll_addAll {scopes : List Namespace} (h : ∀ ns ∈ scopes, ¬c.contains ns) :
    (c.addAll scopes).removeAll scopes = c := by
  obtain ⟨more, hscopes, hmore⟩ := c.exists_scopes_addAll scopes
  have hold : ∀ scope ∈ c.scopes, scope.id ∉ scopes.map Namespace.id := by
    intro scope hscope hmem
    obtain ⟨ns, hns, hid⟩ := List.mem_map.mp hmem
    exact h ns hns (contains_iff.mpr ⟨scope, hscope, hid.symm⟩)
  have hnew : ∀ scope ∈ more, ¬scope.id ∉ scopes.map Namespace.id :=
    fun scope hscope hnone => hnone (List.mem_map_of_mem (hmore scope hscope))
  have hfilter : ((c.addAll scopes).removeAll scopes).scopes = c.scopes := by
    rw [scopes_removeAll, hscopes, List.filter_append, List.filter_eq_self.mpr,
      List.filter_eq_nil_iff.mpr, List.append_nil]
    · simpa using hnew
    · simpa using hold
  exact congrArg Context.mk hfilter

end Context

namespace Item

variable {world : World} {c c' : Context}

/-- The item has one text in both contexts, whatever the options are and whatever the
resolvers that write it have done before. -/
def SameText (world : World) (x : Item) (c c' : Context) : Prop :=
  ∀ (o : Options) (r r' : Resolver), r.Faithful world → r'.Faithful world →
    ((Writable.write o c' x).run r').1 = ((Writable.write o c x).run r).1

/-- All units and logarithmic units of the item are found verified. -/
structure VerifiedBy (x : Item) (c : Context) (r : Resolver) : Prop where
  baseUnit : ∀ unit ∈ x.baseUnits, ((Resolver.resolveUnit c unit).run r).1.verified
  logUnit : ∀ unit ∈ x.logUnits, ((Resolver.resolveLogUnit c unit).run r).1.verified

/-- A unit or a logarithmic unit of the item has the namespace for its provider. -/
def ReliesOn (x : Item) (c : Context) (ns : Namespace) : Prop :=
  ∃ target ∈ x.targets, (c.provider? target).map Namespace.id = some ns.id

instance (x : Item) (c : Context) (ns : Namespace) : Decidable (x.ReliesOn c ns) :=
  inferInstanceAs (Decidable (∃ target ∈ _, _))

/-- Contexts in which everything has the same provider give an item the same text. -/
theorem sameText_of_provider? (hc : c.Within world) (hc' : c'.Within world) {x : Item}
    (h : ∀ target ∈ x.targets, c'.provider? target = c.provider? target) :
    x.SameText world c c' := by
  intro o r r' hr hr'
  rw [(x.write_gives hc' o r' hr').1, (x.write_gives hc o r hr).1]
  rw [targets, List.forall_mem_append, List.forall_mem_map, List.forall_mem_map] at h
  exact text_congr o (fun unit hunit => Context.scanUnit_congr (h.1 unit hunit))
    fun unit hunit => Context.scanLogUnit_congr (h.2 unit hunit)

/-- What is verified has a provider. -/
theorem VerifiedBy.isSome_provider? {x : Item} {r : Resolver} (hc : c.Within world)
    (hr : r.Faithful world) (h : x.VerifiedBy c r) :
    ∀ target ∈ x.targets, (c.provider? target).isSome := by
  rw [targets, List.forall_mem_append, List.forall_mem_map, List.forall_mem_map]
  constructor
  · intro unit hunit
    have hverified := h.baseUnit unit hunit
    rw [(Resolver.resolveUnit_gives hc unit r hr).1] at hverified
    exact Context.verified_scanUnit_iff.mp hverified
  · intro unit hunit
    have hverified := h.logUnit unit hunit
    rw [(Resolver.resolveLogUnit_gives hc unit r hr).1] at hverified
    exact Context.verified_scanLogUnit_iff.mp hverified

/-- The text in the default context, for which the shared resolver is used. -/
theorem SameText.run_write {x : Item} {a : Ambient} (hr : a.resolver.Faithful world)
    (h : x.SameText world a.defaultContext c') :
    ((Ambient.write x).run { a with defaultContext := c' }).1 = ((Ambient.write x).run a).1 :=
  h a.options a.resolver a.resolver hr hr

/-- A text depends on nothing but the namespaces that provide its names.  If they are all
verified, further namespaces leave it as it is, be they added to a context of its own or
to the default one.  So does the removal of namespaces that provide none of them.  And
what has been added to a context that did not hold it can be removed without a trace. -/
theorem written_from_providers (hc : c.Within world) (x : Item) {r : Resolver}
    (hr : r.Faithful world) :
    (x.VerifiedBy c r → ∀ scopes : List Namespace, (∀ ns ∈ scopes, ns ∈ world.namespaces) →
        x.SameText world c (c.addAll scopes) ∧
          ∀ a : Ambient, a.defaultContext = c → a.resolver.Faithful world →
            ((Ambient.write x).run (a.addContext scopes).2).1 = ((Ambient.write x).run a).1) ∧
      (∀ scopes : List Namespace, (∀ ns ∈ scopes, ¬x.ReliesOn c ns) →
        x.SameText world c (c.removeAll scopes) ∧
          ∀ a : Ambient, a.defaultContext = c → a.resolver.Faithful world →
            ((Ambient.write x).run (a.removeContext scopes).2).1 =
              ((Ambient.write x).run a).1) ∧
      (∀ ns : Namespace, ¬c.contains ns → (c.add ns).remove ns = c) ∧
      ∀ scopes : List Namespace, (∀ ns ∈ scopes, ¬c.contains ns) →
        (c.addAll scopes).removeAll scopes = c := by
  refine ⟨?_, ?_, ?_, fun scopes hscopes => Context.removeAll_addAll hscopes⟩
  · intro hverified scopes hscopes
    have hsome := hverified.isSome_provider? hc hr
    have hsame : x.SameText world c (c.addAll scopes) :=
      sameText_of_provider? hc (hc.addAll hscopes) fun target htarget =>
        Context.provider?_addAll (hsome target htarget) scopes
    refine ⟨hsame, ?_⟩
    rintro a rfl hresolver
    exact hsame.run_write hresolver
  · intro scopes hscopes
    have hsame : x.SameText world c (c.removeAll scopes) :=
      sameText_of_provider? hc (hc.removeAll scopes) fun target htarget =>
        Context.provider?_removeAll fun ns hns hid => hscopes ns hns ⟨target, htarget, hid⟩
    refine ⟨hsame, ?_⟩
    rintro a rfl hresolver
    exact hsame.run_write hresolver
  · intro ns hns
    exact Context.removeAll_addAll (List.forall_mem_singleton.mpr hns)

/-- A quantity whose names come from the first and the last of three namespaces.  The
second one has names for all of its units but provides none of them, and a fourth one
binds the identifiers that are written to something else. -/
theorem written_from_providers_idle_namespace :
    let furlong : BaseUnit := ⟨"Furlong", "fur"⟩
    let farm : Namespace := ⟨⟨1⟩, "farm", [("furlong", .bare furlong), ("s", .bare Builtin.second),
      ("Np", .other)]⟩
    let town : Namespace := ⟨⟨2⟩, "town", [("fur", .bare furlong), ("sec", .bare Builtin.second)]⟩
    let mast : Namespace := ⟨⟨3⟩, "mast", [("neper", .log Builtin.neper)]⟩
    let city : Namespace := ⟨⟨4⟩, "city", [("neper", .other), ("furlong", .bare Builtin.second)]⟩
    let c : Context := ⟨[farm, town, mast]⟩
    let x : Item := .quantity ⟨.log .level (.ratio ⟨3 / 2, by decide +kernel, by decide +kernel⟩)
      Builtin.neper, ⟨[⟨.none, Builtin.second, .minusOne⟩, .ofUnit furlong]⟩⟩
    let used : Resolver := ((Resolver.resolveUnit ⟨[city, town]⟩ Builtin.meter).run .fresh).2
    used.indexedCount = 2 ∧ x.VerifiedBy c .fresh ∧ ¬x.ReliesOn c town ∧ x.ReliesOn c mast ∧
      ((Writable.write {} c x).run .fresh).1 = "((3//2)*(neper))*(furlong/s)" ∧
      ((Writable.write {} (c.addAll [city, farm]) x).run used).1 =
        ((Writable.write {} c x).run .fresh).1 ∧
      ((Writable.write {} (c.removeAll [town, city]) x).run used).1 =
        ((Writable.write {} c x).run .fresh).1 ∧
      (c.add city).remove city = c := by
  intro furlong farm town mast city c x used
  have hdistinct : Context.Distinct ⟨[farm, town, mast, city]⟩ := by
    change (Context.ids _).Nodup
    decide
  let world := Context.world _ hdistinct
  have hmem : ∀ ns ∈ [farm, town, mast, city], ns ∈ world.namespaces := fun _ hns => hns
  simp only [List.forall_mem_cons] at hmem
  obtain ⟨hfarm, htown, hmast, hcity, -⟩ := hmem
  have hc : c.Within world :=
    List.forall_mem_cons.mpr ⟨hfarm, List.forall_mem_cons.mpr
      ⟨htown, List.forall_mem_singleton.mpr hmast⟩⟩
  have hsearched : Context.Within ⟨[city, town]⟩ world :=
    List.forall_mem_cons.mpr ⟨hcity, List.forall_mem_singleton.mpr htown⟩
  have hfresh := Resolver.faithful_fresh world
  have hused : used.Faithful world :=
    (Resolver.resolveUnit_gives hsearched Builtin.meter _ hfresh).2
  have hverified : x.VerifiedBy c .fresh := by
    constructor <;> decide +kernel
  have hidle : ∀ ns ∈ [town, city], ¬x.ReliesOn c ns := by decide +kernel
  have hnew : ¬c.contains city := by decide +kernel
  obtain ⟨hadd, hremove, hback, -⟩ := written_from_providers hc x hfresh
  have hadded : ∀ ns ∈ [city, farm], ns ∈ world.namespaces :=
    List.forall_mem_cons.mpr ⟨hcity, List.forall_mem_singleton.mpr hfarm⟩
  refine ⟨by decide +kernel, hverified, hidle town List.mem_cons_self, by decide +kernel,
    by decide +kernel, ?_, ?_, hback city hnew⟩
  · exact (hadd hverified _ hadded).1 {} .fresh used hfresh hused
  · exact (hremove _ hidle).1 {} .fresh used hfresh hused

end Item

end UnitText
