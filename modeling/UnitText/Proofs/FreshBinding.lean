import UnitText.Proofs.EntryPoints
import UnitText.Proofs.FoundNames
import UnitText.Proofs.Providers

/-!
What a new identifier can change.

A namespace lists a new identifier behind all others, so it is the last one to be taken for
what it is bound to (`Namespace.identifiersOf_bind_of_new`).  Alone, the namespace names a
unit as before unless it has had no name for it, or the new identifier is the abbreviation
(`unitName?_bind_of_new`); and in a context the namespaces around it are searched as before
(`SearchesFor.replace_cases`).  Main statement:
`Context.new_identifier_disturbs_nothing_else`.
-/

namespace UnitText

namespace Namespace

variable {ns : Namespace} {identifier : String}

/-- A new identifier comes behind all others that are bound to the same. -/
theorem identifiersOf_bind_of_new (hnew : ns.get? identifier = none) (binding target : Binding) :
    (ns.bind identifier binding).identifiersOf target =
      ns.identifiersOf target ++ if binding = target then [identifier] else [] := by
  have hbindings : (ns.bind identifier binding).bindings =
      ns.bindings ++ [(identifier, binding)] :=
    Keyed.put_of_lookup_eq_none hnew binding
  rw [identifiersOf, hbindings, List.filter_append, List.map_append, ← identifiersOf]
  split <;> simp_all

end Namespace

section Alone

variable {ns : Namespace} {identifier : String}

/-- Alone, a namespace names a unit as before, unless the new identifier stands for it and is
its abbreviation or the only one. -/
theorem unitName?_bind_of_new (hnew : ns.get? identifier = none) (binding : Binding)
    (unit : BaseUnit) :
    unitName? unit [ns.bind identifier binding] = unitName? unit [ns] ∨
      (binding = .bare unit ∧
        ((∀ other, ns.get? other ≠ some (.bare unit)) ∨ identifier = unit.abbreviation)) ∧
      unitName? unit [ns.bind identifier binding] = some identifier := by
  rw [unitName?_singleton, unitName?_singleton, Namespace.identifiersOf_bind_of_new hnew,
    Namespace.get?_bind]
  by_cases hb : binding = .bare unit
  · subst hb
    by_cases habbr : unit.abbreviation = identifier
    · right
      simp [habbr]
    · cases hids : ns.identifiersOf (.bare unit) with
      | nil =>
          right
          have hnone := Namespace.get?_ne_of_identifiersOf_eq_nil hids
          exact ⟨⟨rfl, Or.inl hnone⟩, by simp [habbr, hnone]⟩
      | cons first others =>
          left
          simp [habbr]
  · left
    by_cases habbr : unit.abbreviation = identifier
    · simp [habbr, hb, hnew]
    · simp [habbr, hb]

theorem logUnitName?_bind_of_new (hnew : ns.get? identifier = none) (binding : Binding)
    (unit : LogUnit) :
    logUnitName? unit [ns.bind identifier binding] = logUnitName? unit [ns] ∨
      (binding = .log unit ∧ ∀ other, ns.get? other ≠ some (.log unit)) ∧
      logUnitName? unit [ns.bind identifier binding] = some identifier := by
  rw [logUnitName?_singleton, logUnitName?_singleton, Namespace.identifiersOf_bind_of_new hnew]
  by_cases hb : binding = .log unit
  · cases hids : ns.identifiersOf (.log unit) with
    | nil =>
        right
        have hnone := Namespace.get?_ne_of_identifiersOf_eq_nil hids
        exact ⟨⟨hb, hnone⟩, by simp [hb]⟩
    | cons first others =>
        left
        simp
  · left
    simp [hb]

end Alone

/-- In a context, what a search finds changes with a namespace only as it does in the
namespace alone. -/
theorem SearchesFor.replace_cases {target : Binding} {name? : List Namespace → Option String}
    (h : SearchesFor target name?) {ns ns' : Namespace} {changes : Prop} {identifier : String}
    (halone : name? [ns'] = name? [ns] ∨ changes ∧ name? [ns'] = some identifier)
    (before after : List Namespace) :
    name? (before ++ ns' :: after) = name? (before ++ ns :: after) ∨
      changes ∧ name? (before ++ ns' :: after) = some identifier := by
  have hsplit : ∀ scope, name? (before ++ scope :: after) =
      (name? before).or ((name? [scope]).or (name? after)) := by
    intro scope
    rw [h.append, ← List.singleton_append, h.append]
  rw [hsplit, hsplit]
  rcases halone with heq | ⟨hchanges, hname⟩
  · left
    rw [heq]
  · cases hbefore : name? before with
    | none =>
        right
        simp [hchanges, hname]
    | some found =>
        left
        simp

namespace Context

open Resolver

variable {ns : Namespace} {identifier : String}

theorem scanUnit_bind_of_new (hnew : ns.get? identifier = none) (binding : Binding)
    (before after : List Namespace) (unit : BaseUnit) :
    scanUnit ⟨before ++ ns.bind identifier binding :: after⟩ unit =
        scanUnit ⟨before ++ ns :: after⟩ unit ∨
      (binding = .bare unit ∧
        ((∀ other, ns.get? other ≠ some (.bare unit)) ∨ identifier = unit.abbreviation)) ∧
      scanUnit ⟨before ++ ns.bind identifier binding :: after⟩ unit = ⟨identifier, true⟩ := by
  rcases (searchesFor_unitName? unit).replace_cases (unitName?_bind_of_new hnew binding unit)
    before after with heq | ⟨hchanges, hname⟩
  · left
    rw [scanUnit, scanUnit, heq]
  · right
    exact ⟨hchanges, Resolution.ofName?_verified_iff.mpr hname⟩

theorem scanLogUnit_bind_of_new (hnew : ns.get? identifier = none) (binding : Binding)
    (before after : List Namespace) (unit : LogUnit) :
    scanLogUnit ⟨before ++ ns.bind identifier binding :: after⟩ unit =
        scanLogUnit ⟨before ++ ns :: after⟩ unit ∨
      (binding = .log unit ∧ ∀ other, ns.get? other ≠ some (.log unit)) ∧
      scanLogUnit ⟨before ++ ns.bind identifier binding :: after⟩ unit = ⟨identifier, true⟩ := by
  rcases (searchesFor_logUnitName? unit).replace_cases
    (logUnitName?_bind_of_new hnew binding unit) before after with heq | ⟨hchanges, hname⟩
  · left
    rw [scanLogUnit, scanLogUnit, heq]
  · right
    exact ⟨hchanges, Resolution.ofName?_verified_iff.mpr hname⟩

/-- A fresh resolver finds what a scan finds. -/
theorem resolve_fresh {c : Context} (hc : c.Distinct) :
    (∀ unit, ((resolveUnit c unit).run .fresh).1 = c.scanUnit unit) ∧
      ∀ unit, ((resolveLogUnit c unit).run .fresh).1 = c.scanLogUnit unit :=
  ⟨fun unit => (resolveUnit_gives (within_world hc) unit _ (faithful_fresh _)).1,
    fun unit => (resolveLogUnit_gives (within_world hc) unit _ (faithful_fresh _)).1⟩

/-- A namespace with a new identifier, in a context: the answer for a unit stays as it was
unless the identifier is bound to the unit alone and is its abbreviation or the only one of
the namespace; then the answer may become the new identifier.  The answer for a logarithmic
unit stays as it was unless the identifier is bound to it and is the only one of the
namespace.  So no text changes if the identifier is bound to neither. -/
theorem new_identifier_disturbs_nothing_else (hnew : ns.get? identifier = none)
    (binding : Binding) (before after : List Namespace)
    (hc : Distinct ⟨before ++ ns :: after⟩) :
    let c : Context := ⟨before ++ ns :: after⟩
    let c' : Context := ⟨before ++ ns.bind identifier binding :: after⟩
    (∀ unit, ((resolveUnit c' unit).run .fresh).1 = ((resolveUnit c unit).run .fresh).1 ∨
        (binding = .bare unit ∧
          ((∀ other, ns.get? other ≠ some (.bare unit)) ∨ identifier = unit.abbreviation)) ∧
        ((resolveUnit c' unit).run .fresh).1 = ⟨identifier, true⟩) ∧
      (∀ unit, ((resolveLogUnit c' unit).run .fresh).1 =
          ((resolveLogUnit c unit).run .fresh).1 ∨
        (binding = .log unit ∧ ∀ other, ns.get? other ≠ some (.log unit)) ∧
        ((resolveLogUnit c' unit).run .fresh).1 = ⟨identifier, true⟩) ∧
      (binding.bareUnit? = none → binding.logUnit? = none →
        ∀ (o : Options) (x : Item), x.freshText o c' = x.freshText o c) := by
  intro c c'
  have hc' : c'.Distinct := by
    have hids : c'.ids = c.ids := by simp [ids, c, c']
    rw [Distinct, hids]
    exact hc
  have hunits := scanUnit_bind_of_new hnew binding before after
  have hlogs := scanLogUnit_bind_of_new hnew binding before after
  obtain ⟨hunit, hlogUnit⟩ := resolve_fresh (c := c) hc
  obtain ⟨hunit', hlogUnit'⟩ := resolve_fresh hc'
  simp only [hunit, hlogUnit, hunit', hlogUnit']
  refine ⟨hunits, hlogs, fun hbare hlog o x => ?_⟩
  rw [Item.freshText_eq_text (within_world hc'), Item.freshText_eq_text (within_world hc)]
  apply Item.text_congr
  · intro unit _
    rcases hunits unit with heq | ⟨⟨rfl, -⟩, -⟩
    · exact heq
    · cases hbare
  · intro unit _
    rcases hlogs unit with heq | ⟨⟨rfl, -⟩, -⟩
    · exact heq
    · cases hlog

/-- Three identifiers that are new to a farm's namespace between two others.  One is a
prefixed unit and changes nothing.  One is the abbreviation of a unit that the farm has
spelled out, and one names a logarithmic unit that only the namespace behind it has named. -/
theorem new_identifier_disturbs_nothing_else_between_namespaces :
    let furlong : BaseUnit := ⟨"Furlong", "fur"⟩
    let town : Namespace := ⟨⟨1⟩, "town", [("s", .bare Builtin.second), ("fur", .other)]⟩
    let farm : Namespace :=
      ⟨⟨2⟩, "farm", [("furlong", .bare furlong), ("sec", .bare Builtin.second)]⟩
    let mast : Namespace := ⟨⟨3⟩, "mast", [("neper", .log Builtin.neper)]⟩
    let c : Context := ⟨[town, farm, mast]⟩
    let x : Item := .quantity ⟨.log .gain (.int 3) Builtin.neper,
      ⟨[.ofUnit furlong, ⟨.none, Builtin.second, .minusOne⟩]⟩⟩
    let kilo : Binding := .unit (.ofUnit furlong .kilo)
    (∀ identifier ∈ ["fur", "Np", "kfur"], farm.get? identifier = none) ∧ c.Distinct ∧
      (∀ o, x.freshText o ⟨[town, farm.bind "kfur" kilo, mast]⟩ = x.freshText o c) ∧
      ((resolveUnit c furlong).run .fresh).1 = ⟨"furlong", true⟩ ∧
      ((resolveUnit ⟨[town, farm.bind "fur" (.bare furlong), mast]⟩ furlong).run .fresh).1 =
        ⟨"fur", true⟩ ∧
      ((resolveUnit ⟨[town, farm.bind "fur" (.bare furlong), mast]⟩ Builtin.second).run
        .fresh).1 = ((resolveUnit c Builtin.second).run .fresh).1 ∧
      ((resolveLogUnit ⟨[town, farm.bind "Np" (.log Builtin.neper), mast]⟩ Builtin.neper).run
        .fresh).1 = ⟨"Np", true⟩ := by
  intro furlong town farm mast c x kilo
  have hnew : ∀ identifier ∈ ["fur", "Np", "kfur"], farm.get? identifier = none := by decide
  have hc : c.Distinct := by
    change c.ids.Nodup
    decide
  have hkilo := new_identifier_disturbs_nothing_else (hnew "kfur" (by decide)) kilo
    [town] [mast] hc
  have hfur := new_identifier_disturbs_nothing_else (hnew "fur" (by decide)) (.bare furlong)
    [town] [mast] hc
  refine ⟨hnew, hc, fun o => hkilo.2.2 (by decide) (by decide) o x, by decide +kernel,
    by decide +kernel, ?_, by decide +kernel⟩
  rcases hfur.1 Builtin.second with heq | ⟨⟨hbinding, -⟩, -⟩
  · exact heq
  · exact absurd hbinding (by decide)

end Context

end UnitText
