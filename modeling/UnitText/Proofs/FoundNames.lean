import UnitText.Builtin
import UnitText.Proofs.Text

/-!
What a reader finds under the names that are written.

A reader takes an identifier for what the first namespace that binds it binds it to
(`Context.find?`).  A verified identifier is bound to its unit in the first namespace
that names the unit, but a namespace before that one may bind it to something else,
and then the reader does not find the unit.  Main statements: the reader finds the
unit under a verified identifier just if no earlier namespace binds it
(`Resolver.verified_found_iff`), and the names of prefixed units that a namespace
binds to something else are those that `Namespace.prefixClashes` lists
(`Resolver.notMem_prefixClashes_iff`).
-/

namespace UnitText

namespace Namespace

/-- No identifier is bound twice. -/
def SingleValued (ns : Namespace) : Prop :=
  (ns.bindings.map Prod.fst).Nodup

instance (ns : Namespace) : Decidable ns.SingleValued :=
  inferInstanceAs (Decidable (List.Nodup _))

theorem singleValued_empty (id : NamespaceId) (name : String) : (empty id name).SingleValued :=
  List.nodup_nil

/-- Rebinding an identifier keeps its place, so it is still bound once. -/
theorem SingleValued.bind {ns : Namespace} (hns : ns.SingleValued) (identifier : String)
    (binding : Binding) : (ns.bind identifier binding).SingleValued := by
  change ((Keyed.put identifier binding ns.bindings).map Prod.fst).Nodup
  rw [Keyed.keys_put]
  split
  · exact hns
  · next hnew =>
      refine List.nodup_append.mpr ⟨hns, List.nodup_singleton _, ?_⟩
      rintro other hother _ hkey rfl
      exact hnew (List.mem_singleton.mp hkey ▸ hother)

theorem SingleValued.bindAll {ns : Namespace} (hns : ns.SingleValued)
    (bindings : List (String × Binding)) : (ns.bindAll bindings).SingleValued := by
  induction bindings generalizing ns with
  | nil => exact hns
  | cons entry rest ih => exact ih (hns.bind entry.1 entry.2)

/-- However a namespace is bound, no identifier of it is bound twice. -/
theorem singleValued_made (id : NamespaceId) (name : String)
    (bindings : List (String × Binding)) : ((empty id name).bindAll bindings).SingleValued :=
  (singleValued_empty id name).bindAll bindings

/-- Where identifiers are bound once, what is listed is what is looked up. -/
theorem get?_eq_some_iff {ns : Namespace} (hns : ns.SingleValued) {identifier : String}
    {b : Binding} : ns.get? identifier = some b ↔ (identifier, b) ∈ ns.bindings := by
  constructor
  · intro hget
    obtain ⟨before, after, hbindings, -⟩ := List.lookup_eq_some_iff.mp hget
    simp [hbindings]
  · intro hmem
    obtain ⟨before, after, hbindings⟩ := List.append_of_mem hmem
    refine List.lookup_eq_some_iff.mpr ⟨before, after, hbindings, ?_⟩
    intro entry hentry
    have hnodup := hns
    rw [SingleValued, hbindings, List.map_append, List.nodup_append] at hnodup
    have hne : entry.1 ≠ identifier :=
      hnodup.2.2 _ (List.mem_map_of_mem hentry) _ List.mem_cons_self
    simpa using Ne.symm hne

theorem mem_identifiersOf_iff {ns : Namespace} (hns : ns.SingleValued) {identifier : String}
    {b : Binding} : identifier ∈ ns.identifiersOf b ↔ ns.get? identifier = some b := by
  rw [get?_eq_some_iff hns]
  simp [identifiersOf]

end Namespace

/-- What a reader takes an identifier for: the binding in the first namespace that
binds it. -/
def Context.find? (c : Context) (identifier : String) : Option Binding :=
  c.scopes.findSome? fun scope => scope.get? identifier

/-- The identifier is bound to the target in the first namespace that has a name for it;
those before that namespace have none. -/
def FirstNamed (target : Binding) (scopes : List Namespace) (identifier : String)
    (before : List Namespace) : Prop :=
  ∃ scope after, scopes = before ++ scope :: after ∧ scope.get? identifier = some target ∧
    ∀ earlier ∈ before, ∀ other, earlier.get? other ≠ some target

namespace FirstNamed

variable {target : Binding} {scopes before : List Namespace} {identifier : String}

theorem of_head {scope : Namespace} (hget : scope.get? identifier = some target) :
    FirstNamed target (scope :: scopes) identifier [] :=
  ⟨scope, scopes, rfl, hget, fun _ hnone => absurd hnone List.not_mem_nil⟩

theorem cons {scope : Namespace} (hscope : ¬scope.names target)
    (h : FirstNamed target scopes identifier before) :
    FirstNamed target (scope :: scopes) identifier (scope :: before) := by
  obtain ⟨found, after, rfl, hget, hbefore⟩ := h
  refine ⟨found, after, rfl, hget, ?_⟩
  rw [List.forall_mem_cons]
  exact ⟨fun other hother => hscope (Namespace.names_of_get? hother), hbefore⟩

/-- A reader finds the target under the identifier just if no earlier namespace binds
the identifier: what it is bound to there is something else. -/
theorem find?_iff {c : Context} (h : FirstNamed target c.scopes identifier before) :
    c.find? identifier = some target ↔ ∀ earlier ∈ before, earlier.get? identifier = none := by
  obtain ⟨scope, after, hscopes, hget, hbefore⟩ := h
  rw [Context.find?, hscopes, List.findSome?_append]
  cases hfound : before.findSome? fun earlier => earlier.get? identifier with
  | none =>
      have hall := List.findSome?_eq_none_iff.mp hfound
      rw [Option.none_or, List.findSome?_cons, hget]
      exact iff_of_true rfl hall
  | some b =>
      obtain ⟨earlier, hearlier, hb⟩ := List.exists_of_findSome?_eq_some hfound
      constructor
      · intro htarget
        cases htarget
        -- The earlier namespace would have a name for the target.
        exact absurd hb (hbefore earlier hearlier identifier)
      · intro hall
        rw [hall earlier hearlier] at hb
        cases hb

end FirstNamed

/-- What is found is bound to the target in the first namespace that has a name for it, if
no namespace binds an identifier twice. -/
theorem SearchesFor.firstNamed {target : Binding} {name? : List Namespace → Option String}
    (h : SearchesFor target name?) {scopes : List Namespace}
    (hscopes : ∀ scope ∈ scopes, scope.SingleValued) {identifier : String}
    (hname : name? scopes = some identifier) :
    ∃ before, FirstNamed target scopes identifier before := by
  induction scopes with
  | nil =>
      rw [h.nil] at hname
      cases hname
  | cons scope rest ih =>
      rw [List.forall_mem_cons] at hscopes
      by_cases hscope : scope.names target
      · obtain ⟨found, hmem, htake⟩ := h.take scope hscope
        rw [htake] at hname
        cases hname
        exact ⟨[], .of_head ((Namespace.mem_identifiersOf_iff hscopes.1).mp hmem)⟩
      · rw [h.skip scope rest hscope] at hname
        obtain ⟨before, hrest⟩ := ih hscopes.2 hname
        exact ⟨scope :: before, hrest.cons hscope⟩

theorem Resolution.ofName?_verified_iff {abbreviation identifier : String}
    {name? : Option String} :
    ofName? abbreviation name? = ⟨identifier, true⟩ ↔ name? = some identifier := by
  cases name? <;> simp [ofName?]

namespace Resolver

variable {world : World} {c : Context} {r : Resolver}

/-- A verified identifier is bound to its unit in the first namespace that names the
unit.  A reader of the context finds the unit under it just if no earlier namespace
binds the identifier. -/
theorem verified_found_iff (hc : c.Within world) (hr : r.Faithful world)
    (hscopes : ∀ scope ∈ c.scopes, scope.SingleValued) (identifier : String) :
    (∀ unit, ((resolveUnit c unit).run r).1 = ⟨identifier, true⟩ →
        ∃ before, FirstNamed (.bare unit) c.scopes identifier before ∧
          (c.find? identifier = some (.bare unit) ↔
            ∀ earlier ∈ before, earlier.get? identifier = none)) ∧
      ∀ unit, ((resolveLogUnit c unit).run r).1 = ⟨identifier, true⟩ →
        ∃ before, FirstNamed (.log unit) c.scopes identifier before ∧
          (c.find? identifier = some (.log unit) ↔
            ∀ earlier ∈ before, earlier.get? identifier = none) := by
  constructor
  · intro unit h
    rw [(resolveUnit_gives hc unit r hr).1, Context.scanUnit,
      Resolution.ofName?_verified_iff] at h
    obtain ⟨before, hnamed⟩ := (searchesFor_unitName? unit).firstNamed hscopes h
    exact ⟨before, hnamed, hnamed.find?_iff⟩
  · intro unit h
    rw [(resolveLogUnit_gives hc unit r hr).1, Context.scanLogUnit,
      Resolution.ofName?_verified_iff] at h
    obtain ⟨before, hnamed⟩ := (searchesFor_logUnitName? unit).firstNamed hscopes h
    exact ⟨before, hnamed, hnamed.find?_iff⟩

/-- Two gallons under one abbreviation: the second of them is named in a namespace
behind one that binds the abbreviation. -/
theorem verified_found_iff_two_gallons :
    let imperial : BaseUnit := ⟨"ImperialGallon", "gal"⟩
    let customary : BaseUnit := ⟨"Gallon", "gal"⟩
    let britain : Namespace := ⟨⟨1⟩, "britain", [("gal", .bare imperial)]⟩
    let america : Namespace := ⟨⟨2⟩, "america", [("gal", .bare customary)]⟩
    let c : Context := ⟨[britain, america]⟩
    c.Distinct ∧ (∀ scope ∈ c.scopes, scope.SingleValued) ∧
      ((resolveUnit c customary).run .fresh).1 = ⟨"gal", true⟩ ∧
      ∃ before, FirstNamed (.bare customary) c.scopes "gal" before ∧
        (c.find? "gal" = some (.bare customary) ↔
          ∀ earlier ∈ before, earlier.get? "gal" = none) := by
  intro imperial customary britain america c
  have hdistinct : c.Distinct := by
    change c.ids.Nodup
    decide
  have hscopes : ∀ scope ∈ c.scopes, scope.SingleValued := by decide
  have hverified : ((resolveUnit c customary).run .fresh).1 = ⟨"gal", true⟩ := by
    decide +kernel
  have hfound := verified_found_iff (Context.within_world hdistinct)
    (faithful_fresh _) hscopes "gal"
  exact ⟨hdistinct, hscopes, hverified, hfound.1 customary hverified⟩

/-- The two gallons are both verified under one identifier, and a reader takes it for
the first of them; a constant of one namespace hides a logarithmic unit of another one
in the same way. -/
theorem verified_not_found_two_gallons :
    let imperial : BaseUnit := ⟨"ImperialGallon", "gal"⟩
    let customary : BaseUnit := ⟨"Gallon", "gal"⟩
    let britain : Namespace := ⟨⟨1⟩, "britain", [("gal", .bare imperial), ("Np", .other)]⟩
    let america : Namespace :=
      ⟨⟨2⟩, "america", [("gal", .bare customary), ("Np", .log Builtin.neper)]⟩
    let c : Context := ⟨[britain, america]⟩
    c.Distinct ∧ (∀ scope ∈ c.scopes, scope.SingleValued) ∧ imperial ≠ customary ∧
      ((resolveUnit c imperial).run .fresh).1 = ⟨"gal", true⟩ ∧
      ((resolveUnit c customary).run .fresh).1 = ⟨"gal", true⟩ ∧
      c.find? "gal" = some (.bare imperial) ∧ c.find? "gal" ≠ some (.bare customary) ∧
      ((resolveLogUnit c Builtin.neper).run .fresh).1 = ⟨"Np", true⟩ ∧
      c.find? "Np" = some .other ∧ c.find? "Np" ≠ some (.log Builtin.neper) := by
  intro imperial customary britain america c
  refine ⟨?_, ?_, ?_, ?_, ?_, ?_, ?_, ?_, ?_, ?_⟩
  · change c.ids.Nodup
    decide
  all_goals decide +kernel

end Resolver

namespace Namespace

/-- The units that a namespace names, each with its name. -/
def named (ns : Namespace) : List (BaseUnit × String) :=
  ns.bindings.filterMap fun entry =>
    entry.2.bareUnit?.bind fun unit =>
      if unitName? unit [ns] = some entry.1 then some (unit, entry.1) else none

/-- Whether an identifier is bound, but not to this. -/
def bindsOther (ns : Namespace) (identifier : String) (binding : Binding) : Bool :=
  (ns.get? identifier).any (· ≠ binding)

/-- The prefixed units whose written names a namespace binds to something else. -/
def prefixClashes (ns : Namespace) : List (Prefix × BaseUnit) :=
  Prefix.all.flatMap fun scale =>
    (ns.named.filter fun (unit, identifier) => scale ≠ .none ∧
      ns.bindsOther (scale.symbol ++ identifier) (.unit (.ofUnit unit scale))).map
        fun (unit, _) => (scale, unit)

theorem mem_named_iff {ns : Namespace} (hns : ns.SingleValued) {unit : BaseUnit}
    {identifier : String} :
    (unit, identifier) ∈ ns.named ↔ unitName? unit [ns] = some identifier := by
  simp only [named, List.mem_filterMap, Option.bind_eq_some_iff, Binding.bareUnit?_eq_some_iff]
  constructor
  · rintro ⟨entry, -, other, -, h⟩
    split at h
    · next hname =>
        obtain ⟨rfl, rfl⟩ := Prod.ext_iff.mp (Option.some.inj h)
        exact hname
    · cases h
  · intro hname
    obtain ⟨before, scope, after, hscopes, hget, -⟩ :=
      (searchesFor_unitName? _).firstNamed (List.forall_mem_singleton.mpr hns) hname
    have hscope : scope = ns := by
      have hmem : scope ∈ [ns] := by simp [hscopes]
      exact List.mem_singleton.mp hmem
    rw [hscope, get?_eq_some_iff hns] at hget
    exact ⟨_, hget, unit, rfl, if_pos hname⟩

theorem bindsOther_iff (ns : Namespace) (identifier : String) (binding : Binding) :
    ns.bindsOther identifier binding ↔ ∃ b, ns.get? identifier = some b ∧ b ≠ binding := by
  cases h : ns.get? identifier <;> simp [bindsOther, h]

theorem mem_prefixClashes_iff {ns : Namespace} (hns : ns.SingleValued) {scale : Prefix}
    {unit : BaseUnit} :
    (scale, unit) ∈ ns.prefixClashes ↔ scale ≠ .none ∧ ∃ identifier,
      unitName? unit [ns] = some identifier ∧ ∃ b,
        ns.get? (scale.symbol ++ identifier) = some b ∧ b ≠ .unit (.ofUnit unit scale) := by
  simp only [prefixClashes, List.mem_flatMap, List.mem_map, List.mem_filter, decide_eq_true_eq,
    bindsOther_iff, Prod.exists, Prod.mk.injEq, mem_named_iff hns]
  constructor
  · rintro ⟨p, -, u, identifier, ⟨hname, hne, hbound⟩, rfl, rfl⟩
    exact ⟨hne, identifier, hname, hbound⟩
  · rintro ⟨hne, identifier, hname, hbound⟩
    exact ⟨scale, scale.mem_all, unit, identifier, ⟨hname, hne, hbound⟩, rfl, rfl⟩

end Namespace

/-- The text of one prefixed unit is the prefix and the unit's name. -/
theorem UnitExpr.text_ofUnit (c : Context) (unit : BaseUnit) (scale : Prefix) :
    (ofUnit unit scale).text c = c.unitName scale unit := by
  have hfactors : (ofUnit unit scale).factors = [⟨.start, scale, unit, .omitted⟩] := rfl
  rw [text, hfactors]
  simp [String.join, Factor.text, Joint.text, Power.text, Context.unitName]

namespace Resolver

variable {world : World} {ns : Namespace} {r : Resolver}

/-- In a namespace, the written name of a prefixed unit is bound to that unit, if it is
bound at all, just if the namespace does not list the unit among its clashes. -/
theorem notMem_prefixClashes_iff (hmem : ns ∈ world.namespaces) (hr : r.Faithful world)
    (hns : ns.SingleValued) (scale : Prefix) (unit : BaseUnit) :
    (scale, unit) ∉ ns.prefixClashes ↔
      (scale ≠ .none → ∀ identifier,
        ((resolveUnit ⟨[ns]⟩ unit).run r).1 = ⟨identifier, true⟩ →
          (((UnitExpr.ofUnit unit scale).write ⟨[ns]⟩).run r).1 = scale.symbol ++ identifier ∧
          ∀ b, ns.get? (scale.symbol ++ identifier) = some b →
            b = .unit (.ofUnit unit scale)) := by
  have hc : (Context.mk [ns]).Within world := List.forall_mem_singleton.mpr hmem
  rw [Namespace.mem_prefixClashes_iff hns, (resolveUnit_gives hc unit r hr).1,
    ((UnitExpr.ofUnit unit scale).write_gives hc r hr).1, UnitExpr.text_ofUnit,
    Context.unitName, Context.unitIdentifier, Context.scanUnit]
  constructor
  · intro hnone hscale identifier hverified
    have hname := Resolution.ofName?_verified_iff.mp hverified
    refine ⟨by rw [hverified], fun b hget => ?_⟩
    by_contra hne
    exact hnone ⟨hscale, identifier, hname, b, hget, hne⟩
  · rintro hagree ⟨hscale, identifier, hname, b, hget, hne⟩
    exact hne ((hagree hscale identifier (Resolution.ofName?_verified_iff.mpr hname)).2 b hget)

/-- Inches and minutes: a thousand inches go by their own name. -/
theorem notMem_prefixClashes_iff_kiloinch :
    let inch : BaseUnit := ⟨"Inch", "in"⟩
    let desk : Namespace := ⟨⟨1⟩, "desk", [("in", .bare inch), ("min", .bare Builtin.minute),
      ("kin", .unit (.ofUnit inch .kilo))]⟩
    desk.SingleValued ∧ desk.prefixClashes = [(.milli, inch)] ∧
      ((resolveUnit ⟨[desk]⟩ inch).run .fresh).1 = ⟨"in", true⟩ ∧
      (((UnitExpr.ofUnit inch .kilo).write ⟨[desk]⟩).run .fresh).1 = "kin" ∧
      ∀ b, desk.get? "kin" = some b → b = .unit (.ofUnit inch .kilo) := by
  intro inch desk
  have hdistinct : (Context.mk [desk]).Distinct := List.nodup_singleton _
  have hmem : desk ∈ ((Context.mk [desk]).world hdistinct).namespaces :=
    List.mem_singleton_self desk
  have hdesk : desk.SingleValued := by decide
  have hclashes : desk.prefixClashes = [(.milli, inch)] := by decide +kernel
  have hverified : ((resolveUnit ⟨[desk]⟩ inch).run .fresh).1 = ⟨"in", true⟩ := by
    decide +kernel
  have hnot : (Prefix.kilo, inch) ∉ desk.prefixClashes := by
    rw [hclashes]
    decide
  have hagree := (notMem_prefixClashes_iff hmem (faithful_fresh _) hdesk .kilo inch).mp hnot
  exact ⟨hdesk, hclashes, hverified, hagree (by decide) "in" hverified⟩

/-- A thousandth of an inch is written as if it were a minute. -/
theorem milliinch_written_as_minute :
    let inch : BaseUnit := ⟨"Inch", "in"⟩
    let desk : Namespace := ⟨⟨1⟩, "desk", [("in", .bare inch), ("min", .bare Builtin.minute)]⟩
    desk.SingleValued ∧ ((resolveUnit ⟨[desk]⟩ inch).run .fresh).1 = ⟨"in", true⟩ ∧
      (((UnitExpr.ofUnit inch .milli).write ⟨[desk]⟩).run .fresh).1 = "min" ∧
      desk.get? "min" = some (.bare Builtin.minute) ∧
      desk.get? "min" ≠ some (.unit (.ofUnit inch .milli)) := by
  decide +kernel

/-- No prefixed name of a built-in unit is built-in as the name of something else. -/
example : Builtin.scope.prefixClashes = [] := by
  decide +kernel

end Resolver

end UnitText
