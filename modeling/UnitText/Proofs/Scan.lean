import Mathlib.Data.List.Nodup
import Mathlib.Data.Set.Basic
import UnitText.Resolver

/-!
Lookups that remember nothing.

`Context.scanUnit` and `Context.scanLogUnit` read all bindings of a context
afresh; either takes a name from the first namespace that has one (`SearchesFor`).
A resolver answers the same, whatever it has done before, as long as it has only met
namespaces whose identities tell them apart (`resolveUnit_gives`,
`resolveLogUnit_gives`).  What carries the proof is that a memory which is
`Faithful` to a world of namespaces stays so.
-/

namespace UnitText

/-- The binding of an identifier to a unit alone: one atom with no prefix and the
exponent one. -/
def Binding.bare (unit : BaseUnit) : Binding :=
  .unit (.ofUnit unit)

/-- The identifiers that a namespace binds to exactly this, in their order. -/
def Namespace.identifiersOf (ns : Namespace) (binding : Binding) : List String :=
  (ns.bindings.filter fun entry => entry.2 = binding).map Prod.fst

/-- Whether a namespace binds an identifier to exactly this. -/
def Namespace.names (ns : Namespace) (target : Binding) : Bool :=
  !(ns.identifiersOf target).isEmpty

/-- What is made of a search: an identifier that was found is verified, and the
abbreviation has to do if there is none. -/
def Resolution.ofName? (abbreviation : String) : Option String → Resolution
  | some identifier => ⟨identifier, true⟩
  | none => ⟨abbreviation, false⟩

/-- The name of a unit in the first namespace that binds anything to it alone: its
abbreviation, if that is bound to it alone, or else the first such identifier. -/
def unitName? (unit : BaseUnit) : List Namespace → Option String
  | [] => none
  | scope :: rest =>
    match scope.identifiersOf (.bare unit) with
    | [] => unitName? unit rest
    | first :: _ =>
      if scope.get? unit.abbreviation = some (.bare unit) then some unit.abbreviation
      else some first

/-- The name of a logarithmic unit in the first namespace that binds anything to it:
the first such identifier. -/
def logUnitName? (unit : LogUnit) : List Namespace → Option String
  | [] => none
  | scope :: rest =>
    match scope.identifiersOf (.log unit) with
    | [] => logUnitName? unit rest
    | first :: _ => some first

namespace Context

/-- What a context has for a unit, found without any memory. -/
def scanUnit (c : Context) (unit : BaseUnit) : Resolution :=
  .ofName? unit.abbreviation (unitName? unit c.scopes)

/-- What a context has for a logarithmic unit, found without any memory. -/
def scanLogUnit (c : Context) (unit : LogUnit) : Resolution :=
  .ofName? unit.abbreviation (logUnitName? unit c.scopes)

end Context

/-- An atom is bare just if it is its unit to the first power. -/
theorem Atom.isBare_iff (a : Atom) : a.isBare ↔ a = .ofUnit a.unit := by
  obtain ⟨scale, unit, exponent⟩ := a
  simp only [isBare, Bool.and_eq_true, beq_iff_eq, Ratio.isInt_iff, ofUnit, mk.injEq,
    true_and]
  have hone : exponent.toRat = (1 : Int) ↔ exponent = .one :=
    ⟨fun h => Ratio.ext_toRat h, fun h => h ▸ rfl⟩
  rw [hone]

/-- An expression stands for a unit just if it is the unit to the first power. -/
theorem UnitExpr.bareUnit?_eq_some_iff (e : UnitExpr) (unit : BaseUnit) :
    e.bareUnit? = some unit ↔ e = .ofUnit unit := by
  constructor
  · obtain ⟨_ | ⟨a, _ | ⟨b, rest⟩⟩⟩ := e
    · exact fun h => nomatch h
    · intro h
      simp only [bareUnit?] at h
      split at h
      · next hbare =>
          cases h
          have ha := a.isBare_iff.mp hbare
          rw [ha]
          rfl
      · cases h
    · exact fun h => nomatch h
  · rintro rfl
    exact bareUnit?_ofUnit unit .none

theorem Binding.bareUnit?_eq_some_iff (b : Binding) (unit : BaseUnit) :
    b.bareUnit? = some unit ↔ b = .bare unit := by
  cases b with
  | unit e =>
      rw [bareUnit?, UnitExpr.bareUnit?_eq_some_iff, bare, Binding.unit.injEq]
  | log _ => simp [bareUnit?, bare]
  | other => simp [bareUnit?, bare]

namespace Namespace

theorem bindsBare_iff (ns : Namespace) (identifier : String) (unit : BaseUnit) :
    ns.bindsBare identifier unit ↔ ns.get? identifier = some (.bare unit) := by
  rw [bindsBare, beq_iff_eq, Option.bind_eq_some_iff]
  constructor
  · rintro ⟨b, hget, hb⟩
    rw [hget, (b.bareUnit?_eq_some_iff unit).mp hb]
  · intro hget
    exact ⟨_, hget, (Binding.bareUnit?_eq_some_iff _ unit).mpr rfl⟩

/-- What an identifier is bound to, is bound to something. -/
theorem mem_identifiersOf_of_get? {ns : Namespace} {identifier : String} {b : Binding}
    (hget : ns.get? identifier = some b) : identifier ∈ ns.identifiersOf b := by
  obtain ⟨before, after, hbindings, -⟩ := List.lookup_eq_some_iff.mp hget
  simp [identifiersOf, hbindings]

theorem names_iff {ns : Namespace} {target : Binding} :
    ns.names target ↔ ns.identifiersOf target ≠ [] := by
  simp [names]

theorem names_of_get? {ns : Namespace} {identifier : String} {b : Binding}
    (hget : ns.get? identifier = some b) : ns.names b :=
  names_iff.mpr (List.ne_nil_of_mem (mem_identifiersOf_of_get? hget))

/-- No identifier is bound to what has none. -/
theorem get?_ne_of_identifiersOf_eq_nil {ns : Namespace} {target : Binding}
    (h : ns.identifiersOf target = []) (other : String) : ns.get? other ≠ some target :=
  fun hget => names_iff.mp (names_of_get? hget) h

end Namespace

/-- A search that passes over the namespaces without a name for the target, and takes one
of the names in the first namespace that has any, whatever stands behind it. -/
structure SearchesFor (target : Binding) (name? : List Namespace → Option String) : Prop where
  nil : name? [] = none
  skip : ∀ scope rest, ¬scope.names target → name? (scope :: rest) = name? rest
  take : ∀ scope, scope.names target → ∃ identifier ∈ scope.identifiersOf target,
    ∀ rest, name? (scope :: rest) = some identifier

theorem searchesFor_unitName? (unit : BaseUnit) :
    SearchesFor (.bare unit) (unitName? unit) where
  nil := rfl
  skip scope rest hscope := by
    rw [Namespace.names_iff, not_not] at hscope
    rw [unitName?, hscope]
  take scope hscope := by
    obtain ⟨first, others, hcons⟩ := List.exists_cons_of_ne_nil (Namespace.names_iff.mp hscope)
    by_cases habbr : scope.get? unit.abbreviation = some (.bare unit)
    · refine ⟨unit.abbreviation, Namespace.mem_identifiersOf_of_get? habbr, fun rest => ?_⟩
      simp only [unitName?, hcons, if_pos habbr]
    · refine ⟨first, hcons ▸ List.mem_cons_self, fun rest => ?_⟩
      simp only [unitName?, hcons, if_neg habbr]

theorem searchesFor_logUnitName? (unit : LogUnit) :
    SearchesFor (.log unit) (logUnitName? unit) where
  nil := rfl
  skip scope rest hscope := by
    rw [Namespace.names_iff, not_not] at hscope
    rw [logUnitName?, hscope]
  take scope hscope := by
    obtain ⟨first, others, hcons⟩ := List.exists_cons_of_ne_nil (Namespace.names_iff.mp hscope)
    exact ⟨first, hcons ▸ List.mem_cons_self, fun rest => by rw [logUnitName?, hcons]⟩

/-- Alone, a namespace names a unit by its abbreviation or else by the first identifier that
is bound to it. -/
theorem unitName?_singleton (unit : BaseUnit) (ns : Namespace) :
    unitName? unit [ns] =
      if ns.get? unit.abbreviation = some (.bare unit) then some unit.abbreviation
      else (ns.identifiersOf (.bare unit)).head? := by
  simp only [unitName?]
  cases hids : ns.identifiersOf (.bare unit) with
  | nil =>
      rw [if_neg (Namespace.get?_ne_of_identifiersOf_eq_nil hids unit.abbreviation)]
      rfl
  | cons first others => rfl

theorem logUnitName?_singleton (unit : LogUnit) (ns : Namespace) :
    logUnitName? unit [ns] = (ns.identifiersOf (.log unit)).head? := by
  simp only [logUnitName?]
  cases ns.identifiersOf (.log unit) <;> rfl

namespace ReverseIndex

/-- One more entry does not displace the identifier of a unit. -/
theorem unit?_insert (unit : BaseUnit) (index : ReverseIndex) (identifier : String)
    (b : Binding) :
    (index.insert identifier b).unit? unit =
      (index.unit? unit).or (if b = .bare unit then some identifier else none) := by
  rw [if_congr (b.bareUnit?_eq_some_iff unit).symm rfl rfl]
  cases b with
  | unit e =>
      cases he : e.bareUnit? with
      | none => simp [insert, he, Binding.bareUnit?]
      | some other =>
          simp only [insert, he, unit?, Keyed.lookup_putNew, Binding.bareUnit?,
            Option.some.injEq]
          by_cases heq : unit = other
          · subst heq
            cases index.units.lookup unit <;> simp
          · rw [if_neg heq, if_neg (Ne.symm heq), Option.or_none]
  | log _ => simp [insert, unit?, Binding.bareUnit?]
  | other => simp [insert, Binding.bareUnit?]

theorem logUnit?_insert (unit : LogUnit) (index : ReverseIndex) (identifier : String)
    (b : Binding) :
    (index.insert identifier b).logUnit? unit =
      (index.logUnit? unit).or (if b = .log unit then some identifier else none) := by
  cases b with
  | unit e =>
      cases he : e.bareUnit? with
      | none => simp [insert, he]
      | some _ => simp [insert, he, logUnit?]
  | log other =>
      simp only [insert, logUnit?, Keyed.lookup_putNew, Binding.log.injEq]
      by_cases heq : unit = other
      · subst heq
        cases index.logUnits.lookup unit <;> simp
      · rw [if_neg heq, if_neg (Ne.symm heq), Option.or_none]
  | other => simp [insert]

/-- If no entry displaces what is found, the first fitting entry is found in the
end. -/
theorem find_ofNamespace (find : ReverseIndex → Option String) {target : Binding}
    (hempty : find empty = none)
    (hinsert : ∀ index identifier b, find (index.insert identifier b) =
      (find index).or (if b = target then some identifier else none))
    (ns : Namespace) : find (ofNamespace ns) = (ns.identifiersOf target).head? := by
  have hfold : ∀ (entries : List (String × Binding)) (index : ReverseIndex),
      find (entries.foldl (fun index entry => index.insert entry.1 entry.2) index) =
        (find index).or ((entries.filter fun entry => entry.2 = target).map Prod.fst).head? := by
    intro entries
    induction entries with
    | nil => simp
    | cons entry rest ih =>
        intro index
        rw [List.foldl_cons, ih, hinsert]
        by_cases htarget : entry.2 = target
        · cases find index <;> simp [htarget]
        · simp [htarget]
  rw [ofNamespace, hfold, hempty, Option.none_or, Namespace.identifiersOf]

theorem unit?_ofNamespace (ns : Namespace) (unit : BaseUnit) :
    (ofNamespace ns).unit? unit = (ns.identifiersOf (.bare unit)).head? :=
  find_ofNamespace (·.unit? unit) rfl (unit?_insert unit) ns

theorem logUnit?_ofNamespace (ns : Namespace) (unit : LogUnit) :
    (ofNamespace ns).logUnit? unit = (ns.identifiersOf (.log unit)).head? :=
  find_ofNamespace (·.logUnit? unit) rfl (logUnit?_insert unit) ns

end ReverseIndex

/-- The namespaces of a process.  An identity belongs to one of them only. -/
structure World where
  namespaces : Set Namespace
  eq_of_id_eq : ∀ a ∈ namespaces, ∀ b ∈ namespaces, a.id = b.id → a = b

/-- A context that is made of namespaces of the world. -/
def Context.Within (c : Context) (world : World) : Prop :=
  ∀ scope ∈ c.scopes, scope ∈ world.namespaces

/-- A context that holds no namespace twice is a world of its own. -/
def Context.world (c : Context) (hc : c.Distinct) : World where
  namespaces := { ns | ns ∈ c.scopes }
  eq_of_id_eq _ ha _ hb hid := List.inj_on_of_nodup_map hc ha hb hid

theorem Context.within_world {c : Context} (hc : c.Distinct) : c.Within (c.world hc) :=
  fun _ hscope => hscope

/-- Every index that a resolver keeps is that of a namespace of the world, kept for
its identity. -/
def Resolver.Faithful (r : Resolver) (world : World) : Prop :=
  ∀ entry ∈ r.indices, ∃ ns ∈ world.namespaces, entry = (ns.id, .ofNamespace ns)

/-- Work that gives the same answer for every faithful memory, and leaves the
memory faithful. -/
def Gives {α : Type} (world : World) (work : Lookup α) (answer : α) : Prop :=
  ∀ r : Resolver, r.Faithful world →
    (work.run r).1 = answer ∧ (work.run r).2.Faithful world

namespace Gives

variable {α β : Type} {world : World}

theorem pure (answer : α) : Gives world (Pure.pure answer) answer :=
  fun _ hr => ⟨rfl, hr⟩

theorem bind {work : Lookup α} {next : α → Lookup β} {answer : α} {answer' : β}
    (hwork : Gives world work answer) (hnext : Gives world (next answer) answer') :
    Gives world (work >>= next) answer' := by
  intro r hr
  obtain ⟨hanswer, hfaithful⟩ := hwork r hr
  change ((next (work.run r).1).run (work.run r).2).1 = answer' ∧
    ((next (work.run r).1).run (work.run r).2).2.Faithful world
  rw [hanswer]
  exact hnext _ hfaithful

end Gives

namespace Resolver

variable {world : World}

theorem faithful_fresh (world : World) : fresh.Faithful world :=
  fun _ hentry => absurd hentry List.not_mem_nil

/-- As identities tell namespaces apart, what is kept for a namespace is its own
index. -/
theorem Faithful.eq_ofNamespace {r : Resolver} (hr : r.Faithful world) {scope : Namespace}
    (hscope : scope ∈ world.namespaces) {known : ReverseIndex}
    (hknown : r.indices.lookup scope.id = some known) : known = .ofNamespace scope := by
  obtain ⟨before, after, hindices, -⟩ := List.lookup_eq_some_iff.mp hknown
  have hmem : (scope.id, known) ∈ r.indices := by simp [hindices]
  obtain ⟨ns, hns, hentry⟩ := hr _ hmem
  obtain ⟨hid, hknown⟩ := Prod.ext_iff.mp hentry
  rw [world.eq_of_id_eq scope hscope ns hns hid]
  exact hknown

/-- A further index may be kept for the identity that it belongs to. -/
theorem Faithful.append {r : Resolver} (hr : r.Faithful world) {scope : Namespace}
    (hscope : scope ∈ world.namespaces) (journal : List Diagnostic) :
    Faithful { r with
      indices := r.indices ++ [(scope.id, .ofNamespace scope)]
      journal } world := by
  intro entry hentry
  rcases List.mem_append.mp hentry with hold | hnew
  · exact hr entry hold
  · exact ⟨scope, hscope, List.mem_singleton.mp hnew⟩

/-- The index of a namespace is its own, remembered or not. -/
theorem index_gives {scope : Namespace} (hscope : scope ∈ world.namespaces) :
    Gives world (index scope) (.ofNamespace scope) := by
  intro r hr
  cases hknown : r.indices.lookup scope.id with
  | some known =>
      have hrun : (index scope).run r = (known, r) := by
        simp only [index, StateT.run_bind, StateT.run_get, pure_bind, hknown]
        rfl
      rw [hrun]
      exact ⟨hr.eq_ofNamespace hscope hknown, hr⟩
  | none =>
      have hrun : (index scope).run r = (.ofNamespace scope, { r with
          indices := r.indices ++ [(scope.id, .ofNamespace scope)]
          journal := r.journal ++ [.indexed scope.name scope.size] }) := by
        simp only [index, StateT.run_bind, StateT.run_get, pure_bind, hknown]
        rfl
      rw [hrun]
      exact ⟨rfl, hr.append hscope _⟩

theorem fallBack_gives (abbreviation : String) (c : Context) :
    Gives world (fallBack abbreviation c) ⟨abbreviation, false⟩ := by
  intro r hr
  cases hwarned : r.warned.contains (abbreviation, c.ids) with
  | true =>
      have hrun : (fallBack abbreviation c).run r = (⟨abbreviation, false⟩, r) := by
        simp only [fallBack, StateT.run_bind, StateT.run_get, pure_bind, hwarned]
        rfl
      rw [hrun]
      exact ⟨rfl, hr⟩
  | false =>
      have hrun : (fallBack abbreviation c).run r = (⟨abbreviation, false⟩, { r with
          warned := r.warned ++ [(abbreviation, c.ids)]
          journal := r.journal ++ [.unresolved ⟨abbreviation, c.names⟩] }) := by
        simp only [fallBack, StateT.run_bind, StateT.run_get, pure_bind, hwarned]
        rfl
      rw [hrun]
      exact ⟨rfl, hr⟩

/-- A search finds the name in the first namespace that has one. -/
theorem searchUnit_gives (unit : BaseUnit) {scopes : List Namespace}
    (hscopes : ∀ scope ∈ scopes, scope ∈ world.namespaces) :
    Gives world (searchUnit unit scopes) (unitName? unit scopes) := by
  induction scopes with
  | nil => exact .pure none
  | cons scope rest ih =>
      rw [List.forall_mem_cons] at hscopes
      unfold searchUnit unitName?
      by_cases habbr : scope.get? unit.abbreviation = some (.bare unit)
      · rw [if_pos ((scope.bindsBare_iff _ unit).mpr habbr)]
        cases hids : scope.identifiersOf (.bare unit) with
        | nil => exact absurd habbr (Namespace.get?_ne_of_identifiersOf_eq_nil hids _)
        | cons first _ =>
            dsimp only
            rw [if_pos habbr]
            exact .pure _
      · rw [if_neg (mt (scope.bindsBare_iff _ unit).mp habbr)]
        apply (index_gives hscopes.1).bind
        rw [ReverseIndex.unit?_ofNamespace]
        cases scope.identifiersOf (.bare unit) with
        | nil => exact ih hscopes.2
        | cons first _ =>
            dsimp only
            rw [if_neg habbr]
            exact .pure _

theorem searchLogUnit_gives (unit : LogUnit) {scopes : List Namespace}
    (hscopes : ∀ scope ∈ scopes, scope ∈ world.namespaces) :
    Gives world (searchLogUnit unit scopes) (logUnitName? unit scopes) := by
  induction scopes with
  | nil => exact .pure none
  | cons scope rest ih =>
      rw [List.forall_mem_cons] at hscopes
      unfold searchLogUnit logUnitName?
      apply (index_gives hscopes.1).bind
      rw [ReverseIndex.logUnit?_ofNamespace]
      cases scope.identifiersOf (.log unit) with
      | nil => exact ih hscopes.2
      | cons first _ => exact .pure _

/-- What a search has not found falls back to the abbreviation. -/
theorem ofName?_gives (abbreviation : String) (c : Context) (name? : Option String) :
    Gives world
      (match name? with
        | some identifier => pure ⟨identifier, true⟩
        | none => fallBack abbreviation c)
      (.ofName? abbreviation name?) := by
  cases name? with
  | none => exact fallBack_gives abbreviation c
  | some identifier => exact .pure _

/-- A resolver finds what a scan finds. -/
theorem resolveUnit_gives {c : Context} (hc : c.Within world) (unit : BaseUnit) :
    Gives world (resolveUnit c unit) (c.scanUnit unit) :=
  (searchUnit_gives unit hc).bind (ofName?_gives _ c _)

theorem resolveLogUnit_gives {c : Context} (hc : c.Within world) (unit : LogUnit) :
    Gives world (resolveLogUnit c unit) (c.scanLogUnit unit) :=
  (searchLogUnit_gives unit hc).bind (ofName?_gives _ c _)

end Resolver

end UnitText
