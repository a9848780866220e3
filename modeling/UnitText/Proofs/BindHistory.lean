import Mathlib.Data.List.Induction
import UnitText.Proofs.FoundNames
import UnitText.Proofs.Providers

/-!
Namespaces as the bindings made so far.

A namespace that starts out empty is what its history of bindings says: every identifier that
was ever bound is listed once, at the place of its first binding and with its latest one
(`BindHistory.Enumerates`).  The first identifier listed for a unit is then the one that was
bound first, to whatever it may have been, among those that now stand for the unit
(`BindHistory.EarliestFor`).  Main statement: `Session.bind_history_determines`.
-/

namespace UnitText

/-- The bindings made in a namespace, the oldest first. -/
abbrev BindHistory := List (String × Binding)

namespace BindHistory

/-- What an identifier was last bound to. -/
def latest? (history : BindHistory) (identifier : String) : Option Binding :=
  history.reverse.lookup identifier

/-- How many bindings were made before an identifier was bound for the first time. -/
def firstBind (history : BindHistory) (identifier : String) : Nat :=
  (history.map Prod.fst).idxOf identifier

/-- Of the identifiers that were last bound to the target, the one that was bound to
anything first. -/
structure EarliestFor (history : BindHistory) (target : Binding) (identifier : String) :
    Prop where
  latest : history.latest? identifier = some target
  first : ∀ other, history.latest? other = some target →
    history.firstBind identifier ≤ history.firstBind other

/-- A list of all identifiers that were bound, each of them once, in the order of their first
bindings and with their latest bindings. -/
structure Enumerates (history : BindHistory) (entries : List (String × Binding)) : Prop where
  complete : ∀ identifier ∈ history.map Prod.fst, identifier ∈ entries.map Prod.fst
  ordered : (entries.map Prod.fst).Pairwise fun earlier later =>
    history.firstBind earlier < history.firstBind later
  latest : ∀ entry ∈ entries, history.latest? entry.1 = some entry.2

theorem latest?_snoc (history : BindHistory) (identifier other : String) (binding : Binding) :
    latest? (history ++ [(identifier, binding)]) other =
      if other = identifier then some binding else history.latest? other := by
  simp only [latest?, List.reverse_append, List.reverse_singleton, List.singleton_append]
  apply Keyed.lookup_cons

/-- What was bound before is not bound for the first time. -/
theorem firstBind_snoc_of_mem {history : BindHistory} {identifier : String}
    (hmem : identifier ∈ history.map Prod.fst) (entry : String × Binding) :
    firstBind (history ++ [entry]) identifier = history.firstBind identifier := by
  simp only [firstBind, List.map_append]
  exact List.idxOf_append_of_mem hmem

theorem firstBind_lt_of_mem {history : BindHistory} {identifier : String}
    (hmem : identifier ∈ history.map Prod.fst) :
    history.firstBind identifier < history.length := by
  have hlt := List.idxOf_lt_length_of_mem hmem
  simpa [firstBind] using hlt

theorem firstBind_of_notMem {history : BindHistory} {identifier : String}
    (hnew : identifier ∉ history.map Prod.fst) (binding : Binding) :
    firstBind (history ++ [(identifier, binding)]) identifier = history.length := by
  simp only [firstBind, List.map_append]
  rw [List.idxOf_append_of_notMem hnew]
  simp

end BindHistory

namespace Namespace

open BindHistory

theorem bindAll_snoc (ns : Namespace) (history : BindHistory) (identifier : String)
    (binding : Binding) :
    ns.bindAll (history ++ [(identifier, binding)]) =
      (ns.bindAll history).bind identifier binding := by
  simp [bindAll]

section Made

variable (id : NamespaceId) (name : String) (history : BindHistory)

/-- An identifier is found with its latest binding. -/
theorem get?_made (identifier : String) :
    ((empty id name).bindAll history).get? identifier = history.latest? identifier := by
  induction history using List.reverseRecOn with
  | nil => rfl
  | append_singleton history entry ih => rw [bindAll_snoc, get?_bind, latest?_snoc, ih]

theorem mem_keys_made_iff (identifier : String) :
    identifier ∈ ((empty id name).bindAll history).bindings.map Prod.fst ↔
      identifier ∈ history.map Prod.fst := by
  induction history using List.reverseRecOn with
  | nil => rfl
  | append_singleton history entry ih =>
      rw [bindAll_snoc, bind, Keyed.keys_put, List.map_append, List.mem_append, ← ih]
      split
      · next hold =>
          refine ⟨Or.inl, ?_⟩
          rintro (hmem | hmem)
          · exact hmem
          · cases List.mem_singleton.mp hmem
            exact hold
      · simp

/-- Every binding keeps the identifiers in the order of their first bindings. -/
theorem keys_made_ordered :
    (((empty id name).bindAll history).bindings.map Prod.fst).Pairwise fun earlier later =>
      history.firstBind earlier < history.firstBind later := by
  induction history using List.reverseRecOn with
  | nil => exact .nil
  | append_singleton history entry ih =>
      have hold := mem_keys_made_iff id name history
      have hkept : (((empty id name).bindAll history).bindings.map Prod.fst).Pairwise
          fun earlier later => firstBind (history ++ [entry]) earlier <
            firstBind (history ++ [entry]) later := by
        apply ih.imp_of_mem
        intro earlier later hearlier hlater hlt
        rw [firstBind_snoc_of_mem ((hold earlier).mp hearlier),
          firstBind_snoc_of_mem ((hold later).mp hlater)]
        exact hlt
      rw [bindAll_snoc, bind, Keyed.keys_put]
      split
      · exact hkept
      · next hnew =>
          apply List.pairwise_append.mpr
          refine ⟨hkept, List.pairwise_singleton _ _, ?_⟩
          intro earlier hearlier later hlater
          cases List.mem_singleton.mp hlater
          have hmem := (hold earlier).mp hearlier
          rw [firstBind_snoc_of_mem hmem, firstBind_of_notMem (mt (hold entry.1).mpr hnew)]
          exact firstBind_lt_of_mem hmem

/-- A namespace is what its history says. -/
theorem enumerates_made : history.Enumerates ((empty id name).bindAll history).bindings where
  complete identifier := (mem_keys_made_iff id name history identifier).mpr
  ordered := keys_made_ordered id name history
  latest entry hentry := by
    rw [← get?_made id name]
    exact (get?_eq_some_iff (singleValued_made id name history)).mpr hentry

end Made

end Namespace

/-- The head of a list in strictly ascending order is its least element. -/
theorem head?_eq_some_iff_of_ascending {α : Type} {rank : α → Nat} {elements : List α}
    (hasc : elements.Pairwise fun x y => rank x < rank y) (x : α) :
    elements.head? = some x ↔ x ∈ elements ∧ ∀ y ∈ elements, rank x ≤ rank y := by
  cases elements with
  | nil => simp
  | cons first others =>
      have hfirst := (List.pairwise_cons.mp hasc).1
      rw [List.head?_cons, Option.some.injEq]
      constructor
      · rintro rfl
        refine ⟨List.mem_cons_self, fun y hy => ?_⟩
        rcases List.mem_cons.mp hy with rfl | hothers
        · exact le_rfl
        · exact (hfirst y hothers).le
      · rintro ⟨hmem, hleast⟩
        rcases List.mem_cons.mp hmem with rfl | hothers
        · rfl
        · have hlt := hfirst x hothers
          have hle := hleast first List.mem_cons_self
          omega

namespace BindHistory

variable {history : BindHistory} {target : Binding} {identifier : String}

/-- Only what was bound has a latest binding. -/
theorem mem_of_latest? (h : history.latest? identifier = some target) :
    identifier ∈ history.map Prod.fst := by
  obtain ⟨before, after, hsplit, -⟩ := List.lookup_eq_some_iff.mp h
  have hmem : (identifier, target) ∈ history.reverse := by simp [hsplit]
  exact List.mem_map_of_mem (List.mem_reverse.mp hmem)

namespace Enumerates

variable {ns : Namespace} (h : history.Enumerates ns.bindings)

include h

theorem mem_identifiersOf_iff_latest? :
    identifier ∈ ns.identifiersOf target ↔ history.latest? identifier = some target := by
  simp only [Namespace.identifiersOf, List.mem_map, List.mem_filter, decide_eq_true_eq]
  constructor
  · rintro ⟨entry, ⟨hentry, rfl⟩, rfl⟩
    exact h.latest entry hentry
  · intro hlatest
    obtain ⟨entry, hentry, rfl⟩ := List.mem_map.mp (h.complete identifier (mem_of_latest? hlatest))
    rw [h.latest entry hentry] at hlatest
    exact ⟨entry, ⟨hentry, Option.some.inj hlatest⟩, rfl⟩

/-- The first identifier listed for a target is the one that was bound first. -/
theorem head?_identifiersOf_iff :
    (ns.identifiersOf target).head? = some identifier ↔
      history.EarliestFor target identifier := by
  have hordered : (ns.identifiersOf target).Pairwise fun earlier later =>
      history.firstBind earlier < history.firstBind later :=
    h.ordered.sublist (List.filter_sublist.map Prod.fst)
  rw [head?_eq_some_iff_of_ascending hordered]
  simp only [h.mem_identifiersOf_iff_latest?]
  exact ⟨fun ⟨latest, first⟩ => ⟨latest, first⟩, fun ⟨latest, first⟩ => ⟨latest, first⟩⟩

/-- A search among the identifiers listed for a target is in vain just if nothing was last
bound to it. -/
theorem head?_identifiersOf_eq_none_iff :
    (ns.identifiersOf target).head? = none ↔
      ∀ identifier, history.latest? identifier ≠ some target := by
  rw [List.head?_eq_none_iff, List.eq_nil_iff_forall_not_mem]
  simp only [h.mem_identifiersOf_iff_latest?, ne_eq]

end Enumerates

end BindHistory

namespace Session

variable {s : Session} {key : String}

/-- The steps that make a history of bindings in a namespace. -/
def bindSteps (key : String) (history : BindHistory) : List Step :=
  history.map fun entry => .bind key entry.1 entry.2

theorem holding?_of_put {h : Holding} {others : List (String × Holding)}
    (hs : s.namespaces = Keyed.put key h others) : s.holding? key = .ok h := by
  simp [holding?, hs, Keyed.lookup_put]

/-- A binding of a namespace that is not shared is made in it, and it answers what the
identifier was bound to. -/
theorem step_bind {ns : Namespace} (hns : s.holding? key = .ok ⟨ns, false⟩)
    (identifier : String) (binding : Binding) :
    s.step (.bind key identifier binding) =
      .ok (.bound (ns.get? identifier) (ns.bind identifier binding),
        { s with namespaces :=
            Keyed.put key ⟨ns.bind identifier binding, false⟩ s.namespaces }) := by
  simp only [step, hns]
  rfl

theorem step_get {ns : Namespace} (hns : s.holding? key = .ok ⟨ns, false⟩)
    (identifier : String) :
    s.step (.get key identifier) = .ok (.binding (ns.get? identifier), s) := by
  simp only [step, hns]
  rfl

theorem holding?_bindSteps {ns : Namespace} (hns : s.holding? key = .ok ⟨ns, false⟩)
    (history : BindHistory) :
    (s.run (bindSteps key history)).holding? key = .ok ⟨ns.bindAll history, false⟩ := by
  induction history generalizing s ns with
  | nil => exact hns
  | cons entry rest ih =>
      apply ih
      rw [next, step_bind hns]
      exact holding?_of_put rfl

/-- A new namespace and the bindings made in it. -/
theorem holding?_created (s : Session) (key name : String) (history : BindHistory) :
    (s.run (.create key name [] :: bindSteps key history)).holding? key =
      .ok ⟨(Namespace.empty ⟨s.nextId⟩ name).bindAll history, false⟩ := by
  apply holding?_bindSteps
  exact holding?_of_put rfl

end Session

namespace Resolver

variable (id : NamespaceId) (name : String) (history : BindHistory) {world : World}
  {r : Resolver}

/-- A namespace alone names a unit by its abbreviation, if that was last bound to the unit
alone, and else by the identifier that was bound first among those that were. -/
theorem resolveUnit_made (hmem : (Namespace.empty id name).bindAll history ∈ world.namespaces)
    (hr : r.Faithful world) (unit : BaseUnit) :
    let found := ((resolveUnit ⟨[(Namespace.empty id name).bindAll history]⟩ unit).run r).1
    (history.latest? unit.abbreviation = some (.bare unit) →
        found = ⟨unit.abbreviation, true⟩) ∧
      (history.latest? unit.abbreviation ≠ some (.bare unit) → ∀ identifier,
        found = ⟨identifier, true⟩ ↔ history.EarliestFor (.bare unit) identifier) ∧
      (found.verified = false ↔
        ∀ identifier, history.latest? identifier ≠ some (.bare unit)) := by
  intro found
  have hfound : found = .ofName? unit.abbreviation
      (unitName? unit [(Namespace.empty id name).bindAll history]) :=
    (resolveUnit_gives (List.forall_mem_singleton.mpr hmem) unit r hr).1
  have henum := Namespace.enumerates_made id name history
  rw [unitName?_singleton, Namespace.get?_made] at hfound
  by_cases habbr : history.latest? unit.abbreviation = some (.bare unit)
  · rw [if_pos habbr] at hfound
    refine ⟨fun _ => hfound, fun hne => absurd habbr hne, ?_⟩
    rw [hfound]
    simp only [Resolution.ofName?, Bool.true_eq_false, false_iff, not_forall, not_not]
    exact ⟨_, habbr⟩
  · rw [if_neg habbr] at hfound
    rw [hfound, Resolution.verified_ofName?, Option.isSome_eq_false_iff, Option.isNone_iff_eq_none,
      henum.head?_identifiersOf_eq_none_iff]
    refine ⟨fun h => absurd h habbr, fun _ identifier => ?_, Iff.rfl⟩
    rw [Resolution.ofName?_verified_iff, henum.head?_identifiersOf_iff]

/-- Logarithmic units have no preferred name. -/
theorem resolveLogUnit_made
    (hmem : (Namespace.empty id name).bindAll history ∈ world.namespaces)
    (hr : r.Faithful world) (unit : LogUnit) :
    let found := ((resolveLogUnit ⟨[(Namespace.empty id name).bindAll history]⟩ unit).run r).1
    (∀ identifier,
        found = ⟨identifier, true⟩ ↔ history.EarliestFor (.log unit) identifier) ∧
      (found.verified = false ↔
        ∀ identifier, history.latest? identifier ≠ some (.log unit)) := by
  intro found
  have hfound : found = .ofName? unit.abbreviation
      (logUnitName? unit [(Namespace.empty id name).bindAll history]) :=
    (resolveLogUnit_gives (List.forall_mem_singleton.mpr hmem) unit r hr).1
  have henum := Namespace.enumerates_made id name history
  rw [hfound, logUnitName?_singleton, Resolution.verified_ofName?, Option.isSome_eq_false_iff,
    Option.isNone_iff_eq_none, henum.head?_identifiersOf_eq_none_iff]
  refine ⟨fun identifier => ?_, Iff.rfl⟩
  rw [Resolution.ofName?_verified_iff, henum.head?_identifiersOf_iff]

end Resolver

namespace Session

open Resolver

/-- A namespace is created in a session, and any bindings are made in it.  Then a step that
gets an identifier answers with its latest binding, and so does a step that binds it anew;
the namespace lists what was bound; and what a resolver finds in it alone is told by the
history of bindings. -/
theorem bind_history_determines (s : Session) (key name : String) (history : BindHistory)
    {world : World} {r : Resolver}
    (hmem : (Namespace.empty ⟨s.nextId⟩ name).bindAll history ∈ world.namespaces)
    (hr : r.Faithful world) :
    let ns : Namespace := (Namespace.empty ⟨s.nextId⟩ name).bindAll history
    let s' : Session := s.run (.create key name [] :: bindSteps key history)
    s'.holding? key = .ok ⟨ns, false⟩ ∧
      history.Enumerates ns.bindings ∧
      (∀ identifier,
        (s'.step (.get key identifier)).map Prod.fst =
          .ok (.binding (history.latest? identifier)) ∧
        ∀ binding, (s'.step (.bind key identifier binding)).map Prod.fst =
          .ok (.bound (history.latest? identifier) (ns.bind identifier binding))) ∧
      (∀ unit, let found := ((resolveUnit ⟨[ns]⟩ unit).run r).1
        (history.latest? unit.abbreviation = some (.bare unit) →
            found = ⟨unit.abbreviation, true⟩) ∧
          (history.latest? unit.abbreviation ≠ some (.bare unit) → ∀ identifier,
            found = ⟨identifier, true⟩ ↔ history.EarliestFor (.bare unit) identifier) ∧
          (found.verified = false ↔
            ∀ identifier, history.latest? identifier ≠ some (.bare unit))) ∧
      ∀ unit, let found := ((resolveLogUnit ⟨[ns]⟩ unit).run r).1
        (∀ identifier,
            found = ⟨identifier, true⟩ ↔ history.EarliestFor (.log unit) identifier) ∧
          (found.verified = false ↔
            ∀ identifier, history.latest? identifier ≠ some (.log unit)) := by
  intro ns s'
  have hheld : s'.holding? key = .ok ⟨ns, false⟩ := holding?_created s key name history
  refine ⟨hheld, Namespace.enumerates_made _ name history, ?_,
    resolveUnit_made _ name history hmem hr, resolveLogUnit_made _ name history hmem hr⟩
  intro identifier
  have hget : ns.get? identifier = history.latest? identifier :=
    Namespace.get?_made _ name history identifier
  rw [step_get hheld, hget]
  refine ⟨rfl, fun binding => ?_⟩
  rw [step_bind hheld, hget]
  rfl

/-- Old measures.  One identifier of the furlong had another meaning before the other was
bound at all, and is listed first; the fathom has its abbreviation; the chain has lost its
name; and the abbreviation of the neper comes too late. -/
theorem bind_history_determines_old_measures :
    let furlong : BaseUnit := ⟨"Furlong", "fur"⟩
    let fathom : BaseUnit := ⟨"Fathom", "ftm"⟩
    let chain : BaseUnit := ⟨"Chain", "ch"⟩
    let history : BindHistory := [("long", .other), ("furlong", .bare furlong),
      ("long", .bare furlong), ("fathom", .bare fathom), ("ftm", .bare fathom),
      ("ch", .bare chain), ("ch", .other), ("neper", .log Builtin.neper),
      ("Np", .log Builtin.neper)]
    let ns : Namespace := (Namespace.empty ⟨initial.nextId⟩ "old").bindAll history
    let s' : Session := initial.run (.create "old" "old" [] :: bindSteps "old" history)
    ns.bindings.map Prod.fst = ["long", "furlong", "fathom", "ftm", "ch", "neper", "Np"] ∧
      history.Enumerates ns.bindings ∧
      (s'.step (.bind "old" "ch" (.bare chain))).map Prod.fst =
        .ok (.bound (some .other) (ns.bind "ch" (.bare chain))) ∧
      ((resolveUnit ⟨[ns]⟩ furlong).run .fresh).1 = ⟨"long", true⟩ ∧
      ((resolveUnit ⟨[ns]⟩ fathom).run .fresh).1 = ⟨"ftm", true⟩ ∧
      (∀ identifier, history.latest? identifier ≠ some (.bare chain)) ∧
      ((resolveLogUnit ⟨[ns]⟩ Builtin.neper).run .fresh).1 = ⟨"neper", true⟩ ∧
      history.EarliestFor (.log Builtin.neper) "neper" := by
  intro furlong fathom chain history ns s'
  have hdistinct : (Context.mk [ns]).Distinct := List.nodup_singleton _
  have hmem : ns ∈ ((Context.mk [ns]).world hdistinct).namespaces := List.mem_singleton_self ns
  obtain ⟨-, hlists, hsteps, hunits, hlogUnits⟩ :=
    bind_history_determines initial "old" "old" history hmem (faithful_fresh _)
  have hlatest : history.latest? "ch" = some .other := by decide +kernel
  have hfirst : history.firstBind "long" = 0 := by decide +kernel
  have hlong : history.EarliestFor (.bare furlong) "long" :=
    ⟨by decide +kernel, fun other _ => hfirst ▸ Nat.zero_le (history.firstBind other)⟩
  have hchain : ((resolveUnit ⟨[ns]⟩ chain).run .fresh).1.verified = false := by
    decide +kernel
  have hneper : ((resolveLogUnit ⟨[ns]⟩ Builtin.neper).run .fresh).1 = ⟨"neper", true⟩ := by
    decide +kernel
  exact ⟨by decide +kernel, hlists, hlatest ▸ (hsteps "ch").2 _,
    ((hunits furlong).2.1 (by decide +kernel) "long").mpr hlong,
    (hunits fathom).1 (by decide +kernel), (hunits chain).2.2.mp hchain, hneper,
    ((hlogUnits Builtin.neper).1 "neper").mp hneper⟩

end Session

end UnitText
