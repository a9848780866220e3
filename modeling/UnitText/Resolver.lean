import UnitText.Context
import UnitText.Diagnostic

/-!
From units back to identifiers.

The namespaces of a context are searched in order.  In each of them a unit is
first looked for under its own abbreviation and then in the reverse index of
the namespace; a logarithmic unit is looked for in the index alone.  When no
namespace names a unit, its abbreviation stands for it unverified.  A lookup
never fails.

A resolver builds the index of a namespace when it is first needed and keeps
it, and it warns only once about each abbreviation in each list of namespaces.
Both are seen in its journal, but never in an answer.
-/

namespace UnitText

/-- The first identifier that a namespace binds to each unit. -/
structure ReverseIndex where
  units : List (BaseUnit × String)
  logUnits : List (LogUnit × String)
deriving DecidableEq, Repr

namespace ReverseIndex

/-- The index of a namespace without bindings. -/
def empty : ReverseIndex :=
  ⟨[], []⟩

/-- The index after one more binding; an earlier identifier of a unit stays. -/
def insert (index : ReverseIndex) (identifier : String) : Binding → ReverseIndex
  | .unit e =>
    match e.bareUnit? with
    | some unit => { index with units := Keyed.putNew unit identifier index.units }
    | none => index
  | .log unit => { index with logUnits := Keyed.putNew unit identifier index.logUnits }
  | .other => index

/-- The index of a namespace. -/
def ofNamespace (ns : Namespace) : ReverseIndex :=
  ns.bindings.foldl (fun index entry => index.insert entry.1 entry.2) empty

def unit? (index : ReverseIndex) (unit : BaseUnit) : Option String :=
  index.units.lookup unit

def logUnit? (index : ReverseIndex) (unit : LogUnit) : Option String :=
  index.logUnits.lookup unit

end ReverseIndex

/-- The outcome of one lookup. -/
structure Resolution where
  identifier : String
  /-- Whether a namespace binds the identifier to the unit; if not, it is just
  the abbreviation. -/
  verified : Bool
deriving DecidableEq, Repr

/-- The memory of lookups. -/
structure Resolver where
  /-- The indices built so far. -/
  indices : List (NamespaceId × ReverseIndex)
  /-- The abbreviations warned about, each with the namespaces searched. -/
  warned : List (String × List NamespaceId)
  /-- All records issued so far, the oldest first. -/
  journal : List Diagnostic
deriving DecidableEq, Repr

/-- Work that looks units up as it goes. -/
abbrev Lookup := StateM Resolver

namespace Resolver

/-- A resolver that has done nothing yet. -/
def fresh : Resolver :=
  ⟨[], [], []⟩

instance : Inhabited Resolver := ⟨fresh⟩

/-- The number of namespaces whose index is kept. -/
def indexedCount (r : Resolver) : Nat :=
  r.indices.length

/-- The index of a namespace, from memory if it is there. -/
def index (scope : Namespace) : Lookup ReverseIndex := do
  let r ← get
  match r.indices.lookup scope.id with
  | some known => pure known
  | none =>
    let built := ReverseIndex.ofNamespace scope
    set { r with
      indices := r.indices ++ [(scope.id, built)]
      journal := r.journal ++ [Diagnostic.indexed scope.name scope.size] }
    pure built

/-- The abbreviation, for want of anything better. -/
def fallBack (abbreviation : String) (c : Context) : Lookup Resolution := do
  let r ← get
  let key := (abbreviation, c.ids)
  if !r.warned.contains key then
    set { r with
      warned := r.warned ++ [key]
      journal := r.journal ++ [Diagnostic.unresolved ⟨abbreviation, c.names⟩] }
  pure ⟨abbreviation, false⟩

/-- The first identifier of a unit in a list of namespaces. -/
def searchUnit (unit : BaseUnit) : List Namespace → Lookup (Option String)
  | [] => pure none
  | scope :: rest => do
    if scope.bindsBare unit.abbreviation unit then
      pure (some unit.abbreviation)
    else
      match (← index scope).unit? unit with
      | some identifier => pure (some identifier)
      | none => searchUnit unit rest

/-- The first identifier of a logarithmic unit in a list of namespaces. -/
def searchLogUnit (unit : LogUnit) : List Namespace → Lookup (Option String)
  | [] => pure none
  | scope :: rest => do
    match (← index scope).logUnit? unit with
    | some identifier => pure (some identifier)
    | none => searchLogUnit unit rest

/-- The identifier that a context has for a unit. -/
def resolveUnit (c : Context) (unit : BaseUnit) : Lookup Resolution := do
  match ← searchUnit unit c.scopes with
  | some identifier => pure ⟨identifier, true⟩
  | none => fallBack unit.abbreviation c

/-- The identifier that a context has for a logarithmic unit. -/
def resolveLogUnit (c : Context) (unit : LogUnit) : Lookup Resolution := do
  match ← searchLogUnit unit c.scopes with
  | some identifier => pure ⟨identifier, true⟩
  | none => fallBack unit.abbreviation c

end Resolver

end UnitText
