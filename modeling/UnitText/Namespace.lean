import UnitText.Keyed
import UnitText.UnitExpr

/-!
Lookup scopes.

A namespace says what the identifiers of unit text stand for.  Its bindings
are listed in the order in which their identifiers were first bound.  What
tells two namespaces apart is their identity, never their contents.
-/

namespace UnitText

/-- The identity of a namespace; identities grow in order of creation. -/
structure NamespaceId where
  index : Nat
deriving DecidableEq, Repr

instance : Ord NamespaceId := ⟨fun x y => compare x.index y.index⟩

/-- What an identifier stands for. -/
inductive Binding where
  | unit (e : UnitExpr)
  | log (u : LogUnit)
  /-- Something that is no unit, such as a constant or a function. -/
  | other
deriving DecidableEq, Repr

/-- The unit that the binding stands for, if it is one unit alone. -/
def Binding.bareUnit? : Binding → Option BaseUnit
  | .unit e => e.bareUnit?
  | .log _ => none
  | .other => none

/-- The logarithmic unit that the binding stands for. -/
def Binding.logUnit? : Binding → Option LogUnit
  | .unit _ => none
  | .log u => some u
  | .other => none

/-- An ordered set of bindings. -/
structure Namespace where
  id : NamespaceId
  name : String
  bindings : List (String × Binding)
deriving DecidableEq, Repr

namespace Namespace

/-- A namespace that binds nothing yet. -/
def empty (id : NamespaceId) (name : String) : Namespace :=
  ⟨id, name, []⟩

/-- What an identifier is bound to. -/
def get? (ns : Namespace) (identifier : String) : Option Binding :=
  ns.bindings.lookup identifier

/-- The number of bound identifiers. -/
def size (ns : Namespace) : Nat :=
  ns.bindings.length

def isEmpty (ns : Namespace) : Bool :=
  ns.bindings.isEmpty

/-- The namespace with an identifier bound.  Rebinding an identifier keeps its
place. -/
def bind (ns : Namespace) (identifier : String) (binding : Binding) : Namespace :=
  { ns with bindings := Keyed.put identifier binding ns.bindings }

/-- The namespace after a list of bindings, made in order. -/
def bindAll (ns : Namespace) (bindings : List (String × Binding)) : Namespace :=
  bindings.foldl (fun ns entry => ns.bind entry.1 entry.2) ns

/-- Whether an identifier is bound to a unit and nothing else. -/
def bindsBare (ns : Namespace) (identifier : String) (unit : BaseUnit) : Bool :=
  (ns.get? identifier).bind Binding.bareUnit? == some unit

@[simp] theorem id_bind (ns : Namespace) (identifier : String) (binding : Binding) :
    (ns.bind identifier binding).id = ns.id :=
  rfl

/-- A binding is seen under its own identifier and changes no other. -/
theorem get?_bind (ns : Namespace) (identifier other : String) (binding : Binding) :
    (ns.bind identifier binding).get? other =
      if other = identifier then some binding else ns.get? other :=
  Keyed.lookup_put identifier other binding ns.bindings

end Namespace

end UnitText
