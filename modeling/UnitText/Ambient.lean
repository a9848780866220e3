import UnitText.Builtin
import UnitText.Settings
import UnitText.Writing.Item

/-!
The surroundings that writing takes for granted: the default context, the flag
of the environment and a resolver that all writing shares.
-/

namespace UnitText

/-- The surroundings of all writing that does not name its own. -/
structure Ambient where
  defaultContext : Context
  /-- The bytes of the environment variable that asks for quoted literals. -/
  flag : Option ByteArray
  resolver : Resolver

namespace Ambient

/-- At first the default context holds the built-in namespace alone. -/
def initial : Ambient :=
  ⟨.ofScopes [Builtin.scope], none, .fresh⟩

/-- The options that the environment asks for. -/
def options (a : Ambient) : Options :=
  .ofFlag a.flag

/-- The surroundings with another default context, and the record of it. -/
def withDefault (a : Ambient) (c : Context) : Diagnostic × Ambient :=
  (.defaultContext c.names, { a with defaultContext := c })

/-- Namespaces are added to the default context. -/
def addContext (a : Ambient) (scopes : List Namespace) : Diagnostic × Ambient :=
  a.withDefault (a.defaultContext.addAll scopes)

/-- Namespaces are removed from the default context. -/
def removeContext (a : Ambient) (scopes : List Namespace) : Diagnostic × Ambient :=
  a.withDefault (a.defaultContext.removeAll scopes)

variable {α : Type} [Writable α]

/-- A text in a given context and with given options. -/
def writeWith (c : Context) (o : Options) (x : α) : StateM Ambient String := fun a =>
  let (text, resolver) := (Writable.write o c x).run a.resolver
  (text, { a with resolver })

/-- A text in a given context. -/
def writeIn (c : Context) (x : α) : StateM Ambient String := do
  let a ← get
  writeWith c a.options x

/-- A text in the default context. -/
def write (x : α) : StateM Ambient String := do
  let a ← get
  writeIn a.defaultContext x

/-- What is shown for something that is displayed as its text. -/
def display (x : α) : StateM Ambient String :=
  write x

/-- What is stored in a field that is kept as text. -/
def serialize (x : α) : StateM Ambient String :=
  write x

end Ambient

end UnitText
