import UnitText.Ambient

/-!
Sessions: namespaces, contexts and resolvers under names of their own, worked on
step by step.

Every step is answered, and a run of steps is the fold of `Session.next`.  A
namespace is bound while it is new; once any step has shared it, by putting it
into a context or by comparing it, its bindings stay as they are.
-/

namespace UnitText

/-- A context of a session: the default one or one with a name. -/
inductive ContextRef where
  | default
  | named (id : String)
deriving DecidableEq, Repr

/-- Where the options of a text come from. -/
inductive OptionsSource where
  | given (o : Options)
  | environment
  | settings
deriving DecidableEq, Repr

/-- The ways to ask for a text through the shared resolver. -/
inductive EntryPoint where
  | text
  | display
  /-- The text of the thing as an `Item`. -/
  | item
  | field
  | inContext (c : ContextRef)
  | withOptions (c : ContextRef) (o : OptionsSource)
deriving DecidableEq, Repr

/-- A step of a session. -/
inductive Step where
  | create (id name : String) (bindings : List (String × Binding))
  | bind (ns identifier : String) (binding : Binding)
  | get (ns identifier : String)
  | compare (a b : String)
  | compose (id : String) (scopes : List String)
  | copy (id : String) (source : ContextRef)
  | add (c : ContextRef) (ns : String)
  | remove (c : ContextRef) (ns : String)
  | contains (c : ContextRef) (ns : String)
  | addDefault (scopes : List String)
  | removeDefault (scopes : List String)
  | newResolver (id : String)
  | resolveUnit (resolver : String) (c : ContextRef) (unit : BaseUnit)
  | resolveLogUnit (resolver : String) (c : ContextRef) (unit : LogUnit)
  | format (resolver : String) (c : ContextRef) (o : OptionsSource) (item : Item)
  | write (entry : EntryPoint) (item : Item)
  | setFlag (value : Option ByteArray)
  | configure (content : String)

/-- The answer to a step. -/
inductive Reply where
  | done
  | namespace (ns : Namespace)
  | bound (previous : Option Binding) (ns : Namespace)
  | binding (b : Option Binding)
  | compared (order : Ordering)
  | context (c : Context)
  | removed (changed : Bool) (c : Context)
  | contains (present : Bool) (c : Context)
  | defaultContext (c : Context) (record : Diagnostic)
  | resolution (r : Resolution) (indexed : Nat) (records : List Diagnostic)
  | formatted (text : String) (indexed : Nat) (records : List Diagnostic)
  | text (text : String)
  | environment (o : Options)
  | settings (s : Settings) (o : Options)

/-- Why a step was not taken. -/
inductive StepError where
  /-- There is nothing of that name. -/
  | unknown (id : String)
  /-- The namespace is shared and can no longer be bound. -/
  | shared (id : String)
  | settings (cause : SettingsError)
deriving DecidableEq, Repr

/-- A namespace of a session. -/
structure Holding where
  scope : Namespace
  /-- Whether a step has shared it. -/
  shared : Bool
deriving DecidableEq, Repr

/-- Everything that steps work on. -/
structure Session where
  namespaces : List (String × Holding)
  contexts : List (String × Context)
  resolvers : List (String × Resolver)
  settings : Settings
  ambient : Ambient
  /-- The identity of the namespace that is created next. -/
  nextId : Nat

namespace Session

/-- A session that knows only the built-in namespace. -/
def initial : Session where
  namespaces := [("builtin", ⟨Builtin.scope, true⟩)]
  contexts := []
  resolvers := []
  settings := {}
  ambient := .initial
  nextId := Builtin.scope.id.index + 1

def holding? (s : Session) (id : String) : Except StepError Holding :=
  match s.namespaces.lookup id with
  | some h => .ok h
  | none => .error (.unknown id)

/-- A namespace that is shared from now on, and the session in which it is. -/
def share (s : Session) (id : String) : Except StepError (Namespace × Session) := do
  let h ← s.holding? id
  pure (h.scope, { s with namespaces := Keyed.put id ⟨h.scope, true⟩ s.namespaces })

/-- Several namespaces, all of them shared from now on. -/
def shareAll (s : Session) : List String → Except StepError (List Namespace × Session)
  | [] => pure ([], s)
  | id :: ids => do
    let (ns, s) ← s.share id
    let (rest, s) ← s.shareAll ids
    pure (ns :: rest, s)

def resolver? (s : Session) (id : String) : Except StepError Resolver :=
  match s.resolvers.lookup id with
  | some r => .ok r
  | none => .error (.unknown id)

def context? (s : Session) : ContextRef → Except StepError Context
  | .default => .ok s.ambient.defaultContext
  | .named id =>
    match s.contexts.lookup id with
    | some c => .ok c
    | none => .error (.unknown id)

/-- The session with a context kept under its name.  What is made of the default
context without changing it is not kept. -/
def setContext (s : Session) (c : Context) : ContextRef → Session
  | .default => s
  | .named id => { s with contexts := Keyed.put id c s.contexts }

/-- The options that a source gives. -/
def optionsOf (s : Session) : OptionsSource → Options
  | .given o => o
  | .environment => s.ambient.options
  | .settings => s.settings.options s.ambient.flag

/-- A text asked for through an entry point. -/
def writeBy {α : Type} [Writable α] (s : Session) (entry : EntryPoint) (x : α) (item : Item) :
    Except StepError (String × Ambient) := do
  match entry with
  | .text => pure ((Ambient.write x).run s.ambient)
  | .display => pure ((Ambient.display x).run s.ambient)
  | .item => pure ((Ambient.write item).run s.ambient)
  | .field => pure ((Ambient.serialize x).run s.ambient)
  | .inContext c =>
    let c ← s.context? c
    pure ((Ambient.writeIn c x).run s.ambient)
  | .withOptions c o =>
    let c ← s.context? c
    pure ((Ambient.writeWith c (s.optionsOf o) x).run s.ambient)

/-- Work of a named resolver: the answer, the number of indices kept after it,
the records it issued and the session after it. -/
def resolveWith {α : Type} (s : Session) (id : String) (work : Lookup α) :
    Except StepError (α × Nat × List Diagnostic × Session) := do
  let r ← s.resolver? id
  let (answer, r') := work.run r
  pure (answer, r'.indexedCount, r'.journal.drop r.journal.length,
    { s with resolvers := Keyed.put id r' s.resolvers })

/-- The answer to a step and the session after it. -/
def step (s : Session) : Step → Except StepError (Reply × Session)
  | .create id name bindings => do
    let ns := (Namespace.empty ⟨s.nextId⟩ name).bindAll bindings
    pure (.namespace ns,
      { s with
        namespaces := Keyed.put id ⟨ns, false⟩ s.namespaces
        nextId := s.nextId + 1 })
  | .bind id identifier binding => do
    let h ← s.holding? id
    if h.shared then throw (.shared id)
    let ns := h.scope.bind identifier binding
    pure (.bound (h.scope.get? identifier) ns,
      { s with namespaces := Keyed.put id ⟨ns, false⟩ s.namespaces })
  | .get id identifier => do
    let h ← s.holding? id
    pure (.binding (h.scope.get? identifier), s)
  | .compare a b => do
    let (x, s) ← s.share a
    let (y, s) ← s.share b
    pure (.compared (Ord.compare x.id y.id), s)
  | .compose id scopes => do
    let (scopes, s) ← s.shareAll scopes
    let c := Context.ofScopes scopes
    pure (.context c, s.setContext c (.named id))
  | .copy id source => do
    let c ← s.context? source
    pure (.context c, s.setContext c (.named id))
  | .add ref id => do
    let c ← s.context? ref
    let (ns, s) ← s.share id
    let c := c.add ns
    pure (.context c, s.setContext c ref)
  | .remove ref id => do
    let c ← s.context? ref
    let (ns, s) ← s.share id
    pure (.removed (c.shrinksBy ns) (c.remove ns), s.setContext (c.remove ns) ref)
  | .contains ref id => do
    let c ← s.context? ref
    let (ns, s) ← s.share id
    pure (.contains (c.contains ns) c, s)
  | .addDefault scopes => do
    let (scopes, s) ← s.shareAll scopes
    let (record, ambient) := s.ambient.addContext scopes
    pure (.defaultContext ambient.defaultContext record, { s with ambient })
  | .removeDefault scopes => do
    let (scopes, s) ← s.shareAll scopes
    let (record, ambient) := s.ambient.removeContext scopes
    pure (.defaultContext ambient.defaultContext record, { s with ambient })
  | .newResolver id =>
    pure (.done, { s with resolvers := Keyed.put id .fresh s.resolvers })
  | .resolveUnit id ref unit => do
    let c ← s.context? ref
    let (answer, indexed, records, s') ← s.resolveWith id (Resolver.resolveUnit c unit)
    pure (.resolution answer indexed records, s')
  | .resolveLogUnit id ref unit => do
    let c ← s.context? ref
    let (answer, indexed, records, s') ← s.resolveWith id (Resolver.resolveLogUnit c unit)
    pure (.resolution answer indexed records, s')
  | .format id ref source item => do
    let c ← s.context? ref
    let work := Writable.write (s.optionsOf source) c item
    let (text, indexed, records, s') ← s.resolveWith id work
    pure (.formatted text indexed records, s')
  | .write entry item => do
    let (text, ambient) ←
      match item with
      | .quantity q => s.writeBy entry q item
      | .log q => s.writeBy entry q item
      | .range r => s.writeBy entry r item
      | .units e => s.writeBy entry e item
      | .noUnits => s.writeBy entry item item
    pure (.text text, { s with ambient })
  | .setFlag value =>
    let s' := { s with ambient := { s.ambient with flag := value } }
    pure (.environment s'.ambient.options, s')
  | .configure content =>
    match Settings.ofToml content with
    | .ok settings =>
      pure (.settings settings (settings.options s.ambient.flag), { s with settings })
    | .error cause => .error (.settings cause)

/-- The session after a step; a step that is not taken leaves it as it was. -/
def next (s : Session) (x : Step) : Session :=
  match s.step x with
  | .ok (_, s') => s'
  | .error _ => s

/-- The session after a list of steps. -/
def run (s : Session) (steps : List Step) : Session :=
  steps.foldl next s

theorem run_append (s : Session) (steps more : List Step) :
    s.run (steps ++ more) = (s.run steps).run more :=
  List.foldl_append

end Session

end UnitText
