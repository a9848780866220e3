import UnitText.Keyed

/-!
Documents as trees of tables, and how statements build them.

A table remembers what brought it about, because that decides what may still be
added to it: a header may turn a table that was only implied into its own, and a
dotted key may only reach into tables that no header has defined.
-/

namespace UnitText.Toml

/-- What brought a table about. -/
inductive Origin where
  /-- The document itself, a header of the table's own, or an element of an
  array of tables. -/
  | header
  /-- The header of a table inside it. -/
  | implied
  /-- A dotted key. -/
  | dotted
  /-- A table written as a value. -/
  | inline
deriving DecidableEq, Repr

/-- A value of a document.  Numbers that are not whole, dates and times are told
apart from other values, but not evaluated. -/
inductive Node where
  | string (text : String)
  | integer (n : Int)
  | float
  | boolean (b : Bool)
  | date
  | array (items : List Node)
  | table (origin : Origin) (entries : List (String × Node))
  /-- An array of tables that was built by headers. -/
  | tables (items : List (List (String × Node)))
deriving Repr

/-- The entries of a table. -/
abbrev Entries := List (String × Node)

/-- One statement of a document; a key is a path of names. -/
inductive Statement where
  /-- A value is given to a key of the current table. -/
  | assign (key : List String) (value : Node)
  /-- A header: the table becomes the current one. -/
  | table (key : List String)
  /-- A doubled header: a new element of an array of tables becomes the current
  table. -/
  | element (key : List String)
deriving Repr

/-- Whether a path goes through a table of some origin.  Dotted keys and headers
differ in that only headers enter tables that have a header of their own. -/
def Origin.isOpen (origin : Origin) (route : Origin) : Bool :=
  match origin with
  | .header => route == .implied
  | .implied => true
  | .dotted => true
  | .inline => false

/-- The entries of a table after a change to the table at the end of a path.
Missing tables on the way are made, with the route as their origin, and an array
of tables is entered at its last element. -/
def changeAt (route : Origin) (change : Origin → Entries → Option Entries) :
    List String → Origin → Entries → Option Entries
  | [], origin, entries => change origin entries
  | key :: path, _, entries =>
    match entries.lookup key with
    | none => do
      let inner ← changeAt route change path route []
      pure (Keyed.put key (.table route inner) entries)
    | some (.table origin inner) =>
      if origin.isOpen route then do
        let inner' ← changeAt route change path origin inner
        pure (Keyed.put key (.table origin inner') entries)
      else none
    | some (.tables items) =>
      match items.getLast? with
      | some inner => do
        let inner' ← changeAt route change path .header inner
        pure (Keyed.put key (.tables (items.dropLast ++ [inner'])) entries)
      | none => none
    | some _ => none

/-- A table with a value under a name that has none yet. -/
def addEntry (name : String) (value : Node) (entries : Entries) : Option Entries :=
  if (entries.lookup name).isSome then none else some (entries ++ [(name, value)])

/-- A table with a value under a key.  The tables that a dotted key names are
reserved for dotted keys. -/
def assign (key : List String) (value : Node) (origin : Origin) (entries : Entries) :
    Option Entries := do
  let name ← key.getLast?
  let path := key.dropLast
  let add (reached : Origin) (inner : Entries) : Option Entries :=
    if (reached == .dotted) == path.isEmpty then none else addEntry name value inner
  changeAt .dotted add path origin entries

/-- A document with the table of a header in it. -/
def openTable (key : List String) (entries : Entries) : Option Entries := do
  let name ← key.getLast?
  let add (_ : Origin) (inner : Entries) : Option Entries :=
    match inner.lookup name with
    | none => some (inner ++ [(name, .table .header [])])
    | some (.table .implied table) => some (Keyed.put name (.table .header table) inner)
    | some _ => none
  changeAt .implied add key.dropLast .header entries

/-- A document with one more element in an array of tables. -/
def openElement (key : List String) (entries : Entries) : Option Entries := do
  let name ← key.getLast?
  let add (_ : Origin) (inner : Entries) : Option Entries :=
    match inner.lookup name with
    | none => some (inner ++ [(name, .tables [[]])])
    | some (.tables items) => some (Keyed.put name (.tables (items ++ [[]])) inner)
    | some _ => none
  changeAt .implied add key.dropLast .header entries

/-- A document under construction. -/
structure Draft where
  entries : Entries
  /-- The path of the current table. -/
  current : List String
deriving Repr

namespace Draft

def empty : Draft :=
  ⟨[], []⟩

/-- The document after one more statement, if that is allowed. -/
def step (d : Draft) : Statement → Option Draft
  | .assign key value => do
    let entries ← changeAt .implied (assign key value) d.current .header d.entries
    pure { d with entries }
  | .table key => do
    let entries ← openTable key d.entries
    pure ⟨entries, key⟩
  | .element key => do
    let entries ← openElement key d.entries
    pure ⟨entries, key⟩

end Draft

/-- The document of a list of statements, if they agree with each other. -/
def ofStatements (statements : List Statement) : Option Entries := do
  let draft ← statements.foldlM Draft.step .empty
  pure draft.entries

/-- The table of the pairs between braces. -/
def inlineTable (pairs : List (List String × Node)) : Option Node := do
  let entries ← pairs.foldlM (fun entries (key, value) => assign key value .inline entries) []
  pure (.table .inline entries)

end UnitText.Toml
