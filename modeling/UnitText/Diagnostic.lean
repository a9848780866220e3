/-!
What is told about lookups and about the default context.

Nothing here stops any work: diagnostics accompany it.
-/

namespace UnitText

/-- A unit that no namespace of a context could name. -/
structure UnresolvedSymbol where
  abbreviation : String
  /-- The names of the namespaces that were searched. -/
  namespaces : List String
deriving DecidableEq, Repr

/-- Names as they are listed in a message. -/
def listed (names : List String) : String :=
  "[" ++ ", ".intercalate names ++ "]"

def UnresolvedSymbol.message (e : UnresolvedSymbol) : String :=
  "could not resolve unit symbol `" ++ e.abbreviation ++ "` in namespaces "
    ++ listed e.namespaces ++ "; output may not be parsable"

/-- A record of something that was done or missed. -/
inductive Diagnostic where
  /-- The index of a namespace was built. -/
  | indexed (scope : String) (bindings : Nat)
  /-- An abbreviation had to stand for a unit that nothing names. -/
  | unresolved (symbol : UnresolvedSymbol)
  /-- The default context was changed. -/
  | defaultContext (names : List String)
deriving DecidableEq, Repr

namespace Diagnostic

/-- How grave a record is. -/
def level : Diagnostic → String
  | .indexed .. => "DEBUG"
  | .unresolved _ => "WARN"
  | .defaultContext _ => "DEBUG"

def message : Diagnostic → String
  | .indexed scope bindings =>
    "indexed namespace `" ++ scope ++ "` (" ++ toString bindings ++ " bindings)"
  | .unresolved symbol => symbol.message
  | .defaultContext names => "default context is now " ++ listed names

/-- The record on one line. -/
def line (d : Diagnostic) : String :=
  d.level ++ " " ++ d.message

end Diagnostic

end UnitText
