import UnitText.Toml.Lexical

/-!
TOML documents: statements, one to a line.
-/

namespace UnitText.Toml

open Scan

/-- How many arrays and inline tables may lie within each other. -/
def nestingLimit : Nat := 79

/-- How many names a key may have. -/
def keyLimit : Nat := 79

namespace Scan

def name : Scan String :=
  basicString <|> literalString <|> String.ofList <$> chars1 isBare

/-- A key: names with dots between them. -/
def key : Scan (List String) := do
  let names ← sepBy1 '.' (spaces *> name <* spaces)
  if names.length ≤ keyLimit then pure names else failure

/-- A key with its value. -/
def pair (value : Scan Node) : Scan (List String × Node) := do
  let k ← key
  discard (one '=')
  spaces
  let v ← value
  pure (k, v)

/-- Values between brackets, on several lines if need be.  A comma may follow
the last one. -/
def array (value : Scan Node) : Scan Node := do
  discard (one '[')
  let items ← sepBy ',' (gap *> value <* gap)
  if !items.isEmpty then discard (optional (one ','))
  gap
  discard (one ']')
  pure (.array items)

/-- Pairs between braces, on one line. -/
def braced (value : Scan Node) : Scan Node := do
  discard (one '\x7b')
  let pairs ← sepBy ',' (pair value <* spaces)
  spaces
  discard (one '\x7d')
  inlineTable pairs

/-- A value, nested to a depth. -/
def value : Nat → Scan Node
  | 0 => scalar
  | depth + 1 => array (value depth) <|> braced (value depth) <|> scalar

/-- A header, in double brackets or in single ones. -/
def header : Scan Statement :=
  Statement.element <$> (token "[[" *> key <* token "]]")
    <|> Statement.table <$> (one '[' *> key <* one ']')

def statement : Scan Statement :=
  header <|> (fun (k, v) => Statement.assign k v) <$> pair (value nestingLimit)

/-- A line without its end: at most one statement and a comment. -/
def line : Scan (Option Statement) := do
  spaces
  let s ← optional statement
  spaces
  discard (optional comment)
  pure s

/-- All statements of a document, which may begin with a byte order mark. -/
def statements : Scan (List Statement) := do
  discard (optional (one '\ufeff'))
  let lines ← many (line <* newline)
  let last ← line
  finish
  pure ((lines ++ [last]).filterMap id)

end Scan

/-- The tables of a document, if it is well-formed. -/
def parse (content : String) : Option Entries := do
  let (statements, _) ← statements content.toList
  ofStatements statements

end UnitText.Toml
