/-!
Reading text from left to right.

A `Scan` takes something off the front of a text or fails, and a failure leaves
the text as it was for the next alternative.  The two loops end because they
stop at the first item that takes nothing.
-/

namespace UnitText.Toml

/-- Work that reads from the front of a text. -/
abbrev Scan := StateT (List Char) Option

namespace Scan

variable {α : Type}

/-- One character of a class. -/
def char (p : Char → Bool) : Scan Char := fun
  | [] => none
  | c :: rest => if p c then some (c, rest) else none

/-- One given character. -/
def one (c : Char) : Scan Char :=
  char (· == c)

/-- A given text. -/
def token (text : String) : Scan Unit :=
  text.toList.forM fun c => discard (one c)

/-- All characters of a class up to the first one outside it. -/
def chars (p : Char → Bool) : Scan (List Char) := fun s =>
  some (s.span p)

/-- At least one character of a class. -/
def chars1 (p : Char → Bool) : Scan (List Char) := do
  let first ← char p
  let rest ← chars p
  pure (first :: rest)

/-- What is read, if it is there. -/
def optional (x : Scan α) : Scan (Option α) :=
  some <$> x <|> pure none

/-- Succeeds if the next character is another one, or none. -/
def notNext (c : Char) : Scan Unit := fun s =>
  if s.head? = some c then none else some ((), s)

/-- Succeeds at the end of the text. -/
def finish : Scan Unit := fun s =>
  if s.isEmpty then some ((), s) else none

/-- The items at the front of a text, and what follows them. -/
def itemsOf (item : Scan α) (s : List Char) : List α × List Char :=
  match item s with
  | none => ([], s)
  | some (a, rest) =>
    if rest.length < s.length then
      let (as, rest') := itemsOf item rest
      (a :: as, rest')
    else ([], s)
termination_by s.length

/-- As many items as there are. -/
def many (item : Scan α) : Scan (List α) := fun s =>
  some (itemsOf item s)

/-- The items that follow, each behind a separator. -/
def sepBy1 (separator : Char) (item : Scan α) : Scan (List α) := do
  let first ← item
  let rest ← many (one separator *> item)
  pure (first :: rest)

/-- Items with a separator between any two of them. -/
def sepBy (separator : Char) (item : Scan α) : Scan (List α) :=
  sepBy1 separator item <|> pure []

/-- Exactly `n` items. -/
def exactly : Nat → Scan α → Scan (List α)
  | 0, _ => pure []
  | n + 1, item => do
    let first ← item
    let rest ← exactly n item
    pure (first :: rest)

end Scan

end UnitText.Toml
