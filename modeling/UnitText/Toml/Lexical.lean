import UnitText.Toml.Scan
import UnitText.Toml.Table

/-!
The words of TOML documents: blanks, comments, strings, numbers, dates.
-/

namespace UnitText.Toml

open Scan

def isAscii (c : Char) : Bool :=
  c.toNat < 0x80

/-- Spaces and tabs. -/
def isSpace (c : Char) : Bool :=
  c == ' ' || c == '\t'

/-- Characters that may stand in comments: all but control characters, of which
the tab alone is allowed. -/
def isPrintable (c : Char) : Bool :=
  c == '\t' || !isAscii c || (0x20 ≤ c.toNat && c.toNat ≤ 0x7e)

/-- Characters that stand for themselves between double quotes. -/
def isBasic (c : Char) : Bool :=
  isPrintable c && c != '"' && c != '\\'

/-- Characters that may stand between single quotes. -/
def isLiteral (c : Char) : Bool :=
  isPrintable c && c != '\''

/-- Characters of keys without quotes. -/
def isBare (c : Char) : Bool :=
  c.isAlphanum || c == '-' || c == '_'

def isHexDigit (c : Char) : Bool :=
  c.isDigit || ('a' ≤ c && c ≤ 'f') || ('A' ≤ c && c ≤ 'F')

/-- The value of a digit, letters counting on from ten. -/
def digitValue (c : Char) : Nat :=
  if c.isDigit then c.toNat - '0'.toNat
  else c.toLower.toNat - 'a'.toNat + 10

/-- The number that digits stand for in a base. -/
def ofDigits (base : Nat) (digits : List Char) : Nat :=
  digits.foldl (fun n c => base * n + digitValue c) 0

namespace Scan

/-! ### Blanks and comments -/

/-- Blanks within a line. -/
def spaces : Scan Unit :=
  discard (chars isSpace)

/-- The end of a line. -/
def newline : Scan Unit :=
  token "\n" <|> token "\r\n"

/-- A comment, up to the end of its line. -/
def comment : Scan Unit := do
  discard (one '#')
  discard (chars isPrintable)

/-- Blanks, comments and ends of lines. -/
def gap : Scan Unit :=
  discard (many (discard (chars1 isSpace) <|> (comment *> newline) <|> newline))

/-! ### Strings -/

/-- The character of a code point given by exactly `n` hexadecimal digits. -/
def codePoint (n : Nat) : Scan Char := do
  let digits ← exactly n (char isHexDigit)
  let code := ofDigits 16 digits
  if code.isValidChar then pure (Char.ofNat code) else failure

/-- A character behind a backslash. -/
def escaped : Scan Char := do
  discard (one '\\')
  match ← char fun _ => true with
  | 'b' => pure '\x08'
  | 'f' => pure '\x0c'
  | 'n' => pure '\n'
  | 'r' => pure '\r'
  | 't' => pure '\t'
  | '"' => pure '"'
  | '\\' => pure '\\'
  | 'u' => codePoint 4
  | 'U' => codePoint 8
  | _ => failure

/-- A string on one line between double quotes. -/
def basicString : Scan String := do
  discard (one '"')
  let pieces ← many (chars1 isBasic <|> List.singleton <$> escaped)
  discard (one '"')
  pure (String.ofList pieces.flatten)

/-- A string on one line between single quotes. -/
def literalString : Scan String := do
  discard (one '\'')
  let body ← chars isLiteral
  discard (one '\'')
  pure (String.ofList body)

/-- A backslash at the end of a line, which takes away the blanks and ends of
lines up to the next character. -/
def lineContinuation : Scan Unit := do
  discard (one '\\')
  spaces
  newline
  discard (many (discard (chars1 isSpace) <|> newline))

/-- One quote or two that do not end a string of several lines. -/
def innerQuotes (quote : Char) : Scan (List Char) :=
  (exactly 2 (one quote) <* notNext quote) <|> (exactly 1 (one quote) <* notNext quote)

/-- The three quotes that end a string of several lines.  Up to two more quotes
right before them belong to the string. -/
def closingQuotes (quote : Char) : Scan (List Char) := do
  let quotes ← exactly 5 (one quote) <|> exactly 4 (one quote) <|> exactly 3 (one quote)
  pure (quotes.drop 3)

/-- A string of several lines, made up of pieces.  An end of line right behind
the opening quotes is no part of it. -/
def longString (quote : Char) (piece : Scan (List Char)) : Scan String := do
  discard (exactly 3 (one quote))
  discard (optional newline)
  let pieces ← many piece
  let last ← closingQuotes quote
  pure (String.ofList (pieces.flatten ++ last))

/-- An end of line as a part of a string. -/
def lineBreak : Scan (List Char) :=
  newline *> pure ['\n']

def longBasicString : Scan String :=
  longString '"' <|
    chars1 isBasic <|> (lineContinuation *> pure []) <|> List.singleton <$> escaped
      <|> lineBreak <|> innerQuotes '"'

def longLiteralString : Scan String :=
  longString '\'' (chars1 isLiteral <|> lineBreak <|> innerQuotes '\'')

def string : Scan Node :=
  Node.string <$>
    (longBasicString <|> basicString <|> longLiteralString <|> literalString)

/-! ### Numbers -/

/-- Digits, single underscores between them allowed. -/
def digits (isDigit : Char → Bool) : Scan (List Char) := do
  let first ← char isDigit
  let rest ← many (char isDigit <|> (one '_' *> char isDigit))
  pure (first :: rest)

/-- Whether there is a minus sign; a plus sign may stand instead. -/
def sign : Scan Bool :=
  (one '-' *> pure true) <|> (one '+' *> pure false) <|> pure false

/-- Decimal digits that do not begin with a zero, or a zero alone. -/
def wholeDigits : Scan (List Char) :=
  (notNext '0' *> digits Char.isDigit) <|> List.singleton <$> one '0'

/-- A whole number of 64 bits. -/
def integer : Scan Node := do
  let n ← based <|> decimal
  if -Int.pow 2 63 ≤ n ∧ n < Int.pow 2 63 then pure (.integer n) else failure
where
  based : Scan Int := do
    discard (one '0')
    match ← char fun _ => true with
    | 'x' => (fun ds => (ofDigits 16 ds : Int)) <$> digits isHexDigit
    | 'o' => (fun ds => (ofDigits 8 ds : Int)) <$> digits (fun c => '0' ≤ c && c ≤ '7')
    | 'b' => (fun ds => (ofDigits 2 ds : Int)) <$> digits (fun c => c == '0' || c == '1')
    | _ => failure
  decimal : Scan Int := do
    let negative ← sign
    let ds ← wholeDigits
    let n : Int := ofDigits 10 ds
    pure (if negative then -n else n)

/-- The digits behind a decimal point. -/
def fractionPart : Scan (List Char) :=
  one '.' *> digits Char.isDigit

/-- The power of ten behind the letter e. -/
def exponentPart : Scan Int := do
  discard (char fun c => c == 'e' || c == 'E')
  let negative ← sign
  let ds ← digits Char.isDigit
  let n : Int := ofDigits 10 ds
  pure (if negative then -n else n)

end Scan

/-- Whether `m * 10 ^ e` is read as infinity: it reaches the midpoint between
the greatest finite binary number and the power of two beyond it. -/
def exceedsBinary64 (m : Nat) (e : Int) : Bool :=
  let size := (Nat.toDigits 10 m).length + e
  if m = 0 ∨ size < 309 then false
  else if 309 < size then true
  else
    (Nat.pow 2 1024 - Nat.pow 2 970) * Nat.pow 10 (-e).toNat ≤ m * Nat.pow 10 e.toNat

namespace Scan

/-- A number with a fraction or a power of ten.  A positive number too large to
be finite is refused. -/
def decimalFloat : Scan Node := do
  let negative ← sign
  let whole ← wholeDigits
  let (part, power) ← (do
      let part ← fractionPart
      let power ← optional exponentPart
      pure (part, power.getD 0)) <|> (do
      let power ← exponentPart
      pure ([], power))
  let tooLarge := exceedsBinary64 (ofDigits 10 (whole ++ part)) (power - part.length)
  if tooLarge && !negative then failure else pure .float

/-- The words for infinity and for what is not a number. -/
def specialFloat : Scan Node := do
  discard sign
  token "inf" <|> token "nan"
  pure .float

def boolean : Scan Node :=
  (token "true" *> pure (.boolean true)) <|> (token "false" *> pure (.boolean false))

/-! ### Dates and times -/

/-- A number of exactly `n` digits between two bounds. -/
def field (n first last : Nat) : Scan Nat := do
  let ds ← exactly n (char Char.isDigit)
  let value := ofDigits 10 ds
  if first ≤ value ∧ value ≤ last then pure value else failure

/-- The number of days of a month. -/
def daysIn (year month : Nat) : Nat :=
  if month = 2 then
    if year % 4 = 0 ∧ (year % 100 ≠ 0 ∨ year % 400 = 0) then 29 else 28
  else if month ∈ [4, 6, 9, 11] then 30
  else 31

def calendarDate : Scan Unit := do
  let year ← field 4 0 9999
  discard (one '-')
  let month ← field 2 1 12
  discard (one '-')
  discard (field 2 1 (daysIn year month))

/-- A time of day.  A minute may have a leap second. -/
def timeOfDay : Scan Unit := do
  discard (field 2 0 23)
  discard (one ':')
  discard (field 2 0 59)
  discard (one ':')
  discard (field 2 0 60)
  discard (optional (one '.' *> chars1 Char.isDigit))

/-- The distance of a time from universal time. -/
def timeOffset : Scan Unit :=
  discard (char fun c => c == 'Z' || c == 'z') <|> do
    discard (char fun c => c == '+' || c == '-')
    discard (field 2 0 23)
    discard (one ':')
    discard (field 2 0 59)

def date : Scan Node :=
  (dated <|> timeOfDay) *> pure .date
where
  dated : Scan Unit := do
    calendarDate
    discard (optional (char (fun c => c == 'T' || c == 't' || c == ' ') *> timeOfDay
      *> optional timeOffset))

/-- A value that holds no other values. -/
def scalar : Scan Node :=
  string <|> boolean <|> date <|> decimalFloat <|> specialFloat <|> integer

end Scan

end UnitText.Toml
