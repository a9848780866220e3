/-!
Flags as they are given in an environment.

A flag is on if its value is the word `true` in any mixture of cases, with white
space around it or not.  Any other value leaves it off, and so does a value that
is missing or is no text.
-/

namespace UnitText

/-- The code points of white space, as ranges with both ends included. -/
def blankRanges : List (Nat × Nat) :=
  [(0x9, 0xd), (0x20, 0x20), (0x85, 0x85), (0xa0, 0xa0), (0x1680, 0x1680),
   (0x2000, 0x200a), (0x2028, 0x2029), (0x202f, 0x202f), (0x205f, 0x205f),
   (0x3000, 0x3000)]

/-- Whether a character is white space. -/
def isBlank (c : Char) : Bool :=
  blankRanges.any fun (first, last) => first ≤ c.toNat && c.toNat ≤ last

/-- A text without the white space around it. -/
def trimBlank (cs : List Char) : List Char :=
  ((cs.dropWhile isBlank).reverse.dropWhile isBlank).reverse

/-- Whether a text says that a flag is on.  Only the case of ASCII letters is
disregarded. -/
def flagIsOn (text : String) : Bool :=
  (trimBlank text.toList).map Char.toLower == "true".toList

/-- Whether the bytes of an environment variable say that a flag is on. -/
def flagBytesAreOn (value : Option ByteArray) : Bool :=
  match value.bind String.fromUTF8? with
  | some text => flagIsOn text
  | none => false

example : (blankRanges.map fun (first, last) => last + 1 - first).sum = 25 := by
  decide

example : flagIsOn " \tTrUe\n" ∧ !flagIsOn "t rue" ∧ !flagIsOn "" := by
  decide +kernel

end UnitText
