/-!
Decimal prefixes of units: the kilo of kilometre, the micro of microsecond.
-/

namespace UnitText

/-- A decimal prefix, from the smallest magnitude to the largest; `none` is the
unprefixed unit and is written as nothing. -/
inductive Prefix where
  | yocto | zepto | atto | femto | pico | nano | micro | milli | centi | deci
  | none
  | deca | hecto | kilo | mega | giga | tera | peta | exa | zetta | yotta
deriving DecidableEq, Repr

namespace Prefix

/-- All prefixes in ascending order of magnitude. -/
def all : List Prefix :=
  [.yocto, .zepto, .atto, .femto, .pico, .nano, .micro, .milli,
   .centi, .deci, .none, .deca, .hecto, .kilo, .mega,
   .giga, .tera, .peta, .exa, .zetta, .yotta]

/-- The text that a prefix puts in front of a unit's identifier. -/
def symbol : Prefix → String
  | .yocto => "y"
  | .zepto => "z"
  | .atto => "a"
  | .femto => "f"
  | .pico => "p"
  | .nano => "n"
  | .micro => "μ"
  | .milli => "m"
  | .centi => "c"
  | .deci => "d"
  | .none => ""
  | .deca => "da"
  | .hecto => "h"
  | .kilo => "k"
  | .mega => "M"
  | .giga => "G"
  | .tera => "T"
  | .peta => "P"
  | .exa => "E"
  | .zetta => "Z"
  | .yotta => "Y"

/-- The position of a prefix in ascending order. -/
def rank (p : Prefix) : Nat :=
  p.ctorIdx

instance : Inhabited Prefix := ⟨none⟩

instance : ToString Prefix := ⟨symbol⟩

instance : Ord Prefix := ⟨fun p q => compare p.rank q.rank⟩

theorem mem_all (p : Prefix) : p ∈ all := by
  cases p <;> decide

/-- A prefix is known by its symbol. -/
theorem symbol_injective {p q : Prefix} (h : p.symbol = q.symbol) : p = q := by
  revert h
  cases p <;> cases q <;> decide

example : all.map rank = List.range 21 := by
  decide

example : symbol default = "" ∧ compare micro milli = .lt := by
  decide

end Prefix

end UnitText
