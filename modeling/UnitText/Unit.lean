/-!
What units are known by.

A base unit and a logarithmic unit are each known by a pair of texts, the
unit's unique name and the short spelling that a reader of unit text is
expected to recognise.  Two units are the same exactly when both texts agree.
-/

namespace UnitText

/-- The pair of texts that a unit is known by. -/
structure Identity where
  /-- The unique name. -/
  name : String
  /-- The default short spelling. -/
  abbreviation : String
deriving DecidableEq, Repr

namespace Identity

/-- Identities are ordered by name and then by abbreviation, each text by its
code points. -/
instance : Ord Identity :=
  ⟨fun x y => (compare x.name y.name).then (compare x.abbreviation y.abbreviation)⟩

instance : ToString Identity := ⟨abbreviation⟩

end Identity

/-- A primitive, unprefixed unit such as the metre. -/
structure BaseUnit extends Identity
deriving DecidableEq, Repr

instance : Ord BaseUnit := ⟨fun x y => compare x.toIdentity y.toIdentity⟩

/-- A logarithmic unit such as the decibel.  It is atomic: it has no prefix, no
exponent and no place in a product of units. -/
structure LogUnit extends Identity
deriving DecidableEq, Repr

instance : Ord LogUnit := ⟨fun x y => compare x.toIdentity y.toIdentity⟩

end UnitText
