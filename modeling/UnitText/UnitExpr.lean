import UnitText.Exponent
import UnitText.Prefix
import UnitText.Unit

/-!
Products of powers of units.

A unit expression keeps its atoms in the order in which they were first added.
An atom whose base is already present is folded into the atom that has it, and
an atom whose exponent has become zero is dropped, so every expression that is
built by the operations below is `Normal`: no base occurs twice and no exponent
is zero.  Building fails only if the arithmetic of exponents overflows.
-/

namespace UnitText

/-- One unit, possibly prefixed, raised to a power. -/
structure Atom where
  scale : Prefix
  unit : BaseUnit
  exponent : Exponent
deriving DecidableEq, Repr

namespace Atom

/-- The unprefixed unit to the first power. -/
def ofUnit (unit : BaseUnit) : Atom :=
  ⟨.none, unit, .one⟩

/-- What an atom is a power of. -/
def base (a : Atom) : Prefix × BaseUnit :=
  (a.scale, a.unit)

/-- The same base to another power. -/
def withExponent (a : Atom) (exponent : Exponent) : Atom :=
  { a with exponent }

/-- Whether the atom is just its unit: no prefix and the exponent one. -/
def isBare (a : Atom) : Bool :=
  a.scale == .none && a.exponent.isInt 1

end Atom

/-- The atoms of a product after one more factor. -/
def insertAtom (t : Atom) : List Atom → Except ArithmeticError (List Atom)
  | [] => pure (if t.exponent.isInt 0 then [] else [t])
  | a :: rest => do
    if a.base = t.base then
      let total ← a.exponent.add t.exponent
      pure (if total.isInt 0 then rest else t.withExponent total :: rest)
    else
      let rest' ← insertAtom t rest
      pure (a :: rest')

/-- A product of unit atoms; the empty product is the dimensionless unit. -/
structure UnitExpr where
  atoms : List Atom
deriving DecidableEq, Repr

namespace UnitExpr

/-- No base occurs twice and no exponent is zero. -/
def Normal (e : UnitExpr) : Prop :=
  (e.atoms.map Atom.base).Nodup ∧ ∀ a ∈ e.atoms, a.exponent.num ≠ 0

instance (e : UnitExpr) : Decidable e.Normal :=
  inferInstanceAs (Decidable (_ ∧ _))

/-- The unit of a pure number. -/
def dimensionless : UnitExpr :=
  ⟨[]⟩

instance : Inhabited UnitExpr := ⟨dimensionless⟩

/-- The number of atoms. -/
def size (e : UnitExpr) : Nat :=
  e.atoms.length

/-- Whether the expression is the unit of a pure number. -/
def isDimensionless (e : UnitExpr) : Bool :=
  e.atoms.isEmpty

/-- The product with one more atom. -/
def push (e : UnitExpr) (a : Atom) : Except ArithmeticError UnitExpr := do
  let atoms ← insertAtom a e.atoms
  pure ⟨atoms⟩

/-- The product of a list of atoms, folded from left to right. -/
def ofAtoms (atoms : List Atom) : Except ArithmeticError UnitExpr :=
  atoms.foldlM push dimensionless

/-- A single atom whose exponent is one. -/
def ofUnit (unit : BaseUnit) (scale : Prefix := .none) : UnitExpr :=
  ⟨[⟨scale, unit, .one⟩]⟩

/-- The unit that the expression stands for when it is one bare atom. -/
def bareUnit? (e : UnitExpr) : Option BaseUnit :=
  match e.atoms with
  | [a] => if a.isBare then some a.unit else none
  | _ => none

/-- The product: the atoms of the right factor are added to the left one. -/
def mul (x y : UnitExpr) : Except ArithmeticError UnitExpr :=
  y.atoms.foldlM push x

/-- Every atom raised to a power. -/
def pow (e : UnitExpr) (power : Exponent) : Except ArithmeticError UnitExpr := do
  let atoms ← e.atoms.mapM fun a => do
    let exponent ← a.exponent.mul power
    pure (a.withExponent exponent)
  ofAtoms atoms

/-- The reciprocal unit. -/
def inv (e : UnitExpr) : Except ArithmeticError UnitExpr :=
  e.pow .minusOne

/-- The quotient: the product with the reciprocal. -/
def div (x y : UnitExpr) : Except ArithmeticError UnitExpr := do
  let reciprocal ← y.inv
  x.mul reciprocal

/-- An expression stands for a unit exactly when it is that unit alone. -/
theorem bareUnit?_ofUnit (unit : BaseUnit) (scale : Prefix) :
    (ofUnit unit scale).bareUnit? = if scale = .none then some unit else none := by
  cases scale <;> rfl

example : (ofUnit ⟨"Meter", "m"⟩).inv.toOption =
    some ⟨[⟨.none, ⟨"Meter", "m"⟩, .minusOne⟩]⟩ := by
  decide +kernel

example : ((ofUnit ⟨"Meter", "m"⟩).div (ofUnit ⟨"Meter", "m"⟩)).toOption =
    some dimensionless := by
  decide +kernel

end UnitExpr

end UnitText
