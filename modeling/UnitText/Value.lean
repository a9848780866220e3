import UnitText.Binary64
import UnitText.UnitExpr

/-!
Everything that can be written: numeric values, quantities, logarithmic
quantities, ranges and plain units.
-/

namespace UnitText

/-- Whether a logarithmic quantity is a ratio of two quantities or a value
against a fixed reference. -/
inductive LogKind where
  | gain
  | level
deriving DecidableEq, Repr

/-- A number of a foreign kind, known by the text it is printed as. -/
structure CustomNumber where
  text : String
  /-- Whether the text is grouped before a unit follows.  Unless the kind says
  otherwise, all but plain digits are. -/
  needsGroup : Bool := !text.toList.all Char.isDigit
  /-- Whether the number equals one, by default if it is printed as one. -/
  isOne : Bool := text == "1"
deriving DecidableEq, Repr

/-- The numeric part of a quantity. -/
inductive Value where
  | int (n : Int)
  | float (x : Binary64)
  | ratio (q : Ratio 64)
  | complex (re im : Binary64)
  | complexInt (re im : Int)
  /-- A logarithmic quantity that serves as a number. -/
  | log (kind : LogKind) (value : Value) (unit : LogUnit)
  | custom (c : CustomNumber)
deriving DecidableEq, Repr

/-- Whether the value is exactly one. -/
def Value.isOne : Value → Bool
  | .int n => n == 1
  | .float x => x.isOne
  | .ratio q => q.isInt 1
  | .complex re im => re.isOne && im.isZero
  | .complexInt re im => re == 1 && im == 0
  | .log .. => false
  | .custom c => c.isOne

/-- A number tagged with a unit. -/
structure Quantity where
  value : Value
  unit : UnitExpr
deriving DecidableEq, Repr

/-- A number expressed in a logarithmic unit. -/
structure LogQuantity where
  kind : LogKind
  value : Value
  unit : LogUnit
deriving DecidableEq, Repr

/-- A logarithmic quantity as a number. -/
def LogQuantity.toValue (q : LogQuantity) : Value :=
  .log q.kind q.value q.unit

/-- An arithmetic range of quantities that share one unit; the bounds and the
step are kept without it. -/
structure QuantityRange where
  start : Value
  step : Value := .int 1
  stop : Value
  unit : UnitExpr
deriving DecidableEq, Repr

/-- Whether the range steps by exactly one unit. -/
def QuantityRange.hasUnitStep (r : QuantityRange) : Bool :=
  r.step.isOne

/-- Whatever can be written. -/
inductive Item where
  | quantity (q : Quantity)
  | log (q : LogQuantity)
  | range (r : QuantityRange)
  | units (e : UnitExpr)
  /-- The marker of the dimensionless unit. -/
  | noUnits
deriving DecidableEq, Repr

example : ({ text := "12345" } : CustomNumber).needsGroup = false := by
  decide +kernel

example : ({ text := "-5" } : CustomNumber).needsGroup := by
  decide +kernel

/-- A negative zero is zero. -/
example : (Value.complex .one ⟨0x8000000000000000⟩).isOne := by
  decide +kernel

end UnitText
