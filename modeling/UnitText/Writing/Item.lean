import UnitText.Writing.Unit

/-!
The texts of quantities, logarithmic quantities, ranges and plain units.

Value text and unit text stand next to each other, each grouped as needed, and
a `*` goes between them only if both are grouped: `(1 + 2i)m` and `2(m/s)` need
no operator, `(1 + 2i)*(m/s)` does.
-/

namespace UnitText

/-- What is written for the dimensionless unit. -/
def noUnitsText : String :=
  "NoUnits"

/-- A text in parentheses, if it needs them. -/
def group (needed : Bool) (text : String) : String :=
  if needed then "(" ++ text ++ ")" else text

/-- A value text followed by a unit text, each with the word on whether it is
grouped. -/
def juxtapose (value : String) (groupValue : Bool) (unit : String) (groupUnit : Bool) :
    String :=
  group groupValue value ++ (if groupValue && groupUnit then "*" else "")
    ++ group groupUnit unit

/-- The text of a value.  The unit of a logarithmic quantity is looked up before
its number is written. -/
def Value.write (o : Options) (c : Context) : Value → Lookup String
  | .int n => pure (intText n)
  | .float x => pure x.text
  | .ratio q => pure q.text
  | .complex re im => pure (complexText re.text im.isNegative im.magnitudeText)
  | .complexInt re im => pure (complexText (intText re) (im < 0) (toString im.natAbs))
  | .log _ value unit => do
    let name ← Resolver.resolveLogUnit c unit
    let text ← value.write o c
    let units := if o.literal then quoteUnit name.identifier else name.identifier
    pure (juxtapose text value.needsGroup units o.groupsLogUnit)
  | .custom n => pure n.text

/-- What can be written in a context. -/
class Writable (α : Type) where
  /-- The text, with the lookups that it takes. -/
  write : Options → Context → α → Lookup String

/-- A unit on its own; the dimensionless unit has a marker of its own. -/
instance : Writable UnitExpr where
  write o c e :=
    if e.isDimensionless then pure noUnitsText
    else do
      let units ← e.write c
      pure (o.unitText units)

/-- A quantity; one with the dimensionless unit is its bare value. -/
instance : Writable Quantity where
  write o c q := do
    let value ← q.value.write o c
    if q.unit.isDimensionless then pure value
    else do
      let units ← q.unit.write c
      pure (juxtapose value q.value.needsGroup (o.unitText units) (o.groupsUnit q.unit))

instance : Writable LogQuantity where
  write o c q := q.toValue.write o c

/-- The bounds of a range with its step between them, which is left out if it
is one. -/
def QuantityRange.writeBounds (o : Options) (c : Context) (r : QuantityRange) :
    Lookup String := do
  let start ← r.start.write o c
  if r.hasUnitStep then
    let stop ← r.stop.write o c
    pure (start ++ ":" ++ stop)
  else
    let step ← r.step.write o c
    let stop ← r.stop.write o c
    pure (start ++ ":" ++ step ++ ":" ++ stop)

/-- A range; its bounds are always grouped. -/
instance : Writable QuantityRange where
  write o c r := do
    let bounds ← r.writeBounds o c
    if r.unit.isDimensionless then pure (group true bounds)
    else do
      let units ← r.unit.write c
      pure (juxtapose bounds true (o.unitText units) (o.groupsUnit r.unit))

instance : Writable Item where
  write o c
    | .quantity q => Writable.write o c q
    | .log q => Writable.write o c q
    | .range r => Writable.write o c r
    | .units e => Writable.write o c e
    | .noUnits => pure noUnitsText

end UnitText
