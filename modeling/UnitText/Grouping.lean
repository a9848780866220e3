import UnitText.Value

/-!
When a value or a unit is put into parentheses.

With the option `literal` unit text is written as a quoted literal, which
delimits itself.
-/

namespace UnitText

/-- What can be chosen about a text. -/
structure Options where
  /-- Whether unit text is written as a quoted literal. -/
  literal : Bool := false
deriving DecidableEq, Repr

/-- Whether the text of a value is grouped before a unit follows. -/
def Value.needsGroup : Value → Bool
  | .int _ => false
  | .float _ => false
  | .ratio _ => true
  | .complex .. => true
  | .complexInt .. => true
  | .log .. => true
  | .custom c => c.needsGroup

/-- Whether a unit behind a value is grouped: if it has several atoms and does
not delimit itself. -/
def Options.groupsUnit (o : Options) (e : UnitExpr) : Bool :=
  1 < e.size && !o.literal

/-- Whether a logarithmic unit behind a value is grouped. -/
def Options.groupsLogUnit (o : Options) : Bool :=
  !o.literal

end UnitText
