import UnitText.Proofs.Names

/-!
One item for each text.

`Item.canon` picks one item out of all those with the same text.  It forgets in
which order positive and negative powers were mixed, whether a logarithmic
quantity is a gain or a level and whether it stands as the number of a quantity
without a unit, how a step of one is spelled, and that the dimensionless unit
has a marker.  Main statement: the item that is picked has the same text
(`Item.text_canon`).
-/

namespace UnitText

/-- A value made of whole numbers, expressed any number of times in the given
logarithmic units. -/
def Value.Over (logUnits : Set LogUnit) : Value → Prop
  | .int _ => True
  | .ratio _ => True
  | .complexInt _ _ => True
  | .log _ value unit => value.Over logUnits ∧ unit ∈ logUnits
  | .float _ => False
  | .complex _ _ => False
  | .custom _ => False

/-- A quantity of such a value and of a product of powers of the given units. -/
structure Quantity.Over (units : Set BaseUnit) (logUnits : Set LogUnit) (q : Quantity) :
    Prop where
  value : q.value.Over logUnits
  unit : q.unit.Over units

structure QuantityRange.Over (units : Set BaseUnit) (logUnits : Set LogUnit)
    (r : QuantityRange) : Prop where
  start : r.start.Over logUnits
  step : r.step.Over logUnits
  stop : r.stop.Over logUnits
  unit : r.unit.Over units

def Item.Over (units : Set BaseUnit) (logUnits : Set LogUnit) : Item → Prop
  | .quantity q => q.Over units logUnits
  | .log q => q.toValue.Over logUnits
  | .range r => r.Over units logUnits
  | .units e => e.Over units
  | .noUnits => True

/-- The value with all levels taken for gains. -/
def Value.canon : Value → Value
  | .log _ value unit => .log .gain value.canon unit
  | v => v

/-- The product with its negative powers behind all others. -/
def UnitExpr.canon (e : UnitExpr) : UnitExpr :=
  ⟨e.atoms.filter (fun a => 0 ≤ a.exponent.toRat) ++
    e.atoms.filter fun a => a.exponent.toRat < 0⟩

def Quantity.canon (q : Quantity) : Quantity :=
  ⟨q.value.canon, q.unit.canon⟩

/-- The range with a step of one spelled as a whole number. -/
def QuantityRange.canon (r : QuantityRange) : QuantityRange where
  start := r.start.canon
  step := if r.hasUnitStep then .int 1 else r.step.canon
  stop := r.stop.canon
  unit := r.unit.canon

/-- The one item that stands for all items with the same text. -/
def Item.canon : Item → Item
  | .quantity q => .quantity q.canon
  | .log q => .quantity ⟨q.toValue.canon, .dimensionless⟩
  | .range r => .range r.canon
  | .units e => if e.isDimensionless then .noUnits else .units e.canon
  | .noUnits => .noUnits

namespace UnitExpr

variable (e : UnitExpr)

theorem canon_eq : e.canon = ⟨e.ordered⟩ := by
  rw [canon, ordered_eq_sign]

@[simp] theorem ordered_canon : e.canon.ordered = e.ordered := by
  rw [canon_eq]
  simp [ordered_eq, List.filter_filter]

@[simp] theorem size_canon : e.canon.size = e.size := by
  rw [canon_eq]
  exact e.ordered_perm.length_eq

@[simp] theorem isDimensionless_canon : e.canon.isDimensionless = e.isDimensionless := by
  rw [canon_eq]
  exact e.ordered_perm.isEmpty_eq

@[simp] theorem text_canon (c : Context) : e.canon.text c = e.text c :=
  text_eq_of_ordered_eq c e.ordered_canon

end UnitExpr

namespace Value

variable (v : Value)

@[simp] theorem needsGroup_canon : v.canon.needsGroup = v.needsGroup := by
  cases v <;> rfl

@[simp] theorem isOne_canon : v.canon.isOne = v.isOne := by
  cases v <;> rfl

@[simp] theorem text_canon (o : Options) (c : Context) : v.canon.text o c = v.text o c := by
  induction v with
  | int | float | ratio | complex | complexInt | custom => rfl
  | log kind value unit ih => simp [canon, text, ih]

end Value

namespace QuantityRange

variable (r : QuantityRange)

@[simp] theorem hasUnitStep_canon : r.canon.hasUnitStep = r.hasUnitStep := by
  by_cases hstep : r.hasUnitStep
  · rw [hasUnitStep, canon, if_pos hstep, hstep]
    rfl
  · rw [hasUnitStep, canon, if_neg hstep, Value.isOne_canon]
    rfl

@[simp] theorem boundsText_canon (o : Options) (c : Context) :
    r.canon.boundsText o c = r.boundsText o c := by
  rw [boundsText, boundsText, hasUnitStep_canon]
  by_cases hstep : r.hasUnitStep
  · simp [hstep, canon]
  · simp [hstep, canon]

end QuantityRange

/-- Nothing is written that the canonical item does not show. -/
theorem Item.text_canon (o : Options) (c : Context) (x : Item) :
    x.canon.text o c = x.text o c := by
  cases x with
  | quantity q => simp [canon, text, Quantity.canon, Quantity.text, Options.groupsUnit]
  | log q => exact q.toValue.text_canon o c
  | range r =>
      have hunit : r.canon.unit = r.unit.canon := rfl
      simp [canon, text, QuantityRange.text, Options.groupsUnit, hunit]
  | units e =>
      by_cases he : e.isDimensionless
      · simp [canon, text, UnitExpr.textAlone, he]
      · simp [canon, text, UnitExpr.textAlone, he]
  | noUnits => rfl

end UnitText
