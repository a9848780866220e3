import UnitText.Proofs.Scan
import UnitText.Writing.Item

/-!
The texts of things in a context, written without any memory.

These functions follow the writing of items, but take every name from a scan of
the context.  Main statement: whatever a resolver has done before, it writes
these texts (`Item.write_gives`), so what is shown of them holds of all writing.
-/

namespace UnitText

/-- The identifier by which a context names a unit. -/
def Context.unitIdentifier (c : Context) (unit : BaseUnit) : String :=
  (c.scanUnit unit).identifier

/-- The identifier by which a context names a logarithmic unit. -/
def Context.logIdentifier (c : Context) (unit : LogUnit) : String :=
  (c.scanLogUnit unit).identifier

/-- The name of a unit with a prefix in a context. -/
def Context.unitName (c : Context) (scale : Prefix) (unit : BaseUnit) : String :=
  scale.symbol ++ c.unitIdentifier unit

/-- The text of a unit expression. -/
def UnitExpr.text (c : Context) (e : UnitExpr) : String :=
  .join (e.factors.map fun f => f.text (c.unitIdentifier f.unit))

/-- The text of a logarithmic unit behind a value. -/
def Options.logUnitText (o : Options) (identifier : String) : String :=
  if o.literal then quoteUnit identifier else identifier

/-- The text of a value. -/
def Value.text (o : Options) (c : Context) : Value → String
  | .int n => intText n
  | .float x => x.text
  | .ratio q => q.text
  | .complex re im => complexText re.text im.isNegative im.magnitudeText
  | .complexInt re im => complexText (intText re) (im < 0) (toString im.natAbs)
  | .log _ value unit =>
    juxtapose (value.text o c) value.needsGroup (o.logUnitText (c.logIdentifier unit))
      o.groupsLogUnit
  | .custom n => n.text

/-- The text of a unit on its own. -/
def UnitExpr.textAlone (o : Options) (c : Context) (e : UnitExpr) : String :=
  if e.isDimensionless then noUnitsText else o.unitText (e.text c)

/-- The text of a quantity. -/
def Quantity.text (o : Options) (c : Context) (q : Quantity) : String :=
  if q.unit.isDimensionless then q.value.text o c
  else
    juxtapose (q.value.text o c) q.value.needsGroup (o.unitText (q.unit.text c))
      (o.groupsUnit q.unit)

/-- The text of the bounds of a range and of the step between them. -/
def QuantityRange.boundsText (o : Options) (c : Context) (r : QuantityRange) : String :=
  if r.hasUnitStep then r.start.text o c ++ ":" ++ r.stop.text o c
  else r.start.text o c ++ ":" ++ r.step.text o c ++ ":" ++ r.stop.text o c

/-- The text of a range. -/
def QuantityRange.text (o : Options) (c : Context) (r : QuantityRange) : String :=
  if r.unit.isDimensionless then group true (r.boundsText o c)
  else juxtapose (r.boundsText o c) true (o.unitText (r.unit.text c)) (o.groupsUnit r.unit)

/-- The text of an item. -/
def Item.text (o : Options) (c : Context) : Item → String
  | .quantity q => q.text o c
  | .log q => q.toValue.text o c
  | .range r => r.text o c
  | .units e => e.textAlone o c
  | .noUnits => noUnitsText

variable {world : World} {c : Context}

/-- Work on the members of a list, one after the other. -/
theorem Gives.mapM {α β : Type} {work : α → Lookup β} {answer : α → β}
    (hwork : ∀ a, Gives world (work a) (answer a)) (as : List α) :
    Gives world (as.mapM work) (as.map answer) := by
  induction as with
  | nil => exact .pure []
  | cons a as ih =>
      rw [List.mapM_cons]
      exact (hwork a).bind (ih.bind (.pure _))

theorem UnitExpr.write_gives (hc : c.Within world) (e : UnitExpr) :
    Gives world (e.write c) (e.text c) := by
  refine Gives.bind (Gives.mapM (fun f => ?_) e.factors) (.pure _)
  exact (Resolver.resolveUnit_gives hc f.unit).bind (.pure _)

theorem Value.write_gives (hc : c.Within world) (o : Options) (v : Value) :
    Gives world (v.write o c) (v.text o c) := by
  induction v with
  | int | float | ratio | complex | complexInt | custom => exact .pure _
  | log kind value unit ih =>
      exact (Resolver.resolveLogUnit_gives hc unit).bind (ih.bind (.pure _))

theorem UnitExpr.writeAlone_gives (hc : c.Within world) (o : Options) (e : UnitExpr) :
    Gives world (Writable.write o c e) (e.textAlone o c) := by
  simp only [Writable.write, textAlone]
  split
  · exact .pure _
  · exact (e.write_gives hc).bind (.pure _)

theorem Quantity.write_gives (hc : c.Within world) (o : Options) (q : Quantity) :
    Gives world (Writable.write o c q) (q.text o c) := by
  apply (q.value.write_gives hc o).bind
  unfold Quantity.text
  split
  · exact .pure _
  · exact (q.unit.write_gives hc).bind (.pure _)

theorem LogQuantity.write_gives (hc : c.Within world) (o : Options) (q : LogQuantity) :
    Gives world (Writable.write o c q) (q.toValue.text o c) :=
  q.toValue.write_gives hc o

theorem QuantityRange.writeBounds_gives (hc : c.Within world) (o : Options)
    (r : QuantityRange) : Gives world (r.writeBounds o c) (r.boundsText o c) := by
  apply (r.start.write_gives hc o).bind
  unfold boundsText
  split
  · exact (r.stop.write_gives hc o).bind (.pure _)
  · exact (r.step.write_gives hc o).bind ((r.stop.write_gives hc o).bind (.pure _))

theorem QuantityRange.write_gives (hc : c.Within world) (o : Options) (r : QuantityRange) :
    Gives world (Writable.write o c r) (r.text o c) := by
  apply (r.writeBounds_gives hc o).bind
  unfold QuantityRange.text
  split
  · exact .pure _
  · exact (r.unit.write_gives hc).bind (.pure _)

/-- A resolver writes what a scan writes. -/
theorem Item.write_gives (hc : c.Within world) (o : Options) (x : Item) :
    Gives world (Writable.write o c x) (x.text o c) := by
  cases x with
  | quantity q => exact q.write_gives hc o
  | log q => exact q.write_gives hc o
  | range r => exact r.write_gives hc o
  | units e => exact e.writeAlone_gives hc o
  | noUnits => exact .pure _

end UnitText
