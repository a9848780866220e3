import UnitText.Proofs.Providers

/-!
What the option `literal` changes.

The option is asked in three places, and each of them only arranges texts that were made
before.  So the lookups of an item are the same in both modes, one after the other
(`Item.write_seeks`), and with them all that a resolver remembers and records.  Unless there
are logarithmic quantities among the numbers of an item, the texts of its numbers and of its
units are the same too, and only the signs around the units differ.  Main statement:
`Item.literal_only_regroups`.
-/

namespace UnitText

/-- What can be looked up in a context. -/
inductive Sought where
  | unit (unit : BaseUnit)
  | logUnit (unit : LogUnit)
deriving DecidableEq, Repr

namespace Resolver

def resolve (c : Context) : Sought → Lookup Resolution
  | .unit unit => resolveUnit c unit
  | .logUnit unit => resolveLogUnit c unit

/-- A resolver after lookups of which only the traces matter. -/
def afterSeeking (r : Resolver) (c : Context) (sought : List Sought) : Resolver :=
  sought.foldl (fun r s => ((resolve c s).run r).2) r

end Resolver

/-- Work that looks up these units in this order, whatever it finds, and does not touch the
memory otherwise. -/
inductive Seeks (c : Context) {α : Type} : Lookup α → List Sought → Prop where
  | pure (answer : α) : Seeks c (Pure.pure answer) []
  | resolve (first : Sought) {next : Resolution → Lookup α} {others : List Sought}
      (hnext : ∀ found, Seeks c (next found) others) :
      Seeks c (Resolver.resolve c first >>= next) (first :: others)

namespace Seeks

variable {c : Context} {α β : Type} {work : Lookup α} {sought sought' : List Sought}

theorem bind (hwork : Seeks c work sought) {next : α → Lookup β}
    (hnext : ∀ answer, Seeks c (next answer) sought') :
    Seeks c (work >>= next) (sought ++ sought') := by
  induction hwork with
  | pure answer =>
      rw [pure_bind]
      exact hnext answer
  | resolve first _ ih =>
      rw [bind_assoc]
      exact .resolve first ih

theorem bind_pure (hwork : Seeks c work sought) (f : α → β) :
    Seeks c (work >>= fun answer => Pure.pure (f answer)) sought := by
  rw [← List.append_nil sought]
  exact hwork.bind fun answer => .pure (f answer)

theorem mapM {work : α → Lookup β} {sought : α → Sought}
    (hwork : ∀ a, Seeks c (work a) [sought a]) (as : List α) :
    Seeks c (as.mapM work) (as.map sought) := by
  induction as with
  | nil => exact .pure []
  | cons a as ih =>
      rw [List.mapM_cons]
      exact (hwork a).bind fun answer => ih.bind_pure (answer :: ·)

/-- What is looked up decides what is remembered and recorded. -/
theorem run_snd (hwork : Seeks c work sought) (r : Resolver) :
    (work.run r).2 = r.afterSeeking c sought := by
  induction hwork generalizing r with
  | pure answer => rfl
  | resolve first _ ih => exact ih _ _

end Seeks

section Lookups

variable {c : Context}

theorem Resolver.resolveUnit_seeks (unit : BaseUnit) : Seeks c (resolveUnit c unit) [.unit unit] :=
  .resolve (.unit unit) .pure

theorem Resolver.resolveLogUnit_seeks (unit : LogUnit) :
    Seeks c (resolveLogUnit c unit) [.logUnit unit] :=
  .resolve (.logUnit unit) .pure

/-- The units of an expression in the order in which they are written. -/
def UnitExpr.sought (e : UnitExpr) : List Sought :=
  e.ordered.map fun a => .unit a.unit

/-- The units of logarithmic quantities, each before those in its number. -/
def Value.sought (v : Value) : List Sought :=
  v.logUnits.map .logUnit

def Quantity.sought (q : Quantity) : List Sought :=
  q.value.sought ++ q.unit.sought

/-- A step that is not written is not looked up. -/
def QuantityRange.sought (r : QuantityRange) : List Sought :=
  r.start.sought ++ ((if r.hasUnitStep then [] else r.step.sought) ++ r.stop.sought) ++
    r.unit.sought

def Item.sought : Item → List Sought
  | .quantity q => q.sought
  | .log q => q.toValue.sought
  | .range r => r.sought
  | .units e => e.sought
  | .noUnits => []

theorem UnitExpr.sought_eq (e : UnitExpr) : e.sought = e.factors.map fun f => .unit f.unit := by
  have hunits : e.sought = (e.ordered.map Atom.unit).map .unit := by simp [sought]
  rw [hunits, ← map_unit_factors, List.map_map]
  rfl

theorem UnitExpr.write_seeks (e : UnitExpr) : Seeks c (e.write c) e.sought := by
  rw [sought_eq]
  apply Seeks.bind_pure
  apply Seeks.mapM
  exact fun f => (Resolver.resolveUnit_seeks f.unit).bind_pure _

theorem UnitExpr.sought_of_isDimensionless {e : UnitExpr} (he : e.isDimensionless) :
    e.sought = [] := by
  rw [sought, ordered_eq_nil_iff.mpr he, List.map_nil]

theorem Value.write_seeks (o : Options) (v : Value) : Seeks c (v.write o c) v.sought := by
  induction v with
  | int | float | ratio | complex | complexInt | custom => exact .pure _
  | log kind value unit ih =>
      apply (Resolver.resolveLogUnit_seeks unit).bind
      exact fun _ => ih.bind_pure _

/-- Where units are written unless there are none, they are looked up in any case. -/
theorem UnitExpr.behind_seeks {e : UnitExpr} {α : Type} {without : α} {f : String → α} :
    Seeks c (if e.isDimensionless then pure without else do
      let units ← e.write c
      pure (f units)) e.sought := by
  split
  · next he =>
      rw [sought_of_isDimensionless he]
      exact .pure without
  · exact e.write_seeks.bind_pure f

theorem QuantityRange.writeBounds_seeks (o : Options) (r : QuantityRange) :
    Seeks c (r.writeBounds o c) (r.start.sought ++
      ((if r.hasUnitStep then [] else r.step.sought) ++ r.stop.sought)) := by
  apply (r.start.write_seeks o).bind
  intro start
  split
  · exact (r.stop.write_seeks o).bind_pure _
  · exact (r.step.write_seeks o).bind fun _ => (r.stop.write_seeks o).bind_pure _

/-- The lookups of an item are the same whatever the options. -/
theorem Item.write_seeks (o : Options) (x : Item) : Seeks c (Writable.write o c x) x.sought := by
  cases x with
  | quantity q => exact (q.value.write_seeks o).bind fun _ => UnitExpr.behind_seeks
  | log q => exact q.toValue.write_seeks o
  | range r => exact (r.writeBounds_seeks o).bind fun _ => UnitExpr.behind_seeks
  | units e => exact UnitExpr.behind_seeks
  | noUnits => exact .pure _

end Lookups

namespace Item

/-- The numbers of an item. -/
def values : Item → List Value
  | .quantity q => [q.value]
  | .log q => [q.value]
  | .range r => [r.start, r.step, r.stop]
  | .units _ => []
  | .noUnits => []

/-- The text of the number or of the range in front of the units. -/
def writeNumbers (o : Options) (c : Context) : Item → Lookup String
  | .quantity q => q.value.write o c
  | .log q => q.value.write o c
  | .range r => r.writeBounds o c
  | .units _ => pure ""
  | .noUnits => pure ""

/-- The text of the units, as nothing else stood around them. -/
def writeUnits (c : Context) : Item → Lookup String
  | .quantity q => q.unit.write c
  | .log q => do
    let name ← Resolver.resolveLogUnit c q.unit
    pure name.identifier
  | .range r => r.unit.write c
  | .units e => e.write c
  | .noUnits => pure ""

/-- Whether what stands in front of the units is grouped. -/
def groupsNumbers : Item → Bool
  | .quantity q => q.value.needsGroup
  | .log q => q.value.needsGroup
  | .range _ => true
  | .units _ => false
  | .noUnits => false

/-- Whether units that do not delimit themselves are grouped behind a number: if there are
several atoms, or if they are a logarithmic unit. -/
def groupsUnits : Item → Bool
  | .quantity q => 1 < q.unit.size
  | .log _ => true
  | .range r => 1 < r.unit.size
  | .units _ => false
  | .noUnits => false

end Item

/-- A number without logarithmic units has one text. -/
theorem Value.write_eq_pure {v : Value} (hv : v.logUnits = []) :
    ∃ text, ∀ o c, v.write o c = pure text := by
  cases v with
  | int | float | ratio | complex | complexInt | custom => exact ⟨_, fun _ _ => rfl⟩
  | log => cases hv

theorem QuantityRange.writeBounds_eq_pure {r : QuantityRange} (hstart : r.start.logUnits = [])
    (hstep : r.step.logUnits = []) (hstop : r.stop.logUnits = []) :
    ∃ text, ∀ o c, r.writeBounds o c = pure text := by
  obtain ⟨start, hstart⟩ := Value.write_eq_pure hstart
  obtain ⟨step, hstep⟩ := Value.write_eq_pure hstep
  obtain ⟨stop, hstop⟩ := Value.write_eq_pure hstop
  by_cases hunit : r.hasUnitStep
  · exact ⟨start ++ ":" ++ stop, fun o c => by simp [writeBounds, hstart, hstop, hunit]⟩
  · exact ⟨start ++ ":" ++ step ++ ":" ++ stop, fun o c => by
      simp [writeBounds, hstart, hstep, hstop, hunit]⟩

/-- In front of its units, an item without logarithmic quantities as numbers has one text. -/
theorem Item.writeNumbers_eq_pure {x : Item} (hx : ∀ v ∈ x.values, v.logUnits = []) :
    ∃ numbers, ∀ o c, x.writeNumbers o c = pure numbers := by
  cases x with
  | quantity q => exact Value.write_eq_pure (hx _ List.mem_cons_self)
  | log q => exact Value.write_eq_pure (hx _ List.mem_cons_self)
  | range r =>
      simp only [values, List.forall_mem_cons] at hx
      exact QuantityRange.writeBounds_eq_pure hx.1 hx.2.1 hx.2.2.1
  | units => exact ⟨"", fun _ _ => rfl⟩
  | noUnits => exact ⟨"", fun _ _ => rfl⟩

theorem Options.unitText_of_ne_empty {units : String} (hunits : units ≠ "") (o : Options) :
    o.unitText units = if o.literal then quoteUnit units else units := by
  have hne : units.isEmpty = false := by simpa using hunits
  simp [unitText, hne]

/-- Units behind a text, grouped or not, as literals and without them. -/
theorem juxtapose_unitText {units : String} (hunits : units ≠ "") (o : Options)
    (numbers : String) (groupsNumbers groupsUnits : Bool) :
    juxtapose numbers groupsNumbers (o.unitText units) (groupsUnits && !o.literal) =
      group groupsNumbers numbers ++
        if o.literal then quoteUnit units
        else if groupsUnits then (if groupsNumbers then "*" else "") ++ "(" ++ units ++ ")"
        else units := by
  have hgrouped : ∀ text, group true text = "(" ++ text ++ ")" := fun _ => rfl
  have hplain : ∀ text, group false text = text := fun _ => rfl
  rw [Options.unitText_of_ne_empty hunits]
  cases o.literal with
  | true => simp [juxtapose, hplain]
  | false =>
      cases groupsUnits with
      | true => simp [juxtapose, hgrouped, String.append_assoc]
      | false => simp [juxtapose, hplain]

/-- Units on their own stand behind nothing. -/
theorem juxtapose_nothing (units : String) : juxtapose "" false units false = units := by
  simp [juxtapose, group]

/-- A unit that has a text is not dimensionless. -/
theorem UnitExpr.isDimensionless_of_run_write {e : UnitExpr} {c : Context} {r : Resolver}
    (h : ((e.write c).run r).1 ≠ "") : e.isDimensionless = false := by
  apply Bool.eq_false_iff.mpr
  intro he
  have hwrite : e.write c = pure "" := by simp [write, factors, ordered_eq_nil_iff.mpr he]
  rw [hwrite] at h
  exact h rfl

namespace Item

variable {c : Context} {r : Resolver} {x : Item}

/-- Without logarithmic quantities as numbers, the text of an item is put together from that
of its numbers and that of its units. -/
theorem run_write_fst {numbers : String} (hnumbers : ∀ o c, x.writeNumbers o c = pure numbers)
    (hunits : ((x.writeUnits c).run r).1 ≠ "") (o : Options) :
    ((Writable.write o c x).run r).1 =
      group x.groupsNumbers numbers ++
        if o.literal then quoteUnit ((x.writeUnits c).run r).1
        else if x.groupsUnits then
          (if x.groupsNumbers then "*" else "") ++ "(" ++ ((x.writeUnits c).run r).1 ++ ")"
        else ((x.writeUnits c).run r).1 := by
  rw [← juxtapose_unitText hunits]
  have hfront := hnumbers o c
  cases x with
  | quantity q =>
      have hdim := UnitExpr.isDimensionless_of_run_write hunits
      simp only [writeNumbers] at hfront
      simp only [Writable.write, hfront, pure_bind, hdim]
      rfl
  | log q =>
      simp only [writeNumbers] at hfront
      simp only [Writable.write, LogQuantity.toValue, Value.write, hfront, pure_bind]
      rw [Options.unitText_of_ne_empty hunits]
      rfl
  | range q =>
      have hdim := UnitExpr.isDimensionless_of_run_write hunits
      simp only [writeNumbers] at hfront
      simp only [Writable.write, hfront, pure_bind, hdim]
      rfl
  | units e =>
      have hdim := UnitExpr.isDimensionless_of_run_write hunits
      have hnone : "" = numbers := congrArg (fun work => (work.run r).1) hfront
      simp only [Writable.write, hdim, ← hnone]
      exact (juxtapose_nothing _).symm
  | noUnits => exact absurd rfl hunits

/-- The option `literal` changes grouping only.  In both modes the same units are looked up in
the same order, so the resolver is left in one state, with one journal.  If no number of the
item is a logarithmic quantity and its units have a text, then both texts begin with one text
of the numbers, grouped or not; then come the units, quoted in one mode, and in the other one
grouped if they have several atoms or are a logarithmic unit. -/
theorem literal_only_regroups (c : Context) (x : Item) (r : Resolver) :
    let written (literal : Bool) : Lookup String := Writable.write (Options.mk literal) c x
    (∀ literal, Seeks c (written literal) x.sought) ∧
      ((written true).run r).2 = ((written false).run r).2 ∧
      ((∀ v ∈ x.values, v.logUnits = []) →
        let units := ((x.writeUnits c).run r).1
        units ≠ "" → ∃ numbers, (∀ o c, x.writeNumbers o c = pure numbers) ∧
          ((written true).run r).1 = group x.groupsNumbers numbers ++ quoteUnit units ∧
          ((written false).run r).1 = group x.groupsNumbers numbers ++
            if x.groupsUnits then (if x.groupsNumbers then "*" else "") ++ "(" ++ units ++ ")"
            else units) := by
  intro written
  have hseeks : ∀ literal, Seeks c (written literal) x.sought := fun literal => x.write_seeks _
  refine ⟨hseeks, ?_, ?_⟩
  · rw [(hseeks true).run_snd, (hseeks false).run_snd]
  · intro hvalues units hunits
    obtain ⟨numbers, hnumbers⟩ := writeNumbers_eq_pure hvalues
    exact ⟨numbers, hnumbers, run_write_fst hnumbers hunits ⟨true⟩,
      run_write_fst hnumbers hunits ⟨false⟩⟩

/-- A complex number of metres in a furlong that has no name, written by a resolver that has
looked for metres before. -/
theorem literal_only_regroups_unnamed_furlong :
    let furlong : BaseUnit := ⟨"Furlong", "fur"⟩
    let lab : Namespace := ⟨⟨1⟩, "lab", [("metre", .bare Builtin.meter)]⟩
    let c : Context := ⟨[lab]⟩
    let r : Resolver := ((Resolver.resolveUnit c Builtin.meter).run .fresh).2
    let x : Item := .quantity ⟨.complexInt 1 2,
      ⟨[.ofUnit Builtin.meter, ⟨.none, furlong, .minusOne⟩]⟩⟩
    let written (literal : Bool) : Lookup String := Writable.write (Options.mk literal) c x
    (∀ v ∈ x.values, v.logUnits = []) ∧
      ((written true).run r).2 = ((written false).run r).2 ∧
      ((written true).run r).2.warned = [("fur", [⟨1⟩])] ∧
      ∃ numbers, x.writeNumbers {} c = pure numbers ∧
        ((written true).run r).1 = group true numbers ++ "u\"metre/fur\"" ∧
        ((written false).run r).1 = group true numbers ++ "*(metre/fur)" := by
  intro furlong lab c r x written
  have hvalues : ∀ v ∈ x.values, v.logUnits = [] := by decide
  have hunits : ((x.writeUnits c).run r).1 = "metre/fur" := by decide +kernel
  obtain ⟨-, hstate, htexts⟩ := literal_only_regroups c x r
  obtain ⟨numbers, hnumbers, hliteral, hplain⟩ := htexts hvalues (by rw [hunits]; decide)
  rw [hunits] at hliteral hplain
  exact ⟨hvalues, hstate, by decide +kernel, numbers, hnumbers _ _, hliteral, hplain⟩

end Item

end UnitText
