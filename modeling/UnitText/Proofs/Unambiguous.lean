import UnitText.Proofs.ReadBack
import UnitText.Proofs.ValidLayout

/-!
No two items share a text, unless they are the same item in different forms.

Where a context tells all units, the layout of an item is valid, so equal texts
have equal layouts.  By induction on the nesting of logarithmic values a layout
shows its value, and a unit text shows its atoms.  Main statement: two items have
the same text just if they have the same canonical form
(`Item.written_eq_iff_canon_eq`).
-/

namespace UnitText

section Telling

variable {c : Context} {units : Set BaseUnit} {logUnits : Set LogUnit} {o : Options}

/-- The unit text that a tail shows. -/
def Tail.units? : Tail → Option String
  | none => .none
  | denominator _ => .none
  | imaginary _ _ => .none
  | bare units => some units
  | grouped units => some units
  | quoted units => some units

@[simp] theorem Options.units?_logTail (o : Options) (identifier : String) :
    (o.logTail identifier).units? = some identifier := by
  unfold logTail
  split <;> rfl

@[simp] theorem Options.units?_unitTail (o : Options) (e : UnitExpr) (text : String) :
    (o.unitTail e text).units? = some text := by
  unfold unitTail
  split
  · rfl
  · split <;> rfl

theorem Value.canon_eq_of_head_eq {v v' : Value} (hv : v.Over logUnits)
    (hv' : v'.Over logUnits) (hinside : v.text o c = v'.text o c → v.canon = v'.canon)
    (hhead : v.head o c = v'.head o c) : v.canon = v'.canon := by
  rcases v.head_cases o c hv with ⟨n, rfl⟩ | hgroup
  · rcases v'.head_cases o c hv' with ⟨n', rfl⟩ | hgroup'
    · cases hhead
      rfl
    · rw [hgroup'] at hhead
      cases hhead
  · rcases v'.head_cases o c hv' with ⟨n', rfl⟩ | hgroup'
    · rw [hgroup] at hhead
      cases hhead
    · rw [hgroup, hgroup'] at hhead
      exact hinside (Head.group.inj hhead)

/-- A logarithmic value is not laid out as anything without a unit. -/
theorem Value.layout_log_ne {kind : LogKind} {value : Value} {unit : LogUnit} {l : Layout}
    (hl : l.tail.units? = none) : (Value.log kind value unit).layout o c ≠ l := by
  rintro rfl
  rw [layout, Options.units?_logTail] at hl
  cases hl

theorem Value.layout_eq_of_text_eq (htells : c.Tells units logUnits) {v v' : Value}
    (hv : v.Over logUnits) (hv' : v'.Over logUnits) (htext : v.text o c = v'.text o c) :
    v.layout o c = v'.layout o c := by
  rw [text_eq_layout, text_eq_layout] at htext
  exact Layout.eq_of_text_eq (v.valid_layout htells hv) (v'.valid_layout htells hv') htext

/-- The induction is on the nesting of logarithmic values: what stands in the group is
the text of the value inside. -/
theorem Value.canon_eq_of_layout_eq (htells : c.Tells units logUnits) {v v' : Value}
    (hv : v.Over logUnits) (hv' : v'.Over logUnits)
    (hlayout : v.layout o c = v'.layout o c) : v.canon = v'.canon := by
  induction v generalizing v' with
  | int n =>
      cases v' with
      | int n' =>
          cases hlayout
          rfl
      | ratio | complexInt => cases hlayout
      | log kind' value' unit' => exact absurd hlayout.symm (layout_log_ne rfl)
      | float | complex | custom => exact absurd hv' not_false
  | ratio q =>
      cases v' with
      | ratio q' =>
          obtain ⟨hnum, hden⟩ := Layout.mk.inj hlayout
          have hq : q = q' :=
            Ratio.ext_toRat (Rat.ext (Head.number.inj hnum) (Tail.denominator.inj hden))
          rw [hq]
      | int | complexInt => cases hlayout
      | log kind' value' unit' => exact absurd hlayout.symm (layout_log_ne rfl)
      | float | complex | custom => exact absurd hv' not_false
  | complexInt re im =>
      cases v' with
      | complexInt re' im' =>
          obtain ⟨hre, him⟩ := Layout.mk.inj hlayout
          obtain ⟨hsign, hmagnitude⟩ := Tail.imaginary.inj him
          rw [decide_eq_decide] at hsign
          have him : im = im' := by omega
          rw [Head.number.inj hre, him]
      | int | ratio => cases hlayout
      | log kind' value' unit' => exact absurd hlayout.symm (layout_log_ne rfl)
      | float | complex | custom => exact absurd hv' not_false
  | log kind value unit ih =>
      cases v' with
      | log kind' value' unit' =>
          obtain ⟨hhead, htail⟩ := Layout.mk.inj hlayout
          have hunit : unit = unit' := by
            have hidentifier := congrArg Tail.units? htail
            rw [Options.units?_logTail, Options.units?_logTail] at hidentifier
            exact htells.logIdentifier_inj _ hv.2 _ hv'.2 (Option.some.inj hidentifier)
          -- The kinds may differ: nothing is written of them.
          have hvalue : value.canon = value'.canon :=
            canon_eq_of_head_eq hv.1 hv'.1
              (fun hinside => ih hv.1 hv'.1 (layout_eq_of_text_eq htells hv.1 hv'.1 hinside))
              hhead
          rw [canon, canon, hvalue, hunit]
      | int | ratio | complexInt => exact absurd hlayout (layout_log_ne rfl)
      | float | complex | custom => exact absurd hv' not_false
  | float | complex | custom => exact absurd hv not_false

theorem Value.canon_eq_of_text_eq (htells : c.Tells units logUnits) {v v' : Value}
    (hv : v.Over logUnits) (hv' : v'.Over logUnits) (htext : v.text o c = v'.text o c) :
    v.canon = v'.canon :=
  canon_eq_of_layout_eq htells hv hv' (layout_eq_of_text_eq htells hv hv' htext)

theorem UnitExpr.canon_of_isDimensionless {e : UnitExpr} (he : e.isDimensionless) :
    e.canon = .dimensionless := by
  obtain ⟨atoms⟩ := e
  obtain rfl : atoms = [] := List.isEmpty_iff.mp he
  rfl

theorem UnitExpr.canon_eq_of_text_eq (htells : c.Tells units logUnits) {e e' : UnitExpr}
    (he : e.Over units) (he' : e'.Over units) (htext : e.text c = e'.text c) :
    e.canon = e'.canon := by
  rw [canon_eq, canon_eq, ordered_eq_of_text_eq htells he he' htext]

/-- A unit is not taken for a logarithmic unit behind a value. -/
theorem Value.units?_layout_ne (htells : c.Tells units logUnits) {v : Value}
    (hv : v.Over logUnits) {e : UnitExpr} (he : e.Over units) :
    (v.layout o c).tail.units? ≠ some (e.text c) := by
  cases v with
  | int | ratio | complexInt => exact fun h => nomatch h
  | log kind value unit =>
      have hplain := (htells.clear_logIdentifier unit hv.2).1
      have hother : ∀ u ∈ units, ∀ p, c.unitName p u ≠ c.logIdentifier unit :=
        fun u hu p => htells.unitName_ne_logIdentifier u hu unit hv.2 p
      rw [layout, Options.units?_logTail]
      intro h
      exact e.text_ne_plain htells he hplain hother (Option.some.inj h).symm
  | float | complex | custom => exact absurd hv not_false

theorem Quantity.canon_eq_of_layout_eq (htells : c.Tells units logUnits) {q q' : Quantity}
    (hq : q.Over units logUnits) (hq' : q'.Over units logUnits)
    (hlayout : q.layout o c = q'.layout o c) : q.canon = q'.canon := by
  unfold layout at hlayout
  unfold canon
  by_cases hne : q.unit.isDimensionless
  · by_cases hne' : q'.unit.isDimensionless
    · rw [if_pos hne, if_pos hne'] at hlayout
      rw [UnitExpr.canon_of_isDimensionless hne, UnitExpr.canon_of_isDimensionless hne',
        Value.canon_eq_of_layout_eq htells hq.value hq'.value hlayout]
    · rw [if_pos hne, if_neg hne'] at hlayout
      have hunits := q.value.units?_layout_ne (o := o) htells hq.value hq'.unit
      rw [hlayout] at hunits
      exact absurd (Options.units?_unitTail o _ _) hunits
  · by_cases hne' : q'.unit.isDimensionless
    · rw [if_neg hne, if_pos hne'] at hlayout
      have hunits := q'.value.units?_layout_ne (o := o) htells hq'.value hq.unit
      rw [← hlayout] at hunits
      exact absurd (Options.units?_unitTail o _ _) hunits
    · rw [if_neg hne, if_neg hne'] at hlayout
      obtain ⟨hhead, htail⟩ := Layout.mk.inj hlayout
      have hunits := congrArg Tail.units? htail
      rw [Options.units?_unitTail, Options.units?_unitTail, Option.some.injEq] at hunits
      rw [UnitExpr.canon_eq_of_text_eq htells hq.unit hq'.unit hunits,
        Value.canon_eq_of_head_eq hq.value hq'.value
          (Value.canon_eq_of_text_eq htells hq.value hq'.value) hhead]

/-- A text without colons ends at the first colon. -/
theorem eq_of_append_colon_eq {s s' t t' : String} (hs : ':' ∉ s.toList) (hs' : ':' ∉ s'.toList)
    (h : s ++ ":" ++ t = s' ++ ":" ++ t') : s = s' ∧ t = t' := by
  have hbefore : ∀ {u : String}, ':' ∉ u.toList → ∀ c ∈ u.toList, decide (c ≠ ':') :=
    fun hu c hc => decide_eq_true (ne_of_mem_of_not_mem hc hu)
  have hafter : ∀ u : String, ∀ c ∈ (':' :: u.toList).head?, decide (c ≠ ':') = false := by
    simp
  have hlist : s.toList ++ ':' :: t.toList = s'.toList ++ ':' :: t'.toList := by
    simpa using congrArg String.toList h
  obtain ⟨htake, hdrop⟩ := takeWhile_dropWhile_append (hbefore hs) (hafter t)
  obtain ⟨htake', hdrop'⟩ := takeWhile_dropWhile_append (hbefore hs') (hafter t')
  rw [hlist, htake'] at htake
  rw [hlist, hdrop'] at hdrop
  exact ⟨String.toList_inj.mp htake.symm, String.toList_inj.mp (List.cons.inj hdrop).2.symm⟩

/-- The text behind the first bound of a range. -/
def QuantityRange.restText (o : Options) (c : Context) (r : QuantityRange) : String :=
  if r.hasUnitStep then r.stop.text o c else r.step.text o c ++ ":" ++ r.stop.text o c

theorem QuantityRange.boundsText_eq (r : QuantityRange) :
    r.boundsText o c = r.start.text o c ++ ":" ++ r.restText o c := by
  unfold boundsText restText
  split
  · rfl
  · simp [String.append_assoc]

theorem QuantityRange.canon_rest_eq (htells : c.Tells units logUnits) {r r' : QuantityRange}
    (hr : r.Over units logUnits) (hr' : r'.Over units logUnits)
    (hrest : r.restText o c = r'.restText o c) :
    r.canon.step = r'.canon.step ∧ r.stop.canon = r'.stop.canon := by
  have hcolon : ∀ {v : Value}, v.Over logUnits → ':' ∉ (v.text o c).toList :=
    fun hv => (Value.inline_text htells hv).2
  unfold restText at hrest
  unfold canon
  by_cases hstep : r.hasUnitStep
  · by_cases hstep' : r'.hasUnitStep
    · rw [if_pos hstep, if_pos hstep'] at hrest
      rw [if_pos hstep, if_pos hstep']
      exact ⟨rfl, Value.canon_eq_of_text_eq htells hr.stop hr'.stop hrest⟩
    · rw [if_pos hstep, if_neg hstep'] at hrest
      have habsent := hcolon hr.stop
      rw [hrest] at habsent
      simp at habsent
  · by_cases hstep' : r'.hasUnitStep
    · rw [if_neg hstep, if_pos hstep'] at hrest
      have habsent := hcolon hr'.stop
      rw [← hrest] at habsent
      simp at habsent
    · rw [if_neg hstep, if_neg hstep'] at hrest
      rw [if_neg hstep, if_neg hstep']
      obtain ⟨hsteps, hstops⟩ := eq_of_append_colon_eq (hcolon hr.step) (hcolon hr'.step) hrest
      exact ⟨Value.canon_eq_of_text_eq htells hr.step hr'.step hsteps,
        Value.canon_eq_of_text_eq htells hr.stop hr'.stop hstops⟩

theorem QuantityRange.canon_unit_eq (htells : c.Tells units logUnits) {r r' : QuantityRange}
    (hr : r.Over units logUnits) (hr' : r'.Over units logUnits)
    (htail : (r.layout o c).tail = (r'.layout o c).tail) : r.unit.canon = r'.unit.canon := by
  have hunits := congrArg Tail.units? htail
  unfold layout at hunits
  by_cases hne : r.unit.isDimensionless
  · by_cases hne' : r'.unit.isDimensionless
    · rw [UnitExpr.canon_of_isDimensionless hne, UnitExpr.canon_of_isDimensionless hne']
    · simp only [if_pos hne, if_neg hne', Options.units?_unitTail] at hunits
      cases hunits
  · by_cases hne' : r'.unit.isDimensionless
    · simp only [if_neg hne, if_pos hne', Options.units?_unitTail] at hunits
      cases hunits
    · simp only [if_neg hne, if_neg hne', Options.units?_unitTail, Option.some.injEq] at hunits
      exact UnitExpr.canon_eq_of_text_eq htells hr.unit hr'.unit hunits

theorem QuantityRange.canon_eq_of_layout_eq (htells : c.Tells units logUnits)
    {r r' : QuantityRange} (hr : r.Over units logUnits) (hr' : r'.Over units logUnits)
    (hlayout : r.layout o c = r'.layout o c) : r.canon = r'.canon := by
  obtain ⟨hhead, htail⟩ := Layout.mk.inj hlayout
  have hbounds := Head.group.inj hhead
  rw [boundsText_eq, boundsText_eq] at hbounds
  obtain ⟨hstart, hrest⟩ := eq_of_append_colon_eq (Value.inline_text htells hr.start).2
    (Value.inline_text htells hr'.start).2 hbounds
  have hstart := Value.canon_eq_of_text_eq htells hr.start hr'.start hstart
  obtain ⟨hstep, hstop⟩ := canon_rest_eq htells hr hr' hrest
  have hunit := canon_unit_eq htells hr hr' htail
  have hparts : ∀ r : QuantityRange,
      r.canon = ⟨r.start.canon, r.canon.step, r.stop.canon, r.unit.canon⟩ := fun _ => rfl
  rw [hparts r, hparts r', hstart, hstep, hstop, hunit]

theorem Options.unitText_inj {s s' : String} (hs : s ≠ "") (hs' : s' ≠ "")
    (htext : o.unitText s = o.unitText s') : s = s' := by
  have hempty : s.isEmpty = false := by simpa using hs
  have hempty' : s'.isEmpty = false := by simpa using hs'
  by_cases hliteral : o.literal
  · simpa [unitText, hliteral, hempty, hempty', quoteUnit] using htext
  · simpa [unitText, hliteral] using htext

/-- A unit is not taken for the marker of the dimensionless unit. -/
theorem UnitExpr.textAlone_ne_noUnitsText (htells : c.Tells units logUnits) {e : UnitExpr}
    (he : e.Over units) (hne : ¬ e.isDimensionless) : e.textAlone o c ≠ noUnitsText := by
  rw [textAlone, if_neg hne, Options.unitText]
  split
  · intro h
    have hfirst := congrArg (fun s => s.toList.head?) h
    simp [quoteUnit, noUnitsText] at hfirst
  · exact e.text_ne_plain htells he (by decide) fun u hu p =>
      (htells.clear_unitName u hu p).2.1

theorem UnitExpr.canon_eq_of_textAlone_eq (htells : c.Tells units logUnits) {e e' : UnitExpr}
    (he : e.Over units) (he' : e'.Over units) (htext : e.textAlone o c = e'.textAlone o c) :
    (Item.units e).canon = (Item.units e').canon := by
  rw [Item.canon, Item.canon]
  by_cases hne : e.isDimensionless
  · by_cases hne' : e'.isDimensionless
    · rw [if_pos hne, if_pos hne']
    · have hmarker : e.textAlone o c = noUnitsText := if_pos hne
      rw [hmarker] at htext
      exact absurd htext.symm (e'.textAlone_ne_noUnitsText htells he' hne')
  · by_cases hne' : e'.isDimensionless
    · have hmarker : e'.textAlone o c = noUnitsText := if_pos hne'
      rw [hmarker] at htext
      exact absurd htext (e.textAlone_ne_noUnitsText htells he hne)
    · rw [textAlone, textAlone, if_neg hne, if_neg hne'] at htext
      have hstart := clearStart_text htells he (Bool.not_eq_true _ ▸ hne)
      have hstart' := clearStart_text htells he' (Bool.not_eq_true _ ▸ hne')
      have hunits := Options.unitText_inj hstart.ne_empty hstart'.ne_empty htext
      rw [if_neg hne, if_neg hne', UnitExpr.canon_eq_of_text_eq htells he he' hunits]

/-- The three fronts that a text can have: that of a quantity, that of a range and that of
a unit on its own. -/
inductive Head.Front where
  | value
  | bounds
  | alone

def Head.front : Head → Front
  | number _ => .value
  | group body => if ':' ∈ body.toList then .bounds else .value
  | other _ => .alone

theorem Value.front_head (htells : c.Tells units logUnits) {v : Value}
    (hv : v.Over logUnits) : (v.head o c).front = .value := by
  rcases v.head_cases o c hv with ⟨n, rfl⟩ | hhead
  · rfl
  · rw [hhead]
    exact if_neg (v.inline_text htells hv).2

theorem Value.front_layout (htells : c.Tells units logUnits) {v : Value}
    (hv : v.Over logUnits) : (v.layout o c).head.front = .value := by
  cases v with
  | int | ratio | complexInt => rfl
  | log kind value unit => exact value.front_head htells hv.1
  | float | complex | custom => exact absurd hv not_false

theorem Quantity.front_layout (htells : c.Tells units logUnits) {q : Quantity}
    (hq : q.Over units logUnits) : (q.layout o c).head.front = .value := by
  unfold layout
  split
  · exact q.value.front_layout htells hq.value
  · exact q.value.front_head htells hq.value

theorem QuantityRange.front_layout (r : QuantityRange) :
    (r.layout o c).head.front = .bounds := by
  have hcolon : ':' ∈ (r.boundsText o c).toList := by
    rw [boundsText_eq]
    simp
  exact if_pos hcolon

/-- The item is written like a quantity, a range or a unit on its own, as its front tells,
that has the same canonical form. -/
def Item.LooksLike (units : Set BaseUnit) (logUnits : Set LogUnit) (o : Options) (c : Context)
    (x : Item) : Head.Front → Prop
  | .value => ∃ q : Quantity, q.Over units logUnits ∧ x.layout o c = q.layout o c ∧
      x.canon = .quantity q.canon
  | .bounds => ∃ r : QuantityRange, r.Over units logUnits ∧ x.layout o c = r.layout o c ∧
      x.canon = .range r.canon
  | .alone => ∃ e : UnitExpr, e.Over units ∧
      x.layout o c = ⟨.other (e.textAlone o c), .none⟩ ∧ x.canon = (Item.units e).canon

theorem Item.looksLike_front (htells : c.Tells units logUnits) (o : Options) {x : Item}
    (hx : x.Over units logUnits) :
    x.LooksLike units logUnits o c (x.layout o c).head.front := by
  have hunit : UnitExpr.dimensionless.Over units := fun _ h => absurd h List.not_mem_nil
  cases x with
  | quantity q =>
      have hfront : (layout o c (.quantity q)).head.front = .value := q.front_layout htells hx
      rw [hfront]
      exact ⟨q, hx, rfl, rfl⟩
  | log q =>
      have hfront : (layout o c (.log q)).head.front = .value :=
        q.toValue.front_layout htells hx
      rw [hfront]
      exact ⟨⟨q.toValue, .dimensionless⟩, ⟨hx, hunit⟩, rfl, rfl⟩
  | range r =>
      have hfront : (layout o c (.range r)).head.front = .bounds := r.front_layout
      rw [hfront]
      exact ⟨r, hx, rfl, rfl⟩
  | units e => exact ⟨e, hx, rfl, rfl⟩
  | noUnits => exact ⟨.dimensionless, hunit, rfl, rfl⟩

theorem Item.canon_eq_of_text_eq (htells : c.Tells units logUnits) {x y : Item}
    (hx : x.Over units logUnits) (hy : y.Over units logUnits)
    (htext : x.text o c = y.text o c) : x.canon = y.canon := by
  rw [text_eq_layout, text_eq_layout] at htext
  have hlayout := Layout.eq_of_text_eq (valid_layout htells hx) (valid_layout htells hy) htext
  have hlike := looksLike_front htells o hx
  have hlike' := looksLike_front htells o hy
  rw [← hlayout] at hlike'
  cases hfront : (x.layout o c).head.front with
  | value =>
      rw [hfront] at hlike hlike'
      obtain ⟨q, hq, hl, hcanon⟩ := hlike
      obtain ⟨q', hq', hl', hcanon'⟩ := hlike'
      rw [hl, hl'] at hlayout
      rw [hcanon, hcanon', Quantity.canon_eq_of_layout_eq htells hq hq' hlayout]
  | bounds =>
      rw [hfront] at hlike hlike'
      obtain ⟨r, hr, hl, hcanon⟩ := hlike
      obtain ⟨r', hr', hl', hcanon'⟩ := hlike'
      rw [hl, hl'] at hlayout
      rw [hcanon, hcanon', QuantityRange.canon_eq_of_layout_eq htells hr hr' hlayout]
  | alone =>
      rw [hfront] at hlike hlike'
      obtain ⟨e, he, hl, hcanon⟩ := hlike
      obtain ⟨e', he', hl', hcanon'⟩ := hlike'
      rw [hl, hl'] at hlayout
      have halone := Head.other.inj (Layout.mk.inj hlayout).1
      rw [hcanon, hcanon', UnitExpr.canon_eq_of_textAlone_eq htells he he' halone]

end Telling

namespace Item

theorem text_eq_iff_canon_eq {c : Context} {units : Set BaseUnit} {logUnits : Set LogUnit}
    (htells : c.Tells units logUnits) (o : Options) {x y : Item} (hx : x.Over units logUnits)
    (hy : y.Over units logUnits) : x.text o c = y.text o c ↔ x.canon = y.canon := by
  constructor
  · exact canon_eq_of_text_eq htells hx hy
  · intro hcanon
    rw [← x.text_canon, hcanon, y.text_canon]

/-- Where the context of a session tells all units, two items that its resolvers write, one
of them now and the other at any later time, have the same text just if they have the
same canonical form.  The built-in context tells all built-in units. -/
theorem written_eq_iff_canon_eq :
    (∀ steps more ref c, (Session.initial.run steps).context? ref = .ok c →
      ∀ r r', (Session.initial.run steps).HasResolver r →
        (Session.initial.run (steps ++ more)).HasResolver r' →
          (∀ p u, c.unitName p u =
              p.symbol ++ ((Resolver.resolveUnit c u).run r).1.identifier) ∧
            (∀ u, c.logIdentifier u = ((Resolver.resolveLogUnit c u).run r).1.identifier) ∧
              ∀ units logUnits, c.Tells units logUnits → ∀ (o : Options) (x y : Item),
                x.Over units logUnits → y.Over units logUnits →
                  (((Writable.write o c x).run r).1 = ((Writable.write o c y).run r').1 ↔
                    x.canon = y.canon)) ∧
      Builtin.context.Tells { u | u ∈ Builtin.units } { u | u ∈ Builtin.logUnits } := by
  refine ⟨?_, Builtin.tells⟩
  intro steps more ref c hc r r' hr hr'
  refine ⟨Session.unitName_eq hc hr, Session.logIdentifier_eq hc hr, ?_⟩
  intro units logUnits htells o x y hx hy
  have hwrite := Session.write_eq_text hc [] (by rwa [List.append_nil]) o x
  rw [hwrite, Session.write_eq_text hc more hr' o y]
  exact text_eq_iff_canon_eq htells o hx hy

/-- A nested level and the gain with its powers in another order, and a range whose step
of one is spelled in two ways, written before and after the default context grows. -/
theorem written_eq_iff_canon_eq_nested_level :
    let half : Value := .ratio ⟨1 / 2, by decide +kernel, by decide +kernel⟩
    let speed : UnitExpr :=
      ⟨[⟨.none, Builtin.second, .minusOne⟩, ⟨.kilo, Builtin.meter, .one⟩]⟩
    let speed' : UnitExpr :=
      ⟨[⟨.kilo, Builtin.meter, .one⟩, ⟨.none, Builtin.second, .minusOne⟩]⟩
    let level : Value := .log .level (.log .gain half Builtin.decibel) Builtin.neper
    let gain : Value := .log .gain (.log .level half Builtin.decibel) Builtin.neper
    let unitStep : QuantityRange := ⟨half, .complexInt 1 0, level, speed⟩
    let unitStep' : QuantityRange := ⟨half, .int 1, gain, speed'⟩
    let more : List Step := [.create "farm" "farm" [], .addDefault ["farm"]]
    let r' := (Session.initial.run more).ambient.resolver
    ∀ o : Options,
      ((Writable.write o Builtin.context (Item.quantity ⟨level, speed⟩)).run .fresh).1 =
          ((Writable.write o Builtin.context (Item.quantity ⟨gain, speed'⟩)).run r').1 ∧
        ((Writable.write o Builtin.context (Item.range unitStep)).run .fresh).1 =
          ((Writable.write o Builtin.context (Item.range unitStep')).run r').1 ∧
        ((Writable.write o Builtin.context (Item.quantity ⟨level, speed⟩)).run .fresh).1 ≠
          ((Writable.write o Builtin.context (Item.range unitStep')).run r').1 := by
  intro half speed speed' level gain unitStep unitStep' more r' o
  have hc : (Session.initial.run []).context? .default = .ok Builtin.context := rfl
  have hr : (Session.initial.run []).HasResolver .fresh := Or.inr rfl
  have hr' : (Session.initial.run ([] ++ more)).HasResolver r' := Or.inr rfl
  have hspeed : speed.Over { u | u ∈ Builtin.units } := by
    change ∀ a ∈ speed.atoms, a.unit ∈ Builtin.units
    decide +kernel
  have hspeed' : speed'.Over { u | u ∈ Builtin.units } := by
    change ∀ a ∈ speed'.atoms, a.unit ∈ Builtin.units
    decide +kernel
  have hdecibel : Builtin.decibel ∈ Builtin.logUnits := by decide +kernel
  have hneper : Builtin.neper ∈ Builtin.logUnits := by decide +kernel
  have hlevel : level.Over { u | u ∈ Builtin.logUnits } := ⟨⟨trivial, hdecibel⟩, hneper⟩
  have hgain : gain.Over { u | u ∈ Builtin.logUnits } := ⟨⟨trivial, hdecibel⟩, hneper⟩
  have hquantity : Quantity.Over { u | u ∈ Builtin.units } { u | u ∈ Builtin.logUnits }
      ⟨level, speed⟩ := ⟨hlevel, hspeed⟩
  have hquantity' : Quantity.Over { u | u ∈ Builtin.units } { u | u ∈ Builtin.logUnits }
      ⟨gain, speed'⟩ := ⟨hgain, hspeed'⟩
  have hrange : unitStep.Over { u | u ∈ Builtin.units } { u | u ∈ Builtin.logUnits } :=
    ⟨trivial, trivial, hlevel, hspeed⟩
  have hrange' : unitStep'.Over { u | u ∈ Builtin.units } { u | u ∈ Builtin.logUnits } :=
    ⟨trivial, trivial, hgain, hspeed'⟩
  obtain ⟨htexts, htells⟩ := written_eq_iff_canon_eq
  obtain ⟨-, -, htexts⟩ := htexts [] more .default _ hc _ r' hr hr'
  have htexts := htexts _ _ htells o
  refine ⟨(htexts (.quantity _) (.quantity _) hquantity hquantity').mpr ?_,
    (htexts (.range _) (.range _) hrange hrange').mpr ?_, fun h => ?_⟩
  · decide +kernel
  · decide +kernel
  · have hcanon := (htexts (.quantity _) (.range _) hquantity hrange').mp h
    cases hcanon

end Item

end UnitText
