import UnitText.Proofs.Canon
import UnitText.Proofs.Layout

/-!
Layouts that can be read off their texts.

Where a context tells its units, a value closes all parentheses that it opens
and has no colon, and a unit text begins like a name.  Main statement: then the
layout of every item is valid (`Item.valid_layout`).
-/

namespace UnitText

theorem ClearName.clearStart {name : String} (hname : ClearName name) : ClearStart name := by
  obtain ⟨⟨hne, hplain⟩, -, hhead, hclear⟩ := hname
  cases hlist : name.toList with
  | nil => exact absurd (String.toList_eq_nil_iff.mp hlist) hne
  | cons c cs =>
      have hmem : c ∈ name.toList := by
        rw [hlist]
        exact List.mem_cons_self
      obtain ⟨hdigit, hminus⟩ := hhead c (by rw [hlist]; rfl)
      obtain ⟨htimes, hover, -, hopen, -⟩ := hplain c hmem
      obtain ⟨-, -, hblank⟩ := hclear c hmem
      exact ⟨c, cs, hlist, hdigit, by simp [hminus, hopen, htimes, hover, hblank]⟩

theorem ClearStart.append {s : String} (hs : ClearStart s) (t : String) :
    ClearStart (s ++ t) := by
  obtain ⟨c, cs, hlist, hc⟩ := hs
  exact ⟨c, cs ++ t.toList, by rw [String.toList_append, hlist, List.cons_append], hc⟩

theorem ClearStart.ne_empty {s : String} (hs : ClearStart s) : s ≠ "" := by
  rintro rfl
  obtain ⟨c, cs, hlist, -⟩ := hs
  cases hlist

theorem clearStart_quoteUnit (units : String) : ClearStart (quoteUnit units) :=
  ⟨'u', '"' :: (units.toList ++ ['"']), by simp [quoteUnit], by decide, by decide⟩

namespace UnitExpr

variable {c : Context} {units : Set BaseUnit} {logUnits : Set LogUnit} {e : UnitExpr}

theorem clearStart_text (htells : c.Tells units logUnits) (he : e.Over units)
    (hne : e.isDimensionless = false) : ClearStart (e.text c) := by
  cases hordered : e.ordered with
  | nil =>
      rw [ordered_eq_nil_iff, hne] at hordered
      cases hordered
  | cons a rest =>
      obtain ⟨more, htext⟩ := text_eq_name_append (c := c) hordered
      have ha : a ∈ e.atoms := mem_ordered.mp (by rw [hordered]; exact List.mem_cons_self)
      rw [htext]
      exact (htells.clear_unitName _ (he a ha) _).clearStart.append more

end UnitExpr

/-- A text that can stand in a group or as the bound of a range. -/
def Inline (cs : List Char) : Prop :=
  Balanced cs ∧ ':' ∉ cs

namespace Inline

variable {cs ds : List Char}

theorem append (hcs : Inline cs) (hds : Inline ds) : Inline (cs ++ ds) := by
  refine ⟨hcs.1.append hds.1, ?_⟩
  rw [List.mem_append, not_or]
  exact ⟨hcs.2, hds.2⟩

theorem of_plain (h : ∀ c ∈ cs, c ≠ '(' ∧ c ≠ ')' ∧ c ≠ ':') : Inline cs :=
  ⟨Balanced.of_plain fun c hc => ⟨(h c hc).1, (h c hc).2.1⟩, fun hc => (h _ hc).2.2 rfl⟩

theorem group (hcs : Inline cs) : Inline ('(' :: (cs ++ [')'])) :=
  ⟨hcs.1.group, by simp [hcs.2]⟩

theorem of_isNumeric (hcs : ∀ c ∈ cs, isNumeric c) : Inline cs :=
  of_plain fun c hc => ⟨ne_of_isNumeric (hcs c hc) rfl, ne_of_isNumeric (hcs c hc) rfl,
    ne_of_isNumeric (hcs c hc) rfl⟩

theorem of_clearName {name : String} (hname : ClearName name) : Inline name.toList := by
  apply of_plain
  intro c hc
  obtain ⟨-, -, -, hopen, hclose⟩ := hname.1.2 c hc
  exact ⟨hopen, hclose, (hname.2.2.2 c hc).1⟩

end Inline

theorem inline_intText (n : Int) : Inline (intText n).toList :=
  .of_isNumeric fun _ hc => isNumeric_of_mem_intText hc

theorem inline_toString (n : Nat) : Inline (toString n).toList :=
  .of_isNumeric fun _ hc => isNumeric_of_mem_toString hc

section Validity

variable {c : Context} {units : Set BaseUnit} {logUnits : Set LogUnit} {o : Options}

theorem Options.inline_logTail (htells : c.Tells units logUnits) {u : LogUnit}
    (hu : u ∈ logUnits) (behindGroup : Bool) :
    Inline ((o.logTail (c.logIdentifier u)).text behindGroup).toList := by
  have hname := Inline.of_clearName (htells.clear_logIdentifier u hu)
  have hquote : Inline ['u', '"'] := .of_plain (by simp)
  have hunquote : Inline ['"'] := .of_plain (by simp)
  have htimes : Inline ['*'] := .of_plain (by simp)
  by_cases hliteral : o.literal
  · simpa [logTail, hliteral, Tail.text, quoteUnit] using hquote.append (hname.append hunquote)
  · cases behindGroup with
    | false => simpa [logTail, hliteral, Tail.text] using hname.group
    | true => simpa [logTail, hliteral, Tail.text] using htimes.append hname.group

theorem Value.inline_text (htells : c.Tells units logUnits) {v : Value}
    (hv : v.Over logUnits) : Inline (v.text o c).toList := by
  induction v with
  | int n => exact inline_intText n
  | ratio q =>
      have hstrokes : Inline ['/', '/'] := .of_plain (by simp)
      simpa [text, Ratio.text] using
        (inline_intText q.num).append (hstrokes.append (inline_toString q.den))
  | complexInt re im =>
      have hplus : Inline [' ', '+', ' '] := .of_plain (by simp)
      have hminus : Inline [' ', '-', ' '] := .of_plain (by simp)
      have hunit : Inline ['i'] := .of_plain (by simp)
      have hmagnitude := (inline_toString im.natAbs).append hunit
      by_cases him : im < 0
      · simpa [text, complexText, him] using
          (inline_intText re).append (hminus.append hmagnitude)
      · simpa [text, complexText, him] using
          (inline_intText re).append (hplus.append hmagnitude)
  | log kind value unit ih =>
      obtain ⟨hvalue, hunit⟩ := hv
      rw [text_eq_layout, Layout.text, String.toList_append]
      refine Inline.append ?_ (Options.inline_logTail htells hunit _)
      rw [layout, text_head, UnitText.group]
      -- Whatever is not a number alone has been put into parentheses of its own.
      split
      · simpa using (ih hvalue).group
      · exact ih hvalue
  | float | complex | custom => exact absurd hv not_false

theorem Value.head_cases (o : Options) (c : Context) {v : Value} (hv : v.Over logUnits) :
    (∃ n, v = .int n) ∨ v.head o c = .group (v.text o c) := by
  cases v with
  | int n => exact Or.inl ⟨n, rfl⟩
  | ratio | complexInt | log => exact Or.inr rfl
  | float | complex | custom => exact absurd hv not_false

theorem Value.valid_head (htells : c.Tells units logUnits) {v : Value}
    (hv : v.Over logUnits) : (v.head o c).Valid := by
  rcases v.head_cases o c hv with ⟨n, rfl⟩ | hhead
  · trivial
  · rw [hhead]
    exact (v.inline_text htells hv).1

theorem Value.head_ne_other {v : Value} (hv : v.Over logUnits) (text : String) :
    v.head o c ≠ .other text := by
  rcases v.head_cases o c hv with ⟨n, rfl⟩ | hhead
  · exact fun h => nomatch h
  · rw [hhead]
    exact fun h => nomatch h

theorem Options.valid_logTail (o : Options) (identifier : String) :
    (o.logTail identifier).Valid o.literal := by
  unfold logTail
  split
  · next hliteral => exact hliteral
  · trivial

theorem Options.valid_unitTail (htells : c.Tells units logUnits) {e : UnitExpr}
    (he : e.Over units) (hne : e.isDimensionless = false) :
    (o.unitTail e (e.text c)).Valid o.literal := by
  have hstart := e.clearStart_text htells he hne
  have hempty : (e.text c).isEmpty = false := by simpa using hstart.ne_empty
  unfold unitTail
  split
  · trivial
  · split
    · next hquotes => exact (Bool.and_eq_true_iff.mp hquotes).1
    · next hquotes => exact ⟨by simpa [hempty] using hquotes, hstart⟩

theorem Value.valid_layout (htells : c.Tells units logUnits) {v : Value}
    (hv : v.Over logUnits) : (v.layout o c).Valid o.literal := by
  cases v with
  | int | ratio | complexInt => exact ⟨trivial, trivial, fun _ h => nomatch h⟩
  | log kind value unit =>
      exact ⟨value.valid_head htells hv.1, o.valid_logTail _,
        fun text h => absurd h (value.head_ne_other hv.1 text)⟩
  | float | complex | custom => exact absurd hv not_false

theorem Quantity.valid_layout (htells : c.Tells units logUnits) {q : Quantity}
    (hq : q.Over units logUnits) : (q.layout o c).Valid o.literal := by
  unfold layout
  cases hne : q.unit.isDimensionless with
  | true => exact q.value.valid_layout htells hq.value
  | false =>
      exact ⟨q.value.valid_head htells hq.value, Options.valid_unitTail htells hq.unit hne,
        fun text h => absurd h (q.value.head_ne_other hq.value text)⟩

theorem QuantityRange.balanced_boundsText (htells : c.Tells units logUnits) {r : QuantityRange}
    (hr : r.Over units logUnits) : Balanced (r.boundsText o c).toList := by
  have hcolon : Balanced [':'] := .of_plain (by simp)
  have hstart := (r.start.inline_text (o := o) htells hr.start).1
  have hstep := (r.step.inline_text (o := o) htells hr.step).1
  have hstop := (r.stop.inline_text (o := o) htells hr.stop).1
  unfold boundsText
  split
  · simpa using hstart.append (hcolon.append hstop)
  · simpa using hstart.append (hcolon.append (hstep.append (hcolon.append hstop)))

theorem QuantityRange.valid_layout (htells : c.Tells units logUnits) {r : QuantityRange}
    (hr : r.Over units logUnits) : (r.layout o c).Valid o.literal := by
  refine ⟨balanced_boundsText htells hr, ?_, fun _ h => nomatch h⟩
  unfold layout
  cases hne : r.unit.isDimensionless with
  | true => trivial
  | false => exact Options.valid_unitTail htells hr.unit hne

theorem clearStart_noUnitsText : ClearStart noUnitsText :=
  ⟨'N', "oUnits".toList, by decide, by decide, by decide⟩

theorem UnitExpr.clearStart_textAlone (htells : c.Tells units logUnits) {e : UnitExpr}
    (he : e.Over units) : ClearStart (e.textAlone o c) := by
  unfold textAlone
  split
  · exact clearStart_noUnitsText
  · next hne =>
      unfold Options.unitText
      split
      · exact clearStart_quoteUnit _
      · exact clearStart_text htells he (Bool.not_eq_true _ ▸ hne)

theorem Item.valid_layout (htells : c.Tells units logUnits) {x : Item}
    (hx : x.Over units logUnits) : (x.layout o c).Valid o.literal := by
  cases x with
  | quantity q => exact q.valid_layout htells hx
  | log q => exact q.toValue.valid_layout htells hx
  | range r => exact r.valid_layout htells hx
  | units e => exact ⟨e.clearStart_textAlone htells hx, trivial, fun _ _ => rfl⟩
  | noUnits => exact ⟨clearStart_noUnitsText, trivial, fun _ _ => rfl⟩

end Validity

end UnitText
