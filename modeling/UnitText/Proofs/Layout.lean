import UnitText.Proofs.Names

/-!
How texts are laid out.

A text that has a value consists of a head, which is a number or something in
parentheses, and of a tail, which is the rest of the number or a unit.  Main
statements: every item is written as its layout (`Item.text_eq_layout`), and the
layout can be read off the text (`Layout.read_text`), so no two layouts share a
text.
-/

namespace UnitText

/-- The text before the parenthesis that closes a group and the text behind it.  The
number tells how many further parentheses are open. -/
def splitGroup : Nat → List Char → List Char × List Char
  | _, [] => ([], [])
  | 0, c :: cs =>
    if c = ')' then ([], cs)
    else
      let (body, rest) := splitGroup (if c = '(' then 1 else 0) cs
      (c :: body, rest)
  | depth + 1, c :: cs =>
    let (body, rest) :=
      splitGroup (if c = ')' then depth else if c = '(' then depth + 2 else depth + 1) cs
    (c :: body, rest)

/-- A text that closes just the parentheses that it opens. -/
def Balanced (cs : List Char) : Prop :=
  ∀ depth rest, splitGroup depth (cs ++ rest) =
    (cs ++ (splitGroup depth rest).1, (splitGroup depth rest).2)

namespace Balanced

variable {cs ds : List Char}

theorem append (hcs : Balanced cs) (hds : Balanced ds) : Balanced (cs ++ ds) := by
  intro depth rest
  rw [List.append_assoc, hcs, hds, List.append_assoc]

theorem of_plain (h : ∀ c ∈ cs, c ≠ '(' ∧ c ≠ ')') : Balanced cs := by
  intro depth rest
  induction cs with
  | nil => rfl
  | cons c cs ih =>
      rw [List.forall_mem_cons] at h
      obtain ⟨⟨hopen, hclose⟩, hcs⟩ := h
      cases depth with
      | zero => simp [splitGroup, hopen, hclose, ih hcs]
      | succ depth => simp [splitGroup, hopen, hclose, ih hcs]

theorem group (hcs : Balanced cs) : Balanced ('(' :: (cs ++ [')'])) := by
  intro depth rest
  have hinside := hcs (depth + 1) (')' :: rest)
  cases depth with
  | zero => simp [splitGroup, hinside]
  | succ depth => simp [splitGroup, hinside]

/-- A group ends where its balanced text ends. -/
theorem splitGroup_close (hcs : Balanced cs) (rest : List Char) :
    splitGroup 0 (cs ++ ')' :: rest) = (cs, rest) := by
  rw [hcs]
  simp [splitGroup]

end Balanced

/-- What stands at the front of a text. -/
inductive Head where
  | number (n : Int)
  | group (body : String)
  /-- A text that is not taken apart. -/
  | other (text : String)

/-- What stands behind the head of a text. -/
inductive Tail where
  | none
  | denominator (n : Nat)
  | imaginary (negative : Bool) (magnitude : Nat)
  | bare (units : String)
  | grouped (units : String)
  | quoted (units : String)

structure Layout where
  head : Head
  tail : Tail

def Head.text : Head → String
  | number n => intText n
  | group body => "(" ++ body ++ ")"
  | other text => text

def Head.isGroup : Head → Bool
  | number _ => false
  | group _ => true
  | other _ => false

/-- The text of a tail behind a head that is a group or not. -/
def Tail.text (behindGroup : Bool) : Tail → String
  | none => ""
  | denominator n => "//" ++ toString n
  | imaginary negative magnitude =>
    (if negative then " - " else " + ") ++ toString magnitude ++ "i"
  | bare units => units
  | grouped units => (if behindGroup then "*" else "") ++ "(" ++ units ++ ")"
  | quoted units => quoteUnit units

def Layout.text (l : Layout) : String :=
  l.head.text ++ l.tail.text l.head.isGroup

/-- A text whose first sign can belong neither to a number nor to what follows one. -/
def ClearStart (text : String) : Prop :=
  ∃ c cs, text.toList = c :: cs ∧ c.isDigit = false ∧ c ∉ ['-', '(', '*', '/', ' ']

def Head.Valid : Head → Prop
  | number _ => True
  | group body => Balanced body.toList
  | other text => ClearStart text

def Tail.Valid (literal : Bool) : Tail → Prop
  | none => True
  | denominator _ => True
  | imaginary _ _ => True
  | bare units => literal = false ∧ ClearStart units
  | grouped _ => True
  | quoted _ => literal = true

/-- Each part of a layout can be told from what stands beside it. -/
structure Layout.Valid (literal : Bool) (l : Layout) : Prop where
  head : l.head.Valid
  tail : l.tail.Valid literal
  tail_eq_none : ∀ text, l.head = .other text → l.tail = .none

/-- The tail of which this is the text. -/
def Tail.read (literal : Bool) : List Char → Tail
  | [] => .none
  | c :: cs =>
    if c = '/' then .denominator ((String.ofList cs.tail).toNat?.getD 0)
    else if c = ' ' then
      .imaginary (cs.head? = some '-') ((String.ofList (cs.drop 2).dropLast).toNat?.getD 0)
    else if c = '(' then .grouped (String.ofList cs.dropLast)
    else if c = '*' then .grouped (String.ofList cs.tail.dropLast)
    else if literal then .quoted (String.ofList cs.tail.dropLast)
    else .bare (String.ofList (c :: cs))

/-- The layout of which this is the text. -/
def Layout.read (literal : Bool) (cs : List Char) : Layout :=
  if cs.head? = some '(' then
    let (body, rest) := splitGroup 0 cs.tail
    ⟨.group (String.ofList body), .read literal rest⟩
  else if cs.head?.any isNumeric then
    ⟨.number ((String.ofList (cs.takeWhile isNumeric)).toInt?.getD 0),
      .read literal (cs.dropWhile isNumeric)⟩
  else ⟨.other (String.ofList cs), .none⟩

theorem toNat?_toDigits (n : Nat) : (String.ofList (Nat.toDigits 10 n)).toNat? = some n := by
  rw [← Nat.toList_repr, String.ofList_toList]
  exact Nat.toNat?_repr n

theorem Tail.read_text {literal : Bool} {t : Tail} (ht : t.Valid literal) (behindGroup : Bool) :
    read literal (t.text behindGroup).toList = t := by
  cases t with
  | none => rfl
  | denominator n => simp [text, read, toNat?_toDigits]
  | imaginary negative magnitude =>
      cases negative with
      | false => simp [text, read, toNat?_toDigits]
      | true => simp [text, read, toNat?_toDigits]
  | bare units =>
      obtain ⟨rfl, c, cs, hunits, -, hc⟩ := ht
      have hback : String.ofList (c :: cs) = units := by
        rw [← hunits, String.ofList_toList]
      simp only [List.mem_cons, List.not_mem_nil, or_false, not_or] at hc
      simp [text, read, hunits, hc, hback]
  | grouped units =>
      cases behindGroup with
      | false => simp [text, read]
      | true => simp [text, read]
  | quoted units =>
      obtain rfl : literal = true := ht
      simp [text, read, quoteUnit]

/-- A number ends before its tail. -/
theorem Tail.not_isNumeric {literal : Bool} {t : Tail} (ht : t.Valid literal)
    (behindGroup : Bool) : ∀ c ∈ (t.text behindGroup).toList.head?, isNumeric c = false := by
  cases t with
  | none => simp [text]
  | denominator n => simp [text, isNumeric]
  | imaginary negative magnitude =>
      cases negative with
      | false => simp [text, isNumeric]
      | true => simp [text, isNumeric]
  | bare units =>
      obtain ⟨-, c, cs, hunits, hdigit, hc⟩ := ht
      simp only [List.mem_cons, List.not_mem_nil, or_false, not_or] at hc
      simp [text, hunits, isNumeric, hdigit, hc]
  | grouped units =>
      cases behindGroup with
      | false => simp [text, isNumeric]
      | true => simp [text, isNumeric]
  | quoted units => simp [text, quoteUnit, isNumeric]

theorem intText_ne_empty (n : Int) : intText n ≠ "" := by
  unfold intText
  split
  · intro h
    exact Nat.repr_ne_empty (String.append_eq_empty_iff.mp h).2
  · exact Nat.repr_ne_empty

theorem head?_intText (n : Int) : ∃ c, (intText n).toList.head? = some c ∧ isNumeric c := by
  cases hdigits : (intText n).toList with
  | nil => exact absurd (String.toList_eq_nil_iff.mp hdigits) (intText_ne_empty n)
  | cons c cs =>
      have hmem : c ∈ (intText n).toList := by
        rw [hdigits]
        exact List.mem_cons_self
      exact ⟨c, rfl, isNumeric_of_mem_intText hmem⟩

/-- The text of a layout shows the layout. -/
theorem Layout.read_text {literal : Bool} {l : Layout} (hl : l.Valid literal) :
    read literal l.text.toList = l := by
  obtain ⟨head, tail⟩ := l
  obtain ⟨hhead, htail, hother⟩ := hl
  have hread := Tail.read_text htail head.isGroup
  cases head with
  | number n =>
      obtain ⟨c, hc, hnumeric⟩ := head?_intText n
      have hopen : c ≠ '(' := by
        rintro rfl
        cases hnumeric
      have hfirst : ((intText n).toList ++ (tail.text false).toList).head? = some c := by
        rw [List.head?_append, hc, Option.some_or]
      -- No tail goes on with digits, so the number is taken whole.
      obtain ⟨htake, hdrop⟩ := takeWhile_dropWhile_append
        (fun c hc => isNumeric_of_mem_intText (n := n) hc) (Tail.not_isNumeric htail false)
      simp only [text, Head.text, Head.isGroup, String.toList_append, read, hfirst, htake, hdrop,
        String.ofList_toList, toInt?_intText]
      simpa [hopen, hnumeric, Head.isGroup] using hread
  | group body =>
      have hsplit := Balanced.splitGroup_close hhead (tail.text true).toList
      simpa [text, Head.text, read, Head.isGroup, hsplit] using hread
  | other text =>
      obtain ⟨c, cs, htext, hdigit, hc⟩ := hhead
      obtain rfl : tail = .none := hother text rfl
      simp only [List.mem_cons, List.not_mem_nil, or_false, not_or] at hc
      have hback : String.ofList (c :: cs) = text := by
        rw [← htext, String.ofList_toList]
      simp [Layout.text, Head.text, Tail.text, read, htext, isNumeric, hdigit, hc, hback]

theorem Layout.eq_of_text_eq {literal : Bool} {l l' : Layout} (hl : l.Valid literal)
    (hl' : l'.Valid literal) (htext : l.text = l'.text) : l = l' := by
  rw [← read_text hl, htext, read_text hl']

/-- A value before a unit. -/
def Value.head (o : Options) (c : Context) : Value → Head
  | .int n => .number n
  | v => if v.needsGroup then .group (v.text o c) else .other (v.text o c)

/-- A logarithmic unit behind a value. -/
def Options.logTail (o : Options) (identifier : String) : Tail :=
  if o.literal then .quoted identifier else .grouped identifier

/-- A unit behind a value. -/
def Options.unitTail (o : Options) (e : UnitExpr) (units : String) : Tail :=
  if o.groupsUnit e then .grouped units
  else if o.literal && !units.isEmpty then .quoted units
  else .bare units

def Value.layout (o : Options) (c : Context) : Value → Layout
  | .int n => ⟨.number n, .none⟩
  | .ratio q => ⟨.number q.num, .denominator q.den⟩
  | .complexInt re im => ⟨.number re, .imaginary (im < 0) im.natAbs⟩
  | .log _ value unit => ⟨value.head o c, o.logTail (c.logIdentifier unit)⟩
  | v => ⟨.other (v.text o c), .none⟩

def Quantity.layout (o : Options) (c : Context) (q : Quantity) : Layout :=
  if q.unit.isDimensionless then q.value.layout o c
  else ⟨q.value.head o c, o.unitTail q.unit (q.unit.text c)⟩

def QuantityRange.layout (o : Options) (c : Context) (r : QuantityRange) : Layout :=
  ⟨.group (r.boundsText o c),
    if r.unit.isDimensionless then .none else o.unitTail r.unit (r.unit.text c)⟩

def Item.layout (o : Options) (c : Context) : Item → Layout
  | .quantity q => q.layout o c
  | .log q => q.toValue.layout o c
  | .range r => r.layout o c
  | .units e => ⟨.other (e.textAlone o c), .none⟩
  | .noUnits => ⟨.other noUnitsText, .none⟩

section Text

variable (o : Options) (c : Context)

theorem Value.isGroup_head (v : Value) : (v.head o c).isGroup = v.needsGroup := by
  cases v with
  | int | float | ratio | complex | complexInt | log => rfl
  | custom n => cases h : n.needsGroup <;> simp [head, needsGroup, h, Head.isGroup]

theorem Value.text_head (v : Value) :
    (v.head o c).text = group v.needsGroup (v.text o c) := by
  cases v with
  | int | float | ratio | complex | complexInt | log => rfl
  | custom n => cases h : n.needsGroup <;> simp [head, needsGroup, h, Head.text, group]

theorem Options.text_logTail (behindGroup : Bool) (identifier : String) :
    (o.logTail identifier).text behindGroup =
      (if behindGroup && o.groupsLogUnit then "*" else "") ++
        group o.groupsLogUnit (o.logUnitText identifier) := by
  cases h : o.literal with
  | false => simp [logTail, groupsLogUnit, logUnitText, h, Tail.text, group, String.append_assoc]
  | true => simp [logTail, groupsLogUnit, logUnitText, h, Tail.text, group]

theorem Options.text_unitTail (behindGroup : Bool) (e : UnitExpr) (units : String) :
    (o.unitTail e units).text behindGroup =
      (if behindGroup && o.groupsUnit e then "*" else "") ++
        group (o.groupsUnit e) (o.unitText units) := by
  by_cases hgroups : o.groupsUnit e
  · have hliteral : o.literal = false := by
      simp only [groupsUnit, Bool.and_eq_true, Bool.not_eq_true'] at hgroups
      exact hgroups.2
    simp [unitTail, hgroups, unitText, hliteral, Tail.text, group, String.append_assoc]
  · by_cases hquotes : o.literal && !units.isEmpty
    · simp [unitTail, hgroups, unitText, hquotes, Tail.text, group]
    · simp [unitTail, hgroups, unitText, hquotes, Tail.text, group]

theorem Value.text_eq_layout (v : Value) : v.text o c = (v.layout o c).text := by
  cases v with
  | int | float | complex | custom => simp [text, layout, Layout.text, Head.text, Tail.text]
  | ratio q =>
      rw [text, Ratio.text, String.append_assoc]
      rfl
  | complexInt re im =>
      simp [text, complexText, layout, Layout.text, Head.text, Tail.text, String.append_assoc]
  | log kind value unit =>
      simp only [text, juxtapose, layout, Layout.text, isGroup_head, text_head,
        Options.text_logTail, String.append_assoc]

theorem Quantity.text_eq_layout (q : Quantity) : q.text o c = (q.layout o c).text := by
  unfold text layout
  split
  · exact q.value.text_eq_layout o c
  · simp only [juxtapose, Layout.text, Value.isGroup_head, Value.text_head,
      Options.text_unitTail, String.append_assoc]

theorem QuantityRange.text_eq_layout (r : QuantityRange) : r.text o c = (r.layout o c).text := by
  unfold text layout
  split
  · simp [Layout.text, Head.text, Tail.text, group]
  · simp [juxtapose, Layout.text, Head.text, Head.isGroup, Options.text_unitTail, group,
      String.append_assoc]

theorem Item.text_eq_layout (x : Item) : x.text o c = (x.layout o c).text := by
  cases x with
  | quantity q => exact q.text_eq_layout o c
  | log q => exact q.toValue.text_eq_layout o c
  | range r => exact r.text_eq_layout o c
  | units e => exact String.append_empty.symm
  | noUnits => rfl

end Text

end UnitText
