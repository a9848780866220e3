import Mathlib.Data.Rat.Cast.Defs
import Std.Data.String.ToInt
import UnitText.Proofs.BoundedRatio
import UnitText.Proofs.Text

/-!
Reading unit text.

`readUnits` is a reader for the text of unit expressions.  It knows nothing of
how the text was made: it splits the text at the separators outside
parentheses, reads each part as a name with or without an exponent, and negates
the exponent of a part behind `/`.  Main statement: what it reads in the text
of an expression are the names and exponents of the ordered atoms
(`UnitExpr.readUnits_text`).
-/

namespace UnitText

/-- The text up to the first separator outside parentheses, and the texts behind
each separator.  The number tells how many parentheses are open. -/
def splitFactors : Nat → List Char → List Char × List (Char × List Char)
  | _, [] => ([], [])
  | depth, c :: cs =>
    if depth = 0 ∧ (c = '*' ∨ c = '/') then
      ([], (c, (splitFactors 0 cs).1) :: (splitFactors 0 cs).2)
    else
      let depth' := if c = '(' then depth + 1 else if c = ')' then depth - 1 else depth
      (c :: (splitFactors depth' cs).1, (splitFactors depth' cs).2)

/-- The quotient of a whole number and of the natural number before the closing
parenthesis. -/
def readQuotient (numer denom : List Char) : Option ℚ := do
  let n ← (String.ofList numer).toInt?
  let d ← (String.ofList denom.dropLast).toNat?
  if denom.getLast? = some ')' then some (n / d) else none

/-- An exponent: nothing for one, or a whole number, or a fraction in parentheses
with one or two strokes. -/
def readPower : List Char → Option ℚ
  | [] => some 1
  | '^' :: '(' :: cs =>
    match cs.dropWhile (· ≠ '/') with
    | _ :: rest =>
      let denom := if rest.head? = some '/' then rest.tail else rest
      readQuotient (cs.takeWhile (· ≠ '/')) denom
    | [] => none
  | '^' :: cs => (String.ofList cs).toInt?.map fun n => (n : ℚ)
  | _ => none

/-- A name and its exponent, negated behind `/`. -/
def readFactor (separator : Char) (cs : List Char) : Option (String × ℚ) := do
  let power ← readPower (cs.dropWhile (· ≠ '^'))
  let name := String.ofList (cs.takeWhile (· ≠ '^'))
  some (name, if separator = '/' then -power else power)

/-- The names and exponents in a unit text. -/
def readUnits (text : String) : Option (List (String × ℚ)) :=
  if text = "" then some []
  else
    let (first, rest) := splitFactors 0 text.toList
    (('*', first) :: rest).mapM fun (separator, cs) => readFactor separator cs

/-- A name that no sign of unit text can break: it is not empty, and there are no
separators, exponents and parentheses in it. -/
def PlainName (name : String) : Prop :=
  name ≠ "" ∧ ∀ c ∈ name.toList, c ≠ '*' ∧ c ≠ '/' ∧ c ≠ '^' ∧ c ≠ '(' ∧ c ≠ ')'

/-- A name that keeps together in a unit text, though it may be empty. -/
def Unbroken (name : String) : Prop :=
  ∀ c ∈ name.toList, c ≠ '*' ∧ c ≠ '/' ∧ c ≠ '^' ∧ c ≠ '(' ∧ c ≠ ')'

theorem PlainName.unbroken {name : String} (h : PlainName name) : Unbroken name :=
  h.2

/-- The parts of a unit text, each with the separator before it.  The first one reads as if
it were multiplied. -/
def splitText (text : String) : List (Char × List Char) :=
  let (first, rest) := splitFactors 0 text.toList
  ('*', first) :: rest

theorem readUnits_eq {text : String} (h : text ≠ "") :
    readUnits text = (splitText text).mapM fun part => readFactor part.1 part.2 :=
  if_neg h

theorem intText_eq_repr (n : Int) : intText n = n.repr := by
  unfold intText
  cases n with
  | ofNat n => rfl
  | negSucc n =>
      rw [if_pos (Int.negSucc_lt_zero n)]
      rfl

theorem intText_natCast (n : Nat) : intText n = toString n := by
  rw [intText, if_neg (not_lt.mpr (Int.natCast_nonneg n)), Int.natAbs_natCast]

theorem toInt?_intText (n : Int) : (intText n).toInt? = some n := by
  rw [intText_eq_repr]
  exact Int.toInt?_repr n

theorem toNat?_toString (n : Nat) : (toString n).toNat? = some n :=
  Nat.toNat?_repr n

/-- Whether a sign belongs to a number. -/
def isNumeric (c : Char) : Bool :=
  c == '-' || c.isDigit

theorem isDigit_of_mem_toString {n : Nat} {c : Char} (h : c ∈ (toString n).toList) :
    c.isDigit := by
  rw [Nat.toString_eq_repr, Nat.toList_repr] at h
  exact Nat.isDigit_of_mem_toDigits (by omega) (by omega) h

theorem isNumeric_of_mem_toString {n : Nat} {c : Char} (h : c ∈ (toString n).toList) :
    isNumeric c := by
  rw [isNumeric, isDigit_of_mem_toString h, Bool.or_true]

theorem isNumeric_of_mem_intText {n : Int} {c : Char} (h : c ∈ (intText n).toList) :
    isNumeric c := by
  unfold intText at h
  split at h
  · rw [String.toList_append, List.mem_append] at h
    rcases h with h | h
    · have hminus : c = '-' := by simpa using h
      rw [hminus]
      rfl
    · exact isNumeric_of_mem_toString h
  · exact isNumeric_of_mem_toString h

theorem ne_of_isNumeric {c d : Char} (hc : isNumeric c) (hd : isNumeric d = false) :
    c ≠ d := by
  rintro rfl
  rw [hc] at hd
  cases hd

/-- A text splits where the first part of it ends. -/
theorem takeWhile_dropWhile_append {p : Char → Bool} {before after : List Char}
    (hbefore : ∀ c ∈ before, p c) (hafter : ∀ c ∈ after.head?, p c = false) :
    (before ++ after).takeWhile p = before ∧ (before ++ after).dropWhile p = after := by
  rw [List.takeWhile_append_of_pos hbefore, List.dropWhile_append_of_pos hbefore]
  cases after with
  | nil => simp
  | cons c cs =>
      have hc : p c = false := hafter c rfl
      simp [hc]

theorem readQuotient_text (n : Int) (d : Nat) :
    readQuotient (intText n).toList ((toString d).toList ++ [')']) = some ((n : ℚ) / d) := by
  unfold readQuotient
  rw [List.dropLast_concat, List.getLast?_concat, String.ofList_toList, String.ofList_toList,
    toInt?_intText, toNat?_toString]
  rfl

/-- A fraction in parentheses is read whichever stroke it is written with. -/
theorem readPower_fraction (n : Int) (d : Nat) {stroke : List Char}
    (hstroke : stroke = [] ∨ stroke = ['/']) :
    readPower ('^' :: '(' :: ((intText n).toList ++
      '/' :: (stroke ++ ((toString d).toList ++ [')'])))) = some ((n : ℚ) / d) := by
  have hnumer : ∀ c ∈ (intText n).toList, decide (c ≠ '/') := fun c hc =>
    decide_eq_true (ne_of_isNumeric (isNumeric_of_mem_intText hc) rfl)
  have hdenom : ((toString d).toList ++ [')']).head? ≠ some '/' := by
    rw [List.head?_append]
    cases hhead : (toString d).toList.head? with
    | none => simp
    | some c =>
        have hdigit := isNumeric_of_mem_toString (List.mem_of_head? hhead)
        simpa using ne_of_isNumeric hdigit rfl
  have hafter : ∀ c ∈ ('/' :: (stroke ++ ((toString d).toList ++ [')']))).head?,
      decide (c ≠ '/') = false := by simp
  obtain ⟨htake, hdrop⟩ := takeWhile_dropWhile_append hnumer hafter
  simp only [readPower, htake, hdrop]
  rcases hstroke with rfl | rfl
  · dsimp only [List.nil_append]
    rw [if_neg hdenom]
    exact readQuotient_text n d
  · exact readQuotient_text n d

theorem readPower_whole (n : Int) :
    readPower ('^' :: (intText n).toList) = some (n : ℚ) := by
  rw [readPower]
  · rw [String.ofList_toList, toInt?_intText]
    rfl
  · intro cs heq
    have hopen : '(' ∈ (intText n).toList := by
      rw [heq]
      exact List.mem_cons_self
    exact ne_of_isNumeric (isNumeric_of_mem_intText hopen) rfl rfl

namespace Power

/-- The exponent that a power spells. -/
def value : Power → ℚ
  | omitted => 1
  | whole n => n
  | binary n d => n / d
  | exact n d => n / d

theorem readPower_text (p : Power) : readPower p.text.toList = some p.value := by
  cases p with
  | omitted => rfl
  | whole n => simpa [text, value] using readPower_whole n
  | binary n d => simpa [text, value] using readPower_fraction n d (Or.inl rfl)
  | exact n d => simpa [text, value] using readPower_fraction n d (Or.inr rfl)

theorem value_ofInt (n : Int) : (ofInt n).value = n := by
  unfold ofInt
  split
  · next hone =>
      rw [hone]
      rfl
  · rfl

/-- A power spells the exponent that it was made for. -/
theorem value_ofExponent (q : Exponent) : (ofExponent q).value = q.toRat := by
  unfold ofExponent
  split
  · next hinteger => rw [value_ofInt, Ratio.toRat_of_isInteger hinteger]
  · rw [q.toRat_eq_div]
    split
    · rfl
    · rfl

/-- The power of a divisor spells the exponent without its sign. -/
theorem value_ofDivisor {q : Exponent} (hinteger : q.isInteger) (hnegative : q.isNegative) :
    -(ofDivisor q).value = q.toRat := by
  have hnum : q.num < 0 := of_decide_eq_true hnegative
  have habs : (q.num.natAbs : Int) = -q.num := Int.ofNat_natAbs_of_nonpos hnum.le
  rw [ofDivisor, value_ofInt, habs, Ratio.toRat_of_isInteger hinteger]
  push_cast
  rw [neg_neg]

end Power

namespace Factor

/-- The name of a factor, when its unit has the given identifier. -/
def name (f : Factor) (identifier : String) : String :=
  f.scale.symbol ++ identifier

/-- The text of a factor but for what joins it to the text before. -/
def body (f : Factor) (identifier : String) : List Char :=
  (f.name identifier).toList ++ f.power.text.toList

theorem toList_text (f : Factor) (identifier : String) :
    (f.text identifier).toList = f.joint.text.toList ++ f.body identifier := by
  simp [text, body, name]

end Factor

/-- A text that holds no separator outside parentheses and closes all that it opens. -/
def Closed (cs : List Char) : Prop :=
  ∀ rest, splitFactors 0 (cs ++ rest) =
    (cs ++ (splitFactors 0 rest).1, (splitFactors 0 rest).2)

namespace Closed

theorem append {cs ds : List Char} (hcs : Closed cs) (hds : Closed ds) :
    Closed (cs ++ ds) := by
  intro rest
  rw [List.append_assoc, hcs, hds, List.append_assoc]

/-- Plain signs separate nothing. -/
theorem of_plain {cs : List Char}
    (h : ∀ c ∈ cs, c ≠ '*' ∧ c ≠ '/' ∧ c ≠ '(' ∧ c ≠ ')') : Closed cs := by
  intro rest
  induction cs with
  | nil => rfl
  | cons c cs ih =>
      rw [List.forall_mem_cons] at h
      obtain ⟨⟨htimes, hover, hopen, hclose⟩, hcs⟩ := h
      simp [splitFactors, htimes, hover, hopen, hclose, ih hcs]

/-- Within one parenthesis nothing is separated before it is closed. -/
theorem parenthesized {cs : List Char} (h : ∀ c ∈ cs, c ≠ '(' ∧ c ≠ ')') :
    Closed ('(' :: (cs ++ [')'])) := by
  have hinside : ∀ rest, splitFactors 1 (cs ++ ')' :: rest) =
      (cs ++ ')' :: (splitFactors 0 rest).1, (splitFactors 0 rest).2) := by
    intro rest
    induction cs with
    | nil => simp [splitFactors]
    | cons c cs ih =>
        rw [List.forall_mem_cons] at h
        simp [splitFactors, h.1.1, h.1.2, ih h.2]
  intro rest
  simp [splitFactors, hinside]

end Closed

theorem closed_intText (n : Int) : Closed (intText n).toList := by
  apply Closed.of_plain
  intro c hc
  have hnumeric := isNumeric_of_mem_intText hc
  exact ⟨ne_of_isNumeric hnumeric rfl, ne_of_isNumeric hnumeric rfl,
    ne_of_isNumeric hnumeric rfl, ne_of_isNumeric hnumeric rfl⟩

theorem closed_fraction (n : Int) (d : Nat) {strokes : List Char}
    (hstrokes : ∀ c ∈ strokes, c = '/') :
    Closed ('(' :: ((intText n).toList ++ strokes ++ (toString d).toList ++ [')'])) := by
  apply Closed.parenthesized
  intro c hc
  rw [List.mem_append, List.mem_append] at hc
  rcases hc with (hc | hc) | hc
  · have hnumeric := isNumeric_of_mem_intText hc
    exact ⟨ne_of_isNumeric hnumeric rfl, ne_of_isNumeric hnumeric rfl⟩
  · simp [hstrokes c hc]
  · have hnumeric := isNumeric_of_mem_toString hc
    exact ⟨ne_of_isNumeric hnumeric rfl, ne_of_isNumeric hnumeric rfl⟩

theorem Power.closed_text (p : Power) : Closed p.text.toList := by
  have hsign : Closed ['^'] := Closed.of_plain (by simp)
  cases p with
  | omitted => exact fun _ => rfl
  | whole n => simpa [text] using hsign.append (closed_intText n)
  | binary n d =>
      have hstrokes : ∀ c ∈ ['/'], c = '/' := by simp
      simpa [text] using hsign.append (closed_fraction n d hstrokes)
  | exact n d =>
      have hstrokes : ∀ c ∈ ['/', '/'], c = '/' := by simp
      simpa [text] using hsign.append (closed_fraction n d hstrokes)

theorem Power.head?_text (p : Power) : ∀ c ∈ p.text.toList.head?, c = '^' := by
  cases p with
  | omitted | whole | binary | exact => simp [text]

/-- The sign that joins a factor; the first one reads as if it were multiplied. -/
def Joint.sign : Joint → Char
  | .start => '*'
  | .times => '*'
  | .over => '/'

theorem Joint.toList_text {j : Joint} (h : j ≠ .start) : j.text.toList = [j.sign] := by
  cases j with
  | start => exact absurd rfl h
  | _ => simp [text, sign]

namespace Factor

variable {f : Factor} {identifier : String}

theorem closed_body (h : Unbroken (f.name identifier)) : Closed (f.body identifier) := by
  refine (Closed.of_plain fun c hc => ?_).append f.power.closed_text
  obtain ⟨htimes, hover, -, hopen, hclose⟩ := h c hc
  exact ⟨htimes, hover, hopen, hclose⟩

/-- The name and the exponent that a factor stands for. -/
def reading (f : Factor) (identifier : String) : String × ℚ :=
  (f.name identifier, if f.joint = .over then -f.power.value else f.power.value)

theorem takeWhile_body (h : Unbroken (f.name identifier)) :
    (f.body identifier).takeWhile (· ≠ '^') = (f.name identifier).toList ∧
      (f.body identifier).dropWhile (· ≠ '^') = f.power.text.toList := by
  have hname : ∀ c ∈ (f.name identifier).toList, decide (c ≠ '^') :=
    fun c hc => decide_eq_true (h c hc).2.2.1
  have hpower : ∀ c ∈ f.power.text.toList.head?, decide (c ≠ '^') = false :=
    fun c hc => decide_eq_false (not_not_intro (f.power.head?_text c hc))
  exact takeWhile_dropWhile_append hname hpower

theorem readFactor_body (h : Unbroken (f.name identifier)) :
    readFactor f.joint.sign (f.body identifier) = some (f.reading identifier) := by
  obtain ⟨hname, hpower⟩ := takeWhile_body h
  have hsign : f.joint.sign = '/' ↔ f.joint = .over := by
    cases f.joint <;> decide
  unfold readFactor
  rw [hname, hpower, Power.readPower_text, String.ofList_toList]
  simp only [Option.bind_eq_bind, Option.bind_some, hsign]
  rfl

end Factor

/-- Splitting finds the factors again, each behind the sign that joins it. -/
theorem splitFactors_bodies {identifier : Factor → String} {first : Factor}
    (hfirst : Unbroken (first.name (identifier first))) {rest : List Factor}
    (hrest : ∀ f ∈ rest, Unbroken (f.name (identifier f))) :
    splitFactors 0 (first.body (identifier first) ++
        rest.flatMap fun f => f.joint.sign :: f.body (identifier f)) =
      (first.body (identifier first), rest.map fun f => (f.joint.sign, f.body (identifier f))) := by
  induction rest generalizing first with
  | nil =>
      rw [Factor.closed_body hfirst]
      simp [splitFactors]
  | cons f rest ih =>
      rw [List.forall_mem_cons] at hrest
      have hsign : f.joint.sign = '*' ∨ f.joint.sign = '/' := by
        cases f.joint <;> decide
      rw [Factor.closed_body hfirst, List.flatMap_cons, List.cons_append, splitFactors,
        if_pos ⟨rfl, hsign⟩, ih hrest.1 hrest.2, List.append_nil, List.map_cons]

theorem mapM_eq_some {α β : Type} {f : α → Option β} {g : α → β} {as : List α}
    (h : ∀ a ∈ as, f a = some (g a)) : as.mapM f = some (as.map g) := by
  induction as with
  | nil => rfl
  | cons a as ih =>
      rw [List.forall_mem_cons] at h
      rw [List.mapM_cons, h.1, ih h.2]
      rfl

/-- The text of a list of factors: the first one is joined to nothing. -/
theorem toList_join_text (identifier : Factor → String) {first : Factor} {rest : List Factor}
    (hstart : first.joint = .start) (hjoints : ∀ f ∈ rest, f.joint ≠ .start) :
    (String.join ((first :: rest).map fun f => f.text (identifier f))).toList =
      first.body (identifier first) ++
        rest.flatMap fun f => f.joint.sign :: f.body (identifier f) := by
  rw [String.toList_join, List.flatMap_map, List.flatMap_cons, Factor.toList_text, hstart]
  congr 1
  apply List.flatMap_congr
  intro f hf
  rw [Factor.toList_text, Joint.toList_text (hjoints f hf), List.singleton_append]

/-- A text of factors splits into these. -/
theorem splitText_factors (identifier : Factor → String) {first : Factor} {rest : List Factor}
    (hstart : first.joint = .start) (hjoints : ∀ f ∈ rest, f.joint ≠ .start)
    (hnames : ∀ f ∈ first :: rest, Unbroken (f.name (identifier f))) :
    splitText (.join ((first :: rest).map fun f => f.text (identifier f))) =
      (first :: rest).map fun f => (f.joint.sign, f.body (identifier f)) := by
  rw [List.forall_mem_cons] at hnames
  rw [splitText, toList_join_text identifier hstart hjoints,
    splitFactors_bodies hnames.1 hnames.2, List.map_cons, hstart]
  rfl

/-- A plain name is the text of one factor. -/
theorem readUnits_plain {name : String} (hname : PlainName name) :
    readUnits name = some [(name, 1)] := by
  let factor : Factor := ⟨.start, .none, ⟨"", ""⟩, .omitted⟩
  have hfactor : factor.name name = name := String.empty_append
  have htext : .join ([factor].map fun f => f.text name) = name := by
    simp [factor, Factor.text, Joint.text, Prefix.symbol, Power.text]
  have hunbroken : Unbroken (factor.name name) := hfactor ▸ hname.unbroken
  have hsplit := splitText_factors (fun _ => name) (rfl : factor.joint = .start)
    (List.forall_mem_nil _) (List.forall_mem_singleton.mpr hunbroken)
  rw [htext] at hsplit
  rw [readUnits_eq hname.1, hsplit, List.map_singleton, List.mapM_cons,
    Factor.readFactor_body hunbroken]
  simp [Factor.reading, factor, hfactor, Power.value]

namespace Ratio

variable {w : Nat}

theorem isNegative_eq (q : Ratio w) : q.isNegative = decide (q.toRat < 0) :=
  decide_eq_decide.mpr Rat.num_neg

theorem not_isNegative_eq (q : Ratio w) : (!q.isNegative) = decide (0 ≤ q.toRat) := by
  rw [isNegative_eq, ← decide_not, decide_eq_decide]
  exact not_lt

end Ratio

namespace UnitExpr

theorem ordered_eq (e : UnitExpr) :
    e.ordered = e.atoms.filter (fun a => !a.exponent.isNegative) ++
      e.atoms.filter fun a => a.exponent.isNegative := by
  simp only [ordered, List.partition_eq_filter_filter]
  rfl

theorem ordered_eq_sign (e : UnitExpr) :
    e.ordered = e.atoms.filter (fun a => 0 ≤ a.exponent.toRat) ++
      e.atoms.filter fun a => a.exponent.toRat < 0 := by
  have hpositive : (fun a : Atom => !a.exponent.isNegative) =
      fun a => decide (0 ≤ a.exponent.toRat) := funext fun a => a.exponent.not_isNegative_eq
  have hnegative : (fun a : Atom => a.exponent.isNegative) =
      fun a => decide (a.exponent.toRat < 0) := funext fun a => a.exponent.isNegative_eq
  rw [ordered_eq, hpositive, hnegative]

theorem ordered_perm (e : UnitExpr) : e.ordered.Perm e.atoms := by
  rw [ordered_eq]
  simpa using List.filter_append_perm (fun a => !a.exponent.isNegative) e.atoms

theorem mem_ordered {e : UnitExpr} {a : Atom} : a ∈ e.ordered ↔ a ∈ e.atoms :=
  e.ordered_perm.mem_iff

theorem ordered_eq_nil_iff {e : UnitExpr} : e.ordered = [] ↔ e.isDimensionless := by
  rw [isDimensionless, ← e.ordered_perm.isEmpty_eq, List.isEmpty_iff]

/-- Where divisors are written, the first factor is none. -/
theorem head_not_isNegative {e : UnitExpr} (hdivision : e.usesDivision) {a : Atom}
    {rest : List Atom} (hordered : e.ordered = a :: rest) :
    a.exponent.isNegative = false := by
  rw [usesDivision, Bool.and_eq_true, List.any_eq_true] at hdivision
  obtain ⟨⟨b, hb, hpositive⟩, -⟩ := hdivision
  rw [ordered_eq] at hordered
  cases hfilter : e.atoms.filter fun a => !a.exponent.isNegative with
  | nil =>
      have hmem : b ∈ e.atoms.filter fun a => !a.exponent.isNegative :=
        List.mem_filter.mpr ⟨hb, hpositive⟩
      rw [hfilter] at hmem
      cases hmem
  | cons first others =>
      rw [hfilter, List.cons_append, List.cons.injEq] at hordered
      have hmem : a ∈ e.atoms.filter fun a => !a.exponent.isNegative := by
        rw [hfilter, hordered.1]
        exact List.mem_cons_self
      simpa using (List.mem_filter.mp hmem).2

theorem isInteger_of_usesDivision {e : UnitExpr} (hdivision : e.usesDivision) {a : Atom}
    (ha : a ∈ e.atoms) : a.exponent.isInteger := by
  rw [usesDivision, Bool.and_eq_true, List.all_eq_true] at hdivision
  exact hdivision.2 a ha

@[simp] theorem followingFactor_scale (division : Bool) (a : Atom) :
    (followingFactor division a).scale = a.scale := by
  unfold followingFactor
  split <;> rfl

@[simp] theorem followingFactor_unit (division : Bool) (a : Atom) :
    (followingFactor division a).unit = a.unit := by
  unfold followingFactor
  split <;> rfl

theorem followingFactor_name (division : Bool) (a : Atom) (identifier : String) :
    (followingFactor division a).name identifier = a.scale.symbol ++ identifier := by
  rw [Factor.name, followingFactor_scale]

theorem followingFactor_joint (division : Bool) (a : Atom) :
    (followingFactor division a).joint ≠ .start := by
  unfold followingFactor
  split
  · exact fun h => nomatch h
  · exact fun h => nomatch h

/-- An atom that is written as a factor stands for its own name and exponent. -/
theorem reading_followingFactor (identifier : String) (a : Atom) {division : Bool}
    (hinteger : division → a.exponent.isInteger) :
    (followingFactor division a).reading identifier =
      (a.scale.symbol ++ identifier, a.exponent.toRat) := by
  unfold followingFactor
  split
  · next hover =>
      rw [Bool.and_eq_true] at hover
      rw [← Power.value_ofDivisor (hinteger hover.1) hover.2]
      rfl
  · rw [← Power.value_ofExponent]
    rfl

/-- The text of an expression splits into its atoms in order, each written as a factor that
follows others. -/
theorem splitText_text {c : Context} {e : UnitExpr}
    (hnames : ∀ a ∈ e.atoms, Unbroken (c.unitName a.scale a.unit)) (hne : e.ordered ≠ []) :
    splitText (e.text c) = e.ordered.map fun a =>
      ((followingFactor e.usesDivision a).joint.sign,
        (followingFactor e.usesDivision a).body (c.unitIdentifier a.unit)) := by
  obtain ⟨a, rest, hordered⟩ := List.exists_cons_of_ne_nil hne
  have hnames : ∀ b ∈ a :: rest, Unbroken (c.unitName b.scale b.unit) :=
    fun b hb => hnames b (mem_ordered.mp (hordered.symm ▸ hb))
  rw [List.forall_mem_cons] at hnames
  have hunbroken : ∀ f ∈ { followingFactor e.usesDivision a with joint := .start } ::
      rest.map (followingFactor e.usesDivision),
      Unbroken (f.name (c.unitIdentifier f.unit)) := by
    rw [List.forall_mem_cons, List.forall_mem_map]
    simpa [Factor.name, Context.unitName] using hnames
  -- The first factor is no divisor, so it has the sign that it would have behind another.
  have hsign : (followingFactor e.usesDivision a).joint.sign = '*' := by
    unfold followingFactor
    split
    · next hover =>
        rw [Bool.and_eq_true] at hover
        rw [head_not_isNegative hover.1 hordered] at hover
        cases hover.2
    · rfl
  rw [text, factors, hordered, List.map_cons,
    splitText_factors (fun f => c.unitIdentifier f.unit) rfl
      (List.forall_mem_map.mpr fun b _ => followingFactor_joint e.usesDivision b) hunbroken,
    List.map_cons, List.map_cons, List.map_map, hsign]
  simp only [Function.comp_def, followingFactor_unit]
  rfl

theorem text_of_ordered_eq_nil {c : Context} {e : UnitExpr} (hordered : e.ordered = []) :
    e.text c = "" := by
  rw [text, factors, hordered]
  rfl

/-- The text of the first atom, which is joined to nothing, and then those of the others. -/
theorem text_of_ordered_eq {c : Context} {e : UnitExpr} {a : Atom} {rest : List Atom}
    (hordered : e.ordered = a :: rest) :
    e.text c = c.unitName a.scale a.unit ++ (followingFactor e.usesDivision a).power.text ++
      .join (rest.map fun b =>
        (followingFactor e.usesDivision b).text (c.unitIdentifier b.unit)) := by
  rw [text, factors, hordered, List.map_cons, List.map_cons, String.join_cons, List.map_map]
  simp only [Factor.text, Joint.text, Context.unitName, Function.comp_def, followingFactor_scale,
    followingFactor_unit, String.empty_append]

/-- The text of an expression begins with the name of its first atom. -/
theorem text_eq_name_append {c : Context} {e : UnitExpr} {a : Atom} {rest : List Atom}
    (hordered : e.ordered = a :: rest) :
    ∃ more, e.text c = c.unitName a.scale a.unit ++ more := by
  rw [text_of_ordered_eq hordered, String.append_assoc]
  exact ⟨_, rfl⟩

/-- The text of an expression reads back as the names and exponents of its ordered
atoms. -/
theorem readUnits_text {c : Context} {e : UnitExpr}
    (hnames : ∀ a ∈ e.atoms, PlainName (c.unitName a.scale a.unit)) :
    readUnits (e.text c) =
      some (e.ordered.map fun a => (c.unitName a.scale a.unit, a.exponent.toRat)) := by
  cases hordered : e.ordered with
  | nil =>
      rw [text_of_ordered_eq_nil hordered]
      rfl
  | cons first rest =>
      have hmem : first ∈ e.atoms := mem_ordered.mp (hordered ▸ List.mem_cons_self)
      have hne : e.text c ≠ "" := by
        obtain ⟨more, htext⟩ := text_eq_name_append (c := c) hordered
        rw [htext]
        exact fun hempty => (hnames first hmem).1 (String.append_eq_empty_iff.mp hempty).1
      rw [readUnits_eq hne, splitText_text (fun a ha => (hnames a ha).unbroken)
        (hordered ▸ List.cons_ne_nil _ _), hordered, List.mapM_map]
      refine mapM_eq_some fun a ha => ?_
      have hmem : a ∈ e.atoms := mem_ordered.mp (hordered.symm ▸ ha)
      have hunbroken : Unbroken
          ((followingFactor e.usesDivision a).name (c.unitIdentifier a.unit)) := by
        rw [followingFactor_name]
        exact (hnames a hmem).unbroken
      rw [Function.comp_apply, Factor.readFactor_body hunbroken,
        reading_followingFactor _ a fun hdivision => isInteger_of_usesDivision hdivision hmem]
      rfl

end UnitExpr

end UnitText
