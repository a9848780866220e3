/-!
Rationals of bounded size.

A `Ratio w` is a rational number whose numerator and denominator, in lowest
terms, both fit in a signed word of `w` bits.  Unit exponents are such ratios
of 32 bits and exact rational values are such ratios of 64 bits.  Sums and
products are either exact or fail: every whole number met on the way has to be
a word, so an operation may overflow although its result would have fitted.
-/

namespace UnitText

/-- The whole numbers that a signed word of `w` bits holds. -/
def IsWord (w : Nat) (n : Int) : Prop :=
  -Int.pow 2 (w - 1) ≤ n ∧ n < Int.pow 2 (w - 1)

instance (w : Nat) (n : Int) : Decidable (IsWord w n) :=
  inferInstanceAs (Decidable (_ ∧ _))

/-- Why an operation on bounded numbers has no result. -/
inductive ArithmeticError where
  /-- A number met on the way is not a word. -/
  | overflow
  /-- A fraction was given the denominator zero. -/
  | zeroDenominator
deriving DecidableEq, Repr

/-- Work that succeeds has done so step by step. -/
theorem exists_of_bind_eq_ok {ε α β : Type} {x : Except ε α} {f : α → Except ε β} {b : β}
    (h : x >>= f = .ok b) : ∃ a, x = .ok a ∧ f a = .ok b := by
  cases x with
  | error cause => cases h
  | ok a => exact ⟨a, rfl, h⟩

/-- A number passes if it is a word. -/
def checkWord (w : Nat) (n : Int) : Except ArithmeticError Int :=
  if IsWord w n then .ok n else .error .overflow

/-- A rational number that is in lowest terms a quotient of two words. -/
structure Ratio (w : Nat) where
  toRat : Rat
  num_isWord : IsWord w toRat.num
  den_isWord : IsWord w toRat.den
deriving DecidableEq, Repr

namespace Ratio

variable {w : Nat}

/-- The numerator in lowest terms. -/
def num (q : Ratio w) : Int :=
  q.toRat.num

/-- The denominator in lowest terms, always positive. -/
def den (q : Ratio w) : Nat :=
  q.toRat.den

/-- Whether the ratio is a whole number. -/
def isInteger (q : Ratio w) : Bool :=
  q.den == 1

/-- Whether the ratio lies below zero. -/
def isNegative (q : Ratio w) : Bool :=
  q.num < 0

/-- Whether the ratio is the whole number `n`. -/
def isInt (q : Ratio w) (n : Int) : Bool :=
  q.num == n && q.isInteger

/-- A rational number as a ratio, if its terms are words. -/
def ofRat? (q : Rat) : Option (Ratio w) :=
  if h : IsWord w q.num ∧ IsWord w q.den then some ⟨q, h.1, h.2⟩ else none

/-- The fraction `n / d` brought to lowest terms. -/
def ofFraction (n d : Int) : Except ArithmeticError (Ratio w) :=
  if d = 0 then .error .zeroDenominator
  else
    match ofRat? (Rat.divInt n d) with
    | some q => .ok q
    | none => .error .overflow

/-- The sum.  Unequal denominators are brought to their least common multiple
first, and that multiple, both numerators over it and their sum have to be
words. -/
def add (x y : Ratio w) : Except ArithmeticError (Ratio w) := do
  if x.den = y.den then
    let total ← checkWord w (x.num + y.num)
    ofFraction total x.den
  else
    let common ← checkWord w (Nat.lcm x.den y.den)
    let left ← checkWord w (x.num * (common / x.den))
    let right ← checkWord w (y.num * (common / y.den))
    let total ← checkWord w (left + right)
    ofFraction total common

/-- The product.  Each numerator is reduced against the other denominator
before the terms are multiplied, and both products have to be words. -/
def mul (x y : Ratio w) : Except ArithmeticError (Ratio w) := do
  let g := Int.gcd x.num y.den
  let h := Int.gcd x.den y.num
  let numer ← checkWord w (x.num / g * (y.num / h))
  let denom ← checkWord w (x.den / h * (y.den / g))
  ofFraction numer denom

theorem den_pos (q : Ratio w) : 0 < q.den :=
  q.toRat.den_pos

theorem reduced (q : Ratio w) : q.num.natAbs.Coprime q.den :=
  q.toRat.reduced

theorem isInt_iff (q : Ratio w) (n : Int) : q.isInt n ↔ q.toRat = n := by
  simp only [isInt, isInteger, num, den, Bool.and_eq_true, beq_iff_eq]
  constructor
  · rintro ⟨hn, hd⟩
    exact Rat.ext (by simp [hn]) (by simp [hd])
  · intro h
    simp [h]

/-- A ratio is zero exactly if its numerator is. -/
theorem isInt_zero_iff (q : Ratio w) : q.isInt 0 ↔ q.num = 0 := by
  rw [isInt_iff]
  exact Rat.num_eq_zero.symm

@[ext] theorem ext_toRat {x y : Ratio w} (h : x.toRat = y.toRat) : x = y := by
  cases x
  cases y
  simp_all

end Ratio

end UnitText
