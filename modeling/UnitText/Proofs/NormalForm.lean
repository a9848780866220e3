import UnitText.Proofs.Degree

/-!
Expressions that can be made.

An expression is made step by step from the dimensionless one, and a step that
overflows leaves it as it was.  Main statement: whatever the steps are, the
expression is in normal form after each of them, so it is the product of its own
atoms, and it is known by its exponents up to the order of its atoms
(`UnitExpr.made_in_normal_form`).
-/

namespace UnitText

/-- A step in the making of an expression. -/
inductive UnitStep where
  /-- One more factor, added in place or in a chain of factors. -/
  | push (a : Atom)
  /-- The expression is given up for the product of a list of atoms. -/
  | collect (atoms : List Atom)
  | mul (factor : UnitExpr)
  | div (divisor : UnitExpr)
  | pow (power : Exponent)
  | inv
deriving DecidableEq, Repr

namespace UnitExpr

/-- What a step makes of an expression, unless it overflows. -/
def step (e : UnitExpr) : UnitStep → Except ArithmeticError UnitExpr
  | .push a => e.push a
  | .collect atoms => ofAtoms atoms
  | .mul factor => e.mul factor
  | .div divisor => e.div divisor
  | .pow power => e.pow power
  | .inv => e.inv

/-- The expression after a step; a step that overflows leaves it as it was. -/
def next (e : UnitExpr) (x : UnitStep) : UnitExpr :=
  match e.step x with
  | .ok e' => e'
  | .error _ => e

/-- The expression after a list of steps. -/
def run (e : UnitExpr) (steps : List UnitStep) : UnitExpr :=
  steps.foldl next e

/-- The expression that a list of steps makes. -/
def made (steps : List UnitStep) : UnitExpr :=
  dimensionless.run steps

theorem Normal.step {e e' : UnitExpr} (he : e.Normal) {x : UnitStep}
    (h : e.step x = .ok e') : e'.Normal := by
  cases x with
  | push a => exact he.push h
  | collect atoms => exact normal_ofAtoms h
  | mul factor => exact he.mul h
  | div divisor => exact he.div h
  | pow power => exact normal_pow h
  | inv => exact normal_inv h

theorem Normal.next {e : UnitExpr} (he : e.Normal) (x : UnitStep) : (e.next x).Normal := by
  rw [UnitExpr.next]
  split
  · next h => exact he.step h
  · exact he

theorem Normal.run {e : UnitExpr} (he : e.Normal) (steps : List UnitStep) :
    (e.run steps).Normal := by
  induction steps generalizing e with
  | nil => exact he
  | cons x steps ih => exact ih (he.next x)

theorem normal_made (steps : List UnitStep) : (made steps).Normal :=
  normal_dimensionless.run steps

end UnitExpr

/-- An atom whose base is new goes to the end, and no sum is formed. -/
theorem insertAtom_of_notMem {t : Atom} {atoms : List Atom}
    (hbase : t.base ∉ atoms.map Atom.base) (hzero : t.exponent.num ≠ 0) :
    insertAtom t atoms = .ok (atoms ++ [t]) := by
  induction atoms with
  | nil =>
      rw [insertAtom, if_neg (mt t.exponent.isInt_zero_iff.mp hzero)]
      rfl
  | cons a rest ih =>
      rw [List.map_cons, List.mem_cons, not_or] at hbase
      rw [insertAtom, if_neg (Ne.symm hbase.1), ih hbase.2]
      rfl

namespace UnitExpr

/-- Factors that make a normal form together with an expression are put behind it one
by one. -/
theorem pushAll_of_normal {atoms : List Atom} {e : UnitExpr}
    (h : Normal ⟨e.atoms ++ atoms⟩) : atoms.foldlM push e = .ok ⟨e.atoms ++ atoms⟩ := by
  induction atoms generalizing e with
  | nil =>
      rw [List.append_nil]
      rfl
  | cons t rest ih =>
      have hmem : t ∈ e.atoms ++ t :: rest :=
        List.mem_append_right _ List.mem_cons_self
      -- Only now, with the factors before it in place, is the next one known to be new.
      have hbase : t.base ∉ e.atoms.map Atom.base := by
        have hnodup := h.1
        rw [List.map_append, List.map_cons, List.nodup_append] at hnodup
        exact fun hold => hnodup.2.2 _ hold _ List.mem_cons_self rfl
      have hpush : e.push t = .ok ⟨e.atoms ++ [t]⟩ := by
        rw [push, insertAtom_of_notMem hbase (h.2 t hmem)]
        rfl
      rw [List.append_cons] at h ⊢
      rw [List.foldlM_cons, hpush]
      exact ih h

/-- A normal expression is the product of its atoms, in their order. -/
theorem Normal.ofAtoms_atoms {e : UnitExpr} (he : e.Normal) : ofAtoms e.atoms = .ok e :=
  pushAll_of_normal (e := dimensionless) he

/-- Every expression that can be made is in normal form: no base occurs twice, no
exponent is zero, and each is a fraction of words in lowest terms.  It is made again
from its own atoms, and its exponents tell its atoms up to their order. -/
theorem made_in_normal_form (steps : List UnitStep) :
    ((made steps).atoms.map Atom.base).Nodup ∧
      (∀ a ∈ (made steps).atoms, a.exponent.toRat ≠ 0 ∧
        a.exponent.toRat = a.exponent.num / a.exponent.den ∧ 0 < a.exponent.den ∧
        a.exponent.num.natAbs.Coprime a.exponent.den ∧
        IsWord 32 a.exponent.num ∧ IsWord 32 a.exponent.den) ∧
      ofAtoms (made steps).atoms = .ok (made steps) ∧
      ∀ steps', (made steps).degree = (made steps').degree →
        (made steps).atoms.Perm (made steps').atoms ∧
          (made steps).isDimensionless = (made steps').isDimensionless ∧
          (made steps).size = (made steps').size := by
  have he := normal_made steps
  refine ⟨he.1, ?_, he.ofAtoms_atoms, ?_⟩
  · intro a ha
    have hne : a.exponent.toRat ≠ 0 := fun hzero => he.2 a ha (Rat.num_eq_zero.mpr hzero)
    exact ⟨hne, a.exponent.toRat_eq_div, a.exponent.den_pos, a.exponent.reduced,
      a.exponent.num_isWord, a.exponent.den_isWord⟩
  · intro steps' hdegree
    have hperm := he.perm_of_degree_eq (normal_made steps') hdegree
    refine ⟨hperm, ?_, hperm.length_eq⟩
    rw [isDimensionless, isDimensionless, Bool.eq_iff_iff, List.isEmpty_iff, List.isEmpty_iff]
    exact ⟨fun h => (h ▸ hperm).nil_eq.symm, fun h => (h ▸ hperm).eq_nil⟩

/-- Two ways to one expression.  On each of them a step overflows: neither the
reciprocal nor the square of the least exponent is an exponent. -/
theorem made_in_normal_form_past_overflow :
    let seconds : Atom := ⟨.none, Builtin.second, .ofInt (-2 ^ 31)⟩
    let meter : Atom := .ofUnit Builtin.meter
    let root : Atom := ⟨.kilo, Builtin.meter, ⟨2 / 3, by decide +kernel, by decide +kernel⟩⟩
    let steps : List UnitStep := [.push seconds, .inv, .push root, .mul (.ofUnit Builtin.meter)]
    let steps' : List UnitStep :=
      [.collect [meter, seconds, root, meter], .pow (.ofInt 2), .div (.ofUnit Builtin.meter)]
    (made steps).atoms = [seconds, root, meter] ∧ (made steps').atoms = [meter, seconds, root] ∧
      (made steps).degree = (made steps').degree ∧
      ofAtoms (made steps').atoms = .ok (made steps') ∧
      (made steps).atoms.Perm (made steps').atoms := by
  intro seconds meter root steps steps'
  have hatoms : (made steps).atoms = [seconds, root] ++ [meter] := by decide +kernel
  have hatoms' : (made steps').atoms = [meter] ++ [seconds, root] := by decide +kernel
  have hdegree : (made steps).degree = (made steps').degree := by
    rw [degree_eq_total (normal_made steps).1, degree_eq_total (normal_made steps').1,
      hatoms, hatoms']
    exact totalDegree_perm List.perm_append_comm
  obtain ⟨-, -, -, hperm⟩ := made_in_normal_form steps
  obtain ⟨-, -, hagain, -⟩ := made_in_normal_form steps'
  exact ⟨hatoms, hatoms', hdegree, hagain, (hperm steps' hdegree).1⟩

end UnitExpr

end UnitText
