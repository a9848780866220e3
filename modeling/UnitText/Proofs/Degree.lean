import Mathlib.Algebra.BigOperators.Group.List.Basic
import Mathlib.Algebra.BigOperators.GroupWithZero.Action
import Mathlib.Algebra.Module.Pi
import Mathlib.Data.Rat.Lemmas
import Mathlib.Tactic.Abel
import UnitText.Builtin
import UnitText.Proofs.BoundedRatio
import UnitText.UnitExpr.Normal

/-!
Unit arithmetic read as arithmetic of exponents.

The degree of an expression gives every base its exponent as an exact rational
number.  Each operation on expressions is the obvious operation on degrees, or
it overflows; and a normal expression is known by its degree up to the order of
its atoms.
-/

namespace UnitText

/-- An exponent for every base. -/
abbrev Degree := Prefix × BaseUnit → ℚ

/-- What one atom adds to the degree of a product. -/
def Atom.degree (a : Atom) : Degree :=
  Pi.single a.base a.exponent.toRat

/-- The exponent of every base of an expression, zero for a base that is absent. -/
def UnitExpr.degree (e : UnitExpr) : Degree := fun base =>
  match e.atoms.find? fun a => a.base = base with
  | some a => a.exponent.toRat
  | none => 0

/-- The sum of what the atoms of a list add. -/
def totalDegree (atoms : List Atom) : Degree :=
  (atoms.map Atom.degree).sum

@[simp] theorem totalDegree_nil : totalDegree [] = 0 :=
  rfl

@[simp] theorem totalDegree_cons (a : Atom) (atoms : List Atom) :
    totalDegree (a :: atoms) = a.degree + totalDegree atoms := by
  rw [totalDegree, List.map_cons, List.sum_cons]
  rfl

theorem totalDegree_append (as bs : List Atom) :
    totalDegree (as ++ bs) = totalDegree as + totalDegree bs := by
  rw [totalDegree, List.map_append, List.sum_append]
  rfl

theorem totalDegree_perm {atoms atoms' : List Atom} (h : atoms.Perm atoms') :
    totalDegree atoms = totalDegree atoms' :=
  (h.map Atom.degree).sum_eq

/-- A base that no atom has gets nothing. -/
theorem totalDegree_eq_zero {base : Prefix × BaseUnit} {atoms : List Atom}
    (hbase : base ∉ atoms.map Atom.base) : totalDegree atoms base = 0 := by
  induction atoms with
  | nil => rfl
  | cons a rest ih =>
      rw [List.map_cons, List.mem_cons, not_or] at hbase
      rw [totalDegree_cons, Pi.add_apply, ih hbase.2, Atom.degree,
        Pi.single_eq_of_ne hbase.1, add_zero]

/-- If no base occurs twice, the exponents that are found are all there is to
add. -/
theorem UnitExpr.degree_eq_total {e : UnitExpr}
    (hbases : (e.atoms.map Atom.base).Nodup) : e.degree = totalDegree e.atoms := by
  obtain ⟨atoms⟩ := e
  funext base
  induction atoms with
  | nil => rfl
  | cons a rest ih =>
      rw [List.map_cons, List.nodup_cons] at hbases
      by_cases ha : a.base = base
      · subst ha
        rw [totalDegree_cons, Pi.add_apply, totalDegree_eq_zero hbases.1, add_zero,
          Atom.degree, Pi.single_eq_same]
        simp [UnitExpr.degree]
      · rw [totalDegree_cons, Pi.add_apply, ← ih hbases.2, Atom.degree,
          Pi.single_eq_of_ne (Ne.symm ha), zero_add]
        simp [UnitExpr.degree, ha]

namespace Atom

theorem degree_withExponent (a : Atom) (q : Exponent) :
    (a.withExponent q).degree = Pi.single a.base q.toRat :=
  rfl

/-- An atom whose exponent is zero adds nothing. -/
theorem degree_eq_zero {a : Atom} (h : a.exponent.isInt 0) : a.degree = 0 := by
  have hzero : a.exponent.toRat = 0 := by
    simpa using (a.exponent.isInt_iff 0).mp h
  rw [degree, hzero, Pi.single_zero]

end Atom

/-- Inserting an atom adds its degree. -/
theorem insertAtom_exact (t : Atom) (atoms : List Atom) :
    OrOverflow (fun atoms' => totalDegree atoms' = totalDegree atoms + t.degree)
      (insertAtom t atoms) := by
  induction atoms with
  | nil =>
      change totalDegree (if t.exponent.isInt 0 then [] else [t]) = 0 + t.degree
      split
      · next hzero => rw [Atom.degree_eq_zero hzero, zero_add, totalDegree_nil]
      · rw [totalDegree_cons, totalDegree_nil, zero_add, add_zero]
  | cons a rest ih =>
      unfold insertAtom
      split
      · next hbase =>
          apply (a.exponent.add_exact t.exponent).bind
          intro total htotal
          have hdegree : a.degree + t.degree = (t.withExponent total).degree := by
            rw [Atom.degree_withExponent, htotal, Pi.single_add, Atom.degree,
              Atom.degree, hbase]
          rw [totalDegree_cons, add_right_comm, hdegree]
          change totalDegree (if total.isInt 0 then rest else _) = _
          split
          · next hzero =>
              have hnone : (t.withExponent total).degree = 0 :=
                Atom.degree_eq_zero hzero
              rw [hnone, zero_add]
          · rw [totalDegree_cons]
      · apply ih.bind
        intro rest' hrest
        change totalDegree (a :: rest') = _
        rw [totalDegree_cons, totalDegree_cons, hrest, add_assoc]

namespace UnitExpr

/-- The outcome is a normal expression of a given degree, or an overflow. -/
def HasDegree (degree : Degree) (outcome : Except ArithmeticError UnitExpr) : Prop :=
  OrOverflow (fun e => e.Normal ∧ e.degree = degree) outcome

/-- Wherever two outcomes are both expressions, these have the same degree and
the same atoms up to order. -/
def Agree (x y : Except ArithmeticError UnitExpr) : Prop :=
  ∀ e e', x = .ok e → y = .ok e' → e.degree = e'.degree ∧ e.atoms.Perm e'.atoms

theorem push_exact (t : Atom) {e : UnitExpr} (he : e.Normal) :
    HasDegree (e.degree + t.degree) (e.push t) := by
  have hpush : OrOverflow (fun e' => totalDegree e'.atoms =
      totalDegree e.atoms + t.degree) (e.push t) :=
    (insertAtom_exact t e.atoms).bind fun _ h => h
  cases hout : e.push t with
  | error cause =>
      rw [hout] at hpush
      exact hpush
  | ok e' =>
      have he' := he.push hout
      refine ⟨he', ?_⟩
      rw [degree_eq_total he.1, degree_eq_total he'.1]
      exact hpush.of_ok hout

/-- What one factor adds, a list of factors adds together. -/
theorem pushAll_exact (ts : List Atom) {e : UnitExpr} (he : e.Normal) :
    HasDegree (e.degree + totalDegree ts) (ts.foldlM push e) := by
  induction ts generalizing e with
  | nil => exact ⟨he, (add_zero _).symm⟩
  | cons t ts ih =>
      rw [List.foldlM_cons, totalDegree_cons, ← add_assoc]
      apply (push_exact t he).bind
      rintro e' ⟨he', hdegree⟩
      rw [← hdegree]
      exact ih he'

theorem degree_dimensionless : dimensionless.degree = 0 :=
  rfl

theorem ofAtoms_exact (ts : List Atom) : HasDegree (totalDegree ts) (ofAtoms ts) := by
  have h := pushAll_exact ts normal_dimensionless
  rwa [degree_dimensionless, zero_add] at h

theorem mul_exact {a b : UnitExpr} (ha : a.Normal) (hb : b.Normal) :
    HasDegree (a.degree + b.degree) (a.mul b) := by
  rw [degree_eq_total hb.1]
  exact pushAll_exact b.atoms ha

/-- Multiplying all exponents by a number multiplies the total by it. -/
theorem scaled_exact (p : Exponent) (atoms : List Atom) :
    OrOverflow (fun atoms' => totalDegree atoms' = p.toRat • totalDegree atoms)
      (atoms.mapM fun a => do
        let exponent ← a.exponent.mul p
        pure (a.withExponent exponent)) := by
  induction atoms with
  | nil => exact (smul_zero _).symm
  | cons a rest ih =>
      rw [List.mapM_cons]
      apply OrOverflow.bind (P := fun a' => a'.degree = p.toRat • a.degree)
      · apply (a.exponent.mul_exact p).bind
        intro q hq
        change (a.withExponent q).degree = _
        rw [Atom.degree_withExponent, hq, Atom.degree, ← Pi.single_smul, smul_eq_mul,
          mul_comm]
      · intro a' ha'
        apply ih.bind
        intro rest' hrest
        change totalDegree (a' :: rest') = _
        rw [totalDegree_cons, totalDegree_cons, ha', hrest, smul_add]

theorem pow_exact {a : UnitExpr} (ha : a.Normal) (p : Exponent) :
    HasDegree (p.toRat • a.degree) (a.pow p) := by
  unfold pow
  apply (scaled_exact p a.atoms).bind
  intro atoms hatoms
  rw [degree_eq_total ha.1, ← hatoms]
  exact ofAtoms_exact atoms

theorem inv_exact {a : UnitExpr} (ha : a.Normal) : HasDegree (-a.degree) a.inv := by
  have h := pow_exact ha .minusOne
  have hminus : Exponent.minusOne.toRat = -1 := rfl
  rwa [hminus, neg_one_smul] at h

theorem div_exact {a b : UnitExpr} (ha : a.Normal) (hb : b.Normal) :
    HasDegree (a.degree - b.degree) (a.div b) := by
  unfold div
  apply (inv_exact hb).bind
  rintro b' ⟨hb', hdegree⟩
  rw [sub_eq_add_neg, ← hdegree]
  exact mul_exact ha hb'

/-- The atoms of a normal expression are those that its degree tells. -/
theorem Normal.mem_atoms_iff {e : UnitExpr} (he : e.Normal) (a : Atom) :
    a ∈ e.atoms ↔ a.exponent.toRat ≠ 0 ∧ e.degree a.base = a.exponent.toRat := by
  constructor
  · intro ha
    refine ⟨fun hzero => he.2 a ha (Rat.num_eq_zero.mpr hzero), ?_⟩
    cases hfind : e.atoms.find? fun b => b.base = a.base with
    | none =>
        have hnone := List.find?_eq_none.mp hfind a ha
        simp at hnone
    | some b =>
        have hbase : b.base = a.base := by simpa using List.find?_some hfind
        have heq : b = a := List.inj_on_of_nodup_map he.1
          (List.mem_of_find?_eq_some hfind) ha hbase
        simp [degree, hfind, heq]
  · rintro ⟨hne, hdegree⟩
    unfold degree at hdegree
    cases hfind : e.atoms.find? fun b => b.base = a.base with
    | none =>
        rw [hfind] at hdegree
        exact absurd hdegree.symm hne
    | some b =>
        rw [hfind] at hdegree
        have hbase : b.base = a.base := by simpa using List.find?_some hfind
        have heq : b = a := by
          obtain ⟨scale, unit, exponent⟩ := b
          obtain ⟨rfl, rfl⟩ := Prod.ext_iff.mp hbase
          cases Ratio.ext_toRat hdegree
          rfl
        exact heq ▸ List.mem_of_find?_eq_some hfind

/-- A base whose exponent is not zero has an atom. -/
theorem exists_atom_of_degree_ne_zero {e : UnitExpr} {base : Prefix × BaseUnit}
    (hbase : e.degree base ≠ 0) :
    ∃ a ∈ e.atoms, a.base = base ∧ a.exponent.toRat = e.degree base := by
  cases hfind : e.atoms.find? fun a => a.base = base with
  | none =>
      refine absurd ?_ hbase
      rw [degree, hfind]
  | some a =>
      refine ⟨a, List.mem_of_find?_eq_some hfind, ?_, ?_⟩
      · simpa using List.find?_some hfind
      · rw [degree, hfind]

/-- Normal expressions of one degree have the same atoms up to order. -/
theorem Normal.perm_of_degree_eq {e e' : UnitExpr} (he : e.Normal) (he' : e'.Normal)
    (hdegree : e.degree = e'.degree) : e.atoms.Perm e'.atoms := by
  rw [List.perm_ext_iff_of_nodup he.1.of_map he'.1.of_map]
  intro a
  rw [he.mem_atoms_iff, he'.mem_atoms_iff, hdegree]

/-- Outcomes of one degree agree. -/
theorem HasDegree.agree {x y : Except ArithmeticError UnitExpr} {degree : Degree}
    (hx : HasDegree degree x) (hy : HasDegree degree y) : Agree x y := by
  rintro e e' rfl rfl
  have hdegree := hx.2.trans hy.2.symm
  exact ⟨hdegree, hx.1.perm_of_degree_eq hy.1 hdegree⟩

/-- A further operation on an outcome works on its degree. -/
theorem HasDegree.bind {x : Except ArithmeticError UnitExpr} {degree degree' : Degree}
    {f : UnitExpr → Except ArithmeticError UnitExpr} (hx : HasDegree degree x)
    (hf : ∀ e, e.Normal → e.degree = degree → HasDegree degree' (f e)) :
    HasDegree degree' (x >>= f) :=
  OrOverflow.bind hx fun e h => hf e h.1 h.2

/-- Every operation is exact on degrees or overflows, so the laws of a group of
exponents hold between outcomes that are expressions. -/
theorem arithmetic_exact_or_overflow {a b c : UnitExpr} (ha : a.Normal) (hb : b.Normal)
    (hc : c.Normal) (t : Atom) (ts : List Atom) (p : Exponent) :
    HasDegree (a.degree + Pi.single t.base t.exponent.toRat) (a.push t) ∧
      HasDegree (ts.map fun t => Pi.single t.base t.exponent.toRat).sum (ofAtoms ts) ∧
      HasDegree (a.degree + b.degree) (a.mul b) ∧
      HasDegree (a.degree - b.degree) (a.div b) ∧
      HasDegree (p.toRat • a.degree) (a.pow p) ∧
      HasDegree (-a.degree) a.inv ∧
      Agree (a.mul b) (b.mul a) ∧
      Agree (do (← a.mul b).mul c) (do a.mul (← b.mul c)) ∧
      Agree (do (← a.div b).inv) (b.div a) ∧
      Agree (a.div b) (do a.mul (← b.inv)) ∧
      ∀ ts', ts.Perm ts' → Agree (ofAtoms ts) (ofAtoms ts') := by
  refine ⟨push_exact t ha, ofAtoms_exact ts, mul_exact ha hb, div_exact ha hb,
    pow_exact ha p, inv_exact ha, ?_, ?_, ?_, ?_, ?_⟩
  · have hba := mul_exact hb ha
    rw [add_comm] at hba
    exact (mul_exact ha hb).agree hba
  · have hleft : HasDegree (a.degree + b.degree + c.degree)
        (do (← a.mul b).mul c) :=
      (mul_exact ha hb).bind fun e he hdegree => hdegree ▸ mul_exact he hc
    have hright : HasDegree (a.degree + b.degree + c.degree)
        (do a.mul (← b.mul c)) :=
      (mul_exact hb hc).bind fun e he hdegree => by
        rw [add_assoc, ← hdegree]
        exact mul_exact ha he
    exact hleft.agree hright
  · have hinv : HasDegree (b.degree - a.degree) (do (← a.div b).inv) :=
      (div_exact ha hb).bind fun e he hdegree => by
        rw [← neg_sub, ← hdegree]
        exact inv_exact he
    exact hinv.agree (div_exact hb ha)
  · exact (div_exact ha hb).agree (div_exact ha hb)
  · intro ts' hperm
    have hts' := ofAtoms_exact ts'
    rw [← totalDegree_perm hperm] at hts'
    exact (ofAtoms_exact ts).agree hts'

/-- Roots of metres: a base that cancels in a product, and one that a power, an inverse and
a quotient keep; and the least exponent there is, which no inversion survives. -/
theorem arithmetic_exact_or_overflow_roots :
    let half : Exponent := ⟨1 / 2, by decide +kernel, by decide +kernel⟩
    let least : Exponent := ⟨-2 ^ 31, by decide +kernel, by decide +kernel⟩
    let root : Atom := ⟨.none, Builtin.meter, half⟩
    let unroot : Atom :=
      ⟨.none, Builtin.meter, ⟨-1 / 2, by decide +kernel, by decide +kernel⟩⟩
    let a : UnitExpr := ⟨[root, .ofUnit Builtin.second]⟩
    let b : UnitExpr := ⟨[⟨.none, Builtin.second, least⟩, unroot]⟩
    let product : UnitExpr :=
      ⟨[⟨.none, Builtin.second, ⟨1 - 2 ^ 31, by decide +kernel, by decide +kernel⟩⟩]⟩
    let twoSevenths : Exponent := ⟨2 / 7, by decide +kernel, by decide +kernel⟩
    let power : UnitExpr :=
      ⟨[⟨.none, Builtin.meter, ⟨1 / 7, by decide +kernel, by decide +kernel⟩⟩,
        ⟨.none, Builtin.second, twoSevenths⟩]⟩
    let inverse : UnitExpr := ⟨[unroot, ⟨.none, Builtin.second, .minusOne⟩]⟩
    let quotient : UnitExpr :=
      ⟨[⟨.none, Builtin.meter, ⟨5 / 14, by decide +kernel, by decide +kernel⟩⟩,
        ⟨.none, Builtin.second, ⟨5 / 7, by decide +kernel, by decide +kernel⟩⟩]⟩
    a.Normal ∧ b.Normal ∧ dimensionless.Normal ∧ power.Normal ∧
      (a.mul b = .ok product ∧ product.degree = a.degree + b.degree) ∧
      (a.pow twoSevenths = .ok power ∧ power.degree = twoSevenths.toRat • a.degree) ∧
      (a.inv = .ok inverse ∧ inverse.degree = -a.degree) ∧
      (a.div power = .ok quotient ∧ quotient.degree = a.degree - power.degree) ∧
      (a.div b = .error .overflow ∧ HasDegree (a.degree - b.degree) (a.div b)) ∧
      Agree (ofAtoms [root, .ofUnit Builtin.second, unroot])
        (ofAtoms [unroot, root, .ofUnit Builtin.second]) := by
  intro half least root unroot a b product twoSevenths power inverse quotient
  have ha : a.Normal := by decide +kernel
  have hb : b.Normal := by decide +kernel
  have hc : dimensionless.Normal := by decide +kernel
  have hnormal : power.Normal := by decide +kernel
  obtain ⟨-, -, hmul, hdiv, -, -, -, -, -, -, hperm⟩ :=
    arithmetic_exact_or_overflow ha hb hc root
      [root, .ofUnit Builtin.second, unroot] half
  obtain ⟨-, -, -, hdivPower, hpow, hinv, -⟩ :=
    arithmetic_exact_or_overflow ha hnormal hc root [] twoSevenths
  have hproduct : a.mul b = .ok product := by decide +kernel
  have hpower : a.pow twoSevenths = .ok power := by decide +kernel
  have hinverse : a.inv = .ok inverse := by decide +kernel
  have hquotient : a.div power = .ok quotient := by decide +kernel
  refine ⟨ha, hb, hc, hnormal, ⟨hproduct, (hmul.of_ok hproduct).2⟩,
    ⟨hpower, (hpow.of_ok hpower).2⟩, ⟨hinverse, (hinv.of_ok hinverse).2⟩,
    ⟨hquotient, (hdivPower.of_ok hquotient).2⟩, ⟨by decide +kernel, hdiv⟩, ?_⟩
  have hrotated : ([root, .ofUnit Builtin.second] ++ [unroot]).Perm
      ([unroot] ++ [root, .ofUnit Builtin.second]) := List.perm_append_comm
  exact hperm _ hrotated

end UnitExpr

end UnitText
