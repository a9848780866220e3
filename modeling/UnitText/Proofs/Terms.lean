import UnitText.Proofs.NormalForm
import UnitText.Proofs.Overflow

/-!
Products of powers with exact exponents.

The terms of an expression are its bases in order, each with the rational number that it
is raised to.  `insertTerm` folds them as `insertAtom` folds atoms, but its sums have no
bound, so laws on the order of factors can be shown of it alone.  Main statements:
raising to a power goes through products (`raiseTerms_addTerms`), and products and powers
of expressions have just these terms (`UnitExpr.terms_mul`, `UnitExpr.Normal.terms_pow`).
-/

namespace UnitText

theorem Ratio.toRat_eq_zero_iff {w : Nat} (q : Ratio w) : q.toRat = 0 ↔ q.isInt 0 := by
  rw [isInt_iff, Int.cast_zero]

/-- A base and the exact exponent that it is raised to. -/
abbrev Term := (Prefix × BaseUnit) × ℚ

def Atom.term (a : Atom) : Term :=
  (a.base, a.exponent.toRat)

/-- An atom is known by its term. -/
theorem Atom.term_injective : Function.Injective Atom.term := by
  rintro ⟨p, u, x⟩ ⟨q, v, y⟩ h
  obtain ⟨hbase, hexponent⟩ := Prod.ext_iff.mp h
  obtain ⟨rfl, rfl⟩ := Prod.ext_iff.mp hbase
  obtain rfl := Ratio.ext_toRat hexponent
  rfl

/-- The terms after one more, where exponents of one base are added without any bound. -/
def insertTerm (t : Term) : List Term → List Term
  | [] => if t.2 = 0 then [] else [t]
  | s :: rest =>
    if s.1 = t.1 then
      if s.2 + t.2 = 0 then rest else (t.1, s.2 + t.2) :: rest
    else s :: insertTerm t rest

/-- The terms after some more, from left to right. -/
def addTerms (ss ts : List Term) : List Term :=
  ts.foldl (fun sum t => insertTerm t sum) ss

@[simp] theorem addTerms_nil (ss : List Term) : addTerms ss [] = ss :=
  rfl

@[simp] theorem addTerms_cons (ss : List Term) (t : Term) (ts : List Term) :
    addTerms ss (t :: ts) = addTerms (insertTerm t ss) ts :=
  rfl

/-- A term raised to a power. -/
def Term.raise (k : ℚ) (t : Term) : Term :=
  (t.1, t.2 * k)

/-- All terms raised to a power; nothing is left of them if it is zero. -/
def raiseTerms (k : ℚ) (ts : List Term) : List Term :=
  if k = 0 then [] else ts.map (Term.raise k)

theorem insertTerm_raise {k : ℚ} (hk : k ≠ 0) (t : Term) (ts : List Term) :
    insertTerm (t.raise k) (ts.map (Term.raise k)) = (insertTerm t ts).map (Term.raise k) := by
  have hzero (x : ℚ) : x * k = 0 ↔ x = 0 := by rw [mul_eq_zero, or_iff_left hk]
  induction ts with
  | nil =>
      rw [List.map_nil, insertTerm, insertTerm, Term.raise]
      simp only [hzero]
      split
      · rfl
      · rfl
  | cons s rest ih =>
      simp only [List.map_cons, insertTerm, Term.raise]
      simp only [← add_mul, hzero]
      split
      · split
        · rfl
        · rfl
      · rw [List.map_cons, ← ih]
        rfl

theorem addTerms_raise {k : ℚ} (hk : k ≠ 0) (ss ts : List Term) :
    addTerms (ss.map (Term.raise k)) (ts.map (Term.raise k)) =
      (addTerms ss ts).map (Term.raise k) := by
  induction ts generalizing ss with
  | nil => rfl
  | cons t ts ih =>
      rw [List.map_cons, addTerms_cons, insertTerm_raise hk, ih, addTerms_cons]

theorem addTerms_raise_zero (ts : List Term) : addTerms [] (ts.map (Term.raise 0)) = [] := by
  induction ts with
  | nil => rfl
  | cons t ts ih =>
      have hzero : (t.raise 0).2 = 0 := mul_zero t.2
      rw [List.map_cons, addTerms_cons, insertTerm, if_pos hzero, ih]

/-- Raising to a power goes through products, whatever is folded or cancelled in them. -/
theorem raiseTerms_addTerms (k : ℚ) (ss ts : List Term) :
    raiseTerms k (addTerms ss ts) = addTerms (raiseTerms k ss) (raiseTerms k ts) := by
  by_cases hk : k = 0
  · simp only [raiseTerms, if_pos hk, addTerms_nil]
  · simp only [raiseTerms, if_neg hk, addTerms_raise hk]

theorem raiseTerms_raiseTerms (k l : ℚ) (ts : List Term) :
    raiseTerms l (raiseTerms k ts) = raiseTerms (k * l) ts := by
  have hraise : Term.raise l ∘ Term.raise k = Term.raise (k * l) := by
    funext t
    exact Prod.ext rfl (mul_assoc _ _ _)
  by_cases hk : k = 0
  · simp only [raiseTerms, hk, zero_mul, if_true, List.map_nil, ite_self]
  · by_cases hl : l = 0
    · simp only [raiseTerms, hl, mul_zero, if_true]
    · simp only [raiseTerms, hk, hl, mul_ne_zero hk hl, if_false, List.map_map, hraise]

theorem raiseTerms_one (ts : List Term) : raiseTerms 1 ts = ts := by
  have hraise : Term.raise 1 = id := by
    funext t
    exact Prod.ext rfl (mul_one _)
  rw [raiseTerms, if_neg one_ne_zero, hraise, List.map_id]

/-- What comes of an insertion has the terms of the exact one. -/
theorem map_term_insertAtom {t : Atom} {atoms atoms' : List Atom}
    (h : insertAtom t atoms = .ok atoms') :
    atoms'.map Atom.term = insertTerm t.term (atoms.map Atom.term) := by
  induction atoms generalizing atoms' with
  | nil =>
      cases h
      rw [List.map_nil, insertTerm]
      split
      · next hzero =>
          have hzero : t.term.2 = 0 := t.exponent.toRat_eq_zero_iff.mpr hzero
          rw [if_pos hzero, List.map_nil]
      · next hzero =>
          have hne : t.term.2 ≠ 0 := mt t.exponent.toRat_eq_zero_iff.mp hzero
          rw [if_neg hne, List.map_singleton]
  | cons b rest ih =>
      rw [List.map_cons, insertTerm]
      obtain ⟨hbase, total, htotal, rfl⟩ | ⟨hbase, rest', hrest, rfl⟩ := insertAtom_cons_cases h
      · have hsum : total.toRat = b.term.2 + t.term.2 := Ratio.eq_add_of_add_eq_ok htotal
        have hbase : b.term.1 = t.term.1 := hbase
        rw [if_pos hbase, ← hsum]
        split
        · next hzero => rw [if_pos (total.toRat_eq_zero_iff.mpr hzero)]
        · next hzero =>
            rw [if_neg (mt total.toRat_eq_zero_iff.mp hzero), List.map_cons]
            rfl
      · have hbase : b.term.1 ≠ t.term.1 := hbase
        rw [if_neg hbase, ← ih hrest, List.map_cons]

namespace UnitExpr

/-- The terms of an expression, in the order of its atoms. -/
def terms (e : UnitExpr) : List Term :=
  e.atoms.map Atom.term

theorem terms_injective : Function.Injective terms := by
  rintro ⟨atoms⟩ ⟨atoms'⟩ h
  exact congrArg mk (Atom.term_injective.list_map h)

variable {e e' : UnitExpr}

theorem terms_pushAll {atoms : List Atom} (h : atoms.foldlM push e = .ok e') :
    e'.terms = addTerms e.terms (atoms.map Atom.term) := by
  induction atoms generalizing e with
  | nil =>
      cases h
      rfl
  | cons t rest ih =>
      rw [List.foldlM_cons] at h
      obtain ⟨middle, hpush, h⟩ := exists_of_bind_eq_ok h
      obtain ⟨atoms', hatoms, hpush⟩ := exists_of_bind_eq_ok hpush
      cases hpush
      rw [ih h, terms, map_term_insertAtom hatoms, List.map_cons, addTerms_cons]
      rfl

theorem terms_ofAtoms {atoms : List Atom} (h : ofAtoms atoms = .ok e) :
    e.terms = addTerms [] (atoms.map Atom.term) :=
  terms_pushAll h

theorem terms_mul {x y : UnitExpr} (h : x.mul y = .ok e) : e.terms = addTerms x.terms y.terms :=
  terms_pushAll h

theorem Normal.addTerms_terms (he : e.Normal) : addTerms [] e.terms = e.terms :=
  (terms_ofAtoms he.ofAtoms_atoms).symm

/-- What comes of a power has the terms raised to it. -/
theorem Normal.terms_pow (he : e.Normal) {p : Exponent} (h : e.pow p = .ok e') :
    e'.terms = raiseTerms p.toRat e.terms := by
  obtain ⟨atoms, hatoms, h⟩ := exists_of_bind_eq_ok h
  have hraised : atoms.map Atom.term = e.terms.map (Term.raise p.toRat) := by
    rw [terms, List.map_map]
    refine map_eq_of_mapM (fun a a' ha' => ?_) hatoms
    obtain ⟨q, hq, ha'⟩ := exists_of_bind_eq_ok ha'
    cases ha'
    exact Prod.ext rfl ((Ratio.mul_exact _ _).of_ok hq)
  rw [terms_ofAtoms h, hraised, raiseTerms]
  split
  · next hzero => rw [hzero, addTerms_raise_zero]
  · next hp => rw [← List.map_nil, addTerms_raise hp, he.addTerms_terms]

end UnitExpr

end UnitText
