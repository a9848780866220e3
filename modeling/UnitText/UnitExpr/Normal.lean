import UnitText.UnitExpr

/-!
Every expression is in normal form.

The one operation that changes a list of atoms is `insertAtom`; it keeps bases
distinct and exponents other than zero (`Normal.push`).  All other operations
fold it over a list, so they keep the normal form too, whatever atoms they are
given.
-/

namespace UnitText

/-- An atom is joined with the first of the atoms if that has its base, and passes it
over if not. -/
theorem insertAtom_cons_cases {t b : Atom} {rest atoms' : List Atom}
    (h : insertAtom t (b :: rest) = .ok atoms') :
    (b.base = t.base ∧ ∃ total, b.exponent.add t.exponent = .ok total ∧
        atoms' = if total.isInt 0 then rest else t.withExponent total :: rest) ∨
      b.base ≠ t.base ∧ ∃ rest', insertAtom t rest = .ok rest' ∧ atoms' = b :: rest' := by
  rw [insertAtom] at h
  split at h
  · next hbase =>
      obtain ⟨total, htotal, h⟩ := exists_of_bind_eq_ok h
      exact Or.inl ⟨hbase, total, htotal, (Except.ok.inj h).symm⟩
  · next hbase =>
      obtain ⟨rest', hrest, h⟩ := exists_of_bind_eq_ok h
      exact Or.inr ⟨hbase, rest', hrest, (Except.ok.inj h).symm⟩

/-- An inserted atom brings no base with it but its own. -/
theorem mem_insertAtom {t a : Atom} {atoms atoms' : List Atom}
    (h : insertAtom t atoms = .ok atoms') (ha : a ∈ atoms') :
    a ∈ atoms ∨ a.base = t.base := by
  induction atoms generalizing atoms' with
  | nil =>
      cases h
      split at ha <;> simp_all
  | cons b rest ih =>
      obtain ⟨-, total, -, rfl⟩ | ⟨-, rest', hrest, rfl⟩ := insertAtom_cons_cases h
      · split at ha
        · exact Or.inl (List.mem_cons_of_mem _ ha)
        · rcases List.mem_cons.mp ha with rfl | ha
          · exact Or.inr rfl
          · exact Or.inl (List.mem_cons_of_mem _ ha)
      · rcases List.mem_cons.mp ha with rfl | ha
        · exact Or.inl List.mem_cons_self
        · exact (ih hrest ha).imp_left (List.mem_cons_of_mem _)

namespace UnitExpr

/-- An expression is normal if what follows the first atom is, and that one has a base
of its own and an exponent other than zero. -/
theorem normal_cons_iff {a : Atom} {rest : List Atom} :
    Normal ⟨a :: rest⟩ ↔
      (a.base ∉ rest.map Atom.base ∧ a.exponent.num ≠ 0) ∧ Normal ⟨rest⟩ := by
  rw [Normal, Normal, List.map_cons, List.nodup_cons, List.forall_mem_cons, and_and_and_comm]

theorem normal_dimensionless : dimensionless.Normal :=
  ⟨List.nodup_nil, fun _ ha => absurd ha List.not_mem_nil⟩

end UnitExpr

private theorem normal_insertAtom {t : Atom} {atoms atoms' : List Atom}
    (hn : UnitExpr.Normal ⟨atoms⟩) (h : insertAtom t atoms = .ok atoms') :
    UnitExpr.Normal ⟨atoms'⟩ := by
  induction atoms generalizing atoms' with
  | nil =>
      cases h
      split
      · exact UnitExpr.normal_dimensionless
      · next hzero =>
          rw [UnitExpr.normal_cons_iff]
          exact ⟨⟨List.not_mem_nil, mt t.exponent.isInt_zero_iff.mpr hzero⟩,
            UnitExpr.normal_dimensionless⟩
  | cons b rest ih =>
      obtain ⟨⟨hnew, hb⟩, hrest⟩ := UnitExpr.normal_cons_iff.mp hn
      obtain ⟨hbase, total, -, rfl⟩ | ⟨hbase, rest', hrest', rfl⟩ := insertAtom_cons_cases h
      · split
        · exact hrest
        · next hzero =>
            rw [UnitExpr.normal_cons_iff]
            exact ⟨⟨hbase ▸ hnew, mt total.isInt_zero_iff.mpr hzero⟩, hrest⟩
      · rw [UnitExpr.normal_cons_iff]
        refine ⟨⟨fun hmem => ?_, hb⟩, ih hrest hrest'⟩
        obtain ⟨a, ha, hab⟩ := List.mem_map.mp hmem
        rcases mem_insertAtom hrest' ha with hold | ht
        · exact hnew (hab ▸ List.mem_map_of_mem hold)
        · exact hbase (hab.symm.trans ht)

namespace UnitExpr

/-- One more factor keeps the normal form. -/
theorem Normal.push {e e' : UnitExpr} {a : Atom} (hn : e.Normal)
    (h : e.push a = .ok e') : e'.Normal := by
  obtain ⟨atoms, hatoms, h⟩ := exists_of_bind_eq_ok h
  cases h
  exact normal_insertAtom hn hatoms

/-- So does a list of factors. -/
theorem Normal.pushAll {e e' : UnitExpr} {atoms : List Atom} (hn : e.Normal)
    (h : atoms.foldlM UnitExpr.push e = .ok e') : e'.Normal := by
  induction atoms generalizing e with
  | nil =>
      cases h
      exact hn
  | cons a rest ih =>
      rw [List.foldlM_cons] at h
      obtain ⟨middle, hpush, h⟩ := exists_of_bind_eq_ok h
      exact ih (hn.push hpush) h

theorem normal_ofAtoms {atoms : List Atom} {e : UnitExpr} (h : ofAtoms atoms = .ok e) :
    e.Normal :=
  normal_dimensionless.pushAll h

theorem Normal.mul {x y e : UnitExpr} (hx : x.Normal) (h : x.mul y = .ok e) : e.Normal :=
  hx.pushAll h

theorem normal_pow {x e : UnitExpr} {power : Exponent} (h : x.pow power = .ok e) :
    e.Normal := by
  obtain ⟨atoms, -, h⟩ := exists_of_bind_eq_ok h
  exact normal_ofAtoms h

theorem normal_inv {x e : UnitExpr} (h : x.inv = .ok e) : e.Normal :=
  normal_pow h

theorem Normal.div {x y e : UnitExpr} (hx : x.Normal) (h : x.div y = .ok e) :
    e.Normal := by
  obtain ⟨reciprocal, -, h⟩ := exists_of_bind_eq_ok h
  exact hx.mul h

end UnitExpr

end UnitText
