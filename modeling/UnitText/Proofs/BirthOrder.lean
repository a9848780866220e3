import Mathlib.Data.List.Induction
import Mathlib.Data.Nat.Find
import UnitText.Proofs.Degree

/-!
The order of the atoms in a product.

An atom of a product stands where its base was born: a base that cancels leaves the
product, and when it comes back it goes to the end.  `birth` tells from a list of atoms
alone when that was.  One more atom changes no other birth (`birth_snoc_of_present`,
`birth_snoc_of_absent`), so by induction on the list the bases of its product are sorted by
birth (`UnitExpr.pairwise_birth`).  Main statement: `UnitExpr.ofAtoms_in_birth_order`.
-/

namespace UnitText

/-- The exponent that the first atoms of a list add up to for a base. -/
def runningTotal (ts : List Atom) (base : Prefix × BaseUnit) (n : Nat) : ℚ :=
  totalDegree (ts.take n) base

/-- Whether an atom changes the exponent of a base. -/
def Atom.changes (base : Prefix × BaseUnit) (a : Atom) : Bool :=
  a.base = base ∧ a.exponent.num ≠ 0

/-- The length of the longest beginning of a list, perhaps of the empty one, in which the
exponents of a base add up to zero. -/
def lastAbsent (ts : List Atom) (base : Prefix × BaseUnit) : Nat :=
  Nat.findGreatest (fun n => runningTotal ts base n = 0) ts.length

/-- The position of the first atom that changes the exponent of a base after it has been
zero for the last time. -/
def birth (ts : List Atom) (base : Prefix × BaseUnit) : Nat :=
  lastAbsent ts base + (ts.drop (lastAbsent ts base)).findIdx (Atom.changes base)

variable {ts : List Atom} {t : Atom} {base : Prefix × BaseUnit}

theorem Atom.changes_iff {a : Atom} : a.changes base ↔ a.degree base ≠ 0 := by
  have hzero : a.exponent.num ≠ 0 ↔ a.exponent.toRat ≠ 0 := Rat.num_ne_zero
  rw [changes, decide_eq_true_iff, hzero, degree]
  by_cases hbase : a.base = base
  · rw [← hbase, Pi.single_eq_same, eq_self, true_and]
  · rw [Pi.single_eq_of_ne (Ne.symm hbase)]
    exact iff_of_false (fun h => hbase h.1) (fun h => h rfl)

/-- A base has an exponent only if some atom changes it. -/
theorem exists_changes {atoms : List Atom} (h : totalDegree atoms base ≠ 0) :
    ∃ a ∈ atoms, a.changes base := by
  induction atoms with
  | nil => exact absurd rfl h
  | cons a rest ih =>
      by_cases ha : a.changes base
      · exact ⟨a, List.mem_cons_self, ha⟩
      · rw [Atom.changes_iff, not_not] at ha
        rw [totalDegree_cons, Pi.add_apply, ha, zero_add] at h
        obtain ⟨b, hb, hchanges⟩ := ih h
        exact ⟨b, List.mem_cons_of_mem _ hb, hchanges⟩

theorem runningTotal_length : runningTotal ts base ts.length = totalDegree ts base := by
  rw [runningTotal, List.take_length]

theorem runningTotal_snoc {n : Nat} (hn : n ≤ ts.length) :
    runningTotal (ts ++ [t]) base n = runningTotal ts base n := by
  rw [runningTotal, runningTotal, List.take_append_of_le_length hn]

theorem lastAbsent_le : lastAbsent ts base ≤ ts.length :=
  Nat.findGreatest_le _

theorem runningTotal_lastAbsent : runningTotal ts base (lastAbsent ts base) = 0 :=
  Nat.findGreatest_spec (P := fun n => runningTotal ts base n = 0) (Nat.zero_le _) rfl

theorem le_lastAbsent {n : Nat} (hn : n ≤ ts.length) (h : runningTotal ts base n = 0) :
    n ≤ lastAbsent ts base :=
  Nat.le_findGreatest hn h

/-- Where a base is last absent: from there on it has an exponent. -/
theorem lastAbsent_eq_iff {n : Nat} :
    lastAbsent ts base = n ↔ n ≤ ts.length ∧ runningTotal ts base n = 0 ∧
      ∀ m, n < m → m ≤ ts.length → runningTotal ts base m ≠ 0 := by
  rw [lastAbsent, Nat.findGreatest_eq_iff]
  refine and_congr_right fun _ => and_congr_left fun _ => ⟨fun h => ?_, fun h _ => h⟩
  by_cases hn : n = 0
  · rw [hn]
    rfl
  · exact h hn

/-- A base is born before any moment after its last absence at which it has an exponent. -/
theorem birth_lt {n : Nat} (hlast : lastAbsent ts base ≤ n) (h : runningTotal ts base n ≠ 0) :
    birth ts base < n := by
  set k := lastAbsent ts base with hk
  have htake : ts.take n = ts.take k ++ (ts.drop k).take (n - k) := by
    rw [← List.take_add, Nat.add_sub_cancel' hlast]
  have hchange : totalDegree ((ts.drop k).take (n - k)) base ≠ 0 := by
    rw [runningTotal, htake, totalDegree_append, Pi.add_apply] at h
    have hzero : totalDegree (ts.take k) base = 0 := runningTotal_lastAbsent
    rwa [hzero, zero_add] at h
  obtain ⟨a, ha, hchanges⟩ := exists_changes hchange
  have hfirst := List.findIdx_lt_length_of_exists ⟨a, ha, hchanges⟩
  rw [List.findIdx_take, List.length_take] at hfirst
  rw [birth, ← hk]
  omega

/-- A base that stays present keeps its birth. -/
theorem birth_snoc_of_present (h : totalDegree ts base ≠ 0)
    (h' : totalDegree (ts ++ [t]) base ≠ 0) : birth (ts ++ [t]) base = birth ts base := by
  have hlast : lastAbsent (ts ++ [t]) base = lastAbsent ts base := by
    obtain ⟨hle, hzero, hlater⟩ := lastAbsent_eq_iff.mp (rfl : lastAbsent ts base = _)
    refine lastAbsent_eq_iff.mpr ⟨?_, ?_, fun m hlt hm => ?_⟩
    · exact hle.trans (by simp)
    · rw [runningTotal_snoc hle, hzero]
    · rw [List.length_append, List.length_singleton] at hm
      rcases Nat.le_succ_iff.mp hm with hm | rfl
      · rw [runningTotal_snoc hm]
        exact hlater m hlt hm
      · rwa [runningTotal, List.take_of_length_le (by simp)]
  have hborn : birth ts base < ts.length :=
    birth_lt lastAbsent_le (runningTotal_length.trans_ne h)
  rw [birth] at hborn
  rw [birth, birth, hlast, List.drop_append_of_le_length lastAbsent_le, List.findIdx_append,
    if_pos]
  rw [List.length_drop]
  omega

/-- A base that has been absent is born with the atom that brings it back. -/
theorem birth_snoc_of_absent (h : totalDegree ts base = 0)
    (h' : totalDegree (ts ++ [t]) base ≠ 0) : birth (ts ++ [t]) base = ts.length := by
  have hlast : lastAbsent (ts ++ [t]) base = ts.length := by
    refine lastAbsent_eq_iff.mpr ⟨by simp, ?_, fun m hlt hm => ?_⟩
    · rw [runningTotal_snoc le_rfl, runningTotal_length, h]
    · rwa [runningTotal, List.take_of_length_le (by simpa using Nat.succ_le_of_lt hlt)]
  have hchanges : t.changes base := by
    rw [totalDegree_append, Pi.add_apply, h, zero_add, totalDegree_cons, totalDegree_nil,
      add_zero] at h'
    exact Atom.changes_iff.mpr h'
  rw [birth, hlast, List.drop_left, List.findIdx_singleton, if_pos hchanges, add_zero]

/-- An atom is folded into the one that has its base, or it is new and goes to the end. -/
theorem bases_insertAtom {atoms atoms' : List Atom} (h : insertAtom t atoms = .ok atoms') :
    (atoms'.map Atom.base).Sublist (atoms.map Atom.base) ∨
      t.base ∉ atoms.map Atom.base ∧ atoms' = atoms ++ [t] := by
  induction atoms generalizing atoms' with
  | nil =>
      cases h
      split
      · exact Or.inl (List.Sublist.refl _)
      · exact Or.inr ⟨List.not_mem_nil, rfl⟩
  | cons b rest ih =>
      obtain ⟨hbase, total, -, rfl⟩ | ⟨hbase, rest', hrest, rfl⟩ := insertAtom_cons_cases h
      · refine Or.inl ?_
        split
        · exact List.sublist_cons_self _ _
        · rw [List.map_cons, List.map_cons, hbase]
          exact List.Sublist.refl _
      · rcases ih hrest with hsub | ⟨hnew, rfl⟩
        · exact Or.inl (hsub.cons_cons b.base)
        · refine Or.inr ⟨?_, rfl⟩
          rw [List.map_cons, List.mem_cons, not_or]
          exact ⟨Ne.symm hbase, hnew⟩

namespace UnitExpr

variable {e : UnitExpr}

/-- The product of a list of atoms has an atom of just the bases whose total is not zero. -/
theorem mem_bases_ofAtoms_iff (h : ofAtoms ts = .ok e) (base : Prefix × BaseUnit) :
    base ∈ e.atoms.map Atom.base ↔ totalDegree ts base ≠ 0 := by
  obtain ⟨he, hdegree⟩ := (ofAtoms_exact ts).of_ok h
  rw [← hdegree]
  constructor
  · intro hmem
    obtain ⟨a, ha, rfl⟩ := List.mem_map.mp hmem
    obtain ⟨hne, hexponent⟩ := (he.mem_atoms_iff a).mp ha
    rwa [hexponent]
  · intro hne
    obtain ⟨a, ha, rfl, -⟩ := exists_atom_of_degree_ne_zero hne
    exact List.mem_map_of_mem ha

/-- The bases of a product of a list of atoms stand in the order of their births. -/
theorem pairwise_birth (h : ofAtoms ts = .ok e) :
    (e.atoms.map Atom.base).Pairwise fun base base' => birth ts base < birth ts base' := by
  induction ts using List.reverseRecOn generalizing e with
  | nil =>
      cases h
      exact List.Pairwise.nil
  | append_singleton ts t ih =>
      have hmem := mem_bases_ofAtoms_iff h
      rw [ofAtoms, List.foldlM_append] at h
      obtain ⟨e', h', h⟩ := exists_of_bind_eq_ok h
      have hmem' := mem_bases_ofAtoms_iff h'
      rw [List.foldlM_cons] at h
      obtain ⟨last, hpush, h⟩ := exists_of_bind_eq_ok h
      cases h
      obtain ⟨atoms, hatoms, hpush⟩ := exists_of_bind_eq_ok hpush
      cases hpush
      have hkept : ∀ base ∈ atoms.map Atom.base, base ∈ e'.atoms.map Atom.base →
          birth (ts ++ [t]) base = birth ts base :=
        fun base hnow hbefore => birth_snoc_of_present ((hmem' _).mp hbefore) ((hmem _).mp hnow)
      rcases bases_insertAtom hatoms with hsub | ⟨hnew, rfl⟩
      · refine ((ih h').sublist hsub).imp_of_mem fun hb hb' hlt => ?_
        rwa [hkept _ hb (hsub.subset hb), hkept _ hb' (hsub.subset hb')]
      · rw [List.map_append, List.map_singleton] at hmem hkept ⊢
        have hborn : birth (ts ++ [t]) t.base = ts.length :=
          birth_snoc_of_absent (not_not.mp (mt (hmem' _).mpr hnew)) ((hmem _).mp (by simp))
        have hold : ∀ base ∈ e'.atoms.map Atom.base, birth (ts ++ [t]) base = birth ts base :=
          fun base hbefore => hkept base (List.mem_append_left _ hbefore) hbefore
        refine List.pairwise_append.mpr ⟨?_, List.pairwise_singleton _ _, ?_⟩
        · refine (ih h').imp_of_mem fun hb hb' hlt => ?_
          rwa [hold _ hb, hold _ hb']
        · intro base hb base' hb'
          obtain rfl := List.mem_singleton.mp hb'
          rw [hold _ hb, hborn]
          exact birth_lt lastAbsent_le (runningTotal_length.trans_ne ((hmem' _).mp hb))

end UnitExpr

/-- A base that is absent at some moment is born after any that has an exponent from then
on. -/
theorem birth_lt_birth {base' : Prefix × BaseUnit} {n : Nat} (hn : n ≤ ts.length)
    (habsent : runningTotal ts base' n = 0)
    (hstays : ∀ m ≤ ts.length, n ≤ m → runningTotal ts base m ≠ 0) :
    birth ts base < birth ts base' := by
  have hlast : lastAbsent ts base ≤ n := by
    by_contra hlt
    exact hstays _ lastAbsent_le (not_le.mp hlt).le runningTotal_lastAbsent
  calc
    birth ts base < n := birth_lt hlast (hstays n hn le_rfl)
    _ ≤ lastAbsent ts base' := le_lastAbsent hn habsent
    _ ≤ birth ts base' := Nat.le_add_right _ _

/-- Whether a base never loses its exponent when it has got one. -/
def NeverCancels (ts : List Atom) (base : Prefix × BaseUnit) : Prop :=
  ∀ n m, n ≤ m → m ≤ ts.length → runningTotal ts base n ≠ 0 → runningTotal ts base m ≠ 0

/-- A base that never cancels is born with the first atom that has it with an exponent
other than zero. -/
theorem NeverCancels.birth_eq (hnever : NeverCancels ts base) (h : totalDegree ts base ≠ 0) :
    birth ts base = ts.findIdx (Atom.changes base) := by
  have hfirst := List.findIdx_lt_length_of_exists (exists_changes h)
  set i := ts.findIdx (Atom.changes base) with hi
  have hchanges : ts[i].changes base := List.findIdx_getElem
  have habsent : runningTotal ts base i = 0 := by
    by_contra hne
    obtain ⟨a, ha, hearlier⟩ := exists_changes hne
    obtain ⟨j, hj, rfl⟩ := List.mem_take_iff_getElem.mp ha
    have hnot := List.not_of_lt_findIdx (lt_of_lt_of_le hj (min_le_left _ _))
    rw [hearlier] at hnot
    cases hnot
  have hpresent : runningTotal ts base (i + 1) ≠ 0 := by
    have hzero : totalDegree (ts.take i) base = 0 := habsent
    rw [runningTotal, List.take_succ_eq_append_getElem hfirst, totalDegree_append, Pi.add_apply,
      hzero, zero_add, totalDegree_cons, totalDegree_nil, add_zero]
    exact Atom.changes_iff.mp hchanges
  have hlast : lastAbsent ts base = i :=
    lastAbsent_eq_iff.mpr ⟨hfirst.le, habsent, fun m hlt hm => hnever _ _ hlt hm hpresent⟩
  rw [birth, hlast, List.drop_eq_getElem_cons hfirst, List.findIdx_cons, hchanges]
  rfl

theorem idxOf_lt_idxOf_iff {α : Type} [DecidableEq α] {f : α → Nat} {l : List α}
    (h : l.Pairwise fun a b => f a < f b) {a b : α} (ha : a ∈ l) (hb : b ∈ l) :
    l.idxOf a < l.idxOf b ↔ f a < f b := by
  have hlt : ∀ {a b : α}, a ∈ l → b ∈ l → l.idxOf a < l.idxOf b → f a < f b := by
    intro a b ha hb hab
    have hpair := List.pairwise_iff_getElem.mp h _ _ (List.idxOf_lt_length_of_mem ha)
      (List.idxOf_lt_length_of_mem hb) hab
    simpa using hpair
  refine ⟨hlt ha hb, fun hab => ?_⟩
  rcases lt_trichotomy (l.idxOf a) (l.idxOf b) with hidx | hidx | hidx
  · exact hidx
  · rw [(List.idxOf_inj ha).mp hidx] at hab
    exact absurd hab (lt_irrefl _)
  · exact absurd (hlt hb ha hidx) hab.asymm

/-- The product of a list of atoms has just the bases whose exponents do not add up to zero,
each with its total, in the order of their births.  So a base that cancels and comes back
stands behind every base that stayed, and bases that never cancel stand in the order in
which they first came up with an exponent other than zero. -/
theorem UnitExpr.ofAtoms_in_birth_order {e : UnitExpr} (h : ofAtoms ts = .ok e) :
    (∀ base, base ∈ e.atoms.map Atom.base ↔ totalDegree ts base ≠ 0) ∧
      (∀ a ∈ e.atoms, a.exponent.toRat = totalDegree ts a.base) ∧
      (e.atoms.Pairwise fun a b => birth ts a.base < birth ts b.base) ∧
      (∀ a ∈ e.atoms, ∀ b ∈ e.atoms, ∀ n ≤ ts.length, runningTotal ts b.base n = 0 →
        (∀ m ≤ ts.length, n ≤ m → runningTotal ts a.base m ≠ 0) →
        e.atoms.idxOf a < e.atoms.idxOf b) ∧
      ∀ a ∈ e.atoms, ∀ b ∈ e.atoms, NeverCancels ts a.base → NeverCancels ts b.base →
        (e.atoms.idxOf a < e.atoms.idxOf b ↔
          ts.findIdx (Atom.changes a.base) < ts.findIdx (Atom.changes b.base)) := by
  have hpairwise := List.pairwise_map.mp (pairwise_birth h)
  have hpresent : ∀ a ∈ e.atoms, totalDegree ts a.base ≠ 0 := fun a ha =>
    (mem_bases_ofAtoms_iff h _).mp (List.mem_map_of_mem ha)
  obtain ⟨he, hdegree⟩ := (ofAtoms_exact ts).of_ok h
  refine ⟨mem_bases_ofAtoms_iff h, fun a ha => ?_, hpairwise, ?_, ?_⟩
  · rw [← hdegree]
    exact ((he.mem_atoms_iff a).mp ha).2.symm
  · intro a ha b hb n hn habsent hstays
    exact (idxOf_lt_idxOf_iff hpairwise ha hb).mpr (birth_lt_birth hn habsent hstays)
  · intro a ha b hb hnever hnever'
    rw [idxOf_lt_idxOf_iff hpairwise ha hb, hnever.birth_eq (hpresent a ha),
      hnever'.birth_eq (hpresent b hb)]

/-- Seconds that come up with the exponent zero, cancel behind metres and come back behind
kelvins. -/
theorem UnitExpr.ofAtoms_in_birth_order_coming_back :
    let meter : Atom := .ofUnit Builtin.meter
    let seconds (n : Int) (h : IsWord 32 n := by decide) : Atom :=
      ⟨.none, Builtin.second, .ofInt n h⟩
    let root : Atom := ⟨.none, Builtin.kelvin, ⟨3 / 4, by decide +kernel, by decide +kernel⟩⟩
    let ts := [seconds 0, meter, seconds 1, seconds (-1), root, seconds 2]
    let e : UnitExpr := ⟨[meter, root, seconds 2]⟩
    ofAtoms ts = .ok e ∧ ts.map (fun t => birth ts t.base) = [5, 1, 5, 5, 4, 5] ∧
      (e.atoms.Pairwise fun a b => birth ts a.base < birth ts b.base) ∧
      e.atoms.idxOf meter < e.atoms.idxOf (seconds 2) := by
  intro meter seconds root ts e
  have h : ofAtoms ts = .ok e := by decide +kernel
  obtain ⟨-, -, hpairwise, hbehind, -⟩ := ofAtoms_in_birth_order h
  refine ⟨h, by decide +kernel, hpairwise, ?_⟩
  exact hbehind meter (by simp [e]) (seconds 2) (by simp [e]) 4 (by decide +kernel)
    (by decide +kernel) (by decide +kernel)

end UnitText
