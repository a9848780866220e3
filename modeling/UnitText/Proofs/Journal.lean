import UnitText.Proofs.Reading

/-!
Each matter is recorded once.

A lookup comes upon occasions for records: the index of a namespace is needed, or an
abbreviation has to do.  `Call.occasions` lists those of a call in their order, as they
are found without any memory.  A resolver records an occasion if its matter has not come
up before (`Resolver.note`), and that is all that a call changes in it
(`Call.work_notes`).  Main statements: after any calls the journal of a new resolver
tells what was news in them (`Call.journal_afterAll`), and a call that has been made
before is answered as before and changes nothing (`Call.run_of_mem`).
-/

namespace UnitText

/-- What a record is about. -/
inductive Matter where
  /-- The index of a namespace. -/
  | index (id : NamespaceId)
  /-- An abbreviation in a list of namespaces, be it that of a unit or of a logarithmic
  unit. -/
  | symbol (abbreviation : String) (scopes : List NamespaceId)
deriving DecidableEq, Repr

/-- An occasion for a record. -/
inductive Occasion where
  /-- The index of a namespace is needed. -/
  | indexing (scope : Namespace)
  /-- An abbreviation has to do in a context. -/
  | fallingBack (abbreviation : String) (c : Context)
deriving DecidableEq, Repr

namespace Occasion

def matter : Occasion → Matter
  | indexing scope => .index scope.id
  | fallingBack abbreviation c => .symbol abbreviation c.ids

def record : Occasion → Diagnostic
  | indexing scope => .indexed scope.name scope.size
  | fallingBack abbreviation c => .unresolved ⟨abbreviation, c.names⟩

/-- The occasions of one lookup: the indices that it needs, and then the abbreviation
unless a name was found. -/
def ofLookup (indexed : List Namespace) (abbreviation : String) (c : Context)
    (verified : Bool) : List Occasion :=
  indexed.map indexing ++ if verified then [] else [fallingBack abbreviation c]

theorem mem_ofLookup_iff {indexed : List Namespace} {abbreviation : String} {c : Context}
    {verified : Bool} {o : Occasion} :
    o ∈ ofLookup indexed abbreviation c verified ↔
      (∃ scope, o = .indexing scope ∧ scope ∈ indexed) ∨
      o = .fallingBack abbreviation c ∧ verified = false := by
  rw [ofLookup, List.mem_append, List.mem_map]
  apply or_congr
  · exact exists_congr fun _ => and_comm.trans (and_congr_left' eq_comm)
  · cases verified <;> simp

/-- The occasions whose matters are not known, the first one of each matter. -/
def news (known : List Matter) : List Occasion → List Occasion
  | [] => []
  | o :: rest =>
    if o.matter ∈ known then news known rest else o :: news (o.matter :: known) rest

/-- Which occasions are news depends on the matters that are known, not on their
order. -/
theorem news_congr {known known' : List Matter} (h : ∀ m, m ∈ known ↔ m ∈ known')
    (os : List Occasion) : news known os = news known' os := by
  induction os generalizing known known' with
  | nil => rfl
  | cons o rest ih =>
      have hcons : ∀ m, m ∈ o.matter :: known ↔ m ∈ o.matter :: known' := by
        intro m
        rw [List.mem_cons, List.mem_cons, h m]
      rw [news, news, ih h, ih hcons]
      exact if_congr (h o.matter) rfl rfl

/-- A matter is news just if it comes up and is not known. -/
theorem mem_map_news_iff {known : List Matter} {os : List Occasion} {m : Matter} :
    m ∈ (news known os).map matter ↔ m ∉ known ∧ m ∈ os.map matter := by
  induction os generalizing known with
  | nil => simp [news]
  | cons o rest ih =>
      rw [news, List.map_cons, List.mem_cons]
      by_cases hknown : o.matter ∈ known
      · rw [if_pos hknown, ih]
        constructor
        · rintro ⟨hm, hrest⟩
          exact ⟨hm, Or.inr hrest⟩
        · rintro ⟨hm, rfl | hrest⟩
          · exact absurd hknown hm
          · exact ⟨hm, hrest⟩
      · rw [if_neg hknown, List.map_cons, List.mem_cons, ih, List.mem_cons, not_or]
        constructor
        · rintro (rfl | ⟨⟨-, hm⟩, hrest⟩)
          · exact ⟨hknown, Or.inl rfl⟩
          · exact ⟨hm, Or.inr hrest⟩
        · rintro ⟨hm, rfl | hrest⟩
          · exact Or.inl rfl
          · by_cases heq : m = o.matter
            · exact Or.inl heq
            · exact Or.inr ⟨⟨heq, hm⟩, hrest⟩

theorem nodup_map_news (known : List Matter) (os : List Occasion) :
    ((news known os).map matter).Nodup := by
  induction os generalizing known with
  | nil => exact List.nodup_nil
  | cons o rest ih =>
      rw [news]
      split
      · exact ih known
      · rw [List.map_cons, List.nodup_cons, mem_map_news_iff]
        exact ⟨fun h => h.1 List.mem_cons_self, ih _⟩

end Occasion

namespace Resolver

/-- The matters that have come up. -/
def matters (r : Resolver) : List Matter :=
  r.indices.map (fun entry => .index entry.1) ++ r.warned.map fun key => .symbol key.1 key.2

/-- The memory with an occasion recorded and its matter kept. -/
def remember (r : Resolver) : Occasion → Resolver
  | .indexing scope =>
    { r with
      indices := r.indices ++ [(scope.id, .ofNamespace scope)]
      journal := r.journal ++ [.indexed scope.name scope.size] }
  | .fallingBack abbreviation c =>
    { r with
      warned := r.warned ++ [(abbreviation, c.ids)]
      journal := r.journal ++ [.unresolved ⟨abbreviation, c.names⟩] }

/-- The memory after an occasion, which is remembered if its matter is new. -/
def note (r : Resolver) (o : Occasion) : Resolver :=
  if o.matter ∈ r.matters then r else r.remember o

/-- The memory after a list of occasions. -/
def noteAll (r : Resolver) (os : List Occasion) : Resolver :=
  os.foldl note r

theorem index_mem_matters_iff {r : Resolver} {id : NamespaceId} :
    .index id ∈ r.matters ↔ r.indices.lookup id ≠ none := by
  have hmem : .index id ∈ r.matters ↔ ∃ entry ∈ r.indices, entry.1 = id := by
    simp only [matters, List.mem_append, List.mem_map, Matter.index.injEq, reduceCtorEq,
      and_false, exists_false, or_false]
  rw [hmem, ne_eq, List.lookup_eq_none_iff]
  constructor
  · rintro ⟨entry, hentry, rfl⟩ hnone
    exact bne_iff_ne.mp (hnone entry hentry) rfl
  · intro hfound
    by_contra hnone
    refine hfound fun entry hentry => bne_iff_ne.mpr fun heq => ?_
    exact hnone ⟨entry, hentry, heq.symm⟩

theorem symbol_mem_matters_iff {r : Resolver} {abbreviation : String}
    {scopes : List NamespaceId} :
    .symbol abbreviation scopes ∈ r.matters ↔ (abbreviation, scopes) ∈ r.warned := by
  simp [matters]

theorem note_of_mem {r : Resolver} {o : Occasion} (h : o.matter ∈ r.matters) : r.note o = r :=
  if_pos h

theorem note_of_notMem {r : Resolver} {o : Occasion} (h : o.matter ∉ r.matters) :
    r.note o = r.remember o :=
  if_neg h

theorem journal_remember (r : Resolver) (o : Occasion) :
    (r.remember o).journal = r.journal ++ [o.record] := by
  cases o <;> rfl

theorem mem_matters_remember {r : Resolver} {o : Occasion} {m : Matter} :
    m ∈ (r.remember o).matters ↔ m = o.matter ∨ m ∈ r.matters := by
  cases o with
  | indexing scope =>
      simp only [matters, remember, Occasion.matter, List.map_append, List.map_cons,
        List.map_nil, List.mem_append, List.mem_singleton]
      rw [or_right_comm, or_comm]
  | fallingBack abbreviation c =>
      simp only [matters, remember, Occasion.matter, List.map_append, List.map_cons,
        List.map_nil, List.mem_append, List.mem_singleton]
      rw [← or_assoc, or_comm]

theorem mem_matters_note {r : Resolver} {o : Occasion} {m : Matter} :
    m ∈ (r.note o).matters ↔ m = o.matter ∨ m ∈ r.matters := by
  by_cases h : o.matter ∈ r.matters
  · rw [note_of_mem h]
    exact ⟨Or.inr, fun hm => hm.elim (fun heq => heq ▸ h) id⟩
  · rw [note_of_notMem h, mem_matters_remember]

theorem noteAll_append (r : Resolver) (os os' : List Occasion) :
    r.noteAll (os ++ os') = (r.noteAll os).noteAll os' :=
  List.foldl_append

theorem mem_matters_noteAll {r : Resolver} {os : List Occasion} {m : Matter} :
    m ∈ (r.noteAll os).matters ↔ m ∈ os.map Occasion.matter ∨ m ∈ r.matters := by
  induction os generalizing r with
  | nil => simp [noteAll]
  | cons o rest ih =>
      change m ∈ ((r.note o).noteAll rest).matters ↔ _
      rw [ih, mem_matters_note, List.map_cons, List.mem_cons, or_left_comm, or_assoc]

/-- What is recorded on a list of occasions is what is news among them. -/
theorem journal_noteAll (r : Resolver) (os : List Occasion) :
    (r.noteAll os).journal = r.journal ++ (Occasion.news r.matters os).map Occasion.record := by
  induction os generalizing r with
  | nil => simp [noteAll, Occasion.news]
  | cons o rest ih =>
      change ((r.note o).noteAll rest).journal = _
      rw [ih, Occasion.news]
      by_cases h : o.matter ∈ r.matters
      · rw [note_of_mem h, if_pos h]
      · have hmatters : ∀ m, m ∈ (r.note o).matters ↔ m ∈ o.matter :: r.matters := by
          intro m
          rw [mem_matters_note, List.mem_cons]
        rw [Occasion.news_congr hmatters, note_of_notMem h, journal_remember, if_neg h,
          List.map_cons, List.append_assoc, List.singleton_append]

/-- Occasions whose matters have all come up change nothing. -/
theorem noteAll_eq_self {r : Resolver} {os : List Occasion}
    (h : ∀ o ∈ os, o.matter ∈ r.matters) : r.noteAll os = r := by
  induction os with
  | nil => rfl
  | cons o rest ih =>
      rw [List.forall_mem_cons] at h
      change (r.note o).noteAll rest = r
      rw [note_of_mem h.1]
      exact ih h.2

/-- There are as many records of indices as indices. -/
def Counts (r : Resolver) : Prop :=
  (r.journal.filter fun d => d.level = "DEBUG").length = r.indexedCount

theorem Counts.note {r : Resolver} (hr : r.Counts) (o : Occasion) : (r.note o).Counts := by
  by_cases h : o.matter ∈ r.matters
  · rwa [note_of_mem h]
  · rw [note_of_notMem h, Counts, journal_remember, List.filter_append, List.length_append, hr]
    cases o with
    | indexing scope =>
        rw [indexedCount, indexedCount, remember, List.length_append]
        rfl
    | fallingBack abbreviation c => rfl

theorem Counts.noteAll {r : Resolver} (hr : r.Counts) (os : List Occasion) :
    (r.noteAll os).Counts := by
  induction os generalizing r with
  | nil => exact hr
  | cons o rest ih => exact ih (hr.note o)

end Resolver

/-- The namespaces that a search for a binding reaches: it ends with the first one that
binds anything to it. -/
def reached (target : Binding) : List Namespace → List Namespace
  | [] => []
  | scope :: rest =>
    scope :: if scope.identifiersOf target = [] then reached target rest else []

/-- The namespaces whose indices are needed to name a unit: those that are reached and
do not bind its abbreviation to it alone. -/
def indexedFor (unit : BaseUnit) (scopes : List Namespace) : List Namespace :=
  (reached (.bare unit) scopes).filter fun scope =>
    scope.get? unit.abbreviation ≠ some (.bare unit)

namespace Context

/-- The namespace is in the context, and none before it binds anything to the target. -/
def Reaches (c : Context) (target : Binding) (scope : Namespace) : Prop :=
  ∃ before after, c.scopes = before ++ scope :: after ∧
    ∀ earlier ∈ before, earlier.identifiersOf target = []

theorem mem_reached_iff {target : Binding} {scopes : List Namespace} {scope : Namespace} :
    scope ∈ reached target scopes ↔ Reaches ⟨scopes⟩ target scope := by
  induction scopes with
  | nil => simp [reached, Reaches]
  | cons first rest ih =>
      rw [reached, List.mem_cons]
      constructor
      · rintro (rfl | hrest)
        · exact ⟨[], rest, rfl, fun _ hnone => absurd hnone List.not_mem_nil⟩
        · split at hrest
          · next hfirst =>
              obtain ⟨before, after, hscopes, hbefore⟩ := ih.mp hrest
              refine ⟨first :: before, after, congrArg (first :: ·) hscopes, ?_⟩
              exact List.forall_mem_cons.mpr ⟨hfirst, hbefore⟩
          · exact absurd hrest List.not_mem_nil
      · rintro ⟨before, after, hscopes, hbefore⟩
        cases before with
        | nil => exact Or.inl (List.cons.inj hscopes).1.symm
        | cons earlier before =>
            obtain ⟨rfl, hrest⟩ := List.cons.inj hscopes
            rw [List.forall_mem_cons] at hbefore
            rw [if_pos hbefore.1]
            exact Or.inr (ih.mpr ⟨before, after, hrest, hbefore.2⟩)

/-- The occasions that are come upon when a unit is looked up. -/
def unitOccasions (c : Context) (unit : BaseUnit) : List Occasion :=
  Occasion.ofLookup (indexedFor unit c.scopes) unit.abbreviation c (c.scanUnit unit).verified

/-- The occasions that are come upon when a logarithmic unit is looked up. -/
def logUnitOccasions (c : Context) (unit : LogUnit) : List Occasion :=
  Occasion.ofLookup (reached (.log unit) c.scopes) unit.abbreviation c (c.scanLogUnit unit).verified

theorem mem_unitOccasions_iff {c : Context} {unit : BaseUnit} {o : Occasion} :
    o ∈ c.unitOccasions unit ↔
      (∃ scope, o = .indexing scope ∧ c.Reaches (.bare unit) scope ∧
        scope.get? unit.abbreviation ≠ some (.bare unit)) ∨
      o = .fallingBack unit.abbreviation c ∧ (c.scanUnit unit).verified = false := by
  rw [unitOccasions, Occasion.mem_ofLookup_iff]
  simp only [indexedFor, List.mem_filter, mem_reached_iff, decide_eq_true_eq]

theorem mem_logUnitOccasions_iff {c : Context} {unit : LogUnit} {o : Occasion} :
    o ∈ c.logUnitOccasions unit ↔
      (∃ scope, o = .indexing scope ∧ c.Reaches (.log unit) scope) ∨
      o = .fallingBack unit.abbreviation c ∧ (c.scanLogUnit unit).verified = false := by
  rw [logUnitOccasions, Occasion.mem_ofLookup_iff]
  simp only [mem_reached_iff]

end Context

/-- The units of an expression are looked up in the order in which they are written. -/
def UnitExpr.occasions (c : Context) (e : UnitExpr) : List Occasion :=
  e.ordered.flatMap fun a => c.unitOccasions a.unit

/-- The unit of a logarithmic quantity is looked up before those in its number. -/
def Value.occasions (c : Context) : Value → List Occasion
  | .log _ value unit => c.logUnitOccasions unit ++ value.occasions c
  | _ => []

def Quantity.occasions (c : Context) (q : Quantity) : List Occasion :=
  q.value.occasions c ++ q.unit.occasions c

/-- Nothing is looked up for a step that is not written. -/
def QuantityRange.occasions (c : Context) (r : QuantityRange) : List Occasion :=
  r.start.occasions c ++ (if r.hasUnitStep then [] else r.step.occasions c) ++
    r.stop.occasions c ++ r.unit.occasions c

def Item.occasions (c : Context) : Item → List Occasion
  | .quantity q => q.occasions c
  | .log q => q.toValue.occasions c
  | .range r => r.occasions c
  | .units e => e.occasions c
  | .noUnits => []

/-- Work that changes a faithful memory on these occasions and in no other way. -/
def Notes {α : Type} (world : World) (work : Lookup α) (os : List Occasion) : Prop :=
  ∀ r : Resolver, r.Faithful world → (work.run r).2 = r.noteAll os

namespace Notes

variable {α β : Type} {world : World}

theorem pure (answer : α) : Notes world (Pure.pure answer) [] :=
  fun _ _ => rfl

theorem bind {work : Lookup α} {next : α → Lookup β} {answer : α} {os os' : List Occasion}
    (hgives : Gives world work answer) (hwork : Notes world work os)
    (hnext : Notes world (next answer) os') : Notes world (work >>= next) (os ++ os') := by
  intro r hr
  obtain ⟨hanswer, hfaithful⟩ := hgives r hr
  change ((next (work.run r).1).run (work.run r).2).2 = _
  rw [hanswer, hnext _ hfaithful, hwork r hr, Resolver.noteAll_append]

/-- What is made of an answer without further lookups adds no occasion. -/
theorem bind_pure {work : Lookup α} {answer : α} {os : List Occasion} {f : α → β}
    (hgives : Gives world work answer) (hwork : Notes world work os) :
    Notes world (work >>= fun a => Pure.pure (f a)) os := by
  rw [← List.append_nil os]
  exact bind hgives hwork (.pure (f answer))

theorem mapM {work : α → Lookup β} {answer : α → β} {os : α → List Occasion}
    (hgives : ∀ a, Gives world (work a) (answer a)) (hwork : ∀ a, Notes world (work a) (os a))
    (as : List α) : Notes world (as.mapM work) (as.flatMap os) := by
  induction as with
  | nil => exact .pure []
  | cons a as ih =>
      rw [List.mapM_cons]
      exact bind (hgives a) (hwork a) (bind_pure (.mapM hgives as) ih)

end Notes

namespace Resolver

variable {world : World}

theorem index_notes (scope : Namespace) : Notes world (index scope) [.indexing scope] := by
  intro r _
  change ((index scope).run r).2 = r.note (.indexing scope)
  have hmem : (Occasion.indexing scope).matter ∈ r.matters ↔ _ := index_mem_matters_iff
  cases hknown : r.indices.lookup scope.id with
  | some known =>
      rw [note_of_mem (hmem.mpr (by simp [hknown]))]
      simp only [index, StateT.run_bind, StateT.run_get, pure_bind, hknown]
      rfl
  | none =>
      rw [note_of_notMem (mt hmem.mp (by simp [hknown]))]
      simp only [index, StateT.run_bind, StateT.run_get, pure_bind, hknown]
      rfl

theorem fallBack_notes (abbreviation : String) (c : Context) :
    Notes world (fallBack abbreviation c) [.fallingBack abbreviation c] := by
  intro r _
  change ((fallBack abbreviation c).run r).2 = r.note (.fallingBack abbreviation c)
  have hmem : (Occasion.fallingBack abbreviation c).matter ∈ r.matters ↔ _ :=
    symbol_mem_matters_iff
  cases hwarned : r.warned.contains (abbreviation, c.ids) with
  | true =>
      rw [note_of_mem (hmem.mpr (List.contains_iff_mem.mp hwarned))]
      simp only [fallBack, StateT.run_bind, StateT.run_get, pure_bind, hwarned]
      rfl
  | false =>
      have hnot : (abbreviation, c.ids) ∉ r.warned := by
        rw [← List.contains_iff_mem, hwarned]
        exact Bool.false_ne_true
      rw [note_of_notMem (mt hmem.mp hnot)]
      simp only [fallBack, StateT.run_bind, StateT.run_get, pure_bind, hwarned]
      rfl

/-- A search needs the indices of the namespaces it reaches, except that of one where
the abbreviation will do. -/
theorem searchUnit_notes (unit : BaseUnit) {scopes : List Namespace}
    (hscopes : ∀ scope ∈ scopes, scope ∈ world.namespaces) :
    Notes world (searchUnit unit scopes) ((indexedFor unit scopes).map .indexing) := by
  induction scopes with
  | nil => exact .pure none
  | cons scope rest ih =>
      rw [List.forall_mem_cons] at hscopes
      rw [searchUnit, indexedFor, reached]
      -- Where the abbreviation will do, the search ends and no index is needed.
      by_cases habbr : scope.get? unit.abbreviation = some (.bare unit)
      · have hids : scope.identifiersOf (.bare unit) ≠ [] :=
          Namespace.names_iff.mp (Namespace.names_of_get? habbr)
        rw [if_pos ((scope.bindsBare_iff _ unit).mpr habbr), if_neg hids]
        simp only [List.filter_cons, habbr, ne_eq, not_true_eq_false, decide_false,
          Bool.false_eq_true, if_false, List.filter_nil, List.map_nil]
        exact .pure _
      · rw [if_neg (mt (scope.bindsBare_iff _ unit).mp habbr)]
        simp only [List.filter_cons, habbr, ne_eq, not_false_eq_true, decide_true, if_true,
          List.map_cons]
        refine Notes.bind (index_gives hscopes.1) (index_notes scope) ?_
        rw [ReverseIndex.unit?_ofNamespace]
        cases scope.identifiersOf (.bare unit) with
        | nil => exact ih hscopes.2
        | cons first others => exact .pure _

theorem searchLogUnit_notes (unit : LogUnit) {scopes : List Namespace}
    (hscopes : ∀ scope ∈ scopes, scope ∈ world.namespaces) :
    Notes world (searchLogUnit unit scopes) ((reached (.log unit) scopes).map .indexing) := by
  induction scopes with
  | nil => exact .pure none
  | cons scope rest ih =>
      rw [List.forall_mem_cons] at hscopes
      rw [searchLogUnit, reached, List.map_cons]
      refine Notes.bind (index_gives hscopes.1) (index_notes scope) ?_
      rw [ReverseIndex.logUnit?_ofNamespace]
      cases scope.identifiersOf (.log unit) with
      | nil => exact ih hscopes.2
      | cons first others => exact .pure _

/-- An abbreviation has to do just if no name was found. -/
theorem ofName?_notes (abbreviation : String) (c : Context) (name? : Option String) :
    Notes world
      (match name? with
        | some identifier => pure ⟨identifier, true⟩
        | none => fallBack abbreviation c)
      (if (Resolution.ofName? abbreviation name?).verified then []
        else [.fallingBack abbreviation c]) := by
  cases name? with
  | none => exact fallBack_notes abbreviation c
  | some identifier => exact .pure _

theorem resolveUnit_notes {c : Context} (hc : c.Within world) (unit : BaseUnit) :
    Notes world (resolveUnit c unit) (c.unitOccasions unit) :=
  .bind (searchUnit_gives unit hc) (searchUnit_notes unit hc) (ofName?_notes _ c _)

theorem resolveLogUnit_notes {c : Context} (hc : c.Within world) (unit : LogUnit) :
    Notes world (resolveLogUnit c unit) (c.logUnitOccasions unit) :=
  .bind (searchLogUnit_gives unit hc) (searchLogUnit_notes unit hc) (ofName?_notes _ c _)

end Resolver

section Writing

variable {world : World} {c : Context}

theorem UnitExpr.map_unit_factors (e : UnitExpr) :
    e.factors.map Factor.unit = e.ordered.map Atom.unit := by
  have hunits : ∀ atoms : List Atom, (atoms.map (followingFactor e.usesDivision)).map Factor.unit =
      atoms.map Atom.unit := by
    intro atoms
    rw [List.map_map]
    exact List.map_congr_left fun a _ => followingFactor_unit _ a
  rw [factors, ← hunits]
  cases e.ordered.map (followingFactor e.usesDivision) <;> rfl

theorem UnitExpr.occasions_eq (c : Context) (e : UnitExpr) :
    e.occasions c = e.factors.flatMap fun f => c.unitOccasions f.unit := by
  rw [occasions, ← List.flatMap_map, ← map_unit_factors, List.flatMap_map]

theorem UnitExpr.write_notes (hc : c.Within world) (e : UnitExpr) :
    Notes world (e.write c) (e.occasions c) := by
  rw [occasions_eq]
  have hgives : ∀ f : Factor, Gives world
      (do let name ← Resolver.resolveUnit c f.unit; pure (f.text name.identifier))
      (f.text (c.unitIdentifier f.unit)) :=
    fun f => (Resolver.resolveUnit_gives hc f.unit).bind (.pure _)
  refine .bind_pure (.mapM hgives e.factors) (.mapM hgives (fun f => ?_) e.factors)
  exact .bind_pure (Resolver.resolveUnit_gives hc f.unit) (Resolver.resolveUnit_notes hc f.unit)

theorem Value.write_notes (hc : c.Within world) (o : Options) (v : Value) :
    Notes world (v.write o c) (v.occasions c) := by
  induction v with
  | int | float | ratio | complex | complexInt | custom => exact .pure _
  | log kind value unit ih =>
      exact .bind (Resolver.resolveLogUnit_gives hc unit)
        (Resolver.resolveLogUnit_notes hc unit) (.bind_pure (value.write_gives hc o) ih)

/-- Nothing is looked up for the dimensionless unit. -/
theorem UnitExpr.occasions_of_isDimensionless {e : UnitExpr} (he : e.isDimensionless) :
    e.occasions c = [] := by
  rw [occasions, ordered_eq_nil_iff.mpr he, List.flatMap_nil]

theorem UnitExpr.writeAlone_notes (hc : c.Within world) (o : Options) (e : UnitExpr) :
    Notes world (Writable.write o c e) (e.occasions c) := by
  simp only [Writable.write]
  split
  · next he =>
      rw [occasions_of_isDimensionless he]
      exact .pure _
  · exact .bind_pure (e.write_gives hc) (e.write_notes hc)

theorem Quantity.write_notes (hc : c.Within world) (o : Options) (q : Quantity) :
    Notes world (Writable.write o c q) (q.occasions c) := by
  refine .bind (q.value.write_gives hc o) (q.value.write_notes hc o) ?_
  split
  · next he =>
      rw [UnitExpr.occasions_of_isDimensionless he]
      exact .pure _
  · exact .bind_pure (q.unit.write_gives hc) (q.unit.write_notes hc)

theorem LogQuantity.write_notes (hc : c.Within world) (o : Options) (q : LogQuantity) :
    Notes world (Writable.write o c q) (q.toValue.occasions c) :=
  q.toValue.write_notes hc o

theorem QuantityRange.writeBounds_notes (hc : c.Within world) (o : Options) (r : QuantityRange) :
    Notes world (r.writeBounds o c) (r.start.occasions c ++
      ((if r.hasUnitStep then [] else r.step.occasions c) ++ r.stop.occasions c)) := by
  have hstop := r.stop.write_gives hc o
  refine .bind (r.start.write_gives hc o) (r.start.write_notes hc o) ?_
  split
  · exact .bind_pure hstop (r.stop.write_notes hc o)
  · exact .bind (r.step.write_gives hc o) (r.step.write_notes hc o)
      (.bind_pure hstop (r.stop.write_notes hc o))

theorem QuantityRange.write_notes (hc : c.Within world) (o : Options) (r : QuantityRange) :
    Notes world (Writable.write o c r) (r.occasions c) := by
  rw [occasions, List.append_assoc (r.start.occasions c)]
  refine .bind (r.writeBounds_gives hc o) (r.writeBounds_notes hc o) ?_
  split
  · next he =>
      rw [UnitExpr.occasions_of_isDimensionless he]
      exact .pure _
  · exact .bind_pure (r.unit.write_gives hc) (r.unit.write_notes hc)

/-- Writing an item changes a resolver on the occasions of the item alone. -/
theorem Item.write_notes (hc : c.Within world) (o : Options) (x : Item) :
    Notes world (Writable.write o c x) (x.occasions c) := by
  cases x with
  | quantity q => exact q.write_notes hc o
  | log q => exact q.write_notes hc o
  | range r => exact r.write_notes hc o
  | units e => exact e.writeAlone_notes hc o
  | noUnits => exact .pure _

end Writing

/-- A call on a resolver. -/
inductive Call where
  | resolveUnit (c : Context) (unit : BaseUnit)
  | resolveLogUnit (c : Context) (unit : LogUnit)
  | format (o : Options) (c : Context) (item : Item)
  /-- The text of an expression by itself, which is never quoted. -/
  | formatBare (c : Context) (e : UnitExpr)
deriving DecidableEq, Repr

namespace Call

def context : Call → Context
  | resolveUnit c _ => c
  | resolveLogUnit c _ => c
  | format _ c _ => c
  | formatBare c _ => c

/-- What a resolver does in a call. -/
def work : Call → Lookup (Resolution ⊕ String)
  | resolveUnit c unit => do return .inl (← Resolver.resolveUnit c unit)
  | resolveLogUnit c unit => do return .inl (← Resolver.resolveLogUnit c unit)
  | format o c item => do return .inr (← Writable.write o c item)
  | formatBare c e => do return .inr (← e.write c)

/-- The answer to a call, found without any memory. -/
def answer : Call → Resolution ⊕ String
  | resolveUnit c unit => .inl (c.scanUnit unit)
  | resolveLogUnit c unit => .inl (c.scanLogUnit unit)
  | format o c item => .inr (item.text o c)
  | formatBare c e => .inr (e.text c)

/-- The occasions that are come upon in a call. -/
def occasions : Call → List Occasion
  | resolveUnit c unit => c.unitOccasions unit
  | resolveLogUnit c unit => c.logUnitOccasions unit
  | format _ c item => item.occasions c
  | formatBare c e => e.occasions c

/-- A resolver after a call. -/
def after (r : Resolver) (call : Call) : Resolver :=
  (call.work.run r).2

/-- A resolver after a list of calls. -/
def afterAll (r : Resolver) (calls : List Call) : Resolver :=
  calls.foldl after r

variable {world : World} {call : Call} {calls : List Call}

theorem work_gives (hcall : call.context.Within world) : Gives world call.work call.answer := by
  cases call with
  | resolveUnit c unit => exact (Resolver.resolveUnit_gives hcall unit).bind (.pure _)
  | resolveLogUnit c unit => exact (Resolver.resolveLogUnit_gives hcall unit).bind (.pure _)
  | format o c item => exact (item.write_gives hcall o).bind (.pure _)
  | formatBare c e => exact (e.write_gives hcall).bind (.pure _)

/-- A call changes a resolver on its occasions alone. -/
theorem work_notes (hcall : call.context.Within world) :
    Notes world call.work call.occasions := by
  cases call with
  | resolveUnit c unit =>
      exact .bind_pure (Resolver.resolveUnit_gives hcall unit)
        (Resolver.resolveUnit_notes hcall unit)
  | resolveLogUnit c unit =>
      exact .bind_pure (Resolver.resolveLogUnit_gives hcall unit)
        (Resolver.resolveLogUnit_notes hcall unit)
  | format o c item => exact .bind_pure (item.write_gives hcall o) (item.write_notes hcall o)
  | formatBare c e => exact .bind_pure (e.write_gives hcall) (e.write_notes hcall)

theorem afterAll_append (r : Resolver) (calls calls' : List Call) :
    afterAll r (calls ++ calls') = afterAll (afterAll r calls) calls' :=
  List.foldl_append

theorem faithful_afterAll {r : Resolver} (hr : r.Faithful world)
    (hcalls : ∀ call ∈ calls, call.context.Within world) :
    (afterAll r calls).Faithful world := by
  induction calls generalizing r with
  | nil => exact hr
  | cons call rest ih =>
      rw [List.forall_mem_cons] at hcalls
      exact ih ((work_gives hcalls.1) r hr).2 hcalls.2

/-- What a resolver is after some calls is told by their occasions. -/
theorem afterAll_eq_noteAll {r : Resolver} (hr : r.Faithful world)
    (hcalls : ∀ call ∈ calls, call.context.Within world) :
    afterAll r calls = r.noteAll (calls.flatMap occasions) := by
  induction calls generalizing r with
  | nil => rfl
  | cons call rest ih =>
      rw [List.forall_mem_cons] at hcalls
      have hnext : (after r call).Faithful world := (work_gives hcalls.1 r hr).2
      have hafter : after r call = r.noteAll call.occasions := work_notes hcalls.1 r hr
      change afterAll (after r call) rest = _
      rw [ih hnext hcalls.2, hafter, List.flatMap_cons, Resolver.noteAll_append]

theorem mem_matters_afterAll (hcalls : ∀ call ∈ calls, call.context.Within world) {m : Matter} :
    m ∈ (afterAll .fresh calls).matters ↔ m ∈ (calls.flatMap occasions).map Occasion.matter := by
  have hnone : m ∉ Resolver.fresh.matters := List.not_mem_nil
  rw [afterAll_eq_noteAll (Resolver.faithful_fresh world) hcalls, Resolver.mem_matters_noteAll,
    or_iff_left hnone]

/-- The journal after some calls tells what was news in them. -/
theorem journal_afterAll (hcalls : ∀ call ∈ calls, call.context.Within world) :
    (afterAll .fresh calls).journal =
      (Occasion.news [] (calls.flatMap occasions)).map Occasion.record := by
  rw [afterAll_eq_noteAll (Resolver.faithful_fresh world) hcalls, Resolver.journal_noteAll]
  rfl

theorem counts_afterAll (hcalls : ∀ call ∈ calls, call.context.Within world) :
    (afterAll .fresh calls).Counts := by
  have hfresh : Resolver.fresh.Counts := rfl
  rw [afterAll_eq_noteAll (Resolver.faithful_fresh world) hcalls]
  exact hfresh.noteAll _

/-- The records of a call are those of its occasions that no call before it had. -/
theorem journal_after (hcalls : ∀ call ∈ calls, call.context.Within world)
    (hcall : call.context.Within world) :
    (after (afterAll .fresh calls) call).journal = (afterAll .fresh calls).journal ++
      (Occasion.news ((calls.flatMap occasions).map Occasion.matter) call.occasions).map
        Occasion.record := by
  have hfaithful := faithful_afterAll (Resolver.faithful_fresh world) hcalls
  rw [after, work_notes hcall _ hfaithful, Resolver.journal_noteAll,
    Occasion.news_congr fun _ => mem_matters_afterAll hcalls]

/-- A call that has been made before is answered as before and changes nothing. -/
theorem run_of_mem (hcalls : ∀ call ∈ calls, call.context.Within world) (hmem : call ∈ calls) :
    call.work.run (afterAll .fresh calls) = (call.answer, afterAll .fresh calls) := by
  have hcall := hcalls call hmem
  have hfaithful := faithful_afterAll (Resolver.faithful_fresh world) hcalls
  refine Prod.ext (work_gives hcall _ hfaithful).1 ?_
  rw [work_notes hcall _ hfaithful]
  apply Resolver.noteAll_eq_self
  intro o ho
  rw [mem_matters_afterAll hcalls]
  exact List.mem_map_of_mem (List.mem_flatMap_of_mem hmem ho)

end Call

end UnitText
