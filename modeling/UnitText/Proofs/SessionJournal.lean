import UnitText.Proofs.Journal
import UnitText.Proofs.SessionWorld

/-!
The resolvers of a session are called in its contexts.

A step of a session keeps a resolver as it was, makes a new one, or calls one in a
context of the session (`Session.step_yields`).  So every resolver of a session is a
new one after some calls (`Session.exists_calls`), and what holds of the journal after
any calls holds of it.  Main statement: over any calls, and in any session, each matter
is recorded on its first occasion and never again, and a call that is repeated changes
nothing (`Call.records_once`).
-/

namespace UnitText

/-- A resolver that calls in contexts of the world have made of a new one. -/
def Resolver.Called (r : Resolver) (world : World) : Prop :=
  ∃ calls : List Call, (∀ call ∈ calls, call.context.Within world) ∧
    r = Call.afterAll .fresh calls

namespace Resolver

variable {world : World} {r : Resolver}

theorem called_fresh (world : World) : fresh.Called world :=
  ⟨[], fun _ hcall => absurd hcall List.not_mem_nil, rfl⟩

theorem Called.mono (hr : r.Called world) {world' : World} (hle : world ≤ world') :
    r.Called world' := by
  obtain ⟨calls, hcalls, hafter⟩ := hr
  exact ⟨calls, fun call hcall => (hcalls call hcall).mono hle, hafter⟩

theorem Called.after (hr : r.Called world) {call : Call} (hcall : call.context.Within world) :
    (call.after r).Called world := by
  obtain ⟨calls, hcalls, rfl⟩ := hr
  refine ⟨calls ++ [call], ?_, (Call.afterAll_append .fresh calls [call]).symm⟩
  rw [List.forall_mem_append]
  exact ⟨hcalls, List.forall_mem_singleton.mpr hcall⟩

end Resolver

namespace Session

variable {world : World} {s s' : Session} {r : Resolver}

/-- What the resolvers are after a step of a session. -/
inductive Yields (s : Session) : Resolver → Prop
  | kept {r : Resolver} (hr : s.HasResolver r) : Yields s r
  | fresh : Yields s .fresh
  | called {r : Resolver} {call : Call} {ref : ContextRef} (hr : s.HasResolver r)
      (hc : s.context? ref = .ok call.context) : Yields s (call.after r)

/-- The sessions have the same resolvers. -/
def SameResolvers (s s' : Session) : Prop :=
  s'.resolvers = s.resolvers ∧ s'.ambient.resolver = s.ambient.resolver

theorem SameResolvers.refl (s : Session) : s.SameResolvers s :=
  ⟨rfl, rfl⟩

theorem SameResolvers.trans {s'' : Session} (h : s.SameResolvers s') (h' : s'.SameResolvers s'') :
    s.SameResolvers s'' :=
  ⟨h'.1.trans h.1, h'.2.trans h.2⟩

theorem SameResolvers.yields (h : s.SameResolvers s') (hr : s'.HasResolver r) : s.Yields r := by
  refine .kept ?_
  rcases hr with ⟨id, hid⟩ | hshared
  · rw [resolver?, h.1] at hid
    exact Or.inl ⟨id, hid⟩
  · exact Or.inr (hshared.trans h.2)

theorem sameResolvers_share {id : String} {ns : Namespace} (h : s.share id = .ok (ns, s')) :
    s.SameResolvers s' := by
  obtain ⟨holding, -, h⟩ := exists_of_bind_eq_ok h
  cases h
  exact .refl s

theorem sameResolvers_shareAll {ids : List String} {scopes : List Namespace}
    (h : s.shareAll ids = .ok (scopes, s')) : s.SameResolvers s' := by
  induction ids generalizing s scopes with
  | nil =>
      cases h
      exact .refl _
  | cons id ids ih =>
      obtain ⟨⟨ns, s₁⟩, hshare, h⟩ := exists_of_bind_eq_ok h
      obtain ⟨⟨rest, s₂⟩, hrest, h⟩ := exists_of_bind_eq_ok h
      cases h
      exact (sameResolvers_share hshare).trans (ih hrest)

theorem sameResolvers_setContext (s : Session) (c : Context) (ref : ContextRef) :
    s.SameResolvers (s.setContext c ref) := by
  cases ref <;> exact .refl s

/-- The resolvers of a session in which one of them has been put under a name. -/
theorem hasResolver_put {id : String} {new : Resolver}
    (hr : HasResolver { s with resolvers := Keyed.put id new s.resolvers } r) :
    r = new ∨ s.HasResolver r := by
  rcases hr with ⟨other, hother⟩ | hshared
  · simp only [resolver?] at hother
    split at hother
    · next hlookup =>
        cases hother
        rcases Keyed.lookup_put_cases hlookup with ⟨-, heq⟩ | ⟨-, hold⟩
        · exact Or.inl heq
        · refine Or.inr (Or.inl ⟨other, ?_⟩)
          rw [resolver?, hold]
    · cases hother
  · exact Or.inr (Or.inr hshared)

/-- Work that is a call, but for what is made of its answer, is done by a named
resolver as that call. -/
theorem resolveWith_yields {α : Type} {id : String} {work : Lookup α} {call : Call}
    {ref : ContextRef} {answer : α} {indexed : Nat} {records : List Diagnostic}
    (h : s.resolveWith id work = .ok (answer, indexed, records, s'))
    (hc : s.context? ref = .ok call.context) (hwork : ∀ r, (work.run r).2 = call.after r)
    (hr : s'.HasResolver r) : s.Yields r := by
  obtain ⟨old, hold, h⟩ := exists_of_bind_eq_ok h
  cases h
  rcases hasResolver_put hr with heq | hkept
  · rw [heq]
    change s.Yields (work.run old).2
    rw [hwork]
    exact .called (Or.inl ⟨id, hold⟩) hc
  · exact .kept hkept

/-- The shared resolver writes an item in a call, whatever the entry point. -/
theorem writeBy_yields {α : Type} [Writable α] {x : α} {item : Item}
    {entry : EntryPoint} {text : String} {ambient : Ambient}
    (h : s.writeBy entry x item = .ok (text, ambient))
    (hx : ∀ o c, Writable.write o c x = Writable.write o c item)
    (hr : HasResolver { s with ambient } r) : s.Yields r := by
  have hafter : ∀ o c, ((Ambient.writeWith c o x).run s.ambient).2.resolver =
      (Call.format o c item).after s.ambient.resolver := by
    intro o c
    change ((Writable.write o c x).run s.ambient.resolver).2 = _
    rw [hx]
    rfl
  have hcall : ∃ o ref c, s.context? ref = .ok c ∧
      ambient.resolver = (Call.format o c item).after s.ambient.resolver := by
    cases entry with
    | text | display | field =>
        cases h
        exact ⟨s.ambient.options, .default, _, rfl, hafter _ _⟩
    | item =>
        cases h
        exact ⟨s.ambient.options, .default, _, rfl, rfl⟩
    | inContext ref =>
        obtain ⟨c, hc, h⟩ := exists_of_bind_eq_ok h
        cases h
        exact ⟨s.ambient.options, ref, c, hc, hafter _ _⟩
    | withOptions ref o =>
        obtain ⟨c, hc, h⟩ := exists_of_bind_eq_ok h
        cases h
        exact ⟨s.optionsOf o, ref, c, hc, hafter _ _⟩
  obtain ⟨o, ref, c, hc, hresolver⟩ := hcall
  rcases hr with hnamed | hshared
  · exact .kept (Or.inl hnamed)
  · rw [hshared]
    change s.Yields ambient.resolver
    rw [hresolver]
    exact .called (Or.inr rfl) hc

theorem write_yields {entry : EntryPoint} {item : Item} {reply : Reply}
    (h : s.step (.write entry item) = .ok (reply, s')) (hr : s'.HasResolver r) :
    s.Yields r := by
  cases item with
  | quantity | log | range | units | noUnits =>
      obtain ⟨_, hwrite, h⟩ := exists_of_bind_eq_ok h
      cases h
      exact writeBy_yields hwrite (fun _ _ => rfl) hr

/-- After a step of a session a resolver is as it was, new, or as a call in a context
of the session has left it. -/
theorem step_yields {x : Step} {reply : Reply} (h : s.step x = .ok (reply, s'))
    (hr : s'.HasResolver r) : s.Yields r := by
  cases x with
  | create | setFlag =>
      cases h
      exact .kept hr
  | bind id identifier binding =>
      obtain ⟨holding, -, h⟩ := exists_of_bind_eq_ok h
      cases hshared : holding.shared with
      | true =>
          rw [hshared] at h
          cases h
      | false =>
          rw [hshared] at h
          cases h
          exact .kept hr
  | get id identifier =>
      obtain ⟨holding, -, h⟩ := exists_of_bind_eq_ok h
      cases h
      exact .kept hr
  | compare a b =>
      obtain ⟨⟨nsa, s₁⟩, ha, h⟩ := exists_of_bind_eq_ok h
      obtain ⟨⟨nsb, s₂⟩, hb, h⟩ := exists_of_bind_eq_ok h
      cases h
      exact ((sameResolvers_share ha).trans (sameResolvers_share hb)).yields hr
  | compose id scopes =>
      obtain ⟨⟨scopes, s₁⟩, hscopes, h⟩ := exists_of_bind_eq_ok h
      cases h
      exact (sameResolvers_shareAll hscopes).yields hr
  | copy id source =>
      obtain ⟨c, -, h⟩ := exists_of_bind_eq_ok h
      cases h
      exact .kept hr
  | add ref id | remove ref id =>
      obtain ⟨c, -, h⟩ := exists_of_bind_eq_ok h
      obtain ⟨⟨ns, s₁⟩, hns, h⟩ := exists_of_bind_eq_ok h
      cases h
      exact ((sameResolvers_share hns).trans (sameResolvers_setContext s₁ _ ref)).yields hr
  | contains ref id =>
      obtain ⟨c, -, h⟩ := exists_of_bind_eq_ok h
      obtain ⟨⟨ns, s₁⟩, hns, h⟩ := exists_of_bind_eq_ok h
      cases h
      exact (sameResolvers_share hns).yields hr
  | addDefault scopes | removeDefault scopes =>
      obtain ⟨⟨scopes, s₁⟩, hscopes, h⟩ := exists_of_bind_eq_ok h
      cases h
      exact (sameResolvers_shareAll hscopes).yields hr
  | newResolver id =>
      cases h
      rcases hasResolver_put hr with rfl | hkept
      · exact .fresh
      · exact .kept hkept
  | resolveUnit id ref unit =>
      obtain ⟨c, hc, h⟩ := exists_of_bind_eq_ok h
      obtain ⟨⟨answer, indexed, records, s₁⟩, hwork, h⟩ := exists_of_bind_eq_ok h
      cases h
      have hcall : s.context? ref = .ok (Call.resolveUnit c unit).context := hc
      exact resolveWith_yields hwork hcall (fun _ => rfl) hr
  | resolveLogUnit id ref unit =>
      obtain ⟨c, hc, h⟩ := exists_of_bind_eq_ok h
      obtain ⟨⟨answer, indexed, records, s₁⟩, hwork, h⟩ := exists_of_bind_eq_ok h
      cases h
      have hcall : s.context? ref = .ok (Call.resolveLogUnit c unit).context := hc
      exact resolveWith_yields hwork hcall (fun _ => rfl) hr
  | format id ref source item =>
      obtain ⟨c, hc, h⟩ := exists_of_bind_eq_ok h
      obtain ⟨⟨answer, indexed, records, s₁⟩, hwork, h⟩ := exists_of_bind_eq_ok h
      cases h
      have hcall : s.context? ref = .ok (Call.format (s.optionsOf source) c item).context := hc
      exact resolveWith_yields hwork hcall (fun _ => rfl) hr
  | write entry item => exact write_yields h hr
  | configure content =>
      simp only [Session.step] at h
      split at h
      · cases h
        exact .kept hr
      · cases h

theorem Yields.called_of_sound (hs : s.Sound world)
    (hcalled : ∀ r, s.HasResolver r → r.Called world) (hr : s.Yields r) : r.Called world := by
  cases hr with
  | kept hr => exact hcalled _ hr
  | fresh => exact Resolver.called_fresh world
  | called hr hc => exact (hcalled _ hr).after (hs.context? hc)

theorem next_called (hs : s.Sound world) (hcalled : ∀ r, s.HasResolver r → r.Called world)
    (x : Step) (hr : (s.next x).HasResolver r) : r.Called world := by
  cases h : s.step x with
  | error cause =>
      rw [Session.next, h] at hr
      exact hcalled r hr
  | ok result =>
      rw [Session.next, h] at hr
      exact (step_yields h hr).called_of_sound hs hcalled

/-- One world is that of the session after a run and that of all the calls that its
resolvers have had. -/
theorem run_called (hs : s.Sound world) (hcalled : ∀ r, s.HasResolver r → r.Called world)
    (steps : List Step) :
    ∃ world', (s.run steps).Sound world' ∧ ∀ r, (s.run steps).HasResolver r → r.Called world' := by
  induction steps generalizing s world with
  | nil => exact ⟨world, hs, hcalled⟩
  | cons x steps ih =>
      obtain ⟨world₁, hle, hs₁⟩ := hs.next x
      exact ih hs₁ fun r hr => (next_called hs hcalled x hr).mono hle

/-- Each resolver of a session is a new one after some calls. -/
theorem exists_calls (steps : List Step) :
    ∃ world, (initial.run steps).Sound world ∧
      ∀ r, (initial.run steps).HasResolver r → r.Called world := by
  refine run_called sound_initial ?_ steps
  rintro r (⟨id, hid⟩ | rfl)
  · cases hid
  · exact Resolver.called_fresh _

end Session

namespace Call

variable {world : World} {calls : List Call}

/-- Over any calls in any contexts, each matter that comes up is recorded once, on the
first occasion and in the call that comes upon it; there are as many records of indices
as indices are kept; and a call that is repeated is answered as before and changes
nothing, so that nothing is recorded.  Looking a unit up comes upon the index of each
namespace that is reached and does not bind the abbreviation to the unit, looking a
logarithmic unit up upon that of each namespace that is reached, and both of them upon
the abbreviation when the answer is not verified.  The resolvers of a session, whatever its
steps have been, are such resolvers: calls in one world have made each of them, its journal
tells what was news in these calls, and the contexts of the session are in that world, so
that further calls in them go on in the same way. -/
theorem records_once (hcalls : ∀ call ∈ calls, call.context.Within world) :
    let occasions := calls.flatMap Call.occasions
    let issued := Occasion.news [] occasions
    let r := afterAll .fresh calls
    r.journal = issued.map Occasion.record ∧
      (issued.map Occasion.matter).Nodup ∧
      (∀ m, m ∈ issued.map Occasion.matter ↔ m ∈ occasions.map Occasion.matter) ∧
      (r.journal.filter fun d => d.level = "DEBUG").length = r.indexedCount ∧
      (∀ before call rest, calls = before ++ call :: rest →
        (call.work.run (afterAll .fresh before)).1 = call.answer ∧
        (after (afterAll .fresh before) call).journal = (afterAll .fresh before).journal ++
          (Occasion.news ((before.flatMap Call.occasions).map Occasion.matter)
            call.occasions).map Occasion.record ∧
        call.work.run r = (call.answer, r)) ∧
      (∀ c unit o, o ∈ (resolveUnit c unit).occasions ↔
        (∃ scope, o = .indexing scope ∧ c.Reaches (.bare unit) scope ∧
          scope.get? unit.abbreviation ≠ some (.bare unit)) ∨
        o = .fallingBack unit.abbreviation c ∧ (c.scanUnit unit).verified = false) ∧
      (∀ c unit o, o ∈ (resolveLogUnit c unit).occasions ↔
        (∃ scope, o = .indexing scope ∧ c.Reaches (.log unit) scope) ∨
        o = .fallingBack unit.abbreviation c ∧ (c.scanLogUnit unit).verified = false) ∧
      ∀ steps : List Step, ∃ world' : World,
        (∀ ref c, (Session.initial.run steps).context? ref = .ok c → c.Within world') ∧
        ∀ r', (Session.initial.run steps).HasResolver r' →
          ∃ made : List Call, (∀ call ∈ made, call.context.Within world') ∧
            r' = afterAll .fresh made ∧
            r'.journal = (Occasion.news [] (made.flatMap Call.occasions)).map Occasion.record ∧
            (r'.journal.filter fun d => d.level = "DEBUG").length = r'.indexedCount := by
  intro occasions issued r
  refine ⟨journal_afterAll hcalls, Occasion.nodup_map_news _ _, ?_, counts_afterAll hcalls, ?_,
    fun _ _ _ => Context.mem_unitOccasions_iff, fun _ _ _ => Context.mem_logUnitOccasions_iff,
    ?_⟩
  · intro m
    rw [Occasion.mem_map_news_iff]
    exact and_iff_right List.not_mem_nil
  · rintro before call rest rfl
    have hmem : call ∈ before ++ call :: rest := List.mem_append_right _ List.mem_cons_self
    have hbefore : ∀ other ∈ before, other.context.Within world :=
      fun other hother => hcalls other (List.mem_append_left _ hother)
    have hfaithful := faithful_afterAll (Resolver.faithful_fresh world) hbefore
    exact ⟨(work_gives (hcalls call hmem) _ hfaithful).1,
      journal_after hbefore (hcalls call hmem), run_of_mem hcalls hmem⟩
  · intro steps
    obtain ⟨world', hs, hcalled⟩ := Session.exists_calls steps
    refine ⟨world', fun ref c hc => hs.context? hc, fun r' hr => ?_⟩
    obtain ⟨made, hmade, rfl⟩ := hcalled r' hr
    exact ⟨made, hmade, rfl, journal_afterAll hmade, counts_afterAll hmade⟩

/-- A unit and a logarithmic unit of one abbreviation, in two contexts of the same
namespaces.  The level in a level is warned about although the outer one has a name. -/
theorem records_once_shared_symbol :
    let barn : BaseUnit := ⟨"Barn", "B"⟩
    let bench : Namespace := ⟨⟨1⟩, "bench", [("m", .bare Builtin.meter)]⟩
    let lab : Namespace := ⟨⟨2⟩, "lab", [("dB", .log Builtin.decibel)]⟩
    let c : Context := ⟨[bench, lab]⟩
    let turned : Context := ⟨[lab, bench]⟩
    let nested : Quantity :=
      ⟨.log .level (.log .gain (.int 3) Builtin.neper) Builtin.decibel, .ofUnit Builtin.meter⟩
    let calls : List Call := [.resolveUnit c Builtin.meter, .resolveUnit c barn,
      .resolveLogUnit c Builtin.bel, .resolveUnit turned barn,
      .format {} turned (.quantity nested), .resolveUnit c barn]
    ∃ world : World, (∀ call ∈ calls, call.context.Within world) ∧
      (afterAll .fresh calls).journal =
        [.indexed "bench" 1, .indexed "lab" 1, .unresolved ⟨"B", ["bench", "lab"]⟩,
          .unresolved ⟨"B", ["lab", "bench"]⟩, .unresolved ⟨"Np", ["lab", "bench"]⟩] ∧
      (afterAll .fresh calls).indexedCount = 2 := by
  intro barn bench lab c turned nested calls
  have hdistinct : c.Distinct := by
    change c.ids.Nodup
    decide
  have hcalls : ∀ call ∈ calls, call.context.Within (c.world hdistinct) := by
    have hsame : ∀ call ∈ calls, ∀ scope ∈ call.context.scopes, scope ∈ c.scopes := by
      decide +kernel
    exact hsame
  obtain ⟨hjournal, -, -, hcount, -⟩ := records_once hcalls
  refine ⟨_, hcalls, ?_⟩
  rw [← hcount, hjournal]
  decide +kernel

end Call

end UnitText
