import UnitText.Proofs.Names
import UnitText.Proofs.SessionWorld

/-!
What a session writes for a unit expression, read back.

The texts of a session are those of a scan, so all that is known of these holds
of every resolver that the session can have.  Main statement: the text of a
normal expression reads back as its atoms, those with positive exponents first
(`UnitExpr.written_reads_back`).
-/

namespace UnitText

namespace Session

variable {steps : List Step} {r : Resolver}

/-- At any later time the resolvers of a session answer what a scan of a context that it has
answers. -/
theorem answer_eq {ref : ContextRef} {c : Context}
    (hc : (initial.run steps).context? ref = .ok c) (more : List Step)
    (hr : (initial.run (steps ++ more)).HasResolver r) {α : Type} {work : Lookup α} {answer : α}
    (h : ∀ world, c.Within world → Gives world work answer) : (work.run r).1 = answer := by
  obtain ⟨world, hwithin, hfaithful⟩ := exists_world hc more hr
  exact (h world hwithin r hfaithful).1

theorem write_eq_text {ref : ContextRef} {c : Context}
    (hc : (initial.run steps).context? ref = .ok c) (more : List Step)
    (hr : (initial.run (steps ++ more)).HasResolver r) (o : Options) (x : Item) :
    ((Writable.write o c x).run r).1 = x.text o c :=
  answer_eq hc more hr fun _ hwithin => x.write_gives hwithin o

theorem write_units_later {ref : ContextRef} {c : Context}
    (hc : (initial.run steps).context? ref = .ok c) (more : List Step)
    (hr : (initial.run (steps ++ more)).HasResolver r) (e : UnitExpr) :
    ((e.write c).run r).1 = e.text c :=
  answer_eq hc more hr fun _ hwithin => e.write_gives hwithin

/-- The names of a context are those that the resolvers of a session find. -/
theorem unitName_later {ref : ContextRef} {c : Context}
    (hc : (initial.run steps).context? ref = .ok c) (more : List Step)
    (hr : (initial.run (steps ++ more)).HasResolver r) (scale : Prefix) (unit : BaseUnit) :
    c.unitName scale unit =
      scale.symbol ++ ((Resolver.resolveUnit c unit).run r).1.identifier := by
  rw [answer_eq hc more hr fun _ hwithin => Resolver.resolveUnit_gives hwithin unit]
  rfl

theorem unitName_eq {ref : ContextRef} {c : Context}
    (hc : (initial.run steps).context? ref = .ok c) (hr : (initial.run steps).HasResolver r)
    (scale : Prefix) (unit : BaseUnit) :
    c.unitName scale unit = scale.symbol ++ ((Resolver.resolveUnit c unit).run r).1.identifier :=
  unitName_later hc [] ((List.append_nil steps).symm ▸ hr) scale unit

theorem logIdentifier_eq {ref : ContextRef} {c : Context}
    (hc : (initial.run steps).context? ref = .ok c) (hr : (initial.run steps).HasResolver r)
    (unit : LogUnit) :
    c.logIdentifier unit = ((Resolver.resolveLogUnit c unit).run r).1.identifier := by
  have hr : (initial.run (steps ++ [])).HasResolver r := (List.append_nil steps).symm ▸ hr
  rw [answer_eq hc [] hr fun _ hwithin => Resolver.resolveLogUnit_gives hwithin unit]
  rfl

theorem write_units_eq {ref : ContextRef} {c : Context}
    (hc : (initial.run steps).context? ref = .ok c) (hr : (initial.run steps).HasResolver r)
    (e : UnitExpr) : ((e.write c).run r).1 = e.text c :=
  write_units_later hc [] ((List.append_nil steps).symm ▸ hr) e

/-- The resolvers of a session know the built-in namespace. -/
theorem write_builtin_eq (hr : (initial.run steps).HasResolver r) (e : UnitExpr) :
    ((e.write Builtin.context).run r).1 = e.text Builtin.context := by
  obtain ⟨world, hle, hs⟩ := sound_initial.run steps
  have hwithin : Builtin.context.Within initialWorld :=
    (Context.within_empty _).addAll (List.forall_mem_singleton.mpr rfl)
  exact (e.write_gives (hwithin.mono hle) r (hs.hasResolver hr)).1

end Session

namespace UnitExpr

/-- The atoms with positive exponents and then those with negative ones. -/
def positiveFirst (e : UnitExpr) : List Atom :=
  e.atoms.filter (fun a => 0 < a.exponent.toRat) ++
    e.atoms.filter fun a => a.exponent.toRat < 0

/-- In a normal expression an exponent that is not negative is positive. -/
theorem Normal.ordered_eq {e : UnitExpr} (he : e.Normal) : e.ordered = e.positiveFirst := by
  have hpositive : e.atoms.filter (fun a => 0 ≤ a.exponent.toRat) =
      e.atoms.filter fun a => 0 < a.exponent.toRat := by
    apply List.filter_congr
    intro a ha
    have hne : a.exponent.toRat ≠ 0 := fun h => he.2 a ha (Rat.num_eq_zero.mpr h)
    rw [decide_eq_decide]
    exact ⟨fun hle => lt_of_le_of_ne hle hne.symm, le_of_lt⟩
  rw [ordered_eq_sign, positiveFirst, hpositive]

/-- After any steps whatever, the text that a resolver of the session writes for a
normal expression reads back as the names and the exact exponents of its atoms.
The names of prefixed built-in units are all different, so the texts of products
of them are the same just if the atoms are. -/
theorem written_reads_back :
    (∀ steps ref c, (Session.initial.run steps).context? ref = .ok c →
      ∀ r, (Session.initial.run steps).HasResolver r →
        (∀ p u, c.unitName p u =
            p.symbol ++ ((Resolver.resolveUnit c u).run r).1.identifier) ∧
          ∀ e : UnitExpr, e.Normal →
            (∀ a ∈ e.atoms, PlainName (c.unitName a.scale a.unit)) →
              readUnits ((e.write c).run r).1 =
                some (e.positiveFirst.map fun a =>
                  (c.unitName a.scale a.unit, a.exponent.toRat))) ∧
      (∀ u ∈ Builtin.units, ∀ p, PlainName (Builtin.context.unitName p u)) ∧
      (∀ u ∈ Builtin.units, ∀ v ∈ Builtin.units, ∀ p q,
        Builtin.context.unitName p u = Builtin.context.unitName q v → p = q ∧ u = v) ∧
      ∀ steps steps' r r', (Session.initial.run steps).HasResolver r →
        (Session.initial.run steps').HasResolver r' →
          ∀ e e' : UnitExpr, e.Normal → e'.Normal →
            e.Over { u | u ∈ Builtin.units } → e'.Over { u | u ∈ Builtin.units } →
              (((e.write Builtin.context).run r).1 = ((e'.write Builtin.context).run r').1 ↔
                e.positiveFirst = e'.positiveFirst) := by
  refine ⟨?_, ?_, Builtin.tells.unitName_inj, ?_⟩
  · intro steps ref c hc r hr
    refine ⟨Session.unitName_eq hc hr, fun e he hnames => ?_⟩
    rw [Session.write_units_eq hc hr, readUnits_text hnames, he.ordered_eq]
  · intro u hu p
    exact (Builtin.tells.clear_unitName u hu p).1
  · intro steps steps' r r' hr hr' e e' he he' hover hover'
    rw [Session.write_builtin_eq hr, Session.write_builtin_eq hr', ← he.ordered_eq,
      ← he'.ordered_eq]
    exact ⟨ordered_eq_of_text_eq Builtin.tells hover hover',
      text_eq_of_ordered_eq Builtin.context⟩

/-- The least exponent there is, once behind a stroke and once beside a third, and two
orders of the same product. -/
theorem written_reads_back_least_exponent :
    let furlong : BaseUnit := ⟨"Furlong", "furlong"⟩
    let farm : Namespace := ⟨⟨1⟩, "farm", [("fur", .unit (.ofUnit furlong))]⟩
    let c : Context := ⟨[farm, Builtin.scope]⟩
    let kilometer : Atom := ⟨.kilo, Builtin.meter, .one⟩
    let least : Atom := ⟨.none, Builtin.second, .ofInt (-2 ^ 31)⟩
    let third : Atom := ⟨.none, furlong, ⟨-1 / 3, by decide +kernel, by decide +kernel⟩⟩
    let steps : List Step :=
      [.create "farm" "farm" [("fur", .unit (.ofUnit furlong))],
        .compose "all" ["farm", "builtin"],
        .write (.inContext (.named "all")) (.units ⟨[third]⟩)]
    let r := (Session.initial.run steps).ambient.resolver
    (Session.initial.run steps).context? (.named "all") = .ok c ∧ r.indexedCount = 1 ∧
      readUnits ((UnitExpr.write c ⟨[least, kilometer]⟩).run r).1 =
        some [("km", 1), ("s", -2 ^ 31)] ∧
      readUnits ((UnitExpr.write c ⟨[least, third, kilometer]⟩).run r).1 =
        some [("km", 1), ("s", -2 ^ 31), ("fur", -1 / 3)] ∧
      ((UnitExpr.write Builtin.context ⟨[least, kilometer]⟩).run r).1 =
        ((UnitExpr.write Builtin.context ⟨[kilometer, least]⟩).run .fresh).1 := by
  intro furlong farm c kilometer least third steps r
  have hc : (Session.initial.run steps).context? (.named "all") = .ok c := by decide +kernel
  have hr : (Session.initial.run steps).HasResolver r := Or.inr rfl
  have hfresh : (Session.initial.run []).HasResolver .fresh := Or.inr rfl
  obtain ⟨hreads, -, -, htexts⟩ := written_reads_back
  refine ⟨hc, by decide +kernel, ?_, ?_, ?_⟩
  · rw [(hreads steps _ c hc r hr).2 _ (by decide +kernel) (by decide +kernel)]
    decide +kernel
  · rw [(hreads steps _ c hc r hr).2 _ (by decide +kernel) (by decide +kernel)]
    decide +kernel
  · refine (htexts steps [] r _ hr hfresh _ _ ?_ ?_ ?_ ?_).mpr ?_
    · decide +kernel
    · decide +kernel
    · change ∀ a ∈ [least, kilometer], a.unit ∈ Builtin.units
      decide +kernel
    · change ∀ a ∈ [kilometer, least], a.unit ∈ Builtin.units
      decide +kernel
    · decide +kernel

end UnitExpr

end UnitText
