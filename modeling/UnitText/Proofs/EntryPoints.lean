import UnitText.Proofs.SessionWorld

/-!
All entry points give the same texts.

A text may be asked for in the default context or in another one, as it is, for
display or for a field, and of a thing itself or of the item it makes.  All of this
goes through one resolver, which remembers whatever has been asked for before, while
the default context and the environment change.  Main statement: the answer at any
moment of a session is the one that a fresh resolver gives for the context and the
options of that moment (`Session.entry_points_agree`).
-/

namespace UnitText

namespace Item

/-- The text that a resolver gives which has done nothing yet. -/
def freshText (o : Options) (c : Context) (x : Item) : String :=
  ((Writable.write o c x).run .fresh).1

/-- What is done with a thing of any kind, done with the thing that an item is made
of and with the item. -/
def ways {β : Type} (act : (α : Type) → [Writable α] → α → β) (x : Item) : List β :=
  match x with
  | .quantity q => [act Quantity q, act Item x]
  | .log q => [act LogQuantity q, act Item x]
  | .range r => [act QuantityRange r, act Item x]
  | .units e => [act UnitExpr e, act Item x]
  | .noUnits => [act Item x]

/-- A thing is written as the item is, by all faithful resolvers. -/
def IsWrittenAs {α : Type} [Writable α] (y : α) (x : Item) : Prop :=
  ∀ {world : World} {c : Context}, c.Within world →
    ∀ o, Gives world (Writable.write o c y) (x.text o c)

variable {x : Item}

theorem isWrittenAs_self (x : Item) : IsWrittenAs x x :=
  fun hc o => x.write_gives hc o

/-- What is shown of all things written as an item holds in each way. -/
theorem forall_mem_ways {β : Type} {act : (α : Type) → [Writable α] → α → β} {P : β → Prop}
    (h : ∀ (α : Type) [Writable α] (y : α), IsWrittenAs y x → P (act α y)) :
    ∀ b ∈ x.ways act, P b := by
  have hself := h Item x x.isWrittenAs_self
  cases x with
  | quantity q =>
      have hown := h Quantity q fun hc o => q.write_gives hc o
      exact List.forall_mem_cons.mpr ⟨hown, List.forall_mem_singleton.mpr hself⟩
  | log q =>
      have hown := h LogQuantity q fun hc o => q.write_gives hc o
      exact List.forall_mem_cons.mpr ⟨hown, List.forall_mem_singleton.mpr hself⟩
  | range r =>
      have hown := h QuantityRange r fun hc o => r.write_gives hc o
      exact List.forall_mem_cons.mpr ⟨hown, List.forall_mem_singleton.mpr hself⟩
  | units e =>
      have hown := h UnitExpr e fun hc o => e.writeAlone_gives hc o
      exact List.forall_mem_cons.mpr ⟨hown, List.forall_mem_singleton.mpr hself⟩
  | noUnits => exact List.forall_mem_singleton.mpr hself

/-- A fresh resolver writes what a scan writes, in every context of a world. -/
theorem freshText_eq_text {world : World} {c : Context} (hc : c.Within world) (o : Options)
    (x : Item) : x.freshText o c = x.text o c :=
  (x.write_gives hc o .fresh (Resolver.faithful_fresh world)).1

/-- The ways to ask for the text of an item without naming a context other than the
default one, or any options. -/
def askings (x : Item) : List (StateM Ambient String) :=
  x.ways (fun _ _ y => Ambient.write y) ++ x.ways (fun _ _ y => Ambient.display y) ++
    x.ways (fun _ _ y => Ambient.serialize y) ++
    x.ways fun _ _ y => do
      let a ← get
      Ambient.writeIn a.defaultContext y

end Item

namespace Session

/-- The context and the options that an entry point asks for at a moment. -/
def asked (s : Session) : EntryPoint → Except StepError (Context × Options)
  | .text | .display | .item | .field => pure (s.ambient.defaultContext, s.ambient.options)
  | .inContext ref => do
    let c ← s.context? ref
    pure (c, s.ambient.options)
  | .withOptions ref source => do
    let c ← s.context? ref
    pure (c, s.optionsOf source)

variable {s : Session} {world : World} {x : Item}

/-- Two ways to go on from the same outcome give the same if they do after a success. -/
theorem map_bind_congr {ε α β γ δ : Type} {outcome : Except ε α} {f : α → Except ε β}
    {g : α → Except ε γ} {p : β → δ} {q : γ → δ}
    (h : ∀ a, outcome = .ok a → (f a).map p = (g a).map q) :
    (outcome >>= f).map p = (outcome >>= g).map q := by
  cases outcome with
  | error cause => rfl
  | ok a => exact h a rfl

namespace Sound

/-- Writing through the shared resolver, with surroundings that agree with the session
in nothing but this resolver. -/
theorem run_writeWith (hs : s.Sound world) {c : Context} (hc : c.Within world) {α : Type}
    [Writable α] {y : α} (hy : Item.IsWrittenAs y x) (o : Options) {a : Ambient}
    (ha : a.resolver = s.ambient.resolver) :
    ((Ambient.writeWith c o y).run a).1 = x.freshText o c := by
  have hfaithful : a.resolver.Faithful world := ha ▸ hs.sharedResolver
  rw [Item.freshText_eq_text hc]
  exact (hy hc o a.resolver hfaithful).1

/-- Writing reads the default context and the environment of its own moment. -/
theorem run_write (hs : s.Sound world) {α : Type} [Writable α] {y : α}
    (hy : Item.IsWrittenAs y x) :
    ((Ambient.write y).run s.ambient).1 =
      x.freshText s.ambient.options s.ambient.defaultContext :=
  hs.run_writeWith hs.defaultContext hy s.ambient.options rfl

theorem run_asking (hs : s.Sound world) :
    ∀ ask ∈ x.askings,
      (ask.run s.ambient).1 = x.freshText s.ambient.options s.ambient.defaultContext := by
  simp only [Item.askings, List.forall_mem_append]
  refine ⟨⟨⟨?_, ?_⟩, ?_⟩, ?_⟩ <;> exact Item.forall_mem_ways fun _ _ _ hy => hs.run_write hy

/-- An entry point answers with the text for what it asks for. -/
theorem map_writeBy (hs : s.Sound world) {α : Type} [Writable α] {y : α}
    (hy : Item.IsWrittenAs y x) (entry : EntryPoint) :
    (s.writeBy entry y x).map Prod.fst =
      (s.asked entry).map fun asked => x.freshText asked.2 asked.1 := by
  cases entry with
  | text | display | field => exact congrArg Except.ok (hs.run_write hy)
  | item => exact congrArg Except.ok (hs.run_write x.isWrittenAs_self)
  | inContext ref =>
      exact map_bind_congr fun c hc => congrArg Except.ok
        (hs.run_writeWith (hs.context? hc) hy s.ambient.options rfl)
  | withOptions ref source =>
      exact map_bind_congr fun c hc => congrArg Except.ok
        (hs.run_writeWith (hs.context? hc) hy (s.optionsOf source) rfl)

/-- The step of writing is taken just if its context is there, and answers with the
text that the entry point gives. -/
theorem map_step_write (hs : s.Sound world) (entry : EntryPoint) (x : Item) :
    (s.step (.write entry x)).map Prod.fst =
      (s.asked entry).map fun asked => .text (x.freshText asked.2 asked.1) := by
  have hreply : ∀ (w : Except StepError (String × Ambient)) (outcome : Except StepError String),
      w.map Prod.fst = outcome →
        (w >>= fun written => pure (Reply.text written.1, { s with ambient := written.2 })).map
          Prod.fst = outcome.map Reply.text := by
    rintro w outcome rfl
    cases w <;> rfl
  have hasked : (s.asked entry).map (fun asked => Reply.text (x.freshText asked.2 asked.1)) =
      ((s.asked entry).map fun asked => x.freshText asked.2 asked.1).map Reply.text := by
    cases s.asked entry <;> rfl
  rw [hasked]
  cases x with
  | quantity q => exact hreply _ _ (hs.map_writeBy (fun hc o => q.write_gives hc o) entry)
  | log q => exact hreply _ _ (hs.map_writeBy (fun hc o => q.write_gives hc o) entry)
  | range r => exact hreply _ _ (hs.map_writeBy (fun hc o => r.write_gives hc o) entry)
  | units e => exact hreply _ _ (hs.map_writeBy (fun hc o => e.writeAlone_gives hc o) entry)
  | noUnits => exact hreply _ _ (hs.map_writeBy (Item.isWrittenAs_self .noUnits) entry)

end Sound

/-- At every moment of every session, and whatever has been asked of the shared
resolver until then, a text is the one that a fresh resolver gives.  Who names neither
a context nor options gets it for the default context and the environment of that
moment; an entry point answers with it for what it asks for; and in a context of an
earlier moment and with given options it is the same, whatever the default context and
the environment have become. -/
theorem entry_points_agree (steps : List Step) (x : Item) :
    (∀ ask ∈ x.askings,
      (ask.run (initial.run steps).ambient).1 =
        x.freshText (.ofFlag (initial.run steps).ambient.flag)
          (initial.run steps).ambient.defaultContext) ∧
      (∀ entry, ((initial.run steps).step (.write entry x)).map Prod.fst =
        ((initial.run steps).asked entry).map fun asked =>
          .text (x.freshText asked.2 asked.1)) ∧
      ∀ ref c, (initial.run steps).context? ref = .ok c →
        ∀ (more : List Step) (o : Options) (a : Ambient),
          a.resolver = (initial.run (steps ++ more)).ambient.resolver →
            ∀ ask ∈ x.ways fun _ _ y => Ambient.writeWith c o y,
              (ask.run a).1 = x.freshText o c := by
  obtain ⟨world, hs⟩ := sound_run steps
  refine ⟨hs.run_asking, fun entry => hs.map_step_write entry x, ?_⟩
  intro ref c hc more o a ha
  obtain ⟨world', hle, hs'⟩ := hs.run more
  rw [run_append] at ha
  have hwithin := (hs.context? hc).mono hle
  exact Item.forall_mem_ways fun _ _ _ hy => hs'.run_writeWith hwithin hy o ha

/-- Two namespaces name one unit.  After texts in three contexts the built-in namespace
and the first of the two are gone from the default context and the flag is on; then they
return and the flag is off. -/
theorem entry_points_agree_after_changes :
    let furlong : BaseUnit := ⟨"Furlong", "fur"⟩
    let farm : Namespace := ⟨⟨1⟩, "farm", [("furlong", .bare furlong)]⟩
    let town : Namespace := ⟨⟨2⟩, "town", [("fu", .bare furlong), ("second", .bare Builtin.second)]⟩
    let x : Item := .quantity ⟨.int 2, ⟨[.ofUnit furlong, ⟨.none, Builtin.second, .minusOne⟩]⟩⟩
    let steps : List Step :=
      [.create "farm" "farm" [("furlong", .bare furlong)],
        .create "town" "town" [("fu", .bare furlong), ("second", .bare Builtin.second)],
        .write .text x, .compose "pair" ["farm", "town"], .write (.inContext (.named "pair")) x,
        .addDefault ["town", "farm"], .write .field x, .removeDefault ["builtin", "town"],
        .setFlag (some "True".toUTF8)]
    let more : List Step := [.addDefault ["builtin", "town"], .setFlag none, .write .item x]
    (initial.run steps).ambient.defaultContext = ⟨[farm]⟩ ∧
      (∀ ask ∈ x.askings,
        (ask.run (initial.run steps).ambient).1 = "2u\"furlong/s\"") ∧
      ((initial.run steps).step (.write (.withOptions (.named "pair") (.given {})) x)).map
        Prod.fst = .ok (.text "2(furlong/second)") ∧
      (initial.run steps).context? (.named "pair") = .ok ⟨[farm, town]⟩ ∧
      ∀ ask ∈ x.ways fun _ _ y => Ambient.writeWith ⟨[farm, town]⟩ ⟨true⟩ y,
        (ask.run (initial.run (steps ++ more)).ambient).1 = "2u\"furlong/second\"" := by
  intro furlong farm town x steps more
  obtain ⟨hasking, hentry, hcontext⟩ := entry_points_agree steps x
  have hc : (initial.run steps).context? (.named "pair") = .ok ⟨[farm, town]⟩ := by
    decide +kernel
  have hdefault : (initial.run steps).ambient.defaultContext = ⟨[farm]⟩ := by
    decide +kernel
  have hdue : x.freshText (.ofFlag (initial.run steps).ambient.flag) ⟨[farm]⟩ =
      "2u\"furlong/s\"" := by
    decide +kernel
  have hpair : x.freshText ⟨true⟩ ⟨[farm, town]⟩ = "2u\"furlong/second\"" := by
    decide +kernel
  rw [hdefault, hdue] at hasking
  refine ⟨hdefault, hasking, ?_, hc, ?_⟩
  · have hasked : (initial.run steps).asked (.withOptions (.named "pair") (.given {})) =
        .ok (⟨[farm, town]⟩, {}) := by
      decide +kernel
    have hgiven : x.freshText {} ⟨[farm, town]⟩ = "2(furlong/second)" := by
      decide +kernel
    rw [hentry, hasked, ← hgiven]
    rfl
  · rw [← hpair]
    exact hcontext _ _ hc more ⟨true⟩ _ rfl

end Session

end UnitText
