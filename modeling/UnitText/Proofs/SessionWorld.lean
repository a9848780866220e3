import UnitText.Proofs.Text
import UnitText.Session

/-!
Every session has its world.

A namespace enters the world of a session when a step shares it, and then its
bindings stay as they are.  The invariant `Session.Sound` says that contexts are
made of namespaces of the world, that all resolvers are faithful to it, and that
what is still being bound is known to none of them.  Each step keeps it
(`Session.Sound.step`), so each run does (`Session.sound_run`), and the answers
of every resolver are those of a scan.
-/

namespace UnitText

/-- One world holds all namespaces of another. -/
instance : LE World :=
  ⟨fun world world' => world.namespaces ⊆ world'.namespaces⟩

namespace World

theorem le_refl (world : World) : world ≤ world :=
  fun _ h => h

theorem le_trans {first second third : World} (h : first ≤ second) (h' : second ≤ third) :
    first ≤ third :=
  fun _ hns => h' (h hns)

/-- The world with one more namespace, whose identity is new to it. -/
def add (world : World) (ns : Namespace) (hnew : ∀ other ∈ world.namespaces, other.id ≠ ns.id) :
    World where
  namespaces := insert ns world.namespaces
  eq_of_id_eq := by
    rintro a (rfl | ha) b (rfl | hb) hid
    · rfl
    · exact absurd hid.symm (hnew b hb)
    · exact absurd hid (hnew a ha)
    · exact world.eq_of_id_eq a ha b hb hid

end World

theorem Context.Within.mono {c : Context} {world world' : World} (hc : c.Within world)
    (hle : world ≤ world') : c.Within world' :=
  fun scope hscope => hle (hc scope hscope)

theorem Context.Within.add {c : Context} {world : World} (hc : c.Within world)
    {ns : Namespace} (hns : ns ∈ world.namespaces) : (c.add ns).Within world := by
  unfold Context.add
  split
  · exact hc
  · intro scope hscope
    rcases List.mem_append.mp hscope with hold | hnew
    · exact hc scope hold
    · exact List.mem_singleton.mp hnew ▸ hns

theorem Context.Within.remove {c : Context} {world : World} (hc : c.Within world)
    (ns : Namespace) : (c.remove ns).Within world :=
  fun scope hscope => hc scope (List.mem_filter.mp hscope).1

theorem Context.Within.addAll {c : Context} {world : World} (hc : c.Within world)
    {scopes : List Namespace} (hscopes : ∀ ns ∈ scopes, ns ∈ world.namespaces) :
    (c.addAll scopes).Within world := by
  induction scopes generalizing c with
  | nil => exact hc
  | cons ns rest ih =>
      rw [List.forall_mem_cons] at hscopes
      exact ih (hc.add hscopes.1) hscopes.2

theorem Context.Within.removeAll {c : Context} {world : World} (hc : c.Within world)
    (scopes : List Namespace) : (c.removeAll scopes).Within world := by
  induction scopes generalizing c with
  | nil => exact hc
  | cons ns rest ih => exact ih (hc.remove ns)

theorem Context.within_empty (world : World) : Context.empty.Within world :=
  fun _ hscope => absurd hscope List.not_mem_nil

theorem Resolver.Faithful.mono {r : Resolver} {world world' : World} (hr : r.Faithful world)
    (hle : world ≤ world') : r.Faithful world' := by
  intro entry hentry
  obtain ⟨ns, hns, heq⟩ := hr entry hentry
  exact ⟨ns, hle hns, heq⟩

theorem Keyed.lookup_put_cases {α β : Type} [DecidableEq α] {key other : α} {value found : β}
    {entries : List (α × β)} (h : (put key value entries).lookup other = some found) :
    other = key ∧ found = value ∨ other ≠ key ∧ entries.lookup other = some found := by
  rw [lookup_put] at h
  split at h
  · next heq => exact Or.inl ⟨heq, (Option.some.inj h).symm⟩
  · next hne => exact Or.inr ⟨hne, h⟩

namespace Session

variable {world : World} {s s' : Session}

/-- The namespaces of a session as its world sees them.  One that is shared belongs
to the world, one that is not has an identity of its own, and identities to
come are new. -/
structure HoldingsSound (namespaces : List (String × Holding)) (nextId : Nat)
    (world : World) : Prop where
  shared : ∀ id h, namespaces.lookup id = some h → h.shared → h.scope ∈ world.namespaces
  unshared : ∀ id h, namespaces.lookup id = some h → h.shared = false →
    ∀ ns ∈ world.namespaces, ns.id ≠ h.scope.id
  separate : ∀ id h id' h', namespaces.lookup id = some h → namespaces.lookup id' = some h' →
    h.shared = false → h.scope.id = h'.scope.id → id = id'
  holding_lt : ∀ id h, namespaces.lookup id = some h → h.scope.id.index < nextId
  world_lt : ∀ ns ∈ world.namespaces, ns.id.index < nextId

/-- What holds of a session in its world. -/
structure Sound (s : Session) (world : World) : Prop where
  holdings : HoldingsSound s.namespaces s.nextId world
  contexts : ∀ id c, s.contexts.lookup id = some c → c.Within world
  defaultContext : s.ambient.defaultContext.Within world
  resolvers : ∀ id r, s.resolvers.lookup id = some r → r.Faithful world
  sharedResolver : s.ambient.resolver.Faithful world

theorem Namespace.id_bindAll (ns : Namespace) (bindings : List (String × Binding)) :
    (ns.bindAll bindings).id = ns.id := by
  induction bindings generalizing ns with
  | nil => rfl
  | cons entry rest ih => exact ih (ns.bind entry.1 entry.2)

namespace HoldingsSound

variable {namespaces : List (String × Holding)} {nextId : Nat}

/-- A world that holds a shared namespace and is otherwise as before. -/
theorem share_into (hs : HoldingsSound namespaces nextId world) {id : String} {h : Holding}
    (hid : namespaces.lookup id = some h) {world' : World} (hle : world ≤ world')
    (hmem : h.scope ∈ world'.namespaces)
    (honly : ∀ ns ∈ world'.namespaces, ns = h.scope ∨ ns ∈ world.namespaces) :
    HoldingsSound (Keyed.put id ⟨h.scope, true⟩ namespaces) nextId world' := by
  refine ⟨?_, ?_, ?_, ?_, ?_⟩
  · intro other k hk hshared
    rcases Keyed.lookup_put_cases hk with ⟨-, rfl⟩ | ⟨-, hold⟩
    · exact hmem
    · exact hle (hs.shared other k hold hshared)
  · intro other k hk hshared ns hns
    rcases Keyed.lookup_put_cases hk with ⟨-, rfl⟩ | ⟨hne, hold⟩
    · cases hshared
    · rcases honly ns hns with rfl | hns
      · exact fun heq => hne (hs.separate other k id h hold hid hshared heq.symm)
      · exact hs.unshared other k hold hshared ns hns
  · intro other k other' k' hk hk' hshared heq
    rcases Keyed.lookup_put_cases hk with ⟨-, rfl⟩ | ⟨-, hold⟩
    · cases hshared
    · rcases Keyed.lookup_put_cases hk' with ⟨rfl, rfl⟩ | ⟨-, hold'⟩
      · exact hs.separate other k other' h hold hid hshared heq
      · exact hs.separate other k other' k' hold hold' hshared heq
  · intro other k hk
    rcases Keyed.lookup_put_cases hk with ⟨-, rfl⟩ | ⟨-, hold⟩
    · exact hs.holding_lt id h hid
    · exact hs.holding_lt other k hold
  · intro ns hns
    rcases honly ns hns with rfl | hns
    · exact hs.holding_lt id h hid
    · exact hs.world_lt ns hns

/-- A namespace joins the world when it is shared for the first time. -/
theorem share (hs : HoldingsSound namespaces nextId world) {id : String} {h : Holding}
    (hid : namespaces.lookup id = some h) :
    ∃ world', world ≤ world' ∧ h.scope ∈ world'.namespaces ∧
      HoldingsSound (Keyed.put id ⟨h.scope, true⟩ namespaces) nextId world' := by
  cases hshared : h.shared with
  | true =>
      have hmem := hs.shared id h hid hshared
      exact ⟨world, world.le_refl, hmem,
        hs.share_into hid world.le_refl hmem fun _ hns => Or.inr hns⟩
  | false =>
      have hnew := hs.unshared id h hid hshared
      have hle : world ≤ world.add h.scope hnew := fun _ hns => Or.inr hns
      exact ⟨_, hle, Or.inl rfl, hs.share_into hid hle (Or.inl rfl) fun _ hns => hns⟩

/-- A namespace that is not shared may be put under any identity that is its
own. -/
theorem put (hs : HoldingsSound namespaces nextId world) {id : String} {ns : Namespace}
    {nextId' : Nat} (hle : nextId ≤ nextId') (hlt : ns.id.index < nextId')
    (hnew : ∀ other ∈ world.namespaces, other.id ≠ ns.id)
    (hown : ∀ other h, namespaces.lookup other = some h → h.scope.id = ns.id → other = id) :
    HoldingsSound (Keyed.put id ⟨ns, false⟩ namespaces) nextId' world := by
  refine ⟨?_, ?_, ?_, ?_, fun other hother => Nat.lt_of_lt_of_le (hs.world_lt other hother) hle⟩
  · intro other k hk hshared
    rcases Keyed.lookup_put_cases hk with ⟨-, rfl⟩ | ⟨-, hold⟩
    · cases hshared
    · exact hs.shared other k hold hshared
  · intro other k hk hshared
    rcases Keyed.lookup_put_cases hk with ⟨-, rfl⟩ | ⟨-, hold⟩
    · exact hnew
    · exact hs.unshared other k hold hshared
  · intro other k other' k' hk hk' hshared heq
    rcases Keyed.lookup_put_cases hk with ⟨rfl, rfl⟩ | ⟨hne, hold⟩
    · rcases Keyed.lookup_put_cases hk' with ⟨rfl, -⟩ | ⟨-, hold'⟩
      · rfl
      · exact (hown other' k' hold' heq.symm).symm
    · rcases Keyed.lookup_put_cases hk' with ⟨rfl, rfl⟩ | ⟨-, hold'⟩
      · exact hown other k hold heq
      · exact hs.separate other k other' k' hold hold' hshared heq
  · intro other k hk
    rcases Keyed.lookup_put_cases hk with ⟨-, rfl⟩ | ⟨-, hold⟩
    · exact hlt
    · exact Nat.lt_of_lt_of_le (hs.holding_lt other k hold) hle

end HoldingsSound

theorem lookup_of_holding? {id : String} {h : Holding} (hh : s.holding? id = .ok h) :
    s.namespaces.lookup id = some h := by
  unfold holding? at hh
  split at hh
  · next hlookup =>
      cases hh
      exact hlookup
  · cases hh

namespace Sound

/-- In a larger world only the namespaces have to be looked at again. -/
theorem mono (hs : s.Sound world) {world' : World} (hle : world ≤ world')
    {namespaces : List (String × Holding)} {nextId : Nat}
    (hnamespaces : HoldingsSound namespaces nextId world') :
    Sound { s with namespaces, nextId } world' where
  holdings := hnamespaces
  contexts id c hc := (hs.contexts id c hc).mono hle
  defaultContext := hs.defaultContext.mono hle
  resolvers id r hr := (hs.resolvers id r hr).mono hle
  sharedResolver := hs.sharedResolver.mono hle

theorem share (hs : s.Sound world) {id : String} {ns : Namespace}
    (h : s.share id = .ok (ns, s')) :
    ∃ world', world ≤ world' ∧ ns ∈ world'.namespaces ∧ s'.Sound world' := by
  obtain ⟨holding, hholding, h⟩ := exists_of_bind_eq_ok h
  cases h
  obtain ⟨world', hle, hmem, hholdings⟩ := hs.holdings.share (lookup_of_holding? hholding)
  exact ⟨world', hle, hmem, hs.mono hle hholdings⟩

theorem shareAll (hs : s.Sound world) {ids : List String} {scopes : List Namespace}
    (h : s.shareAll ids = .ok (scopes, s')) :
    ∃ world', world ≤ world' ∧ (∀ ns ∈ scopes, ns ∈ world'.namespaces) ∧ s'.Sound world' := by
  induction ids generalizing s world scopes with
  | nil =>
      cases h
      exact ⟨world, world.le_refl, fun _ hns => absurd hns List.not_mem_nil, hs⟩
  | cons id ids ih =>
      obtain ⟨⟨ns, s₁⟩, hshare, h⟩ := exists_of_bind_eq_ok h
      obtain ⟨⟨rest, s₂⟩, hrest, h⟩ := exists_of_bind_eq_ok h
      cases h
      obtain ⟨world₁, hle₁, hns, hs₁⟩ := hs.share hshare
      obtain ⟨world₂, hle₂, hmem, hs₂⟩ := ih hs₁ hrest
      refine ⟨world₂, World.le_trans hle₁ hle₂, ?_, hs₂⟩
      rw [List.forall_mem_cons]
      exact ⟨hle₂ hns, hmem⟩

theorem context? (hs : s.Sound world) {ref : ContextRef} {c : Context}
    (h : s.context? ref = .ok c) : c.Within world := by
  cases ref with
  | default =>
      cases h
      exact hs.defaultContext
  | named id =>
      simp only [Session.context?] at h
      split at h
      · next hlookup =>
          cases h
          exact hs.contexts id _ hlookup
      · cases h

theorem setContext (hs : s.Sound world) {c : Context} (hc : c.Within world)
    (ref : ContextRef) : (s.setContext c ref).Sound world := by
  cases ref with
  | default => exact hs
  | named id =>
      refine { hs with contexts := ?_ }
      intro other c' hlookup
      change (Keyed.put id c s.contexts).lookup other = some c' at hlookup
      rcases Keyed.lookup_put_cases hlookup with ⟨-, rfl⟩ | ⟨-, hold⟩
      · exact hc
      · exact hs.contexts other c' hold

theorem setDefault (hs : s.Sound world) {c : Context} (hc : c.Within world) :
    Sound { s with ambient := { s.ambient with defaultContext := c } } world :=
  { hs with defaultContext := hc }

theorem setResolver (hs : s.Sound world) {r : Resolver} (hr : r.Faithful world)
    (id : String) : Sound { s with resolvers := Keyed.put id r s.resolvers } world := by
  refine { hs with resolvers := ?_ }
  intro other r' hlookup
  change (Keyed.put id r s.resolvers).lookup other = some r' at hlookup
  rcases Keyed.lookup_put_cases hlookup with ⟨-, rfl⟩ | ⟨-, hold⟩
  · exact hr
  · exact hs.resolvers other r' hold

theorem resolver? (hs : s.Sound world) {id : String} {r : Resolver}
    (h : s.resolver? id = .ok r) : r.Faithful world := by
  simp only [Session.resolver?] at h
  split at h
  · next hlookup =>
      cases h
      exact hs.resolvers id _ hlookup
  · cases h

/-- A named resolver does its work as any faithful one, and stays faithful. -/
theorem resolveWith (hs : s.Sound world) {α : Type} {id : String} {work : Lookup α}
    {answer answer' : α} (hwork : Gives world work answer) {indexed : Nat}
    {records : List Diagnostic}
    (h : s.resolveWith id work = .ok (answer', indexed, records, s')) :
    answer' = answer ∧ s'.Sound world := by
  obtain ⟨r, hr, h⟩ := exists_of_bind_eq_ok h
  obtain ⟨hanswer, hfaithful⟩ := hwork r (hs.resolver? hr)
  cases h
  exact ⟨hanswer, hs.setResolver hfaithful id⟩

/-- The shared resolver writes as any faithful one, and stays faithful. -/
theorem writeWith (hs : s.Sound world) {α : Type} [Writable α] {x : α} {o : Options}
    {c : Context} {text : String} (hx : Gives world (Writable.write o c x) text) :
    ((Ambient.writeWith c o x).run s.ambient).1 = text ∧
      Sound { s with ambient := ((Ambient.writeWith c o x).run s.ambient).2 } world := by
  obtain ⟨htext, hfaithful⟩ := hx s.ambient.resolver hs.sharedResolver
  exact ⟨htext, { hs with sharedResolver := hfaithful }⟩

theorem writeBy (hs : s.Sound world) {α : Type} [Writable α] {x : α} {item : Item}
    {text : Options → Context → String}
    (hx : ∀ o c, c.Within world → Gives world (Writable.write o c x) (text o c))
    {entry : EntryPoint} {written : String} {ambient : Ambient}
    (h : s.writeBy entry x item = .ok (written, ambient)) :
    Sound { s with ambient } world := by
  have hdefault := hs.defaultContext
  cases entry with
  | text | display | field =>
      cases h
      exact (hs.writeWith (hx s.ambient.options _ hdefault)).2
  | item =>
      cases h
      exact (hs.writeWith (item.write_gives hdefault s.ambient.options)).2
  | inContext ref =>
      obtain ⟨c, hc, h⟩ := exists_of_bind_eq_ok h
      cases h
      exact (hs.writeWith (hx s.ambient.options c (hs.context? hc))).2
  | withOptions ref o =>
      obtain ⟨c, hc, h⟩ := exists_of_bind_eq_ok h
      cases h
      exact (hs.writeWith (hx (s.optionsOf o) c (hs.context? hc))).2

/-- The step of writing an item, whatever its kind. -/
theorem write (hs : s.Sound world) {entry : EntryPoint} {item : Item} {reply : Reply}
    (h : s.step (.write entry item) = .ok (reply, s')) : s'.Sound world := by
  cases item with
  | quantity q =>
      obtain ⟨_, hwrite, h⟩ := exists_of_bind_eq_ok h
      cases h
      exact hs.writeBy (fun o _ hc => q.write_gives hc o) hwrite
  | log q =>
      obtain ⟨_, hwrite, h⟩ := exists_of_bind_eq_ok h
      cases h
      exact hs.writeBy (fun o _ hc => q.write_gives hc o) hwrite
  | range r =>
      obtain ⟨_, hwrite, h⟩ := exists_of_bind_eq_ok h
      cases h
      exact hs.writeBy (fun o _ hc => r.write_gives hc o) hwrite
  | units e =>
      obtain ⟨_, hwrite, h⟩ := exists_of_bind_eq_ok h
      cases h
      exact hs.writeBy (fun o _ hc => e.writeAlone_gives hc o) hwrite
  | noUnits =>
      obtain ⟨_, hwrite, h⟩ := exists_of_bind_eq_ok h
      cases h
      exact hs.writeBy (fun o _ hc => Item.write_gives hc o .noUnits) hwrite

/-- A namespace is created with the next identity, which nothing has yet. -/
theorem create (hs : s.Sound world) {id name : String} {bindings : List (String × Binding)}
    {reply : Reply} (h : s.step (.create id name bindings) = .ok (reply, s')) :
    s'.Sound world := by
  cases h
  have hid := Namespace.id_bindAll (.empty ⟨s.nextId⟩ name) bindings
  have hlt := Nat.lt_succ_self s.nextId
  refine hs.mono world.le_refl (hs.holdings.put hlt.le ?_ ?_ ?_)
  · rw [hid]
    exact hlt
  · intro other hother heq
    have hother := hs.holdings.world_lt other hother
    rw [heq, hid] at hother
    exact Nat.lt_irrefl _ hother
  · intro other holding hlookup heq
    have hother := hs.holdings.holding_lt other holding hlookup
    rw [heq, hid] at hother
    exact absurd hother (Nat.lt_irrefl _)

/-- Binding is refused once a namespace is shared, so the world does not change. -/
theorem bind (hs : s.Sound world) {id identifier : String} {binding : Binding}
    {reply : Reply} (h : s.step (.bind id identifier binding) = .ok (reply, s')) :
    s'.Sound world := by
  obtain ⟨holding, hholding, h⟩ := exists_of_bind_eq_ok h
  have hlookup := lookup_of_holding? hholding
  cases hshared : holding.shared with
  | true =>
      rw [hshared] at h
      cases h
  | false =>
      rw [hshared] at h
      cases h
      refine hs.mono world.le_refl (hs.holdings.put (Nat.le_refl _) ?_ ?_ ?_)
      · exact hs.holdings.holding_lt id holding hlookup
      · exact hs.holdings.unshared id holding hlookup hshared
      · intro other k hk heq
        exact (hs.holdings.separate id holding other k hlookup hk hshared heq.symm).symm

/-- One step leaves a session sound, in a world that has at most grown. -/
theorem step (hs : s.Sound world) {x : Step} {reply : Reply}
    (h : s.step x = .ok (reply, s')) : ∃ world', world ≤ world' ∧ s'.Sound world' := by
  cases x with
  | create id name bindings => exact ⟨world, world.le_refl, hs.create h⟩
  | bind id identifier binding => exact ⟨world, world.le_refl, hs.bind h⟩
  | get id identifier =>
      obtain ⟨holding, hholding, h⟩ := exists_of_bind_eq_ok h
      cases h
      exact ⟨world, world.le_refl, hs⟩
  | compare a b =>
      obtain ⟨⟨nsa, s₁⟩, ha, h⟩ := exists_of_bind_eq_ok h
      obtain ⟨⟨nsb, s₂⟩, hb, h⟩ := exists_of_bind_eq_ok h
      cases h
      obtain ⟨world₁, hle₁, -, hs₁⟩ := hs.share ha
      obtain ⟨world₂, hle₂, -, hs₂⟩ := hs₁.share hb
      exact ⟨world₂, World.le_trans hle₁ hle₂, hs₂⟩
  | compose id scopes =>
      obtain ⟨⟨scopes, s₁⟩, hscopes, h⟩ := exists_of_bind_eq_ok h
      cases h
      obtain ⟨world₁, hle₁, hmem, hs₁⟩ := hs.shareAll hscopes
      have hc : (Context.ofScopes scopes).Within world₁ :=
        (Context.within_empty world₁).addAll hmem
      exact ⟨world₁, hle₁, hs₁.setContext hc (.named id)⟩
  | copy id source =>
      obtain ⟨c, hc, h⟩ := exists_of_bind_eq_ok h
      cases h
      exact ⟨world, world.le_refl, hs.setContext (hs.context? hc) (.named id)⟩
  | add ref id =>
      obtain ⟨c, hc, h⟩ := exists_of_bind_eq_ok h
      obtain ⟨⟨ns, s₁⟩, hns, h⟩ := exists_of_bind_eq_ok h
      cases h
      obtain ⟨world₁, hle₁, hmem, hs₁⟩ := hs.share hns
      have hadd := ((hs.context? hc).mono hle₁).add hmem
      exact ⟨world₁, hle₁, hs₁.setContext hadd ref⟩
  | remove ref id =>
      obtain ⟨c, hc, h⟩ := exists_of_bind_eq_ok h
      obtain ⟨⟨ns, s₁⟩, hns, h⟩ := exists_of_bind_eq_ok h
      cases h
      obtain ⟨world₁, hle₁, -, hs₁⟩ := hs.share hns
      have hremove := ((hs.context? hc).mono hle₁).remove ns
      exact ⟨world₁, hle₁, hs₁.setContext hremove ref⟩
  | contains ref id =>
      obtain ⟨c, hc, h⟩ := exists_of_bind_eq_ok h
      obtain ⟨⟨ns, s₁⟩, hns, h⟩ := exists_of_bind_eq_ok h
      cases h
      obtain ⟨world₁, hle₁, -, hs₁⟩ := hs.share hns
      exact ⟨world₁, hle₁, hs₁⟩
  | addDefault scopes =>
      obtain ⟨⟨scopes, s₁⟩, hscopes, h⟩ := exists_of_bind_eq_ok h
      cases h
      obtain ⟨world₁, hle₁, hmem, hs₁⟩ := hs.shareAll hscopes
      exact ⟨world₁, hle₁, hs₁.setDefault (hs₁.defaultContext.addAll hmem)⟩
  | removeDefault scopes =>
      obtain ⟨⟨scopes, s₁⟩, hscopes, h⟩ := exists_of_bind_eq_ok h
      cases h
      obtain ⟨world₁, hle₁, -, hs₁⟩ := hs.shareAll hscopes
      exact ⟨world₁, hle₁, hs₁.setDefault (hs₁.defaultContext.removeAll scopes)⟩
  | newResolver id =>
      cases h
      exact ⟨world, world.le_refl, hs.setResolver (Resolver.faithful_fresh world) id⟩
  | resolveUnit id ref unit =>
      obtain ⟨c, hc, h⟩ := exists_of_bind_eq_ok h
      obtain ⟨⟨answer, indexed, records, s₁⟩, hwork, h⟩ := exists_of_bind_eq_ok h
      cases h
      exact ⟨world, world.le_refl,
        (hs.resolveWith (Resolver.resolveUnit_gives (hs.context? hc) unit) hwork).2⟩
  | resolveLogUnit id ref unit =>
      obtain ⟨c, hc, h⟩ := exists_of_bind_eq_ok h
      obtain ⟨⟨answer, indexed, records, s₁⟩, hwork, h⟩ := exists_of_bind_eq_ok h
      cases h
      exact ⟨world, world.le_refl,
        (hs.resolveWith (Resolver.resolveLogUnit_gives (hs.context? hc) unit) hwork).2⟩
  | format id ref source item =>
      obtain ⟨c, hc, h⟩ := exists_of_bind_eq_ok h
      obtain ⟨⟨answer, indexed, records, s₁⟩, hwork, h⟩ := exists_of_bind_eq_ok h
      cases h
      exact ⟨world, world.le_refl,
        (hs.resolveWith (item.write_gives (hs.context? hc) _) hwork).2⟩
  | write entry item => exact ⟨world, world.le_refl, hs.write h⟩
  | setFlag value =>
      cases h
      exact ⟨world, world.le_refl, { hs with }⟩
  | configure content =>
      simp only [Session.step] at h
      split at h
      · cases h
        exact ⟨world, world.le_refl, { hs with }⟩
      · cases h

end Sound

/-- The world of a session that has taken no step. -/
def initialWorld : World where
  namespaces := {Builtin.scope}
  eq_of_id_eq := by
    rintro a rfl b rfl -
    rfl

theorem sound_initial : initial.Sound initialWorld where
  holdings := by
    have hlookup : ∀ id h, initial.namespaces.lookup id = some h →
        h = ⟨Builtin.scope, true⟩ := by
      intro id h hlookup
      rcases List.lookup_eq_some_iff.mp hlookup with ⟨before, after, heq, -⟩
      have hmem : (id, h) ∈ initial.namespaces := by simp [heq]
      simp only [initial, List.mem_singleton, Prod.mk.injEq] at hmem
      exact hmem.2
    refine ⟨?_, ?_, ?_, ?_, ?_⟩
    · intro id h hh _
      rw [hlookup id h hh]
      rfl
    · intro id h hh hshared
      rw [hlookup id h hh] at hshared
      cases hshared
    · intro id h id' h' hh _ hshared _
      rw [hlookup id h hh] at hshared
      cases hshared
    · intro id h hh
      rw [hlookup id h hh]
      exact Nat.lt_succ_self _
    · rintro ns rfl
      exact Nat.lt_succ_self _
  contexts id c hc := nomatch hc
  defaultContext := (Context.within_empty _).addAll (List.forall_mem_singleton.mpr rfl)
  resolvers id r hr := nomatch hr
  sharedResolver := Resolver.faithful_fresh _

theorem Sound.next (hs : s.Sound world) (x : Step) :
    ∃ world', world ≤ world' ∧ (s.next x).Sound world' := by
  cases h : s.step x with
  | error cause =>
      refine ⟨world, world.le_refl, ?_⟩
      rw [Session.next, h]
      exact hs
  | ok result =>
      obtain ⟨reply, s'⟩ := result
      obtain ⟨world', hle, hs'⟩ := hs.step h
      refine ⟨world', hle, ?_⟩
      rw [Session.next, h]
      exact hs'

theorem Sound.run (hs : s.Sound world) (steps : List Step) :
    ∃ world', world ≤ world' ∧ (s.run steps).Sound world' := by
  induction steps generalizing s world with
  | nil => exact ⟨world, world.le_refl, hs⟩
  | cons x steps ih =>
      obtain ⟨world₁, hle₁, hs₁⟩ := hs.next x
      obtain ⟨world₂, hle₂, hs₂⟩ := ih hs₁
      exact ⟨world₂, World.le_trans hle₁ hle₂, hs₂⟩

/-- Every session that can be reached is sound in some world. -/
theorem sound_run (steps : List Step) : ∃ world, (initial.run steps).Sound world := by
  obtain ⟨world, -, hs⟩ := sound_initial.run steps
  exact ⟨world, hs⟩

/-- A resolver of a session: one of those with a name, or the shared one. -/
def HasResolver (s : Session) (r : Resolver) : Prop :=
  (∃ id, s.resolver? id = .ok r) ∨ r = s.ambient.resolver

theorem Sound.hasResolver (hs : s.Sound world) {r : Resolver} (hr : s.HasResolver r) :
    r.Faithful world := by
  rcases hr with ⟨id, hid⟩ | rfl
  · exact hs.resolver? hid
  · exact hs.sharedResolver

/-- A context of a session and a resolver at any later time share a world. -/
theorem exists_world {steps : List Step} {ref : ContextRef} {c : Context}
    (hc : (initial.run steps).context? ref = .ok c) (more : List Step) {r : Resolver}
    (hr : (initial.run (steps ++ more)).HasResolver r) :
    ∃ world, c.Within world ∧ r.Faithful world := by
  obtain ⟨world, hs⟩ := sound_run steps
  obtain ⟨world', hle, hs'⟩ := hs.run more
  rw [run_append] at hr
  exact ⟨world', (hs.context? hc).mono hle, hs'.hasResolver hr⟩

/-- After any steps whatever, each resolver of a session finds in each of its
contexts what a scan of the context finds, and so all of them find the same. -/
theorem resolve_eq_scan (steps : List Step) {ref : ContextRef} {c : Context}
    (hc : (initial.run steps).context? ref = .ok c) :
    (∀ r, (initial.run steps).HasResolver r →
        (∀ unit, ((Resolver.resolveUnit c unit).run r).1 = c.scanUnit unit) ∧
          ∀ unit, ((Resolver.resolveLogUnit c unit).run r).1 = c.scanLogUnit unit) ∧
      (∀ id r, (initial.run steps).resolver? id = .ok r →
        (∀ unit, ∃ indexed records s',
          (initial.run steps).step (.resolveUnit id ref unit) =
            .ok (.resolution (c.scanUnit unit) indexed records, s')) ∧
          ∀ unit, ∃ indexed records s',
            (initial.run steps).step (.resolveLogUnit id ref unit) =
              .ok (.resolution (c.scanLogUnit unit) indexed records, s')) ∧
      ∀ r r', (initial.run steps).HasResolver r → (initial.run steps).HasResolver r' →
        (∀ unit, ((Resolver.resolveUnit c unit).run r).1 =
          ((Resolver.resolveUnit c unit).run r').1) ∧
          ∀ unit, ((Resolver.resolveLogUnit c unit).run r).1 =
            ((Resolver.resolveLogUnit c unit).run r').1 := by
  obtain ⟨world, hs⟩ := sound_run steps
  have hwithin := hs.context? hc
  have hscan : ∀ r, (initial.run steps).HasResolver r →
      (∀ unit, ((Resolver.resolveUnit c unit).run r).1 = c.scanUnit unit) ∧
        ∀ unit, ((Resolver.resolveLogUnit c unit).run r).1 = c.scanLogUnit unit := by
    intro r hr
    have hfaithful := hs.hasResolver hr
    exact ⟨fun unit => (Resolver.resolveUnit_gives hwithin unit r hfaithful).1,
      fun unit => (Resolver.resolveLogUnit_gives hwithin unit r hfaithful).1⟩
  refine ⟨hscan, ?_, ?_⟩
  · intro id r hr
    obtain ⟨hunit, hlog⟩ := hscan r (Or.inl ⟨id, hr⟩)
    constructor
    · intro unit
      rw [← hunit unit]
      simp only [Session.step, Session.resolveWith, hc, hr]
      exact ⟨_, _, _, rfl⟩
    · intro unit
      rw [← hlog unit]
      simp only [Session.step, Session.resolveWith, hc, hr]
      exact ⟨_, _, _, rfl⟩
  · intro r r' hr hr'
    exact ⟨fun unit => ((hscan r hr).1 unit).trans ((hscan r' hr').1 unit).symm,
      fun unit => ((hscan r hr).2 unit).trans ((hscan r' hr').2 unit).symm⟩

/-- A resolver that has already searched a namespace in vain, in a context where the
abbreviation is taken in the first namespace and right in the second. -/
theorem resolve_eq_scan_taken_abbreviation :
    let furlong : BaseUnit := ⟨"Furlong", "fur"⟩
    let smoot : BaseUnit := ⟨"Smoot", "smoot"⟩
    let farm : Namespace := ⟨⟨1⟩, "farm",
      [("fur", .unit (.ofUnit smoot)), ("furlong", .unit (.ofUnit furlong))]⟩
    let town : Namespace := ⟨⟨2⟩, "town", [("fur", .unit (.ofUnit furlong))]⟩
    let steps : List Step :=
      [.create "farm" "farm" [("fur", .other), ("furlong", .unit (.ofUnit furlong))],
        .bind "farm" "fur" (.unit (.ofUnit smoot)),
        .create "town" "town" [("fur", .unit (.ofUnit furlong))],
        .compose "both" ["farm", "town"], .newResolver "old",
        .resolveUnit "old" (.named "both") Builtin.meter]
    (initial.run steps).context? (.named "both") = .ok ⟨[farm, town]⟩ ∧
      ∃ r, (initial.run steps).resolver? "old" = .ok r ∧ r.indexedCount = 2 ∧
        ∃ indexed records s',
          (initial.run steps).step (.resolveUnit "old" (.named "both") furlong) =
            .ok (.resolution ⟨"furlong", true⟩ indexed records, s') := by
  intro furlong smoot farm town steps
  have hc : (initial.run steps).context? (.named "both") = .ok ⟨[farm, town]⟩ := by
    decide +kernel
  have hcount : ((initial.run steps).resolver? "old").map Resolver.indexedCount = .ok 2 := by
    decide +kernel
  refine ⟨hc, ?_⟩
  cases hr : (initial.run steps).resolver? "old" with
  | error cause =>
      rw [hr] at hcount
      cases hcount
  | ok r =>
      rw [hr] at hcount
      refine ⟨r, rfl, Except.ok.inj hcount, ?_⟩
      have hscan : Context.scanUnit ⟨[farm, town]⟩ furlong = ⟨"furlong", true⟩ := by
        decide +kernel
      rw [← hscan]
      exact ((resolve_eq_scan steps hc).2.1 "old" r hr).1 furlong

end Session

end UnitText
