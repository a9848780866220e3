import UnitText.Namespace

/-!
Ordered lists of namespaces, searched from the front.
-/

namespace UnitText

/-- The namespaces in which identifiers are looked up; earlier ones win. -/
structure Context where
  scopes : List Namespace
deriving DecidableEq, Repr

namespace Context

/-- The context in which nothing is found. -/
def empty : Context :=
  ⟨[]⟩

instance : Inhabited Context := ⟨empty⟩

/-- The identities of the namespaces in search order. -/
def ids (c : Context) : List NamespaceId :=
  c.scopes.map Namespace.id

/-- The names of the namespaces in search order. -/
def names (c : Context) : List String :=
  c.scopes.map Namespace.name

def size (c : Context) : Nat :=
  c.scopes.length

def isEmpty (c : Context) : Bool :=
  c.scopes.isEmpty

/-- Whether a namespace of that identity is present. -/
def contains (c : Context) (ns : Namespace) : Bool :=
  c.ids.contains ns.id

/-- The context with a namespace at its end, unless it is present already. -/
def add (c : Context) (ns : Namespace) : Context :=
  if c.contains ns then c else ⟨c.scopes ++ [ns]⟩

/-- The context without a namespace; the others keep their order. -/
def remove (c : Context) (ns : Namespace) : Context :=
  ⟨c.scopes.filter fun scope => scope.id != ns.id⟩

/-- Whether removing a namespace takes anything away. -/
def shrinksBy (c : Context) (ns : Namespace) : Bool :=
  (c.remove ns).size != c.size

/-- The context with further namespaces, added in order. -/
def addAll (c : Context) (scopes : List Namespace) : Context :=
  scopes.foldl add c

/-- The context without any of the given namespaces. -/
def removeAll (c : Context) (scopes : List Namespace) : Context :=
  scopes.foldl remove c

/-- The context of the given namespaces; one that repeats is passed over. -/
def ofScopes (scopes : List Namespace) : Context :=
  empty.addAll scopes

/-- No two namespaces of the context are the same. -/
def Distinct (c : Context) : Prop :=
  c.ids.Nodup

theorem distinct_empty : empty.Distinct :=
  List.nodup_nil

theorem Distinct.add {c : Context} (h : c.Distinct) (ns : Namespace) :
    (c.add ns).Distinct := by
  unfold Context.add
  split
  · exact h
  · simp_all [Distinct, ids, contains, List.nodup_append]

theorem Distinct.remove {c : Context} (h : c.Distinct) (ns : Namespace) :
    (c.remove ns).Distinct := by
  refine List.Nodup.sublist ?_ h
  exact List.Sublist.map _ List.filter_sublist

variable {c : Context} {ns other : Namespace}

theorem contains_iff : c.contains ns ↔ ∃ scope ∈ c.scopes, scope.id = ns.id := by
  simp [contains, ids]

theorem add_of_contains (h : c.contains ns) : c.add ns = c :=
  if_pos h

theorem scopes_add (h : ¬c.contains ns) : (c.add ns).scopes = c.scopes ++ [ns] := by
  rw [add, if_neg h]

theorem contains_add_iff : (c.add ns).contains other ↔ c.contains other ∨ other.id = ns.id := by
  by_cases h : c.contains ns
  · rw [add_of_contains h]
    refine (or_iff_left_of_imp fun hid => ?_).symm
    rwa [contains, hid]
  · rw [contains_iff, contains_iff, scopes_add h]
    constructor
    · rintro ⟨scope, hscope, hid⟩
      rcases List.mem_append.mp hscope with hold | hnew
      · exact Or.inl ⟨scope, hold, hid⟩
      · exact Or.inr (hid ▸ List.mem_singleton.mp hnew ▸ rfl)
    · rintro (⟨scope, hscope, hid⟩ | hid)
      · exact ⟨scope, List.mem_append_left _ hscope, hid⟩
      · exact ⟨ns, List.mem_append_right _ List.mem_cons_self, hid.symm⟩

theorem contains_remove_iff :
    (c.remove ns).contains other ↔ c.contains other ∧ other.id ≠ ns.id := by
  simp only [contains_iff, remove, List.mem_filter, bne_iff_ne]
  constructor
  · rintro ⟨scope, ⟨hscope, hne⟩, hid⟩
    exact ⟨⟨scope, hscope, hid⟩, hid ▸ hne⟩
  · rintro ⟨⟨scope, hscope, hid⟩, hne⟩
    exact ⟨scope, ⟨hscope, hid ▸ hne⟩, hid⟩

/-- Something is taken away just if the namespace is present. -/
theorem shrinksBy_eq_contains (c : Context) (ns : Namespace) :
    c.shrinksBy ns = c.contains ns := by
  rw [Bool.eq_iff_iff, shrinksBy, bne_iff_ne, contains_iff, ne_eq, size, size, remove,
    List.length_filter_eq_length_iff]
  simp

end Context

end UnitText
