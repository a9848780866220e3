/-!
Lists of keyed entries that remember the order in which their keys came.

Main statements: an entry that is put is found under its key and nowhere else
(`lookup_put`), and putting an entry never moves a key (`keys_put`).
-/

namespace UnitText.Keyed

variable {α β : Type} [DecidableEq α]

/-- The entries with one of them replaced, or added at the end if its key is
new. -/
def put (key : α) (value : β) : List (α × β) → List (α × β)
  | [] => [(key, value)]
  | entry :: rest =>
    if entry.1 = key then (key, value) :: rest else entry :: put key value rest

/-- The entries with one more at the end, unless its key is taken. -/
def putNew (key : α) (value : β) (entries : List (α × β)) : List (α × β) :=
  if (entries.lookup key).isSome then entries else entries ++ [(key, value)]

theorem lookup_cons (entry : α × β) (rest : List (α × β)) (other : α) :
    (entry :: rest).lookup other =
      if other = entry.1 then some entry.2 else rest.lookup other := by
  obtain ⟨key, value⟩ := entry
  rw [List.lookup_cons]
  by_cases h : other = key
  · simp [h]
  · have hbeq : (other == key) = false := beq_eq_false_iff_ne.mpr h
    rw [hbeq, if_neg h]

theorem lookup_put (key other : α) (value : β) (entries : List (α × β)) :
    (put key value entries).lookup other =
      if other = key then some value else entries.lookup other := by
  induction entries with
  | nil => exact lookup_cons (key, value) [] other
  | cons entry rest ih =>
      unfold put
      by_cases hkey : entry.1 = key
      · rw [if_pos hkey, lookup_cons, lookup_cons, hkey]
        by_cases hother : other = key
        · rw [if_pos hother, if_pos hother]
        · rw [if_neg hother, if_neg hother, if_neg hother]
      · rw [if_neg hkey, lookup_cons, lookup_cons, ih]
        by_cases hother : other = entry.1
        · have hne : other ≠ key := fun h => hkey (hother.symm.trans h)
          rw [if_pos hother, if_pos hother, if_neg hne]
        · rw [if_neg hother, if_neg hother]

theorem keys_put (key : α) (value : β) (entries : List (α × β)) :
    (put key value entries).map Prod.fst =
      if key ∈ entries.map Prod.fst then entries.map Prod.fst
      else entries.map Prod.fst ++ [key] := by
  induction entries with
  | nil => rfl
  | cons entry rest ih =>
      unfold put
      by_cases hkey : entry.1 = key
      · simp [hkey]
      · have hmem : key ∈ (entry :: rest).map Prod.fst ↔ key ∈ rest.map Prod.fst := by
          rw [List.map_cons, List.mem_cons]
          exact or_iff_right (Ne.symm hkey)
        rw [if_neg hkey, List.map_cons, ih]
        by_cases hrest : key ∈ rest.map Prod.fst
        · rw [if_pos hrest, if_pos (hmem.mpr hrest), List.map_cons]
        · rw [if_neg hrest, if_neg (mt hmem.mp hrest), List.map_cons, List.cons_append]

/-- An entry whose key is new goes to the end. -/
theorem put_of_lookup_eq_none {key : α} {entries : List (α × β)}
    (h : entries.lookup key = none) (value : β) :
    put key value entries = entries ++ [(key, value)] := by
  induction entries with
  | nil => rfl
  | cons entry rest ih =>
      rw [lookup_cons] at h
      split at h
      · cases h
      · next hne =>
          unfold put
          rw [if_neg (Ne.symm hne), ih h, List.cons_append]

theorem lookup_putNew (key other : α) (value : β) (entries : List (α × β)) :
    (putNew key value entries).lookup other =
      if other = key then some ((entries.lookup key).getD value)
      else entries.lookup other := by
  unfold putNew
  cases hkey : entries.lookup key with
  | some found =>
      by_cases hother : other = key
      · simp [hother, hkey]
      · simp [hother]
  | none =>
      rw [if_neg (by simp), List.lookup_append, lookup_cons]
      by_cases hother : other = key
      · simp [hother, hkey]
      · simp [hother]

end UnitText.Keyed
