import Mathlib.Data.List.Induction
import Mathlib.Data.Nat.Find
import UnitText.Ambient

/-!
What a context has become after any history of changes.

Namespaces are added to a context and removed from it one by one.  Presence is a
matter of the last change that names a namespace, and the place in the search order a
matter of the moment at which it last came in.  `Context.Follows` says both of a
context and a history; each change keeps it (`Context.Follows.snoc`), so it holds
after every history.  Main statement: so it does for the default context, every call
of which also leaves a record (`Ambient.default_context_history`).
-/

namespace UnitText

/-- One change to a context. -/
inductive ContextEdit where
  | add (ns : Namespace)
  | remove (ns : Namespace)
deriving DecidableEq, Repr

namespace ContextEdit

/-- The namespace that is named. -/
def scope : ContextEdit → Namespace
  | .add ns => ns
  | .remove ns => ns

/-- The last of some changes that names a namespace. -/
def lastNaming (edits : List ContextEdit) (ns : Namespace) : Option ContextEdit :=
  edits.reverse.find? fun e => e.scope.id = ns.id

/-- Whether a namespace is left in its place. -/
def spares (ns : Namespace) : ContextEdit → Bool
  | .add _ => true
  | .remove other => ns.id != other.id

/-- Whether no change of a history removes a namespace. -/
def sparedBy (edits : List ContextEdit) (ns : Namespace) : Bool :=
  edits.all (spares ns)

variable (edits : List ContextEdit) (e : ContextEdit) (ns : Namespace)

theorem lastNaming_snoc :
    lastNaming (edits ++ [e]) ns =
      if e.scope.id = ns.id then some e else lastNaming edits ns := by
  rw [lastNaming, List.reverse_concat, List.find?_cons]
  split <;> simp_all [lastNaming]

theorem sparedBy_snoc : sparedBy (edits ++ [e]) ns = (sparedBy edits ns && e.spares ns) := by
  simp [sparedBy]

theorem filter_sparedBy_snoc (scopes : List Namespace) :
    scopes.filter (sparedBy (edits ++ [e])) =
      (scopes.filter (sparedBy edits)).filter fun ns => e.spares ns := by
  rw [List.filter_filter]
  refine List.filter_congr fun ns _ => ?_
  rw [sparedBy_snoc, Bool.and_comm]

end ContextEdit

open ContextEdit

namespace Context

/-- The context after a change. -/
def edit (c : Context) : ContextEdit → Context
  | .add ns => c.add ns
  | .remove ns => c.remove ns

/-- The context after a history of changes. -/
def editAll (c : Context) (edits : List ContextEdit) : Context :=
  edits.foldl edit c

variable {c start : Context} {edits : List ContextEdit} {e : ContextEdit} {ns : Namespace}

theorem editAll_append (more : List ContextEdit) :
    c.editAll (edits ++ more) = (c.editAll edits).editAll more :=
  List.foldl_append

theorem editAll_snoc : c.editAll (edits ++ [e]) = (c.editAll edits).edit e :=
  editAll_append [e]

theorem editAll_add (scopes : List Namespace) : c.editAll (scopes.map .add) = c.addAll scopes :=
  List.foldl_map

theorem editAll_remove (scopes : List Namespace) :
    c.editAll (scopes.map .remove) = c.removeAll scopes :=
  List.foldl_map

/-- Whether a namespace that was absent until the change of a number, counted from
one, is present after it. -/
def arrivesAt (start : Context) (edits : List ContextEdit) (ns : Namespace) (k : Nat) : Bool :=
  !(start.editAll (edits.take (k - 1))).contains ns && (start.editAll (edits.take k)).contains ns

/-- The number of the change at which a namespace last came from absent to present,
or zero if it never did. -/
def presentSince (start : Context) (edits : List ContextEdit) (ns : Namespace) : Nat :=
  Nat.findGreatest (fun k => start.arrivesAt edits ns k) edits.length

theorem presentSince_le : start.presentSince edits ns ≤ edits.length :=
  Nat.findGreatest_le _

/-- A further change does not touch what came before. -/
theorem arrivesAt_snoc {k : Nat} (hk : k ≤ edits.length) :
    start.arrivesAt (edits ++ [e]) ns k = start.arrivesAt edits ns k := by
  rw [arrivesAt, arrivesAt, List.take_append_of_le_length hk,
    List.take_append_of_le_length (Nat.le_trans (Nat.sub_le k 1) hk)]

theorem presentSince_snoc :
    start.presentSince (edits ++ [e]) ns =
      if !(start.editAll edits).contains ns && ((start.editAll edits).edit e).contains ns then
        edits.length + 1
      else start.presentSince edits ns := by
  have hlast : start.arrivesAt (edits ++ [e]) ns (edits.length + 1) =
      (!(start.editAll edits).contains ns && ((start.editAll edits).edit e).contains ns) := by
    rw [arrivesAt, Nat.add_sub_cancel, List.take_left, ← editAll_snoc,
      List.take_of_length_le (by simp)]
  have hearlier : Nat.findGreatest (fun k => start.arrivesAt (edits ++ [e]) ns k) edits.length =
      start.presentSince edits ns := by
    obtain ⟨hle, hspec, hmax⟩ := Nat.findGreatest_eq_iff.mp (rfl : start.presentSince edits ns = _)
    refine Nat.findGreatest_eq_iff.mpr ⟨hle, ?_, ?_⟩
    · intro hne
      rw [arrivesAt_snoc hle]
      exact hspec hne
    · intro k hlt hk
      rw [arrivesAt_snoc hk]
      exact hmax hlt hk
  rw [presentSince, List.length_append, List.length_singleton, Nat.findGreatest_succ, hlast,
    hearlier]

/-- The moment of coming in does not change while a namespace stays, nor while it stays
away. -/
theorem presentSince_snoc_of_contains
    (h : ((start.editAll edits).edit e).contains ns → (start.editAll edits).contains ns) :
    start.presentSince (edits ++ [e]) ns = start.presentSince edits ns := by
  rw [presentSince_snoc, if_neg]
  rw [Bool.and_eq_true, Bool.not_eq_true', not_and]
  exact fun habsent hpresent => Bool.false_ne_true (habsent.symm.trans (h hpresent))

/-- A namespace that was absent comes in by its addition. -/
theorem presentSince_snoc_add (habsent : ¬(start.editAll edits).contains ns) :
    start.presentSince (edits ++ [.add ns]) ns = edits.length + 1 := by
  have hpresent : ((start.editAll edits).add ns).contains ns := contains_add_iff.mpr (Or.inr rfl)
  rw [presentSince_snoc, if_pos]
  rw [Bool.and_eq_true, Bool.not_eq_true']
  exact ⟨Bool.eq_false_iff.mpr habsent, hpresent⟩

/-- Namespaces in the order in which they last came in, each by the change that added
it. -/
structure InOrder (start : Context) (edits : List ContextEdit) (arrived : List Namespace) :
    Prop where
  added : ∀ ns ∈ arrived, 0 < start.presentSince edits ns ∧
    edits[start.presentSince edits ns - 1]? = some (.add ns)
  pairwise : arrived.Pairwise fun a b => start.presentSince edits a < start.presentSince edits b

namespace InOrder

variable {arrived remaining : List Namespace}

/-- The order of those that stay is kept. -/
theorem snoc (h : start.InOrder edits arrived) (hsub : remaining.Sublist arrived)
    (hpresent : ∀ ns ∈ remaining, (start.editAll edits).contains ns) :
    start.InOrder (edits ++ [e]) remaining := by
  have hsince : ∀ ns ∈ remaining,
      start.presentSince (edits ++ [e]) ns = start.presentSince edits ns :=
    fun ns hns => presentSince_snoc_of_contains fun _ => hpresent ns hns
  constructor
  · intro ns hns
    obtain ⟨hpos, hadd⟩ := h.added ns (hsub.subset hns)
    obtain ⟨hlt, -⟩ := List.getElem?_eq_some_iff.mp hadd
    rw [hsince ns hns, List.getElem?_append_left hlt]
    exact ⟨hpos, hadd⟩
  · refine (h.pairwise.sublist hsub).imp_of_mem fun {a b} ha hb hlt => ?_
    rwa [hsince a ha, hsince b hb]

/-- What comes in anew goes to the end. -/
theorem snoc_add (h : start.InOrder edits arrived)
    (hpresent : ∀ ns ∈ arrived, (start.editAll edits).contains ns)
    (habsent : ¬(start.editAll edits).contains ns) :
    start.InOrder (edits ++ [.add ns]) (arrived ++ [ns]) := by
  have hsince : start.presentSince (edits ++ [.add ns]) ns = edits.length + 1 :=
    presentSince_snoc_add habsent
  obtain ⟨hadded, hpairwise⟩ :=
    h.snoc (e := .add ns) (List.Sublist.refl arrived) hpresent
  constructor
  · rw [List.forall_mem_append, List.forall_mem_singleton, hsince]
    exact ⟨hadded, Nat.succ_pos _, List.getElem?_concat_length⟩
  · rw [List.pairwise_append]
    refine ⟨hpairwise, List.pairwise_singleton _ _, fun a ha b hb => ?_⟩
    rw [List.mem_singleton.mp hb, hsince,
      presentSince_snoc_of_contains fun _ => hpresent a ha]
    exact Nat.lt_succ_of_le presentSince_le

end InOrder

/-- The state of a context after a history of changes, told by the history. -/
structure Follows (start : Context) (edits : List ContextEdit) (c : Context) : Prop where
  distinct : c.Distinct
  /-- The last change that names a namespace decides; without a removal, so does the
  start. -/
  contains_iff : ∀ ns, c.contains ns ↔
    (∃ scope, lastNaming edits ns = some (.add scope)) ∨
      start.contains ns ∧ sparedBy edits ns
  /-- What was there at the start and has not been removed has never come in. -/
  presentSince_eq_zero : ∀ ns ∈ start.scopes, sparedBy edits ns →
    start.presentSince edits ns = 0
  /-- Such namespaces come first, and the others follow in the order in which they last
  came in. -/
  order : ∃ arrived, c.scopes = start.scopes.filter (sparedBy edits) ++ arrived ∧
    start.InOrder edits arrived

namespace Follows

theorem nil (hstart : start.Distinct) : start.Follows [] start where
  distinct := hstart
  contains_iff ns := by simp [lastNaming, sparedBy]
  presentSince_eq_zero ns _ _ := rfl
  order := by
    have hfilter : start.scopes.filter (sparedBy []) = start.scopes :=
      List.filter_eq_self.mpr fun _ _ => rfl
    rw [hfilter]
    exact ⟨[], (List.append_nil _).symm, fun _ hns => absurd hns List.not_mem_nil, .nil⟩

theorem contains_snoc (h : start.Follows edits c) :
    (c.edit e).contains ns ↔
      (∃ scope, lastNaming (edits ++ [e]) ns = some (.add scope)) ∨
        start.contains ns ∧ sparedBy (edits ++ [e]) ns := by
  rw [lastNaming_snoc, sparedBy_snoc]
  cases e with
  | add other =>
      rw [edit, contains_add_iff, h.contains_iff]
      by_cases hid : other.id = ns.id
      · simp [scope, hid]
      · simp [scope, spares, hid, Ne.symm hid]
  | remove other =>
      rw [edit, contains_remove_iff, h.contains_iff]
      by_cases hid : other.id = ns.id
      · simp [scope, spares, hid]
      · simp [scope, spares, hid, Ne.symm hid]

/-- What has been there all along is not what is missing. -/
theorem presentSince_snoc_eq_zero (h : start.Follows edits (start.editAll edits))
    (hns : ns ∈ start.scopes) (hspared : sparedBy (edits ++ [e]) ns) :
    start.presentSince (edits ++ [e]) ns = 0 := by
  rw [sparedBy_snoc, Bool.and_eq_true] at hspared
  have hstart : start.contains ns := Context.contains_iff.mpr ⟨ns, hns, rfl⟩
  rw [presentSince_snoc_of_contains fun _ => (h.contains_iff ns).mpr (Or.inr ⟨hstart, hspared.1⟩)]
  exact h.presentSince_eq_zero ns hns hspared.1

theorem order_snoc (h : start.Follows edits (start.editAll edits)) :
    ∃ arrived, ((start.editAll edits).edit e).scopes =
        start.scopes.filter (sparedBy (edits ++ [e])) ++ arrived ∧
      start.InOrder (edits ++ [e]) arrived := by
  obtain ⟨arrived, hscopes, harrived⟩ := h.order
  have hpresent : ∀ ns ∈ arrived, (start.editAll edits).contains ns := by
    intro ns hns
    refine Context.contains_iff.mpr ⟨ns, ?_, rfl⟩
    rw [hscopes]
    exact List.mem_append_right _ hns
  cases e with
  | add ns =>
      have hspared : start.scopes.filter (sparedBy (edits ++ [.add ns])) =
          start.scopes.filter (sparedBy edits) := by
        rw [filter_sparedBy_snoc]
        exact List.filter_eq_self.mpr fun _ _ => rfl
      rw [hspared, edit]
      by_cases hcontains : (start.editAll edits).contains ns
      · rw [add_of_contains hcontains]
        exact ⟨arrived, hscopes, harrived.snoc (List.Sublist.refl _) hpresent⟩
      · rw [scopes_add hcontains, hscopes, List.append_assoc]
        exact ⟨arrived ++ [ns], rfl, harrived.snoc_add hpresent hcontains⟩
  | remove ns =>
      refine ⟨arrived.filter fun scope => scope.id != ns.id, ?_, ?_⟩
      · rw [edit, remove, hscopes, List.filter_append, filter_sparedBy_snoc]
        rfl
      · exact harrived.snoc List.filter_sublist fun other hother =>
          hpresent other (List.mem_filter.mp hother).1

/-- One more change. -/
theorem snoc (h : start.Follows edits (start.editAll edits)) (e : ContextEdit) :
    start.Follows (edits ++ [e]) (start.editAll (edits ++ [e])) := by
  rw [editAll_snoc]
  refine ⟨?_, fun ns => h.contains_snoc, fun ns => h.presentSince_snoc_eq_zero, h.order_snoc⟩
  cases e with
  | add ns => exact h.distinct.add ns
  | remove ns => exact h.distinct.remove ns

end Follows

/-- Every history is followed, from every start. -/
theorem follows_editAll (hstart : start.Distinct) (edits : List ContextEdit) :
    start.Follows edits (start.editAll edits) := by
  induction edits using List.reverseRecOn with
  | nil => exact .nil hstart
  | append_singleton edits e ih => exact ih.snoc e

/-- From a start with one namespace at most, the moments of coming in are all
different. -/
theorem Follows.pairwise (h : start.Follows edits c) (hstart : start.size ≤ 1) :
    c.scopes.Pairwise fun a b => start.presentSince edits a < start.presentSince edits b := by
  obtain ⟨arrived, hscopes, harrived⟩ := h.order
  rw [hscopes, List.pairwise_append]
  refine ⟨?_, harrived.pairwise, fun a ha b hb => ?_⟩
  · have hlength := Nat.le_trans (List.length_filter_le (sparedBy edits) start.scopes) hstart
    match hkept : start.scopes.filter (sparedBy edits), hlength with
    | [], _ => exact .nil
    | [a], _ => exact List.pairwise_singleton _ a
  · obtain ⟨hmem, hspared⟩ := List.mem_filter.mp ha
    rw [h.presentSince_eq_zero a hmem hspared]
    exact (harrived.added b hb).1

end Context

/-- One change to the default context, with as many namespaces as it is given. -/
inductive ContextCall where
  | add (scopes : List Namespace)
  | remove (scopes : List Namespace)
deriving DecidableEq, Repr

/-- The changes that a call makes, in order. -/
def ContextCall.edits : ContextCall → List ContextEdit
  | .add scopes => scopes.map .add
  | .remove scopes => scopes.map .remove

theorem Diagnostic.line_defaultContext (names : List String) :
    (defaultContext names).line =
      "DEBUG default context is now [" ++ ", ".intercalate names ++ "]" := by
  have hline : (defaultContext names).line = "DEBUG" ++ " " ++
      ("default context is now " ++ ("[" ++ ", ".intercalate names ++ "]")) := rfl
  have hhead : "DEBUG default context is now [" =
      "DEBUG" ++ (" " ++ ("default context is now " ++ "[")) := by
    decide +kernel
  rw [hline, hhead]
  simp only [String.append_assoc, -String.reduceAppend]

namespace Ambient

/-- What a call does: its record and the surroundings after it. -/
def call (a : Ambient) : ContextCall → Diagnostic × Ambient
  | .add scopes => a.addContext scopes
  | .remove scopes => a.removeContext scopes

/-- The surroundings after a run of calls. -/
def callAll (a : Ambient) (calls : List ContextCall) : Ambient :=
  calls.foldl (fun a call => (a.call call).2) a

/-- The records of a run of calls, the first one first. -/
def records (a : Ambient) : List ContextCall → List Diagnostic
  | [] => []
  | call :: rest => (a.call call).1 :: (a.call call).2.records rest

variable {a : Ambient} {calls : List ContextCall}

theorem defaultContext_call (call : ContextCall) :
    (a.call call).2.defaultContext = a.defaultContext.editAll call.edits := by
  cases call with
  | add scopes => exact (Context.editAll_add scopes).symm
  | remove scopes => exact (Context.editAll_remove scopes).symm

theorem defaultContext_callAll :
    (a.callAll calls).defaultContext =
      a.defaultContext.editAll (calls.flatMap ContextCall.edits) := by
  induction calls generalizing a with
  | nil => rfl
  | cons call rest ih =>
      rw [List.flatMap_cons, Context.editAll_append, ← defaultContext_call]
      exact ih

/-- The record of a call tells the names of the state after it. -/
theorem line_call (call : ContextCall) :
    (a.call call).1.line = "DEBUG default context is now [" ++
      ", ".intercalate (a.call call).2.defaultContext.names ++ "]" := by
  cases call with
  | add scopes => exact Diagnostic.line_defaultContext _
  | remove scopes => exact Diagnostic.line_defaultContext _

theorem records_line :
    (a.records calls).map Diagnostic.line = (List.range calls.length).map fun i =>
      "DEBUG default context is now [" ++
        ", ".intercalate (a.callAll (calls.take (i + 1))).defaultContext.names ++ "]" := by
  induction calls generalizing a with
  | nil => rfl
  | cons call rest ih =>
      rw [List.length_cons, List.range_succ_eq_map, List.map_cons, List.map_map, records,
        List.map_cons, ih, line_call]
      rfl

/-- The default context after any run of calls is the one that its history tells: the
last change that names a namespace decides whether it is present, and the search goes by
the moments of coming in, from the built-in namespace on if that one has never been
removed.  Each call leaves one record, with the names after all that it changed.  The
same history tells of a context of its own, from any start, and there a removal answers
whether the namespace was present. -/
theorem default_context_history :
    (∀ calls : List ContextCall,
      let edits := calls.flatMap ContextCall.edits
      let c := (initial.callAll calls).defaultContext
      initial.defaultContext.Follows edits c ∧
        (c.scopes.Pairwise fun a b =>
          initial.defaultContext.presentSince edits a <
            initial.defaultContext.presentSince edits b) ∧
        (sparedBy edits Builtin.scope → c.scopes.head? = some Builtin.scope) ∧
        (initial.records calls).map Diagnostic.line = (List.range calls.length).map fun i =>
          "DEBUG default context is now [" ++ ", ".intercalate
            (initial.callAll (calls.take (i + 1))).defaultContext.names ++ "]") ∧
      ∀ start : Context, start.Distinct → ∀ edits : List ContextEdit,
        start.Follows edits (start.editAll edits) ∧
          ∀ ns, (start.editAll edits).shrinksBy ns = (start.editAll edits).contains ns := by
  constructor
  · intro calls edits c
    have hdistinct : initial.defaultContext.Distinct := Context.distinct_empty.add Builtin.scope
    have hfollows : initial.defaultContext.Follows edits c := by
      rw [show c = initial.defaultContext.editAll edits from defaultContext_callAll]
      exact Context.follows_editAll hdistinct edits
    refine ⟨hfollows, hfollows.pairwise (Nat.le_refl 1), fun hspared => ?_, records_line⟩
    obtain ⟨arrived, hscopes, -⟩ := hfollows.order
    have hkept : initial.defaultContext.scopes.filter (sparedBy edits) = [Builtin.scope] :=
      List.filter_eq_self.mpr (List.forall_mem_singleton.mpr hspared)
    rw [hscopes, hkept]
    rfl
  · intro start hstart edits
    exact ⟨Context.follows_editAll hstart edits, fun ns => Context.shrinksBy_eq_contains _ ns⟩

/-- Two namespaces of one name, added twice, removed twice and back again after the
built-in one, which has been away as well; and a context of its own in which the first
of two namespaces is moved behind a third one. -/
theorem default_context_history_coming_back :
    let farm : Namespace := ⟨⟨1⟩, "units", []⟩
    let town : Namespace := ⟨⟨2⟩, "units", []⟩
    let city : Namespace := ⟨⟨3⟩, "city", []⟩
    let calls : List ContextCall :=
      [.add [farm, town, farm], .remove [Builtin.scope, town, town], .add [Builtin.scope, town]]
    let start : Context := ⟨[town, farm]⟩
    let edits : List ContextEdit := [.remove town, .add city, .remove town, .add town]
    (initial.callAll calls).defaultContext = ⟨[farm, Builtin.scope, town]⟩ ∧
      [farm, Builtin.scope, town].map (initial.defaultContext.presentSince
        (calls.flatMap ContextCall.edits)) = [1, 7, 8] ∧
      (initial.records calls).map Diagnostic.line =
        ["DEBUG default context is now [builtin, units, units]",
          "DEBUG default context is now [units]",
          "DEBUG default context is now [units, builtin, units]"] ∧
      start.Distinct ∧ start.editAll edits = ⟨[farm, city, town]⟩ ∧
      start.Follows edits ⟨[farm, city, town]⟩ ∧
      [farm, city, town].map (start.presentSince edits) = [0, 2, 4] := by
  intro farm town city calls start edits
  have hdistinct : start.Distinct := by
    change start.ids.Nodup
    decide
  have hedits : start.editAll edits = ⟨[farm, city, town]⟩ := by
    decide +kernel
  have hcalls : (initial.callAll calls).defaultContext = ⟨[farm, Builtin.scope, town]⟩ := by
    decide +kernel
  obtain ⟨hdefault, hown⟩ := default_context_history
  refine ⟨hcalls, by decide +kernel, ?_, hdistinct, hedits, ?_, by decide +kernel⟩
  · rw [(hdefault calls).2.2.2]
    decide +kernel
  · rw [← hedits]
    exact (hown start hdistinct edits).1

end Ambient

end UnitText
