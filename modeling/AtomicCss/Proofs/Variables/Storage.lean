import AtomicCss.Proofs.Keyed
import AtomicCss.Variables.Basic
import Mathlib.Algebra.BigOperators.Group.Finset.Basic

/-! # Storing variables

Declaring a variable puts it by its name among those of its scope (`inScope_declare`) and counts if
the name is new there (`size_declare`). So what a scope lists after some calls is told by the calls for
that scope (`inScope_ofCalls`): each name where it was declared first, with what was declared last.

The same store may keep the variables of each scope apart, with the position of each name and one
count for all scopes. The positions stay in step with the list, so both stores answer alike
(`IndexedVariables.Represents.declare`). The main result is `ofCalls_consistent`. -/

namespace AtomicCss

namespace Variables

variable {vs : Variables} {scope : ContainerId} {name : String}

/-! ## Declaring -/

theorem put_eq_putBy (v : Variable) (ws : List Variable) :
    put v ws = putBy (fun w => (w.scope, w.name)) v ws := by
  induction ws with
  | nil => rfl
  | cons w ws ih => simp only [put, putBy, Prod.mk.injEq, ih]

theorem filter_put (v : Variable) (ws : List Variable) (scope : ContainerId) :
    (put v ws).filter (·.scope = scope) =
      if v.scope = scope then putBy (·.name) v (ws.filter (·.scope = scope))
      else ws.filter (·.scope = scope) := by
  induction ws with
  | nil => by_cases hv : v.scope = scope <;> simp [put, putBy, hv]
  | cons w ws ih =>
    by_cases hput : w.scope = v.scope ∧ w.name = v.name
    · -- what is replaced stands in the scope of `v`, so it is listed with `v` or not at all
      by_cases hv : v.scope = scope <;> simp [put, putBy, hput, hv]
    · rw [put, if_neg hput, List.filter_cons, List.filter_cons, ih]
      by_cases hw : w.scope = scope
      · by_cases hv : v.scope = scope
        · have hname : w.name ≠ v.name := fun heq => hput ⟨hw.trans hv.symm, heq⟩
          simp [putBy, hw, hv, hname]
        · simp [hw, hv]
      · simp [hw]

/-- **A declaration finds its place in its own scope**, and the other scopes stay as they are. -/
theorem inScope_declare (vs : Variables) (scope : ContainerId) (name : String) (value : Value)
    (s : ContainerId) : (vs.declare scope name value).1.inScope s =
      if scope = s then putBy (·.name) ⟨scope, variableName name, value⟩ (vs.inScope s)
      else vs.inScope s :=
  filter_put _ _ _

theorem mem_map_name_inScope : name ∈ (vs.inScope scope).map (·.name) ↔
    (scope, name) ∈ vs.entries.map fun w => (w.scope, w.name) := by
  simp [inScope, and_assoc]

/-- A declaration counts if it is the first one of its name in its scope. -/
theorem size_declare (vs : Variables) (scope : ContainerId) (name : String) (value : Value) :
    (vs.declare scope name value).1.size =
      if variableName name ∈ (vs.inScope scope).map (·.name) then vs.size else vs.size + 1 := by
  -- the length is that of the keys, which are scopes with names
  have hkeys := congrArg List.length (map_putBy (fun w : Variable => (w.scope, w.name))
    ⟨scope, variableName name, value⟩ vs.entries)
  rw [List.length_map, ← put_eq_putBy] at hkeys
  simp only [mem_map_name_inScope]
  refine hkeys.trans ?_
  split <;> simp [size]

theorem get?_eq_find? (vs : Variables) (scope : ContainerId) (name : String) :
    vs.get? scope name = (vs.inScope scope).find? (·.name = variableName name) := by
  rw [get?, inScope, List.find?_filter]
  congr
  funext v
  simp

/-- Each variable is listed in one scope. -/
theorem size_eq_sum {scopes : Finset ContainerId} (h : ∀ v ∈ vs.entries, v.scope ∈ scopes) :
    vs.size = ∑ scope ∈ scopes, (vs.inScope scope).length := by
  have hcount (scope : ContainerId) :
      (vs.inScope scope).length = (vs.entries.map (·.scope) : Multiset ContainerId).count scope := by
    rw [Multiset.coe_count, List.count, List.countP_map, List.countP_eq_length_filter]
    rfl
  simp only [hcount]
  rw [Multiset.sum_count_eq_card]
  · simp [size]
  · simpa using h

/-! ## Calls in turn -/

/-- A call that declares a variable, with the name as the caller spells it. -/
structure Call where
  scope : ContainerId
  spelling : String
  value : Value
  deriving DecidableEq, Repr

/-- The variable that a call declares. -/
def Call.declared (c : Call) : Variable := ⟨c.scope, variableName c.spelling, c.value⟩

/-- The variables after some calls, one after the other. -/
def ofCalls (calls : List Call) : Variables :=
  calls.foldl (fun vs c => (vs.declare c.scope c.spelling c.value).1) ∅

/-- What some calls declare in a scope, in the order of the calls. -/
def declaredIn (calls : List Call) (scope : ContainerId) : List Variable :=
  (calls.filter (·.scope = scope)).map Call.declared

/-- What the last one of some calls declares that is for this scope and this name. -/
def lastDeclared? (calls : List Call) (scope : ContainerId) (name : String) : Option Variable :=
  ((declaredIn calls scope).filter (·.name = name)).getLast?

variable {calls : List Call} {c : Call}

theorem ofCalls_concat (calls : List Call) (c : Call) :
    ofCalls (calls ++ [c]) = ((ofCalls calls).declare c.scope c.spelling c.value).1 :=
  List.foldl_concat ..

theorem declaredIn_concat (calls : List Call) (c : Call) (scope : ContainerId) :
    declaredIn (calls ++ [c]) scope =
      if c.scope = scope then declaredIn calls scope ++ [c.declared] else declaredIn calls scope := by
  by_cases hc : c.scope = scope <;> simp [declaredIn, hc]

/-- **The calls for a scope decide** on what it lists. -/
theorem inScope_ofCalls (calls : List Call) (scope : ContainerId) :
    (ofCalls calls).inScope scope = putAllBy (·.name) (declaredIn calls scope) [] := by
  induction calls using List.reverseRecOn with
  | nil => rfl
  | append_singleton calls c ih =>
    rw [ofCalls_concat, inScope_declare, ih, declaredIn_concat]
    split
    · rw [putAllBy_concat]
      rfl
    · rfl

theorem map_name_inScope_ofCalls (calls : List Call) (scope : ContainerId) :
    ((ofCalls calls).inScope scope).map (·.name) =
      ((declaredIn calls scope).map (·.name)).eraseDups := by
  rw [inScope_ofCalls, map_putAllBy]

theorem nodup_inScope_ofCalls (calls : List Call) (scope : ContainerId) :
    (((ofCalls calls).inScope scope).map (·.name)).Nodup := by
  rw [map_name_inScope_ofCalls]
  exact nodup_eraseDups _

theorem get?_ofCalls (calls : List Call) (scope : ContainerId) (spelling : String) :
    (ofCalls calls).get? scope spelling = lastDeclared? calls scope (variableName spelling) := by
  rw [get?_eq_find?, inScope_ofCalls, find?_putAllBy]
  rfl

/-- What is declared under some spelling is found under this spelling, among what the scope lists. -/
theorem exists_get?_of_mem (h : c ∈ calls) : ∃ v ∈ (ofCalls calls).inScope c.scope,
    (ofCalls calls).get? c.scope c.spelling = some v := by
  have hdeclared : c.declared ∈ declaredIn calls c.scope :=
    List.mem_map_of_mem (List.mem_filter.2 ⟨h, decide_eq_true rfl⟩)
  have hname : variableName c.spelling ∈ ((ofCalls calls).inScope c.scope).map (·.name) := by
    rw [map_name_inScope_ofCalls, List.mem_eraseDups]
    exact List.mem_map.2 ⟨c.declared, hdeclared, rfl⟩
  obtain ⟨v, hv, hname⟩ := List.mem_map.1 hname
  refine ⟨v, hv, ?_⟩
  rw [get?_eq_find?, ← hname]
  exact find?_of_nodup (nodup_inScope_ofCalls calls c.scope) hv

/-- A variable that is listed is the last that was declared under its name. -/
theorem lastDeclared?_of_mem {v : Variable} (h : v ∈ (ofCalls calls).inScope scope) :
    lastDeclared? calls scope v.name = some v := by
  rw [lastDeclared?, ← find?_putAllBy, ← inScope_ofCalls]
  exact find?_of_nodup (nodup_inScope_ofCalls calls scope) h

theorem declaredIn_filter (calls : List Call) (scope : ContainerId) :
    declaredIn (calls.filter (·.scope = scope)) scope = declaredIn calls scope := by
  simp [declaredIn]

theorem scope_mem_of_mem_entries {v : Variable} (h : v ∈ (ofCalls calls).entries) :
    v.scope ∈ calls.map (·.scope) := by
  have hname : v.name ∈ ((ofCalls calls).inScope v.scope).map (·.name) :=
    List.mem_map_of_mem (List.mem_filter.2 ⟨h, decide_eq_true rfl⟩)
  rw [map_name_inScope_ofCalls, List.mem_eraseDups] at hname
  obtain ⟨w, hw, -⟩ := List.mem_map.1 hname
  obtain ⟨c, hc, -⟩ := List.mem_map.1 hw
  obtain ⟨hmem, hscope⟩ := List.mem_filter.1 hc
  exact List.mem_map.2 ⟨c, hmem, of_decide_eq_true hscope⟩

end Variables

/-! ## Variables by position -/

/-- The variables of one scope in order, and the position of each name among them. -/
structure ScopeIndex where
  listed : List Variable
  positions : Std.HashMap String Nat
  inStep : ∀ name, positions[name]? = (listed.map (·.name)).idxOf? name

namespace ScopeIndex

variable {t : ScopeIndex} {v : Variable} {name : String} {i : Nat}

def empty : ScopeIndex := ⟨[], ∅, by simp⟩

instance : EmptyCollection ScopeIndex := ⟨empty⟩

theorem name_at (h : t.positions[name]? = some i) : (t.listed.map (·.name))[i]? = some name := by
  rw [t.inStep, List.idxOf?, List.findIdx?_eq_some_iff_getElem] at h
  obtain ⟨hi, hname, -⟩ := h
  rw [List.getElem?_eq_getElem hi, eq_of_beq hname]

/-- A position never points behind the list. -/
theorem lt_length (h : t.positions[name]? = some i) : i < t.listed.length := by
  obtain ⟨hi, -⟩ := List.getElem?_eq_some_iff.1 (name_at h)
  rwa [List.length_map] at hi

/-- The names keep their positions where a value is replaced. -/
theorem inStep_set (h : t.positions[v.name]? = some i) (name : String) :
    t.positions[name]? = ((t.listed.set i v).map (·.name)).idxOf? name := by
  obtain ⟨hi, hname⟩ := List.getElem?_eq_some_iff.1 (name_at h)
  -- the new variable has the name that stands there
  rw [List.map_set, ← hname, List.set_getElem_self hi, t.inStep]

/-- A new name has the position behind the others. -/
theorem inStep_concat (h : t.positions[v.name]? = none) (name : String) :
    (t.positions.insert v.name t.listed.length)[name]? =
      ((t.listed ++ [v]).map (·.name)).idxOf? name := by
  rw [Std.HashMap.getElem?_insert, List.map_append, List.idxOf?, List.findIdx?_append,
    ← List.idxOf?, ← t.inStep]
  by_cases hname : v.name = name
  · subst hname
    simp [h]
  · simp [hname]

/-- Sets a variable where its name stands, or at the end; also gives the value that was replaced. -/
def declare (t : ScopeIndex) (v : Variable) : ScopeIndex × Option Value :=
  match h : t.positions[v.name]? with
  | some i =>
    have hi := lt_length h
    (⟨t.listed.set i v, t.positions, inStep_set h⟩, some t.listed[i].value)
  | none =>
    (⟨t.listed ++ [v], t.positions.insert v.name t.listed.length, inStep_concat h⟩, none)

def get? (t : ScopeIndex) (name : String) : Option Variable :=
  match h : t.positions[name]? with
  | some i =>
    have hi := lt_length h
    some t.listed[i]
  | none => none

theorem get?_eq_find? (t : ScopeIndex) (name : String) :
    t.get? name = t.listed.find? (·.name = name) := by
  rw [find?_eq_idxOf?, ← t.inStep, get?]
  split
  · next i h => simp [h, lt_length h]
  · next h => simp [h]

theorem listed_declare (t : ScopeIndex) (v : Variable) :
    (t.declare v).1.listed = putBy (·.name) v t.listed := by
  rw [putBy_eq, ← t.inStep, declare]
  split
  · next i h => simp [h]
  · next h => simp [h]

/-- A value is replaced if the name was there. -/
theorem isSome_replaced (t : ScopeIndex) (v : Variable) :
    (t.declare v).2.isSome ↔ v.name ∈ t.listed.map (·.name) := by
  rw [← List.isSome_idxOf?, ← t.inStep, declare]
  split
  · next i h => simp [h]
  · next h => simp [h]

end ScopeIndex

/-- Variables by scope and position, and one count for all scopes. -/
structure IndexedVariables where
  scopes : Std.HashMap ContainerId ScopeIndex
  count : Nat

namespace IndexedVariables

variable {x : IndexedVariables} {vs : Variables}

def empty : IndexedVariables := ⟨∅, 0⟩

instance : EmptyCollection IndexedVariables := ⟨empty⟩

def scope (x : IndexedVariables) (scope : ContainerId) : ScopeIndex := x.scopes.getD scope ∅

def inScope (x : IndexedVariables) (scope : ContainerId) : List Variable := (x.scope scope).listed

def get? (x : IndexedVariables) (scope : ContainerId) (name : String) : Option Variable :=
  (x.scope scope).get? (variableName name)

/-- Declares a variable; the count grows if nothing is replaced. -/
def declare (x : IndexedVariables) (scope : ContainerId) (name : String) (value : Value) :
    IndexedVariables :=
  let (t, replaced) := (x.scope scope).declare ⟨scope, variableName name, value⟩
  ⟨x.scopes.insert scope t, if replaced.isSome then x.count else x.count + 1⟩

/-- The store holds these variables, scope by scope, and counts them. -/
structure Represents (x : IndexedVariables) (vs : Variables) : Prop where
  inScope : ∀ scope, x.inScope scope = vs.inScope scope
  count : x.count = vs.size

namespace Represents

theorem empty : (∅ : IndexedVariables).Represents ∅ where
  inScope scope := by
    rw [IndexedVariables.inScope, IndexedVariables.scope]
    show (Std.HashMap.getD ∅ scope ∅ : ScopeIndex).listed = []
    rw [Std.HashMap.getD_empty]
    rfl
  count := rfl

theorem get? (h : x.Represents vs) (scope : ContainerId) (name : String) :
    x.get? scope name = vs.get? scope name := by
  rw [IndexedVariables.get?, ScopeIndex.get?_eq_find?, Variables.get?_eq_find?, ← h.inScope]
  rfl

/-- **The positions and the count stay in step** with the list of variables. -/
theorem declare (h : x.Represents vs) (scope : ContainerId) (name : String) (value : Value) :
    (x.declare scope name value).Represents (vs.declare scope name value).1 where
  inScope s := by
    rw [Variables.inScope_declare, ← h.inScope, IndexedVariables.inScope, IndexedVariables.scope,
      IndexedVariables.declare, Std.HashMap.getD_insert]
    by_cases hs : scope = s
    · subst hs
      simp only [beq_self_eq_true, if_true, ScopeIndex.listed_declare]
      rfl
    · simp only [beq_iff_eq, hs, if_false]
      rfl
  count := by
    rw [Variables.size_declare, ← h.inScope, ← h.count, IndexedVariables.declare]
    simp only [ScopeIndex.isSome_replaced]
    rfl

end Represents

/-- The store after some calls, one after the other. -/
def ofCalls (calls : List Variables.Call) : IndexedVariables :=
  calls.foldl (fun x c => x.declare c.scope c.spelling c.value) ∅

theorem represents_ofCalls (calls : List Variables.Call) :
    (ofCalls calls).Represents (Variables.ofCalls calls) := by
  induction calls using List.reverseRecOn with
  | nil => exact .empty
  | append_singleton calls c ih =>
    rw [Variables.ofCalls_concat, ofCalls, List.foldl_concat]
    exact ih.declare c.scope c.spelling c.value

end IndexedVariables

/-! ## What the calls leave -/

namespace Variables

/-- The main result. After any calls, a scope lists each name that was declared in it once, where the
name came first and with what was declared last. A look-up finds this variable under each spelling of
its name, and it does find one for each spelling that was declared. Only the calls for a scope count
for it, and the size is the number of variables that the scopes list. A store that finds the variables
of a scope by position and counts them as they come holds and finds the same. -/
theorem ofCalls_consistent (calls : List Call) :
    (∀ scope, ((ofCalls calls).inScope scope).map (·.name) =
        ((declaredIn calls scope).map (·.name)).eraseDups ∧
      (((ofCalls calls).inScope scope).map (·.name)).Nodup ∧
      ∀ v ∈ (ofCalls calls).inScope scope, lastDeclared? calls scope v.name = some v) ∧
    (∀ scope spelling,
      (ofCalls calls).get? scope spelling = lastDeclared? calls scope (variableName spelling) ∧
      (ofCalls calls).get? scope spelling =
        ((ofCalls calls).inScope scope).find? (·.name = variableName spelling)) ∧
    (∀ c ∈ calls, ∃ v ∈ (ofCalls calls).inScope c.scope,
      (ofCalls calls).get? c.scope c.spelling = some v) ∧
    (∀ scope,
      (ofCalls calls).inScope scope = (ofCalls (calls.filter (·.scope = scope))).inScope scope ∧
      ∀ spelling, (ofCalls calls).get? scope spelling =
        (ofCalls (calls.filter (·.scope = scope))).get? scope spelling) ∧
    (ofCalls calls).size =
      ∑ scope ∈ (calls.map (·.scope)).toFinset, ((ofCalls calls).inScope scope).length ∧
    (IndexedVariables.ofCalls calls).Represents (ofCalls calls) ∧
    ∀ scope spelling, (IndexedVariables.ofCalls calls).get? scope spelling =
      (ofCalls calls).get? scope spelling := by
  have hindexed := IndexedVariables.represents_ofCalls calls
  refine ⟨?listed, fun scope spelling => ⟨get?_ofCalls calls scope spelling, get?_eq_find? ..⟩,
    fun c => exists_get?_of_mem, ?apart, ?total, hindexed, hindexed.get?⟩
  case listed =>
    intro scope
    exact ⟨map_name_inScope_ofCalls calls scope, nodup_inScope_ofCalls calls scope,
      fun v => lastDeclared?_of_mem⟩
  case apart =>
    intro scope
    simp only [inScope_ofCalls, get?_ofCalls, lastDeclared?, declaredIn_filter, implies_true,
      and_self]
  case total =>
    apply size_eq_sum
    intro v hv
    exact List.mem_toFinset.2 (scope_mem_of_mem_entries hv)

/-- A variable that is declared again with another spelling, and one of its name elsewhere. -/
def respelled : List Call :=
  [⟨1, "--gap", .literal "4px"⟩, ⟨1, "radius", .literal "2px"⟩, ⟨2, "gap", .literal "12px"⟩,
    ⟨1, "gap", .literal "8px"⟩]

theorem ofCalls_consistent_respelled : ⟨1, "--gap", .literal "4px"⟩ ∈ respelled ∧
    (ofCalls respelled).get? 1 "--gap" = some ⟨1, "gap", .literal "8px"⟩ ∧
    ⟨1, "gap", .literal "8px"⟩ ∈ (ofCalls respelled).inScope 1 ∧
    ((ofCalls respelled).inScope 1).map (·.name) = ["gap", "radius"] ∧
    (ofCalls respelled).size = 3 := by
  have hmem : ⟨1, "--gap", .literal "4px"⟩ ∈ respelled := by decide
  have hget : (ofCalls respelled).get? 1 "--gap" = some ⟨1, "gap", .literal "8px"⟩ := by
    decide +kernel
  obtain ⟨v, hv, hfound⟩ := (ofCalls_consistent respelled).2.2.1 _ hmem
  obtain rfl : ⟨1, "gap", .literal "8px"⟩ = v := Option.some.inj (hget.symm.trans hfound)
  exact ⟨hmem, hget, hv, by decide +kernel, by decide +kernel⟩

end Variables

end AtomicCss
