import AtomicCss.Block
import AtomicCss.Proofs.Keyed
import Mathlib.Data.List.Induction
import Mathlib.Data.List.Nodup

/-! # Merging blocks

A block is the list of its properties with a value for each (`ext_get?`). Merging keeps the
properties and puts new ones behind them (`properties_merge_eq`), and the merged values win
(`get?_merge`). So blocks that are merged in turn may be put together first (`merge_assoc`), merging
a block once more changes nothing (`merge_merge`), and a block with the same properties is put in
place of the old one (`merge_of_properties_eq`). Setting pairs in turn is merging their block
(`foldl_set`). What merging overrides is told by the two blocks
alone (`overridden_merge`). The main result is `merge_lastWins`. -/

namespace AtomicCss.Block

variable {property p : String} {value v : Value} {d : Declaration} {ds : List Declaration}
  {a b c : Block}

/-! ## Properties and values -/

/-- The properties of a block in order. -/
def properties (b : Block) : List String := b.declarations.map (·.property)

theorem get?_eq_some_iff : b.get? p = some v ↔ ⟨normalizeProperty p, v⟩ ∈ b.declarations := by
  rw [get?, Option.map_eq_some_iff]
  constructor
  · rintro ⟨d, hd, rfl⟩
    have hp : d.property = normalizeProperty p := by simpa using List.find?_some hd
    rw [← hp]
    exact List.mem_of_find?_eq_some hd
  · intro hmem
    have hfind := find?_of_nodup b.distinct hmem
    exact ⟨⟨normalizeProperty p, v⟩, hfind, rfl⟩

theorem isSome_get? : (b.get? p).isSome ↔ normalizeProperty p ∈ b.properties := by
  rw [get?, Option.isSome_map, List.find?_isSome, properties, List.mem_map]
  simp

theorem get?_eq_none_iff : b.get? p = none ↔ normalizeProperty p ∉ b.properties := by
  rw [← isSome_get?, Option.not_isSome_iff_eq_none]

theorem get?_of_mem (h : d ∈ b.declarations) : b.get? d.property = some d.value := by
  rw [get?_eq_some_iff, b.normalized d.property (List.mem_map_of_mem h)]
  exact h

/-- Blocks with the same properties and values are the same. -/
theorem ext_get? (hp : b.properties = c.properties) (hv : ∀ p, b.get? p = c.get? p) : b = c := by
  apply Block.ext
  apply List.ext_getElem
  · simpa [properties] using congrArg List.length hp
  · intro i hi hi'
    have hprop : b.declarations[i].property = c.declarations[i].property := by
      simpa [properties, hi, hi'] using congrArg (·[i]?) hp
    have hvalue := hv b.declarations[i].property
    rw [get?_of_mem (List.getElem_mem hi), hprop, get?_of_mem (List.getElem_mem hi')] at hvalue
    have hvalue := Option.some.inj hvalue
    cases hb : b.declarations[i]
    cases hc : c.declarations[i]
    rw [hb, hc] at hprop hvalue
    rw [Declaration.mk.injEq]
    exact ⟨hprop, hvalue⟩

/-! ## Setting -/

theorem put_eq_putBy (property : String) (value : Value) (ds : List Declaration) :
    (put property value ds).1 = putBy (·.property) ⟨property, value⟩ ds := by
  induction ds with
  | nil => rfl
  | cons d ds ih =>
    rw [put, putBy, ← ih]
    split <;> rfl

theorem get?_set : (b.set property value).1.get? p =
    if normalizeProperty p = normalizeProperty property then some value else b.get? p := by
  show ((put (normalizeProperty property) value b.declarations).1.find? _).map _ = _
  rw [put_eq_putBy, find?_putBy]
  split
  · rfl
  · rfl

theorem properties_set : (b.set property value).1.properties =
    if normalizeProperty property ∈ b.properties then b.properties
    else b.properties ++ [normalizeProperty property] :=
  map_property_put _ _ _

theorem setAll_cons (b : Block) (d : Declaration) (ds : List Declaration) :
    (b.setAll (d :: ds)).1 = ((b.set d.property d.value).1.setAll ds).1 := by
  simp only [setAll]
  split <;> rfl

theorem setAll_eq_foldl (b : Block) (ds : List Declaration) :
    (b.setAll ds).1 = ds.foldl (fun b d => (b.set d.property d.value).1) b := by
  induction ds generalizing b with
  | nil => rfl
  | cons d ds ih => rw [setAll_cons, ih, List.foldl_cons]

/-- Declarations that do not compete with each other all win. -/
theorem get?_setAll (hn : ∀ d ∈ ds, normalizeProperty d.property = d.property)
    (hd : (ds.map (·.property)).Nodup) : (b.setAll ds).1.get? p =
      ((ds.find? (·.property = normalizeProperty p)).map (·.value)).or (b.get? p) := by
  induction ds generalizing b with
  | nil => rfl
  | cons d ds ih =>
    obtain ⟨hnot, hd⟩ := List.nodup_cons.1 hd
    rw [setAll_cons, ih (fun x hx => hn x (List.mem_cons_of_mem _ hx)) hd, get?_set,
      hn d List.mem_cons_self, List.find?_cons]
    by_cases hp : normalizeProperty p = d.property
    · -- no later declaration has the property
      have hnone : ds.find? (·.property = normalizeProperty p) = none := by
        rw [List.find?_eq_none]
        intro x hx heq
        exact hnot (List.mem_map.2 ⟨x, hx, (of_decide_eq_true heq).trans hp⟩)
      rw [hnone, if_pos hp]
      simp [hp]
    · have hne : d.property ≠ normalizeProperty p := fun heq => hp heq.symm
      rw [if_neg hp]
      simp [hne]

theorem properties_setAll (hn : ∀ d ∈ ds, normalizeProperty d.property = d.property)
    (hd : (ds.map (·.property)).Nodup) : (b.setAll ds).1.properties =
      b.properties ++ (ds.map (·.property)).filter (· ∉ b.properties) := by
  induction ds generalizing b with
  | nil => simp [setAll]
  | cons d ds ih =>
    obtain ⟨hnot, hd⟩ := List.nodup_cons.1 hd
    rw [setAll_cons, ih (fun x hx => hn x (List.mem_cons_of_mem _ hx)) hd, properties_set,
      hn d List.mem_cons_self, List.map_cons, List.filter_cons]
    by_cases hmem : d.property ∈ b.properties
    · simp [hmem]
    · have hrest : (ds.map (·.property)).filter (· ∉ b.properties ++ [d.property]) =
          (ds.map (·.property)).filter (· ∉ b.properties) := by
        apply List.filter_congr
        intro x hx
        have hne : x ≠ d.property := by
          rintro rfl
          exact hnot hx
        simp [hne]
      rw [if_neg hmem, hrest]
      simp [hmem]

/-! ## Merging -/

/-- **The merged values win.** -/
theorem get?_merge : (b.merge c).1.get? p = (c.get? p).or (b.get? p) := by
  refine get?_setAll ?_ c.distinct
  intro d hd
  exact c.normalized d.property (List.mem_map_of_mem hd)

/-- **The properties keep their order**, and new ones stand behind them. -/
theorem properties_merge_eq : (b.merge c).1.properties =
    b.properties ++ c.properties.filter (· ∉ b.properties) := by
  refine properties_setAll ?_ c.distinct
  intro d hd
  exact c.normalized d.property (List.mem_map_of_mem hd)

theorem properties_merge (b c : Block) : b.properties <+: (b.merge c).1.properties := by
  rw [properties_merge_eq]
  exact List.prefix_append _ _

theorem mem_properties_merge : p ∈ (b.merge c).1.properties ↔ p ∈ b.properties ∨ p ∈ c.properties := by
  rw [properties_merge_eq, List.mem_append, List.mem_filter, decide_eq_true_eq]
  tauto

theorem mem_merge (h : d ∈ c.declarations) : d ∈ (b.merge c).1.declarations := by
  have hget : (b.merge c).1.get? d.property = some d.value := by
    rw [get?_merge, get?_of_mem h, Option.some_or]
  rw [get?_eq_some_iff, c.normalized d.property (List.mem_map_of_mem h)] at hget
  exact hget

/-- Merging a block with the same properties puts it in place of the old one. -/
theorem merge_of_properties_eq (h : b.properties = c.properties) : (b.merge c).1 = c := by
  apply ext_get?
  · rw [properties_merge_eq, ← h, List.filter_eq_nil_iff.2 (by simp), List.append_nil]
  · intro p
    rw [get?_merge]
    cases hc : c.get? p with
    | some v => rfl
    | none =>
      rw [get?_eq_none_iff, ← h, ← get?_eq_none_iff] at hc
      rw [hc]
      rfl

theorem merge_self (b : Block) : (b.merge b).1 = b := merge_of_properties_eq rfl

/-- Blocks that are merged in turn may be put together first. -/
theorem merge_assoc (a b c : Block) : ((a.merge b).1.merge c).1 = (a.merge (b.merge c).1).1 := by
  apply ext_get?
  · simp only [properties_merge_eq, List.filter_append, List.filter_filter, List.append_assoc]
    congr 2
    apply List.filter_congr
    intro p _
    by_cases ha : p ∈ a.properties <;> by_cases hb : p ∈ b.properties <;> simp [ha, hb]
  · intro p
    rw [get?_merge, get?_merge, get?_merge, get?_merge, Option.or_assoc]

/-- A block that was merged is merged again without effect. -/
theorem merge_merge (b c : Block) : ((b.merge c).1.merge c).1 = (b.merge c).1 := by
  rw [merge_assoc, merge_self]

theorem empty_merge (b : Block) : ((∅ : Block).merge b).1 = b := by
  apply ext_get?
  · rw [properties_merge_eq]
    exact List.filter_eq_self.2 fun p _ => decide_eq_true List.not_mem_nil
  · intro p
    rw [get?_merge]
    exact Option.or_none

/-! ## Blocks of pairs -/

theorem ofList_concat (pairs : List (String × Value)) (p : String × Value) :
    ofList (pairs ++ [p]) = ((ofList pairs).set p.1 p.2).1 := by
  simp [ofList]

theorem set_eq_merge (b : Block) (property : String) (value : Value) :
    (b.set property value).1 = (b.merge (ofList [(property, value)])).1 := by
  have hset : (ofList [(property, value)]).declarations =
      [⟨normalizeProperty property, value⟩] := rfl
  rw [merge, hset, setAll_cons]
  apply Block.ext
  simp [setAll, set, normalizeProperty_normalizeProperty]

/-- Setting pairs in turn merges the block that results from them. -/
theorem foldl_set (b : Block) (pairs : List (String × Value)) :
    pairs.foldl (fun b p => (b.set p.1 p.2).1) b = (b.merge (ofList pairs)).1 := by
  induction pairs using List.reverseRecOn with
  | nil => rfl
  | append_singleton pairs p ih =>
    rw [List.foldl_append, ih, ofList_concat]
    show ((b.merge (ofList pairs)).1.set p.1 p.2).1 = _
    rw [set_eq_merge, merge_assoc, ← set_eq_merge]

/-- A block is what results from setting its declarations in turn. -/
theorem ofList_declarations (b : Block) :
    ofList (b.declarations.map fun d => (d.property, d.value)) = b := by
  rw [ofList, List.foldl_map, ← setAll_eq_foldl]
  exact empty_merge b

theorem ofList_flatMap {α : Type} (f : α → List (String × Value)) (as : List α) :
    ofList (as.flatMap f) = as.foldl (fun b a => (b.merge (ofList (f a))).1) ∅ := by
  rw [ofList, List.foldl_flatMap]
  simp only [foldl_set]
  rfl

/-! ## Overridden properties -/

theorem outcome_put : (put property value ds).2 =
    match (ds.find? (·.property = property)).map (·.value) with
    | none => .inserted
    | some v => if v = value then .unchanged else .overridden v := by
  induction ds with
  | nil => rfl
  | cons d ds ih =>
    rw [put, List.find?_cons]
    by_cases hd : d.property = property
    · simp [hd]
    · simpa [hd] using ih

theorem outcome_set : (b.set property value).2 =
    match b.get? property with
    | none => .inserted
    | some v => if v = value then .unchanged else .overridden v :=
  outcome_put

/-- Declarations that do not compete with each other override those that the block has at first. -/
theorem overridden_setAll (hn : ∀ d ∈ ds, normalizeProperty d.property = d.property)
    (hd : (ds.map (·.property)).Nodup) : (b.setAll ds).2 =
      (ds.filter fun d => (b.get? d.property).any (· ≠ d.value)).map (·.property) := by
  induction ds generalizing b with
  | nil => rfl
  | cons d ds ih =>
    obtain ⟨hnot, hd⟩ := List.nodup_cons.1 hd
    obtain ⟨hnd, hn⟩ := List.forall_mem_cons.1 hn
    -- for later declarations, the block is as it was
    have hrest : (ds.filter fun x =>
        ((b.set d.property d.value).1.get? x.property).any (· ≠ x.value)) =
          ds.filter fun x => (b.get? x.property).any (· ≠ x.value) := by
      refine List.filter_congr fun x hx => ?_
      have hne : x.property ≠ d.property := fun heq => hnot (List.mem_map.2 ⟨x, hx, heq⟩)
      rw [get?_set, hnd, hn x hx, if_neg hne]
    have houtcome : (b.set d.property d.value).2 = _ := outcome_set
    rw [List.filter_cons, ← hrest, apply_ite (List.map _), List.map_cons,
      ← ih (b := (b.set d.property d.value).1) hn hd]
    simp only [setAll]
    cases hget : b.get? d.property with
    | none =>
      rw [hget] at houtcome
      rw [houtcome]
      rfl
    | some v =>
      rw [hget] at houtcome
      by_cases hv : v = d.value <;> simp [houtcome, hv]

/-- The properties that merging overrides are those of which both blocks have different values. -/
theorem overridden_merge : (b.merge c).2 =
    c.properties.filter fun p => p ∈ b.properties ∧ b.get? p ≠ c.get? p := by
  have hn : ∀ d ∈ c.declarations, normalizeProperty d.property = d.property :=
    fun d hd => c.normalized d.property (List.mem_map_of_mem hd)
  show _ = (c.declarations.map (·.property)).filter _
  rw [merge, overridden_setAll hn c.distinct, List.filter_map]
  refine congrArg _ (List.filter_congr fun d hd => ?_)
  have hmem : d.property ∈ b.properties ↔ (b.get? d.property).isSome := by
    rw [isSome_get?, hn d hd]
  cases hget : b.get? d.property <;> simp [hmem, hget, get?_of_mem hd]

/-- A block that was merged overrides nothing when it is merged again. -/
theorem overridden_merge_merge (b c : Block) : ((b.merge c).1.merge c).2 = [] := by
  rw [overridden_merge, List.filter_eq_nil_iff]
  rintro p hp hoverridden
  obtain ⟨d, hd, rfl⟩ := List.mem_map.1 hp
  have hne := (of_decide_eq_true hoverridden).2
  rw [get?_merge, get?_of_mem hd, Option.some_or] at hne
  exact hne rfl

/-- The main result. A block has each property once and under its normalized name. Merging keeps
the properties of a block in their places and puts new ones behind them; the merged values win, and
the properties whose value was another one are listed. Merging a block again changes nothing, and
blocks that are merged in turn may be put together first. -/
theorem merge_lastWins (a b c : Block) :
    (a.properties.Nodup ∧ ∀ p ∈ a.properties, normalizeProperty p = p) ∧
    (∀ p, (a.merge b).1.get? p = (b.get? p).or (a.get? p)) ∧
    (a.merge b).1.properties = a.properties ++ b.properties.filter (· ∉ a.properties) ∧
    (a.merge b).2 = b.properties.filter (fun p => p ∈ a.properties ∧ a.get? p ≠ b.get? p) ∧
    (a.merge b).1.merge b = ((a.merge b).1, []) ∧
    ((a.merge b).1.merge c).1 = (a.merge (b.merge c).1).1 :=
  ⟨⟨a.distinct, a.normalized⟩, fun _ => get?_merge, properties_merge_eq, overridden_merge,
    Prod.ext (merge_merge a b) (overridden_merge_merge a b), merge_assoc a b c⟩

end AtomicCss.Block
