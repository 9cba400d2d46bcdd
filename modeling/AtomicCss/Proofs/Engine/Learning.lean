import AtomicCss.Proofs.Engine.Config

/-! # What steps teach

The generators of an engine, and the classes by which tokens name them, change in two ways: a
generator is registered, or a utility is used for some entries (`Sound.learns_step`). So a recipe
stays as it is, a utility's table only gains and replaces entries, and the index never lists a class
of a generator twice. -/

namespace AtomicCss

/-- The table with some entries set in turn. -/
def ValueTable.insertAll (t : ValueTable) (entries : List (String × Value)) : ValueTable :=
  entries.foldl (fun t p => t.insert p.1 p.2) t

/-- The classes that uses for some entries lead to, each at the place that it takes. -/
def Utility.uses (u : Utility) (slot : SlotId) : ValueTable → List (String × Value) → List Emission
  | _, [] => []
  | table, (suffix, value) :: entries =>
    u.emission table slot suffix value :: u.uses slot (table.insert suffix value) entries

theorem Document.used_append (d : Document) (mode : EmitMode) (xs ys : List Emission) :
    (d.used mode xs).used mode ys = d.used mode (xs ++ ys) := by
  cases mode with
  | eager => exact (absorbAll_append xs ys).symm
  | onDemand => rfl

theorem Generator.mem_classes_insertAll {u : Utility} {table : ValueTable} {slot : SlotId}
    {className : String} (entries : List (String × Value))
    (h : className ∈ (utility u table slot).classes.map (·.1)) :
    className ∈ (utility u (table.insertAll entries) slot).classes.map (·.1) := by
  induction entries generalizing table with
  | nil => exact h
  | cons entry entries ih => exact ih (mem_classes_insert.2 (.inl h))

namespace Engine

variable {e e' : Engine} {id : GeneratorId} {u : Utility} {table : ValueTable} {slot : SlotId}
  {g : Generator} {className : String}

/-! ## Uses of a utility -/

/-- Uses of a utility set entries of its table and, in eager mode, emit their classes. -/
theorem Sound.useEntries_eq (h : e.Sound) (hg : e.generators[id]? = some (.utility u table slot))
    (entries : List (String × Value)) : ∃ bindings, e.useEntries id entries = .ok ({ e with
      document := e.document.used e.mode (u.uses slot table entries)
      generators := e.generators.set id (.utility u (table.insertAll entries) slot)
      index := entries.foldl (fun index p => indexClass index (u.classOf p.1) id) e.index },
      bindings) := by
  induction entries generalizing e table with
  | nil =>
    have hset : e.generators.set id (.utility u table slot) = e.generators := by
      obtain ⟨hid, hget⟩ := List.getElem?_eq_some_iff.1 hg
      rw [← hget, List.set_getElem_self]
    have hused : e.document.used e.mode [] = e.document := by
      cases e.mode <;> rfl
    refine ⟨[], ?_⟩
    rw [Engine.useEntries, Utility.uses, ValueTable.insertAll, List.foldl_nil, List.foldl_nil, hset,
      hused]
  | cons entry entries ih =>
    obtain ⟨binding, he₁⟩ := h.useEntry_eq hg entry.1 entry.2
    obtain ⟨bindings, hrest⟩ := ih (h.useEntry hg he₁)
      (List.getElem?_set_self (List.getElem?_eq_some_iff.1 hg).1)
    refine ⟨binding :: bindings, ?_⟩
    rw [useEntries_cons_eq_ok_iff]
    refine ⟨u, table, slot, hg, _, binding, he₁, bindings, ?_, rfl⟩
    rw [hrest, List.set_set, Document.used_append]
    rfl

theorem Sound.admitsAll_uses (h : e.Sound) (hg : e.generators[id]? = some (.utility u table slot))
    (entries : List (String × Value)) : e.document.AdmitsAll (u.uses slot table entries) := by
  induction entries generalizing e table with
  | nil => trivial
  | cons entry entries ih =>
    have hid := (List.getElem?_eq_some_iff.1 hg).1
    have hextended := h.extend hg entry.1 entry.2
    have hmem := List.mem_set hid (.utility u (table.insert entry.1 entry.2) slot)
    have hx := u.emission_mem table slot entry.1 entry.2
    exact ⟨h.document, hextended.admits hmem hx,
      ih (hextended.absorb hmem hx) (List.getElem?_set_self hid)⟩

/-! ## Steps that teach nothing -/

theorem Turns.unchanged (h : e.Turns e') : e'.generators = e.generators ∧ e'.index = e.index := by
  cases h with
  | generate hs =>
    unfold Engine.generate at hs
    split at hs
    · cases hs
    · split at hs
      · obtain ⟨rfl, -⟩ := Prod.mk.inj (Except.ok.inj hs)
        exact ⟨rfl, rfl⟩
      · obtain ⟨d, -, rfl⟩ := withDocument_eq_ok_iff.1 hs
        exact ⟨rfl, rfl⟩
      · obtain ⟨d, -, rfl⟩ := withDocument_eq_ok_iff.1 hs
        exact ⟨rfl, rfl⟩
  | _ => exact ⟨rfl, rfl⟩

/-! ## What a step may teach -/

/-- What a step may do to the generators and to the index. -/
inductive Learns (e e' : Engine) : Prop
  | nothing (hg : e'.generators = e.generators) (hi : e'.index = e.index)
  | register (g : Generator) (hg : e'.generators = e.generators ++ [g])
      (hnew : ∀ u table slot, g = .utility u table slot → table = ∅)
      (hi : e'.index =
        g.classes.foldl (fun index c => indexClass index c.1 e.generators.length) e.index)
  | use (id : GeneratorId) (u : Utility) (table : ValueTable) (slot : SlotId)
      (entries : List (String × Value)) (hid : e.generators[id]? = some (.utility u table slot))
      (hg : e'.generators = e.generators.set id (.utility u (table.insertAll entries) slot))
      (hi : e'.index = entries.foldl (fun index p => indexClass index (u.classOf p.1) id) e.index)

theorem Sound.learns_step (h : e.Sound) (s : ConfigStep) : e.Learns (e.step s) := by
  by_cases ht : s.Teaches
  · cases s with
    | addUtility u =>
      rw [h.step_addUtility]
      split
      · exact .nothing rfl rfl
      · refine .register (.utility u ∅ e.document.slots.length) rfl ?_ rfl
        intro v table slot hv
        exact (Generator.utility.inj hv).2.1.symm
    | useUtility id config =>
      cases hu : e.utility? id with
      | none =>
        rw [step_useUtility_none hu]
        exact .nothing rfl rfl
      | some u =>
        obtain ⟨table, slot, hg⟩ := utility?_eq_some_iff.1 hu
        obtain ⟨bindings, hok⟩ := h.useEntries_eq hg (config.getD u.defaults).entries
        rw [step_useUtility hu hok]
        exact .use id u table slot _ hg rfl rfl
    | addRecipe definition =>
      rw [h.step_addRecipe]
      split
      · exact .nothing rfl rfl
      · split
        · exact .nothing rfl rfl
        · exact .register (.recipe _ e.document.slots.length) rfl (fun _ _ _ hg => by cases hg) rfl
    | _ => cases ht
  · obtain ⟨hg, hi⟩ := (turns_step e ht).unchanged
    exact .nothing hg hi

namespace Learns

theorem length_le (h : e.Learns e') : e.generators.length ≤ e'.generators.length := by
  cases h with
  | nothing hg _ => rw [hg]
  | register g hg _ _ => simp [hg]
  | use id u table slot entries _ hg _ => simp [hg]

/-- A recipe stays as it is. -/
theorem recipe (h : e.Learns e') {r : Recipe} (hr : e.generators[id]? = some (.recipe r slot)) :
    e'.generators[id]? = some (.recipe r slot) := by
  cases h with
  | nothing hg _ => rw [hg, hr]
  | register g hg _ _ =>
    rw [hg, List.getElem?_append_left (List.getElem?_eq_some_iff.1 hr).1, hr]
  | use i u table slot' entries hid hg _ =>
    have hne : i ≠ id := by
      rintro rfl
      cases hid.symm.trans hr
    rw [hg, List.getElem?_set_ne hne, hr]

/-- A utility keeps its definition and its slot, and entries of its table are set. -/
theorem utility (h : e.Learns e') (hu : e.generators[id]? = some (.utility u table slot)) :
    ∃ entries, e'.generators[id]? = some (.utility u (table.insertAll entries) slot) := by
  cases h with
  | nothing hg _ => exact ⟨[], by rw [hg, hu]; rfl⟩
  | register g hg _ _ =>
    refine ⟨[], ?_⟩
    rw [hg, List.getElem?_append_left (List.getElem?_eq_some_iff.1 hu).1, hu]
    rfl
  | use i v table' slot' entries hid hg _ =>
    by_cases hi : i = id
    · subst hi
      obtain ⟨rfl, rfl, rfl⟩ := Generator.utility.inj (Option.some.inj (hid.symm.trans hu))
      exact ⟨entries, by rw [hg, List.getElem?_set_self (List.getElem?_eq_some_iff.1 hu).1]⟩
    · refine ⟨[], ?_⟩
      rw [hg, List.getElem?_set_ne hi, hu]
      rfl

/-- A generator keeps its classes, perhaps with new blocks. -/
theorem mem_classes (h : e.Learns e') (hg : e.generators[id]? = some g)
    (hc : className ∈ g.classes.map (·.1)) :
    ∃ g', e'.generators[id]? = some g' ∧ className ∈ g'.classes.map (·.1) := by
  cases g with
  | utility u table slot =>
    obtain ⟨entries, hg'⟩ := h.utility hg
    exact ⟨_, hg', Generator.mem_classes_insertAll entries hc⟩
  | recipe r slot => exact ⟨_, h.recipe hg, hc⟩

/-- A utility that was not there before has an empty table. -/
theorem table_eq_empty (h : e.Learns e') (hnone : e.generators[id]? = none)
    (hu : e'.generators[id]? = some (.utility u table slot)) : table = ∅ := by
  cases h with
  | nothing hg _ =>
    rw [hg, hnone] at hu
    cases hu
  | register g hg hnew _ =>
    rw [hg, List.getElem?_append_right (List.getElem?_eq_none_iff.1 hnone)] at hu
    exact hnew u table slot (List.mem_singleton.1 (List.mem_of_getElem? hu)).symm
  | use i v table' slot' entries hid hg _ =>
    rw [List.getElem?_eq_none_iff] at hnone
    rw [hg, List.getElem?_eq_none (by simpa using hnone)] at hu
    cases hu

end Learns

/-- Only uses of a utility change its table. -/
theorem Sound.utility_step (h : e.Sound) (hu : e.generators[id]? = some (.utility u table slot))
    {s : ConfigStep} (hs : ∀ config, s ≠ .useUtility id config) :
    (e.step s).generators[id]? = some (.utility u table slot) := by
  have hid := (List.getElem?_eq_some_iff.1 hu).1
  by_cases ht : s.Teaches
  · cases s with
    | addUtility v =>
      rw [h.step_addUtility]
      split
      · exact hu
      · exact (List.getElem?_append_left hid).trans hu
    | useUtility i config =>
      have hne : i ≠ id := by
        rintro rfl
        exact hs config rfl
      cases hv : e.utility? i with
      | none => rwa [step_useUtility_none hv]
      | some v =>
        obtain ⟨table', slot', hg⟩ := utility?_eq_some_iff.1 hv
        obtain ⟨bindings, hok⟩ := h.useEntries_eq hg (config.getD v.defaults).entries
        rw [step_useUtility hv hok]
        exact (List.getElem?_set_ne hne).trans hu
    | addRecipe definition =>
      rw [h.step_addRecipe]
      split
      · exact hu
      · split
        · exact hu
        · exact (List.getElem?_append_left hid).trans hu
    | _ => cases ht
  · rw [(turns_step e ht).unchanged.1, hu]

/-! ## The index lists nothing twice -/

theorem nodup_indexClass {index : List (String × GeneratorId)} (h : index.Nodup)
    (className : String) (id : GeneratorId) : (indexClass index className id).Nodup := by
  unfold indexClass
  split
  · exact h
  · rename_i hnew
    exact h.append (List.nodup_singleton _) (by simpa using hnew)

theorem nodup_foldl_indexClass {α : Type} {index : List (String × GeneratorId)} (h : index.Nodup)
    (name : α → String) (id : GeneratorId) (l : List α) :
    (l.foldl (fun index a => indexClass index (name a) id) index).Nodup := by
  induction l generalizing index with
  | nil => exact h
  | cons a l ih => exact ih (nodup_indexClass h (name a) id)

theorem Learns.nodup_index (h : e.Learns e') (hi : e.index.Nodup) : e'.index.Nodup := by
  cases h with
  | nothing _ heq => rwa [heq]
  | register g _ _ heq =>
    rw [heq]
    exact nodup_foldl_indexClass hi Prod.fst _ _
  | use id u _ _ _ _ _ heq =>
    rw [heq]
    exact nodup_foldl_indexClass hi (fun p : String × Value => u.classOf p.1) _ _

end Engine

end AtomicCss
