import AtomicCss.Proofs.Engine.Learning
import AtomicCss.Proofs.Session.Order

/-! # The places of classes

Once a class is known, it keeps its slot, its ordinal and its name, whatever a config does later
(`Sound.retains_run`). What may change is what its entry is set to. -/

namespace AtomicCss

namespace ValueTable

variable {suffix : String} {value : Value} {es : List (String × Value)} {t : ValueTable}

/-- Setting a suffix leaves all other entries where they are. -/
theorem getElem?_put_of_ne {i : Nat} (h : i ≠ (es.findIdx? (·.1 = suffix)).getD es.length) :
    (put suffix value es)[i]? = es[i]? := by
  induction es generalizing i with
  | nil =>
    cases i with
    | zero => exact absurd rfl h
    | succ i => rfl
  | cons e es ih =>
    unfold put
    by_cases he : e.1 = suffix
    · rw [if_pos he]
      cases i with
      | zero => simp [he, List.findIdx?_cons] at h
      | succ i => rfl
    · rw [if_neg he]
      cases i with
      | zero => rfl
      | succ i =>
        apply ih
        rintro rfl
        rw [List.findIdx?_cons, if_neg (by simpa using he)] at h
        cases hf : es.findIdx? (·.1 = suffix) <;> simp [hf] at h

theorem mem_of_mem_put {p : String × Value} (h : p ∈ put suffix value es) :
    p = (suffix, value) ∨ p ∈ es := by
  induction es with
  | nil => simpa [put] using h
  | cons e es ih =>
    unfold put at h
    split at h
    · rcases List.mem_cons.1 h with h | h
      · exact .inl h
      · exact .inr (List.mem_cons_of_mem _ h)
    · rcases List.mem_cons.1 h with rfl | h
      · exact .inr List.mem_cons_self
      · exact (ih h).imp_right (List.mem_cons_of_mem _)

theorem fst_of_getElem?_ordinal {p : String × Value} (h : t.entries[t.ordinal suffix]? = some p) :
    p.1 = suffix := by
  rw [ordinal, position?] at h
  cases hf : t.entries.findIdx? (·.1 = suffix) with
  | none => simp [hf, size] at h
  | some i =>
    obtain ⟨hi, hp, -⟩ := List.findIdx?_eq_some_iff_getElem.1 hf
    rw [hf, Option.getD_some, List.getElem?_eq_getElem hi, Option.some.injEq] at h
    simpa [h] using hp

end ValueTable

namespace Generator

variable {u : Utility} {table : ValueTable} {slot : SlotId} {suffix : String} {value : Value}
  {x : Emission}

theorem mem_emissions_utility : x ∈ (utility u table slot).emissions ↔ x.slot = slot ∧
    ∃ p, table.entries[x.ordinal]? = some p ∧ x.className = u.classOf p.1 ∧
      x.block = u.style p.1 p.2 := by
  rw [mem_emissions]
  show x.slot = slot ∧ (table.entries.map _)[x.ordinal]? = _ ↔ _
  rw [List.getElem?_map, Option.map_eq_some_iff]
  simp only [Prod.mk.injEq, eq_comm (b := x.className), eq_comm (b := x.block)]

/-- Setting a suffix puts one class in its place and keeps all others. -/
theorem mem_emissions_insert : x ∈ (utility u (table.insert suffix value) slot).emissions ↔
    x = u.emission table slot suffix value ∨
      (x ∈ (utility u table slot).emissions ∧ x.ordinal ≠ table.ordinal suffix) := by
  have hnew := u.emission_mem table slot suffix value
  by_cases ho : x.ordinal = table.ordinal suffix
  · constructor
    · intro hx
      left
      obtain ⟨hs, hc⟩ := mem_emissions.1 hx
      obtain ⟨hs', hc'⟩ := mem_emissions.1 hnew
      rw [ho] at hc
      obtain ⟨hn, hb⟩ := Prod.mk.inj (Option.some.inj (hc.symm.trans hc'))
      cases x
      simp only at hs hn hb ho
      rw [Utility.emission, hs, ho, hn, hb]
      rfl
    · rintro (rfl | ⟨-, hne⟩)
      · exact hnew
      · exact absurd ho hne
  · have hget : (table.insert suffix value).entries[x.ordinal]? = table.entries[x.ordinal]? :=
      ValueTable.getElem?_put_of_ne ho
    rw [mem_emissions_utility, mem_emissions_utility, hget]
    constructor
    · intro hx
      right
      exact ⟨hx, ho⟩
    · rintro (rfl | ⟨hx, -⟩)
      · exact absurd rfl ho
      · exact hx

end Generator

namespace Engine

variable {e e' e'' : Engine} {g g' : Generator} {x : Emission} {id : Nat}

/-! ## The classes after a use -/

theorem Sound.mem_emissions_iff (h : e.Sound) (hg : g ∈ e.generators) :
    x ∈ g.emissions ↔ x ∈ e.emissions ∧ x.slot = g.slot := by
  constructor
  · intro hx
    exact ⟨⟨g, hg, hx⟩, (Generator.mem_emissions.1 hx).1⟩
  · rintro ⟨⟨g', hg', hx⟩, hs⟩
    rw [h.eq_of_slot_eq hg hg' (hs.symm.trans (Generator.mem_emissions.1 hx).1)]
    exact hx

theorem Sound.mem_emissions_set (h : e.Sound) (hg : e.generators[id]? = some g)
    (he' : e'.generators = e.generators.set id g') :
    x ∈ e'.emissions ↔ x ∈ g'.emissions ∨ (x ∈ e.emissions ∧ x.slot ≠ g.slot) := by
  have hid := (List.getElem?_eq_some_iff.1 hg).1
  constructor
  · rintro ⟨g₁, hg₁, hx⟩
    rw [he'] at hg₁
    obtain ⟨i, hi⟩ := List.mem_iff_getElem?.1 hg₁
    rw [List.getElem?_set] at hi
    split at hi
    · left
      obtain rfl : g' = g₁ := by simpa [hid] using hi
      exact hx
    · rename_i hne
      right
      refine ⟨⟨g₁, List.mem_of_getElem? hi, hx⟩, ?_⟩
      rw [(Generator.mem_emissions.1 hx).1]
      intro hs
      apply hne
      apply (List.getElem?_inj (by simpa using hid) h.slots).1
      rw [List.getElem?_map, List.getElem?_map, hg, hi, Option.map_some, Option.map_some, hs]
  · rintro (hx | ⟨⟨g₁, hg₁, hx⟩, hs⟩)
    · exact ⟨g', by rw [he']; exact List.mem_set hid g', hx⟩
    · refine ⟨g₁, ?_, hx⟩
      obtain ⟨i, hi⟩ := List.mem_iff_getElem?.1 hg₁
      rw [he', List.mem_iff_getElem?]
      refine ⟨i, ?_⟩
      rw [List.getElem?_set, if_neg, hi]
      rintro rfl
      obtain rfl := Option.some.inj (hi.symm.trans hg)
      exact hs (Generator.mem_emissions.1 hx).1

/-- A use puts one class in its place and keeps all others. -/
theorem Sound.mem_emissions_use (h : e.Sound) {u : Utility} {table : ValueTable} {slot : SlotId}
    (hg : e.generators[id]? = some (.utility u table slot)) {suffix : String} {value : Value}
    (he' : e'.generators = e.generators.set id (.utility u (table.insert suffix value) slot)) :
    x ∈ e'.emissions ↔ x = u.emission table slot suffix value ∨
      (x ∈ e.emissions ∧ ¬(x.slot = slot ∧ x.ordinal = table.ordinal suffix)) := by
  rw [h.mem_emissions_set hg he', Generator.mem_emissions_insert,
    h.mem_emissions_iff (List.mem_of_getElem? hg)]
  show (_ ∨ (_ ∧ x.slot = slot) ∧ _) ∨ _ ∧ x.slot ≠ slot ↔ _
  by_cases hs : x.slot = slot <;> simp [hs]

/-- A use whose place is taken replaces the class there. -/
theorem Sound.mem_emissions_use_of_mem (h : e.Sound) {u : Utility} {table : ValueTable}
    {slot : SlotId} (hg : e.generators[id]? = some (.utility u table slot)) {suffix : String}
    {value : Value}
    (he' : e'.generators = e.generators.set id (.utility u (table.insert suffix value) slot))
    {y : Emission} (hy : y ∈ e.emissions) (hs : y.slot = slot)
    (ho : y.ordinal = table.ordinal suffix) :
    x ∈ e'.emissions ↔ x = u.emission table slot suffix value ∨ (x ∈ e.emissions ∧ x ≠ y) := by
  rw [h.mem_emissions_use hg he']
  refine or_congr_right (and_congr_right ?_)
  intro hx
  rw [not_iff_not]
  constructor
  · rintro ⟨hs', ho'⟩
    exact h.eq_of_place hx hy (hs'.trans hs.symm) (ho'.trans ho.symm)
  · rintro rfl
    exact ⟨hs, ho⟩

/-- A use whose place is free adds a class. -/
theorem Sound.emissions_use_of_free (h : e.Sound) {u : Utility} {table : ValueTable}
    {slot : SlotId} (hg : e.generators[id]? = some (.utility u table slot)) {suffix : String}
    {value : Value}
    (he' : e'.generators = e.generators.set id (.utility u (table.insert suffix value) slot))
    (hfree : ∀ y ∈ e.emissions, ¬(y.slot = slot ∧ y.ordinal = table.ordinal suffix)) :
    e'.emissions = e.emissions ∪ {y | y ∈ [u.emission table slot suffix value]} := by
  ext y
  rw [h.mem_emissions_use hg he', Set.mem_union, Set.mem_ofPred_eq, List.mem_singleton, or_comm]
  exact or_congr_left (and_iff_left_of_imp (hfree y))

/-- The class that had the place of an entry before is one for the same suffix. -/
theorem Sound.exists_of_place (h : e.Sound) {u : Utility} {table : ValueTable} {slot : SlotId}
    (hg : e.generators[id]? = some (.utility u table slot)) {suffix : String}
    (hx : x ∈ e.emissions) (hs : x.slot = slot) (ho : x.ordinal = table.ordinal suffix) :
    ∃ p ∈ table.entries, p.1 = suffix ∧ x.className = u.classOf suffix ∧
      x.block = u.style p.1 p.2 := by
  have hx := (h.mem_emissions_iff (List.mem_of_getElem? hg)).2 ⟨hx, hs⟩
  obtain ⟨-, p, hp, hc, hb⟩ := Generator.mem_emissions_utility.1 hx
  rw [ho] at hp
  have hsuffix := ValueTable.fst_of_getElem?_ordinal hp
  refine ⟨p, List.mem_of_getElem? hp, hsuffix, ?_, hb⟩
  rw [hc, hsuffix]

/-- A new generator brings its own classes. -/
theorem mem_emissions_append (he' : e'.generators = e.generators ++ [g]) :
    x ∈ e'.emissions ↔ x ∈ e.emissions ∨ x ∈ g.emissions := by
  simp [emissions, he', or_and_right, exists_or]

/-! ## Keeping the places -/

/-- Every class keeps its place. -/
def Retains (e e' : Engine) : Prop :=
  ∀ x ∈ e.emissions, ∃ y ∈ e'.emissions,
    y.slot = x.slot ∧ y.ordinal = x.ordinal ∧ y.className = x.className

namespace Retains

theorem of_subset (h : e.emissions ⊆ e'.emissions) : e.Retains e' :=
  fun x hx => ⟨x, h hx, rfl, rfl, rfl⟩

theorem of_generators (h : e'.generators = e.generators) : e.Retains e' := by
  apply of_subset
  rintro x ⟨g, hg, hx⟩
  exact ⟨g, h ▸ hg, hx⟩

theorem of_append (h : e'.generators = e.generators ++ [g]) : e.Retains e' :=
  of_subset fun _ hx => (mem_emissions_append h).2 (.inl hx)

theorem trans (h : e.Retains e') (h' : e'.Retains e'') : e.Retains e'' := by
  intro x hx
  obtain ⟨y, hy, hs, ho, hc⟩ := h x hx
  obtain ⟨z, hz, hs', ho', hc'⟩ := h' y hy
  exact ⟨z, hz, hs'.trans hs, ho'.trans ho, hc'.trans hc⟩

end Retains

/-- Classes with names that only one class has later are one class. -/
theorem Sound.eq_of_retains (h : e.Sound) (hr : e.Retains e') {y : Emission} (hx : x ∈ e.emissions)
    (hy : y ∈ e.emissions) (hlater : ∀ x' ∈ e'.emissions, ∀ y' ∈ e'.emissions,
      x'.className = x.className → y'.className = y.className → x' = y') : x = y := by
  obtain ⟨x', hx', hs, ho, hc⟩ := hr x hx
  obtain ⟨y', hy', hs', ho', hc'⟩ := hr y hy
  obtain rfl := hlater x' hx' y' hy' hc hc'
  exact h.eq_of_place hx hy (hs.symm.trans hs') (ho.symm.trans ho')

theorem Sound.retains_use (h : e.Sound) {u : Utility} {table : ValueTable} {slot : SlotId}
    (hg : e.generators[id]? = some (.utility u table slot)) {suffix : String} {value : Value}
    (he' : e'.generators = e.generators.set id (.utility u (table.insert suffix value) slot)) :
    e.Retains e' := by
  intro x hx
  by_cases hplace : x.slot = slot ∧ x.ordinal = table.ordinal suffix
  · obtain ⟨p, -, -, hc, -⟩ := h.exists_of_place hg hx hplace.1 hplace.2
    refine ⟨u.emission table slot suffix value, ?_, hplace.1.symm, hplace.2.symm, hc.symm⟩
    exact (h.mem_emissions_use hg he').2 (.inl rfl)
  · exact ⟨x, (h.mem_emissions_use hg he').2 (.inr ⟨hx, hplace⟩), rfl, rfl, rfl⟩

theorem Sound.retains_useEntries (h : e.Sound) {entries : List (String × Value)}
    {bindings : List Binding} (hs : e.useEntries id entries = .ok (e', bindings)) :
    e.Retains e' := by
  induction entries generalizing e bindings with
  | nil =>
    obtain ⟨rfl, -⟩ := Prod.mk.inj (Except.ok.inj hs)
    exact .of_generators rfl
  | cons entry entries ih =>
    obtain ⟨u, table, slot, hg, e₁, binding, he, rest, hr, -⟩ := useEntries_cons_eq_ok_iff.1 hs
    have hsound := h.useEntry hg he
    obtain ⟨binding', hok⟩ := h.useEntry_eq hg entry.1 entry.2
    rw [hok] at he
    obtain ⟨rfl, -⟩ := Prod.mk.inj (Except.ok.inj he)
    exact (h.retains_use hg rfl).trans (ih hsound hr)

theorem Sound.retains_step (h : e.Sound) (s : ConfigStep) : e.Retains (e.step s) := by
  cases h.learns_step s with
  | nothing hg _ => exact .of_generators hg
  | register g hg _ _ => exact .of_append hg
  | use id u table slot entries hid hg _ =>
    obtain ⟨bindings, hok⟩ := h.useEntries_eq hid entries
    exact (h.retains_useEntries hok).trans (.of_generators hg)

/-- **A class keeps its place** whatever a config does after it has become known. -/
theorem Sound.retains_run (h : e.Sound) (steps : List ConfigStep) : e.Retains (e.run steps) := by
  induction steps generalizing e with
  | nil => exact .of_generators rfl
  | cons s steps ih => exact (h.retains_step s).trans (ih (h.step s))

end Engine

end AtomicCss
