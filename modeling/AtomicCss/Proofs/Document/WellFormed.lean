import AtomicCss.Proofs.Document.Placement
import AtomicCss.Proofs.Keyed
import Mathlib.Data.List.Range

/-! # Well-formed documents

A container is stored apart from the places that refer to it, and selectors are found through an
index of their own. A document is well-formed when these agree. The root alone is well-formed, and
every call of a document keeps it so:

* `WellFormed.update` covers what changes one container's declarations or raw fragments,
* `WellFormed.graft` covers what hangs a new container somewhere, along both routes,
* `WellFormed.reserveSlot` covers slots.
-/

namespace AtomicCss.Document

variable {d d' : Document} {id j p q : Nat}

/-- The tree, the slots and the index of a document are in step. -/
structure WellFormed (d : Document) : Prop where
  root : (d.get? rootId).map (·.kind) = some .root
  /-- Every container but the root has exactly one place. -/
  placed : d.placed.Perm (List.range' 2 (d.size - 1))
  /-- Every slot has exactly one place. -/
  slotted : d.slotPlaces.Perm (List.range d.slots.length)
  parents : ∀ {p : Nat} {c s}, d.get? p = some c → .slot s ∈ c.children →
    (d.slots[s]?).map (·.parent) = some p
  younger : ∀ {p j : Nat}, j ∈ d.below p → p < j
  /-- The index lists the selectors under each container. -/
  indexed : ∀ {p : Nat} {text} {id : Nat}, ((p, text), id) ∈ d.index ↔
    id ∈ d.below p ∧ d.selectorText? id = some text
  keys : (d.index.map (·.1)).Nodup

/-! ## What a well-formed document satisfies -/

namespace WellFormed

theorem mem_placed_iff (h : d.WellFormed) : j ∈ d.placed ↔ 2 ≤ j ∧ j ≤ d.size := by
  obtain ⟨c, hc, -⟩ := Option.map_eq_some_iff.1 h.root
  have := (get?_eq_some_size hc).2
  rw [h.placed.mem_iff, List.mem_range'_1]
  show 2 ≤ j ∧ j < 2 + (d.size - 1) ↔ _
  simp only [rootId] at this
  omega

theorem contains_of_mem_below (h : d.WellFormed) (hj : j ∈ d.below p) : d.contains j = true := by
  have := h.mem_placed_iff.1 (mem_placed_of_mem_below hj)
  exact contains_iff.2 (by omega)

theorem contains_root (h : d.WellFormed) : d.contains rootId = true := by
  obtain ⟨c, hc, -⟩ := Option.map_eq_some_iff.1 h.root
  simp [contains, hc]

theorem lt_length_of_slot_mem (h : d.WellFormed) {c : Container} {s : Nat}
    (hc : d.get? p = some c) (hs : .slot s ∈ c.children) : s < d.slots.length := by
  obtain ⟨sl, hsl, -⟩ := Option.map_eq_some_iff.1 (h.parents hc hs)
  exact (List.getElem?_eq_some_iff.1 hsl).1

/-- A slot stands among the children of the container that it records. -/
theorem slot_mem_children (h : d.WellFormed) {s : Nat} {sl : Slot} (hs : d.slots[s]? = some sl) :
    ∃ c, d.get? sl.parent = some c ∧ .slot s ∈ c.children := by
  -- every slot has a place, and what it hangs under is its parent
  have hmem : s ∈ d.slotPlaces := by
    rw [h.slotted.mem_iff, List.mem_range]
    exact (List.getElem?_eq_some_iff.1 hs).1
  obtain ⟨c, hc, hsc⟩ := List.mem_flatMap.1 hmem
  obtain ⟨n, hn⟩ := List.mem_iff_getElem?.1 hc
  obtain ⟨ch, hch, hslot⟩ := List.mem_filterMap.1 hsc
  have hmemc : .slot s ∈ c.children := by
    cases ch <;> simp [Child.slot?] at hslot
    exact hslot ▸ hch
  have hget : d.get? (n + 1) = some c := hn
  have hpar := h.parents hget hmemc
  rw [hs, Option.map_some, Option.some.injEq] at hpar
  exact ⟨c, hpar ▸ hget, hmemc⟩

theorem mem_below_of_slot (h : d.WellFormed) {s : Nat} {sl : Slot} (hs : d.slots[s]? = some sl)
    (hj : j ∈ sl.ids) : j ∈ d.below sl.parent := by
  obtain ⟨c, hc, hsc⟩ := h.slot_mem_children hs
  exact mem_below.2 ⟨c, hc, .inr ⟨s, sl, hsc, hs, hj⟩⟩

/-- A search by text finds exactly the selector under the container that has it. -/
theorem findSelector?_eq_some_iff (h : d.WellFormed) {text : String} :
    d.findSelector? p text = some id ↔
      id ∈ d.below p ∧ d.selectorText? id = some (Text.trimmed text) := by
  rw [← h.indexed, findSelector?, Option.map_eq_some_iff]
  constructor
  · rintro ⟨⟨key, i⟩, hx, rfl⟩
    have hkey := List.find?_some hx
    simp only [decide_eq_true_eq] at hkey
    rw [← hkey]
    exact List.mem_of_find?_eq_some hx
  · intro hmem
    exact ⟨_, find?_of_nodup h.keys hmem, rfl⟩

theorem findSelector?_eq_none_iff (h : d.WellFormed) {text : String} :
    d.findSelector? p text = none ↔
      ∀ id ∈ d.below p, d.selectorText? id ≠ some (Text.trimmed text) := by
  rw [Option.eq_none_iff_forall_ne_some]
  constructor
  · intro hn id hid htext
    exact hn id (h.findSelector?_eq_some_iff.2 ⟨hid, htext⟩)
  · intro hall id hid
    obtain ⟨hb, ht⟩ := h.findSelector?_eq_some_iff.1 hid
    exact hall id hb ht

/-- Selectors under one container differ in their texts. -/
theorem eq_of_selectorText?_eq (h : d.WellFormed) {text : String} (hid : id ∈ d.below p)
    (hj : j ∈ d.below p) (hidt : d.selectorText? id = some text)
    (hjt : d.selectorText? j = some text) : id = j := by
  have h1 := h.indexed.2 ⟨hid, hidt⟩
  have h2 := h.indexed.2 ⟨hj, hjt⟩
  exact congrArg (·.2) (List.inj_on_of_nodup_map h.keys h1 h2 rfl)

end WellFormed

/-! ## The root alone -/

theorem wellFormed_empty : WellFormed empty where
  root := rfl
  placed := .refl _
  slotted := .refl _
  parents := by
    intro p c s hc hs
    obtain ⟨h1, h2⟩ := get?_eq_some_size hc
    obtain rfl : p = 1 := Nat.le_antisymm h2 h1
    obtain rfl : (⟨.root, ∅, []⟩ : Container) = c := by simpa [get?, empty] using hc
    simp at hs
  younger := by
    intro p j hj
    have := mem_placed_of_mem_below hj
    simp [Document.placed, empty] at this
  indexed := by
    intro p text id
    constructor
    · intro h
      simp [empty] at h
    · rintro ⟨h, -⟩
      have := mem_placed_of_mem_below h
      simp [Document.placed, empty] at this
  keys := by simp [empty]

/-! ## Changing one container -/

/-- What a change of one container has to leave alone: its kind and the containers and slots among
its children. -/
structure KeepsShape (f : Container → Container) : Prop where
  kind : ∀ c, (f c).kind = c.kind
  containers : ∀ c, (f c).children.filterMap Child.container? =
    c.children.filterMap Child.container?
  slots : ∀ c, (f c).children.filterMap Child.slot? = c.children.filterMap Child.slot?

namespace KeepsShape

variable {f : Container → Container}

theorem container_mem_iff (hf : KeepsShape f) {c : Container} :
    .container j ∈ (f c).children ↔ .container j ∈ c.children := by
  have hmem (c : Container) :
      .container j ∈ c.children ↔ j ∈ c.children.filterMap Child.container? := by
    rw [List.mem_filterMap]
    constructor
    · intro h
      exact ⟨_, h, rfl⟩
    · rintro ⟨ch, hch, hj⟩
      cases ch <;> simp [Child.container?] at hj
      exact hj ▸ hch
  rw [hmem, hmem, hf.containers]

theorem slot_mem_iff (hf : KeepsShape f) {c : Container} {s : Nat} :
    .slot s ∈ (f c).children ↔ .slot s ∈ c.children := by
  have hmem (c : Container) : .slot s ∈ c.children ↔ s ∈ c.children.filterMap Child.slot? := by
    rw [List.mem_filterMap]
    constructor
    · intro h
      exact ⟨_, h, rfl⟩
    · rintro ⟨ch, hch, hs⟩
      cases ch <;> simp [Child.slot?] at hs
      exact hs ▸ hch
  rw [hmem, hmem, hf.slots]

theorem mem_below_update (hf : KeepsShape f) : j ∈ (d.update id f).below p ↔ j ∈ d.below p := by
  rw [mem_below, mem_below]
  simp only [get?_update, slots_update]
  by_cases hp : p = id
  · simp only [hp, if_true]
    cases d.get? id with
    | none => simp
    | some c =>
      simp only [Option.map_some, Option.some.injEq, exists_eq_left', hf.container_mem_iff,
        hf.slot_mem_iff]
  · simp only [hp, if_false]

theorem kind?_update (hf : KeepsShape f) :
    ((d.update id f).get? j).map (·.kind) = (d.get? j).map (·.kind) := by
  rw [get?_update]
  split
  · rw [Option.map_map]
    exact congrArg (Option.map · (d.get? j)) (funext hf.kind)
  · rfl

end KeepsShape

theorem selectorText?_eq_bind : d.selectorText? j = ((d.get? j).map (·.kind)).bind
    Kind.selectorText? := by
  rw [selectorText?, Option.bind_map]
  rfl

theorem selectorText?_update {f : Container → Container} (hf : KeepsShape f) :
    (d.update id f).selectorText? j = d.selectorText? j := by
  rw [selectorText?_eq_bind, selectorText?_eq_bind, hf.kind?_update]

theorem WellFormed.update (h : d.WellFormed) {f : Container → Container} (hf : KeepsShape f) :
    (d.update id f).WellFormed where
  root := by rw [hf.kind?_update, h.root]
  placed := by
    have : (d.update id f).placed = d.placed := by
      cases id with
      | zero => rfl
      | succ n =>
        simp only [Document.placed, Document.update]
        rw [flatMap_modify_eq hf.containers]
    rw [this, size_update]
    exact h.placed
  slotted := by
    have : (d.update id f).slotPlaces = d.slotPlaces := by
      cases id with
      | zero => rfl
      | succ n => exact flatMap_modify_eq hf.slots
    rw [this, slots_update]
    exact h.slotted
  parents := by
    intro p c s hc hs
    rw [slots_update]
    rw [get?_update] at hc
    split at hc
    · obtain ⟨c, hget, rfl⟩ := Option.map_eq_some_iff.1 hc
      exact h.parents hget (hf.slot_mem_iff.1 hs)
    · exact h.parents hc hs
  younger := fun hj => h.younger (hf.mem_below_update.1 hj)
  indexed := by
    intro p text i
    rw [index_update, hf.mem_below_update, selectorText?_update hf]
    exact h.indexed
  keys := by
    rw [index_update]
    exact h.keys

theorem keepsShape_block (g : Container → Block) :
    KeepsShape fun c => { c with block := g c } where
  kind _ := rfl
  containers _ := rfl
  slots _ := rfl

theorem keepsShape_raw (css : String) :
    KeepsShape fun c => { c with children := c.children ++ [.raw css] } where
  kind _ := rfl
  containers c := by simp [Child.container?]
  slots c := by simp [Child.slot?]

theorem WellFormed.warnings (h : d.WellFormed) (ws : List Warning) :
    WellFormed { d with warnings := ws } :=
  ⟨h.root, h.placed, h.slotted, h.parents, h.younger, h.indexed, h.keys⟩

theorem WellFormed.merge (h : d.WellFormed) (id : Nat) (block : Block) :
    (d.merge id block).WellFormed := by
  unfold Document.merge
  split
  · exact h
  · exact (h.update (keepsShape_block _)).warnings _

/-! ## Hanging a new container somewhere -/

/-- `d'` is `d` with one more container, which hangs under `p` and has nothing below it. -/
structure Grafted (d d' : Document) (p : Nat) (kind : Kind) : Prop where
  size : d'.size = d.size + 1
  kinds : ∀ j : Nat, (d'.get? j).map (·.kind) =
    if j = d.size + 1 then some kind else (d.get? j).map (·.kind)
  placed : d'.placed.Perm ((d.size + 1) :: d.placed)
  slotPlaces : d'.slotPlaces = d.slotPlaces
  slotParents : d'.slots.map (·.parent) = d.slots.map (·.parent)
  slotChildren : ∀ {q : Nat} {c' s}, d'.get? q = some c' → .slot s ∈ c'.children →
    ∃ c, d.get? q = some c ∧ .slot s ∈ c.children
  below : ∀ {q j : Nat}, j ∈ d'.below q ↔ j ∈ d.below q ∨ (q = p ∧ j = d.size + 1)
  index : d'.index = (kind.selectorText?.map fun text => ((p, text), d.size + 1)).toList ++ d.index

/-- Hanging a container under an older one keeps a document well-formed, unless the container is a
selector whose text is taken. -/
theorem WellFormed.graft (h : d.WellFormed) {kind : Kind} (hg : Grafted d d' p kind)
    (hp : d.contains p = true)
    (hfree : ∀ text, kind.selectorText? = some text → (p, text) ∉ d.index.map (·.1)) :
    d'.WellFormed := by
  have hlen : d'.slots.length = d.slots.length := by
    simpa using congrArg List.length hg.slotParents
  have hold {j : Nat} (hj : j ≤ d.size) : d'.selectorText? j = d.selectorText? j := by
    rw [selectorText?_eq_bind, selectorText?_eq_bind, hg.kinds, if_neg (by omega)]
  have hnew : d'.selectorText? (d.size + 1) = kind.selectorText? := by
    rw [selectorText?_eq_bind, hg.kinds, if_pos rfl]
    rfl
  have hp := (contains_iff.1 hp)
  have hle {q j : Nat} (hj : j ∈ d.below q) : j ≤ d.size :=
    (contains_iff.1 (h.contains_of_mem_below hj)).2
  refine ⟨?root, ?placed, ?slotted, ?parents, ?younger, ?indexed, ?keys⟩
  case root =>
    rw [hg.kinds, if_neg (by simp only [rootId]; omega), h.root]
  case placed =>
    -- the new number is the next one
    refine hg.placed.trans ((h.placed.cons _).trans ?_)
    rw [hg.size, show d.size + 1 - 1 = (d.size - 1) + 1 by omega, List.range'_concat]
    rw [show 2 + 1 * (d.size - 1) = d.size + 1 by omega]
    exact @List.perm_append_comm _ [d.size + 1] _
  case slotted =>
    rw [hg.slotPlaces, hlen]
    exact h.slotted
  case parents =>
    intro q c' s hc hs
    obtain ⟨c, hc, hs⟩ := hg.slotChildren hc hs
    rw [← List.getElem?_map, hg.slotParents, List.getElem?_map]
    exact h.parents hc hs
  case younger =>
    intro q j hj
    rcases hg.below.1 hj with hj | ⟨rfl, rfl⟩
    · exact h.younger hj
    · omega
  case indexed =>
    intro q text id
    -- an entry is an old one, or the one of the new container
    rw [hg.index, List.mem_append, hg.below]
    constructor
    · rintro (hmem | hmem)
      · obtain ⟨t, ht, heq⟩ := Option.map_eq_some_iff.1 (Option.mem_toList.1 hmem)
        obtain ⟨⟨rfl, rfl⟩, rfl⟩ : (p = q ∧ t = text) ∧ d.size + 1 = id := by simpa using heq
        exact ⟨.inr ⟨rfl, rfl⟩, hnew.trans ht⟩
      · obtain ⟨hb, ht⟩ := h.indexed.1 hmem
        exact ⟨.inl hb, (hold (hle hb)).trans ht⟩
    · rintro ⟨hb | ⟨rfl, rfl⟩, ht⟩
      · right
        apply h.indexed.2
        exact ⟨hb, (hold (hle hb)).symm.trans ht⟩
      · left
        rw [hnew] at ht
        simp [ht]
  case keys =>
    rw [hg.index, List.map_append, List.nodup_append']
    refine ⟨?_, h.keys, ?_⟩
    · cases kind.selectorText? <;> simp
    · intro key hkey
      cases ht : kind.selectorText? with
      | none => simp [ht] at hkey
      | some text =>
        obtain rfl : key = (p, text) := by simpa [ht] using hkey
        exact hfree text ht

end AtomicCss.Document
