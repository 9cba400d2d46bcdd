import AtomicCss.Proofs.Document.Growth
import AtomicCss.Proofs.Document.Standing
import Mathlib

/-! # Documents that stand alike

Emissions change no container of a document but the selectors of the root, and add none but these
(`Sprouted`). So two documents that came from one by emissions have the same sheet if each text stands
alike in both (`Sprouted.sheet_eq`), whether or not the classes share selectors. -/

namespace AtomicCss.Document

variable {d d₀ d' : Document} {x : Emission} {xs : List Emission} {id j p s ordinal : Nat}

theorem StandsAt.unique (h : d.StandsAt s ordinal id) (h' : d.StandsAt s ordinal j) : id = j := by
  obtain ⟨sl, hsl, hmem⟩ := h
  obtain ⟨sl', hsl', hmem'⟩ := h'
  obtain rfl := Option.some.inj (hsl.symm.trans hsl')
  have hnodup : (sl.entries.map (·.1)).Nodup := by
    rw [List.Nodup, List.pairwise_map]
    exact sl.ascending.imp Nat.ne_of_lt
  exact congrArg Prod.snd (List.inj_on_of_nodup_map hnodup hmem hmem' rfl)

/-- `d` is `d₀` after some emissions. -/
structure Sprouted (d₀ d : Document) : Prop where
  wellFormed : d.WellFormed
  size_le : d₀.size ≤ d.size
  old : ∀ {id c}, d₀.get? id = some c → ∃ b, d.get? id = some { c with block := b }
  /-- Only selectors of the root are merged into. -/
  untouched : ∀ {id c}, (∀ text, d₀.findSelector? rootId text ≠ some id) → d₀.get? id = some c →
    d.get? id = some c
  parents : d.slots.map (·.parent) = d₀.slots.map (·.parent)
  kept : ∀ {s ordinal id}, d₀.StandsAt s ordinal id → d.StandsAt s ordinal id
  /-- What is new stands under the root. -/
  entries : ∀ {s ordinal id}, d.StandsAt s ordinal id → d₀.StandsAt s ordinal id ∨
    (d.slots[s]?).map (·.parent) = some rootId ∧ ∃ (x : Emission) (block : Block),
      d₀.Young d x.text block id

namespace Sprouted

theorem refl (h : d.WellFormed) : d.Sprouted d where
  wellFormed := h
  size_le := Nat.le_refl _
  old hc := ⟨_, hc⟩
  untouched _ hc := hc
  parents := rfl
  kept := id
  entries := .inl

theorem keeps (h : d₀.Sprouted d) : d₀.Keeps d where
  kind hk := by
    obtain ⟨c, hc, hk⟩ := Option.map_eq_some_iff.1 hk
    obtain ⟨b, hb⟩ := h.old hc
    rw [hb, Option.map_some, ← hk]

/-- What was below a container of `d₀` still is. -/
theorem mem_below_of_old (h : d₀.Sprouted d) (hj : j ∈ d₀.below p) : j ∈ d.below p := by
  obtain ⟨c, hc, hj⟩ := mem_below.1 hj
  obtain ⟨b, hb⟩ := h.old hc
  refine mem_below.2 ⟨_, hb, hj.imp_right ?_⟩
  rintro ⟨s, sl₀, hs, hsl₀, hj⟩
  obtain ⟨e, he, rfl⟩ := List.mem_map.1 hj
  obtain ⟨sl, hsl, he⟩ := h.kept ⟨sl₀, hsl₀, he⟩
  exact ⟨s, sl, hs, hsl, List.mem_map_of_mem he⟩

/-- What is below a container of `d₀` was so before, or is new. -/
theorem mem_below (h : d₀.Sprouted d) (hp : d₀.contains p = true) (hj : j ∈ d.below p) :
    j ∈ d₀.below p ∨ d₀.size < j := by
  obtain ⟨c, hc⟩ := get?_of_contains hp
  obtain ⟨b, hb⟩ := h.old hc
  obtain ⟨c', hc', hj⟩ := Document.mem_below.1 hj
  obtain rfl := Option.some.inj (hb.symm.trans hc')
  rcases hj with hj | ⟨s, sl, hs, hsl, hj⟩
  · left
    exact Document.mem_below.2 ⟨c, hc, .inl hj⟩
  · obtain ⟨e, he, rfl⟩ := List.mem_map.1 hj
    rcases h.entries ⟨sl, hsl, he⟩ with ⟨sl₀, hsl₀, he⟩ | ⟨-, x, block, hy⟩
    · left
      exact Document.mem_below.2 ⟨c, hc, .inr ⟨s, sl₀, hs, hsl₀, List.mem_map_of_mem he⟩⟩
    · right
      exact hy.younger

theorem findSelector?_of_old (h0 : d₀.WellFormed) (h : d₀.Sprouted d) {text : String}
    (hfind : d₀.findSelector? p text = some id) : d.findSelector? p text = some id := by
  rw [h0.findSelector?_eq_some_iff] at hfind
  rw [h.wellFormed.findSelector?_eq_some_iff]
  exact ⟨h.mem_below_of_old hfind.1, h.keeps.selectorText? hfind.2⟩

/-- A selector of the root that `d₀` had is found in `d₀` as well. -/
theorem findSelector?_old (h0 : d₀.WellFormed) (h : d₀.Sprouted d) {text : String} {c : Container}
    (hc : d₀.get? id = some c) (hfind : d.findSelector? rootId text = some id) :
    d₀.findSelector? rootId text = some id := by
  rw [h.wellFormed.findSelector?_eq_some_iff] at hfind
  rw [h0.findSelector?_eq_some_iff]
  obtain ⟨hb, ht⟩ := hfind
  constructor
  · rcases h.mem_below h0.contains_root hb with hold | hnew
    · exact hold
    · have := (get?_eq_some_size hc).2
      omega
  · obtain ⟨b, hb⟩ := h.old hc
    rw [selectorText?, hb] at ht
    rw [selectorText?, hc]
    exact ht

/-! ## Emitting -/

/-- Merging a class into the selector of the root that has its text. -/
theorem merge (h0 : d₀.WellFormed) (h : d₀.Sprouted d)
    (hfind : d.findSelector? rootId x.text = some id) : d₀.Sprouted (d.merge id x.block) where
  wellFormed := h.wellFormed.merge id x.block
  size_le := by
    rw [size_merge]
    exact h.size_le
  old {j} c hc := by
    obtain ⟨b, hb⟩ := h.old hc
    rw [get?_merge, hb]
    split
    · exact ⟨_, rfl⟩
    · exact ⟨b, rfl⟩
  untouched {j} c hno hc := by
    have hne : j ≠ id := by
      rintro rfl
      exact hno _ (h.findSelector?_old h0 hc hfind)
    rw [get?_merge, if_neg hne]
    exact h.untouched hno hc
  parents := by rw [slots_merge, h.parents]
  kept hat := (standsAt_merge _).2 (h.kept hat)
  entries {s ordinal j} hat := by
    refine (h.entries ((standsAt_merge _).1 hat)).imp_right ?_
    rintro ⟨hroot, y, block, hy⟩
    refine ⟨by rwa [slots_merge], y, ?_⟩
    by_cases hj : j = id
    · exact ⟨_, hy.younger, by rw [get?_merge, if_pos hj, hy.get]; rfl⟩
    · exact ⟨block, hy.younger, by rw [get?_merge, if_neg hj, hy.get]⟩

/-- Giving a class a container of its own. -/
theorem sprout (h : d₀.Sprouted d) (hx : d.Admits x)
    (hfind : d.findSelector? rootId x.text = none) (hw : (d.sprout x).WellFormed) :
    d₀.Sprouted (d.sprout x) := by
  have hstands {s ordinal id : Nat} : (d.sprout x).StandsAt s ordinal id ↔
      d.StandsAt s ordinal id ∨ (s = x.slot ∧ ordinal = x.ordinal ∧ id = d.size + 1) := by
    apply standsAt_sprout hx.slot
    intro _
    exact h.wellFormed.not_standsAt hx hfind
  have hold {j : Nat} {c : Container} (hc : d.get? j = some c) : (d.sprout x).get? j = some c := by
    have := (get?_eq_some_size hc).2
    rw [get?_sprout, if_neg (by omega), hc]
  have hparent (s : Nat) : ((d.sprout x).slots[s]?).map (·.parent) =
      (d.slots[s]?).map (·.parent) := by
    rw [← List.getElem?_map, parents_sprout, List.getElem?_map]
  refine ⟨hw, ?size_le, ?old, ?untouched, ?parents, ?kept, ?entries⟩
  case size_le =>
    rw [size_sprout]
    exact Nat.le_succ_of_le h.size_le
  case old =>
    intro id c hc
    obtain ⟨b, hb⟩ := h.old hc
    exact ⟨b, hold hb⟩
  case untouched =>
    intro id c hno hc
    exact hold (h.untouched hno hc)
  case parents => rw [parents_sprout, h.parents]
  case kept =>
    intro s ordinal id hat
    exact hstands.2 (.inl (h.kept hat))
  case entries =>
    intro s ordinal id hat
    rw [hparent]
    rcases hstands.1 hat with hat | ⟨rfl, -, rfl⟩
    · refine (h.entries hat).imp_right ?_
      rintro ⟨hroot, y, block, hy⟩
      exact ⟨hroot, y, block, hy.younger, hold hy.get⟩
    · right
      refine ⟨hx.slot, x, x.block, Nat.lt_succ_of_le h.size_le, ?_⟩
      rw [get?_sprout, if_pos rfl]

theorem absorb (h0 : d₀.WellFormed) (h : d₀.Sprouted d) (hx : d.Admits x) :
    d₀.Sprouted (d.absorb x).1 := by
  have hw := h.wellFormed.absorb hx
  unfold Document.absorb at hw ⊢
  cases hfind : d.findSelector? rootId x.text with
  | some id => exact h.merge h0 hfind
  | none =>
    rw [hfind] at hw
    exact h.sprout hx hfind hw

theorem absorbAll (h0 : d₀.WellFormed) (h : d₀.Sprouted d) (hxs : d.AdmitsAll xs) :
    d₀.Sprouted (d.absorbAll xs) := by
  induction xs generalizing d with
  | nil => exact h
  | cons x xs ih => exact ih (h.absorb h0 hxs.2.1) hxs.2.2

/-! ## The sheet -/

/-- What stands alike in two documents stands parallel in them. -/
theorem parallel (h0 : d₀.WellFormed) (h : d₀.Sprouted d) (h' : d₀.Sprouted d')
    (halike : ∀ text, d.standing text = d'.standing text) : d₀.Parallel d d' where
  wellFormed := h.wellFormed
  old {id} c hc := by
    by_cases hfound : ∃ text, d₀.findSelector? rootId text = some id
    · obtain ⟨text, hfind⟩ := hfound
      obtain ⟨b, hb⟩ := h.old hc
      obtain ⟨b', hb'⟩ := h'.old hc
      have hst := halike text
      rw [standing, standing, h.findSelector?_of_old h0 hfind, h'.findSelector?_of_old h0 hfind,
        Option.bind_some, Option.bind_some, hb, hb'] at hst
      obtain rfl : b = b' := congrArg Standing.block (Option.some.inj hst)
      exact ⟨b, hb, hb'⟩
    · have hno : ∀ text, d₀.findSelector? rootId text ≠ some id := by
        intro text hfind
        exact hfound ⟨text, hfind⟩
      exact ⟨c.block, h.untouched hno hc, h'.untouched hno hc⟩
  parents := h.parents
  entries {s ordinal id} hat := by
    rcases h.entries hat with hold | ⟨hroot, x, block, hy⟩
    · exact .inl ⟨hold, h'.kept hold⟩
    · right
      -- the text of the new selector leads to the same place in the other document
      have hfind : d.findSelector? rootId x.text = some id := by
        rw [h.wellFormed.findSelector?_eq_some_iff, x.trimmed_text, selectorText?, hy.get]
        exact ⟨h.wellFormed.mem_below_of_standsAt hat hroot, rfl⟩
      have hst := halike x.text
      rw [standing, standing, hfind, Option.bind_some, hy.get, Option.map_some] at hst
      obtain ⟨id', hfind', hst⟩ := Option.bind_eq_some_iff.1 hst.symm
      obtain ⟨c', hc', hst⟩ := Option.map_eq_some_iff.1 hst
      obtain ⟨hplaces, hblock⟩ := Standing.mk.inj hst
      have hat' : d'.StandsAt s ordinal id' := (Set.ext_iff.1 hplaces (s, ordinal)).2 hat
      refine ⟨x.text, block, id', hy, ?_, hat'⟩
      rcases h'.entries hat' with hold | ⟨-, y, block', hy'⟩
      · -- an old entry would stand there in both documents
        have hyounger := hy.younger
        rw [hat.unique (h.kept hold)] at hyounger
        exact absurd (h0.le_size_of_standsAt hold) (Nat.not_le.2 hyounger)
      · obtain rfl := Option.some.inj (hc'.symm.trans hy'.get)
        refine ⟨hy'.younger, ?_⟩
        have ht' := (h'.wellFormed.findSelector?_eq_some_iff.1 hfind').2
        rw [x.trimmed_text, selectorText?, hy'.get, Option.bind_some] at ht'
        obtain rfl : block' = block := hblock
        rw [hy'.get, show y.text = x.text from Option.some.inj ht']

/-- **Documents that stand alike have the same sheet**, or fail alike. -/
theorem sheet_eq (h0 : d₀.WellFormed) (h : d₀.Sprouted d) (h' : d₀.Sprouted d')
    (halike : ∀ text, d.standing text = d'.standing text) {vars : Variables}
    (hv : ∀ v ∈ vars.entries, d₀.contains v.scope = true) (config : String) (layout : Layout) :
    d.sheet vars config layout = d'.sheet vars config layout :=
  (h.parallel h0 h' halike).sheet_eq h0 (h'.parallel h0 h fun text => (halike text).symm) hv config
    layout

end Sprouted

end AtomicCss.Document
