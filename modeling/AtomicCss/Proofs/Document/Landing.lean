import AtomicCss.Proofs.Document.Alike

/-! # Where generated selectors land

The selector for an ordinal of a slot is merged into the one that stands there, else into the one with
its text under the slot's parent, and is a new entry of the slot otherwise (`slotSelector_cases`). Only
selectors come to stand in slots (`filled_run`). So a generated selector always lands in a selector under
the slot's parent and leaves all other containers alone, and unless another text holds its ordinal, it
lands in the selector with its own text (`slotSelector_lands`). -/

namespace AtomicCss.Document

variable {d d' : Document} {id j p slot s ordinal o : Nat} {text : String} {block : Block}

/-! ## One generated selector -/

/-- The document with a new selector at a free ordinal of a slot. -/
def planted (d : Document) (slot : SlotId) (ordinal : Nat) (parent : ContainerId) (text : String)
    (block : Block) : Document :=
  ((d.insert (.selector text) block).1.fillSlot slot ordinal (d.size + 1)).enlist parent text
    (d.size + 1)

theorem slotSelector_cases (hs : d.slotSelector slot ordinal text block = .ok (d', id)) :
    ∃ sl, d.slots[slot]? = some sl ∧
      ((d' = d.merge id block ∧
          (d.StandsAt slot ordinal id ∨
            sl.at? ordinal = none ∧ d.findSelector? sl.parent text = some id)) ∨
        (d' = d.planted slot ordinal sl.parent (Text.trimmed text) block ∧ id = d.size + 1 ∧
          sl.at? ordinal = none ∧ d.findSelector? sl.parent text = none)) := by
  unfold slotSelector at hs
  split at hs
  case h_1 => cases hs
  case h_2 sl hsl =>
    refine ⟨sl, hsl, ?_⟩
    split at hs
    case h_1 i hfind =>
      obtain ⟨rfl, rfl⟩ : d.merge i block = d' ∧ i = id := by simpa using hs
      left
      refine ⟨rfl, ?_⟩
      rcases Option.or_eq_some_iff.1 hfind with hat | ⟨hat, hfind⟩
      · exact .inl (standsAt_of_at? hsl hat)
      · exact .inr ⟨hat, hfind⟩
    case h_2 hnone =>
      obtain ⟨rfl, rfl⟩ := Prod.mk.inj (Except.ok.inj hs)
      right
      obtain ⟨hat, hfind⟩ := Option.or_eq_none_iff.1 hnone
      exact ⟨rfl, rfl, hat, hfind⟩

theorem get?_planted : (d.planted slot ordinal p text block).get? j =
    if j = d.size + 1 then some ⟨.selector text, block, []⟩ else d.get? j :=
  (get?_congr rfl).trans (get?_insert _ _)

theorem slots_planted : (d.planted slot ordinal p text block).slots =
    d.slots.modify slot (·.insert ordinal (d.size + 1)) := rfl

theorem Keeps.planted : d.Keeps (d.planted slot ordinal p text block) :=
  (insert d (.selector text) block).trans (of_containers rfl)

/-- What stands in a slot behind a new entry stood there before, unless it is the entry. -/
theorem standsAt_planted (h : (d.planted slot ordinal p text block).StandsAt s o id) :
    d.StandsAt s o id ∨ id = d.size + 1 := by
  obtain ⟨sl', hsl', hmem⟩ := h
  rw [slots_planted, List.getElem?_modify] at hsl'
  split at hsl'
  · obtain ⟨sl, hsl, rfl⟩ := Option.map_eq_some_iff.1 hsl'
    rcases Slot.mem_place hmem with heq | hold
    · exact .inr (Prod.mk.inj heq).2
    · exact .inl ⟨sl, hsl, hold⟩
  · exact .inl ⟨sl', by simpa using hsl', hmem⟩

/-! ## Selectors in slots -/

/-- Nothing but selectors stands in slots. -/
structure Filled (d : Document) : Prop where
  selector : ∀ {s ordinal id : Nat}, d.StandsAt s ordinal id → ∃ text, d.selectorText? id = some text

namespace Filled

theorem of_keeps (h : d.Filled) (hk : d.Keeps d') (hs : d'.slots = d.slots) : d'.Filled where
  selector hat := by
    rw [StandsAt, hs] at hat
    obtain ⟨text, htext⟩ := h.selector hat
    exact ⟨text, hk.selectorText? htext⟩

theorem reserveSlot (h : d.Filled) {slot : SlotId} (hr : d.reserveSlot p = .ok (d', slot)) :
    d'.Filled := by
  obtain ⟨hk, hslots, -⟩ := keeps_reserveSlot hr
  constructor
  rintro s ordinal id ⟨sl, hsl, hmem⟩
  rw [hslots, List.getElem?_append] at hsl
  split at hsl
  · obtain ⟨text, htext⟩ := h.selector ⟨sl, hsl, hmem⟩
    exact ⟨text, hk.selectorText? htext⟩
  · -- the new slot is vacant
    obtain rfl := List.mem_singleton.1 (List.mem_of_getElem? hsl)
    cases hmem

theorem slotSelector (h : d.Filled) (hs : d.slotSelector slot ordinal text block = .ok (d', id)) :
    d'.Filled := by
  obtain ⟨sl, -, ⟨rfl, -⟩ | ⟨rfl, -⟩⟩ := slotSelector_cases hs
  · exact h.of_keeps (.merge d block) (slots_merge block)
  · constructor
    intro s o j hat
    rcases standsAt_planted hat with hold | rfl
    · obtain ⟨text, htext⟩ := h.selector hold
      exact ⟨text, Keeps.planted.selectorText? htext⟩
    · exact ⟨_, by rw [selectorText?, get?_planted, if_pos rfl]; rfl⟩

/-- One call brings nothing but selectors into slots. -/
theorem call (h : d.Filled) (c : Call) : (d.call c).Filled := by
  unfold Document.call
  split
  case h_2 => exact h
  case h_1 d' hd =>
    cases c with
    | selector p text block =>
      obtain ⟨id, hs⟩ := map_fst_eq_ok hd
      exact h.of_keeps (keeps_selector hs).1 (keeps_selector hs).2
    | media p query =>
      obtain ⟨id, hs⟩ := map_fst_eq_ok hd
      exact h.of_keeps (keeps_nested hs).1 (keeps_nested hs).2
    | keyframes p name =>
      obtain ⟨id, hs⟩ := map_fst_eq_ok hd
      exact h.of_keeps (keeps_nested hs).1 (keeps_nested hs).2
    | raw p css => exact h.of_keeps (keeps_raw hd).1 (keeps_raw hd).2
    | mergeInto id block =>
      have hd : d.mergeInto id block = .ok d' := hd
      unfold mergeInto at hd
      split at hd
      · obtain rfl := Except.ok.inj hd
        exact h.of_keeps (.merge d block) (slots_merge block)
      · cases hd
    | reserveSlot p =>
      obtain ⟨slot, hs⟩ := map_fst_eq_ok hd
      exact h.reserveSlot hs
    | slotSelector slot ordinal text block =>
      obtain ⟨id, hs⟩ := map_fst_eq_ok hd
      exact h.slotSelector hs
    | clearWarnings =>
      obtain rfl := Except.ok.inj hd
      exact h.of_keeps (.of_containers rfl) rfl

end Filled

theorem filled_run (calls : List Call) : (empty.run calls).Filled := by
  have (d : Document) (h : d.Filled) : (d.run calls).Filled := by
    induction calls generalizing d with
    | nil => exact h
    | cons c calls ih => exact ih _ (h.call c)
  refine this empty ⟨?_⟩
  rintro s ordinal id ⟨sl, hsl, -⟩
  cases hsl

/-! ## Landing -/

/-- Declarations for a slot of `d` are in a selector of `d'`, which hangs under the slot's parent, and
every other container is as it was. -/
structure Lands (d d' : Document) (slot : SlotId) (block : Block) (id : ContainerId) (text : String) :
    Prop where
  selector : ∃ c, d'.get? id = some c ∧ c.kind = .selector text ∧
    ∀ property value, block.get? property = some value → c.block.get? property = some value
  below : ∃ parent, d.slotParent? slot = some parent ∧ id ∈ d'.below parent
  others : ∀ {j : Nat}, d.contains j = true → j ≠ id → d'.get? j = d.get? j

theorem mem_below_merge : j ∈ (d.merge id block).below p ↔ j ∈ d.below p := by
  unfold merge
  split
  · exact Iff.rfl
  · exact (keepsShape_block _).mem_below_update

/-- Merging into a selector lands in it. -/
theorem lands_merge {parent : ContainerId} (hparent : d.slotParent? slot = some parent)
    (hbelow : id ∈ d.below parent) (htext : d.selectorText? id = some text) :
    d.Lands (d.merge id block) slot block id text where
  selector := by
    obtain ⟨c, hc, hkind⟩ := Option.bind_eq_some_iff.1 htext
    refine ⟨{ c with block := (c.block.merge block).1 }, ?_, ?_, ?_⟩
    · rw [get?_merge, if_pos rfl, hc]
      rfl
    · exact Kind.selectorText?_eq_some_iff.1 hkind
    · intro property value hvalue
      rw [Block.get?_merge, hvalue, Option.some_or]
  below := ⟨parent, hparent, mem_below_merge.2 hbelow⟩
  others _ hne := by rw [get?_merge, if_neg hne]

theorem WellFormed.lands_planted (h : d.WellFormed) {sl : Slot} (hsl : d.slots[slot]? = some sl)
    (hfree : sl.at? ordinal = none) :
    d.Lands (d.planted slot ordinal sl.parent text block) slot block (d.size + 1) text where
  selector := ⟨_, by rw [get?_planted, if_pos rfl], rfl, fun _ _ hvalue => hvalue⟩
  below := by
    have hgraft : Grafted d (d.planted slot ordinal sl.parent text block) sl.parent
        (.selector text) := grafted_fillSlot _ block h hsl hfree rfl rfl rfl
    refine ⟨sl.parent, by rw [slotParent?, hsl]; rfl, ?_⟩
    exact hgraft.below.2 (.inr ⟨rfl, rfl⟩)
  others hj _ := by
    have := contains_iff.1 hj
    rw [get?_planted, if_neg (by omega)]

/-! ## Reached documents -/

/-- **A generated selector lands in its own selector unless another one holds its ordinal.** In every
reached document, the declarations for an ordinal of a slot come into one selector under the slot's
parent and change nothing else. It has the given text if no selector with another text stands at the
ordinal. If one does, and no selector under the parent has the text, it is that one. -/
theorem slotSelector_lands (calls : List Call)
    (hs : (empty.run calls).slotSelector slot ordinal text block = .ok (d', id)) :
    ∃ written, (empty.run calls).Lands d' slot block id written ∧
      ((∀ j, (empty.run calls).StandsAt slot ordinal j →
          (empty.run calls).selectorText? j = some (Text.trimmed text)) →
        written = Text.trimmed text) ∧
      ∀ parent j, (empty.run calls).slotParent? slot = some parent →
        (empty.run calls).StandsAt slot ordinal j →
        (∀ i ∈ (empty.run calls).below parent,
          (empty.run calls).selectorText? i ≠ some (Text.trimmed text)) → id = j := by
  have h := wellFormed_run calls
  have hf := filled_run calls
  generalize empty.run calls = d at *
  obtain ⟨sl, hsl, hcases⟩ := slotSelector_cases hs
  have hparent : d.slotParent? slot = some sl.parent := by
    rw [slotParent?, hsl]
    rfl
  -- where nothing stands at the ordinal, nothing is said about what stands there
  have hfree (hat : sl.at? ordinal = none) (j : Nat) : ¬ d.StandsAt slot ordinal j := by
    rintro ⟨sl', hsl', hmem⟩
    obtain rfl := Option.some.inj (hsl.symm.trans hsl')
    exact Slot.at?_eq_none_iff.1 hat (List.mem_map_of_mem hmem)
  rcases hcases with ⟨rfl, hat | ⟨hat, hfind⟩⟩ | ⟨rfl, rfl, hat, hfind⟩
  · obtain ⟨written, hwritten⟩ := hf.selector hat
    refine ⟨written, lands_merge hparent (h.mem_below_of_standsAt hat hparent) hwritten, ?_, ?_⟩
    · intro hown
      exact Option.some.inj (hwritten.symm.trans (hown id hat))
    · intro parent j _ hj _
      exact hat.unique hj
  · obtain ⟨hbelow, htext⟩ := h.findSelector?_eq_some_iff.1 hfind
    refine ⟨_, lands_merge hparent hbelow htext, fun _ => rfl, ?_⟩
    intro parent j _ hj
    exact absurd hj (hfree hat j)
  · refine ⟨_, h.lands_planted hsl hat, fun _ => rfl, ?_⟩
    intro parent j _ hj
    exact absurd hj (hfree hat j)

/-- A rule of a user, and a slot of which an ordinal is held. -/
def heldOrdinal : List Call :=
  [.selector rootId ".m" (.ofList [("padding", .literal "1px")]), .reserveSlot rootId,
    .slotSelector 0 0 ".a" ∅]

/-- At a free ordinal, the user's rule takes the declarations. -/
theorem slotSelector_lands_user : ∃ d',
    (empty.run heldOrdinal).slotSelector 0 1 " .m " (.ofList [("margin", .literal "4px")]) =
      .ok (d', 2) ∧
    (empty.run heldOrdinal).Lands d' 0 (.ofList [("margin", .literal "4px")]) 2 ".m" := by
  have hs : (empty.run heldOrdinal).slotSelector 0 1 " .m "
      (.ofList [("margin", .literal "4px")]) = .ok (_, 2) := rfl
  obtain ⟨written, hlands, hown, -⟩ := slotSelector_lands heldOrdinal hs
  have hvacant : ∀ j, ¬ (empty.run heldOrdinal).StandsAt 0 1 j := by
    rintro j ⟨sl, hsl, hmem⟩
    have hentries : ((empty.run heldOrdinal).slots[0]?).map (·.entries) = some [(0, 3)] := by
      decide +kernel
    rw [hsl, Option.map_some, Option.some.injEq] at hentries
    simp [hentries] at hmem
  have hwritten : written = ".m" := hown fun j hj => absurd hj (hvacant j)
  exact ⟨_, hs, hwritten ▸ hlands⟩

/-- At a held ordinal, a selector with another text takes them. -/
theorem slotSelector_lands_foreign : ∃ d',
    (empty.run heldOrdinal).slotSelector 0 0 ".b" (.ofList [("color", .literal "blue")]) =
      .ok (d', 3) ∧
    d'.selectorText? 3 = some ".a" ∧
    ((empty.run heldOrdinal).get? 3).map (·.block) = some ∅ ∧
    (d'.get? 3).map (·.block) = some (.ofList [("color", .literal "blue")]) :=
  ⟨_, rfl, by decide +kernel, by decide +kernel, by decide +kernel⟩

end AtomicCss.Document
