import AtomicCss.Proofs.Document.Calls

/-! # What the calls of a document keep

No call takes a container away or makes another one of it. Only `reserveSlot` changes the list of
slots, and only `slotSelector` fills them. -/

namespace AtomicCss.Document

variable {d d' : Document} {id j p : Nat}

/-! ## Merging into a container -/

theorem get?_merge (block : Block) : (d.merge id block).get? j =
    if j = id then (d.get? j).map fun c => { c with block := (c.block.merge block).1 }
    else d.get? j := by
  unfold merge
  split
  case h_1 hc =>
    split
    · rename_i hj
      rw [hj, hc]
      rfl
    · rfl
  case h_2 c hc =>
    refine (get?_congr rfl).trans ((get?_update _).trans ?_)
    split
    · rename_i hj
      rw [hj, hc]
      rfl
    · rfl

@[simp] theorem slots_merge (block : Block) : (d.merge id block).slots = d.slots := by
  unfold merge
  split
  · rfl
  · exact slots_update _

@[simp] theorem size_merge (block : Block) : (d.merge id block).size = d.size := by
  unfold merge
  split
  · rfl
  · exact size_update _

@[simp] theorem index_merge (block : Block) : (d.merge id block).index = d.index := by
  unfold merge
  split
  · rfl
  · exact index_update _

/-! ## Keeping every container -/

/-- Every container is still there, as what it was. -/
structure Keeps (d d' : Document) : Prop where
  kind : ∀ {j : Nat} {kind},
    (d.get? j).map (·.kind) = some kind → (d'.get? j).map (·.kind) = some kind

namespace Keeps

theorem refl (d : Document) : d.Keeps d := ⟨id⟩

theorem trans {d'' : Document} (h : d.Keeps d') (h' : d'.Keeps d'') : d.Keeps d'' where
  kind hk := h'.kind (h.kind hk)

theorem contains (h : d.Keeps d') (hj : d.contains j = true) : d'.contains j = true := by
  obtain ⟨c, hc⟩ := get?_of_contains hj
  have hk : (d'.get? j).map (·.kind) = some c.kind := by
    apply h.kind
    rw [hc]
    rfl
  obtain ⟨c', hc', -⟩ := Option.map_eq_some_iff.1 hk
  simp [Document.contains, hc']

theorem selectorText? (h : d.Keeps d') {text : String} (hj : d.selectorText? j = some text) :
    d'.selectorText? j = some text := by
  rw [selectorText?_eq_bind] at hj ⊢
  obtain ⟨kind, hk, ht⟩ := Option.bind_eq_some_iff.1 hj
  rw [h.kind hk]
  exact ht

theorem of_containers (h : d'.containers = d.containers) : d.Keeps d' where
  kind hk := by rwa [get?_congr h]

theorem insert (d : Document) (kind : Kind) (block : Block) : d.Keeps (d.insert kind block).1 where
  kind {j} k hk := by
    obtain ⟨c, hc, -⟩ := Option.map_eq_some_iff.1 hk
    have := (get?_eq_some_size hc).2
    rwa [get?_insert, if_neg (by omega)]

theorem update (d : Document) {f : Container → Container} (hf : ∀ c, (f c).kind = c.kind) :
    d.Keeps (d.update id f) where
  kind {j} kind hk := by
    rw [get?_update]
    split
    · rwa [Option.map_map, show (fun c : Container => c.kind) ∘ f = (·.kind) from funext hf]
    · exact hk

theorem merge (d : Document) (block : Block) : d.Keeps (d.merge id block) where
  kind {j} kind hk := by
    rw [get?_merge]
    split
    · rwa [Option.map_map]
    · exact hk

end Keeps

/-! ## Call by call -/

theorem keeps_adopt_insert (kind : Kind) (block : Block) (child : Child) :
    d.Keeps ((d.insert kind block).1.adopt p child) :=
  (Keeps.insert d kind block).trans (.update _ fun _ => rfl)

theorem keeps_selector {text : String} {block : Block}
    (hs : d.selector p text block = .ok (d', id)) : d.Keeps d' ∧ d'.slots = d.slots := by
  unfold Document.selector at hs
  split at hs
  case isFalse => cases hs
  case isTrue =>
    split at hs
    case h_1 i hfind =>
      obtain ⟨rfl, rfl⟩ : d.merge i block = d' ∧ i = id := by simpa using hs
      exact ⟨.merge d block, slots_merge block⟩
    case h_2 hfind =>
      obtain ⟨rfl, rfl⟩ := Prod.mk.inj (Except.ok.inj hs)
      exact ⟨(keeps_adopt_insert _ _ _).trans (.of_containers rfl), slots_update _⟩

theorem keeps_nested {kind : Kind} (hs : d.nested p kind = .ok (d', id)) :
    d.Keeps d' ∧ d'.slots = d.slots := by
  unfold Document.nested at hs
  split at hs
  case isFalse => cases hs
  case isTrue =>
    obtain ⟨rfl, rfl⟩ := Prod.mk.inj (Except.ok.inj hs)
    exact ⟨keeps_adopt_insert _ _ _, slots_update _⟩

theorem keeps_raw {css : String} (hs : d.raw p css = .ok d') :
    d.Keeps d' ∧ d'.slots = d.slots := by
  unfold Document.raw at hs
  split at hs
  · obtain rfl := Except.ok.inj hs
    exact ⟨.update d fun _ => rfl, slots_update _⟩
  · cases hs

theorem keeps_reserveSlot {s : SlotId} (hs : d.reserveSlot p = .ok (d', s)) :
    d.Keeps d' ∧ d'.slots = d.slots ++ [Slot.vacant p] ∧ s = d.slots.length := by
  unfold Document.reserveSlot at hs
  split at hs
  · obtain ⟨hd, hs⟩ := Prod.mk.inj (Except.ok.inj hs)
    have hc : d'.containers = (d.adopt p (.slot d.slots.length)).containers := by rw [← hd]
    have hk : d.Keeps (d.adopt p (.slot d.slots.length)) := .update d fun _ => rfl
    refine ⟨hk.trans (.of_containers hc), ?_, hs.symm⟩
    rw [← hd]
    simp [adopt]
  · cases hs

end AtomicCss.Document
