import AtomicCss.Proofs.Document.WellFormed

/-! # The calls of a document

Whatever is called, and with whatever arguments, a document that started with the root alone stays
well-formed (`wellFormed_run`). A call that fails leaves the document as it is. -/

namespace AtomicCss.Document

variable {d d' : Document} {id j p q : Nat}

/-! ## The two routes of a new container -/

theorem get?_congr (h : d'.containers = d.containers) : d'.get? j = d.get? j := by
  cases j with
  | zero => rfl
  | succ n => exact congrArg (·[n]?) h

theorem get?_eq_none (h : d.size < j) : d.get? j = none := by
  rw [← Option.not_isSome_iff_eq_none]
  intro hsome
  have := (contains_iff.1 hsome).2
  omega

theorem placed_insert (kind : Kind) (block : Block) : (d.insert kind block).1.placed = d.placed := by
  simp [placed, insert]

theorem slotPlaces_insert (kind : Kind) (block : Block) :
    (d.insert kind block).1.slotPlaces = d.slotPlaces := by
  simp [slotPlaces, insert]

/-- A new container among the children of `p`. -/
theorem grafted_adopt (kind : Kind) (block : Block) (hp : d.contains p = true)
    (hc : d'.containers =
      ((d.insert kind block).1.adopt p (.container (d.size + 1))).containers)
    (hs : d'.slots = d.slots)
    (hi : d'.index = (kind.selectorText?.map fun text => ((p, text), d.size + 1)).toList ++ d.index) :
    Grafted d d' p kind := by
  obtain ⟨c, hget⟩ := get?_of_contains hp
  have hp2 := (get?_eq_some_size hget).2
  obtain ⟨n, rfl, hcn⟩ := get?_eq_some_iff.1 hget
  have hn : (d.insert kind block).1.containers[n]? = some c := by
    rw [insert, List.getElem?_append_left hp2]
    exact hcn
  have hget' (j : Nat) : d'.get? j =
      if j = n + 1 then some { c with children := c.children ++ [.container (d.size + 1)] }
      else (d.insert kind block).1.get? j := by
    rw [get?_congr hc, adopt, get?_update]
    split
    · rename_i hj
      rw [hj, show (d.insert kind block).1.get? (n + 1) = some c from hn]
      rfl
    · rfl
  refine ⟨?size, ?kinds, ?placed, ?slotPlaces, by rw [hs], ?slotChildren, ?below, hi⟩
  case size =>
    rw [size, hc]
    exact (size_update _).trans (size_insert _ _)
  case kinds =>
    intro j
    rw [hget', get?_insert]
    by_cases hj : j = n + 1
    · rw [if_pos hj, if_neg (by omega), hj, hget]
      rfl
    · rw [if_neg hj]
      split <;> rfl
  case placed =>
    rw [placed, hc, hs]
    refine ((flatMap_modify_perm [d.size + 1] hn ?_).append_right _).trans ?_
    · rw [List.filterMap_append]
      exact List.perm_append_comm
    · rw [List.append_assoc, ← placed_insert (d := d) kind block]
      rfl
  case slotPlaces =>
    rw [slotPlaces, hc, ← slotPlaces_insert (d := d) kind block]
    apply flatMap_modify_eq
    intro c
    simp [Child.slot?]
  case slotChildren =>
    intro q c' s hq hmem
    rw [hget'] at hq
    split at hq
    · rename_i hj
      obtain rfl := Option.some.inj hq
      rw [hj]
      exact ⟨c, hget, by simpa using hmem⟩
    · rw [get?_insert] at hq
      split at hq
      · obtain rfl := Option.some.inj hq
        simp at hmem
      · exact ⟨c', hq, hmem⟩
  case below =>
    intro q j
    -- `q` is the container that gets the new child, the new container itself, or another one
    rw [mem_below, mem_below, hs]
    simp only [hget', get?_insert]
    by_cases hq : q = n + 1
    · subst hq
      rw [if_pos rfl]
      simp only [hget, Option.some.injEq, exists_eq_left', List.mem_append, List.mem_singleton,
        Child.container.injEq, reduceCtorEq, or_false, true_and]
      exact or_right_comm
    · by_cases hnew : q = d.size + 1
      · rw [if_neg hq, if_pos hnew, get?_eq_none (by omega)]
        simp [hq]
      · rw [if_neg hq, if_neg hnew]
        simp [hq]

/-- Filling a free place of a slot puts one container there. -/
theorem exists_mem_ids_modify {slots : List Slot} {s i ordinal : Nat} {sl : Slot}
    (hsl : slots[s]? = some sl) (hfree : sl.at? ordinal = none) :
    (∃ x, (slots.modify s fun x => x.insert ordinal id)[i]? = some x ∧ j ∈ x.ids) ↔
      (∃ x, slots[i]? = some x ∧ j ∈ x.ids) ∨ (i = s ∧ j = id) := by
  rw [List.getElem?_modify]
  by_cases hi : s = i
  · subst hi
    simp [hsl, (Slot.ids_insert hfree).mem_iff, or_comm]
  · simp [hi, Ne.symm hi]

/-- A new container in a slot of `p`. -/
theorem grafted_fillSlot (kind : Kind) (block : Block) {s ordinal : Nat} {sl : Slot}
    (h : d.WellFormed) (hsl : d.slots[s]? = some sl) (hfree : sl.at? ordinal = none)
    (hc : d'.containers = (d.insert kind block).1.containers)
    (hs : d'.slots = d.slots.modify s fun sl => sl.insert ordinal (d.size + 1))
    (hi : d'.index =
      (kind.selectorText?.map fun text => ((sl.parent, text), d.size + 1)).toList ++ d.index) :
    Grafted d d' sl.parent kind := by
  have hget (j : Nat) : d'.get? j =
      if j = d.size + 1 then some ⟨kind, block, []⟩ else d.get? j := by
    rw [get?_congr hc, get?_insert]
  refine ⟨?size, ?kinds, ?placed, ?slotPlaces, ?slotParents, ?slotChildren, ?below, hi⟩
  case size =>
    rw [size, hc]
    exact size_insert _ _
  case kinds =>
    intro j
    rw [hget]
    split <;> rfl
  case placed =>
    have hcs := placed_insert (d := d) kind block
    rw [placed, hc, hs]
    refine ((flatMap_modify_perm [d.size + 1] hsl (Slot.ids_insert hfree)).append_left _).trans ?_
    rw [← List.append_assoc, ← hcs]
    exact (List.perm_append_comm.append_right _).trans (.of_eq (by simp [placed, insert]))
  case slotPlaces =>
    rw [slotPlaces, hc]
    exact slotPlaces_insert kind block
  case slotParents =>
    rw [hs]
    apply List.ext_getElem?
    intro i
    rw [List.getElem?_map, List.getElem?_map, List.getElem?_modify]
    split <;> cases d.slots[i]? <;> rfl
  case slotChildren =>
    intro q c' s' hq hmem
    rw [hget] at hq
    split at hq
    · obtain rfl := Option.some.inj hq
      simp at hmem
    · exact ⟨c', hq, hmem⟩
  case below =>
    intro q j
    obtain ⟨cp, hcp, hslot⟩ := h.slot_mem_children hsl
    rw [mem_below, mem_below, hs]
    simp only [exists_and_left, exists_mem_ids_modify hsl hfree, hget]
    by_cases hq : q = d.size + 1
    · have hne : d.size + 1 ≠ sl.parent := by
        have := (get?_eq_some_size hcp).2
        omega
      rw [if_pos hq, hq, get?_eq_none (Nat.lt_succ_self _)]
      simp [hne]
    · rw [if_neg hq]
      cases hc : d.get? q with
      | none =>
        have hne : q ≠ sl.parent := by
          rintro rfl
          simp [hcp] at hc
        simp [hne]
      | some c =>
        -- the slot hangs under its parent and nowhere else
        have hplace : .slot s ∈ c.children ↔ q = sl.parent := by
          constructor
          · intro hchild
            simpa [hsl] using (h.parents hc hchild).symm
          · rintro rfl
            rw [← Option.some.inj (hcp.symm.trans hc)]
            exact hslot
        simp [and_or_left, exists_or, hplace, or_assoc, ← and_assoc]

/-! ## Slots -/

/-- The document with a new slot behind the children of `p`. -/
def reserved (d : Document) (p : ContainerId) : Document :=
  { d.adopt p (.slot d.slots.length) with slots := d.slots ++ [Slot.vacant p] }

theorem get?_reserved : (d.reserved p).get? j =
    if j = p then (d.get? j).map fun c => { c with children := c.children ++ [.slot d.slots.length] }
    else d.get? j :=
  get?_update _

theorem kind?_reserved : ((d.reserved p).get? j).map (·.kind) = (d.get? j).map (·.kind) := by
  rw [get?_reserved]
  split
  · rw [Option.map_map]
    rfl
  · rfl

theorem index_reserved : (d.reserved p).index = d.index := index_update _

theorem placed_reserved : (d.reserved p).placed = d.placed := by
  have hslots : (d.slots ++ [Slot.vacant p]).flatMap Slot.ids = d.slots.flatMap Slot.ids := by
    rw [List.flatMap_append]
    exact List.append_nil _
  have hcontainers : (d.reserved p).containers.flatMap (·.children.filterMap Child.container?) =
      d.containers.flatMap (·.children.filterMap Child.container?) := by
    cases p with
    | zero => rfl
    | succ n =>
      apply flatMap_modify_eq
      intro c
      simp [Child.container?]
  exact congrArg₂ (· ++ ·) hcontainers hslots

theorem slotPlaces_reserved (hp : d.contains p = true) :
    (d.reserved p).slotPlaces.Perm ([d.slots.length] ++ d.slotPlaces) := by
  obtain ⟨c, hc⟩ := get?_of_contains hp
  obtain ⟨n, rfl, hn⟩ := get?_eq_some_iff.1 hc
  refine flatMap_modify_perm _ hn ?_
  rw [List.filterMap_append]
  exact List.perm_append_comm

/-- Nothing stands in a vacant slot. -/
theorem exists_mem_ids_append_vacant {slots : List Slot} {s : Nat} :
    (∃ sl, (slots ++ [Slot.vacant p])[s]? = some sl ∧ j ∈ sl.ids) ↔
      ∃ sl, slots[s]? = some sl ∧ j ∈ sl.ids := by
  constructor
  · rintro ⟨sl, hsl, hj⟩
    rw [List.getElem?_append] at hsl
    split at hsl
    · exact ⟨sl, hsl, hj⟩
    · obtain rfl := List.mem_singleton.1 (List.mem_of_getElem? hsl)
      simp [Slot.ids, Slot.vacant] at hj
  · rintro ⟨sl, hsl, hj⟩
    rw [List.getElem?_append_left (List.getElem?_eq_some_iff.1 hsl).1]
    exact ⟨sl, hsl, hj⟩

theorem mem_below_reserved : j ∈ (d.reserved p).below q ↔ j ∈ d.below q := by
  rw [mem_below, mem_below]
  simp only [exists_and_left]
  rw [show (d.reserved p).slots = d.slots ++ [Slot.vacant p] from rfl]
  simp only [exists_mem_ids_append_vacant, get?_reserved]
  by_cases hq : q = p
  · rw [if_pos hq]
    cases d.get? q with
    | none => simp
    | some c => simp [or_and_right, exists_or]
  · rw [if_neg hq]

/-- A new slot leaves the places of containers as they are, for nothing stands in it yet. -/
theorem WellFormed.reserved (h : d.WellFormed) (hp : d.contains p = true) :
    (d.reserved p).WellFormed where
  root := by rw [kind?_reserved, h.root]
  placed := by
    rw [placed_reserved, show (d.reserved p).size = d.size from size_update _]
    exact h.placed
  slotted := by
    rw [show (d.reserved p).slots = d.slots ++ [Slot.vacant p] from rfl, List.length_append,
      List.length_singleton, List.range_succ]
    exact (slotPlaces_reserved hp).trans ((h.slotted.append_left _).trans List.perm_append_comm)
  parents := by
    intro q c' s hq hs
    show ((d.slots ++ [Slot.vacant p])[s]?).map (·.parent) = some q
    have hold {c : Container} (hc : d.get? q = some c) (hs : .slot s ∈ c.children) :
        ((d.slots ++ [Slot.vacant p])[s]?).map (·.parent) = some q := by
      rw [List.getElem?_append_left (h.lt_length_of_slot_mem hc hs)]
      exact h.parents hc hs
    rw [get?_reserved] at hq
    split at hq
    · rename_i hqp
      obtain ⟨c, hc, rfl⟩ := Option.map_eq_some_iff.1 hq
      rcases List.mem_append.1 hs with hs | hs
      · exact hold hc hs
      · obtain rfl : s = d.slots.length := by simpa using hs
        simp [Slot.vacant, hqp]
    · exact hold hq hs
  younger := by
    intro q j hj
    exact h.younger (mem_below_reserved.1 hj)
  indexed := by
    intro q text id
    rw [index_reserved, mem_below_reserved, selectorText?_eq_bind, kind?_reserved,
      ← selectorText?_eq_bind]
    exact h.indexed
  keys := by
    rw [index_reserved]
    exact h.keys

theorem reserveSlot_eq (hp : d.contains p = true) :
    d.reserveSlot p = .ok (d.reserved p, d.slots.length) := by
  have hslots : (d.adopt p (.slot d.slots.length)).slots = d.slots := slots_update _
  rw [Document.reserveSlot, if_pos hp]
  simp only [hslots, Document.reserved]

theorem WellFormed.reserveSlot (h : d.WellFormed) {s : SlotId}
    (hr : d.reserveSlot p = .ok (d', s)) : d'.WellFormed := by
  by_cases hp : d.contains p = true
  · rw [reserveSlot_eq hp] at hr
    obtain ⟨rfl, -⟩ := Prod.mk.inj (Except.ok.inj hr)
    exact h.reserved hp
  · rw [Document.reserveSlot, if_neg hp] at hr
    cases hr

/-! ## Selectors and at-rules -/

/-- A search that finds nothing leaves the text free in the index. -/
theorem key_not_mem_of_findSelector? {text : String} (h : d.findSelector? p text = none) :
    (p, Text.trimmed text) ∉ d.index.map (·.1) := by
  rw [findSelector?, Option.map_eq_none_iff, List.find?_eq_none] at h
  intro hmem
  obtain ⟨x, hx, hkey⟩ := List.mem_map.1 hmem
  apply h x hx
  simpa using hkey

theorem WellFormed.selector (h : d.WellFormed) {text : String} {block : Block}
    (hs : d.selector p text block = .ok (d', id)) : d'.WellFormed := by
  unfold Document.selector at hs
  split at hs
  case isFalse => cases hs
  case isTrue hp =>
    split at hs
    case h_1 i hfind =>
      obtain ⟨rfl, rfl⟩ : d.merge i block = d' ∧ i = id := by simpa using hs
      exact h.merge i block
    case h_2 hfind =>
      obtain ⟨rfl, rfl⟩ := Prod.mk.inj (Except.ok.inj hs)
      refine h.graft (grafted_adopt (.selector (Text.trimmed text)) block hp rfl ?_ ?_) hp ?_
      · simp [enlist, adopt]
      · simp [enlist, adopt, Kind.selectorText?]
      · intro t ht
        obtain rfl : Text.trimmed text = t := by simpa [Kind.selectorText?] using ht
        exact key_not_mem_of_findSelector? hfind

theorem WellFormed.nested (h : d.WellFormed) {kind : Kind} (hk : kind.selectorText? = none)
    (hs : d.nested p kind = .ok (d', id)) : d'.WellFormed := by
  unfold Document.nested at hs
  split at hs
  case isFalse => cases hs
  case isTrue hp =>
    obtain ⟨rfl, rfl⟩ := Prod.mk.inj (Except.ok.inj hs)
    refine h.graft (grafted_adopt kind ∅ hp rfl ?_ ?_) hp ?_
    · simp [adopt]
    · simp [adopt, hk]
    · intro t ht
      rw [hk] at ht
      cases ht

theorem WellFormed.raw (h : d.WellFormed) {css : String} (hs : d.raw p css = .ok d') :
    d'.WellFormed := by
  unfold Document.raw at hs
  split at hs
  · obtain rfl := Except.ok.inj hs
    exact h.update (keepsShape_raw css)
  · cases hs

theorem WellFormed.mergeInto (h : d.WellFormed) {block : Block}
    (hs : d.mergeInto id block = .ok d') : d'.WellFormed := by
  unfold Document.mergeInto at hs
  split at hs
  · obtain rfl := Except.ok.inj hs
    exact h.merge id block
  · cases hs

theorem WellFormed.slotSelector (h : d.WellFormed) {s : SlotId} {ordinal : Nat} {text : String}
    {block : Block} (hs : d.slotSelector s ordinal text block = .ok (d', id)) : d'.WellFormed := by
  unfold Document.slotSelector at hs
  split at hs
  case h_1 => cases hs
  case h_2 sl hsl =>
    split at hs
    case h_1 i hfind =>
      obtain ⟨rfl, rfl⟩ : d.merge i block = d' ∧ i = id := by simpa using hs
      exact h.merge i block
    case h_2 hnone =>
      obtain ⟨rfl, rfl⟩ := Prod.mk.inj (Except.ok.inj hs)
      obtain ⟨hentry, hfind⟩ := Option.or_eq_none_iff.1 hnone
      obtain ⟨c, hc, -⟩ := h.slot_mem_children hsl
      refine h.graft (grafted_fillSlot (.selector (Text.trimmed text)) block h hsl hentry rfl rfl
        rfl) ?_ ?_
      · simp [contains, hc]
      · intro t ht
        obtain rfl : Text.trimmed text = t := by simpa [Kind.selectorText?] using ht
        exact key_not_mem_of_findSelector? hfind

/-! ## Sequences of calls -/

/-- A call that changes a document. -/
inductive Call where
  | selector (parent : ContainerId) (text : String) (block : Block)
  | media (parent : ContainerId) (query : String)
  | keyframes (parent : ContainerId) (name : String)
  | raw (parent : ContainerId) (css : String)
  | mergeInto (id : ContainerId) (block : Block)
  | reserveSlot (parent : ContainerId)
  | slotSelector (slot : SlotId) (ordinal : Nat) (text : String) (block : Block)
  | clearWarnings

/-- What a call answers: the changed document, or why it fails. -/
def answer (d : Document) : Call → Except Error Document
  | .selector parent text block => (d.selector parent text block).map (·.1)
  | .media parent query => (d.media parent query).map (·.1)
  | .keyframes parent name => (d.keyframes parent name).map (·.1)
  | .raw parent css => d.raw parent css
  | .mergeInto id block => d.mergeInto id block
  | .reserveSlot parent => (d.reserveSlot parent).map (·.1)
  | .slotSelector slot ordinal text block => (d.slotSelector slot ordinal text block).map (·.1)
  | .clearWarnings => .ok d.clearWarnings

/-- The document behind a call. One that fails changes nothing. -/
def call (d : Document) (c : Call) : Document :=
  match d.answer c with
  | .ok d' => d'
  | .error _ => d

/-- The document behind some calls. -/
def run (d : Document) (calls : List Call) : Document := calls.foldl call d

theorem map_fst_eq_ok {α β ε : Type} {r : Except ε (α × β)} {a : α} (h : r.map (·.1) = .ok a) :
    ∃ b, r = .ok (a, b) := by
  cases r with
  | error e => cases h
  | ok x => exact ⟨x.2, by cases h; rfl⟩

/-- One call keeps a document well-formed. -/
theorem WellFormed.call (h : d.WellFormed) (c : Call) : (d.call c).WellFormed := by
  unfold Document.call
  split
  case h_2 => exact h
  case h_1 d' hd =>
    cases c with
    | selector p text block =>
      obtain ⟨id, hs⟩ := map_fst_eq_ok hd
      exact h.selector hs
    | media p query =>
      obtain ⟨id, hs⟩ := map_fst_eq_ok hd
      exact h.nested rfl hs
    | keyframes p name =>
      obtain ⟨id, hs⟩ := map_fst_eq_ok hd
      exact h.nested rfl hs
    | raw p css => exact h.raw hd
    | mergeInto id block => exact h.mergeInto hd
    | reserveSlot p =>
      obtain ⟨s, hs⟩ := map_fst_eq_ok hd
      exact h.reserveSlot hs
    | slotSelector s ordinal text block =>
      obtain ⟨id, hs⟩ := map_fst_eq_ok hd
      exact h.slotSelector hs
    | clearWarnings =>
      obtain rfl := Except.ok.inj hd
      exact h.warnings []

/-- **Every document that calls lead to is well-formed.** -/
theorem wellFormed_run (calls : List Call) : (empty.run calls).WellFormed := by
  -- the calls may start from any well-formed document
  have (d : Document) (h : d.WellFormed) : (d.run calls).WellFormed := by
    induction calls generalizing d with
    | nil => exact h
    | cons c calls ih => exact ih _ (h.call c)
  exact this empty wellFormed_empty

end AtomicCss.Document
