import AtomicCss.Engine
import AtomicCss.Proofs.Block
import AtomicCss.Proofs.Document.Keeps

/-! # Emitting a class

Where a document admits a class, emitting it succeeds, and leads to what `absorb` says: the class
is merged into the selector of the root that has its text, or else becomes a new entry of its slot
(`WellFormed.emit_eq`). -/

namespace AtomicCss

/-- A class with its place: an ordinal of a slot. -/
structure Emission where
  slot : SlotId
  ordinal : Nat
  className : String
  block : Block

namespace Emission

/-- The text of the selector of a class. -/
def text (x : Emission) : String := Text.trimmed (Css.classSelector x.className)

theorem trimmed_text (x : Emission) : Text.trimmed x.text = x.text := Text.trimmed_trimmed _

/-- Classes at the ordinals of a slot from `ordinal` on. -/
def listFrom (slot : SlotId) (ordinal : Nat) : List (String × Block) → List Emission
  | [] => []
  | c :: cs => ⟨slot, ordinal, c.1, c.2⟩ :: listFrom slot (ordinal + 1) cs

theorem mem_listFrom {slot ordinal : Nat} {cs : List (String × Block)} {x : Emission} :
    x ∈ listFrom slot ordinal cs ↔ x.slot = slot ∧
      ∃ i : Nat, x.ordinal = ordinal + i ∧ cs[i]? = some (x.className, x.block) := by
  induction cs generalizing ordinal with
  | nil => simp [listFrom]
  | cons c cs ih =>
    rw [listFrom, List.mem_cons, ih]
    constructor
    · rintro (rfl | ⟨hs, i, ho, hc⟩)
      · exact ⟨rfl, 0, rfl, rfl⟩
      · exact ⟨hs, i + 1, by rw [ho]; omega, hc⟩
    · rintro ⟨hs, i, ho, hc⟩
      cases i with
      | zero =>
        left
        obtain rfl := Option.some.inj hc
        cases x
        cases hs
        cases ho
        rfl
      | succ i =>
        right
        exact ⟨hs, i, by rw [ho]; omega, hc⟩

theorem map_listFrom (slot ordinal : Nat) (cs : List (String × Block)) :
    (listFrom slot ordinal cs).map (fun x => (x.className, x.block)) = cs := by
  induction cs generalizing ordinal with
  | nil => rfl
  | cons c cs ih => rw [listFrom, List.map_cons, ih]

end Emission

namespace Document

variable {d d₀ d' : Document} {x y : Emission} {id j p s ordinal : Nat}

/-! ## One emission -/

/-- Whether a container stands at an ordinal of a slot. -/
def StandsAt (d : Document) (slot : SlotId) (ordinal : Nat) (id : ContainerId) : Prop :=
  ∃ sl, d.slots[slot]? = some sl ∧ (ordinal, id) ∈ sl.entries

/-- The slot of a class belongs to the root, and nothing but the class stands at its ordinal. -/
structure Admits (d : Document) (x : Emission) : Prop where
  slot : (d.slots[x.slot]?).map (·.parent) = some rootId
  own : ∀ {id}, d.StandsAt x.slot x.ordinal id → d.selectorText? id = some x.text

/-- The document with a new container for a class. -/
def sprout (d : Document) (x : Emission) : Document :=
  (((d.insert (.selector x.text) x.block).1.fillSlot x.slot x.ordinal (d.size + 1)).enlist
    rootId x.text (d.size + 1))

/-- The document with a class, and the container of the class. -/
def absorb (d : Document) (x : Emission) : Document × ContainerId :=
  match d.findSelector? rootId x.text with
  | some id => (d.merge id x.block, id)
  | none => (d.sprout x, d.size + 1)

/-- A class whose selector is found is merged into it. -/
theorem absorb_of_found (hfind : d.findSelector? rootId x.text = some id) :
    d.absorb x = (d.merge id x.block, id) := by
  rw [absorb, hfind]

theorem standsAt_of_at? {sl : Slot} (hsl : d.slots[s]? = some sl)
    (hid : sl.at? ordinal = some id) : d.StandsAt s ordinal id := by
  obtain ⟨e, he, rfl⟩ := Option.map_eq_some_iff.1 hid
  have ho : e.1 = ordinal := by simpa using List.find?_some he
  refine ⟨sl, hsl, ?_⟩
  rw [← ho]
  exact List.mem_of_find?_eq_some he

@[simp] theorem standsAt_merge (block : Block) :
    (d.merge j block).StandsAt s ordinal id ↔ d.StandsAt s ordinal id := by
  rw [StandsAt, StandsAt, slots_merge]

theorem WellFormed.mem_below_of_standsAt (h : d.WellFormed) (hs : d.StandsAt s ordinal id)
    (hp : (d.slots[s]?).map (·.parent) = some p) : id ∈ d.below p := by
  obtain ⟨sl, hsl, hid⟩ := hs
  rw [hsl, Option.map_some, Option.some.injEq] at hp
  rw [← hp]
  exact h.mem_below_of_slot hsl (List.mem_map_of_mem hid)

theorem WellFormed.le_size_of_standsAt (h : d.WellFormed) (hs : d.StandsAt s ordinal id) :
    id ≤ d.size := by
  obtain ⟨sl, hsl, hid⟩ := hs
  have hbelow := h.mem_below_of_slot hsl (List.mem_map_of_mem hid)
  exact (contains_iff.1 (h.contains_of_mem_below hbelow)).2

/-- Where a class is admitted, emitting it succeeds. -/
theorem WellFormed.emit_eq (h : d.WellFormed) (hx : d.Admits x) :
    d.emit x.slot x.ordinal x.className x.block = .ok (d.absorb x) := by
  obtain ⟨sl, hsl, hroot⟩ := Option.map_eq_some_iff.1 hx.slot
  -- the entry at the ordinal is the selector that the search by text would find
  have hfind : (sl.at? x.ordinal).or
      (d.findSelector? sl.parent (Css.classSelector x.className)) =
      d.findSelector? rootId x.text := by
    have htrim : d.findSelector? rootId x.text =
        d.findSelector? rootId (Css.classSelector x.className) := by
      rw [findSelector?, findSelector?, x.trimmed_text, Emission.text]
    cases he : sl.at? x.ordinal with
    | none => rw [Option.none_or, hroot, htrim]
    | some id =>
      have hat := standsAt_of_at? hsl he
      rw [Option.some_or, eq_comm, htrim, h.findSelector?_eq_some_iff]
      exact ⟨h.mem_below_of_standsAt hat hx.slot, hx.own hat⟩
  rw [Document.emit, Document.slotSelector, hsl]
  simp only [hfind, Document.absorb]
  cases d.findSelector? rootId x.text with
  | some id => rfl
  | none =>
    simp only [hroot]
    rfl

theorem WellFormed.absorb (h : d.WellFormed) (hx : d.Admits x) : (d.absorb x).1.WellFormed :=
  h.slotSelector (h.emit_eq hx)

/-! ### What a new class changes -/

theorem get?_sprout : (d.sprout x).get? j =
    if j = d.size + 1 then some ⟨.selector x.text, x.block, []⟩ else d.get? j :=
  (get?_congr rfl).trans (get?_insert _ _)

@[simp] theorem size_sprout : (d.sprout x).size = d.size + 1 := size_insert _ _

theorem parents_sprout : (d.sprout x).slots.map (·.parent) = d.slots.map (·.parent) := by
  apply List.ext_getElem?
  intro i
  rw [List.getElem?_map, List.getElem?_map, sprout, enlist, fillSlot, List.getElem?_modify]
  split <;> cases h : d.slots[i]? <;> simp [insert, h, Slot.insert]

/-- Where no selector has the text of an admitted class, nothing stands at its place. -/
theorem WellFormed.not_standsAt (h : d.WellFormed) (hx : d.Admits x)
    (hfind : d.findSelector? rootId x.text = none) : ¬ d.StandsAt x.slot x.ordinal id := by
  intro hat
  apply h.findSelector?_eq_none_iff.1 hfind id (h.mem_below_of_standsAt hat hx.slot)
  rw [hx.own hat, x.trimmed_text]

theorem not_mem_ordinals {sl : Slot} (hsl : d.slots[s]? = some sl)
    (hfree : ∀ id, ¬ d.StandsAt s ordinal id) : ordinal ∉ sl.entries.map (·.1) := by
  intro hmem
  obtain ⟨e, he, ho⟩ := List.mem_map.1 hmem
  apply hfree e.2
  rw [← ho]
  exact ⟨sl, hsl, he⟩

theorem standsAt_sprout (hx : (d.slots[x.slot]?).map (·.parent) = some p)
    (hfree : ∀ id, ¬ d.StandsAt x.slot x.ordinal id) : (d.sprout x).StandsAt s ordinal id ↔
      d.StandsAt s ordinal id ∨ (s = x.slot ∧ ordinal = x.ordinal ∧ id = d.size + 1) := by
  obtain ⟨sl, hsl, -⟩ := Option.map_eq_some_iff.1 hx
  have hnew := not_mem_ordinals hsl hfree
  have hslots : (d.sprout x).slots = d.slots.modify x.slot (·.insert x.ordinal (d.size + 1)) := rfl
  rw [StandsAt, StandsAt, hslots]
  by_cases hs : s = x.slot
  · subst hs
    have hmem : (ordinal, id) ∈ (sl.insert x.ordinal (d.size + 1)).entries ↔
        (ordinal, id) = (x.ordinal, d.size + 1) ∨ (ordinal, id) ∈ sl.entries :=
      (Slot.place_perm hnew).mem_iff.trans List.mem_cons
    rw [Prod.mk.injEq, or_comm] at hmem
    simpa [hsl] using hmem
  · simp [hs, Ne.symm hs]

/-! ### What stays -/

namespace Keeps

theorem sprout (d : Document) (x : Emission) : d.Keeps (d.sprout x) :=
  (insert d (.selector x.text) x.block).trans (of_containers rfl)

theorem absorb (d : Document) (x : Emission) : d.Keeps (d.absorb x).1 := by
  unfold Document.absorb
  split
  · exact merge d x.block
  · exact sprout d x

end Keeps

theorem parents_absorb : (d.absorb x).1.slots.map (·.parent) = d.slots.map (·.parent) := by
  unfold absorb
  split
  · rw [slots_merge]
  · exact parents_sprout

/-- After an emission, the class is the only container that may newly stand in a slot. -/
theorem WellFormed.standsAt_absorb (h : d.WellFormed) (hx : d.Admits x)
    (hat : (d.absorb x).1.StandsAt s ordinal id) : d.StandsAt s ordinal id ∨
      (s = x.slot ∧ ordinal = x.ordinal ∧ (d.absorb x).1.selectorText? id = some x.text) := by
  unfold Document.absorb at hat ⊢
  split at hat
  case h_1 =>
    left
    exact (standsAt_merge _).1 hat
  case h_2 hfind =>
    rw [standsAt_sprout hx.slot fun _ => h.not_standsAt hx hfind] at hat
    rcases hat with hold | ⟨hs, ho, hid⟩
    · left
      exact hold
    · right
      refine ⟨hs, ho, ?_⟩
      rw [selectorText?, get?_sprout, if_pos hid]
      rfl

/-! ## Emissions in turn -/

/-- The document with some classes. -/
def absorbAll (d : Document) (xs : List Emission) : Document :=
  xs.foldl (fun d x => (d.absorb x).1) d

/-- The containers of classes that are emitted in turn. -/
def landings (d : Document) : List Emission → List ContainerId
  | [] => []
  | x :: xs => (d.absorb x).2 :: (d.absorb x).1.landings xs

/-- Every class is admitted when its turn comes. -/
def AdmitsAll (d : Document) : List Emission → Prop
  | [] => True
  | x :: xs => d.WellFormed ∧ d.Admits x ∧ (d.absorb x).1.AdmitsAll xs

/-- What holds at first and after every emission is all that the admission of classes needs. -/
theorem admitsAll_of_step {I : Document → Prop} {xs : List Emission} (h : I d)
    (step : ∀ d x, x ∈ xs → I d → d.WellFormed ∧ d.Admits x ∧ I (d.absorb x).1) :
    d.AdmitsAll xs ∧ I (d.absorbAll xs) := by
  induction xs generalizing d with
  | nil => exact ⟨trivial, h⟩
  | cons x xs ih =>
    obtain ⟨hw, hx, hI⟩ := step d x List.mem_cons_self h
    have hrest : ∀ d y, y ∈ xs → I d → d.WellFormed ∧ d.Admits y ∧ I (d.absorb y).1 := by
      intro d y hy
      exact step d y (List.mem_cons_of_mem _ hy)
    obtain ⟨ha, hI⟩ := ih hI hrest
    exact ⟨⟨hw, hx, ha⟩, hI⟩

theorem admitsAll_append {xs ys : List Emission} (h : d.AdmitsAll xs)
    (h' : (d.absorbAll xs).AdmitsAll ys) : d.AdmitsAll (xs ++ ys) := by
  induction xs generalizing d with
  | nil => exact h'
  | cons x xs ih => exact ⟨h.1, h.2.1, ih h.2.2 h'⟩

theorem absorbAll_append (xs ys : List Emission) :
    d.absorbAll (xs ++ ys) = (d.absorbAll xs).absorbAll ys :=
  List.foldl_append

theorem emitAll_eq {slot : SlotId} {cs : List (String × Block)}
    (h : d.AdmitsAll (Emission.listFrom slot ordinal cs)) : d.emitAll slot ordinal cs =
      .ok (d.absorbAll (Emission.listFrom slot ordinal cs),
        d.landings (Emission.listFrom slot ordinal cs)) := by
  induction cs generalizing d ordinal with
  | nil => rfl
  | cons c cs ih =>
    obtain ⟨hw, hx, ha⟩ := h
    have hemit := hw.emit_eq hx
    rw [emitAll]
    simp only [hemit, bind, Except.bind, ih ha]
    rfl

/-! ### Where classes land -/

/-- The container in which a class lands is a selector with its text that has its declarations. -/
theorem WellFormed.landing (h : d.WellFormed) (x : Emission) :
    ∃ c, (d.absorb x).1.get? (d.absorb x).2 = some c ∧ c.kind = .selector x.text ∧
      ∀ p ∈ x.block.declarations, p ∈ c.block.declarations := by
  unfold Document.absorb
  cases hfind : d.findSelector? rootId x.text with
  | none =>
    refine ⟨_, by rw [get?_sprout, if_pos rfl], rfl, ?_⟩
    intro p hp
    exact hp
  | some id =>
    obtain ⟨-, ht⟩ := h.findSelector?_eq_some_iff.1 hfind
    obtain ⟨c, hc, ht⟩ := Option.bind_eq_some_iff.1 ht
    refine ⟨{ c with block := (c.block.merge x.block).1 }, ?_, ?_, ?_⟩
    · rw [get?_merge, if_pos rfl, hc]
      rfl
    · cases hk : c.kind with
      | selector text =>
        rw [hk, Kind.selectorText?, x.trimmed_text, Option.some.injEq] at ht
        rw [ht]
      | _ =>
        rw [hk] at ht
        cases ht
    · intro p hp
      exact Block.mem_merge hp

theorem Keeps.absorbAll (d : Document) (xs : List Emission) : d.Keeps (d.absorbAll xs) := by
  induction xs generalizing d with
  | nil => exact refl d
  | cons x xs ih => exact (absorb d x).trans (ih _)

/-- Every class lands in a selector with its text. -/
theorem AdmitsAll.selectorText?_landings {xs : List Emission} (h : d.AdmitsAll xs) :
    (d.landings xs).map (d.absorbAll xs).selectorText? = xs.map fun x => some x.text := by
  induction xs generalizing d with
  | nil => rfl
  | cons x xs ih =>
    obtain ⟨hw, -, ha⟩ := h
    obtain ⟨c, hc, hk, -⟩ := hw.landing x
    have hland : (d.absorb x).1.selectorText? (d.absorb x).2 = some x.text := by
      rw [selectorText?, hc, Option.bind_some, hk]
      rfl
    -- the emissions that follow keep the selector
    have hkeeps := (Keeps.absorbAll (d.absorb x).1 xs).selectorText? hland
    rw [landings, List.map_cons, List.map_cons]
    exact congrArg₂ List.cons hkeeps (ih ha)

end Document

end AtomicCss
