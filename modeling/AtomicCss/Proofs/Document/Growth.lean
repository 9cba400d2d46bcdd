import AtomicCss.Proofs.Block
import AtomicCss.Proofs.Document.Emission
import AtomicCss.Proofs.Document.Tree
import AtomicCss.Proofs.Sheet
import Mathlib.Data.List.Sort
import Mathlib.Data.Set.Insert

/-! # Emitting many classes

What some emissions make of a document depends on the set of the emitted classes alone, and not on
their order or on how often each came: `Grown` says what it is, up to the numbers of the new
containers. One emission keeps to it (`Grown.absorb`), and documents in which the same can be found
under other numbers have the same sheet (`Parallel.sheet_eq`, `Grown.sheet_eq`). -/

namespace AtomicCss.Document

variable {d d₀ d' : Document} {P S : Set Emission} {x y : Emission} {id j p s ordinal : Nat}

/-- A document that admits a set of classes, of which no two share a text or a place. -/
structure Prepared (d : Document) (P : Set Emission) : Prop where
  wellFormed : d.WellFormed
  admits : ∀ x ∈ P, d.Admits x
  texts : ∀ x ∈ P, ∀ y ∈ P, x.text = y.text → x = y
  places : ∀ x ∈ P, ∀ y ∈ P, x.slot = y.slot → x.ordinal = y.ordinal → x = y

/-- A container of `d` that a class has to itself, since `d₀` had none for it. -/
structure Fresh (d₀ d : Document) (x : Emission) (id : Nat) : Prop where
  unknown : d₀.findSelector? rootId x.text = none
  younger : d₀.size < id
  get : d.get? id = some ⟨.selector x.text, x.block, []⟩

/-- `d` is `d₀` after the classes in `S` were emitted. -/
structure Grown (d₀ : Document) (S : Set Emission) (d : Document) : Prop where
  wellFormed : d.WellFormed
  size_le : d₀.size ≤ d.size
  /-- A class whose text the root had a selector for was merged into that. -/
  met : ∀ {x id c}, x ∈ S → d₀.findSelector? rootId x.text = some id → d₀.get? id = some c →
    d.get? id = some { c with block := (c.block.merge x.block).1 }
  unmet : ∀ {id c}, (∀ x ∈ S, d₀.findSelector? rootId x.text ≠ some id) → d₀.get? id = some c →
    d.get? id = some c
  parents : d.slots.map (·.parent) = d₀.slots.map (·.parent)
  kept : ∀ {s ordinal id}, d₀.StandsAt s ordinal id → d.StandsAt s ordinal id
  entries : ∀ {s ordinal id}, d.StandsAt s ordinal id → d₀.StandsAt s ordinal id ∨
    ∃ x ∈ S, x.slot = s ∧ x.ordinal = ordinal ∧ d₀.Fresh d x id
  /-- Every other class has a container of its own, which stands at the place of the class. -/
  present : ∀ x ∈ S, d₀.findSelector? rootId x.text = none →
    ∃ id, d₀.Fresh d x id ∧ d.StandsAt x.slot x.ordinal id

theorem Prepared.grown (h : d.Prepared P) : d.Grown ∅ d where
  wellFormed := h.wellFormed
  size_le := Nat.le_refl _
  met hx := absurd hx (Set.notMem_empty _)
  unmet _ hc := hc
  parents := rfl
  kept := id
  entries := .inl
  present x hx := absurd hx (Set.notMem_empty x)

theorem Fresh.congr {d' : Document} (h : d₀.Fresh d x id) (hid : d'.get? id = d.get? id) :
    d₀.Fresh d' x id :=
  ⟨h.unknown, h.younger, hid.trans h.get⟩

namespace Grown

/-! ## Old containers -/

theorem get?_old (h : d₀.Grown S d) {c : Container} (hc : d₀.get? id = some c) :
    ∃ b, d.get? id = some { c with block := b } := by
  by_cases hmet : ∃ x ∈ S, d₀.findSelector? rootId x.text = some id
  · obtain ⟨x, hx, hfind⟩ := hmet
    exact ⟨_, h.met hx hfind hc⟩
  · refine ⟨_, h.unmet ?_ hc⟩
    intro x hx hfind
    exact hmet ⟨x, hx, hfind⟩

/-- Documents that grew alike agree in the old containers. -/
theorem get?_eq (h : d₀.Grown S d) (h' : d₀.Grown S d') {c : Container}
    (hc : d₀.get? id = some c) : d.get? id = d'.get? id := by
  by_cases hmet : ∃ x ∈ S, d₀.findSelector? rootId x.text = some id
  · obtain ⟨x, hx, hfind⟩ := hmet
    rw [h.met hx hfind hc, h'.met hx hfind hc]
  · have hunmet : ∀ x ∈ S, d₀.findSelector? rootId x.text ≠ some id := by
      intro x hx hfind
      exact hmet ⟨x, hx, hfind⟩
    rw [h.unmet hunmet hc, h'.unmet hunmet hc]

theorem keeps (h : d₀.Grown S d) : d₀.Keeps d where
  kind hk := by
    obtain ⟨c, hc, hk⟩ := Option.map_eq_some_iff.1 hk
    obtain ⟨b, hb⟩ := h.get?_old hc
    rw [hb, Option.map_some, ← hk]

theorem mem_below_of_old (h : d₀.Grown S d) (hj : j ∈ d₀.below p) : j ∈ d.below p := by
  obtain ⟨c, hc, hj⟩ := mem_below.1 hj
  obtain ⟨b, hb⟩ := h.get?_old hc
  refine mem_below.2 ⟨_, hb, hj.imp_right ?_⟩
  rintro ⟨s, sl₀, hs, hsl₀, hj⟩
  obtain ⟨e, he, rfl⟩ := List.mem_map.1 hj
  obtain ⟨sl, hsl, he⟩ := h.kept ⟨sl₀, hsl₀, he⟩
  exact ⟨s, sl, hs, hsl, List.mem_map_of_mem he⟩

/-- Under an old container there are old containers and containers of new classes. -/
theorem mem_below (h : d₀.Grown S d) (hp : d₀.contains p = true) (hj : j ∈ d.below p) :
    j ∈ d₀.below p ∨ ∃ x ∈ S, d₀.Fresh d x j := by
  obtain ⟨c, hc⟩ := get?_of_contains hp
  obtain ⟨b, hb⟩ := h.get?_old hc
  obtain ⟨c', hc', hj⟩ := Document.mem_below.1 hj
  obtain rfl := Option.some.inj (hb.symm.trans hc')
  rcases hj with hj | ⟨s, sl, hs, hsl, hj⟩
  · left
    exact Document.mem_below.2 ⟨c, hc, .inl hj⟩
  · obtain ⟨e, he, rfl⟩ := List.mem_map.1 hj
    rcases h.entries ⟨sl, hsl, he⟩ with ⟨sl₀, hsl₀, he⟩ | ⟨x, hx, -, -, hf⟩
    · left
      exact Document.mem_below.2 ⟨c, hc, .inr ⟨s, sl₀, hs, hsl₀, List.mem_map_of_mem he⟩⟩
    · right
      exact ⟨x, hx, hf⟩

/-! ## Finding selectors -/

theorem findSelector?_of_old (h0 : d₀.WellFormed) (h : d₀.Grown S d) {text : String}
    (hfind : d₀.findSelector? p text = some id) : d.findSelector? p text = some id := by
  rw [h0.findSelector?_eq_some_iff] at hfind
  rw [h.wellFormed.findSelector?_eq_some_iff]
  exact ⟨h.mem_below_of_old hfind.1, h.keeps.selectorText? hfind.2⟩

theorem admits (hP : d₀.Prepared P) (hS : S ⊆ P) (h : d₀.Grown S d) (hx : x ∈ P) :
    d.Admits x where
  slot := by rw [← List.getElem?_map, h.parents, List.getElem?_map, (hP.admits x hx).slot]
  own := by
    intro id hat
    rcases h.entries hat with hold | ⟨y, hy, hs, ho, hf⟩
    · exact h.keeps.selectorText? ((hP.admits x hx).own hold)
    · rw [← hP.places y (hS hy) x hx hs ho, selectorText?, hf.get]
      rfl

/-- A selector with the text of a class that `d₀` had none for is the class's own. -/
theorem fresh_of_find (hP : d₀.Prepared P) (hS : S ⊆ P) (h : d₀.Grown S d) (hx : x ∈ P)
    (hnone : d₀.findSelector? rootId x.text = none) (hfind : d.findSelector? rootId x.text = some id) :
    x ∈ S ∧ d₀.Fresh d x id := by
  obtain ⟨hb, ht⟩ := h.wellFormed.findSelector?_eq_some_iff.1 hfind
  rcases h.mem_below hP.wellFormed.contains_root hb with hold | ⟨y, hy, hf⟩
  · exfalso
    apply hP.wellFormed.findSelector?_eq_none_iff.1 hnone id hold
    obtain ⟨c, hc⟩ := get?_of_contains (hP.wellFormed.contains_of_mem_below hold)
    have hk := h.keeps.kind (j := id) (by rw [hc]; rfl)
    rw [selectorText?_eq_bind, hk] at ht
    rwa [selectorText?_eq_bind, hc]
  · rw [x.trimmed_text, selectorText?, hf.get] at ht
    obtain rfl := hP.texts y (hS hy) x hx (Option.some.inj ht)
    exact ⟨hy, hf⟩

/-! ## One more emission -/

/-- What is merged into containers of `d₀` alone leaves the rest of a grown document alone. -/
theorem of_get?_eq {T : Set Emission} (h : d₀.Grown S d) (hw : d'.WellFormed)
    (hslots : d'.slots = d.slots) (hsize : d'.size = d.size)
    (hnew : ∀ {j : Nat}, d₀.size < j → d'.get? j = d.get? j)
    (hT : ∀ x, d₀.findSelector? rootId x.text = none → (x ∈ T ↔ x ∈ S))
    (hmet : ∀ {x id c}, x ∈ T → d₀.findSelector? rootId x.text = some id → d₀.get? id = some c →
      d'.get? id = some { c with block := (c.block.merge x.block).1 })
    (hunmet : ∀ {id c}, (∀ x ∈ T, d₀.findSelector? rootId x.text ≠ some id) →
      d₀.get? id = some c → d'.get? id = some c) : d₀.Grown T d' where
  wellFormed := hw
  size_le := by rw [hsize]; exact h.size_le
  met := hmet
  unmet := hunmet
  parents := by rw [hslots, h.parents]
  kept hat := by
    have := h.kept hat
    rwa [StandsAt, ← hslots] at this
  entries hat := by
    rw [StandsAt, hslots] at hat
    refine (h.entries hat).imp_right ?_
    rintro ⟨x, hx, hs, ho, hf⟩
    exact ⟨x, (hT x hf.unknown).2 hx, hs, ho, hf.congr (hnew hf.younger)⟩
  present x hx hnone := by
    obtain ⟨id, hf, hat⟩ := h.present x ((hT x hnone).1 hx) hnone
    rw [StandsAt, ← hslots] at hat
    exact ⟨id, hf.congr (hnew hf.younger), hat⟩

/-- Merging a class into the selector of `d₀` that has its text. -/
theorem merge_old (hP : d₀.Prepared P) (hS : S ⊆ P) (h : d₀.Grown S d) (hx : x ∈ P)
    (hfind : d₀.findSelector? rootId x.text = some id) :
    d₀.Grown (Insert.insert x S) (d.merge id x.block) := by
  have hid : id ≤ d₀.size := by
    have hb := (hP.wellFormed.findSelector?_eq_some_iff.1 hfind).1
    exact (contains_iff.1 (hP.wellFormed.contains_of_mem_below hb)).2
  -- no other class is merged into this selector
  have huniq {y : Emission} (hy : y ∈ P) (hyf : d₀.findSelector? rootId y.text = some id) :
      y = x := by
    have hyt := (hP.wellFormed.findSelector?_eq_some_iff.1 hyf).2
    have hxt := (hP.wellFormed.findSelector?_eq_some_iff.1 hfind).2
    rw [Emission.trimmed_text] at hyt hxt
    exact hP.texts y hy x hx (Option.some.inj (hyt.symm.trans hxt))
  refine h.of_get?_eq (h.wellFormed.merge id x.block) (slots_merge _) (size_merge _) ?new ?same
    ?met ?unmet
  case new =>
    intro j hj
    rw [get?_merge, if_neg (by omega)]
  case same =>
    intro y hy
    constructor
    · rintro (rfl | hyS)
      · simp [hfind] at hy
      · exact hyS
    · exact Set.mem_insert_of_mem x
  case met =>
    intro y i c hy hyf hc
    rw [get?_merge]
    split
    · rename_i hi
      subst hi
      obtain rfl := huniq (Set.insert_subset hx hS hy) hyf
      by_cases hyS : y ∈ S
      · rw [h.met hyS hyf hc, Option.map_some, Block.merge_merge]
      · have hno : ∀ z ∈ S, d₀.findSelector? rootId z.text ≠ some i := by
          intro z hz hzf
          obtain rfl := huniq (hS hz) hzf
          exact hyS hz
        rw [h.unmet hno hc, Option.map_some]
    · rename_i hi
      rcases hy with rfl | hyS
      · exact absurd (Option.some.inj (hyf.symm.trans hfind)) hi
      · exact h.met hyS hyf hc
  case unmet =>
    intro i c hno hc
    have hi : i ≠ id := by
      rintro rfl
      exact hno x (Set.mem_insert _ _) hfind
    rw [get?_merge, if_neg hi]
    refine h.unmet ?_ hc
    intro y hy
    exact hno y (Set.mem_insert_of_mem _ hy)

/-- Merging a class into the container that it has to itself changes nothing. -/
theorem merge_fresh (h : d₀.Grown S d) (hx : x ∈ S) (hf : d₀.Fresh d x id) :
    d₀.Grown (Insert.insert x S) (d.merge id x.block) := by
  have hget {j : Nat} : (d.merge id x.block).get? j = d.get? j := by
    rw [get?_merge]
    split
    · rename_i hj
      rw [hj, hf.get, Option.map_some, Block.merge_self]
    · rfl
  rw [Set.insert_eq_of_mem hx]
  refine h.of_get?_eq (h.wellFormed.merge id x.block) (slots_merge _) (size_merge _) ?new ?same
    ?met ?unmet
  case new =>
    intro j _
    exact hget
  case same =>
    intro y _
    exact Iff.rfl
  case met =>
    intro y i c hy hyf hc
    rw [hget]
    exact h.met hy hyf hc
  case unmet =>
    intro i c hno hc
    rw [hget]
    exact h.unmet hno hc

/-- Giving a class a container of its own. -/
theorem sprout (h : d₀.Grown S d) (hx : d.Admits x) (hnone : d₀.findSelector? rootId x.text = none)
    (hfind : d.findSelector? rootId x.text = none) (hw : (d.sprout x).WellFormed) :
    d₀.Grown (Insert.insert x S) (d.sprout x) := by
  have hstands {s ordinal id : Nat} : (d.sprout x).StandsAt s ordinal id ↔
      d.StandsAt s ordinal id ∨ (s = x.slot ∧ ordinal = x.ordinal ∧ id = d.size + 1) := by
    apply standsAt_sprout hx.slot
    intro _
    exact h.wellFormed.not_standsAt hx hfind
  have hold {j : Nat} {c : Container} (hc : d.get? j = some c) : (d.sprout x).get? j = some c := by
    have := (get?_eq_some_size hc).2
    rw [get?_sprout, if_neg (by omega), hc]
  have hnew : d₀.Fresh (d.sprout x) x (d.size + 1) := by
    refine ⟨hnone, ?_, ?_⟩
    · exact Nat.lt_succ_of_le h.size_le
    · rw [get?_sprout, if_pos rfl]
  refine ⟨hw, ?size_le, ?met, ?unmet, ?parents, ?kept, ?entries, ?present⟩
  case size_le =>
    rw [size_sprout]
    exact Nat.le_succ_of_le h.size_le
  case met =>
    intro y id c hy hyf hc
    apply hold
    rcases hy with rfl | hyS
    · simp [hnone] at hyf
    · exact h.met hyS hyf hc
  case unmet =>
    intro id c hno hc
    apply hold
    refine h.unmet ?_ hc
    intro y hy
    exact hno y (Set.mem_insert_of_mem _ hy)
  case parents => rw [parents_sprout, h.parents]
  case kept =>
    intro s ordinal id hat
    exact hstands.2 (.inl (h.kept hat))
  case entries =>
    intro s ordinal id hat
    rcases hstands.1 hat with hat | ⟨rfl, rfl, rfl⟩
    · refine (h.entries hat).imp_right ?_
      rintro ⟨y, hy, hs, ho, hf⟩
      exact ⟨y, Set.mem_insert_of_mem _ hy, hs, ho, hf.congr ((hold hf.get).trans hf.get.symm)⟩
    · right
      exact ⟨x, Set.mem_insert _ _, rfl, rfl, hnew⟩
  case present =>
    intro y hy hyn
    rcases hy with rfl | hy
    · exact ⟨_, hnew, hstands.2 (.inr ⟨rfl, rfl, rfl⟩)⟩
    · obtain ⟨id, hf, hat⟩ := h.present y hy hyn
      exact ⟨id, hf.congr ((hold hf.get).trans hf.get.symm), hstands.2 (.inl hat)⟩

/-- **One emission.** It adds its class to those that the document grew by. -/
theorem absorb (hP : d₀.Prepared P) (hS : S ⊆ P) (h : d₀.Grown S d) (hx : x ∈ P) :
    d₀.Grown (Insert.insert x S) (d.absorb x).1 := by
  have hadm := h.admits hP hS hx
  have hw := h.wellFormed.absorb hadm
  unfold Document.absorb at hw ⊢
  cases hfind : d.findSelector? rootId x.text with
  | none =>
    rw [hfind] at hw
    refine h.sprout hadm ?_ hfind hw
    rw [Option.eq_none_iff_forall_ne_some]
    intro id hold
    simp [h.findSelector?_of_old hP.wellFormed hold] at hfind
  | some id =>
    cases hnone : d₀.findSelector? rootId x.text with
    | none =>
      obtain ⟨hxS, hf⟩ := h.fresh_of_find hP hS hx hnone hfind
      exact h.merge_fresh hxS hf
    | some i =>
      obtain rfl := Option.some.inj ((h.findSelector?_of_old hP.wellFormed hnone).symm.trans hfind)
      exact h.merge_old hP hS hx hnone

/-- Emissions in turn. They are all admitted. -/
theorem absorbAll (hP : d₀.Prepared P) (hS : S ⊆ P) (h : d₀.Grown S d) {xs : List Emission}
    (hxs : ∀ x ∈ xs, x ∈ P) :
    d.AdmitsAll xs ∧ d₀.Grown (S ∪ {x | x ∈ xs}) (d.absorbAll xs) := by
  induction xs generalizing S d with
  | nil =>
    refine ⟨trivial, ?_⟩
    rw [show S ∪ {x | x ∈ ([] : List Emission)} = S by ext; simp]
    exact h
  | cons x xs ih =>
    have hx : x ∈ P := hxs x List.mem_cons_self
    have hrest : ∀ y ∈ xs, y ∈ P := by
      intro y hy
      exact hxs y (List.mem_cons_of_mem _ hy)
    obtain ⟨ha, hg⟩ := ih (Set.insert_subset hx hS) (h.absorb hP hS hx) hrest
    refine ⟨⟨h.wellFormed, h.admits hP hS hx, ha⟩, ?_⟩
    rw [show S ∪ {y | y ∈ x :: xs} = Insert.insert x S ∪ {y | y ∈ xs} by ext; simp; grind]
    exact hg

end Grown

/-! ## Documents that grew alike -/

/-- Leaves old containers their numbers and forgets those of new ones. -/
def forgetNew (d₀ : Document) (id : ContainerId) : ContainerId := if id ≤ d₀.size then id else 0

/-- Lists by ascending numbers agree when they have the same members. -/
theorem eq_of_ascending {β : Type} {l l' : List (Nat × β)} (h : l.Pairwise fun a b => a.1 < b.1)
    (h' : l'.Pairwise fun a b => a.1 < b.1) (hmem : ∀ e, e ∈ l ↔ e ∈ l') : l = l' := by
  have : Std.Irrefl fun a b : Nat × β => a.1 < b.1 := by
    constructor
    intro a
    exact Nat.lt_irrefl a.1
  have : Std.Antisymm fun a b : Nat × β => a.1 < b.1 := by
    constructor
    intro a b hab hba
    exact absurd hab (Nat.lt_asymm hba)
  exact h.eq_of_mem_iff h' hmem

/-- The node of a container without the numbers of new containers. -/
def Grown.nodeBut (d₀ d : Document) (id : Nat) : Option Node :=
  (d.node? id).map (Node.relabel d₀.forgetNew)

open Grown (nodeBut)

/-- A container that `d₀` did not have: a selector with nothing below it. -/
structure Young (d₀ d : Document) (text : String) (block : Block) (id : Nat) : Prop where
  younger : d₀.size < id
  get : d.get? id = some ⟨.selector text, block, []⟩

/-- What `d` has made of `d₀` is found in `d'` as well: the old containers agree, and what newly
stands in a slot of `d` stands in the same place of `d'`, if under another number. -/
structure Parallel (d₀ d d' : Document) : Prop where
  wellFormed : d.WellFormed
  old : ∀ {id c}, d₀.get? id = some c →
    ∃ b, d.get? id = some { c with block := b } ∧ d'.get? id = some { c with block := b }
  parents : d.slots.map (·.parent) = d₀.slots.map (·.parent)
  entries : ∀ {s ordinal id}, d.StandsAt s ordinal id →
    (d₀.StandsAt s ordinal id ∧ d'.StandsAt s ordinal id) ∨ ∃ text block id',
      d₀.Young d text block id ∧ d₀.Young d' text block id' ∧ d'.StandsAt s ordinal id'

theorem Young.nodeBut_eq {text : String} {block : Block} (hw : d.WellFormed)
    (h : d₀.Young d text block id) :
    nodeBut d₀ d id = some (.container 0 (.selector text) block []) := by
  rw [nodeBut, hw.node?_eq h.get, Option.map_some, Node.relabel, forgetNew,
    if_neg (Nat.not_le.2 h.younger)]
  rfl

namespace Parallel

theorem slot?_isSome (h : d₀.Parallel d d') {sl₀ : Slot} (hs : d₀.slots[s]? = some sl₀) :
    ∃ sl, d.slots[s]? = some sl := by
  have hp := congrArg (·[s]?) h.parents
  simp only [List.getElem?_map, hs, Option.map_some] at hp
  obtain ⟨sl, hsl, -⟩ := Option.map_eq_some_iff.1 hp
  exact ⟨sl, hsl⟩

/-- The entries of a slot show the same nodes in documents that grew alike. -/
theorem map_entries_subset (h : d₀.Parallel d d') (hw : d'.WellFormed) {sl sl' : Slot}
    (hsl : d.slots[s]? = some sl) (hsl' : d'.slots[s]? = some sl')
    (ih : ∀ {ordinal id : Nat}, d₀.StandsAt s ordinal id → nodeBut d₀ d id = nodeBut d₀ d' id)
    {e : Nat × Option Node} (he : e ∈ sl.entries.map fun e => (e.1, nodeBut d₀ d e.2)) :
    e ∈ sl'.entries.map fun e => (e.1, nodeBut d₀ d' e.2) := by
  obtain ⟨⟨ordinal, id⟩, hmem, rfl⟩ := List.mem_map.1 he
  rcases h.entries ⟨sl, hsl, hmem⟩ with ⟨hold, hat⟩ | ⟨text, block, id', hy, hy', hat⟩
  · obtain ⟨_, hsl₁, hmem'⟩ := hat
    obtain rfl := Option.some.inj (hsl'.symm.trans hsl₁)
    exact List.mem_map.2 ⟨_, hmem', by rw [ih hold]⟩
  · obtain ⟨_, hsl₁, hmem'⟩ := hat
    obtain rfl := Option.some.inj (hsl'.symm.trans hsl₁)
    exact List.mem_map.2 ⟨_, hmem', by rw [hy.nodeBut_eq h.wellFormed, hy'.nodeBut_eq hw]⟩

theorem filterMap_ids_eq (h : d₀.Parallel d d') (h' : d₀.Parallel d' d) {sl sl' : Slot}
    (hsl : d.slots[s]? = some sl) (hsl' : d'.slots[s]? = some sl')
    (ih : ∀ {ordinal id : Nat}, d₀.StandsAt s ordinal id → nodeBut d₀ d id = nodeBut d₀ d' id) :
    sl.ids.filterMap (nodeBut d₀ d) = sl'.ids.filterMap (nodeBut d₀ d') := by
  have heq : sl.entries.map (fun e => (e.1, nodeBut d₀ d e.2)) =
      sl'.entries.map fun e => (e.1, nodeBut d₀ d' e.2) := by
    apply eq_of_ascending
    · exact List.pairwise_map.2 sl.ascending
    · exact List.pairwise_map.2 sl'.ascending
    · intro e
      constructor
      · exact h.map_entries_subset h'.wellFormed hsl hsl' ih
      · apply h'.map_entries_subset h.wellFormed hsl' hsl
        intro ordinal id hat
        exact (ih hat).symm
  have hids := congrArg (List.filterMap (·.2)) heq
  simp only [List.filterMap_map, Function.comp_def] at hids
  rwa [Slot.ids, Slot.ids, List.filterMap_map, List.filterMap_map]

theorem nodeBut_eq (h0 : d₀.WellFormed) (h : d₀.Parallel d d') (h' : d₀.Parallel d' d) :
    ∀ id : Nat, d₀.contains id = true → nodeBut d₀ d id = nodeBut d₀ d' id := by
  refine h0.induction_below ?_
  intro id hid ih
  obtain ⟨c, hc⟩ := get?_of_contains hid
  obtain ⟨b, hb, hb'⟩ := h.old hc
  rw [nodeBut, nodeBut, h.wellFormed.node?_eq hb, h'.wellFormed.node?_eq hb', Option.map_some,
    Option.map_some, Node.relabel, Node.relabel, Node.relabelAll_eq_map, Node.relabelAll_eq_map,
    List.map_filterMap, List.map_filterMap]
  -- child by child: a container by induction, a slot by what its entries show
  congr 2
  apply List.filterMap_congr
  intro ch hch
  cases ch with
  | container j => exact ih j (Document.mem_below.2 ⟨c, hc, .inl hch⟩)
  | raw css => rfl
  | slot s =>
    obtain ⟨sl₀, hsl₀, hp₀⟩ := Option.map_eq_some_iff.1 (h0.parents hc hch)
    obtain ⟨sl, hsl⟩ := h.slot?_isSome hsl₀
    obtain ⟨sl', hsl'⟩ := h'.slot?_isSome hsl₀
    have hids : sl.ids.filterMap (nodeBut d₀ d) = sl'.ids.filterMap (nodeBut d₀ d') := by
      apply h.filterMap_ids_eq h' hsl hsl'
      intro ordinal j hat
      apply ih
      apply h0.mem_below_of_standsAt hat
      rw [hsl₀, Option.map_some, hp₀]
    simp only [childNode?, hsl, hsl', Option.map_some, Node.relabel, Node.relabelAll_eq_map,
      List.map_filterMap]
    show some (Node.slot s (sl.ids.filterMap (nodeBut d₀ d))) = some (.slot s _)
    rw [hids]
    rfl

/-- **Growing alike leaves the same sheet**, or the same error, for variables of old containers. -/
theorem sheet_eq (h0 : d₀.WellFormed) (h : d₀.Parallel d d') (h' : d₀.Parallel d' d)
    {vars : Variables} (hv : ∀ v ∈ vars.entries, d₀.contains v.scope = true) (config : String)
    (layout : Layout) : d.sheet vars config layout = d'.sheet vars config layout := by
  have hnone {id : Nat} (hid : d₀.contains id = false) : vars.inScope id = [] := by
    apply List.filter_eq_nil_iff.2
    intro v hm hs
    have := hv v hm
    rw [decide_eq_true_eq] at hs
    simp [hs, hid] at this
  apply sheet_eq_of_relabel_tree_eq (f := d₀.forgetNew)
  · intro id
    rw [forgetNew]
    split
    · rfl
    · rename_i hid
      rw [hnone rfl, hnone]
      rw [Bool.eq_false_iff]
      intro hc
      exact hid (contains_iff.1 hc).2
  · have hroot := nodeBut_eq h0 h h' rootId h0.contains_root
    rw [nodeBut, nodeBut, h.wellFormed.node?_root, h'.wellFormed.node?_root] at hroot
    exact Option.some.inj hroot

end Parallel

namespace Grown

theorem parallel (h : d₀.Grown S d) (h' : d₀.Grown S d') : d₀.Parallel d d' where
  wellFormed := h.wellFormed
  old hc := by
    obtain ⟨b, hb⟩ := h.get?_old hc
    exact ⟨b, hb, (h.get?_eq h' hc).symm.trans hb⟩
  parents := h.parents
  entries hat := by
    rcases h.entries hat with hold | ⟨x, hx, rfl, rfl, hf⟩
    · exact .inl ⟨hold, h'.kept hold⟩
    · obtain ⟨id', hf', hat'⟩ := h'.present x hx hf.unknown
      exact .inr ⟨x.text, x.block, id', ⟨hf.younger, hf.get⟩, ⟨hf'.younger, hf'.get⟩, hat'⟩

/-- Documents that grew by the same classes have the same sheet. -/
theorem sheet_eq (h0 : d₀.WellFormed) (h : d₀.Grown S d) (h' : d₀.Grown S d') {vars : Variables}
    (hv : ∀ v ∈ vars.entries, d₀.contains v.scope = true) (config : String) (layout : Layout) :
    d.sheet vars config layout = d'.sheet vars config layout :=
  (h.parallel h').sheet_eq h0 (h'.parallel h) hv config layout

end Grown

end AtomicCss.Document
