import AtomicCss.Proofs.Block
import AtomicCss.Proofs.Document.Growth
import Mathlib

/-! # Outlines

A config that works at the root only leads to a flat document: the root holds selectors, keyframes,
raw fragments and slots, and nothing stands below any of these but the classes in the slots. What
the root holds is the outline, a list of items in which no container has a number. A document
realizes an outline with a set of classes if its root shows the items and its slots show the
classes, each class at its ordinal.

Every call at the root acts on the outline alone (`Realizes.selector`, `Realizes.keyframes`,
`Realizes.raw`, `Realizes.reserved`), and emissions act on the set of classes alone
(`Realizes.grown`, `Realizes.replace`). -/

namespace AtomicCss

section Lists

variable {α β : Type} {R R' : α → β → Prop} {l : List α} {m : List β}

theorem exists_mem_of_forall₂ {b : β} (h : List.Forall₂ R l m) (hb : b ∈ m) : ∃ a ∈ l, R a b := by
  induction h with
  | nil => cases hb
  | cons hhead _ ih =>
    rcases List.mem_cons.1 hb with rfl | hb
    · exact ⟨_, List.mem_cons_self, hhead⟩
    · obtain ⟨a, ha, hr⟩ := ih hb
      exact ⟨a, List.mem_cons_of_mem _ ha, hr⟩

theorem forall₂_imp_of_mem (h : List.Forall₂ R l m) (himp : ∀ a ∈ l, ∀ b ∈ m, R a b → R' a b) :
    List.Forall₂ R' l m := by
  induction h with
  | nil => exact .nil
  | cons hhead _ ih =>
    refine .cons (himp _ List.mem_cons_self _ List.mem_cons_self hhead) (ih ?_)
    intro a ha b hb
    exact himp a (List.mem_cons_of_mem _ ha) b (List.mem_cons_of_mem _ hb)

/-- Lists that are related to one list are related to each other. -/
theorem forall₂_of_common {γ : Type} {Q : α → γ → Prop} {P : β → γ → Prop} {n : List γ}
    (h : List.Forall₂ R l m) (h' : List.Forall₂ Q l n)
    (hP : ∀ a ∈ l, ∀ b c, R a b → Q a c → P b c) : List.Forall₂ P m n := by
  induction h generalizing n with
  | nil =>
    cases h'
    exact .nil
  | cons hhead _ ih =>
    cases h' with
    | cons hhead' hrest' =>
      refine .cons (hP _ List.mem_cons_self _ _ hhead hhead') (ih hrest' ?_)
      intro a ha b c
      exact hP a (List.mem_cons_of_mem _ ha) b c

end Lists

/-- What the root of a flat document holds at one place. -/
inductive Item where
  | rule (text : String) (block : Block)
  | keyframes (name : String)
  | raw (css : String)
  | slot (id : SlotId)

namespace Item

/-- The text of a selector. -/
def text? : Item → Option String
  | rule text _ => some text
  | _ => none

def isSlot : Item → Bool
  | slot _ => true
  | _ => false

/-- Merges declarations into the item, if it is the selector with the given text. -/
def merge (text : String) (block : Block) : Item → Item
  | rule t b => rule t (if t = text then (b.merge block).1 else b)
  | item => item

/-- Puts a selector into an outline: into the one with its text, or else behind all items. -/
def put (text : String) (block : Block) (items : List Item) : List Item :=
  if ∃ item ∈ items, item.text? = some text then items.map (merge text block)
  else items ++ [rule text block]

theorem isSlot_merge (text : String) (block : Block) (item : Item) :
    (item.merge text block).isSlot = item.isSlot := by
  cases item <;> rfl

theorem text?_merge (text : String) (block : Block) (item : Item) :
    (item.merge text block).text? = item.text? := by
  cases item <;> rfl

/-- The selectors of an outline have texts from a set. -/
def Within (U : Set String) (items : List Item) : Prop :=
  ∀ item ∈ items, ∀ text, item.text? = some text → text ∈ U

theorem Within.put {U : Set String} {items : List Item} (h : Within U items) {text : String}
    (ht : text ∈ U) (block : Block) : Within U (put text block items) := by
  intro item hitem t hit
  unfold Item.put at hitem
  split at hitem
  · obtain ⟨old, hold, rfl⟩ := List.mem_map.1 hitem
    rw [text?_merge] at hit
    exact h old hold t hit
  · rcases List.mem_append.1 hitem with hitem | hitem
    · exact h item hitem t hit
    · rw [List.mem_singleton.1 hitem] at hit
      rwa [← Option.some.inj hit]

theorem Within.append {U : Set String} {items : List Item} (h : Within U items) {item : Item}
    (hi : item.text? = none) : Within U (items ++ [item]) := by
  intro x hx t ht
  rcases List.mem_append.1 hx with hx | hx
  · exact h x hx t ht
  · rw [List.mem_singleton.1 hx, hi] at ht
    cases ht

end Item

namespace Document

variable {d d₀ d' : Document} {items : List Item} {S T : Set Emission} {x y : Emission}
  {id j s ordinal : Nat}

/-! ## Realizing an outline -/

/-- Nothing but the root is of its kind. -/
theorem WellFormed.ne_root (h : d.WellFormed) {c : Container} (hc : d.get? id = some c)
    (hk : c.kind ≠ .root) : id ≠ rootId := by
  rintro rfl
  have hroot := h.root
  rw [hc, Option.map_some, Option.some.injEq] at hroot
  exact hk hroot

theorem WellFormed.root_ne_selector (h : d.WellFormed) {c : Container} (hc : d.get? rootId = some c)
    (text : String) : c.kind ≠ .selector text := by
  intro hk
  exact h.ne_root hc (by rw [hk]; nofun) rfl

/-- Merging into a selector changes no container of another kind. -/
theorem get?_merge_of_kind_ne {text : String} {c : Container} (block : Block)
    (ht : d.selectorText? id = some text) (hc : d.get? j = some c) (hk : c.kind ≠ .selector text) :
    (d.merge id block).get? j = some c := by
  rw [get?_merge, if_neg, hc]
  rintro rfl
  rw [selectorText?, hc, Option.bind_some] at ht
  cases hkind : c.kind with
  | selector t =>
    rw [hkind, Kind.selectorText?, Option.some.injEq] at ht
    exact hk (by rw [hkind, ht])
  | _ =>
    rw [hkind] at ht
    cases ht

/-- A child of the root that is what an item says, and has nothing below it. -/
inductive Shows (d : Document) : Item → Child → Prop
  | rule {text : String} {block : Block} {id : ContainerId}
      (get : d.get? id = some ⟨.selector text, block, []⟩) :
      Shows d (.rule text block) (.container id)
  | keyframes {name : String} {id : ContainerId} (get : d.get? id = some ⟨.keyframes name, ∅, []⟩) :
      Shows d (.keyframes name) (.container id)
  | raw (css : String) : Shows d (.raw css) (.raw css)
  | slot (id : SlotId) : Shows d (.slot id) (.slot id)

/-- A child stays what it is where its container stays. -/
theorem Shows.mono {item : Item} {child : Child} (h : d.Shows item child)
    (hget : ∀ {id : ContainerId} {c : Container}, d.get? id = some c → c.kind ≠ .root →
      c.kind.selectorText? = item.text? → d'.get? id = some c) : d'.Shows item child := by
  cases h with
  | rule get => exact .rule (hget get nofun rfl)
  | keyframes get => exact .keyframes (hget get nofun rfl)
  | raw css => exact .raw css
  | slot id => exact .slot id

/-- The container of a class, which stands at the place of the class. -/
structure Holds (d : Document) (x : Emission) (id : ContainerId) : Prop where
  stands : d.StandsAt x.slot x.ordinal id
  get : d.get? id = some ⟨.selector x.text, x.block, []⟩

theorem Holds.selectorText?_eq (h : d.Holds x id) : d.selectorText? id = some x.text := by
  rw [selectorText?, h.get]
  rfl

/-- The root shows the items, and the slots show the classes. -/
structure Realizes (d : Document) (items : List Item) (S : Set Emission) : Prop where
  wellFormed : d.WellFormed
  root : ∃ c, d.get? rootId = some c ∧ c.block = ∅ ∧ List.Forall₂ d.Shows items c.children
  slots : d.slots.length = items.countP Item.isSlot
  entries : ∀ {s ordinal id}, d.StandsAt s ordinal id →
    ∃ x ∈ S, x.slot = s ∧ x.ordinal = ordinal ∧ d.Holds x id
  present : ∀ x ∈ S, ∃ id, d.Holds x id

theorem realizes_empty : empty.Realizes [] ∅ where
  wellFormed := wellFormed_empty
  root := ⟨_, rfl, rfl, .nil⟩
  slots := rfl
  entries := by
    rintro s ordinal id ⟨sl, hsl, -⟩
    cases hsl
  present x hx := absurd hx (Set.notMem_empty x)

namespace Realizes

/-- The selectors at the root are those of the outline and the classes. -/
theorem mem_below (h : d.Realizes items S) (hj : j ∈ d.below rootId) :
    (∃ item ∈ items, d.Shows item (.container j)) ∨ ∃ x ∈ S, d.Holds x j := by
  obtain ⟨c, hc, -, hitems⟩ := h.root
  obtain ⟨c', hc', hj⟩ := Document.mem_below.1 hj
  obtain rfl := Option.some.inj (hc.symm.trans hc')
  rcases hj with hchild | ⟨s, sl, -, hsl, hj⟩
  · left
    exact exists_mem_of_forall₂ hitems hchild
  · right
    obtain ⟨e, he, rfl⟩ := List.mem_map.1 hj
    obtain ⟨x, hx, -, -, hholds⟩ := h.entries ⟨sl, hsl, he⟩
    exact ⟨x, hx, hholds⟩

/-! ### One more item -/

/-- A child that is hung behind the other children of the root, where nothing else is changed. -/
theorem adopt (h : d.Realizes items S) (hw : d'.WellFormed) {item : Item} {child : Child}
    (hroot : ∀ {c}, d.get? rootId = some c →
      d'.get? rootId = some { c with children := c.children ++ [child] })
    (hold : ∀ {j c}, j ≠ rootId → d.get? j = some c → d'.get? j = some c)
    (hshows : d'.Shows item child)
    (hstands : ∀ {s ordinal id}, d'.StandsAt s ordinal id ↔ d.StandsAt s ordinal id)
    (hslots : d'.slots.length = (items ++ [item]).countP Item.isSlot) :
    d'.Realizes (items ++ [item]) S := by
  have hholds {x : Emission} {id : ContainerId} (hx : d.Holds x id) : d'.Holds x id :=
    ⟨hstands.2 hx.stands, hold (h.wellFormed.ne_root hx.get nofun) hx.get⟩
  refine ⟨hw, ?root, hslots, ?entries, ?present⟩
  case root =>
    obtain ⟨c, hc, hb, hitems⟩ := h.root
    refine ⟨_, hroot hc, hb, ?_⟩
    refine List.rel_append (hitems.imp ?_) (.cons hshows .nil)
    intro item child hshows
    exact hshows.mono fun hc hk _ => hold (h.wellFormed.ne_root hc hk) hc
  case entries =>
    intro s ordinal id hat
    obtain ⟨x, hx, hs, ho, hx'⟩ := h.entries (hstands.1 hat)
    exact ⟨x, hx, hs, ho, hholds hx'⟩
  case present =>
    intro x hx
    obtain ⟨id, hid⟩ := h.present x hx
    exact ⟨id, hholds hid⟩

/-! ### Selectors -/

theorem container_mem_below (h : d.Realizes items S) {item : Item} (hitem : item ∈ items)
    {text : String} (ht : item.text? = some text) :
    ∃ id ∈ d.below rootId, d.selectorText? id = some text := by
  obtain ⟨c, hc, -, hitems⟩ := h.root
  obtain ⟨child, hchild, hshows⟩ := exists_mem_of_forall₂ hitems.flip hitem
  cases hshows with
  | @rule t b id get =>
    refine ⟨id, Document.mem_below.2 ⟨c, hc, .inl hchild⟩, ?_⟩
    rw [← ht, selectorText?, get]
    rfl
  | _ => cases ht

/-- A search at the root finds a selector of the outline, unless it is for a class. -/
theorem exists_of_findSelector? (h : d.Realizes items S) {text : String}
    (hfree : ∀ x ∈ S, x.text ≠ Text.trimmed text)
    (hfind : d.findSelector? rootId text = some id) :
    ∃ item ∈ items, item.text? = some (Text.trimmed text) := by
  obtain ⟨hb, ht⟩ := h.wellFormed.findSelector?_eq_some_iff.1 hfind
  rcases h.mem_below hb with ⟨item, hitem, hshows⟩ | ⟨x, hx, hholds⟩
  · refine ⟨item, hitem, ?_⟩
    cases hshows <;> rename_i get <;> rw [← ht, selectorText?, get] <;> rfl
  · exact absurd (Option.some.inj (hholds.selectorText?_eq.symm.trans ht)) (hfree x hx)

/-- Merging into a selector of the outline. -/
theorem merge_rule (h : d.Realizes items S) {text : String} (block : Block)
    (hfree : ∀ x ∈ S, x.text ≠ text) (hb : id ∈ d.below rootId)
    (ht : d.selectorText? id = some text) :
    (d.merge id block).Realizes (items.map (Item.merge text block)) S := by
  have hne {j : Nat} {c : Container} (hc : d.get? j = some c) (hk : c.kind ≠ .selector text) :
      (d.merge id block).get? j = some c := get?_merge_of_kind_ne block ht hc hk
  have hholds {x : Emission} {j : ContainerId} (hx : x ∈ S) (hj : d.Holds x j) :
      (d.merge id block).Holds x j := by
    refine ⟨(standsAt_merge block).2 hj.stands, hne hj.get ?_⟩
    intro hk
    exact hfree x hx (Kind.selector.inj hk)
  refine ⟨h.wellFormed.merge id block, ?root, ?slots, ?entries, ?present⟩
  case root =>
    obtain ⟨c, hc, hblock, hitems⟩ := h.root
    refine ⟨c, hne hc (h.wellFormed.root_ne_selector hc text), hblock, ?_⟩
    rw [List.forall₂_map_left_iff]
    apply forall₂_imp_of_mem hitems
    intro item _ child hchild hshows
    cases hshows with
    | @rule t b j get =>
      by_cases htext : t = text
      · -- the selector with the text is the one that is merged into
        have hj : j = id := by
          apply h.wellFormed.eq_of_selectorText?_eq _ hb _ ht
          · exact Document.mem_below.2 ⟨c, hc, .inl hchild⟩
          · rw [selectorText?, get, ← htext]
            rfl
        rw [Item.merge, if_pos htext]
        apply Shows.rule
        rw [get?_merge, if_pos hj, get]
        rfl
      · rw [Item.merge, if_neg htext]
        exact .rule (hne get fun hk => htext (Kind.selector.inj hk))
    | keyframes get => exact .keyframes (hne get (by rintro ⟨⟩))
    | raw css => exact .raw css
    | slot s => exact .slot s
  case slots =>
    rw [slots_merge, List.countP_map, h.slots]
    exact List.countP_congr fun item _ => by rw [Function.comp, Item.isSlot_merge]
  case entries =>
    intro s ordinal j hat
    obtain ⟨x, hx, hs, ho, hx'⟩ := h.entries ((standsAt_merge block).1 hat)
    exact ⟨x, hx, hs, ho, hholds hx hx'⟩
  case present =>
    intro x hx
    obtain ⟨j, hj⟩ := h.present x hx
    exact ⟨j, hholds hx hj⟩

/-- Hanging a new container under the root. -/
theorem hang (h : d.Realizes items S) (hw : d'.WellFormed) {kind : Kind} {block : Block} {item : Item}
    (hc : d'.containers =
      ((d.insert kind block).1.adopt rootId (.container (d.size + 1))).containers)
    (hs : d'.slots = d.slots) (hslot : item.isSlot = false)
    (hshows : d'.get? (d.size + 1) = some ⟨kind, block, []⟩ →
      d'.Shows item (.container (d.size + 1))) : d'.Realizes (items ++ [item]) S := by
  have hlt {j : Nat} {c : Container} (hj : d.get? j = some c) : j ≠ d.size + 1 := by
    have := (get?_eq_some_size hj).2
    omega
  have hget (j : Nat) : d'.get? j =
      ((d.insert kind block).1.adopt rootId (.container (d.size + 1))).get? j := get?_congr hc
  refine h.adopt hw ?root ?old (?shows : d'.Shows item (.container (d.size + 1))) ?stands ?slots
  case root =>
    intro c hroot
    rw [hget, Document.adopt, get?_update, if_pos rfl, get?_insert, if_neg (hlt hroot), hroot]
    rfl
  case old =>
    intro j c hj hold
    rw [hget, Document.adopt, get?_update, if_neg hj, get?_insert, if_neg (hlt hold), hold]
  case shows =>
    apply hshows
    have hroot := (contains_iff.1 h.wellFormed.contains_root).2
    rw [hget, Document.adopt, get?_update, if_neg (by omega), get?_insert, if_pos rfl]
  case stands =>
    intro s ordinal id
    rw [StandsAt, StandsAt, hs]
  case slots =>
    rw [hs, h.slots, List.countP_append, List.countP_singleton, hslot]
    rfl

/-- A selector at the root that is none of the classes goes into the outline. -/
theorem selector (h : d.Realizes items S) (text : String) (block : Block)
    (hfree : ∀ x ∈ S, x.text ≠ Text.trimmed text) :
    ∃ d' id, d.selector rootId text block = .ok (d', id) ∧
      d'.Realizes (Item.put (Text.trimmed text) block items) S := by
  cases hfind : d.findSelector? rootId text with
  | some id =>
    obtain ⟨hb, ht⟩ := h.wellFormed.findSelector?_eq_some_iff.1 hfind
    refine ⟨d.merge id block, id, ?_, ?_⟩
    · rw [Document.selector, if_pos h.wellFormed.contains_root, hfind]
    · rw [Item.put, if_pos (h.exists_of_findSelector? hfree hfind)]
      exact h.merge_rule block hfree hb ht
  | none =>
    let new := ((d.insert (.selector (Text.trimmed text)) block).1.adopt rootId
      (.container (d.size + 1))).enlist rootId (Text.trimmed text) (d.size + 1)
    have hok : d.selector rootId text block = .ok (new, d.size + 1) := by
      rw [Document.selector, if_pos h.wellFormed.contains_root, hfind]
      rfl
    refine ⟨new, _, hok, ?_⟩
    rw [Item.put, if_neg]
    · exact h.hang (h.wellFormed.selector hok) rfl (keeps_selector hok).2 rfl .rule
    · rintro ⟨item, hitem, ht⟩
      obtain ⟨id, hb, hid⟩ := h.container_mem_below hitem ht
      exact h.wellFormed.findSelector?_eq_none_iff.1 hfind id hb hid

theorem keyframes (h : d.Realizes items S) (name : String) :
    ∃ d' id, d.keyframes rootId name = .ok (d', id) ∧
      d'.Realizes (items ++ [.keyframes (Text.trimmed name)]) S := by
  have hok : d.keyframes rootId name = .ok ((d.insert (.keyframes (Text.trimmed name)) ∅).1.adopt
      rootId (.container (d.size + 1)), d.size + 1) := by
    rw [Document.keyframes, nested, if_pos h.wellFormed.contains_root]
    rfl
  refine ⟨_, _, hok, ?_⟩
  exact h.hang (h.wellFormed.nested rfl hok) rfl (keeps_nested hok).2 rfl .keyframes

theorem raw (h : d.Realizes items S) (css : String) :
    ∃ d', d.raw rootId css = .ok d' ∧ d'.Realizes (items ++ [.raw css]) S := by
  have hok : d.raw rootId css = .ok (d.adopt rootId (.raw css)) :=
    if_pos h.wellFormed.contains_root
  have hslots : (d.adopt rootId (.raw css)).slots = d.slots := slots_update _
  refine ⟨_, hok, h.adopt (h.wellFormed.raw hok) ?root ?old (.raw css) ?stands ?slots⟩
  case root =>
    intro c hc
    rw [Document.adopt, get?_update, if_pos rfl, hc]
    rfl
  case old =>
    intro j c hj hc
    rw [Document.adopt, get?_update, if_neg hj, hc]
  case stands =>
    intro s ordinal id
    rw [StandsAt, StandsAt, hslots]
  case slots =>
    rw [hslots, h.slots, List.countP_append]
    rfl

/-- A new slot takes the next number, which the outline determines. -/
theorem reserved (h : d.Realizes items S) :
    (d.reserved rootId).Realizes (items ++ [.slot (items.countP Item.isSlot)]) S := by
  have hw := h.wellFormed.reserved h.wellFormed.contains_root
  have hslots : (d.reserved rootId).slots = d.slots ++ [Slot.vacant rootId] := rfl
  refine h.adopt hw ?root ?old (.slot _) ?stands ?slots
  case root =>
    intro c hc
    rw [get?_reserved, if_pos rfl, hc, h.slots]
    rfl
  case old =>
    intro j c hj hc
    rw [get?_reserved, if_neg hj, hc]
  case stands =>
    intro s ordinal id
    rw [StandsAt, StandsAt, hslots]
    constructor
    · rintro ⟨sl, hsl, hmem⟩
      rw [List.getElem?_append] at hsl
      split at hsl
      · exact ⟨sl, hsl, hmem⟩
      · rw [List.mem_singleton.1 (List.mem_of_getElem? hsl)] at hmem
        cases hmem
    · rintro ⟨sl, hsl, hmem⟩
      refine ⟨sl, ?_, hmem⟩
      rw [List.getElem?_append_left (List.getElem?_eq_some_iff.1 hsl).1, hsl]
  case slots =>
    rw [hslots, List.length_append, h.slots, List.countP_append]
    rfl

/-! ### Classes -/

/-- Emitting classes that the document has no selectors for adds them to the set of classes. -/
theorem grown (h : d₀.Realizes items S) (hg : d₀.Grown T d)
    (hfree : ∀ x ∈ T, d₀.findSelector? rootId x.text = none) : d.Realizes items (S ∪ T) := by
  have hold {id : Nat} {c : Container} (hc : d₀.get? id = some c) : d.get? id = some c := by
    apply hg.unmet _ hc
    intro x hx hfind
    simp [hfree x hx] at hfind
  have hholds {x : Emission} {id : Nat} (hx : d₀.Holds x id) : d.Holds x id :=
    ⟨hg.kept hx.stands, hold hx.get⟩
  refine ⟨hg.wellFormed, ?root, ?slots, ?entries, ?present⟩
  case root =>
    obtain ⟨c, hc, hb, hitems⟩ := h.root
    refine ⟨c, hold hc, hb, hitems.imp ?_⟩
    intro item child hshows
    exact hshows.mono fun hc _ _ => hold hc
  case slots =>
    have hlen := congrArg List.length hg.parents
    rw [List.length_map, List.length_map] at hlen
    rw [hlen, h.slots]
  case entries =>
    intro s ordinal id hat
    rcases hg.entries hat with hat₀ | ⟨x, hx, rfl, rfl, hf⟩
    · obtain ⟨x, hx, hs, ho, hx'⟩ := h.entries hat₀
      exact ⟨x, .inl hx, hs, ho, hholds hx'⟩
    · exact ⟨x, .inr hx, rfl, rfl, hat, hf.get⟩
  case present =>
    rintro x (hx | hx)
    · obtain ⟨id, hid⟩ := h.present x hx
      exact ⟨id, hholds hid⟩
    · obtain ⟨id, hf, hat⟩ := hg.present x hx (hfree x hx)
      exact ⟨id, hat, hf.get⟩

/-- Emitting a class once more, with declarations of the same properties, puts the new class in the
place of the old one. -/
theorem replace (h : d.Realizes items S) (hx : d.Admits x) (hy : y ∈ S) (hs : y.slot = x.slot)
    (ho : y.ordinal = x.ordinal) (ht : y.text = x.text) (hm : (y.block.merge x.block).1 = x.block)
    (hitems : ∀ item ∈ items, item.text? ≠ some x.text) (htexts : ∀ z ∈ S, z.text = x.text → z = y)
    (hT : ∀ z, z ∈ T ↔ z = x ∨ (z ∈ S ∧ z ≠ y)) : (d.absorb x).1.Realizes items T := by
  obtain ⟨id, hid⟩ := h.present y hy
  have hfind {j : Nat} (hj : d.Holds y j) : d.findSelector? rootId x.text = some j := by
    rw [h.wellFormed.findSelector?_eq_some_iff, hj.selectorText?_eq]
    refine ⟨h.wellFormed.mem_below_of_standsAt hj.stands ?_, ?_⟩
    · rw [hs, hx.slot]
    · rw [ht, Emission.trimmed_text]
  have hne {j : Nat} {c : Container} (hj : d.get? j = some c) (hk : c.kind ≠ .selector x.text) :
      (d.merge id x.block).get? j = some c :=
    get?_merge_of_kind_ne x.block (ht ▸ hid.selectorText?_eq) hj hk
  have hnew : (d.merge id x.block).Holds x id := by
    refine ⟨?_, ?_⟩
    · rw [standsAt_merge, ← hs, ← ho]
      exact hid.stands
    · rw [get?_merge, if_pos rfl, hid.get, Option.map_some, hm, ht]
  have hold {z : Emission} {j : Nat} (hz : z ∈ S) (hzy : z ≠ y) (hj : d.Holds z j) :
      (d.merge id x.block).Holds z j := by
    refine ⟨(standsAt_merge _).2 hj.stands, hne hj.get ?_⟩
    intro hk
    exact hzy (htexts z hz (Kind.selector.inj hk))
  rw [absorb_of_found (hfind hid)]
  refine ⟨h.wellFormed.merge id x.block, ?root, ?slots, ?entries, ?present⟩
  case root =>
    obtain ⟨c, hc, hb, hshows⟩ := h.root
    refine ⟨c, hne hc (h.wellFormed.root_ne_selector hc x.text), hb, forall₂_imp_of_mem hshows ?_⟩
    intro item hitem child _ hshows
    apply hshows.mono
    intro j c hc _ ht
    refine hne hc ?_
    intro hk
    rw [hk] at ht
    exact hitems item hitem ht.symm
  case slots => rw [slots_merge, h.slots]
  case entries =>
    intro s ordinal j hat
    rw [standsAt_merge] at hat
    obtain ⟨z, hz, rfl, rfl, hj⟩ := h.entries hat
    by_cases hzy : z = y
    · subst hzy
      obtain rfl := Option.some.inj ((hfind hj).symm.trans (hfind hid))
      exact ⟨x, (hT x).2 (.inl rfl), hs.symm, ho.symm, hnew⟩
    · exact ⟨z, (hT z).2 (.inr ⟨hz, hzy⟩), rfl, rfl, hold hz hzy hj⟩
  case present =>
    intro z hz
    rcases (hT z).1 hz with rfl | ⟨hz, hzy⟩
    · exact ⟨id, hnew⟩
    · obtain ⟨j, hj⟩ := h.present z hz
      exact ⟨j, hold hz hzy hj⟩

end Realizes

end Document

end AtomicCss
