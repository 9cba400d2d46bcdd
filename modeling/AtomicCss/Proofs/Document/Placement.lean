import AtomicCss.Document.Basic
import Mathlib.Data.List.Perm.Basic
import Mathlib.Data.List.Nodup

/-! # Where the containers of a document hang

Reading a document after each of the elementary changes that its calls are made of: adding a
container, adding a child, changing a container, filling a slot. The places of containers are
listed twice, once for the whole document (`placed`) and once under a given container (`below`). -/

namespace AtomicCss

namespace Child

def container? : Child → Option ContainerId
  | container id => some id
  | _ => none

def slot? : Child → Option SlotId
  | slot id => some id
  | _ => none

end Child

theorem Kind.selectorText?_eq_some_iff {kind : Kind} {text : String} :
    kind.selectorText? = some text ↔ kind = .selector text := by
  cases kind <;> simp [selectorText?]

namespace Slot

variable {s : Slot} {ordinal id : Nat}

theorem place_perm {es : List (Nat × ContainerId)} (h : ordinal ∉ es.map (·.1)) :
    (place ordinal id es).Perm ((ordinal, id) :: es) := by
  induction es with
  | nil => exact .refl _
  | cons e es ih =>
    rw [List.map_cons, List.mem_cons, not_or] at h
    unfold place
    split
    · exact .refl _
    · rw [if_neg h.1]
      exact ((ih h.2).cons e).trans (.swap _ _ _)

theorem at?_eq_none_iff : s.at? ordinal = none ↔ ordinal ∉ s.entries.map (·.1) := by
  rw [at?, Option.map_eq_none_iff, List.find?_eq_none, List.mem_map]
  constructor
  · rintro h ⟨e, he, heq⟩
    exact h e he (by simpa using heq)
  · intro h e he heq
    exact h ⟨e, he, by simpa using heq⟩

theorem ids_insert (h : s.at? ordinal = none) :
    (s.insert ordinal id).ids.Perm (id :: s.ids) :=
  (place_perm (at?_eq_none_iff.1 h)).map Prod.snd

end Slot

namespace Document

variable {d : Document} {id j p : Nat}

/-! ## Reading containers -/

/-- The numbers of containers start at one. -/
theorem get?_eq_some_iff {c : Container} :
    d.get? id = some c ↔ ∃ n : Nat, id = n + 1 ∧ d.containers[n]? = some c := by
  cases id with
  | zero => simp [get?]
  | succ n => simp [get?]

theorem get?_eq_some_size {c : Container} (h : d.get? id = some c) : 1 ≤ id ∧ id ≤ d.size := by
  obtain ⟨n, rfl, hn⟩ := get?_eq_some_iff.1 h
  have hlt : n < d.size := (List.getElem?_eq_some_iff.1 hn).1
  constructor
  · exact Nat.le_add_left 1 n
  · exact hlt

theorem contains_iff : d.contains id = true ↔ 1 ≤ id ∧ id ≤ d.size := by
  constructor
  · intro h
    obtain ⟨c, hc⟩ := Option.isSome_iff_exists.1 h
    exact get?_eq_some_size hc
  · rintro ⟨h1, h2⟩
    obtain ⟨n, rfl⟩ : ∃ n, id = n + 1 := ⟨id - 1, by omega⟩
    show (d.containers[n]?).isSome = true
    rw [List.getElem?_eq_getElem (show n < d.containers.length from h2)]
    rfl

theorem get?_of_contains (h : d.contains id = true) : ∃ c, d.get? id = some c :=
  Option.isSome_iff_exists.1 h

theorem get?_insert (kind : Kind) (block : Block) :
    (d.insert kind block).1.get? j =
      if j = d.size + 1 then some ⟨kind, block, []⟩ else d.get? j := by
  cases j with
  | zero => simp [get?]
  | succ n =>
    simp only [insert, get?, size, Nat.add_right_cancel_iff]
    rcases Nat.lt_trichotomy n d.containers.length with h | h | h
    · rw [List.getElem?_append_left h, if_neg (by omega)]
    · subst h
      simp
    · rw [if_neg (by omega), List.getElem?_eq_none (by simp; omega),
        List.getElem?_eq_none (by omega)]

theorem get?_update (f : Container → Container) :
    (d.update id f).get? j = if j = id then (d.get? j).map f else d.get? j := by
  cases id with
  | zero =>
    cases j with
    | zero => simp [get?]
    | succ m => simp [update]
  | succ n =>
    cases j with
    | zero => simp [get?]
    | succ m =>
      simp only [update, get?, List.getElem?_modify, Nat.add_right_cancel_iff]
      by_cases h : n = m
      · subst h
        simp
      · simp [h, Ne.symm h]

@[simp] theorem size_insert (kind : Kind) (block : Block) :
    (d.insert kind block).1.size = d.size + 1 := by
  simp [insert, size]

@[simp] theorem size_update (f : Container → Container) : (d.update id f).size = d.size := by
  cases id <;> simp [update, size]

@[simp] theorem slots_update (f : Container → Container) : (d.update id f).slots = d.slots := by
  cases id <;> rfl

@[simp] theorem index_update (f : Container → Container) : (d.update id f).index = d.index := by
  cases id <;> rfl

/-! ## Places -/

/-- Every place at which a container hangs: the child lists, then the slots. -/
def placed (d : Document) : List ContainerId :=
  d.containers.flatMap (·.children.filterMap Child.container?) ++ d.slots.flatMap Slot.ids

/-- Every place at which a slot hangs. -/
def slotPlaces (d : Document) : List SlotId :=
  d.containers.flatMap (·.children.filterMap Child.slot?)

theorem mem_below :
    j ∈ d.below p ↔ ∃ c, d.get? p = some c ∧ (.container j ∈ c.children ∨
      ∃ s sl, .slot s ∈ c.children ∧ d.slots[s]? = some sl ∧ j ∈ sl.ids) := by
  unfold below
  cases d.get? p with
  | none => simp
  | some c =>
    simp only [List.mem_flatMap, Option.some.injEq, exists_eq_left']
    constructor
    · rintro ⟨ch, hch, hj⟩
      cases ch with
      | container i =>
        left
        rw [List.mem_singleton.1 hj]
        exact hch
      | raw css => simp at hj
      | slot s =>
        right
        cases hs : d.slots[s]? with
        | none => simp [hs] at hj
        | some sl => exact ⟨s, sl, hch, hs, by simpa [hs] using hj⟩
    · rintro (h | ⟨s, sl, hs, hsl, hj⟩)
      · exact ⟨_, h, by simp⟩
      · exact ⟨_, hs, by simpa [hsl] using hj⟩

/-- What hangs under a container has a place. -/
theorem mem_placed_of_mem_below (hj : j ∈ d.below p) : j ∈ d.placed := by
  obtain ⟨c, hc, hj⟩ := mem_below.1 hj
  rw [placed, List.mem_append, List.mem_flatMap, List.mem_flatMap]
  rcases hj with hchild | ⟨s, sl, -, hsl, hj⟩
  · left
    obtain ⟨n, rfl, hn⟩ := get?_eq_some_iff.1 hc
    exact ⟨c, List.mem_of_getElem? hn, List.mem_filterMap.2 ⟨.container j, hchild, rfl⟩⟩
  · right
    exact ⟨sl, List.mem_of_getElem? hsl, hj⟩

/-! ## Changing one member of a list -/

/-- If one member brings more than before, the whole list brings just that more. -/
theorem flatMap_modify_perm {α β : Type} {f : α → List β} {g : α → α} (ys : List β)
    {l : List α} {n : Nat} {a : α} (hn : l[n]? = some a) (h : (f (g a)).Perm (ys ++ f a)) :
    ((l.modify n g).flatMap f).Perm (ys ++ l.flatMap f) := by
  induction l generalizing n with
  | nil => simp at hn
  | cons x l ih =>
    cases n with
    | zero =>
      obtain rfl : x = a := by simpa using hn
      simpa [← List.append_assoc] using h.append_right (l.flatMap f)
    | succ n =>
      have hl := @ih n (by simpa using hn)
      simp only [List.modify_succ_cons, List.flatMap_cons]
      refine (hl.append_left (f x)).trans ?_
      rw [← List.append_assoc, ← List.append_assoc]
      exact List.perm_append_comm.append_right _

theorem flatMap_modify_eq {α β : Type} {f : α → List β} {g : α → α} {l : List α} {n : Nat}
    (h : ∀ a, f (g a) = f a) : (l.modify n g).flatMap f = l.flatMap f := by
  induction l generalizing n with
  | nil => simp
  | cons x l ih => cases n <;> simp [h, ih]

end Document

end AtomicCss
