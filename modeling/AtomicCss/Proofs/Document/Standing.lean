import AtomicCss.Proofs.Document.Emission
import Mathlib

/-! # Selectors by their text

Under the root there is at most one selector with a given text, so the text says where it stands and
what it declares. An emission touches one text only (`standing_absorb`), and what many emissions make
of a text is settled by those that have it, in their order (`standing_absorbAll`). -/

namespace AtomicCss

/-- Where a selector of the root stands among the slots, and what it declares. -/
structure Standing where
  places : Set (SlotId × Nat)
  block : Block

/-- What a class makes of the selector with its text: the first one that comes decides on the place,
and later ones are merged. -/
def Standing.add (st : Option Standing) (x : Emission) : Option Standing :=
  match st with
  | none => some ⟨{(x.slot, x.ordinal)}, x.block⟩
  | some st => some ⟨st.places, (st.block.merge x.block).1⟩

/-- What classes make, one after the other, of the selector that they share. -/
def Standing.settle (st : Option Standing) (xs : List Emission) : Option Standing :=
  xs.foldl Standing.add st

namespace Document

variable {d : Document} {x : Emission} {xs : List Emission} {text : String} {id p : Nat}

/-! ## Finding selectors -/

theorem findSelector?_trimmed : d.findSelector? p (Text.trimmed text) = d.findSelector? p text := by
  rw [findSelector?, findSelector?, Text.trimmed_trimmed]

theorem findSelector?_congr {d' : Document} (h : d'.index = d.index) :
    d'.findSelector? p text = d.findSelector? p text := by
  rw [findSelector?, findSelector?, h]

theorem findSelector?_merge (block : Block) :
    (d.merge id block).findSelector? p text = d.findSelector? p text :=
  findSelector?_congr (index_merge block)

/-- After an emission, its text leads to where the class has landed. -/
theorem findSelector?_absorb : (d.absorb x).1.findSelector? rootId text =
    if Text.trimmed text = x.text then some (d.absorb x).2 else d.findSelector? rootId text := by
  have htrim (ht : Text.trimmed text = x.text) :
      d.findSelector? rootId text = d.findSelector? rootId x.text := by
    rw [findSelector?, findSelector?, x.trimmed_text, ht]
  unfold Document.absorb
  cases hfind : d.findSelector? rootId x.text with
  | some id =>
    simp only [findSelector?_merge]
    split
    · rename_i ht
      rw [htrim ht, hfind]
    · rfl
  | none =>
    rw [findSelector?, sprout, enlist, List.find?_cons]
    by_cases ht : Text.trimmed text = x.text
    · simp [ht]
    · have hne : decide ((rootId, x.text) = (rootId, Text.trimmed text)) = false := by
        simpa using Ne.symm ht
      rw [hne, if_neg ht]
      rfl

/-- Texts stay. -/
theorem isSome_findSelector?_absorbAll (h : (d.findSelector? rootId text).isSome) :
    ((d.absorbAll xs).findSelector? rootId text).isSome := by
  induction xs generalizing d with
  | nil => exact h
  | cons x xs ih =>
    apply ih
    rw [findSelector?_absorb]
    split
    · rfl
    · exact h

/-- The text of an emitted class leads somewhere. -/
theorem isSome_findSelector?_of_mem (h : x ∈ xs) :
    ((d.absorbAll xs).findSelector? rootId x.text).isSome := by
  induction xs generalizing d with
  | nil => cases h
  | cons y xs ih =>
    rcases List.mem_cons.1 h with rfl | h
    · have hnew : ((d.absorb x).1.findSelector? rootId x.text).isSome := by
        rw [findSelector?_absorb, if_pos x.trimmed_text]
        rfl
      exact isSome_findSelector?_absorbAll (d := (d.absorb x).1) hnew
    · exact ih h

/-! ## Standings -/

/-- How the selector with a text stands under the root. -/
def standing (d : Document) (text : String) : Option Standing :=
  (d.findSelector? rootId text).bind fun id => (d.get? id).map fun c =>
    ⟨{p | d.StandsAt p.1 p.2 id}, c.block⟩

theorem standing_trimmed (text : String) : d.standing (Text.trimmed text) = d.standing text := by
  rw [standing, standing, findSelector?_trimmed]

/-- Merging into a selector touches one text only. -/
theorem WellFormed.standing_merge (h : d.WellFormed) {t : String}
    (hfind : d.findSelector? rootId t = some id) (block : Block) (text : String) :
    (d.merge id block).standing text = if Text.trimmed text = Text.trimmed t then
      (d.standing text).map fun st => ⟨st.places, (st.block.merge block).1⟩
    else d.standing text := by
  rw [standing, findSelector?_merge]
  split
  · rename_i ht
    have hfind' : d.findSelector? rootId text = some id := by
      rw [findSelector?, ht]
      exact hfind
    obtain ⟨c, hc⟩ := get?_of_contains
      (h.contains_of_mem_below (h.findSelector?_eq_some_iff.1 hfind).1)
    rw [standing, hfind', Option.bind_some, Option.bind_some, get?_merge, if_pos rfl, hc]
    simp only [Option.map_some, standsAt_merge]
  · rename_i ht
    rw [standing]
    apply Option.bind_congr
    intro j hj
    -- another text leads to another selector
    have hne : j ≠ id := by
      rintro rfl
      have hother := (h.findSelector?_eq_some_iff.1 hj).2
      rw [(h.findSelector?_eq_some_iff.1 hfind).2] at hother
      exact ht (Option.some.inj hother).symm
    rw [get?_merge, if_neg hne]
    simp only [standsAt_merge]

/-- **An emission touches one text only.** -/
theorem WellFormed.standing_absorb (h : d.WellFormed) (hx : d.Admits x) (text : String) :
    (d.absorb x).1.standing text =
      if Text.trimmed text = x.text then Standing.add (d.standing text) x else d.standing text := by
  cases hfind : d.findSelector? rootId x.text with
  | some id =>
    rw [absorb_of_found hfind, h.standing_merge hfind, x.trimmed_text]
    split
    · rename_i ht
      obtain ⟨c, hc⟩ := get?_of_contains
        (h.contains_of_mem_below (h.findSelector?_eq_some_iff.1 hfind).1)
      rw [← standing_trimmed, ht, standing, hfind, Option.bind_some, hc]
      rfl
    · rfl
  | none =>
    have habsorb : d.absorb x = (d.sprout x, d.size + 1) := by
      rw [Document.absorb, hfind]
    have hnew : (d.sprout x).findSelector? rootId text =
        if Text.trimmed text = x.text then some (d.size + 1) else d.findSelector? rootId text := by
      have hfound : (d.absorb x).1.findSelector? rootId text = _ := findSelector?_absorb
      rwa [habsorb] at hfound
    have hstands {s ordinal id : Nat} : (d.sprout x).StandsAt s ordinal id ↔
        d.StandsAt s ordinal id ∨ (s = x.slot ∧ ordinal = x.ordinal ∧ id = d.size + 1) :=
      standsAt_sprout hx.slot fun _ => h.not_standsAt hx hfind
    rw [habsorb, standing, hnew]
    split
    · rename_i ht
      rw [← standing_trimmed (d := d), ht, standing, hfind, Option.bind_some, Option.bind_none,
        get?_sprout, if_pos rfl]
      -- nothing but the class stands where it has landed
      have hplaces : {p : SlotId × Nat | (d.sprout x).StandsAt p.1 p.2 (d.size + 1)} =
          {(x.slot, x.ordinal)} := by
        ext ⟨s, ordinal⟩
        rw [Set.mem_singleton_iff, Prod.mk.injEq]
        show (d.sprout x).StandsAt s ordinal (d.size + 1) ↔ _
        rw [hstands]
        constructor
        · rintro (hat | ⟨hs, ho, -⟩)
          · have := h.le_size_of_standsAt hat
            omega
          · exact ⟨hs, ho⟩
        · rintro ⟨hs, ho⟩
          exact .inr ⟨hs, ho, rfl⟩
      simp only [Option.map_some, Standing.add, hplaces]
    · rw [standing]
      apply Option.bind_congr
      intro j hj
      have hle := (contains_iff.1 (h.contains_of_mem_below (h.findSelector?_eq_some_iff.1 hj).1)).2
      have hne : j ≠ d.size + 1 := Nat.ne_of_lt (Nat.lt_succ_of_le hle)
      rw [get?_sprout, if_neg hne]
      simp only [hstands, hne, and_false, or_false]

/-- What emissions make of a text is settled by those that have it. -/
theorem AdmitsAll.standing_absorbAll (h : d.AdmitsAll xs) (text : String) :
    (d.absorbAll xs).standing text =
      Standing.settle (d.standing text) (xs.filter (·.text = Text.trimmed text)) := by
  induction xs generalizing d with
  | nil => rfl
  | cons x xs ih =>
    obtain ⟨hw, hx, hrest⟩ := h
    refine (ih hrest).trans ?_
    rw [hw.standing_absorb hx, List.filter_cons]
    by_cases ht : x.text = Text.trimmed text
    · rw [if_pos ht.symm, if_pos (by simpa using ht)]
      rfl
    · rw [if_neg (Ne.symm ht), if_neg (by simpa using ht)]

end Document

end AtomicCss
