import AtomicCss.Proofs.Document.Settling

/-! # Classes that are emitted again

The selectors of classes that were emitted are found, so the same classes are merged when they are emitted
again (`Found.absorbAll`). Several of them may share a selector and override each other; but behind
all of them, its block is one into which they were merged in turn, and merging them in turn once more
changes nothing. So the second emission leads to the same containers and leaves the document as it is,
except for its warnings (`AdmitsAll.absorbAll_again`). -/

namespace AtomicCss.Document

variable {d d' : Document} {x : Emission} {xs : List Emission} {id : ContainerId}
  {text : String}

theorem ext_get? (h : ∀ id, d.get? id = d'.get? id) : d.containers = d'.containers :=
  List.ext_getElem? fun n => h (n + 1)

/-! ## Selectors that are found -/

/-- An emission leaves what is found by a text. -/
theorem findSelector?_absorb_of_some (hfind : d.findSelector? rootId text = some id) :
    (d.absorb x).1.findSelector? rootId text = some id := by
  rw [findSelector?_absorb]
  split
  · rename_i ht
    rw [← findSelector?_trimmed, ht] at hfind
    rw [absorb_of_found hfind]
  · exact hfind

theorem findSelector?_absorbAll_of_some (hfind : d.findSelector? rootId text = some id) :
    (d.absorbAll xs).findSelector? rootId text = some id := by
  induction xs generalizing d with
  | nil => exact hfind
  | cons x xs ih => exact ih (findSelector?_absorb_of_some hfind)

/-- Each class lands in the selector that is found by its text in the end. -/
theorem map_some_landings : (d.landings xs).map some =
    xs.map fun x => (d.absorbAll xs).findSelector? rootId x.text := by
  induction xs generalizing d with
  | nil => rfl
  | cons x xs ih =>
    have hx : (d.absorb x).1.findSelector? rootId x.text = some (d.absorb x).2 := by
      rw [findSelector?_absorb, if_pos x.trimmed_text]
    rw [landings, List.map_cons, List.map_cons, ih]
    exact congrArg₂ List.cons (findSelector?_absorbAll_of_some hx).symm rfl

/-- The selectors of some classes are found. -/
def Found (d : Document) (xs : List Emission) : Prop :=
  ∀ x ∈ xs, (d.findSelector? rootId x.text).isSome

theorem found_absorbAll (d : Document) (xs : List Emission) : (d.absorbAll xs).Found xs :=
  fun _ hx => isSome_findSelector?_of_mem hx

/-- The classes whose selector is a given one. -/
def sharing (d : Document) (id : ContainerId) (xs : List Emission) : List Emission :=
  xs.filter fun x => d.findSelector? rootId x.text = some id

theorem sharing_congr (h : d'.index = d.index) : d'.sharing id xs = d.sharing id xs :=
  List.filter_congr fun x _ => by rw [findSelector?_congr h]

theorem Found.absorb (h : d.Found (x :: xs)) : (d.absorb x).1.slots = d.slots ∧
    (d.absorb x).1.index = d.index ∧ (d.absorb x).1.Found xs := by
  obtain ⟨hx, hxs⟩ := List.forall_mem_cons.1 h
  obtain ⟨id, hfind⟩ := Option.isSome_iff_exists.1 hx
  rw [absorb_of_found hfind]
  refine ⟨slots_merge _, index_merge _, fun y hy => ?_⟩
  rw [findSelector?_merge]
  exact hxs y hy

/-- **Classes whose selectors are found are merged into them in turn.** -/
theorem Found.absorbAll (h : d.Found xs) : (d.absorbAll xs).slots = d.slots ∧
    (d.absorbAll xs).index = d.index ∧ ∀ id, (d.absorbAll xs).get? id =
      (d.get? id).map fun c =>
        { c with block := (d.sharing id xs).foldl (fun b x => (b.merge x.block).1) c.block } := by
  induction xs generalizing d with
  | nil =>
    refine ⟨rfl, rfl, fun id => ?_⟩
    exact Option.map_id'.symm
  | cons x xs ih =>
    obtain ⟨hslots, hindex, hfound⟩ := h.absorb
    obtain ⟨ihslots, ihindex, ihget⟩ := ih hfound
    refine ⟨ihslots.trans hslots, ihindex.trans hindex, fun id => (ihget id).trans ?_⟩
    obtain ⟨i, hfind⟩ := Option.isSome_iff_exists.1 (h x List.mem_cons_self)
    rw [sharing_congr hindex, absorb_of_found hfind, get?_merge]
    by_cases hi : id = i
    · have hcons : d.sharing id (x :: xs) = x :: d.sharing id xs := by
        simp [sharing, hfind, hi]
      rw [if_pos hi, hcons, Option.map_map]
      rfl
    · have hcons : d.sharing id (x :: xs) = d.sharing id xs := by
        simp [sharing, hfind, Ne.symm hi]
      rw [if_neg hi, hcons]

/-! ## The second time -/

/-- Behind classes that were emitted in turn, the block of a selector is one into which those with this
selector were merged in turn. -/
theorem AdmitsAll.exists_merge_sharing (h : d.AdmitsAll xs) (hw : (d.absorbAll xs).WellFormed)
    {c : Container} (hc : (d.absorbAll xs).get? id = some c) :
    ∃ b : Block, (b.merge (Standing.merged ((d.absorbAll xs).sharing id xs))).1 = c.block := by
  cases hsharing : (d.absorbAll xs).sharing id xs with
  | nil => exact ⟨c.block, rfl⟩
  | cons x ys =>
    have hx : x ∈ (d.absorbAll xs).sharing id xs := by
      rw [hsharing]
      exact List.mem_cons_self
    have hfind := of_decide_eq_true (List.mem_filter.1 hx).2
    -- the classes with this selector are those with its text
    have hsame : xs.filter (·.text = Text.trimmed x.text) = x :: ys := by
      rw [← hsharing]
      refine List.filter_congr fun y _ => Bool.decide_congr ?_
      rw [x.trimmed_text]
      constructor
      · intro ht
        rw [ht, hfind]
      · intro hy
        have htext := (hw.findSelector?_eq_some_iff.1 hy).2
        rw [(hw.findSelector?_eq_some_iff.1 hfind).2, x.trimmed_text, y.trimmed_text] at htext
        exact (Option.some.inj htext).symm
    have hstanding : Standing.blockOf ((d.absorbAll xs).standing x.text) = c.block := by
      rw [standing, hfind, Option.bind_some, hc]
      rfl
    refine ⟨Standing.blockOf (d.standing x.text), ?_⟩
    rw [← hsame, ← Standing.block_settle, ← h.standing_absorbAll, hstanding]

/-- **The second emission of classes changes nothing** but the warnings, and leads to the same
containers. -/
theorem AdmitsAll.absorbAll_again (h : d.AdmitsAll xs) (hw : (d.absorbAll xs).WellFormed) :
    (∃ warnings, (d.absorbAll xs).absorbAll xs = { d.absorbAll xs with warnings := warnings }) ∧
    (d.absorbAll xs).landings xs = d.landings xs := by
  obtain ⟨hslots, hindex, hget⟩ := (found_absorbAll d xs).absorbAll
  have hcontainers : ((d.absorbAll xs).absorbAll xs).containers = (d.absorbAll xs).containers := by
    apply ext_get?
    intro id
    rw [hget]
    cases hc : (d.absorbAll xs).get? id with
    | none => rfl
    | some c =>
      obtain ⟨b, hb⟩ := h.exists_merge_sharing hw hc
      rw [Option.map_some, Standing.foldl_merge, ← hb, Block.merge_merge, hb]
  refine ⟨⟨((d.absorbAll xs).absorbAll xs).warnings, ?_⟩, ?_⟩
  · generalize (d.absorbAll xs).absorbAll xs = d'' at *
    cases d''
    simp only at *
    rw [hslots, hindex, hcontainers]
  · have hfind : ((d.absorbAll xs).landings xs).map some = (d.landings xs).map some := by
      rw [map_some_landings, map_some_landings]
      simp only [findSelector?_congr hindex]
    exact List.map_injective_iff.2 (Option.some_injective _) hfind

end AtomicCss.Document
