import AtomicCss.Proofs.Document.Settling
import AtomicCss.Proofs.Document.Tree
import Mathlib

/-! # What a selector declares

What the selector with a text declares under the root is changed by the calls that write to that text,
`selector` (`declared_selector`) and emissions (`declared_absorbAll`), and by no other call at the root.
Both merge, so the last block that sets a property decides on its value (`Block.get?_mergeAll`). -/

namespace AtomicCss

/-- A block with others merged into it in turn. -/
def Block.mergeAll (b : Block) (bs : List Block) : Block := bs.foldl (fun b c => (b.merge c).1) b

theorem Block.mergeAll_append (b : Block) (bs cs : List Block) :
    b.mergeAll (bs ++ cs) = (b.mergeAll bs).mergeAll cs :=
  List.foldl_append

/-- Of blocks that are merged in turn, the last one that sets a property decides on its value. -/
theorem Block.get?_mergeAll {p : String} (b : Block) (bs : List Block) :
    (b.mergeAll bs).get? p = (bs.filterMap (·.get? p)).getLast?.or (b.get? p) := by
  induction bs generalizing b with
  | nil => rfl
  | cons c bs ih =>
    rw [show b.mergeAll (c :: bs) = (b.merge c).1.mergeAll bs from rfl, ih, get?_merge,
      List.filterMap_cons]
    cases c.get? p with
    | none => rw [Option.none_or]
    | some v =>
      rw [Option.some_or, List.getLast?_cons]
      cases (bs.filterMap (·.get? p)).getLast? <;> rfl

/-- The last block that is merged has all of its declarations. -/
theorem Block.mem_mergeAll {bs : List Block} {c : Block} {declaration : Declaration} (b : Block)
    (h : declaration ∈ c.declarations) (hlast : bs.getLast? = some c) :
    declaration ∈ (b.mergeAll bs).declarations := by
  obtain ⟨bs, rfl⟩ := List.getLast?_eq_some_iff.1 hlast
  rw [mergeAll_append]
  exact mem_merge h

namespace Document

variable {d d' : Document} {text t : String} {block : Block} {id : Nat}

/-- What the selector with a text declares under the root: nothing, if there is none. -/
def declared (d : Document) (text : String) : Block := Standing.blockOf (d.standing text)

theorem declared_eq : d.declared text =
    ((d.findSelector? rootId text).bind fun id => (d.get? id).map (·.block)).getD ∅ := by
  rw [declared, standing, Standing.blockOf, Option.map_bind]
  simp only [Function.comp_def, Option.map_map]

/-- A change that leaves the text its container, and the containers under the root their blocks. -/
theorem WellFormed.declared_congr (h : d.WellFormed)
    (hfind : d'.findSelector? rootId text = d.findSelector? rootId text)
    (hget : ∀ {id}, id ∈ d.below rootId →
      (d'.get? id).map (·.block) = (d.get? id).map (·.block)) :
    d'.declared text = d.declared text := by
  rw [declared_eq, declared_eq, hfind]
  congr 1
  apply Option.bind_congr
  intro id hid
  exact hget (h.findSelector?_eq_some_iff.1 hid).1

/-- A new child leaves all containers their blocks. -/
theorem map_block_adopt (p : Nat) (child : Child) {j : Nat} :
    ((d.adopt p child).get? j).map (·.block) = (d.get? j).map (·.block) := by
  rw [adopt, get?_update]
  split
  · rw [Option.map_map]
    rfl
  · rfl

theorem map_block_adopt_insert (kind : Kind) (block : Block) (p : Nat) (child : Child) {j : Nat}
    (hj : d.contains j = true) :
    (((d.insert kind block).1.adopt p child).get? j).map (·.block) = (d.get? j).map (·.block) := by
  have := (contains_iff.1 hj).2
  rw [map_block_adopt, get?_insert, if_neg (by omega)]

theorem WellFormed.declared_nested (h : d.WellFormed) {p : Nat} {kind : Kind}
    (hs : d.nested p kind = .ok (d', id)) (text : String) : d'.declared text = d.declared text := by
  unfold Document.nested at hs
  split at hs
  · obtain ⟨rfl, -⟩ := Prod.mk.inj (Except.ok.inj hs)
    have hindex : ((d.insert kind ∅).1.adopt p (.container (d.size + 1))).index = d.index :=
      index_update _
    exact h.declared_congr (findSelector?_congr hindex) fun hid =>
      map_block_adopt_insert kind ∅ p _ (h.contains_of_mem_below hid)
  · cases hs

theorem WellFormed.declared_raw (h : d.WellFormed) {p : Nat} {css : String}
    (hs : d.raw p css = .ok d') (text : String) : d'.declared text = d.declared text := by
  unfold Document.raw at hs
  split at hs
  · obtain rfl := Except.ok.inj hs
    exact h.declared_congr (findSelector?_congr (index_update _)) fun _ =>
      map_block_adopt p (.raw css)
  · cases hs

theorem WellFormed.declared_reserved (h : d.WellFormed) (p : Nat) (text : String) :
    (d.reserved p).declared text = d.declared text :=
  h.declared_congr (findSelector?_congr index_reserved) fun _ =>
    map_block_adopt p (.slot d.slots.length)

/-- **A selector of the root merges its block into what its text declares.** -/
theorem WellFormed.declared_selector (h : d.WellFormed) (t : String) (block : Block) :
    ∃ d' id, d.selector rootId t block = .ok (d', id) ∧ d'.slots = d.slots ∧
      ∀ text, d'.declared text = if Text.trimmed text = Text.trimmed t then
        ((d.declared text).merge block).1 else d.declared text := by
  rw [Document.selector, if_pos h.contains_root]
  cases hfind : d.findSelector? rootId t with
  | some id =>
    refine ⟨_, id, rfl, slots_merge block, ?_⟩
    intro text
    rw [declared, h.standing_merge hfind]
    split
    · rename_i ht
      obtain ⟨c, hc⟩ := get?_of_contains
        (h.contains_of_mem_below (h.findSelector?_eq_some_iff.1 hfind).1)
      have hst : d.standing text = some ⟨{p | d.StandsAt p.1 p.2 id}, c.block⟩ := by
        rw [← standing_trimmed, ht, standing_trimmed, standing, hfind, Option.bind_some, hc]
        rfl
      rw [declared, hst]
      rfl
    · rfl
  | none =>
    refine ⟨_, _, rfl, slots_update _, ?_⟩
    intro text
    let d₁ := (d.insert (.selector (Text.trimmed t)) block).1.adopt rootId (.container (d.size + 1))
    have hfound : (d₁.enlist rootId (Text.trimmed t) (d.size + 1)).findSelector? rootId text =
        if Text.trimmed text = Text.trimmed t then some (d.size + 1)
        else d.findSelector? rootId text := by
      have hindex : d₁.index = d.index := index_update _
      rw [findSelector?, enlist, List.find?_cons, hindex]
      by_cases ht : Text.trimmed text = Text.trimmed t
      · simp [ht]
      · have hne : decide ((rootId, Text.trimmed t) = (rootId, Text.trimmed text)) = false := by
          simpa using Ne.symm ht
        rw [hne, if_neg ht]
        rfl
    have hget {j : Nat} :
        (d₁.enlist rootId (Text.trimmed t) (d.size + 1)).get? j = d₁.get? j := get?_congr rfl
    show (d₁.enlist rootId (Text.trimmed t) (d.size + 1)).declared text = _
    rw [declared_eq, hfound]
    split
    · rename_i ht
      -- nothing was declared before, and the new container has the block
      have hnone : d.findSelector? rootId text = none := by
        rw [findSelector?, ht]
        exact hfind
      have hnew : (d₁.get? (d.size + 1)).map (·.block) = some block := by
        rw [map_block_adopt, get?_insert, if_pos rfl]
        rfl
      rw [declared_eq, hnone, Option.bind_some, Option.bind_none, Option.getD_none,
        Block.empty_merge, hget, hnew]
      rfl
    · rw [declared_eq]
      congr 1
      apply Option.bind_congr
      intro id hid
      rw [hget]
      exact map_block_adopt_insert _ block _ _
        (h.contains_of_mem_below (h.findSelector?_eq_some_iff.1 hid).1)

theorem WellFormed.ne_root_of_selector (h : d.WellFormed) {p : Nat} {cause : Error}
    (hs : d.selector p t block = .error cause) : p ≠ rootId := by
  rintro rfl
  obtain ⟨d', id, hd, -⟩ := h.declared_selector t block
  cases hs.symm.trans hd

/-- A selector of another container changes nothing of what the texts of the root declare. -/
theorem WellFormed.declared_selector_of_ne (h : d.WellFormed) {p : Nat} (hp : p ≠ rootId)
    (hs : d.selector p t block = .ok (d', id)) : d'.declared text = d.declared text := by
  unfold Document.selector at hs
  split at hs
  case isFalse => cases hs
  case isTrue =>
    split at hs
    case h_1 i hfind =>
      obtain ⟨rfl, rfl⟩ : d.merge i block = d' ∧ i = id := by simpa using hs
      refine h.declared_congr (findSelector?_merge block) ?_
      intro j hj
      -- a container has one parent only
      have hne : j ≠ i := by
        rintro rfl
        exact hp (h.parent_unique (h.findSelector?_eq_some_iff.1 hfind).1 hj)
      rw [get?_merge, if_neg hne]
    case h_2 hfind =>
      obtain ⟨rfl, -⟩ := Prod.mk.inj (Except.ok.inj hs)
      refine h.declared_congr ?_ ?_
      · have hindex : ((d.insert (.selector (Text.trimmed t)) block).1.adopt p
            (.container (d.size + 1))).index = d.index := index_update _
        have hne : decide ((p, Text.trimmed t) = (rootId, Text.trimmed text)) = false := by
          simp [hp]
        show (((d.insert (.selector (Text.trimmed t)) block).1.adopt p
          (.container (d.size + 1))).enlist p (Text.trimmed t) (d.size + 1)).findSelector? rootId
            text = _
        rw [findSelector?, enlist, List.find?_cons, hindex, hne]
        rfl
      · intro j hj
        exact (congrArg _ (get?_congr rfl)).trans
          (map_block_adopt_insert _ block p _ (h.contains_of_mem_below hj))

/-- What the selector declares after some classes have settled it. -/
theorem blockOf_settle (st : Option Standing) (xs : List Emission) :
    Standing.blockOf (Standing.settle st xs) = (Standing.blockOf st).mergeAll (xs.map (·.block)) := by
  rw [Standing.block_settle, ← Standing.foldl_merge, Block.mergeAll, List.foldl_map]

/-- **Emitted classes merge their blocks in turn** into what their texts declare. -/
theorem AdmitsAll.declared_absorbAll {xs : List Emission} (h : d.AdmitsAll xs) (text : String) :
    (d.absorbAll xs).declared text =
      (d.declared text).mergeAll ((xs.filter (·.text = Text.trimmed text)).map (·.block)) := by
  rw [declared, h.standing_absorbAll, blockOf_settle, declared]

end Document

end AtomicCss
