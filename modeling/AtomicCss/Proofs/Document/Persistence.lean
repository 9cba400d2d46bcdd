import AtomicCss.Proofs.Document.Standing

/-! # Containers persist

Every call of a document and every emission leaves each container what it is, with its properties in
front, and adds to the index of the selectors (`Persists`). So a selector that is found by its text is
found by it for good (`Persists.findSelector?`), and classes that were emitted once are styled for
good (`Carries.persists`). -/

namespace AtomicCss.Document

variable {d d' d'' : Document} {x : Emission} {id p : Nat} {text : String} {block : Block}

/-- The containers of `d` are those of `d'`, with as many properties or more, and what `d` finds by a
text, `d'` finds by it. -/
structure Persists (d d' : Document) : Prop where
  container : ∀ {id : Nat} {c : Container}, d.get? id = some c → ∃ c', d'.get? id = some c' ∧
    c'.kind = c.kind ∧ c.block.properties <+: c'.block.properties
  index : d.index <:+ d'.index

namespace Persists

theorem refl (d : Document) : d.Persists d where
  container hc := ⟨_, hc, rfl, List.prefix_rfl⟩
  index := List.suffix_rfl

theorem trans (h : d.Persists d') (h' : d'.Persists d'') : d.Persists d'' where
  container hc := by
    obtain ⟨c', hc', hk, hp⟩ := h.container hc
    obtain ⟨c'', hc'', hk', hp'⟩ := h'.container hc'
    exact ⟨c'', hc'', hk'.trans hk, hp.trans hp'⟩
  index := h.index.trans h'.index

theorem of_containers (hc : d'.containers = d.containers) (hi : d.index <:+ d'.index) :
    d.Persists d' where
  container hget := ⟨_, (get?_congr hc).trans hget, rfl, List.prefix_rfl⟩
  index := hi

/-! ## The elementary changes -/

theorem insert (d : Document) (kind : Kind) (block : Block) : d.Persists (d.insert kind block).1 where
  container {j} c hc := by
    have := (get?_eq_some_size hc).2
    exact ⟨c, by rw [get?_insert, if_neg (by omega), hc], rfl, List.prefix_rfl⟩
  index := List.suffix_rfl

theorem adopt (d : Document) (p : ContainerId) (child : Child) : d.Persists (d.adopt p child) where
  container {j} c hc := by
    rw [Document.adopt, get?_update, hc]
    split
    · exact ⟨_, rfl, rfl, List.prefix_rfl⟩
    · exact ⟨c, rfl, rfl, List.prefix_rfl⟩
  index := by
    rw [show (d.adopt p child).index = d.index from index_update _]

theorem merge (d : Document) (id : ContainerId) (block : Block) : d.Persists (d.merge id block) where
  container {j} c hc := by
    rw [get?_merge, hc]
    split
    · exact ⟨_, rfl, rfl, Block.properties_merge _ _⟩
    · exact ⟨c, rfl, rfl, List.prefix_rfl⟩
  index := by rw [index_merge]

theorem enlist (d : Document) (p : ContainerId) (text : String) (id : ContainerId) :
    d.Persists (d.enlist p text id) :=
  .of_containers rfl (List.suffix_cons _ _)

/-! ## Call by call -/

theorem selector (hs : d.selector p text block = .ok (d', id)) : d.Persists d' := by
  unfold Document.selector at hs
  split at hs
  case isFalse => cases hs
  case isTrue =>
    split at hs
    case h_1 i hfind =>
      obtain ⟨rfl, -⟩ := Prod.mk.inj (Except.ok.inj hs)
      exact merge d i block
    case h_2 hfind =>
      obtain ⟨rfl, -⟩ := Prod.mk.inj (Except.ok.inj hs)
      exact ((insert d _ block).trans (adopt _ p _)).trans (enlist _ p _ _)

theorem nested {kind : Kind} (hs : d.nested p kind = .ok (d', id)) : d.Persists d' := by
  unfold Document.nested at hs
  split at hs
  · obtain ⟨rfl, -⟩ := Prod.mk.inj (Except.ok.inj hs)
    exact (insert d kind ∅).trans (adopt _ p _)
  · cases hs

theorem raw {css : String} (hs : d.raw p css = .ok d') : d.Persists d' := by
  unfold Document.raw at hs
  split at hs
  · obtain rfl := Except.ok.inj hs
    exact adopt d p _
  · cases hs

theorem reserved (d : Document) (p : ContainerId) : d.Persists (d.reserved p) :=
  (adopt d p _).trans (.of_containers rfl List.suffix_rfl)

theorem absorb (d : Document) (x : Emission) : d.Persists (d.absorb x).1 := by
  unfold Document.absorb
  split
  · exact merge d _ x.block
  · have hfill : d.Persists ((d.insert (.selector x.text) x.block).1.fillSlot x.slot x.ordinal
        (d.size + 1)) :=
      (insert d _ x.block).trans (.of_containers rfl List.suffix_rfl)
    exact hfill.trans (enlist _ rootId x.text _)

theorem absorbAll (d : Document) (xs : List Emission) : d.Persists (d.absorbAll xs) := by
  induction xs generalizing d with
  | nil => exact refl d
  | cons x xs ih => exact (absorb d x).trans (ih _)

/-! ## What is found by a text -/

/-- A selector is found by its text for good. -/
theorem findSelector? (h : d.Persists d') (hw : d'.WellFormed)
    (hfind : d.findSelector? p text = some id) : d'.findSelector? p text = some id := by
  have hmem : ((p, Text.trimmed text), id) ∈ d.index := by
    obtain ⟨⟨key, i⟩, hx, rfl⟩ := Option.map_eq_some_iff.1 hfind
    have hkey : key = (p, Text.trimmed text) := by simpa using List.find?_some hx
    rw [← hkey]
    exact List.mem_of_find?_eq_some hx
  rw [hw.findSelector?_eq_some_iff, ← hw.indexed]
  exact h.index.subset hmem

end Persists

/-! ## Styled classes -/

/-- The selectors of some classes stand under the root, and have all properties of the classes. -/
def Carries (d : Document) (classes : List (String × Block)) : Prop :=
  ∀ c ∈ classes, ∃ id container, d.findSelector? rootId (Css.classSelector c.1) = some id ∧
    d.get? id = some container ∧ ∀ p ∈ c.2.properties, p ∈ container.block.properties

theorem Carries.persists {classes : List (String × Block)} (h : d.Carries classes)
    (hp : d.Persists d') (hw : d'.WellFormed) : d'.Carries classes := by
  intro c hc
  obtain ⟨id, container, hfind, hget, hproperties⟩ := h c hc
  obtain ⟨container', hget', -, hprefix⟩ := hp.container hget
  refine ⟨id, container', hp.findSelector? hw hfind, hget', ?_⟩
  intro p hpc
  exact hprefix.subset (hproperties p hpc)

/-- Emitted classes are styled. -/
theorem AdmitsAll.carries {xs : List Emission} (h : d.AdmitsAll xs)
    (hw : (d.absorbAll xs).WellFormed) :
    (d.absorbAll xs).Carries (xs.map fun x => (x.className, x.block)) := by
  induction xs generalizing d with
  | nil =>
    intro c hc
    cases hc
  | cons x xs ih =>
    have hrest := Persists.absorbAll (d.absorb x).1 xs
    obtain ⟨hwd, hx, ha⟩ := h
    have hx : (d.absorb x).1.Carries [(x.className, x.block)] := by
      intro c hc
      obtain rfl := List.mem_singleton.1 hc
      obtain ⟨container, hget, -, hdeclarations⟩ := hwd.landing x
      refine ⟨_, container, (findSelector?_absorb).trans (if_pos rfl), hget, ?_⟩
      intro p hp
      obtain ⟨declaration, hd, rfl⟩ := List.mem_map.1 hp
      exact List.mem_map_of_mem (hdeclarations declaration hd)
    intro c hc
    rcases List.mem_cons.1 hc with rfl | hc
    · exact hx.persists hrest hw _ (List.mem_singleton_self _)
    · exact ih ha hw c hc

end AtomicCss.Document
