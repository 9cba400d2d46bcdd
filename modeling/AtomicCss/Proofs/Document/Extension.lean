import AtomicCss.Proofs.Document.Emission
import AtomicCss.Proofs.Document.Tree
import AtomicCss.Proofs.Sheet.Pieces

/-! # Documents that grow

An emission adds declarations behind those of a selector, or a selector to a slot, and takes nothing
away (`Extends.absorb`). The rules of the document then embed in the rules of the grown one: each
keeps its at-rules, its selectors and its properties, and all keep their order (`Extends.rules`). -/

namespace AtomicCss

/-! ## Rules that grow -/

/-- The later rule is the earlier one, perhaps with more properties behind those that it had. -/
structure Rule.Extends (r r' : Rule) : Prop where
  atRules : r'.atRules = r.atRules
  selectors : r'.selectors = r.selectors
  properties : r.properties <+: r'.properties

/-- All of the earlier rules are among the later ones, in the same order. -/
def Rule.Embeds : List Rule → List Rule → Prop := List.SublistForall₂ Rule.Extends

namespace Rule.Embeds

variable {r r' : Rule} {rs rs' qs qs' : List Rule}

instance : Std.Refl Rule.Extends := ⟨fun _ => ⟨rfl, rfl, List.prefix_rfl⟩⟩

instance : IsTrans Rule Rule.Extends where
  trans _ _ _ h h' :=
    ⟨h'.atRules.trans h.atRules, h'.selectors.trans h.selectors, h.properties.trans h'.properties⟩

theorem refl (rs : List Rule) : Rule.Embeds rs rs := List.SublistForall₂.is_refl.refl rs

theorem append_left (ps : List Rule) (h : Rule.Embeds rs rs') : Rule.Embeds rs (ps ++ rs') := by
  induction ps with
  | nil => exact h
  | cons p ps ih => exact .cons_right ih

theorem append (h : Rule.Embeds rs rs') (h' : Rule.Embeds qs qs') :
    Rule.Embeds (rs ++ qs) (rs' ++ qs') := by
  induction h with
  | nil => exact append_left _ h'
  | cons hr _ ih => exact .cons hr ih
  | cons_right _ ih => exact .cons_right ih

theorem flatMap {α : Type} {f g : α → List Rule} {l l' : List α} (hl : l.Sublist l')
    (h : ∀ x ∈ l, Rule.Embeds (f x) (g x)) : Rule.Embeds (l.flatMap f) (l'.flatMap g) := by
  induction hl with
  | slnil => exact .nil
  | cons x _ ih =>
    rw [List.flatMap_cons]
    exact append_left _ (ih h)
  | cons_cons x _ ih =>
    rw [List.flatMap_cons, List.flatMap_cons]
    apply append (h x List.mem_cons_self)
    apply ih
    intro y hy
    exact h y (List.mem_cons_of_mem _ hy)

end Rule.Embeds

theorem Piece.embeds_ofBlock {block block' : Block} (h : block.properties <+: block'.properties)
    (atRules : List String) (p : Place) (selectors raws : List String) :
    Rule.Embeds (rulesOf atRules (ofBlock p selectors block raws))
      (rulesOf atRules (ofBlock p selectors block' raws)) := by
  have hempty : block'.isEmpty = true → block.isEmpty = true := by
    simp only [Block.isEmpty, List.isEmpty_iff]
    intro hnil
    have hprefix : block.properties <+: [] := by
      rw [Block.properties, Block.properties, hnil] at h
      exact h
    exact List.map_eq_nil_iff.1 (List.prefix_nil.1 hprefix)
  unfold ofBlock
  simp only []
  split
  · exact .nil
  · rename_i hrule
    -- a rule that has a body still has one
    rw [if_neg]
    · exact .cons ⟨rfl, rfl, h⟩ .nil
    · simp only [Bool.or_eq_true, Bool.and_eq_true, not_or, not_and] at hrule ⊢
      exact ⟨fun hb => hrule.1 (hempty hb), hrule.2⟩

/-- A free place is taken without moving anything else. -/
theorem Slot.sublist_place {ordinal : Nat} {id : ContainerId} {es : List (Nat × ContainerId)}
    (h : ordinal ∉ es.map (·.1)) : es.Sublist (place ordinal id es) := by
  induction es with
  | nil => exact List.nil_sublist _
  | cons e es ih =>
    rw [List.map_cons, List.mem_cons, not_or] at h
    unfold place
    split
    · exact List.sublist_cons_self _ _
    · rw [if_neg h.1]
      exact (ih h.2).cons_cons e

namespace Document

variable {d d' d'' : Document} {x : Emission} {id : Nat}

/-! ## Documents -/

/-- Nothing is taken away: containers keep their children, their properties stay in front, and slots
keep their entries. -/
structure Extends (d d' : Document) : Prop where
  container : ∀ {id : Nat} {c : Container}, d.get? id = some c → ∃ c', d'.get? id = some c' ∧
    c'.kind = c.kind ∧ c'.children = c.children ∧ c.block.properties <+: c'.block.properties
  slot : ∀ {s : SlotId} {sl : Slot}, d.slots[s]? = some sl →
    ∃ sl', d'.slots[s]? = some sl' ∧ sl.entries.Sublist sl'.entries

namespace Extends

theorem refl (d : Document) : d.Extends d where
  container hc := ⟨_, hc, rfl, rfl, List.prefix_rfl⟩
  slot hs := ⟨_, hs, List.Sublist.refl _⟩

theorem trans (h : d.Extends d') (h' : d'.Extends d'') : d.Extends d'' where
  container hc := by
    obtain ⟨c', hc', hk, hch, hp⟩ := h.container hc
    obtain ⟨c'', hc'', hk', hch', hp'⟩ := h'.container hc'
    exact ⟨c'', hc'', hk'.trans hk, hch'.trans hch, hp.trans hp'⟩
  slot hs := by
    obtain ⟨sl', hs', hsub⟩ := h.slot hs
    obtain ⟨sl'', hs'', hsub'⟩ := h'.slot hs'
    exact ⟨sl'', hs'', hsub.trans hsub'⟩

theorem merge (d : Document) (block : Block) : d.Extends (d.merge id block) where
  container {j} c hc := by
    rw [get?_merge, hc]
    split
    · exact ⟨_, rfl, rfl, rfl, Block.properties_merge _ _⟩
    · exact ⟨c, rfl, rfl, rfl, List.prefix_rfl⟩
  slot hs := ⟨_, (congrArg (·[_]?) (slots_merge block)).trans hs, List.Sublist.refl _⟩

/-- A class that is emitted where it is admitted is merged or finds a free place. -/
theorem absorb (h : d.WellFormed) (hx : d.Admits x) : d.Extends (d.absorb x).1 := by
  unfold Document.absorb
  cases hfind : d.findSelector? rootId x.text with
  | some id => exact merge d x.block
  | none =>
    refine ⟨?_, ?_⟩
    · intro j c hc
      have hj : j ≠ d.size + 1 := by
        have := (get?_eq_some_size hc).2
        omega
      refine ⟨c, ?_, rfl, rfl, List.prefix_rfl⟩
      rw [get?_sprout, if_neg hj, hc]
    · intro s sl hsl
      show ∃ sl', (d.slots.modify x.slot (·.insert x.ordinal (d.size + 1)))[s]? = some sl' ∧ _
      rw [List.getElem?_modify, hsl, Option.map_eq_map, Option.map_some]
      by_cases hs : x.slot = s
      · rw [if_pos hs]
        rw [← hs] at hsl
        have hnew := not_mem_ordinals hsl fun _ => h.not_standsAt hx hfind
        exact ⟨_, rfl, Slot.sublist_place hnew⟩
      · rw [if_neg hs]
        exact ⟨sl, rfl, List.Sublist.refl _⟩

theorem absorbAll {xs : List Emission} (h : d.AdmitsAll xs) : d.Extends (d.absorbAll xs) := by
  induction xs generalizing d with
  | nil => exact refl d
  | cons x xs ih => exact (absorb h.1 h.2.1).trans (ih h.2.2)

end Extends

/-! ### The rules under a container -/

/-- The rules of a child at some place. -/
def rulesUnder (d : Document) (p : Place) (atRules : List String) (ch : Child) : List Rule :=
  (d.childNode? ch).elim [] fun n => Piece.rulesOf atRules (n.pieces p)

theorem rulesOf_filterMap_childNode? (p : Place) (atRules : List String) (l : List Child) :
    Piece.rulesOf atRules (Node.piecesOf p (l.filterMap d.childNode?)) =
      l.flatMap (d.rulesUnder p atRules) := by
  induction l with
  | nil => rfl
  | cons ch l ih =>
    rw [List.filterMap_cons, List.flatMap_cons, rulesUnder]
    cases d.childNode? ch with
    | none => exact ih
    | some n =>
      simp only [Node.piecesOf, Piece.rulesOf_append, ih]
      rfl

theorem rulesUnder_slot (p : Place) (atRules : List String) {s : SlotId} {sl : Slot}
    (hs : d.slots[s]? = some sl) : d.rulesUnder p atRules (.slot s) =
      sl.ids.flatMap fun j => d.rulesUnder p atRules (.container j) := by
  have hentries : sl.ids.filterMap d.node? = (sl.ids.map .container).filterMap d.childNode? := by
    rw [List.filterMap_map]
    rfl
  rw [rulesUnder, childNode?, hs, Option.map_some, Option.elim_some, Node.pieces, hentries,
    rulesOf_filterMap_childNode?, List.flatMap_map]

/-- Only raw children are raw nodes. -/
theorem WellFormed.rawTexts_filterMap_childNode? (h : d.WellFormed) {l : List Child}
    (hl : ∀ j, .container j ∈ l → d.contains j = true) :
    Writer.rawTexts (l.filterMap d.childNode?) = l.filterMap fun
      | .raw css => some css
      | _ => none := by
  induction l with
  | nil => rfl
  | cons ch l ih =>
    have ih := ih fun j hj => hl j (List.mem_cons_of_mem _ hj)
    rw [Writer.rawTexts] at ih ⊢
    cases ch with
    | container j =>
      obtain ⟨c, hc⟩ := get?_of_contains (hl j List.mem_cons_self)
      simp only [List.filterMap_cons, childNode?, h.node?_eq hc, ih]
    | raw css => simp only [List.filterMap_cons, childNode?, ih]
    | slot s =>
      simp only [List.filterMap_cons, childNode?]
      cases d.slots[s]? with
      | none => exact ih
      | some sl => exact ih

namespace Extends

/-- A child keeps its rules if all containers under it do. -/
theorem embeds_child (hx : d.Extends d') {ch : Child}
    (hslot : ∀ s, ch = .slot s → (d.slots[s]?).isSome)
    (ih : ∀ j ∈ d.hanging ch, ∀ p atRules, Rule.Embeds (d.rulesUnder p atRules (.container j))
      (d'.rulesUnder p atRules (.container j))) (p : Place) (atRules : List String) :
    Rule.Embeds (d.rulesUnder p atRules ch) (d'.rulesUnder p atRules ch) := by
  cases ch with
  | container j => exact ih j (List.mem_singleton_self j) p atRules
  | raw css => exact .refl _
  | slot s =>
    obtain ⟨sl, hsl⟩ := Option.isSome_iff_exists.1 (hslot s rfl)
    obtain ⟨sl', hsl', hsub⟩ := hx.slot hsl
    rw [rulesUnder_slot p atRules hsl, rulesUnder_slot p atRules hsl']
    apply Rule.Embeds.flatMap (hsub.map _)
    intro j hj
    apply ih
    rw [hanging, hsl]
    exact hj

theorem embeds_container (h : d.WellFormed) (h' : d'.WellFormed) (hx : d.Extends d') :
    ∀ id : Nat, d.contains id = true → ∀ p atRules,
      Rule.Embeds (d.rulesUnder p atRules (.container id))
        (d'.rulesUnder p atRules (.container id)) := by
  refine h.induction_below ?_
  intro id hid ih p atRules
  obtain ⟨c, hc⟩ := get?_of_contains hid
  obtain ⟨c', hc', hkind, hchildren, hprops⟩ := hx.container hc
  have hnode := h.node?_eq hc
  have hnode' := h'.node?_eq hc'
  rw [hkind, hchildren] at hnode'
  have hin (p : Place) (atRules : List String) :
      Rule.Embeds (Piece.rulesOf atRules (Node.piecesOf p (c.children.filterMap d.childNode?)))
        (Piece.rulesOf atRules (Node.piecesOf p (c.children.filterMap d'.childNode?))) := by
    rw [rulesOf_filterMap_childNode?, rulesOf_filterMap_childNode?]
    apply Rule.Embeds.flatMap (List.Sublist.refl _)
    intro ch hch
    apply hx.embeds_child
    · rintro s rfl
      obtain ⟨sl, hsl, -⟩ := Option.map_eq_some_iff.1 (h.parents hc hch)
      simp [hsl]
    · intro j hj
      apply ih
      rw [below_eq_flatMap hc]
      exact List.mem_flatMap.2 ⟨ch, hch, hj⟩
  have hraws : Writer.rawTexts (c.children.filterMap d'.childNode?) =
      Writer.rawTexts (c.children.filterMap d.childNode?) := by
    have hold (j : Nat) (hj : Child.container j ∈ c.children) : d.contains j = true :=
      h.contains_of_mem_below (mem_below.2 ⟨c, hc, .inl hj⟩)
    rw [h.rawTexts_filterMap_childNode? hold, h'.rawTexts_filterMap_childNode?]
    intro j hj
    obtain ⟨c₁, hc₁⟩ := get?_of_contains (hold j hj)
    obtain ⟨c₂, hc₂, -⟩ := hx.container hc₁
    simp [Document.contains, hc₂]
  have hown := Piece.embeds_ofBlock hprops
  rw [rulesUnder, rulesUnder, childNode?, childNode?, hnode, hnode', Option.elim_some,
    Option.elim_some]
  -- a container writes its own rule first, and then what its children write
  cases c.kind with
  | root =>
    rw [Node.pieces, Node.pieces, Piece.rulesOf_append, Piece.rulesOf_append]
    exact (hown ..).append (hin ..)
  | selector text =>
    rw [Node.pieces, Node.pieces, Piece.rulesOf_append, Piece.rulesOf_append, hraws]
    exact (hown ..).append (hin ..)
  | media query =>
    rw [Node.pieces, Node.pieces, Piece.rulesOf_around, Piece.rulesOf_around,
      Piece.rulesOf_append, Piece.rulesOf_append]
    exact (hown ..).append (hin ..)
  | keyframes name =>
    rw [Node.pieces, Node.pieces, Piece.rulesOf_around, Piece.rulesOf_around]
    exact hin ..

/-- **The rules of a document embed in those of a document that extends it.** -/
theorem rules (h : d.WellFormed) (h' : d'.WellFormed) (hx : d.Extends d') :
    Rule.Embeds d.rules d'.rules := by
  have hroot := embeds_container h h' hx rootId h.contains_root .outermost []
  rw [rulesUnder, rulesUnder, childNode?, childNode?, h.node?_root, h'.node?_root] at hroot
  exact hroot

end Extends

end Document

end AtomicCss
