import AtomicCss.Proofs.Engine.Modes
import AtomicCss.Proofs.Sheet.Outline
import Mathlib

/-! # Both emit modes lead to the same rules

A config that works at the root is run in both modes, and some tokens are committed into the engine
that emits on demand. Then its sheet is the eager sheet without the rules of the classes that no
token asks for (`sheet_onDemand`). -/

namespace AtomicCss

/-! ## The rules that tokens ask for -/

/-- Whether tokens ask for a class of a generator: for that class of a utility, or for any class of
a recipe. -/
def Generator.wanted (g : Generator) (tokens : List String) (className : String) : Bool :=
  match g with
  | .utility .. => tokens.contains className
  | .recipe definition _ => definition.classes.any (tokens.contains ·.1)

namespace Engine

/-- The class that a container was generated for, with its generator. -/
def classAt? (e : Engine) (id : ContainerId) : Option (Generator × String) :=
  e.generators.findSome? fun g => do
    let slot ← e.document.slots[g.slot]?
    let entry ← slot.entries.find? (·.2 = id)
    let className ← g.className? entry.1
    return (g, className)

/-- The classes that the tokens ask for. -/
def wantedBy (e : Engine) (tokens : List String) : Set Emission :=
  {x | ∃ g ∈ e.generators, x ∈ g.emissions ∧ g.wanted tokens x.className = true}

/-- Whether a container is there if only the tokens' classes are emitted: unless it stands for a
class that the tokens do not ask for. -/
def keeps (e : Engine) (tokens : List String) (id : ContainerId) : Bool :=
  (e.classAt? id).all fun (g, className) => g.wanted tokens className

/-- Whether a piece stays if only the tokens' classes are emitted. -/
def stays (e : Engine) (tokens : List String) (q : Piece) : Bool := q.container?.all (e.keeps tokens)

variable {e l : Engine} {g : Generator} {className : String} {tokens : List String} {x : Emission}
  {id ordinal : Nat}

theorem of_classAt? (h : e.classAt? id = some (g, className)) : g ∈ e.generators ∧
    ∃ ordinal, e.document.StandsAt g.slot ordinal id ∧ g.className? ordinal = some className := by
  obtain ⟨g', hg', hf⟩ := List.exists_of_findSome?_eq_some h
  simp only [Option.bind_eq_bind, Option.bind_eq_some_iff, Option.pure_def, Option.some.injEq,
    Prod.mk.injEq] at hf
  obtain ⟨sl, hsl, entry, hentry, c, hc, rfl, rfl⟩ := hf
  refine ⟨hg', entry.1, ⟨sl, hsl, ?_⟩, hc⟩
  have hid : entry.2 = id := by simpa using List.find?_some hentry
  rw [← hid]
  exact List.mem_of_find?_eq_some hentry

theorem Sound.emission_of_standsAt (h : e.Sound) (hg : g ∈ e.generators)
    (hat : e.document.StandsAt g.slot ordinal id) (hc : g.className? ordinal = some className) :
    ∃ x ∈ g.emissions, x.ordinal = ordinal ∧ x.className = className ∧
      e.document.selectorText? id = some x.text := by
  obtain ⟨c, hc', ht⟩ := h.filled g hg hat
  obtain rfl := Option.some.inj (hc.symm.trans hc')
  obtain ⟨⟨c, block⟩, hclass, rfl⟩ := Option.map_eq_some_iff.1 hc
  exact ⟨⟨g.slot, ordinal, c, block⟩, Generator.mem_emissions.2 ⟨rfl, hclass⟩, rfl, rfl, ht⟩

theorem Sound.classAt?_eq (h : e.Sound) (hd : e.DistinctClasses) (hg : g ∈ e.generators)
    (hat : e.document.StandsAt g.slot ordinal id) (hc : g.className? ordinal = some className) :
    e.classAt? id = some (g, className) := by
  obtain ⟨sl, hsl, hmem⟩ := hat
  have hsome : (e.classAt? id).isSome := by
    have hentry : (sl.entries.find? (·.2 = id)).isSome := by
      rw [List.find?_isSome]
      exact ⟨_, hmem, by simp⟩
    obtain ⟨entry, hentry⟩ := Option.isSome_iff_exists.1 hentry
    obtain ⟨c, hc, -⟩ := h.filled g hg ⟨sl, hsl, List.mem_of_find?_eq_some hentry⟩
    rw [classAt?, List.findSome?_isSome_iff]
    exact ⟨g, hg, by simp [hsl, hentry, hc]⟩
  obtain ⟨⟨g', c'⟩, hfound⟩ := Option.isSome_iff_exists.1 hsome
  obtain ⟨hg', o', hat', hc'⟩ := of_classAt? hfound
  -- both classes have the container's selector, so they are the same
  obtain ⟨x, hx, hxo, rfl, hxt⟩ := h.emission_of_standsAt hg ⟨sl, hsl, hmem⟩ hc
  obtain ⟨y, hy, hyo, rfl, hyt⟩ := h.emission_of_standsAt hg' hat' hc'
  obtain rfl := hd.eq_of_text ⟨g, hg, hx⟩ ⟨g', hg', hy⟩ (Option.some.inj (hxt.symm.trans hyt))
  have hslot : g.slot = g'.slot :=
    (Generator.mem_emissions.1 hx).1.symm.trans (Generator.mem_emissions.1 hy).1
  rw [hfound, h.eq_of_slot_eq hg hg' hslot]

/-! ## What the tokens ask for -/

theorem wanted_of_mem_asked {t : String} (ht : t ∈ tokens) (hx : x ∈ g.asked t) :
    g.wanted tokens x.className = true := by
  unfold Generator.asked at hx
  split at hx
  · cases hx
  · rename_i definition table slot o hfind
    obtain ⟨-, i, -, hc⟩ := Emission.mem_listFrom.1 hx
    obtain ⟨hlt, hname, -⟩ := List.findIdx?_eq_some_iff_getElem.1 hfind
    rw [List.getElem?_take, List.getElem?_drop] at hc
    split at hc
    · obtain rfl : i = 0 := by omega
      rw [Nat.add_zero, List.getElem?_eq_getElem hlt, Option.some.injEq] at hc
      have hxt : x.className = t := by simpa [hc] using hname
      rw [hxt]
      simpa [Generator.wanted] using ht
    · cases hc
  · rename_i definition slot o hfind
    obtain ⟨hlt, hname, -⟩ := List.findIdx?_eq_some_iff_getElem.1 hfind
    refine List.any_eq_true.2 ⟨_, List.getElem_mem hlt, ?_⟩
    rw [decide_eq_true_eq] at hname
    rw [hname]
    simpa using ht

/-- A wanted class is asked for by a token that names a class of its generator. -/
theorem exists_mem_asked (hx : x ∈ g.emissions)
    (hname : ∀ y ∈ g.emissions, y.className = x.className → y = x)
    (hw : g.wanted tokens x.className = true) :
    ∃ t ∈ tokens, t ∈ g.classes.map (·.1) ∧ x ∈ g.asked t := by
  cases g with
  | utility definition table slot =>
    have hmem := List.mem_of_getElem? (Generator.mem_emissions.1 hx).2
    have hclass := List.mem_map_of_mem (f := (·.1)) hmem
    refine ⟨x.className, by simpa [Generator.wanted] using hw, hclass, ?_⟩
    obtain ⟨o, hfind⟩ : ∃ o, (Generator.utility definition table slot).classes.findIdx?
        (·.1 = x.className) = some o := by
      rw [← Option.isSome_iff_exists, List.findIdx?_isSome, List.any_eq_true]
      exact ⟨_, hmem, by simp⟩
    obtain ⟨hlt, hfound, -⟩ := List.findIdx?_eq_some_iff_getElem.1 hfind
    -- names differ, so the first class with the name is the class itself
    have hget := List.getElem?_eq_getElem hlt
    have hy := hname ⟨slot, o, _, _⟩ (Generator.mem_emissions.2 ⟨rfl, hget⟩) (by simpa using hfound)
    simp only [Generator.asked, hfind]
    rw [Emission.mem_listFrom]
    refine ⟨(Generator.mem_emissions.1 hx).1, 0, ?_, ?_⟩
    · rw [← hy]
      rfl
    · rw [List.getElem?_take, if_pos (by omega), List.getElem?_drop, Nat.add_zero, hget, ← hy]
      rfl
  | recipe definition slot =>
    obtain ⟨c, hc, ht⟩ := List.any_eq_true.1 hw
    refine ⟨c.1, by simpa using ht, List.mem_map_of_mem hc, ?_⟩
    obtain ⟨o, hfind⟩ : ∃ o, (Generator.recipe definition slot).classes.findIdx?
        (·.1 = c.1) = some o := by
      rw [← Option.isSome_iff_exists, List.findIdx?_isSome, List.any_eq_true]
      exact ⟨_, hc, by simp⟩
    simp only [Generator.asked, hfind]
    exact hx

/-- The tokens of a sound engine ask for exactly the wanted classes. -/
theorem Sound.askedBy_eq (h : e.Sound) (hd : e.DistinctClasses) (tokens : List String) :
    e.askedBy (⋃ t ∈ tokens, e.pairsOf t) = e.wantedBy tokens := by
  ext x
  constructor
  · rintro ⟨⟨i, t⟩, hp, g, hg, hx⟩
    simp only [Set.mem_iUnion, exists_prop] at hp
    obtain ⟨t', ht', rfl, -⟩ := hp
    exact ⟨g, List.mem_of_getElem? hg, Generator.asked_subset hx, wanted_of_mem_asked ht' hx⟩
  · rintro ⟨g, hg, hx, hw⟩
    obtain ⟨i, hi⟩ := List.mem_iff_getElem?.1 hg
    obtain ⟨t, ht, hclass, hasked⟩ := by
      refine exists_mem_asked hx ?_ hw
      intro y hy hyx
      exact hd.eq_of_text ⟨g, hg, hy⟩ ⟨g, hg, hx⟩ (text_congr hyx)
    refine ⟨(i, t), ?_, g, hi, hasked⟩
    simp only [Set.mem_iUnion, exists_prop]
    refine ⟨t, ht, rfl, ?_⟩
    refine List.mem_map.2 ⟨(t, i), List.mem_filter.2 ⟨?_, by simp⟩, rfl⟩
    exact h.indexed.2 ⟨g, hi, hclass⟩

theorem wantedBy_subset (e : Engine) (tokens : List String) : e.wantedBy tokens ⊆ e.emissions := by
  rintro x ⟨g, hg, hx, -⟩
  exact ⟨g, hg, hx⟩

/-! ## The pieces that stay -/

theorem filter_flatMap_eq {α β : Type} {p : β → Bool} {q : α → Bool} {f : α → List β} {l : List α}
    (h : ∀ a ∈ l, ∀ b ∈ f a, p b = q a) : (l.flatMap f).filter p = (l.filter q).flatMap f := by
  induction l with
  | nil => rfl
  | cons a l ih =>
    have hrest : ∀ x ∈ l, ∀ b ∈ f x, p b = q x := fun x hx => h x (List.mem_cons_of_mem _ hx)
    rw [List.flatMap_cons, List.filter_append, ih hrest, List.filter_cons]
    cases hq : q a with
    | true =>
      rw [if_pos rfl, List.flatMap_cons, List.filter_eq_self.2]
      intro b hb
      rw [h a List.mem_cons_self b hb, hq]
    | false =>
      rw [if_neg (by simp), List.filter_eq_nil_iff.2]
      · rfl
      · intro b hb
        rw [h a List.mem_cons_self b hb, hq]
        simp

variable {d' : Document} {items : List Item} {U : Set String} {w : Writer}

theorem stays_of_mem_ofSelector {text : String} {block : Block} {q : Piece}
    (hq : q ∈ Piece.ofSelector id text block) : e.stays tokens q = e.keeps tokens id := by
  rw [stays, Piece.container?_of_mem_ofSelector hq, Option.all_some]

/-- The container of a class is there if the tokens ask for that class. -/
theorem Sound.keeps_iff (h : e.Sound) (hd : e.DistinctClasses) (hx : x ∈ e.emissions)
    (hid : e.document.Holds x id) : e.keeps tokens id = true ↔ x ∈ e.wantedBy tokens := by
  obtain ⟨g, hg, hxg⟩ := hx
  have hslot := (Generator.mem_emissions.1 hxg).1
  have hat : e.document.StandsAt g.slot x.ordinal id := hslot ▸ hid.stands
  rw [keeps, h.classAt?_eq hd hg hat (Generator.className?_of_mem hxg), Option.all_some]
  constructor
  · intro hwanted
    exact ⟨g, hg, hxg, hwanted⟩
  · rintro ⟨g', hg', hxg', hwanted⟩
    rwa [h.eq_of_slot_eq hg hg' (hslot.symm.trans (Generator.mem_emissions.1 hxg').1)]

/-- The entries of a slot that stay have the ordinals of the slot with the wanted classes alone. -/
theorem ordinals_keeps (h : e.Sound) (hd : e.DistinctClasses)
    (hr : e.document.Realizes items e.emissions) (hr' : d'.Realizes items (e.wantedBy tokens))
    {s : Nat} {sl sl' : Slot} (hsl : e.document.slots[s]? = some sl) (hsl' : d'.slots[s]? = some sl') :
    (sl.entries.filter (e.keeps tokens ·.2)).map (·.1) = sl'.entries.map (·.1) := by
  refine List.Pairwise.eq_of_mem_iff (r := fun i j : Nat => i < j) ?_ ?_ ?_
  · exact List.pairwise_map.2 (sl.ascending.sublist List.filter_sublist)
  · exact List.pairwise_map.2 sl'.ascending
  · intro o
    constructor
    · intro ho
      obtain ⟨entry, hentry, rfl⟩ := List.mem_map.1 ho
      obtain ⟨hentry, hk⟩ := List.mem_filter.1 hentry
      obtain ⟨x, hx, rfl, hxo, hid⟩ := hr.entries ⟨sl, hsl, hentry⟩
      obtain ⟨id', hid'⟩ := hr'.present x ((h.keeps_iff hd hx hid).1 hk)
      obtain ⟨sl₁, hsl₁, hmem⟩ := hid'.stands
      obtain rfl := Option.some.inj (hsl'.symm.trans hsl₁)
      rw [hxo] at hmem
      exact List.mem_map_of_mem (f := (·.1)) hmem
    · intro ho
      obtain ⟨entry, hentry, rfl⟩ := List.mem_map.1 ho
      obtain ⟨x, hx, rfl, hxo, -⟩ := hr'.entries ⟨sl', hsl', hentry⟩
      have hxe := e.wantedBy_subset tokens hx
      obtain ⟨id, hid⟩ := hr.present x hxe
      obtain ⟨sl₁, hsl₁, hmem⟩ := hid.stands
      obtain rfl := Option.some.inj (hsl.symm.trans hsl₁)
      have hmem : (entry.1, id) ∈ sl.entries.filter (e.keeps tokens ·.2) :=
        List.mem_filter.2 ⟨hxo ▸ hmem, (h.keeps_iff hd hxe hid).2 hx⟩
      exact List.mem_map_of_mem (f := (·.1)) hmem

/-- In a slot, the classes that the tokens ask for stay. -/
theorem texts_slot (h : e.Sound) (hd : e.DistinctClasses)
    (hw : ∀ v ∈ w.vars.entries, v.scope = Document.rootId)
    (hr : e.document.Realizes items e.emissions) (hr' : d'.Realizes items (e.wantedBy tokens))
    {s : Nat} {sl sl' : Slot} (hsl : e.document.slots[s]? = some sl) (hsl' : d'.slots[s]? = some sl') :
    w.texts ((e.document.piecesAt (.slot s)).filter (e.stays tokens)) =
      w.texts (d'.piecesAt (.slot s)) := by
  have hkeeps : ∀ entry ∈ sl.entries, ∀ q ∈ e.document.piecesAt (.container entry.2),
      e.stays tokens q = e.keeps tokens entry.2 := by
    intro entry hentry q hq
    obtain ⟨x, hx, -, -, hid⟩ := hr.entries ⟨sl, hsl, hentry⟩
    rw [h.document.piecesAt_selector hid.get] at hq
    exact stays_of_mem_ofSelector hq
  rw [Document.piecesAt_slot hsl, Document.piecesAt_slot hsl', filter_flatMap_eq hkeeps]
  have hpairs : List.Forall₂ (fun a b => a.1 = b.1) (sl.entries.filter (e.keeps tokens ·.2))
      sl'.entries := by
    rw [← List.forall₂_map_right_iff, ← List.forall₂_map_left_iff, List.forall₂_eq_eq_eq]
    exact ordinals_keeps h hd hr hr' hsl hsl'
  apply Writer.texts_flatMap_congr
  apply forall₂_imp_of_mem hpairs
  intro entry hentry entry' hentry' ho
  obtain ⟨x, hx, hxs, hxo, hid⟩ := hr.entries ⟨sl, hsl, (List.mem_filter.1 hentry).1⟩
  obtain ⟨y, hy, hys, hyo, hid'⟩ := hr'.entries ⟨sl', hsl', hentry'⟩
  obtain rfl := h.eq_of_place hx (e.wantedBy_subset tokens hy) (hxs.trans hys.symm)
    (hxo.trans (ho.trans hyo.symm))
  rw [h.document.piecesAt_selector hid.get, hr'.wellFormed.piecesAt_selector hid'.get]
  exact Writer.texts_ofSelector hw (h.document.ne_root hid.get nofun)
    (hr'.wellFormed.ne_root hid'.get nofun) _ _

theorem texts_child (h : e.Sound) (hd : e.DistinctClasses) (ha : e.Apart U)
    (hw : ∀ v ∈ w.vars.entries, v.scope = Document.rootId)
    (hr : e.document.Realizes items e.emissions) (hr' : d'.Realizes items (e.wantedBy tokens))
    (hU : Item.Within U items) {item : Item} (hitem : item ∈ items) {child child' : Child}
    (hs : e.document.Shows item child) (hs' : d'.Shows item child') :
    w.texts ((e.document.piecesAt child).filter (e.stays tokens)) =
      w.texts (d'.piecesAt child') := by
  cases hs with
  | @rule text block i get =>
    cases hs' with
    | @rule _ _ j get' =>
      -- the selector is none of the classes
      have hnone : e.classAt? i = none := by
        rw [Option.eq_none_iff_forall_ne_some]
        intro found hfound
        obtain ⟨-, o, hat, -⟩ := of_classAt? hfound
        obtain ⟨x, hx, -, -, hid⟩ := hr.entries hat
        apply ha.free x hx
        apply hU _ hitem
        have hc := Option.some.inj (hid.get.symm.trans get)
        exact congrArg some (Kind.selector.inj (congrArg Container.kind hc)).symm
      rw [h.document.piecesAt_selector get, hr'.wellFormed.piecesAt_selector get',
        List.filter_eq_self.2]
      · exact Writer.texts_ofSelector hw (h.document.ne_root get nofun)
          (hr'.wellFormed.ne_root get' nofun) _ _
      · intro q hq
        rw [stays_of_mem_ofSelector hq, keeps, hnone, Option.all_none]
  | keyframes get =>
    cases hs' with
    | keyframes get' =>
      rw [h.document.piecesAt_keyframes get, hr'.wellFormed.piecesAt_keyframes get']
      rfl
  | raw css =>
    cases hs' with
    | raw =>
      rw [Document.piecesAt_raw, Document.piecesAt_raw, List.filter_eq_self.2]
      intro q hq
      rw [stays, Piece.container?_of_mem_ofRaw hq]
      rfl
  | slot s =>
    cases hs' with
    | slot =>
      cases hsl : e.document.slots[s]? with
      | some sl =>
        have hlt : s < d'.slots.length := by
          rw [hr'.slots, ← hr.slots]
          exact (List.getElem?_eq_some_iff.1 hsl).1
        exact texts_slot h hd hw hr hr' hsl (List.getElem?_eq_getElem hlt)
      | none =>
        have hsl' : d'.slots[s]? = none := by
          rw [List.getElem?_eq_none_iff, hr'.slots, ← hr.slots]
          exact List.getElem?_eq_none_iff.1 hsl
        rw [Document.piecesAt, Document.piecesAt, Document.childNode?, Document.childNode?, hsl, hsl']
        rfl

/-- **The pieces that stay are the pieces of the document with the wanted classes alone**, up to the
numbers of containers. -/
theorem texts_pieces (h : e.Sound) (hd : e.DistinctClasses) (ha : e.Apart U)
    (hw : ∀ v ∈ w.vars.entries, v.scope = Document.rootId)
    (hr : e.document.Realizes items e.emissions) (hr' : d'.Realizes items (e.wantedBy tokens))
    (hU : Item.Within U items) :
    w.texts (e.document.pieces.filter (e.stays tokens)) = w.texts d'.pieces := by
  obtain ⟨c, hc, -, hitems⟩ := hr.root
  obtain ⟨c', hc', -, hitems'⟩ := hr'.root
  rw [hr.pieces_eq hc, hr'.pieces_eq hc', List.filter_flatMap]
  apply Writer.texts_flatMap_congr
  apply forall₂_of_common hitems hitems'
  intro item hitem child child' hs hs'
  exact texts_child h hd ha hw hr hr' hU hitem hs hs'

/-! ## The two sheets -/

/-- The classes of all generators with their declarations. -/
def classes (e : Engine) : List (String × Block) := e.generators.flatMap Generator.classes

theorem mem_classes_of_mem_emissions (hx : x ∈ e.emissions) :
    (x.className, x.block) ∈ e.classes := by
  obtain ⟨g, hg, hx⟩ := hx
  exact List.mem_flatMap.2 ⟨g, hg, List.mem_of_getElem? (Generator.mem_emissions.1 hx).2⟩

/-- Where the tokens name every class, every container is kept. -/
theorem Sound.keeps_of_forall (h : e.Sound) (hall : ∀ c ∈ e.classes, c.1 ∈ tokens)
    (id : ContainerId) : e.keeps tokens id = true := by
  rw [keeps]
  cases hfound : e.classAt? id with
  | none => rfl
  | some found =>
    obtain ⟨g, className⟩ := found
    obtain ⟨hg, o, hat, hc⟩ := of_classAt? hfound
    obtain ⟨x, hx, -, rfl, -⟩ := h.emission_of_standsAt hg hat hc
    have hmem := List.mem_of_getElem? (Generator.mem_emissions.1 hx).2
    have htoken := hall _ (mem_classes_of_mem_emissions ⟨g, hg, hx⟩)
    rw [Option.all_some]
    cases g with
    | utility definition table slot => simpa [Generator.wanted] using htoken
    | recipe definition slot => exact List.any_eq_true.2 ⟨_, hmem, by simpa using htoken⟩

/-- Committing tokens into the engine that emits on demand emits the classes that they ask for. -/
theorem Mirrors.realizes_commit {props : GeneratorId → List String} (hm : Mirrors U props e l)
    (hl : l.Sound) (hd : l.DistinctClasses) (ha : e.Apart U) {k : Commit}
    (hk : Committed l (⋃ t ∈ tokens, l.pairsOf t) k) (hU : Item.Within U items)
    (hr : l.document.Realizes items ∅) :
    k.engine.document.Realizes items (e.wantedBy tokens) := by
  have hgrown := hk.grown
  rw [hl.askedBy_eq hd, wantedBy, hm.generators] at hgrown
  rw [← Set.empty_union (e.wantedBy tokens)]
  apply hr.grown hgrown
  intro x hx
  exact ha.findSelector?_eq_none hr hU (Set.empty_subset _) (e.wantedBy_subset tokens hx)
    (Set.notMem_empty x)

/-- **Eager and on-demand emission agree.** Take a config that works at the root, whose classes
differ in their selectors from each other and from the config's own selectors, and whose utilities
each set the same properties for every entry. If its eager sheet can be written, then committing
tokens on demand succeeds and leaves the chunks of the eager sheet but for those of classes that the
tokens do not ask for. Tokens that name every class leave the eager sheet as it is. -/
theorem sheet_onDemand {name : String} {steps : List ConfigStep} {e l : Engine}
    (he : e = (new name .eager).run steps) (hl : l = (new name .onDemand).run steps)
    (hroot : ∀ s ∈ steps, s.AtRoot) (hdistinct : e.DistinctClasses)
    (hown : ∀ c ∈ e.classes, Text.trimmed (Css.classSelector c.1) ∉
      steps.filterMap ConfigStep.selectorText?)
    {props : GeneratorId → List String}
    (huniform : ∀ q ∈ (new name .eager).stylesIn steps, q.2.properties = props q.1)
    {layout : Layout} {css : String} (hcss : e.sheet layout = .ok css) (tokens : List String) :
    ∃ (chunks : List (Piece × String)) (k : Commit),
      chunks.map (·.1) = e.document.pieces ∧
      (∀ c ∈ chunks, Writer.text ⟨e.vars, e.name, layout.indent⟩ c.1 = .ok c.2) ∧
      css = (if layout.blankLines then "\n" else "").intercalate (chunks.map (·.2)) ∧
      (Commit.start l ∅).tokens tokens = .ok k ∧
      k.engine.sheet layout = .ok ((if layout.blankLines then "\n" else "").intercalate
        ((chunks.filter fun c => e.stays tokens c.1).map (·.2))) ∧
      ((∀ c ∈ e.classes, c.1 ∈ tokens) → k.engine.sheet layout = .ok css) := by
  have hes : e.Sound := Reached.sound ⟨_, _, _, he.symm⟩
  have hls : l.Sound := Reached.sound ⟨_, _, _, hl.symm⟩
  let U : Set String := {t | t ∈ steps.filterMap ConfigStep.selectorText?}
  have hapart : e.Apart U := by
    refine ⟨fun _ hx _ hy => hdistinct.eq_of_text hx hy, ?_⟩
    intro x hx
    have hfree := hown _ (mem_classes_of_mem_emissions hx)
    exact hfree
  have hm : Mirrors U props e l := by
    rw [he] at hapart
    rw [he, hl]
    exact (mirrors_new name).run (sound_new _ _) (sound_new _ _) hroot (fun _ ht => ht) huniform hapart
  have hdistinct' : l.DistinctClasses := by
    rw [DistinctClasses, hm.generators]
    exact hdistinct
  obtain ⟨items, hU, hrl, hre⟩ := hm.documents
  obtain ⟨k, hk, hcommitted⟩ := (Committed.start hls hdistinct').tokens hls hdistinct' tokens
  rw [Set.empty_union] at hcommitted
  let w : Writer := ⟨e.vars, e.name, layout.indent⟩
  have hpieces : w.texts (e.document.pieces.filter (e.stays tokens)) =
      w.texts k.engine.document.pieces :=
    texts_pieces hes hdistinct hapart hm.scopes hre
      (hm.realizes_commit hls hdistinct' hapart hcommitted hU hrl) hU
  -- the eager sheet has a text for each of its pieces
  have hsheet : (w.texts e.document.pieces).map
      (if layout.blankLines then "\n" else "").intercalate = .ok css := by
    rw [← hcss, Engine.sheet, Document.sheet_eq]
  cases htexts : w.texts e.document.pieces with
  | error cause =>
    rw [htexts] at hsheet
    cases hsheet
  | ok texts =>
    rw [htexts] at hsheet
    obtain ⟨chunks, hfst, hsnd, htext, hfilter⟩ := Writer.texts_filter htexts
    have hcss' : css = (if layout.blankLines then "\n" else "").intercalate (chunks.map (·.2)) := by
      rw [hsnd]
      exact (Except.ok.inj hsheet).symm
    have hout : k.engine.sheet layout = .ok ((if layout.blankLines then "\n" else "").intercalate
        ((chunks.filter fun c => e.stays tokens c.1).map (·.2))) := by
      rw [hcommitted.engine, Engine.sheet, Document.sheet_eq, hm.vars, hm.name]
      show (w.texts k.engine.document.pieces).map _ = _
      rw [← hpieces, hfilter]
      rfl
    refine ⟨chunks, k, hfst, htext, hcss', hk, hout, ?_⟩
    intro hall
    rw [hout, List.filter_eq_self.2, ← hcss']
    intro c _
    rw [stays, Option.all_eq_true]
    exact fun id _ => hes.keeps_of_forall hall id

/-- A config with margins, a rule of its own and a card; one margin is set anew in the end. -/
def cards : List ConfigStep :=
  [.addUtility (.ofProperty "m" "margin"),
    .useUtility 0 (some (ValueTable.ofList [("sm", .literal "1px"), ("lg", .literal "8px")])),
    .selector Document.rootId "p" (Block.ofList [("gap", .literal "2px")]),
    .addRecipe ⟨"card", Block.ofList [("color", .literal "red")], [], [], []⟩,
    .useUtility 0 (some (ValueTable.ofList [("sm", .literal "4px")]))]

/-- Only the large margin is asked for, so the small one and the card are not there. -/
example : ((Commit.start ((new "app" .onDemand).run cards) ∅).tokens ["m:lg"]).bind
    (·.engine.sheet .standard) =
      .ok ".m\\:lg \x7b margin: 8px; \x7d\np \x7b gap: 2px; \x7d\n" := by
  cbv

theorem sheet_onDemand_cards : ∃ k : Commit,
    (Commit.start ((new "app" .onDemand).run cards) ∅).tokens ["card", "m:lg", "m:sm"] = .ok k ∧
    k.engine.sheet .standard = ((new "app" .eager).run cards).sheet .standard := by
  have hcss : ((new "app" .eager).run cards).sheet .standard = .ok
      (".m\\:sm \x7b margin: 4px; \x7d\n.m\\:lg \x7b margin: 8px; \x7d\n" ++
        "p \x7b gap: 2px; \x7d\n.card \x7b color: red; \x7d\n") := by
    cbv
  have hroot : ∀ s ∈ cards, s.AtRoot := by
    simp [cards, ConfigStep.AtRoot]
  have hdistinct : ((new "app" .eager).run cards).DistinctClasses := by
    unfold DistinctClasses
    decide +kernel
  have hown : ∀ c ∈ ((new "app" .eager).run cards).classes,
      Text.trimmed (Css.classSelector c.1) ∉ cards.filterMap ConfigStep.selectorText? := by
    decide +kernel
  have huniform : ∀ q ∈ (new "app" .eager).stylesIn cards, q.2.properties = ["margin"] := by
    decide +kernel
  obtain ⟨-, k, -, -, -, hk, -, hall⟩ :=
    @sheet_onDemand "app" cards _ _ rfl rfl hroot hdistinct hown (fun _ => ["margin"]) huniform _ _
      hcss ["card", "m:lg", "m:sm"]
  refine ⟨k, hk, ?_⟩
  rw [hcss]
  exact hall (by decide +kernel)

end Engine

end AtomicCss
