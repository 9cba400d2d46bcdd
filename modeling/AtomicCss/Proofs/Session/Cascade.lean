import AtomicCss.Proofs.Engine.Modes
import AtomicCss.Proofs.Session.Writings
import Mathlib

/-! # The cascade in the two emit modes

In eager mode the writing that came last decides on a property. On demand, a class is written when its
token is committed, after all that the config wrote itself (`Emitted.declared_eq`). So the modes agree on
a class that is the only one with its text, except where the config overrides it: there the commit
overrides the config (`get?_declared_modes`, `modes_differ`). -/

namespace AtomicCss

/-! ## The last writing -/

namespace Writing

variable {ws : List Writing} {p : String} {b : Block}

/-- The writing of a property that came last. -/
def last? (ws : List Writing) (p : String) : Option Writing :=
  (ws.filter fun w => (w.block.get? p).isSome).getLast?

/-- What the last writing of a property sets it to. -/
def value? (ws : List Writing) (p : String) : Option Value := (last? ws p).bind (·.block.get? p)

theorem getLast?_filterMap_get? (ws : List Writing) (p : String) :
    ((ws.map (·.block)).filterMap (·.get? p)).getLast? = value? ws p := by
  induction ws using List.reverseRecOn with
  | nil => rfl
  | append_singleton ws w ih =>
    rw [value?, last?] at ih ⊢
    rw [List.map_append, List.filterMap_append, List.filter_append, List.getLast?_append,
      List.getLast?_append, ih]
    cases hw : w.block.get? p with
    | none => simp [hw]
    | some v => simp [hw]

/-- A writing that is the last one, and is chosen, is the last one of those that are chosen. -/
theorem getLast?_filter {α : Type} {l : List α} {a : α} {q : α → Bool} (h : l.getLast? = some a)
    (hq : q a = true) : (l.filter q).getLast? = some a := by
  obtain ⟨ys, rfl⟩ := List.getLast?_eq_some_iff.1 h
  rw [List.filter_append, List.filter_singleton, hq]
  exact List.getLast?_concat

theorem getLast?_filterMap_of_forall_eq {α β : Type} {f : α → Option β} {l : List α} {a : α}
    (hne : l ≠ []) (hall : ∀ b ∈ l, b = a) : (l.filterMap f).getLast? = f a := by
  cases hf : f a with
  | none =>
    rw [List.filterMap_eq_nil_iff.2, List.getLast?_nil]
    intro b hb
    rw [hall b hb, hf]
  | some v =>
    rw [← List.dropLast_append_getLast hne, List.filterMap_append, List.getLast?_append,
      hall _ (List.getLast_mem hne)]
    simp [hf]

/-- Where all classes set the same properties, the last class decides on those that it sets, unless a
selector came later. -/
theorem value?_of_made (hlast : (made ws).getLast? = some b)
    (hall : ∀ c ∈ made ws, c.properties = b.properties) (hp : (b.get? p).isSome)
    (hlate : ∀ w, last? ws p = some w → w.source ≠ .selector) : value? ws p = b.get? p := by
  obtain ⟨w, hw, rfl⟩ : ∃ w, (ws.filter fun w => w.source ≠ .selector).getLast? = some w ∧
      w.block = b := by
    rw [made, List.getLast?_map, Option.map_eq_some_iff] at hlast
    exact hlast
  have hsets : ∀ v ∈ ws.filter fun w => w.source ≠ .selector, (v.block.get? p).isSome := by
    intro v hv
    rw [Block.isSome_get?, hall v.block (List.mem_map_of_mem hv), ← Block.isSome_get?]
    exact hp
  -- the last writing of the property is the last one by a class
  have hfilter : ((ws.filter fun w => (w.block.get? p).isSome).filter
      fun w => w.source ≠ .selector).getLast? = some w := by
    rw [List.filter_comm, List.filter_eq_self.2 hsets, hw]
  cases hv : last? ws p with
  | none =>
    rw [last?, List.getLast?_eq_none_iff] at hv
    rw [hv] at hfilter
    cases hfilter
  | some v =>
    have hvw := getLast?_filter hv (q := fun w => decide (w.source ≠ .selector))
      (decide_eq_true (hlate v hv))
    obtain rfl := Option.some.inj (hvw.symm.trans hfilter)
    rw [value?, hv, Option.bind_some]

/-- On what no class sets, uses of classes have no say. -/
theorem value?_filter_of_made (hall : ∀ c ∈ made ws, c.properties = b.properties)
    (hp : b.get? p = none) : value? (ws.filter fun w => w.source ≠ .use) p = value? ws p := by
  have hsets : ∀ w ∈ ws, (w.block.get? p).isSome → w.source = .selector := by
    intro w hw hset
    by_contra hne
    have hmem : w ∈ ws.filter fun w => w.source ≠ .selector :=
      List.mem_filter.2 ⟨hw, decide_eq_true hne⟩
    rw [Block.isSome_get?, hall w.block (List.mem_map_of_mem hmem), ← Block.isSome_get?, hp] at hset
    cases hset
  rw [value?, value?, last?, last?, List.filter_filter]
  congr 2
  apply List.filter_congr
  intro w hw
  cases hset : (w.block.get? p).isSome with
  | false => rfl
  | true => simp [hsets w hw hset]

end Writing

/-- **On demand, the classes with a text are merged into it** in the order of the tokens, on top of all
that was declared before. -/
theorem Emitted.declared_eq {e : Engine} {k : Commit} {ts : List String}
    (h : Emitted e (ts.flatMap e.pairsFor) k) (text : String) :
    k.engine.document.declared text = (e.document.declared text).mergeAll
      ((ts.eraseDups.flatMap (e.sharing text)).map (·.block)) := by
  rw [Document.declared, h.standing_eq, Document.blockOf_settle, Document.declared]

/-- After one token, the last of its classes that sets a property decides on it. -/
theorem Emitted.get?_declared {e : Engine} {k : Commit} {t : String}
    (h : Emitted e ([t].flatMap e.pairsFor) k) (text p : String) :
    (k.engine.document.declared text).get? p =
      ((e.sharing text t).filterMap (·.block.get? p)).getLast?.or
        ((e.document.declared text).get? p) := by
  rw [h.declared_eq, eraseDups_of_nodup (List.nodup_singleton t), List.flatMap_singleton,
    Block.get?_mergeAll, List.filterMap_map]
  rfl

namespace Engine

variable {e e' l : Engine} {id : Nat} {text : String} {bs : List Block}
  {props : GeneratorId → List String}

/-! ## A class that is the only one with its text -/

/-- No two classes have the text. -/
def Lone (text : String) (e : Engine) : Prop :=
  ∀ x ∈ e.emissions, ∀ y ∈ e.emissions, x.text = Text.trimmed text → y.text = Text.trimmed text → x = y

theorem mem_emissions_of_mem_askedFor {x : Emission} {p : GeneratorId × String}
    (hx : x ∈ e.askedFor p) : x ∈ e.emissions := by
  rw [askedFor] at hx
  cases hg : e.generators[p.1]? with
  | none =>
    rw [hg] at hx
    cases hx
  | some g =>
    rw [hg] at hx
    exact ⟨g, List.mem_of_getElem? hg, Generator.asked_subset hx⟩

theorem Lone.of_retains (h : e.Sound) (hr : e.Retains e') (hlone : e'.Lone text) : e.Lone text := by
  intro x hx y hy htx hty
  refine h.eq_of_retains hr hx hy ?_
  intro x' hx' y' hy' hc hc'
  exact hlone x' hx' y' hy' ((text_congr hc).trans htx) ((text_congr hc').trans hty)

/-- Of the blocks `bs` that classes with a text have written, the last one is the block of the class that
has the text, and all set the same properties. There is none, if no class has the text. -/
structure Latest (text : String) (bs : List Block) (e : Engine) : Prop where
  last : ∀ x ∈ e.emissions, x.text = Text.trimmed text →
    bs.getLast? = some x.block ∧ ∀ b ∈ bs, b.properties = x.block.properties
  none : (∀ x ∈ e.emissions, x.text ≠ Text.trimmed text) → bs = []

namespace Latest

theorem new (text name : String) (mode : EmitMode) : Latest text [] (new name mode) where
  last := by
    rintro x ⟨g, hg, -⟩
    cases hg
  none _ := rfl

/-- Classes are written. Those that were there before have still the same properties, and those that
were not are written now. -/
theorem add (h : Latest text bs e) (hlone : e'.Lone text) {xs : List Emission}
    (hxs : ∀ x ∈ xs, x ∈ e'.emissions)
    (hold : ∀ x ∈ e.emissions, x.text = Text.trimmed text → ∃ y ∈ e'.emissions,
      y.text = Text.trimmed text ∧ y.block.properties = x.block.properties)
    (hnew : ∀ y ∈ e'.emissions, y ∈ xs ∨ y ∈ e.emissions) :
    Latest text (bs ++ blocksOf text (xs.map fun x => (x.className, x.block))) e' := by
  rw [← map_block_filter]
  constructor
  case last =>
    intro y hy hty
    have hsame : ∀ b ∈ (xs.filter (·.text = Text.trimmed text)).map (·.block), b = y.block := by
      intro b hb
      obtain ⟨x, hx, rfl⟩ := List.mem_map.1 hb
      obtain ⟨hx, htx⟩ := List.mem_filter.1 hx
      rw [hlone x (hxs x hx) y hy (of_decide_eq_true htx) hty]
    have hbefore : ∀ b ∈ bs, b.properties = y.block.properties := by
      intro b hb
      obtain ⟨x, hx, htx⟩ : ∃ x ∈ e.emissions, x.text = Text.trimmed text := by
        by_contra hnone
        push Not at hnone
        rw [h.none hnone] at hb
        cases hb
      obtain ⟨y', hy', hty', hproperties⟩ := hold x hx htx
      rw [(h.last x hx htx).2 b hb, ← hproperties, hlone y' hy' y hy hty' hty]
    refine ⟨?_, ?_⟩
    · rw [List.getLast?_append]
      cases hlast : ((xs.filter (·.text = Text.trimmed text)).map (·.block)).getLast? with
      | some b => rw [hsame b (List.mem_of_getLast? hlast), Option.some_or]
      | none =>
        -- the class is not written now, so it was there before
        rw [Option.none_or]
        rcases hnew y hy with hyx | hye
        · rw [List.getLast?_eq_none_iff, List.map_eq_nil_iff, List.filter_eq_nil_iff] at hlast
          exact absurd (decide_eq_true hty) (hlast y hyx)
        · exact (h.last y hye hty).1
    · intro b hb
      rcases List.mem_append.1 hb with hb | hb
      · exact hbefore b hb
      · rw [hsame b hb]
  case none =>
    intro hnone
    have hbs : bs = [] := by
      apply h.none
      intro x hx htx
      obtain ⟨y, hy, hty, -⟩ := hold x hx htx
      exact hnone y hy hty
    rw [hbs, List.nil_append, List.map_eq_nil_iff, List.filter_eq_nil_iff]
    intro x hx htx
    exact hnone x (hxs x hx) (of_decide_eq_true htx)

/-- One use writes one class, which is new or was set before with the same properties. -/
theorem use (hL : Latest text bs e) (h : e.Sound) (hU : Uniform props e) {u : Utility}
    {table : ValueTable} {slot : SlotId} (hg : e.generators[id]? = some (.utility u table slot))
    {suffix : String} {value : Value} (hp : (u.style suffix value).properties = props id)
    (he' : e'.generators = e.generators.set id (.utility u (table.insert suffix value) slot))
    (hlone : e'.Lone text) :
    Latest text (bs ++ blocksOf text [(u.classOf suffix, u.style suffix value)]) e' ∧
      Uniform props e' := by
  let x := u.emission table slot suffix value
  have hx : x ∈ e'.emissions := (h.mem_emissions_use hg he').2 (.inl rfl)
  have hlatest :
      Latest text (bs ++ blocksOf text ([x].map fun x => (x.className, x.block))) e' := by
    refine hL.add hlone ?xs ?hold ?hnew
    case xs =>
      intro y hy
      rw [List.mem_singleton.1 hy]
      exact hx
    case hold =>
      intro y hy hty
      by_cases hplace : y.slot = slot ∧ y.ordinal = table.ordinal suffix
      · obtain ⟨p, hpt, -, hc, hb⟩ := h.exists_of_place hg hy hplace.1 hplace.2
        refine ⟨x, hx, ?_, ?_⟩
        · rw [← hty]
          exact text_congr hc.symm
        · rw [hb, hU hg p hpt]
          exact hp
      · exact ⟨y, (h.mem_emissions_use hg he').2 (.inr ⟨hy, hplace⟩), hty, rfl⟩
    case hnew =>
      intro y hy
      rw [List.mem_singleton]
      exact ((h.mem_emissions_use hg he').1 hy).imp_right (·.1)
  exact ⟨hlatest, hU.use hg hp he'⟩

/-- Uses of a utility write the classes of their entries. -/
theorem useEntries (hL : Latest text bs e) (h : e.Sound) (hU : Uniform props e) {u : Utility}
    (hu : e.utility? id = some u) {entries : List (String × Value)}
    (hp : ∀ p ∈ entries, (u.style p.1 p.2).properties = props id) {bindings : List Binding}
    (hs : e.useEntries id entries = .ok (e', bindings)) (hlone : e'.Lone text) :
    Latest text (bs ++ blocksOf text (entries.map fun p => (u.classOf p.1, u.style p.1 p.2))) e' ∧
      Uniform props e' := by
  induction entries generalizing e bs bindings with
  | nil =>
    obtain ⟨rfl, -⟩ := Prod.mk.inj (Except.ok.inj hs)
    exact ⟨by rwa [List.map_nil, show blocksOf text [] = [] from rfl, List.append_nil], hU⟩
  | cons entry entries ih =>
    obtain ⟨table, slot, e₁, rest, hg, he₁, hsound, hu₁, hrest⟩ := h.useEntries_cons hu hs
    obtain ⟨hlatest, huniform⟩ := hL.use h hU hg (hp entry List.mem_cons_self) (by rw [he₁])
      (hlone.of_retains hsound (hsound.retains_useEntries hrest))
    have hsplit : blocksOf text ((entry :: entries).map fun p => (u.classOf p.1, u.style p.1 p.2)) =
        blocksOf text [(u.classOf entry.1, u.style entry.1 entry.2)] ++
          blocksOf text (entries.map fun p => (u.classOf p.1, u.style p.1 p.2)) := by
      rw [← blocksOf_append]
      rfl
    rw [hsplit, ← List.append_assoc]
    exact ih hlatest hsound huniform hu₁ (fun p hpe => hp p (List.mem_cons_of_mem _ hpe)) hrest

/-- A new generator writes its classes. -/
theorem register (hL : Latest text bs e) {g : Generator} (hg : e'.generators = e.generators ++ [g])
    (hlone : e'.Lone text) : Latest text (bs ++ blocksOf text g.classes) e' := by
  rw [← Emission.map_listFrom g.slot 0 g.classes]
  apply hL.add hlone
  · intro x hx
    exact (mem_emissions_append hg).2 (.inr hx)
  · intro x hx htx
    exact ⟨x, (mem_emissions_append hg).2 (.inl hx), htx, rfl⟩
  · intro y hy
    exact ((mem_emissions_append hg).1 hy).symm

/-- A step that teaches nothing writes classes as they are, if any. -/
theorem plain (hL : Latest text bs e) {s : ConfigStep} (ht : ¬ s.Teaches)
    (hg : e'.generators = e.generators) (hlone : e'.Lone text) :
    Latest text (bs ++ Writing.made (e.writtenBy text s)) e' := by
  obtain ⟨xs, hxs, hmade⟩ : ∃ xs : List Emission, (∀ x ∈ xs, x ∈ e.emissions) ∧
      Writing.made (e.writtenBy text s) = blocksOf text (xs.map fun x => (x.className, x.block)) := by
    cases s with
    | addUtility u => cases ht trivial
    | useUtility id config => cases ht trivial
    | addRecipe definition => cases ht trivial
    | selector parent t block =>
      exact ⟨[], fun _ hx => (List.not_mem_nil hx).elim, Writing.made_ofSelector ..⟩
    | selectorCss parent t css =>
      exact ⟨[], fun _ hx => (List.not_mem_nil hx).elim, Writing.made_ofSelector ..⟩
    | generate id token =>
      exact ⟨e.askedFor (id, token), fun _ => mem_emissions_of_mem_askedFor,
        Writing.made_of (by decide) _⟩
    | _ => exact ⟨[], fun _ hx => (List.not_mem_nil hx).elim, rfl⟩
  have hemissions : e'.emissions = e.emissions := by rw [emissions, emissions, hg]
  rw [hmade]
  apply hL.add hlone
  · exact hemissions ▸ hxs
  · intro x hx htx
    exact ⟨x, hemissions ▸ hx, htx, rfl⟩
  · intro y hy
    exact .inr (hemissions ▸ hy)

/-- **One step** of a config whose utilities are uniform. -/
theorem step (hL : Latest text bs e) (h : e.Sound) (hU : Uniform props e) {s : ConfigStep}
    (ho : s.Outermost) (hp : ∀ q ∈ e.stylesOf s, q.2.properties = props q.1)
    (hlone : (e.step s).Lone text) :
    Latest text (bs ++ Writing.made (e.writtenBy text s)) (e.step s) ∧ Uniform props (e.step s) := by
  have hkept : Latest text (bs ++ []) e ∧ Uniform props e := by
    rw [List.append_nil]
    exact ⟨hL, hU⟩
  by_cases ht : s.Teaches
  · cases s with
    | addUtility u =>
      rw [h.step_addUtility] at hlone ⊢
      by_cases hname : u.name = "" ∨ e.hasGenerator u.name = true
      · rw [if_pos hname]
        exact hkept
      · rw [if_neg hname] at hlone ⊢
        have hregister := hL.register (g := .utility u ∅ e.document.slots.length) rfl hlone
        refine ⟨hregister, hU.append ?_ rfl⟩
        intro v table slot hv
        obtain ⟨-, rfl, -⟩ := Generator.utility.inj hv
        rfl
    | useUtility id config =>
      rw [writtenBy]
      cases hu : e.utility? id with
      | none =>
        rw [step_useUtility_none hu]
        exact hkept
      | some u =>
        obtain ⟨e', bindings, hs⟩ := h.useEntries_ok hu (config.getD u.defaults).entries
        rw [step_useUtility hu hs] at hlone ⊢
        rw [Option.elim_some, Writing.made_of (by decide)]
        refine hL.useEntries h hU hu ?_ hs hlone
        intro p hpe
        apply hp (id, u.style p.1 p.2)
        rw [stylesOf, hu]
        exact List.mem_map_of_mem hpe
    | addRecipe definition =>
      rw [writtenBy]
      rw [h.step_addRecipe] at hlone ⊢
      cases hc : Recipe.compile definition with
      | error cause => exact hkept
      | ok compiled =>
        obtain ⟨recipe, warnings⟩ := compiled
        simp only [hc] at hlone ⊢
        by_cases hname : e.hasGenerator recipe.name = true
        · rw [if_pos hname, if_pos hname]
          exact hkept
        · rw [if_neg hname] at hlone
          rw [if_neg hname, if_neg hname, Writing.made_of (by decide)]
          have hregister := hL.register (g := .recipe recipe e.document.slots.length) rfl hlone
          refine ⟨hregister, hU.append ?_ rfl⟩
          intro u table slot hg
          cases hg
    | _ => cases ht
  · have hgenerators := (turns_step e ht).unchanged.1
    exact ⟨hL.plain ht hgenerators hlone, hU.of_generators hgenerators⟩

/-- **A whole config.** -/
theorem run (hL : Latest text bs e) (h : e.Sound) (hU : Uniform props e) {steps : List ConfigStep}
    (ho : ∀ s ∈ steps, s.Outermost) (hp : ∀ q ∈ e.stylesIn steps, q.2.properties = props q.1)
    (hlone : (e.run steps).Lone text) :
    Latest text (bs ++ Writing.made (e.writtenIn text steps)) (e.run steps) := by
  induction steps generalizing e bs with
  | nil => exact (List.append_nil bs).symm ▸ hL
  | cons s steps ih =>
    obtain ⟨hstep, huniform⟩ := hL.step h hU (ho s List.mem_cons_self)
      (fun q hq => hp q (List.mem_append_left _ hq))
      (hlone.of_retains (h.step s) ((h.step s).retains_run steps))
    have hrun := ih hstep (h.step s) huniform (fun x hx => ho x (List.mem_cons_of_mem _ hx))
      (fun q hq => hp q (List.mem_append_right _ hq)) hlone
    rw [List.append_assoc, ← Writing.made_append] at hrun
    exact hrun

end Latest

/-- The token of a class that is the only one with its text asks for it, and for no other one with that
text. -/
theorem Sound.getLast?_sharing (h : e.Sound) {x : Emission} (hx : x ∈ e.emissions)
    (hlone : ∀ y ∈ e.emissions, y.text = x.text → y = x) (p : String) :
    ((e.sharing (Css.classSelector x.className) x.className).filterMap (·.block.get? p)).getLast? =
      x.block.get? p := by
  have hall : ∀ y ∈ e.sharing (Css.classSelector x.className) x.className, y = x := by
    intro y hy
    obtain ⟨hy, hty⟩ := List.mem_filter.1 hy
    obtain ⟨p, -, hy⟩ := List.mem_flatMap.1 hy
    exact hlone y (mem_emissions_of_mem_askedFor hy) (of_decide_eq_true hty)
  have hne : e.sharing (Css.classSelector x.className) x.className ≠ [] := by
    obtain ⟨g, hg, hxg⟩ := hx
    obtain ⟨id, hid⟩ := List.mem_iff_getElem?.1 hg
    have hclass : x.className ∈ g.classes.map (·.1) :=
      List.mem_map_of_mem (f := (·.1)) (List.mem_of_getElem? (Generator.mem_emissions.1 hxg).2)
    obtain ⟨y, hy, hyc⟩ := Generator.exists_mem_asked hclass
    have hindex := h.indexed.2 ⟨g, hid, hclass⟩
    have hpair : (id, x.className) ∈ (e.pairsFor x.className).eraseDups := by
      rw [List.mem_eraseDups]
      apply List.mem_map_of_mem
      exact List.mem_map.2 ⟨_, List.mem_filter.2 ⟨hindex, decide_eq_true rfl⟩, rfl⟩
    apply List.ne_nil_of_mem (a := y)
    refine List.mem_filter.2 ⟨List.mem_flatMap.2 ⟨_, hpair, ?_⟩, decide_eq_true (text_congr hyc)⟩
    rw [askedFor, hid]
    exact hy
  exact Writing.getLast?_filterMap_of_forall_eq hne hall

/-! ## The cascade -/

/-- After a config is run, the last writing that was there at once decides. -/
theorem get?_declared_run {steps : List ConfigStep} (ho : ∀ s ∈ steps, s.Outermost) (name : String)
    (mode : EmitMode) (text p : String) :
    (((new name mode).run steps).document.declared text).get? p =
      Writing.value? (((new name mode).writtenIn text steps).filter fun w =>
        mode = .eager ∨ w.source ≠ .use) p := by
  have hnew : ((new name mode).document.declared text).get? p = none := rfl
  rw [(sound_new name mode).declared_run ho, Block.get?_mergeAll, hnew, Option.or_none,
    ← Writing.getLast?_filterMap_get?]
  rfl

/-- **What decides on a property in the two modes.** A config that works at the root, and leaves the mode
alone, writes the same in both modes. In eager mode the last writing of a property decides. On demand
the token of the class can be committed, and then the blocks of the class's generators decide; only on a
property that these do not set, the last writing that was there at once decides. If the text belongs to
one class, and utilities are uniform, that is the same on all properties, but those that the class sets
and that a selector has written last. -/
theorem get?_declared_modes {name : String} {steps : List ConfigStep} {e l : Engine}
    (he : e = (new name .eager).run steps) (hl : l = (new name .onDemand).run steps)
    (ho : ∀ s ∈ steps, s.Outermost) (c : String) :
    ∃ (ws : List Writing) (k : Commit),
      (∀ mode, (new name mode).writtenIn (Css.classSelector c) steps = ws) ∧
      (Commit.start l ∅).tokens [c] = .ok k ∧
      (∀ p, (e.document.declared (Css.classSelector c)).get? p = Writing.value? ws p) ∧
      (∀ p, (k.engine.document.declared (Css.classSelector c)).get? p =
        ((l.sharing (Css.classSelector c) c).filterMap (·.block.get? p)).getLast?.or
          (Writing.value? (ws.filter fun w => w.source ≠ .use) p)) ∧
      ∀ props : GeneratorId → List String,
        (∀ q ∈ (new name .eager).stylesIn steps, q.2.properties = props q.1) →
        ∀ x ∈ e.emissions, x.className = c → (∀ y ∈ e.emissions, y.text = x.text → y = x) →
        ∀ p,
          ((x.block.get? p).isSome →
            (k.engine.document.declared (Css.classSelector c)).get? p = x.block.get? p) ∧
          (((x.block.get? p).isSome →
              ∀ w, Writing.last? ws p = some w → w.source ≠ .selector) →
            (k.engine.document.declared (Css.classSelector c)).get? p =
              (e.document.declared (Css.classSelector c)).get? p) := by
  have hpeers : Peers (new name .eager) (new name .onDemand) := ⟨rfl, rfl⟩
  obtain ⟨hrun, hwritten⟩ := hpeers.run (sound_new _ _) (sound_new _ _) ho (Css.classSelector c)
  rw [← he, ← hl] at hrun
  have hls : l.Sound := Reached.sound ⟨_, _, _, hl.symm⟩
  let ws := (new name .eager).writtenIn (Css.classSelector c) steps
  obtain ⟨k, hk, -⟩ := Sound.tokens_ok (k := .start l ∅) hls [c]
  have heager (p : String) :
      (e.document.declared (Css.classSelector c)).get? p = Writing.value? ws p := by
    rw [he, get?_declared_run ho, List.filter_eq_self.2]
    simp
  have hcommit (p : String) : (k.engine.document.declared (Css.classSelector c)).get? p =
      ((l.sharing (Css.classSelector c) c).filterMap (·.block.get? p)).getLast?.or
        (Writing.value? (ws.filter fun w => w.source ≠ .use) p) := by
    rw [((Emitted.start hls).tokens hk).get?_declared]
    congr 1
    rw [hl, get?_declared_run ho, hwritten]
    simp [ws]
  refine ⟨ws, k, ?_, hk, heager, hcommit, ?_⟩
  · rintro (_ | _)
    · rfl
    · exact hwritten
  · intro props hp x hx hc hlone p
    subst hc
    have hlatest : Latest (Css.classSelector x.className) (Writing.made ws) e := by
      rw [he] at hlone ⊢
      refine (Latest.new _ name .eager).run (sound_new _ _) ?_ ho hp ?_
      · intro id u table slot hg
        cases hg
      · intro y hy z hz hty htz
        rw [hlone y hy hty, hlone z hz htz]
    obtain ⟨hlast, hall⟩ := hlatest.last x hx rfl
    have hemissions : l.emissions = e.emissions := by
      rw [emissions, emissions, hrun.generators]
    rw [← hemissions] at hx hlone
    have hvalue := hcommit p
    rw [hls.getLast?_sharing hx hlone] at hvalue
    rw [hvalue, heager]
    cases hset : x.block.get? p with
    | none =>
      refine ⟨fun hsome => absurd hsome Bool.false_ne_true, fun _ => ?_⟩
      rw [Option.none_or, Writing.value?_filter_of_made hall hset]
    | some v =>
      refine ⟨fun _ => rfl, fun hlate => ?_⟩
      rw [Option.some_or, Writing.value?_of_made hlast hall (hset ▸ rfl) (hlate rfl), hset]

/-- A config with a margin that it writes itself in between. -/
def resumed : List ConfigStep :=
  [.addUtility (.ofProperty "m" "margin"),
    .useUtility 0 (some (ValueTable.ofList [("sm", .literal "4px")])),
    .selector Document.rootId ".m\\:sm"
      (Block.ofList [("margin", .literal "1px"), ("color", .literal "red")]),
    .useUtility 0 (some (ValueTable.ofList [("sm", .literal "2px")]))]

theorem get?_declared_resumed : ∃ k : Commit,
    (Commit.start ((new "app" .onDemand).run resumed) ∅).tokens ["m:sm"] = .ok k ∧
    ∀ p ∈ ["margin", "color"],
      (k.engine.document.declared (Css.classSelector "m:sm")).get? p =
        (((new "app" .eager).run resumed).document.declared (Css.classSelector "m:sm")).get? p := by
  have ho : ∀ s ∈ resumed, s.Outermost := by
    simp [resumed, ConfigStep.Outermost]
  obtain ⟨ws, k, hws, hk, -, -, hmodes⟩ := @get?_declared_modes "app" resumed _ _ rfl rfl ho "m:sm"
  have huniform : ∀ q ∈ (new "app" .eager).stylesIn resumed, q.2.properties = ["margin"] := by
    decide +kernel
  have hdistinct : ((new "app" .eager).run resumed).DistinctClasses := by
    unfold DistinctClasses
    decide +kernel
  obtain ⟨g, hg⟩ := Option.isSome_iff_exists.1
    (show ((new "app" .eager).run resumed).generators[0]?.isSome by decide +kernel)
  have hclass : ((new "app" .eager).run resumed).generators[0]?.bind (fun g => g.classes[0]?) =
      some ("m:sm", Block.ofList [("margin", .literal "2px")]) := by
    decide +kernel
  rw [hg] at hclass
  let x : Emission := ⟨g.slot, 0, "m:sm", Block.ofList [("margin", .literal "2px")]⟩
  have hx : x ∈ ((new "app" .eager).run resumed).emissions :=
    ⟨g, List.mem_of_getElem? hg, Generator.mem_emissions.2 ⟨rfl, hclass⟩⟩
  -- the margin was used again after the config wrote it
  have hlast : ∀ p ∈ ["margin", "color"], ((Block.ofList [("margin", .literal "2px")]).get? p).isSome →
      ∀ w ∈ Writing.last? ((new "app" .eager).writtenIn (Css.classSelector "m:sm") resumed) p,
        w.source ≠ .selector := by
    decide +kernel
  refine ⟨k, hk, ?_⟩
  intro p hp
  refine (hmodes (fun _ => ["margin"]) huniform x hx rfl
    (fun y hy ht => hdistinct.eq_of_text hy hx ht) p).2 ?_
  intro hset w hw
  apply hlast p hp hset w
  rw [hws]
  exact hw

/-- A config that uses a margin and then writes it itself. -/
def overridden : List ConfigStep :=
  [.addUtility (.ofProperty "m" "margin"),
    .useUtility 0 (some (ValueTable.ofList [("sm", .literal "4px")])),
    .selector Document.rootId ".m\\:sm" (Block.ofList [("margin", .literal "1px")])]

/-- A config with two utilities that share their classes, and a selector that leaves the margin alone. -/
def rivals : List ConfigStep :=
  [.addUtility (.ofProperty "m" "margin"),
    .addUtility ((Utility.ofProperty "n" "margin").withStem "m"),
    .useUtility 0 (some (ValueTable.ofList [("sm", .literal "1px")])),
    .useUtility 1 (some (ValueTable.ofList [("sm", .literal "2px")])),
    .selector Document.rootId ".m\\:sm" (Block.ofList [("color", .literal "red")]),
    .useUtility 0 (some (ValueTable.ofList [("sm", .literal "3px")]))]

/-- A config that works at the root, leaves the mode alone and uses its utilities uniformly has a
selector with the text of a class, and leads to the given values of a property in the two modes. -/
def Yields (steps : List ConfigStep) (c p : String) (eager onDemand : Value) : Prop :=
  (∀ s ∈ steps, s.Outermost) ∧
  (∃ props : GeneratorId → List String,
    ∀ q ∈ (new "app" .eager).stylesIn steps, q.2.properties = props q.1) ∧
  c ∈ (((new "app" .eager).run steps).generators.flatMap Generator.classes).map (·.1) ∧
  Text.trimmed (Css.classSelector c) ∈ steps.filterMap ConfigStep.selectorText? ∧
  (((new "app" .eager).run steps).document.declared (Css.classSelector c)).get? p = some eager ∧
  ∃ k : Commit, (Commit.start ((new "app" .onDemand).run steps) ∅).tokens [c] = .ok k ∧
    (k.engine.document.declared (Css.classSelector c)).get? p = some onDemand

/-- **The modes differ** on a property that a config has written after its use of a class, and on one that
several generators set by the same class. -/
theorem modes_differ :
    Yields overridden "m:sm" "margin" (.literal "1px") (.literal "4px") ∧
    Yields rivals "m:sm" "margin" (.literal "3px") (.literal "2px") := by
  have hcommit {steps : List ConfigStep} {v : Value}
      (h : ((Commit.start ((new "app" .onDemand).run steps) ∅).tokens ["m:sm"]).toOption.bind (fun k =>
        (k.engine.document.declared (Css.classSelector "m:sm")).get? "margin") = some v) :
      ∃ k : Commit, (Commit.start ((new "app" .onDemand).run steps) ∅).tokens ["m:sm"] = .ok k ∧
        (k.engine.document.declared (Css.classSelector "m:sm")).get? "margin" = some v := by
    cases hk : (Commit.start ((new "app" .onDemand).run steps) ∅).tokens ["m:sm"] with
    | error cause =>
      rw [hk] at h
      cases h
    | ok k =>
      rw [hk] at h
      exact ⟨k, rfl, h⟩
  constructor
  · refine ⟨by simp [overridden, ConfigStep.Outermost], ⟨fun _ => ["margin"], ?_⟩, ?_, ?_, ?_,
      hcommit ?_⟩ <;> decide +kernel
  · refine ⟨by simp [rivals, ConfigStep.Outermost], ⟨fun _ => ["margin"], ?_⟩, ?_, ?_, ?_,
      hcommit ?_⟩ <;> decide +kernel

end Engine

end AtomicCss
