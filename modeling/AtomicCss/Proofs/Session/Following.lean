import AtomicCss.Proofs.Keyed
import AtomicCss.Proofs.Session.Cascade
import AtomicCss.Proofs.Session.Index
import AtomicCss.Proofs.Session.Life
import Mathlib

/-! # Committed classes and the table

A class of a utility is emitted with the value that the table has for its suffix at that time. What is
declared for it afterwards is what was emitted last (`Sound.declared_act`), and a pair that is committed
is not emitted again. So a committed class has the declarations of the table's present value, unless an
on-demand use has set another value since the class was emitted (`committed_carries`); there it is left
behind (`left_behind`). -/

namespace AtomicCss

/-! ## What happens to an entry -/

/-- What happens to an entry of a utility's table: it is set, or its class is emitted. -/
inductive Touch where
  | entered (value : Value)
  | emitted (value : Value)

namespace Touch

def value : Touch → Value
  | entered v | emitted v => v

def emitted? : Touch → Option Value
  | emitted v => some v
  | entered _ => none

/-- What a use with a value does: in eager mode, the class is emitted. -/
def ofUse : EmitMode → Value → Touch
  | .eager => .emitted
  | .onDemand => .entered

/-- The value with which the class was emitted last. -/
def lastEmitted? (ts : List Touch) : Option Value := (ts.filterMap emitted?).getLast?

theorem lastEmitted?_append (ts ts' : List Touch) :
    lastEmitted? (ts ++ ts') = (lastEmitted? ts').or (lastEmitted? ts) := by
  rw [lastEmitted?, List.filterMap_append, List.getLast?_append]
  rfl

theorem lastEmitted?_of_getLast? {ts : List Touch} {v : Value}
    (h : ts.getLast? = some (.emitted v)) : lastEmitted? ts = some v := by
  obtain ⟨ts, rfl⟩ := List.getLast?_eq_some_iff.1 h
  rw [lastEmitted?_append]
  rfl

end Touch

/-! ## Tables -/

namespace ValueTable

theorem put_eq_putBy (suffix : String) (value : Value) (es : List (String × Value)) :
    put suffix value es = putBy (·.1) (suffix, value) es := by
  induction es with
  | nil => rfl
  | cons e es ih => simp only [put, putBy, ih]

theorem get?_insert (t : ValueTable) (suffix s : String) (value : Value) :
    (t.insert suffix value).get? s = if s = suffix then some value else t.get? s := by
  show ((put suffix value t.entries).find? (·.1 = s)).map (·.2) = _
  rw [put_eq_putBy, find?_putBy]
  split <;> rfl

/-- Of entries that are set in turn, the last one for a suffix decides on its value. -/
theorem get?_insertAll (t : ValueTable) (entries : List (String × Value)) (suffix : String) :
    (t.insertAll entries).get? suffix =
      ((entries.filter (·.1 = suffix)).map (·.2)).getLast?.or (t.get? suffix) := by
  induction entries generalizing t with
  | nil => rfl
  | cons entry entries ih =>
    rw [show t.insertAll (entry :: entries) = (t.insert entry.1 entry.2).insertAll entries from rfl,
      ih, get?_insert, List.filter_cons]
    by_cases hs : entry.1 = suffix
    · rw [if_pos hs.symm, if_pos (decide_eq_true hs), List.map_cons, List.getLast?_cons]
      cases ((entries.filter (·.1 = suffix)).map (·.2)).getLast? <;> rfl
    · rw [if_neg (Ne.symm hs), if_neg (by simpa using hs)]

end ValueTable

theorem Generator.mem_classes_of_mem_entries {u : Utility} {table : ValueTable} {slot : SlotId}
    {entries : List (String × Value)} {p : String × Value} (hp : p ∈ entries) :
    u.classOf p.1 ∈ (utility u (table.insertAll entries) slot).classes.map (·.1) := by
  induction entries generalizing table with
  | nil => cases hp
  | cons entry entries ih =>
    rcases List.mem_cons.1 hp with rfl | hp
    · exact mem_classes_insertAll entries (mem_classes_insert.2 (.inr rfl))
    · exact ih hp

/-- The text of a selector that a step writes under the root. -/
def Engine.ConfigStep.rootText? : Engine.ConfigStep → Option String
  | .selector parent text _ | .selectorCss parent text _ =>
    if parent = Document.rootId then some (Text.trimmed text) else none
  | _ => none

/-- What happens to the entry of a suffix if its class is emitted now, which happens if the class is
asked for and is known. -/
def Engine.emissionOf (e : Engine) (id : GeneratorId) (suffix : String) (asks : String → Bool) :
    List Touch :=
  match e.generators[id]? with
  | some (.utility u table _) =>
    if asks (u.classOf suffix) then ((table.get? suffix).map .emitted).toList else []
  | _ => []

namespace Session

/-- The text of a selector that an act writes under the root. -/
def Act.rootText? : Act → Option String
  | .config step => step.rootText?
  | _ => none

/-- What an act does to the entry of a suffix in the table of a utility, and to its class: a use sets
it, and in eager mode emits it, and a token emits it, unless the compiler has committed it before. -/
def touches (s : Session) (id : GeneratorId) (suffix : String) : Act → List Touch
  | .config (.useUtility i config) =>
    if i = id then
      (s.engine.utility? id).elim [] fun u =>
        ((config.getD u.defaults).entries.filter (·.1 = suffix)).map
          fun p => .ofUse s.engine.mode p.2
    else []
  | .config (.generate i token) => s.engine.emissionOf id suffix fun c => i = id ∧ token = c
  | .commit n tokens =>
    s.engine.emissionOf id suffix fun c => c ∈ tokens ∧ (s.caches n).contains id c = false
  | _ => []

/-- What some acts do to an entry. -/
def history (s : Session) (id : GeneratorId) (suffix : String) : List Act → List Touch
  | [] => []
  | a :: acts => s.touches id suffix a ++ (s.act a).history id suffix acts

theorem history_concat (s : Session) (id : GeneratorId) (suffix : String) (acts : List Act) (a : Act) :
    s.history id suffix (acts ++ [a]) =
      s.history id suffix acts ++ (s.run acts).touches id suffix a := by
  induction acts generalizing s with
  | nil => exact List.append_nil _
  | cons b acts ih =>
    rw [List.cons_append, history, history, ih, List.append_assoc]
    rfl

end Session

/-! ## Classes that are alone with their text -/

namespace Engine

variable {e e' : Engine} {id i : GeneratorId} {u : Utility} {table : ValueTable} {slot : SlotId}
  {suffix className token : String}

/-- A class of a generator is the only class whose selector has its text. -/
def Only (e : Engine) (id : GeneratorId) (className : String) : Prop :=
  ∀ i g c, e.generators[i]? = some g → c ∈ g.classes.map (·.1) →
    Text.trimmed (Css.classSelector c) = Text.trimmed (Css.classSelector className) →
      i = id ∧ c = className

theorem Only.congr (ho : e.Only id className) (hg : e'.generators = e.generators) :
    e'.Only id className :=
  fun i g c hi => ho i g c (hg ▸ hi)

theorem Only.of_learns (ho : e'.Only id className) (h : e.Learns e') : e.Only id className := by
  intro i g c hg hc
  obtain ⟨g', hg', hc'⟩ := h.mem_classes hg hc
  exact ho i g' c hg' hc'

theorem emissionOf_eq (hg : e.generators[id]? = some (.utility u table slot))
    (asks : String → Bool) : e.emissionOf id suffix asks =
      if asks (u.classOf suffix) then ((table.get? suffix).map .emitted).toList else [] := by
  rw [emissionOf, hg]

theorem mem_classes_utility_iff (u : Utility) (slot : SlotId) :
    u.classOf suffix ∈ (Generator.utility u table slot).classes.map (·.1) ↔
      (table.get? suffix).isSome := by
  rw [Generator.map_fst_classes_utility, ValueTable.isSome_get?_iff, List.mem_map]
  simp [Utility.classOf_inj]

theorem Sound.mem_generatorsFor_classOf (h : e.Sound)
    (hg : e.generators[id]? = some (.utility u table slot)) (suffix : String) :
    id ∈ e.generatorsFor (u.classOf suffix) ↔ (table.get? suffix).isSome := by
  rw [mem_generatorsFor, h.indexed]
  refine Iff.trans ?_ (mem_classes_utility_iff u slot)
  constructor
  · rintro ⟨g, hg', hc⟩
    obtain rfl := Option.some.inj (hg.symm.trans hg')
    exact hc
  · intro hc
    exact ⟨_, hg, hc⟩

/-- A class that is alone is not among the classes of other generators. -/
theorem Only.blocksOf_eq_nil (ho : e.Only id className) {g : Generator}
    (hg : e.generators[i]? = some g) (hi : i ≠ id) {classes : List (String × Block)}
    (hclasses : ∀ c ∈ classes, c.1 ∈ g.classes.map (·.1)) :
    blocksOf (Css.classSelector className) classes = [] := by
  rw [blocksOf, List.filter_eq_nil_iff.2, List.map_nil]
  intro c hc
  rw [decide_eq_true_eq]
  intro ht
  exact hi (ho i g c.1 hg (hclasses c hc) ht).1

/-- What a token asks for with the text of a class that is alone: the class, if it is the token. -/
theorem Only.blocksOf_asked (ho : e.Only id (u.classOf suffix))
    (hg : e.generators[id]? = some (.utility u table slot)) (token : String) :
    blocksOf (Css.classSelector (u.classOf suffix))
        (((Generator.utility u table slot).asked token).map fun x => (x.className, x.block)) =
      if token = u.classOf suffix then ((table.get? suffix).map (u.style suffix)).toList
      else [] := by
  by_cases htoken : token ∈ (Generator.utility u table slot).classes.map (·.1)
  · rw [Generator.map_fst_classes_utility] at htoken
    obtain ⟨s, hs, rfl⟩ := List.mem_map.1 htoken
    obtain ⟨value, hvalue⟩ := Option.isSome_iff_exists.1 (ValueTable.isSome_get?_iff.2 hs)
    obtain ⟨ordinal, hclass⟩ := Generator.asked_utility u slot hvalue
    rw [hclass, List.map_singleton, blocksOf]
    by_cases hsuffix : s = suffix
    · subst hsuffix
      rw [if_pos rfl, hvalue]
      simp
    · have hne : Text.trimmed (Css.classSelector (u.classOf s)) ≠
          Text.trimmed (Css.classSelector (u.classOf suffix)) := by
        intro ht
        have hmem : u.classOf s ∈ (Generator.utility u table slot).classes.map (·.1) :=
          (mem_classes_utility_iff u slot).2 (hvalue ▸ rfl)
        exact hsuffix (Utility.classOf_inj.1 (ho id _ _ hg hmem ht).2)
      rw [if_neg fun h => hsuffix (Utility.classOf_inj.1 h)]
      simp [hne]
  · have hnil : (Generator.utility u table slot).asked token = [] := by
      by_contra hne
      exact htoken (Generator.asked_ne_nil_iff.1 hne)
    rw [hnil]
    split
    · rename_i h
      rw [h, mem_classes_utility_iff, Option.not_isSome_iff_eq_none] at htoken
      rw [htoken]
      rfl
    · rfl

/-- What a pair asks for with the text of a class that is alone: the class, if it is the pair's. -/
theorem Only.blocksOf_askedFor (ho : e.Only id (u.classOf suffix))
    (hg : e.generators[id]? = some (.utility u table slot)) (i : GeneratorId) (token : String) :
    blocksOf (Css.classSelector (u.classOf suffix))
        ((e.askedFor (i, token)).map fun x => (x.className, x.block)) =
      if i = id ∧ token = u.classOf suffix then ((table.get? suffix).map (u.style suffix)).toList
      else [] := by
  rw [askedFor]
  by_cases hid : i = id
  · subst hid
    rw [hg, Option.elim_some, ho.blocksOf_asked hg token]
    simp
  · rw [if_neg fun h => hid h.1]
    cases hi : e.generators[i]? with
    | none => rfl
    | some g =>
      rw [Option.elim_some]
      apply ho.blocksOf_eq_nil hi hid
      intro c hc
      obtain ⟨x, hx, rfl⟩ := List.mem_map.1 hc
      exact List.mem_map_of_mem (f := (·.1))
        (List.mem_of_getElem? (Generator.mem_emissions.1 (Generator.asked_subset hx)).2)

/-- What a use writes with the text of a class that is alone: the class, if it is used. -/
theorem Only.blocksOf_entries (ho : e.Only id (u.classOf suffix)) {entries : List (String × Value)}
    (hg : e.generators[id]? = some (.utility u (table.insertAll entries) slot)) :
    blocksOf (Css.classSelector (u.classOf suffix))
        (entries.map fun p => (u.classOf p.1, u.style p.1 p.2)) =
      ((entries.filter (·.1 = suffix)).map (·.2)).map (u.style suffix) := by
  have hfilter : entries.filter (fun p => Text.trimmed (Css.classSelector (u.classOf p.1)) =
      Text.trimmed (Css.classSelector (u.classOf suffix))) = entries.filter (·.1 = suffix) := by
    apply List.filter_congr
    intro p hp
    rw [decide_eq_decide]
    constructor
    · intro ht
      exact Utility.classOf_inj.1
        (ho id _ _ hg (Generator.mem_classes_of_mem_entries hp) ht).2
    · intro hs
      rw [hs]
  have hblocks : blocksOf (Css.classSelector (u.classOf suffix))
      (entries.map fun p => (u.classOf p.1, u.style p.1 p.2)) = (entries.filter fun p =>
        Text.trimmed (Css.classSelector (u.classOf p.1)) =
          Text.trimmed (Css.classSelector (u.classOf suffix))).map fun p => u.style p.1 p.2 := by
    simp only [blocksOf, List.filter_map, List.map_map, Function.comp_def]
  rw [hblocks, hfilter, List.map_map]
  apply List.map_congr_left
  intro p hp
  have hs : p.1 = suffix := by simpa using (List.mem_filter.1 hp).2
  rw [← hs]
  rfl

/-- Selectors of a step write nothing to a text that is not theirs. -/
theorem ofSelector_eq_nil {text t : String} {parent : ContainerId} {block : Block}
    (h : (if parent = Document.rootId then some (Text.trimmed t) else none) ≠
      some (Text.trimmed text)) : Writing.ofSelector text parent t block = [] := by
  by_cases hp : parent = Document.rootId
  · rw [if_pos hp] at h
    exact if_neg fun h' => h (congrArg some h'.2.symm)
  · exact Writing.ofSelector_of_ne hp

/-- A use writes what it emits at once. -/
theorem seen_uses (mode : EmitMode) (u : Utility) (suffix : String) (ps : List (String × Value)) :
    Writing.seen mode (Writing.of .use ((ps.map (·.2)).map (u.style suffix))) =
      ((ps.map fun p => Touch.ofUse mode p.2).filterMap Touch.emitted?).map (u.style suffix) := by
  cases mode with
  | eager =>
    rw [Writing.seen_of (.inl rfl), List.filterMap_map]
    exact congrArg _ (congrFun List.filterMap_eq_map _).symm
  | onDemand =>
    rw [Writing.seen_use_onDemand, List.filterMap_map, List.filterMap_eq_nil_iff.2, List.map_nil]
    intro p _
    rfl

/-- **One step** of a config merges into a class that is alone with its text what it emits of it. -/
theorem Sound.seen_writtenBy (h : e.Sound) (hg : e.generators[id]? = some (.utility u table slot))
    {s : ConfigStep} (ho : (e.step s).Only id (u.classOf suffix))
    (hs : s.rootText? ≠ some (Text.trimmed (Css.classSelector (u.classOf suffix))))
    (caches : Nat → SessionCache) :
    Writing.seen e.mode (e.writtenBy (Css.classSelector (u.classOf suffix)) s) =
      (((⟨e, caches⟩ : Session).touches id suffix (.config s)).filterMap Touch.emitted?).map
        (u.style suffix) := by
  have hid := (List.getElem?_eq_some_iff.1 hg).1
  cases s with
  | selector parent t block => rw [writtenBy, ofSelector_eq_nil hs]; rfl
  | selectorCss parent t css => rw [writtenBy, ofSelector_eq_nil hs]; rfl
  | useUtility i config =>
    rw [writtenBy, Session.touches]
    cases hv : e.utility? i with
    | none =>
      have hne : i ≠ id := by
        rintro rfl
        rw [utility?_eq_some_iff.2 ⟨table, slot, hg⟩] at hv
        cases hv
      rw [if_neg hne]
      rfl
    | some v =>
      obtain ⟨table', slot', hg'⟩ := utility?_eq_some_iff.1 hv
      obtain ⟨bindings, hok⟩ := h.useEntries_eq hg' (config.getD v.defaults).entries
      rw [step_useUtility hv hok] at ho
      have hnew := List.getElem?_set_self (a := .utility v
        (table'.insertAll (config.getD v.defaults).entries) slot')
        (List.getElem?_eq_some_iff.1 hg').1
      by_cases hi : i = id
      · subst hi
        obtain ⟨rfl, rfl, rfl⟩ := Generator.utility.inj (Option.some.inj (hg'.symm.trans hg))
        rw [Option.elim_some, ho.blocksOf_entries hnew, if_pos rfl, hv, Option.elim_some]
        exact seen_uses e.mode v suffix _
      · rw [Option.elim_some, if_neg hi, ho.blocksOf_eq_nil hnew hi]
        · cases e.mode <;> rfl
        · intro c hc
          obtain ⟨p, hp, rfl⟩ := List.mem_map.1 hc
          exact Generator.mem_classes_of_mem_entries hp
  | addRecipe definition =>
    have htouches : (⟨e, caches⟩ : Session).touches id suffix (.config (.addRecipe definition)) = [] :=
      rfl
    rw [h.step_addRecipe] at ho
    rw [writtenBy, htouches]
    cases hc : Recipe.compile definition with
    | error cause => cases e.mode <;> rfl
    | ok compiled =>
      simp only [hc] at ho ⊢
      by_cases hname : e.hasGenerator compiled.1.name = true
      · rw [if_pos hname]
        cases e.mode <;> rfl
      · rw [if_neg hname] at ho ⊢
        rw [ho.blocksOf_eq_nil List.getElem?_concat_length (Nat.ne_of_gt hid)]
        · cases e.mode <;> rfl
        · intro c hc
          exact List.mem_map_of_mem (f := (·.1)) hc
  | generate i token =>
    have ho := ho.of_learns (h.learns_step _)
    rw [writtenBy, Writing.seen_of (.inr (by decide)), ho.blocksOf_askedFor hg, Session.touches,
      emissionOf_eq hg]
    by_cases hi : i = id ∧ token = u.classOf suffix
    · rw [if_pos hi, if_pos (decide_eq_true hi)]
      cases table.get? suffix <;> rfl
    · rw [if_neg hi, if_neg (by simpa using hi)]
      rfl
  | _ => rfl

/-- An emission leaves the table as it is. -/
theorem value_emissionOf (hg : e.generators[id]? = some (.utility u table slot))
    (asks : String → Bool) : ((e.emissionOf id suffix asks).getLast?.map Touch.value).or
      (table.get? suffix) = table.get? suffix := by
  rw [emissionOf_eq hg]
  split
  · cases table.get? suffix <;> rfl
  · rfl

end Engine

/-! ## Commits -/

namespace Commit

variable {k k' k'' : Commit} {id i : GeneratorId} {className suffix t : String} {bs : List Block}
  {u : Utility} {table : ValueTable} {slot : SlotId} {tokens : List String}

/-- From `k` to `k'` a class was not committed, or it was committed for the first time, and emitted. -/
inductive Refreshes (id : GeneratorId) (className : String) (bs : List Block) (k k' : Commit) : Prop
  | kept (hc : k'.cache.contains id className = k.cache.contains id className)
      (hd : k'.engine.document.declared (Css.classSelector className) =
        k.engine.document.declared (Css.classSelector className))
  | emitted (hnew : k.cache.contains id className = false)
      (hc : k'.cache.contains id className = true)
      (hd : k'.engine.document.declared (Css.classSelector className) =
        (k.engine.document.declared (Css.classSelector className)).mergeAll bs)

theorem Refreshes.trans (h : Refreshes id className bs k k') (h' : Refreshes id className bs k' k'') :
    Refreshes id className bs k k'' := by
  cases h with
  | kept hc hd =>
    cases h' with
    | kept hc' hd' => exact .kept (hc'.trans hc) (hd'.trans hd)
    | emitted hnew hc' hd' => exact .emitted (hc ▸ hnew) hc' (hd ▸ hd')
  | emitted hnew hc hd =>
    cases h' with
    | kept hc' hd' => exact .emitted hnew (hc'.trans hc) (hd'.trans hd)
    | emitted hnew' _ _ => cases hnew'.symm.trans hc

/-- **One pair.** -/
theorem pair_refreshes (hs : k.engine.Sound)
    (hg : k.engine.generators[id]? = some (.utility u table slot))
    (ho : k.engine.Only id (u.classOf suffix)) (h : k.pair t i = .ok k') :
    Refreshes id (u.classOf suffix) ((table.get? suffix).map (u.style suffix)).toList k k' := by
  rcases pair_cases hs h with ⟨he, hc⟩ | ⟨g, hi, hadmits, hnew, -, hdocument, hcache⟩
  · exact .kept (by rw [hc]) (by rw [he])
  · have hasked : k.engine.askedFor (i, t) = g.asked t := by
      rw [Engine.askedFor, hi, Option.elim_some]
    have hdeclared := hadmits.declared_absorbAll (Css.classSelector (u.classOf suffix))
    rw [map_block_filter, ← hasked, ho.blocksOf_askedFor hg, hasked, ← hdocument] at hdeclared
    have hcontains : k'.cache.contains id (u.classOf suffix) = true ↔
        (id, u.classOf suffix) = (i, t) ∨ k.cache.contains id (u.classOf suffix) = true := by
      rw [hcache, SessionCache.contains_insert]
    by_cases hpair : i = id ∧ t = u.classOf suffix
    · rw [if_pos hpair] at hdeclared
      refine .emitted ?_ ?_ hdeclared
      · rw [← hpair.1, ← hpair.2, hnew]
      · rw [hcontains, hpair.1, hpair.2]
        exact .inl rfl
    · rw [if_neg hpair] at hdeclared
      refine .kept ?_ hdeclared
      rw [Bool.eq_iff_iff, hcontains]
      refine or_iff_right fun heq => hpair ?_
      obtain ⟨rfl, rfl⟩ := Prod.mk.inj heq
      exact ⟨rfl, rfl⟩

/-- **A whole commit.** -/
theorem tokens_refreshes (hs : k.engine.Sound)
    (hg : k.engine.generators[id]? = some (.utility u table slot))
    (ho : k.engine.Only id (u.classOf suffix)) (h : k.tokens tokens = .ok k') :
    Refreshes id (u.classOf suffix) ((table.get? suffix).map (u.style suffix)).toList k k' := by
  -- the generators stay, so the class is alone before every pair
  let R (k k' : Commit) : Prop := k'.engine.generators = k.engine.generators ∧
    (k.engine.generators[id]? = some (.utility u table slot) →
      k.engine.Only id (u.classOf suffix) →
      Refreshes id (u.classOf suffix) ((table.get? suffix).map (u.style suffix)).toList k k')
  refine (tokens_rel (R := R) ?counted ?trans ?pair hs h).2 hg ho
  case counted => exact fun _ => ⟨rfl, fun _ _ => .kept rfl rfl⟩
  case trans =>
    rintro k₁ k₂ k₃ ⟨hgen, h⟩ ⟨hgen', h'⟩
    exact ⟨hgen'.trans hgen, fun hg ho => (h hg ho).trans (h' (hgen ▸ hg) (ho.congr hgen))⟩
  case pair =>
    intro k t i k' hs hp
    refine ⟨?_, fun hg ho => pair_refreshes hs hg ho hp⟩
    rw [(pair_ok hp).1.engine]

end Commit

/-! ## Sessions -/

namespace Session

variable {s : Session} {a : Act} {id : GeneratorId} {suffix : String} {u : Utility}
  {table : ValueTable} {slot : SlotId}

/-- **What one act makes of a class** that is alone with its text: what it emits of the class is merged
into what is declared. -/
theorem Sound.declared_act (h : s.Sound)
    (hg : s.engine.generators[id]? = some (.utility u table slot))
    (ho : (s.act a).engine.Only id (u.classOf suffix))
    (ha : a.rootText? ≠ some (Text.trimmed (Css.classSelector (u.classOf suffix)))) :
    (s.act a).engine.document.declared (Css.classSelector (u.classOf suffix)) =
      (s.engine.document.declared (Css.classSelector (u.classOf suffix))).mergeAll
        (((s.touches id suffix a).filterMap Touch.emitted?).map (u.style suffix)) := by
  cases a with
  | config step =>
    rw [← h.engine.seen_writtenBy hg ho ha s.caches]
    exact (h.engine.declared_step step _).2
  | reset n => rfl
  | commit n tokens =>
    have hcontains : ((s.act (.commit n tokens)).caches n).contains id (u.classOf suffix) = true ↔ _ :=
      h.contains_commit
    obtain ⟨k, hk, -, hact⟩ := h.act_commit n tokens
    have hcaches : (s.act (.commit n tokens)).caches n = k.cache := by
      rw [hact]
      exact Function.update_self ..
    have hknown := h.engine.mem_generatorsFor_classOf hg suffix
    rw [hcaches, hknown] at hcontains
    have hrefreshes := Commit.tokens_refreshes (k := .start s.engine (s.caches n)) h.engine hg
      (ho.of_learns (h.learns _)) hk
    rw [hact, touches, Engine.emissionOf_eq hg]
    cases hrefreshes with
    | kept hc hd =>
      refine hd.trans ?_
      by_cases hasks : u.classOf suffix ∈ tokens ∧ (s.caches n).contains id (u.classOf suffix) = false
      · -- the pair is not committed though its token is, so the table has no such entry
        have hnone : table.get? suffix = none := by
          rw [← Option.not_isSome_iff_eq_none]
          intro hsome
          have hnow := hc.symm.trans (hcontains.2 (.inl ⟨hasks.1, hsome⟩))
          rw [Commit.start, hasks.2] at hnow
          cases hnow
        rw [if_pos (decide_eq_true hasks), hnone]
        rfl
      · rw [if_neg (by simpa using hasks)]
        rfl
    | emitted hnew hc hd =>
      refine hd.trans ?_
      have hasks : u.classOf suffix ∈ tokens ∧
          (s.caches n).contains id (u.classOf suffix) = false := by
        rcases hcontains.1 hc with h | h
        · exact ⟨h.1, hnew⟩
        · cases hnew.symm.trans h
      rw [if_pos (decide_eq_true hasks)]
      cases table.get? suffix <;> rfl

theorem exists_touches_eq (ha : ∀ config, a ≠ .config (.useUtility id config)) :
    ∃ asks, s.touches id suffix a = s.engine.emissionOf id suffix asks := by
  have hnever : s.engine.emissionOf id suffix (fun _ => false) = [] := by
    unfold Engine.emissionOf
    split <;> rfl
  cases a with
  | config step =>
    cases step with
    | useUtility i config =>
      have hi : i ≠ id := by
        rintro rfl
        exact ha config rfl
      exact ⟨_, (if_neg hi).trans hnever.symm⟩
    | generate i token => exact ⟨fun c => i = id ∧ token = c, rfl⟩
    | _ => exact ⟨_, hnever.symm⟩
  | commit n tokens =>
    exact ⟨fun c => c ∈ tokens ∧ (s.caches n).contains id c = false, rfl⟩
  | reset n => exact ⟨_, hnever.symm⟩

/-- A class that a compiler commits for the first time is emitted with its present value. -/
theorem touches_commit {value : Value} {n : Nat} {tokens : List String}
    (hg : s.engine.generators[id]? = some (.utility u table slot))
    (hvalue : table.get? suffix = some value) (ht : u.classOf suffix ∈ tokens)
    (hnew : (s.caches n).contains id (u.classOf suffix) = false) :
    s.touches id suffix (.commit n tokens) = [.emitted value] := by
  rw [touches, Engine.emissionOf_eq hg, if_pos (decide_eq_true ⟨ht, hnew⟩), hvalue]
  rfl

/-- **What one act makes of an entry**: it has the value of the last touch. -/
theorem Sound.table_act (h : s.Sound)
    (hg : s.engine.generators[id]? = some (.utility u table slot)) (suffix : String) (a : Act) :
    ∃ table', (s.act a).engine.generators[id]? = some (.utility u table' slot) ∧
      table'.get? suffix =
        ((s.touches id suffix a).getLast?.map Touch.value).or (table.get? suffix) := by
  by_cases huse : ∃ config, a = .config (.useUtility id config)
  · obtain ⟨config, rfl⟩ := huse
    have hu := Engine.utility?_eq_some_iff.2 ⟨table, slot, hg⟩
    obtain ⟨bindings, hok⟩ := h.engine.useEntries_eq hg (config.getD u.defaults).entries
    have hstep : (s.act (.config (.useUtility id config))).engine = _ :=
      Engine.step_useUtility hu hok
    refine ⟨table.insertAll (config.getD u.defaults).entries, ?_, ?_⟩
    · rw [hstep]
      exact List.getElem?_set_self (List.getElem?_eq_some_iff.1 hg).1
    · rw [ValueTable.get?_insertAll, touches, if_pos rfl, hu, Option.elim_some, ← List.getLast?_map,
        List.map_map]
      cases s.engine.mode <;> rfl
  · have hkept : (s.act a).engine.generators[id]? = some (.utility u table slot) := by
      cases a with
      | config step =>
        apply h.engine.utility_step hg
        rintro config rfl
        exact huse ⟨config, rfl⟩
      | commit n tokens =>
        obtain ⟨k, hk, -, hact⟩ := h.act_commit n tokens
        rw [hact, (Commit.tokens_grows hk).engine]
        exact hg
      | reset n => exact hg
    obtain ⟨asks, htouches⟩ := exists_touches_eq (not_exists.1 huse)
    exact ⟨table, hkept, by rw [htouches, Engine.value_emissionOf hg]⟩

/-- What a compiler has committed behind an act, it had committed before, or commits now. -/
theorem Sound.contains_act (h : s.Sound) {n : Nat} {t : String}
    (hc : ((s.act a).caches n).contains id t = true) : (s.caches n).contains id t = true ∨
      ∃ tokens, a = .commit n tokens ∧ t ∈ tokens ∧ id ∈ s.engine.generatorsFor t := by
  cases a with
  | config step => exact .inl hc
  | reset m =>
    by_cases hn : n = m
    · subst hn
      simp [Session.act, SessionCache.contains_empty] at hc
    · exact .inl (by simpa [Session.act, hn] using hc)
  | commit m tokens =>
    by_cases hn : n = m
    · subst hn
      rcases h.contains_commit.1 hc with hnew | hold
      · exact .inr ⟨tokens, rfl, hnew⟩
      · exact .inl hold
    · rw [h.caches_commit_of_ne hn] at hc
      exact .inl hc

/-! ## Histories -/

theorem touches_of_none (hnone : s.engine.generators[id]? = none) (suffix : String) (a : Act) :
    s.touches id suffix a = [] := by
  by_cases huse : ∃ config, a = .config (.useUtility id config)
  · obtain ⟨config, rfl⟩ := huse
    rw [touches, if_pos rfl, Engine.utility?, hnone]
    rfl
  · obtain ⟨asks, htouches⟩ := exists_touches_eq (not_exists.1 huse)
    rw [htouches, Engine.emissionOf, hnone]

/-- A generator that is not registered has no history. -/
theorem history_of_none {name : String} {mode : EmitMode} {acts : List Act}
    (hnone : ((new name mode).run acts).engine.generators[id]? = none) (suffix : String) :
    (new name mode).history id suffix acts = [] := by
  induction acts using List.reverseRecOn with
  | nil => rfl
  | append_singleton acts a ih =>
    rw [run_concat] at hnone
    have hbefore : ((new name mode).run acts).engine.generators[id]? = none := by
      have hlength := ((sound_run name mode acts).learns a).length_le
      rw [List.getElem?_eq_none_iff] at hnone ⊢
      exact hlength.trans hnone
    rw [history_concat, ih hbefore, touches_of_none hbefore]
    rfl

/-- What is declared for a class of a utility follows the entry's history. -/
structure Follows (s : Session) (id : GeneratorId) (u : Utility) (suffix : String)
    (ts : List Touch) : Prop where
  /-- The class has what was emitted last. -/
  held : ∀ v, Touch.lastEmitted? ts = some v → ∀ d ∈ (u.style suffix v).declarations,
    d ∈ (s.engine.document.declared (Css.classSelector (u.classOf suffix))).declarations
  /-- A class that is committed was emitted. -/
  emitted : ∀ n, (s.caches n).contains id (u.classOf suffix) = true →
    (Touch.lastEmitted? ts).isSome

/-- **One act.** -/
theorem Follows.act {ts : List Touch} (hf : s.Follows id u suffix ts) (h : s.Sound)
    (hg : s.engine.generators[id]? = some (.utility u table slot))
    (ho : (s.act a).engine.Only id (u.classOf suffix))
    (ha : a.rootText? ≠ some (Text.trimmed (Css.classSelector (u.classOf suffix)))) :
    (s.act a).Follows id u suffix (ts ++ s.touches id suffix a) := by
  refine ⟨?held, ?emitted⟩
  case held =>
    intro v hv d hd
    rw [h.declared_act hg ho ha]
    rw [Touch.lastEmitted?_append] at hv
    cases hlast : Touch.lastEmitted? (s.touches id suffix a) with
    | none =>
      rw [hlast, Option.none_or] at hv
      rw [Touch.lastEmitted?, List.getLast?_eq_none_iff] at hlast
      rw [hlast]
      exact hf.held v hv d hd
    | some w =>
      rw [hlast, Option.some_or, Option.some.injEq] at hv
      subst hv
      apply Block.mem_mergeAll _ hd
      rw [List.getLast?_map]
      exact congrArg _ hlast
  case emitted =>
    intro n hc
    rw [Touch.lastEmitted?_append, Option.isSome_or]
    by_cases hold : (s.caches n).contains id (u.classOf suffix) = true
    · rw [hf.emitted n hold, Bool.or_true]
    · -- the pair is committed now, so the class is emitted
      obtain ⟨tokens, rfl, ht, hid⟩ := (h.contains_act hc).resolve_left hold
      rw [h.engine.mem_generatorsFor_classOf hg] at hid
      obtain ⟨value, hvalue⟩ := Option.isSome_iff_exists.1 hid
      rw [touches_commit hg hvalue ht (Bool.eq_false_iff.2 hold)]
      rfl

/-- **All acts.** The table's entry has the value of the last touch, and what is declared follows. -/
theorem follows_run {name : String} {mode : EmitMode} {acts : List Act}
    (hs : s = (new name mode).run acts)
    (hg : s.engine.generators[id]? = some (.utility u table slot))
    (ho : s.engine.Only id (u.classOf suffix))
    (ha : ∀ a ∈ acts, a.rootText? ≠ some (Text.trimmed (Css.classSelector (u.classOf suffix)))) :
    table.get? suffix = ((new name mode).history id suffix acts).getLast?.map Touch.value ∧
      s.Follows id u suffix ((new name mode).history id suffix acts) := by
  induction acts using List.reverseRecOn generalizing s table with
  | nil =>
    subst hs
    cases hg
  | append_singleton acts a ih =>
    have hbefore := sound_run name mode acts
    rw [run_concat] at hs
    subst hs
    rw [history_concat]
    cases hold : ((new name mode).run acts).engine.generators[id]? with
    | none =>
      -- the utility is registered by this act, and nothing has happened to its entries yet
      rw [history_of_none hold, touches_of_none hold, (hbefore.learns a).table_eq_empty hold hg]
      refine ⟨rfl, fun v hv => (nomatch hv), fun n hc => ?_⟩
      have hsome : ∃ g, ((new name mode).run acts).engine.generators[id]? = some g := by
        rcases hbefore.contains_act hc with hc | ⟨tokens, rfl, -, hid⟩
        · obtain ⟨g, hg, -⟩ := hbefore.known hc
          exact ⟨g, hg⟩
        · exact hbefore.engine.getElem?_of_mem_generatorsFor hid
      obtain ⟨g, hsome⟩ := hsome
      cases hold.symm.trans hsome
    | some g =>
      cases g with
      | recipe r slot' => cases ((hbefore.learns a).recipe hold).symm.trans hg
      | utility v table' slot' =>
        obtain ⟨table'', hg', htable⟩ := hbefore.table_act hold suffix a
        obtain ⟨rfl, rfl, rfl⟩ := Generator.utility.inj (Option.some.inj (hg'.symm.trans hg))
        obtain ⟨hvalue, hf⟩ := ih rfl hold (ho.of_learns (hbefore.learns a))
          fun b hb => ha b (List.mem_append_left _ hb)
        refine ⟨?_, hf.act hbefore hold ho (ha a (by simp))⟩
        rw [htable, hvalue, List.getLast?_append, Option.map_or]

/-- The main result. Immediately after a class of a utility was committed, its selector has all
declarations of the class, with the value with which the class was emitted last. That is the present
value of the table if the commit is the first one of the class by its compiler, and in any case unless
an on-demand use has set the entry since the class was emitted. -/
theorem committed_carries {name : String} {mode : EmitMode} {acts : List Act} {n : Nat}
    {tokens : List String} {value : Value} (hs : s = (new name mode).run acts)
    (hg : s.engine.generators[id]? = some (.utility u table slot))
    (hvalue : table.get? suffix = some value) (htoken : u.classOf suffix ∈ tokens)
    (hclasses : s.engine.Only id (u.classOf suffix))
    (hselectors : ∀ a ∈ acts,
      a.rootText? ≠ some (Text.trimmed (Css.classSelector (u.classOf suffix)))) :
    ∃ v container C,
      Touch.lastEmitted? ((new name mode).history id suffix (acts ++ [.commit n tokens])) = some v ∧
      (s.act (.commit n tokens)).engine.document.findSelector? Document.rootId
        (Css.classSelector (u.classOf suffix)) = some container ∧
      (s.act (.commit n tokens)).engine.document.get? container = some C ∧
      (∀ d ∈ (u.style suffix v).declarations, d ∈ C.block.declarations) ∧
      ((s.caches n).contains id (u.classOf suffix) = false → v = value) ∧
      ((∀ w, ((new name mode).history id suffix (acts ++ [.commit n tokens])).getLast? ≠
        some (.entered w)) → v = value) := by
  subst hs
  have hbefore := sound_run name mode acts
  have hid : id ∈ ((new name mode).run acts).engine.generatorsFor (u.classOf suffix) := by
    rw [hbefore.engine.mem_generatorsFor_classOf hg, hvalue]
    rfl
  have hgenerators : (((new name mode).run acts).act (.commit n tokens)).engine.generators =
      ((new name mode).run acts).engine.generators := by
    obtain ⟨k, hk, -, hact⟩ := hbefore.act_commit n tokens
    rw [hact, (Commit.tokens_grows hk).engine]
    rfl
  have hall : ∀ a ∈ acts ++ [.commit n tokens],
      a.rootText? ≠ some (Text.trimmed (Css.classSelector (u.classOf suffix))) := by
    intro a ha
    rcases List.mem_append.1 ha with ha | ha
    · exact hselectors a ha
    · rw [List.mem_singleton.1 ha]
      exact (Option.some_ne_none _).symm
  obtain ⟨hlast, hf⟩ := follows_run (run_concat (new name mode) acts (.commit n tokens)).symm
    (hgenerators ▸ hg) (hclasses.congr hgenerators) hall
  have hcached := (hbefore.contains_commit (n := n)).2 (.inl ⟨htoken, hid⟩)
  obtain ⟨v, hv⟩ := Option.isSome_iff_exists.1 (hf.emitted n hcached)
  have hafter := hbefore.act (.commit n tokens)
  obtain ⟨container, hfind⟩ := Option.isSome_iff_exists.1 (hafter.present hcached)
  obtain ⟨C, hget⟩ := Document.get?_of_contains (hafter.engine.document.contains_of_mem_below
    (hafter.engine.document.findSelector?_eq_some_iff.1 hfind).1)
  have hpresent : (∀ w, ((new name mode).history id suffix (acts ++ [.commit n tokens])).getLast? ≠
      some (.entered w)) → v = value := by
    intro hnot
    rw [hvalue, eq_comm, Option.map_eq_some_iff] at hlast
    obtain ⟨touch, htouch, hsame⟩ := hlast
    cases touch with
    | entered w => cases hnot w htouch
    | emitted w =>
      rw [Touch.lastEmitted?_of_getLast? htouch] at hv
      exact (Option.some.inj hv).symm.trans hsame
  refine ⟨v, container, C, hv, hfind, hget, ?_, ?_, hpresent⟩
  · intro d hd
    have hdeclared := hf.held v hv d hd
    rwa [Document.declared_eq, hfind, Option.bind_some, hget] at hdeclared
  · intro hnew
    apply hpresent
    intro w
    rw [history_concat, touches_commit hg hvalue htoken hnew, List.getLast?_concat]
    intro heq
    cases heq

/-- What happens to an engine that uses a margin, commits it, and uses it again in a mode. -/
def reused (mode : EmitMode) : List Act :=
  [.config (.addUtility (.ofProperty "m" "margin")),
    .config (.useUtility 0 (some (ValueTable.ofList [("sm", .literal "4px")]))),
    .commit 0 ["m:sm"], .config (.setMode mode),
    .config (.useUtility 0 (some (ValueTable.ofList [("sm", .literal "6px")])))]

theorem committed_carries_reused :
    let s := (new "app" .onDemand).run (reused .eager)
    let table := ValueTable.ofList [("sm", .literal "6px")]
    s.engine.generators[0]? = some (.utility (.ofProperty "m" "margin") table 0) ∧
    table.get? "sm" = some (.literal "6px") ∧
    (Utility.ofProperty "m" "margin").classOf "sm" ∈ ["m:sm"] ∧ s.engine.Only 0 "m:sm" ∧
    (∀ a ∈ reused .eager, a.rootText? ≠ some (Text.trimmed (Css.classSelector "m:sm"))) ∧
    ∃ container C, (s.act (.commit 0 ["m:sm"])).engine.document.findSelector? Document.rootId
        (Css.classSelector "m:sm") = some container ∧
      (s.act (.commit 0 ["m:sm"])).engine.document.get? container = some C ∧
      ⟨"margin", .literal "6px"⟩ ∈ C.block.declarations := by
  intro s table
  have hgenerators : s.engine.generators = [.utility (.ofProperty "m" "margin") table 0] := rfl
  have hg : s.engine.generators[0]? = some (.utility (.ofProperty "m" "margin") table 0) := by
    rw [hgenerators]
    rfl
  have hvalue : table.get? "sm" = some (.literal "6px") := by decide +kernel
  have hclass : (Utility.ofProperty "m" "margin").classOf "sm" = "m:sm" := rfl
  have htoken : (Utility.ofProperty "m" "margin").classOf "sm" ∈ ["m:sm"] :=
    List.mem_singleton.2 hclass
  have hclasses : s.engine.Only 0 "m:sm" := by
    intro i g c hi hc _
    rw [hgenerators] at hi
    obtain ⟨hlt, rfl⟩ := List.getElem?_eq_some_iff.1 hi
    obtain rfl : i = 0 := Nat.lt_one_iff.1 hlt
    have hnames : (Generator.utility (.ofProperty "m" "margin") table 0).classes.map (·.1) =
        ["m:sm"] := by decide +kernel
    exact ⟨rfl, List.mem_singleton.1 (hnames ▸ hc)⟩
  have hselectors : ∀ a ∈ reused .eager,
      a.rootText? ≠ some (Text.trimmed (Css.classSelector "m:sm")) := by
    simp [reused, Act.rootText?, Engine.ConfigStep.rootText?]
  obtain ⟨v, container, C, -, hfind, hget, hcarries, -, hpresent⟩ :=
    committed_carries rfl hg hvalue htoken hclasses hselectors
  refine ⟨hg, hvalue, htoken, hclasses, hselectors, container, C, hfind, hget, ?_⟩
  -- the second use emitted the class again
  have hlast : ((new "app" .onDemand).history 0 "sm"
      (reused .eager ++ [.commit 0 ["m:sm"]])).getLast? = some (.emitted (.literal "6px")) := rfl
  obtain rfl := hpresent fun w hw => by cases hw.symm.trans hlast
  exact hcarries _ (List.mem_singleton_self _)

/-- Immediately after a class was committed, its selector has a value for a property that is not the
table's, although no other generator and no selector of the config has its text. -/
def LeavesBehind (acts : List Act) (tokens : List String) (suffix property : String)
    (held current : Value) : Prop :=
  ∃ table slot,
    let s := (new "app" .onDemand).run acts
    let u := Utility.ofProperty "m" property
    s.engine.generators = [.utility u table slot] ∧ table.get? suffix = some current ∧
    u.classOf suffix ∈ tokens ∧
    (∀ a ∈ acts, a.rootText? ≠ some (Text.trimmed (Css.classSelector (u.classOf suffix)))) ∧
    held ≠ current ∧
    ((s.act (.commit 0 tokens)).engine.document.declared
      (Css.classSelector (u.classOf suffix))).get? property = some held

/-- Uses of a margin with two suffixes whose classes have the same text without the space around it. -/
def spaced : List Act :=
  [.config (.addUtility (.ofProperty "m" "margin")),
    .config (.useUtility 0 (some (ValueTable.ofList
      [("a", .literal "1px"), ("a\u00a0", .literal "2px")])))]

/-- **A committed class is left behind** if an on-demand use sets its entry, and one is overwritten by
another class of its utility that has the same text. -/
theorem left_behind :
    LeavesBehind (reused .onDemand) ["m:sm"] "sm" "margin" (.literal "4px") (.literal "6px") ∧
    LeavesBehind spaced ["m:a", "m:a\u00a0"] "a" "margin" (.literal "2px") (.literal "1px") := by
  refine ⟨⟨_, _, rfl, ?_, ?_, ?_, ?_, ?_⟩, ⟨_, _, rfl, ?_, ?_, ?_, ?_, ?_⟩⟩
  · decide +kernel
  · decide +kernel
  · simp [reused, Act.rootText?, Engine.ConfigStep.rootText?]
  · decide
  · decide +kernel
  · decide +kernel
  · decide +kernel
  · simp [spaced, Act.rootText?, Engine.ConfigStep.rootText?]
  · decide
  · decide +kernel

end Session

end AtomicCss
