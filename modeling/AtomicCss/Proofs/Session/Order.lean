import AtomicCss.Proofs.Document.Growth
import AtomicCss.Proofs.Session.Commit
import Mathlib.Data.Set.Lattice

/-! # The order of tokens

The pairs that a session has committed say what its cache holds and which classes were emitted
(`Committed`). So tokens lead to the same sheet in whatever order, batches and repetitions they
come (`sheet_commits_eq`). -/

namespace AtomicCss

namespace Engine

variable {e : Engine} {x y : Emission} {id : GeneratorId} {token : String}

/-! ## Engines whose classes differ in their selectors -/

/-- No two classes of the registered generators have the same selector. -/
def DistinctClasses (e : Engine) : Prop :=
  ((e.generators.flatMap Generator.classes).map
    fun c => Text.trimmed (Css.classSelector c.1)).Nodup

/-- The classes of all generators with their places. -/
def emissions (e : Engine) : Set Emission := {x | ∃ g ∈ e.generators, x ∈ g.emissions}

/-- What some pairs of a generator and a token ask for. -/
def askedBy (e : Engine) (pairs : Set (GeneratorId × String)) : Set Emission :=
  {x | ∃ p ∈ pairs, ∃ g, e.generators[p.1]? = some g ∧ x ∈ g.asked p.2}

/-- The pairs that a token leads to. -/
def pairsOf (e : Engine) (token : String) : Set (GeneratorId × String) :=
  {p | p.2 = token ∧ p.1 ∈ e.generatorsFor token}

theorem askedBy_subset (pairs : Set (GeneratorId × String)) : e.askedBy pairs ⊆ e.emissions := by
  rintro x ⟨p, -, g, hg, hx⟩
  exact ⟨g, List.mem_of_getElem? hg, Generator.asked_subset hx⟩

theorem map_text_listFrom (slot ordinal : Nat) (cs : List (String × Block)) :
    (Emission.listFrom slot ordinal cs).map Emission.text =
      cs.map fun c => Text.trimmed (Css.classSelector c.1) := by
  conv_rhs => rw [← Emission.map_listFrom slot ordinal cs, List.map_map]
  rfl

theorem map_text_flatMap_emissions (gs : List Generator) :
    (gs.flatMap Generator.emissions).map Emission.text =
      (gs.flatMap Generator.classes).map fun c => Text.trimmed (Css.classSelector c.1) := by
  rw [List.map_flatMap, List.map_flatMap]
  apply List.flatMap_congr
  intro g _
  exact map_text_listFrom g.slot 0 g.classes

/-- No two classes of a sound engine share a place. -/
theorem Sound.eq_of_place (h : e.Sound) (hx : x ∈ e.emissions) (hy : y ∈ e.emissions)
    (hs : x.slot = y.slot) (ho : x.ordinal = y.ordinal) : x = y := by
  obtain ⟨g, hg, hx⟩ := hx
  obtain ⟨g', hg', hy⟩ := hy
  obtain ⟨hxs, hxc⟩ := Generator.mem_emissions.1 hx
  obtain ⟨hys, hyc⟩ := Generator.mem_emissions.1 hy
  obtain rfl := h.eq_of_slot_eq hg hg' (hxs.symm.trans (hs.trans hys))
  rw [ho, hyc, Option.some.injEq, Prod.mk.injEq] at hxc
  cases x
  cases y
  simp only [Emission.mk.injEq] at *
  exact ⟨hs, ho, hxc.1.symm, hxc.2.symm⟩

theorem DistinctClasses.eq_of_text (hd : e.DistinctClasses) (hx : x ∈ e.emissions)
    (hy : y ∈ e.emissions) (ht : x.text = y.text) : x = y := by
  obtain ⟨g, hg, hx⟩ := hx
  obtain ⟨g', hg', hy⟩ := hy
  rw [DistinctClasses, ← map_text_flatMap_emissions] at hd
  apply List.inj_on_of_nodup_map hd _ _ ht
  · exact List.mem_flatMap.2 ⟨g, hg, hx⟩
  · exact List.mem_flatMap.2 ⟨g', hg', hy⟩

/-- A sound engine is prepared for all of its classes, if these differ in their selectors. -/
theorem Sound.prepared_of_texts (h : e.Sound)
    (ht : ∀ x ∈ e.emissions, ∀ y ∈ e.emissions, x.text = y.text → x = y) :
    e.document.Prepared e.emissions where
  wellFormed := h.document
  admits := by
    rintro x ⟨g, hg, hx⟩
    exact h.admits hg hx
  texts := ht
  places x hx y hy := h.eq_of_place hx hy

theorem Sound.prepared (h : e.Sound) (hd : e.DistinctClasses) :
    e.document.Prepared e.emissions :=
  h.prepared_of_texts fun _ hx _ hy => hd.eq_of_text hx hy

theorem askedBy_union_singleton {g : Generator} (hg : e.generators[id]? = some g)
    (Q : Set (GeneratorId × String)) :
    e.askedBy (Q ∪ {(id, token)}) = e.askedBy Q ∪ {x | x ∈ g.asked token} := by
  ext x
  constructor
  · rintro ⟨p, hp | rfl, g', hg', hx⟩
    · left
      exact ⟨p, hp, g', hg', hx⟩
    · right
      obtain rfl := Option.some.inj (hg.symm.trans hg')
      exact hx
  · rintro (⟨p, hp, hx⟩ | hx)
    · exact ⟨p, .inl hp, hx⟩
    · exact ⟨(id, token), .inr rfl, g, hg, hx⟩

end Engine

/-! ## What was committed -/

/-- The commit `k` is what committing the given pairs makes of an engine. -/
structure Committed (e : Engine) (pairs : Set (GeneratorId × String)) (k : Commit) : Prop where
  engine : k.engine = { e with document := k.engine.document }
  grown : e.document.Grown (e.askedBy pairs) k.engine.document
  cached : ∀ {id token}, k.cache.contains id token = true ↔ (id, token) ∈ pairs

/-- A fold in which every member adds its part to a growing set. -/
theorem foldlM_union {α β γ ε : Type} {f : β → α → Except ε β} {I : Set γ → β → Prop}
    {part : α → Set γ} {l : List α}
    (step : ∀ Q b, ∀ a ∈ l, I Q b → ∃ b', f b a = .ok b' ∧ I (Q ∪ part a) b') {Q : Set γ} {b : β}
    (h : I Q b) : ∃ b', l.foldlM f b = .ok b' ∧ I (Q ∪ ⋃ a ∈ l, part a) b' := by
  induction l generalizing Q b with
  | nil => exact ⟨b, rfl, by simpa using h⟩
  | cons a l ih =>
    obtain ⟨b₁, hb₁, h₁⟩ := step Q b a List.mem_cons_self h
    have hrest : ∀ Q b, ∀ x ∈ l, I Q b → ∃ b', f b x = .ok b' ∧ I (Q ∪ part x) b' := by
      intro Q b x hx
      exact step Q b x (List.mem_cons_of_mem _ hx)
    obtain ⟨b₂, hb₂, h₂⟩ := ih hrest h₁
    have hunion : Q ∪ ⋃ x ∈ a :: l, part x = Q ∪ part a ∪ ⋃ x ∈ l, part x := by
      ext
      simp [or_assoc]
    refine ⟨b₂, ?_, ?_⟩
    · rw [List.foldlM_cons, hb₁]
      exact hb₂
    · rw [hunion]
      exact h₂

namespace Committed

variable {e : Engine} {k : Commit} {Q : Set (GeneratorId × String)} {id : GeneratorId}

theorem start (h : e.Sound) (hd : e.DistinctClasses) : Committed e ∅ (.start e ∅) where
  engine := rfl
  grown := by
    rw [show e.askedBy ∅ = ∅ by ext; simp [Engine.askedBy]]
    exact (h.prepared hd).grown
  cached := by simp [Commit.start, SessionCache.contains_empty]

/-- What is reported does not matter. -/
theorem congr {k' : Commit} (h : Committed e Q k) (he : k'.engine = k.engine)
    (hc : k'.cache = k.cache) : Committed e Q k' where
  engine := by rw [he, h.engine]
  grown := by
    rw [he]
    exact h.grown
  cached := by
    rw [hc]
    exact h.cached

/-- A pair is committed, if it was not committed before. -/
theorem pair (he : e.Sound) (hd : e.DistinctClasses) (h : Committed e Q k) {g : Generator}
    (hg : e.generators[id]? = some g) (token : String) :
    ∃ k', k.pair token id = .ok k' ∧ Committed e (Q ∪ {(id, token)}) k' := by
  by_cases hc : k.cache.contains id token = true
  · rw [Set.union_eq_self_of_subset_right (by simpa using h.cached.1 hc)]
    exact ⟨_, if_pos hc, h.congr rfl rfl⟩
  · have hasked : ∀ x ∈ g.asked token, x ∈ e.emissions := by
      intro x hx
      exact ⟨g, List.mem_of_getElem? hg, Generator.asked_subset hx⟩
    obtain ⟨ha, hgrown⟩ :=
      h.grown.absorbAll (he.prepared hd) (Engine.askedBy_subset Q) hasked
    have hg' : k.engine.generators[id]? = some g := by rw [h.engine, hg]
    have hids := Engine.generate_eq_emitAll hg' token ha
    refine ⟨_, Commit.pair_eq hc hids, ?engine, ?grown, ?cached⟩
    case engine =>
      exact congrArg (fun e' : Engine =>
        { e' with document := k.engine.document.absorbAll (g.asked token) }) h.engine
    case grown =>
      rw [Engine.askedBy_union_singleton hg]
      exact hgrown
    case cached =>
      intro id' token'
      show (k.cache.insert id token _).contains id' token' = true ↔ _
      rw [SessionCache.contains_insert, h.cached, Set.mem_union, Set.mem_singleton_iff, or_comm]

theorem token (he : e.Sound) (hd : e.DistinctClasses) (h : Committed e Q k) (t : String) :
    ∃ k', k.token t = .ok k' ∧ Committed e (Q ∪ e.pairsOf t) k' := by
  have hgen : k.engine.generatorsFor t = e.generatorsFor t := by
    rw [h.engine]
    rfl
  have hparts : (⋃ id ∈ e.generatorsFor t, ({(id, t)} : Set (GeneratorId × String))) =
      e.pairsOf t := by
    ext ⟨id, t'⟩
    simp [Engine.pairsOf]
    grind
  unfold Commit.token
  rw [hgen, ← hparts]
  refine foldlM_union (I := Committed e) ?_ (h.congr rfl rfl)
  intro Q k id hid hk
  obtain ⟨g, hg⟩ := he.getElem?_of_mem_generatorsFor hid
  exact pair he hd hk hg t

theorem tokens (he : e.Sound) (hd : e.DistinctClasses) (h : Committed e Q k) (ts : List String) :
    ∃ k', k.tokens ts = .ok k' ∧ Committed e (Q ∪ ⋃ t ∈ ts, e.pairsOf t) k' := by
  refine foldlM_union (I := Committed e) ?_ h
  intro Q k t _ hk
  exact token he hd hk t

/-- **The sheet depends on the committed pairs alone.** -/
theorem sheet_eq (he : e.Sound) {k' : Commit} (h : Committed e Q k) (h' : Committed e Q k')
    (layout : Layout) : k.engine.sheet layout = k'.engine.sheet layout := by
  rw [h.engine, h'.engine]
  exact h.grown.sheet_eq he.document h'.grown he.scopes e.name layout

end Committed

namespace Engine

variable {e : Engine}

/-- Commits batches of tokens, one after the other, in a new session. -/
def commits (e : Engine) (batches : List (List String)) : Except Error Commit :=
  batches.foldlM (fun k ts => (Commit.start k.engine k.cache).tokens ts) (.start e ∅)

theorem Sound.commits (h : e.Sound) (hd : e.DistinctClasses) (batches : List (List String)) :
    ∃ k, e.commits batches = .ok k ∧ Committed e (⋃ t ∈ batches.flatten, e.pairsOf t) k := by
  have hsplit : (⋃ t ∈ batches.flatten, e.pairsOf t) =
      ∅ ∪ ⋃ ts ∈ batches, ⋃ t ∈ ts, e.pairsOf t := by
    ext
    simp
  rw [hsplit]
  refine foldlM_union (I := Committed e) ?_ (Committed.start h hd)
  intro Q k ts _ hk
  exact Committed.tokens h hd (k := .start k.engine k.cache) (hk.congr rfl rfl) ts

/-- **The order of discovery never shows.** However the tokens come, in a config whose classes
differ in their selectors, the commits succeed and the sheet is the same, or fails alike. -/
theorem sheet_commits_eq (h : e.Reached) (hd : e.DistinctClasses)
    {batches batches' : List (List String)}
    (hsame : ∀ t, t ∈ batches.flatten ↔ t ∈ batches'.flatten) :
    ∃ k k', e.commits batches = .ok k ∧ e.commits batches' = .ok k' ∧
      ∀ layout, k.engine.sheet layout = k'.engine.sheet layout := by
  obtain ⟨k, hk, hc⟩ := h.sound.commits hd batches
  obtain ⟨k', hk', hc'⟩ := h.sound.commits hd batches'
  have hpairs : (⋃ t ∈ batches.flatten, e.pairsOf t) = ⋃ t ∈ batches'.flatten, e.pairsOf t := by
    simp only [hsame]
  rw [hpairs] at hc
  exact ⟨k, k', hk, hk', hc.sheet_eq h.sound hc'⟩

/-- A config with margins of two sizes, which also styles the class of one of them itself. -/
def margins : Engine :=
  (new "app" .onDemand).run [.addUtility (.ofProperty "m" "margin"),
    .selector Document.rootId ".m\\:sm" (Block.ofList [("padding", .literal "1px")]),
    .useUtility 0 (some (ValueTable.ofList [("sm", .literal "4px"), ("lg", .literal "16px")]))]

theorem distinctClasses_margins : margins.DistinctClasses := by
  unfold DistinctClasses
  decide +kernel

theorem sheet_commits_eq_margins : ∃ k k',
    margins.commits [["m:sm", "m:lg"]] = .ok k ∧
    margins.commits [["m:lg"], ["m:sm", "m:lg"]] = .ok k' ∧
    ∀ layout, k.engine.sheet layout = k'.engine.sheet layout :=
  sheet_commits_eq ⟨_, _, _, rfl⟩ distinctClasses_margins (by simp [or_comm])

end Engine

end AtomicCss
