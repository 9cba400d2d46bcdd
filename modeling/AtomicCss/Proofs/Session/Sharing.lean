import AtomicCss.Proofs.Document.Alike
import AtomicCss.Proofs.Document.Settling
import AtomicCss.Proofs.Keyed
import AtomicCss.Proofs.Session.Extension
import AtomicCss.Proofs.Session.Order
import Mathlib

/-! # Classes of several generators

Where generators share a class, the order in which tokens are committed may show. A commit emits the
classes of the tokens in the order in which these came first (`Emitted.tokens`), and classes with the
same text settle their selector in that order (`Emitted.standing_eq`). So the order never shows among
some tokens if it does not show among any two of them, and only then (`Reached.orderFree_iff`); and it
does show for a recipe whose option is the base of another recipe (`not_orderFree_family`). -/

namespace AtomicCss

/-! ## What tokens ask for -/

namespace Engine

variable {e : Engine} {t : String}

/-- The pairs that a token leads to, in the order in which they are committed. -/
def pairsFor (e : Engine) (token : String) : List (GeneratorId × String) :=
  (e.generatorsFor token).map (·, token)

/-- The classes that a pair asks for. -/
def askedFor (e : Engine) (p : GeneratorId × String) : List Emission :=
  (e.generators[p.1]?).elim [] (·.asked p.2)

/-- The classes that a token asks for, generator by generator. -/
def asks (e : Engine) (token : String) : List Emission :=
  (e.pairsFor token).eraseDups.flatMap e.askedFor

/-- The classes with a text that a token asks for. -/
def sharing (e : Engine) (text token : String) : List Emission :=
  (e.asks token).filter (·.text = Text.trimmed text)

theorem eraseDups_flatMap_pairsFor (ts : List String) :
    (ts.flatMap e.pairsFor).eraseDups.flatMap e.askedFor = ts.eraseDups.flatMap e.asks := by
  rw [eraseDups_flatMap (f := e.pairsFor), List.flatMap_assoc]
  · rfl
  · rintro t t' ⟨id, u⟩ hu hu'
    obtain ⟨_, -, hu⟩ := List.mem_map.1 hu
    obtain ⟨_, -, hu'⟩ := List.mem_map.1 hu'
    exact (Prod.mk.inj hu).2.trans (Prod.mk.inj hu').2.symm

end Engine

/-! ## What a commit emits -/

/-- The commit `k` is what committing some pairs in turn makes of an engine. -/
structure Emitted (e : Engine) (pairs : List (GeneratorId × String)) (k : Commit) : Prop where
  engine : k.engine =
    { e with document := e.document.absorbAll (pairs.eraseDups.flatMap e.askedFor) }
  admits : e.document.AdmitsAll (pairs.eraseDups.flatMap e.askedFor)
  sound : k.engine.Sound
  cached : ∀ {id t}, k.cache.contains id t = true ↔ (id, t) ∈ pairs

namespace Emitted

variable {e : Engine} {k k' : Commit} {pairs : List (GeneratorId × String)} {id : GeneratorId}
  {t text : String} {ts : List String} {batches : List (List String)}

theorem start (h : e.Sound) : Emitted e [] (.start e ∅) where
  engine := rfl
  admits := trivial
  sound := h
  cached := by simp [Commit.start, SessionCache.contains_empty]

/-- What is reported does not matter. -/
theorem report (h : Emitted e pairs k) (report : CommitReport) :
    Emitted e pairs { k with report := report } :=
  ⟨h.engine, h.admits, h.sound, h.cached⟩

/-- **One pair.** It emits its classes, if it was not committed before. -/
theorem pair (h : Emitted e pairs k) (hk : k.pair t id = .ok k') :
    Emitted e (pairs ++ [(id, t)]) k' := by
  have hcached {id' : GeneratorId} {t' : String} :
      k'.cache.contains id' t' = true ↔ (id', t') ∈ pairs ++ [(id, t)] := by
    rw [(Commit.pair_ok hk).2, h.cached, List.mem_append, List.mem_singleton, or_comm]
  have hpairs := eraseDups_concat pairs (id, t)
  rcases Commit.pair_cases h.sound hk with
    ⟨he, hc⟩ | ⟨g, hg, hadmits, hnew, hsound, hdocument, -⟩
  · have hmem : (id, t) ∈ pairs := by
      rw [← h.cached, ← hc, (Commit.pair_ok hk).2]
      exact .inl rfl
    rw [if_pos hmem] at hpairs
    refine ⟨?_, ?_, he ▸ h.sound, hcached⟩
    · rw [hpairs, he, h.engine]
    · rw [hpairs]
      exact h.admits
  · have hmem : (id, t) ∉ pairs := by
      rw [← h.cached, hnew]
      exact Bool.false_ne_true
    have hasked : e.askedFor (id, t) = g.asked t := by
      rw [h.engine] at hg
      rw [Engine.askedFor, show e.generators[id]? = some g from hg]
      rfl
    have hbefore : k.engine.document =
        e.document.absorbAll (pairs.eraseDups.flatMap e.askedFor) := by rw [h.engine]
    rw [if_neg hmem] at hpairs
    have hclasses : (pairs ++ [(id, t)]).eraseDups.flatMap e.askedFor =
        pairs.eraseDups.flatMap e.askedFor ++ g.asked t := by
      rw [hpairs, List.flatMap_append, List.flatMap_singleton, hasked]
    refine ⟨?_, ?_, hsound, hcached⟩
    · rw [(Commit.pair_ok hk).1.engine, hdocument, hbefore, hclasses, Document.absorbAll_append,
        h.engine]
    · rw [hclasses]
      exact Document.admitsAll_append h.admits (hbefore ▸ hadmits)

theorem token (h : Emitted e pairs k) (hk : k.token t = .ok k') :
    Emitted e (pairs ++ e.pairsFor t) k' := by
  have hgenerators : k.engine.generatorsFor t = e.generatorsFor t := by
    rw [h.engine]
    rfl
  rw [Commit.token, hgenerators] at hk
  rw [Engine.pairsFor, List.map_eq_flatMap]
  exact foldlM_flatMap pair (h.report _) hk

/-- **Many tokens** emit the classes of all pairs, each pair at its first occurrence. -/
theorem tokens (h : Emitted e pairs k) (hk : k.tokens ts = .ok k') :
    Emitted e (pairs ++ ts.flatMap e.pairsFor) k' :=
  foldlM_flatMap token h hk

theorem commits (h : e.Sound) (hk : e.commits batches = .ok k) :
    Emitted e (batches.flatten.flatMap e.pairsFor) k := by
  have hparts : batches.flatten.flatMap e.pairsFor =
      [] ++ batches.flatMap fun ts => ts.flatMap e.pairsFor := by
    rw [List.flatten_eq_flatMap, List.flatMap_assoc]
    rfl
  rw [hparts]
  refine foldlM_flatMap (I := Emitted e) ?_ (start h) hk
  intro done k ts k' hdone hk'
  exact (hdone.report .empty).tokens hk'

/-- **Classes with the same text settle their selector** in the order in which the tokens came. -/
theorem standing_eq (h : Emitted e (ts.flatMap e.pairsFor) k) (text : String) :
    k.engine.document.standing text =
      Standing.settle (e.document.standing text) (ts.eraseDups.flatMap (e.sharing text)) := by
  have hadmits := h.admits
  rw [h.engine]
  rw [Engine.eraseDups_flatMap_pairsFor] at hadmits ⊢
  rw [hadmits.standing_absorbAll, List.filter_flatMap]
  rfl

/-- The sheet tells the order of the tokens only where a selector stands differently. -/
theorem sheet_eq (he : e.Sound) {pairs' : List (GeneratorId × String)} (h : Emitted e pairs k)
    (h' : Emitted e pairs' k')
    (halike : ∀ text, k.engine.document.standing text = k'.engine.document.standing text)
    (layout : Layout) : k.engine.sheet layout = k'.engine.sheet layout := by
  have hsprouted := Document.Sprouted.absorbAll he.document (.refl he.document) h.admits
  have hsprouted' := Document.Sprouted.absorbAll he.document (.refl he.document) h'.admits
  rw [h.engine, h'.engine] at halike ⊢
  exact hsprouted.sheet_eq he.document hsprouted' halike he.scopes e.name layout

end Emitted

/-! ## When the order shows -/

namespace Engine

variable {e : Engine} {t u : String} {ts : List String}

theorem Sound.commits_ok (h : e.Sound) (batches : List (List String)) :
    ∃ k, e.commits batches = .ok k := by
  obtain ⟨k, hk, -⟩ := foldlM_ok (l := batches) (I := fun k : Commit => k.engine.Sound)
    (f := fun k ts => (Commit.start k.engine k.cache).tokens ts)
    (fun k ts _ hk => Sound.tokens_ok (k := .start k.engine k.cache) hk ts) (b := .start e ∅) h
  exact ⟨k, hk⟩

/-- In whatever order the tokens come, in batches and with repetitions, the selectors of the root stand
at the same places with the same declarations, and the sheet is the same. -/
def OrderFree (e : Engine) (ts : List String) : Prop :=
  ∀ batches batches' : List (List String), (∀ t, t ∈ batches.flatten ↔ t ∈ ts) →
    (∀ t, t ∈ batches'.flatten ↔ t ∈ ts) → ∃ k k',
      e.commits batches = .ok k ∧ e.commits batches' = .ok k' ∧
      (∀ text, k.engine.document.standing text = k'.engine.document.standing text) ∧
      ∀ layout, k.engine.sheet layout = k'.engine.sheet layout

theorem OrderFree.settle_eq (he : e.Sound) (h : e.OrderFree ts) {us us' : List String}
    (hus : us.Nodup) (hus' : us'.Nodup) (hmem : ∀ t, t ∈ us ↔ t ∈ ts) (hmem' : ∀ t, t ∈ us' ↔ t ∈ ts)
    (text : String) :
    Standing.settle (e.document.standing text) (us.flatMap (e.sharing text)) =
      Standing.settle (e.document.standing text) (us'.flatMap (e.sharing text)) := by
  obtain ⟨k, k', hk, hk', halike, -⟩ := h [us] [us'] (by simpa using hmem) (by simpa using hmem')
  have hst := (Emitted.commits he hk).standing_eq text
  have hst' := (Emitted.commits he hk').standing_eq text
  rw [List.flatten_singleton, eraseDups_of_nodup hus] at hst
  rw [List.flatten_singleton, eraseDups_of_nodup hus'] at hst'
  rw [← hst, ← hst', halike]

/-- The order never shows if and only if any two tokens may change places. -/
theorem Sound.orderFree_iff_comm (h : e.Sound) : e.OrderFree ts ↔ ∀ t ∈ ts, ∀ u ∈ ts, ∀ text,
    Standing.Comm (e.document.standing text) (e.sharing text t) (e.sharing text u) := by
  constructor
  · intro hfree t ht u hu text
    by_cases htu : t = u
    · rw [htu]
      rfl
    · -- the two tokens in front of the others, and behind them
      let rest := ts.eraseDups.filter fun x => x ≠ t ∧ x ≠ u
      have hrest (x : String) : x ∈ rest ↔ x ∈ ts ∧ x ≠ t ∧ x ≠ u := by
        simp [rest, List.mem_eraseDups]
      have hnodup : rest.Nodup := (nodup_eraseDups ts).filter _
      have hmem (x : String) : x = t ∨ x = u ∨ x ∈ rest ↔ x ∈ ts := by
        rw [hrest]
        constructor
        · rintro (rfl | rfl | ⟨hx, -⟩) <;> assumption
        · tauto
      have hfront : ([t, u] ++ rest).Nodup ∧ ([u, t] ++ rest).Nodup := by
        simp [hnodup, htu, Ne.symm htu, hrest]
      have hbehind : (rest ++ [t, u]).Nodup ∧ (rest ++ [u, t]).Nodup := by
        simp [List.nodup_append, hnodup, htu, Ne.symm htu, hrest]
        tauto
      have hsettled := hfree.settle_eq h hfront.1 hfront.2 (by simpa using hmem)
        (by intro x; rw [← hmem x]; simp; tauto) text
      have hsettled' := hfree.settle_eq h hbehind.1 hbehind.2
        (by intro x; rw [← hmem x]; simp; tauto) (by intro x; rw [← hmem x]; simp; tauto) text
      simp only [List.flatMap_append, List.flatMap_cons, List.flatMap_nil,
        List.append_nil] at hsettled hsettled'
      refine Standing.comm_of_rest hsettled ?_
      rw [Standing.Comm, ← Standing.settle_append, ← Standing.settle_append]
      exact hsettled'
  · intro hcomm batches batches' hmem hmem'
    obtain ⟨k, hk⟩ := h.commits_ok batches
    obtain ⟨k', hk'⟩ := h.commits_ok batches'
    have hemitted := Emitted.commits h hk
    have hemitted' := Emitted.commits h hk'
    have halike (text : String) :
        k.engine.document.standing text = k'.engine.document.standing text := by
      rw [hemitted.standing_eq, hemitted'.standing_eq]
      apply Standing.settle_flatMap_perm
      · rw [List.perm_ext_iff_of_nodup (nodup_eraseDups _) (nodup_eraseDups _)]
        intro t
        rw [List.mem_eraseDups, List.mem_eraseDups, hmem, hmem']
      · intro t ht u hu
        rw [List.mem_eraseDups, hmem] at ht hu
        exact hcomm t ht u hu text
    exact ⟨k, k', hk, hk', halike, hemitted.sheet_eq h hemitted' halike⟩

theorem Sound.orderFree_pair_iff (h : e.Sound) : e.OrderFree [t, u] ↔ ∀ text,
    Standing.Comm (e.document.standing text) (e.sharing text t) (e.sharing text u) := by
  rw [h.orderFree_iff_comm]
  constructor
  · intro hcomm
    exact hcomm t (by simp) u (by simp)
  · intro hcomm a ha b hb text
    simp only [List.mem_cons, List.not_mem_nil, or_false] at ha hb
    rcases ha with rfl | rfl <;> rcases hb with rfl | rfl
    · rfl
    · exact hcomm text
    · exact (hcomm text).symm
    · rfl

/-- **The order in which tokens are discovered shows only between two of them.** Classes with the same
text settle their selector in the order of the tokens; so, among some tokens, the order never shows if
and only if it shows for no two of them, which is so if either order settles every selector alike, and
in particular if the two share no classes but the same ones. -/
theorem Reached.orderFree_iff (h : e.Reached) (ts : List String) :
    (∀ batches, ∃ k, e.commits batches = .ok k ∧ ∀ text, k.engine.document.standing text =
      Standing.settle (e.document.standing text)
        (batches.flatten.eraseDups.flatMap (e.sharing text))) ∧
    (e.OrderFree ts ↔ ∀ t ∈ ts, ∀ u ∈ ts, e.OrderFree [t, u]) ∧
    (∀ t u, e.OrderFree [t, u] ↔ ∀ text,
      Standing.settle (e.document.standing text) (e.sharing text t ++ e.sharing text u) =
        Standing.settle (e.document.standing text) (e.sharing text u ++ e.sharing text t)) ∧
    ∀ t u, (∀ x ∈ e.asks t, ∀ y ∈ e.asks u, x.text = y.text → x = y) → e.OrderFree [t, u] := by
  have hs := h.sound
  refine ⟨?settled, ?pairwise, fun t u => hs.orderFree_pair_iff, ?same⟩
  case settled =>
    intro batches
    obtain ⟨k, hk⟩ := hs.commits_ok batches
    exact ⟨k, hk, (Emitted.commits hs hk).standing_eq⟩
  case pairwise =>
    rw [hs.orderFree_iff_comm]
    simp only [hs.orderFree_pair_iff]
  case same =>
    intro t u hsame
    rw [hs.orderFree_pair_iff]
    intro text
    apply Standing.comm_of_eq
    intro x hx y hy
    obtain ⟨hx, hxt⟩ := List.mem_filter.1 hx
    obtain ⟨hy, hyt⟩ := List.mem_filter.1 hy
    exact hsame x hx y hy ((of_decide_eq_true hxt).trans (of_decide_eq_true hyt).symm)

/-- A config with a button and a tag, of which an option is the base of another recipe. -/
def family : Engine :=
  (new "app" .onDemand).run [.addRecipe ⟨"btn", Block.ofList [("gap", .literal "2px")], [], [], []⟩,
    .addRecipe ⟨"tag", ∅, [⟨"s", [("l", Block.ofList [("color", .literal "red")])]⟩], [], []⟩,
    .addRecipe ⟨"tag--s-l", Block.ofList [("color", .literal "blue")], [], [], []⟩]

/-- The document in which the option has a color. -/
def tagged (color : String) (warnings : List Warning) : Document :=
  ⟨[⟨.root, ∅, [.slot 0, .slot 1, .slot 2]⟩, ⟨.selector ".tag", ∅, []⟩,
      ⟨.selector ".tag--s-l", Block.ofList [("color", .literal color)], []⟩],
    [.vacant 1, ((Slot.vacant 1).insert 0 2).insert 1 3, .vacant 1],
    [((1, ".tag--s-l"), 3), ((1, ".tag"), 2)], warnings⟩

theorem sheet_of_tagged {batches : List (List String)} {k : Commit} (color : String)
    (warnings : List Warning) (hk : family.commits batches = .ok k)
    (h : (family.commits batches).toOption.map (fun k => (k.engine.document, k.engine.vars)) =
      some (tagged color warnings, ∅)) (config : String) (layout : Layout) :
    k.engine.document.sheet k.engine.vars config layout =
      (tagged color warnings).sheet ∅ config layout := by
  rw [hk] at h
  obtain ⟨hd, hv⟩ := Prod.mk.inj (Option.some.inj h)
  rw [hd, hv]

/-- **Two orders of the same tokens lead to two sheets.** After the token of the option, the recipe
behind it wins; the token of the tag emits the option once more. -/
theorem sheets_family : ∃ k k', family.commits [["tag", "tag--s-l"]] = .ok k ∧
    family.commits [["tag--s-l"], ["tag"]] = .ok k' ∧
    k.engine.sheet .standard = .ok ".tag--s-l \x7b color: blue; \x7d\n" ∧
    k'.engine.sheet .standard = .ok ".tag--s-l \x7b color: red; \x7d\n" := by
  have hsound : family.Sound := Reached.sound ⟨_, _, _, rfl⟩
  obtain ⟨k, hk⟩ := hsound.commits_ok [["tag", "tag--s-l"]]
  obtain ⟨k', hk'⟩ := hsound.commits_ok [["tag--s-l"], ["tag"]]
  refine ⟨k, k', hk, hk', ?_, ?_⟩
  · have hblue := sheet_of_tagged "blue" [.redeclared ".tag--s-l" "color"] hk (by decide +kernel)
    exact (hblue _ _).trans (by cbv)
  · have hred := sheet_of_tagged "red"
      [.redeclared ".tag--s-l" "color", .redeclared ".tag--s-l" "color"] hk' (by decide +kernel)
    exact (hred _ _).trans (by cbv)

theorem not_orderFree_family : ¬ family.OrderFree ["btn", "tag", "tag--s-l"] ∧
    family.OrderFree ["btn", "tag"] := by
  obtain ⟨-, hpairwise, -, hsame⟩ :=
    Reached.orderFree_iff (e := family) ⟨_, _, _, rfl⟩ ["btn", "tag", "tag--s-l"]
  constructor
  · rw [hpairwise]
    intro hfree
    obtain ⟨k, k', hk, hk', -, hsheet⟩ := hfree "tag" (by simp) "tag--s-l" (by simp)
      [["tag", "tag--s-l"]] [["tag--s-l"], ["tag"]] (by simp) (by simp [or_comm])
    obtain ⟨k₁, k₁', hk₁, hk₁', hblue, hred⟩ := sheets_family
    obtain rfl := Except.ok.inj (hk.symm.trans hk₁)
    obtain rfl := Except.ok.inj (hk'.symm.trans hk₁')
    rw [hsheet, hred] at hblue
    exact absurd (Except.ok.inj hblue) (by decide)
  · apply hsame "btn" "tag"
    have htexts : ∀ text ∈ (family.asks "btn").map Emission.text,
        text ∉ (family.asks "tag").map Emission.text := by
      decide +kernel
    intro x hx y hy ht
    exact absurd (List.mem_map_of_mem hy) (ht ▸ htexts _ (List.mem_map_of_mem hx))

end Engine

end AtomicCss
