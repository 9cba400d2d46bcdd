import AtomicCss.Session
import AtomicCss.Proofs.Engine.Config

/-! # Committing tokens

A session commits pairs of a generator and a token, each at most once. A commit changes nothing of
an engine but its document, and it changes neither engine nor cache if it generates nothing
(`Grows`). In a sound engine it never fails (`Sound.tokens_ok`). -/

namespace AtomicCss

/-! ## The cache -/

namespace SessionCache

variable {c : SessionCache} {generator id : GeneratorId} {token t : String}

theorem place_perm (x : CacheEntry) (xs : List CacheEntry) : (place x xs).Perm (x :: xs) := by
  induction xs with
  | nil => exact .refl _
  | cons y ys ih =>
    unfold place
    split
    · exact .refl _
    · exact (ih.cons y).trans (.swap _ _ _)

theorem contains_iff : c.contains generator token = true ↔
    ∃ x ∈ c.entries, x.generator = generator ∧ x.token = token := by
  rw [contains, get?, Option.isSome_map, List.find?_isSome]
  simp

theorem contains_empty : (∅ : SessionCache).contains generator token = false := rfl

theorem contains_insert (containers : List ContainerId) :
    (c.insert id t containers).contains generator token = true ↔
      (generator, token) = (id, t) ∨ c.contains generator token = true := by
  rw [contains_iff, contains_iff, insert]
  simp only [(place_perm _ _).mem_iff, List.mem_cons]
  constructor
  · rintro ⟨x, rfl | hx, rfl, rfl⟩
    · left
      rfl
    · right
      exact ⟨x, hx, rfl, rfl⟩
  · rintro (heq | ⟨x, hx, hg, ht⟩)
    · obtain ⟨rfl, rfl⟩ := Prod.mk.inj heq
      exact ⟨_, .inl rfl, rfl, rfl⟩
    · exact ⟨x, .inr hx, hg, ht⟩

end SessionCache

/-! ## Folds that may fail -/

section Folds

variable {α β ε : Type} {f : β → α → Except ε β} {l : List α} {b b' : β}

/-- A fold of steps that keep to an invariant succeeds. -/
theorem foldlM_ok {I : β → Prop} (step : ∀ b, ∀ a ∈ l, I b → ∃ b', f b a = .ok b' ∧ I b')
    (h : I b) : ∃ b', l.foldlM f b = .ok b' ∧ I b' := by
  induction l generalizing b with
  | nil => exact ⟨b, rfl, h⟩
  | cons a l ih =>
    obtain ⟨b₁, hb₁, h₁⟩ := step b a List.mem_cons_self h
    have hrest : ∀ b, ∀ x ∈ l, I b → ∃ b', f b x = .ok b' ∧ I b' := by
      intro b x hx
      exact step b x (List.mem_cons_of_mem _ hx)
    obtain ⟨b₂, hb₂, h₂⟩ := ih hrest h₁
    refine ⟨b₂, ?_, h₂⟩
    rw [List.foldlM_cons, hb₁]
    exact hb₂

theorem foldlM_cons_ok {a : α} (h : (a :: l).foldlM f b = .ok b') :
    ∃ b₁, f b a = .ok b₁ ∧ l.foldlM f b₁ = .ok b' := by
  rw [List.foldlM_cons] at h
  cases hb : f b a with
  | error cause => simp [hb, bind, Except.bind] at h
  | ok b₁ =>
    rw [hb] at h
    exact ⟨b₁, rfl, h⟩

theorem foldlM_rel {R : β → β → Prop} (refl : ∀ b, R b b)
    (trans : ∀ {b₁ b₂ b₃}, R b₁ b₂ → R b₂ b₃ → R b₁ b₃)
    (step : ∀ {b a b'}, f b a = .ok b' → R b b') (h : l.foldlM f b = .ok b') : R b b' := by
  induction l generalizing b with
  | nil =>
    obtain rfl := Except.ok.inj h
    exact refl b
  | cons a l ih =>
    obtain ⟨b₁, hb₁, h⟩ := foldlM_cons_ok h
    exact trans (step hb₁) (ih h)

/-- What each step may bring about for its member, a fold brings about for all members. -/
theorem foldlM_iff {P : α → Prop} {Q : β → Prop}
    (step : ∀ {b a b'}, f b a = .ok b' → (Q b' ↔ P a ∨ Q b)) (h : l.foldlM f b = .ok b') :
    Q b' ↔ (∃ a ∈ l, P a) ∨ Q b := by
  induction l generalizing b with
  | nil =>
    obtain rfl := Except.ok.inj h
    simp
  | cons a l ih =>
    obtain ⟨b₁, hb₁, hrest⟩ := foldlM_cons_ok h
    have hcons : (∃ x ∈ a :: l, P x) ↔ P a ∨ ∃ x ∈ l, P x := by simp
    rw [ih hrest, step hb₁, hcons, or_assoc, or_left_comm]

/-- What a fold has gone through, part by part. -/
theorem foldlM_flatMap {γ : Type} {I : List γ → β → Prop} {part : α → List γ}
    (step : ∀ {done b a b'}, I done b → f b a = .ok b' → I (done ++ part a) b') {done : List γ}
    (hb : I done b) (h : l.foldlM f b = .ok b') : I (done ++ l.flatMap part) b' := by
  induction l generalizing done b with
  | nil =>
    obtain rfl := Except.ok.inj h
    simpa using hb
  | cons a l ih =>
    obtain ⟨b₁, hb₁, hrest⟩ := foldlM_cons_ok h
    rw [List.flatMap_cons, ← List.append_assoc]
    exact ih (step hb hb₁) hrest

end Folds

/-! ## What a commit changes -/

namespace Commit

variable {k k' k'' : Commit} {t : String} {ts : List String} {id : GeneratorId}

/-- `k'` is `k` after more pairs were committed. -/
structure Grows (k k' : Commit) : Prop where
  engine : k'.engine = { k.engine with document := k'.engine.document }
  size : k'.cache.size + k.report.newEntries = k.cache.size + k'.report.newEntries
  le : k.report.newEntries ≤ k'.report.newEntries
  /-- Where nothing was generated, nothing has changed. -/
  same : k'.report.newEntries = k.report.newEntries → k'.engine = k.engine ∧ k'.cache = k.cache
  cached : ∀ {id t}, k.cache.contains id t = true → k'.cache.contains id t = true

namespace Grows

theorem refl (k : Commit) : k.Grows k where
  engine := rfl
  size := rfl
  le := Nat.le_refl _
  same _ := ⟨rfl, rfl⟩
  cached hc := hc

theorem trans (h : k.Grows k') (h' : k'.Grows k'') : k.Grows k'' where
  engine := by
    rw [h'.engine, h.engine]
  size := by
    have := h.size
    have := h'.size
    omega
  le := Nat.le_trans h.le h'.le
  same heq := by
    have h1 := h.le
    have h2 := h'.le
    obtain ⟨he, hc⟩ := h.same (by omega)
    obtain ⟨he', hc'⟩ := h'.same (by omega)
    exact ⟨he'.trans he, hc'.trans hc⟩
  cached hc := h'.cached (h.cached hc)

/-- Counting tokens changes nothing else. -/
theorem of_eq (he : k'.engine = k.engine) (hc : k'.cache = k.cache)
    (hn : k'.report.newEntries = k.report.newEntries) : k.Grows k' where
  engine := by rw [he]
  size := by rw [hc, hn]
  le := Nat.le_of_eq hn.symm
  same _ := ⟨he, hc⟩
  cached h := by rwa [hc]

theorem generatorsFor (h : k.Grows k') (t : String) :
    k'.engine.generatorsFor t = k.engine.generatorsFor t := by
  rw [h.engine]
  rfl

end Grows

theorem generate_ok {e e' : Engine} {ids : List ContainerId} (h : e.generate id t = .ok (e', ids)) :
    e' = { e with document := e'.document } := by
  have hw {r : Except Error (Document × List ContainerId)}
      (hr : e.withDocument r = .ok (e', ids)) : e' = { e with document := e'.document } := by
    obtain ⟨d, -, rfl⟩ := Engine.withDocument_eq_ok_iff.1 hr
    rfl
  unfold Engine.generate at h
  split at h
  · cases h
  · split at h
    · obtain ⟨rfl, -⟩ := Prod.mk.inj (Except.ok.inj h)
      rfl
    · exact hw h
    · exact hw h

theorem size_insert (c : SessionCache) (id : GeneratorId) (t : String) (ids : List ContainerId) :
    (c.insert id t ids).size = c.size + 1 :=
  (SessionCache.place_perm _ _).length_eq

/-- Committing a pair that is not cached. -/
theorem pair_eq {e : Engine} {ids : List ContainerId} (hc : ¬ k.cache.contains id t = true)
    (hg : k.engine.generate id t = .ok (e, ids)) :
    k.pair t id = .ok ⟨e, k.cache.insert id t ids, { k.report with
      newEntries := k.report.newEntries + 1
      containers := k.report.containers + ids.length }⟩ := by
  rw [Commit.pair, if_neg hc, hg]
  rfl

/-- A pair that was committed is in the cache, and no other one has come to it. -/
theorem pair_ok (h : k.pair t id = .ok k') : k.Grows k' ∧ ∀ {id' t'},
    k'.cache.contains id' t' = true ↔ (id', t') = (id, t) ∨ k.cache.contains id' t' = true := by
  by_cases hc : k.cache.contains id t = true
  · rw [Commit.pair, if_pos hc] at h
    obtain rfl := Except.ok.inj h
    refine ⟨.of_eq rfl rfl rfl, ?_⟩
    intro id' t'
    constructor
    · exact .inr
    · rintro (heq | hc')
      · obtain ⟨rfl, rfl⟩ := Prod.mk.inj heq
        exact hc
      · exact hc'
  · cases hg : k.engine.generate id t with
    | error cause => simp [Commit.pair, hc, hg, bind, Except.bind] at h
    | ok x =>
      rw [pair_eq hc hg] at h
      obtain rfl := Except.ok.inj h
      refine ⟨⟨generate_ok hg, ?_, Nat.le_succ _, ?_, ?_⟩, ?_⟩
      · simp only [size_insert]
        omega
      · intro heq
        simp at heq
      · intro id' t' hc'
        rw [SessionCache.contains_insert]
        right
        exact hc'
      · intro id' t'
        exact SessionCache.contains_insert _

theorem token_ok (h : k.token t = .ok k') : k.Grows k' ∧ ∀ {id' t'},
    k'.cache.contains id' t' = true ↔
      (t' = t ∧ id' ∈ k.engine.generatorsFor t) ∨ k.cache.contains id' t' = true := by
  have hstart : k.Grows { k with report := { k.report with tokensSeen := k.report.tokensSeen + 1 } } :=
    .of_eq rfl rfl rfl
  unfold Commit.token at h
  constructor
  · apply hstart.trans
    refine foldlM_rel Grows.refl Grows.trans ?_ h
    intro k id k' hp
    exact (pair_ok hp).1
  · intro id' t'
    rw [foldlM_iff (P := fun id => (id', t') = (id, t))
      (Q := fun k : Commit => k.cache.contains id' t' = true) (fun hp => (pair_ok hp).2) h]
    simp only [Prod.mk.injEq]
    constructor
    · rintro (⟨id, hid, rfl, rfl⟩ | hc)
      · exact .inl ⟨rfl, hid⟩
      · exact .inr hc
    · rintro (⟨rfl, hid⟩ | hc)
      · exact .inl ⟨id', hid, rfl, rfl⟩
      · exact .inr hc

theorem tokens_grows (h : k.tokens ts = .ok k') : k.Grows k' := by
  refine foldlM_rel Grows.refl Grows.trans ?_ h
  intro k t k' ht
  exact (token_ok ht).1

/-- The pairs of the tokens, and no others, are added to the cache. -/
theorem tokens_contains (h : k.tokens ts = .ok k') : k'.cache.contains id t = true ↔
    (t ∈ ts ∧ id ∈ k.engine.generatorsFor t) ∨ k.cache.contains id t = true := by
  induction ts generalizing k with
  | nil =>
    obtain rfl := Except.ok.inj h
    simp
  | cons t' ts ih =>
    obtain ⟨k₁, hk₁, hrest⟩ := foldlM_cons_ok h
    obtain ⟨hgrows, hcontains⟩ := token_ok hk₁
    rw [ih hrest, hgrows.generatorsFor, hcontains, List.mem_cons]
    constructor
    · rintro (⟨ht, hid⟩ | ⟨rfl, hid⟩ | hc)
      · exact .inl ⟨.inr ht, hid⟩
      · exact .inl ⟨.inl rfl, hid⟩
      · exact .inr hc
    · rintro (⟨rfl | ht, hid⟩ | hc)
      · exact .inr (.inl ⟨rfl, hid⟩)
      · exact .inl ⟨ht, hid⟩
      · exact .inr (.inr hc)

/-- Committing what is cached succeeds and generates nothing. -/
theorem tokens_of_cached
    (h : ∀ t ∈ ts, ∀ id ∈ k.engine.generatorsFor t, k.cache.contains id t = true) :
    ∃ k', k.tokens ts = .ok k' ∧ k'.engine = k.engine ∧ k'.cache = k.cache ∧
      k'.report.newEntries = k.report.newEntries := by
  refine foldlM_ok (I := fun k' : Commit => k'.engine = k.engine ∧ k'.cache = k.cache ∧
    k'.report.newEntries = k.report.newEntries) ?_ ⟨rfl, rfl, rfl⟩
  rintro k₁ t ht ⟨he, hc, hn⟩
  refine foldlM_ok ?_ ⟨he, hc, hn⟩
  rintro k₂ id hid ⟨he₂, hc₂, hn₂⟩
  rw [he] at hid
  have hcached : k₂.cache.contains id t = true := by
    rw [hc₂]
    exact h t ht id hid
  exact ⟨_, if_pos hcached, he₂, hc₂, hn₂⟩

end Commit

namespace Engine.Sound

variable {e : Engine} {id : GeneratorId} {token : String}

theorem getElem?_of_mem_generatorsFor (h : e.Sound) (hid : id ∈ e.generatorsFor token) :
    ∃ g, e.generators[id]? = some g := by
  obtain ⟨⟨t, i⟩, hmem, rfl⟩ := List.mem_map.1 hid
  obtain ⟨g, hg, -⟩ := h.indexed.1 (List.mem_filter.1 hmem).1
  exact ⟨g, hg⟩

/-- **Commits never fail** in a sound engine, and they leave it sound. -/
theorem tokens_ok {k : Commit} (h : k.engine.Sound) (ts : List String) :
    ∃ k', k.tokens ts = .ok k' ∧ k'.engine.Sound := by
  refine foldlM_ok (I := fun k : Commit => k.engine.Sound) ?_ h
  intro k t _ hk
  -- the generators of a token stay while its pairs are committed
  let I (k' : Commit) : Prop :=
    k'.engine.Sound ∧ k'.engine.generatorsFor t = k.engine.generatorsFor t
  have hstep : ∀ k₁, ∀ id ∈ k.engine.generatorsFor t, I k₁ → ∃ k₂, k₁.pair t id = .ok k₂ ∧ I k₂ := by
    rintro k₁ id hid ⟨hk₁, hgen⟩
    by_cases hc : k₁.cache.contains id t = true
    · exact ⟨_, if_pos hc, hk₁, hgen⟩
    · rw [← hgen] at hid
      obtain ⟨g, hg⟩ := hk₁.getElem?_of_mem_generatorsFor hid
      have hids := hk₁.generate_eq hg t
      have hall := (hk₁.absorbAll (List.mem_of_getElem? hg) (@Generator.asked_subset g t)).2
      exact ⟨_, Commit.pair_eq hc hids, hall, hgen⟩
  obtain ⟨k', hk', hs, -⟩ := foldlM_ok hstep
    (b := { k with report := { k.report with tokensSeen := k.report.tokensSeen + 1 } }) ⟨hk, rfl⟩
  exact ⟨k', hk', hs⟩

end Engine.Sound

end AtomicCss
