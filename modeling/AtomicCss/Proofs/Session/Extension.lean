import AtomicCss.Proofs.Document.Extension
import AtomicCss.Proofs.Document.Standing
import AtomicCss.Proofs.Session.Commit

/-! # Commits that only add

A commit takes nothing out of the document of a sound engine and nothing out of the cache
(`Commit.tokens_extends`). -/

namespace AtomicCss

/-! ## The cache -/

namespace SessionCache

variable {c c' c'' : SessionCache} {id : GeneratorId} {t : String} {ids : List ContainerId}

/-- The entries stay, each with its containers. -/
structure Extends (c c' : SessionCache) : Prop where
  entries : c.entries.Sublist c'.entries
  get? : ∀ {id t ids}, c.get? id t = some ids → c'.get? id t = some ids

theorem Extends.refl (c : SessionCache) : c.Extends c := ⟨.refl _, id⟩

theorem Extends.trans (h : c.Extends c') (h' : c'.Extends c'') : c.Extends c'' :=
  ⟨h.entries.trans h'.entries, fun hget => h'.get? (h.get? hget)⟩

theorem sublist_place (x : CacheEntry) (xs : List CacheEntry) : xs.Sublist (place x xs) := by
  induction xs with
  | nil => exact List.nil_sublist _
  | cons y ys ih =>
    unfold place
    split
    · exact List.sublist_cons_self _ _
    · exact ih.cons_cons y

/-- A search that does not look for the new entry finds what it found before. -/
theorem find?_place {p : CacheEntry → Bool} {x : CacheEntry} (hx : p x = false)
    (xs : List CacheEntry) : (place x xs).find? p = xs.find? p := by
  induction xs with
  | nil => simp [place, hx]
  | cons y ys ih =>
    unfold place
    split
    · rw [List.find?_cons_of_neg (by simp [hx])]
    · rw [List.find?_cons, List.find?_cons, ih]

theorem Extends.insert (hnew : c.contains id t = false) (ids : List ContainerId) :
    c.Extends (c.insert id t ids) where
  entries := sublist_place _ _
  get? {id' t' ids'} hget := by
    have hx : ¬(id = id' ∧ t = t') := by
      rintro ⟨rfl, rfl⟩
      rw [contains, hget] at hnew
      cases hnew
    unfold SessionCache.get? at hget ⊢
    rw [SessionCache.insert, find?_place (by simpa using hx), hget]

end SessionCache

/-! ## Engines and commits -/

namespace Commit

variable {k k' k'' : Commit} {t : String} {ts : List String} {id : GeneratorId}

/-- `k'` is `k` with more in its document and in its cache. -/
structure Extends (k k' : Commit) : Prop where
  document : k.engine.document.Extends k'.engine.document
  cache : k.cache.Extends k'.cache
  sound : k'.engine.Sound

theorem Extends.trans (h : k.Extends k') (h' : k'.Extends k'') : k.Extends k'' :=
  ⟨h.document.trans h'.document, h.cache.trans h'.cache, h'.sound⟩

theorem exists_generator {e : Engine} {x : Engine × List ContainerId}
    (h : e.generate id t = .ok x) : ∃ g, e.generators[id]? = some g := by
  unfold Engine.generate at h
  split at h
  · cases h
  · rename_i g hg
    exact ⟨g, hg⟩

/-- In a sound engine, a pair is in the cache, or the classes that its generator is asked for land in
the document and are listed. -/
theorem pair_cases (hs : k.engine.Sound) (h : k.pair t id = .ok k') :
    (k'.engine = k.engine ∧ k'.cache = k.cache) ∨ ∃ g, k.engine.generators[id]? = some g ∧
      k.engine.document.AdmitsAll (g.asked t) ∧ k.cache.contains id t = false ∧ k'.engine.Sound ∧
      k'.engine.document = k.engine.document.absorbAll (g.asked t) ∧
      k'.cache = k.cache.insert id t (k.engine.document.landings (g.asked t)) := by
  by_cases hc : k.cache.contains id t = true
  · rw [Commit.pair, if_pos hc] at h
    obtain rfl := Except.ok.inj h
    exact .inl ⟨rfl, rfl⟩
  · cases hgen : k.engine.generate id t with
    | error cause => simp [Commit.pair, hc, hgen, bind, Except.bind] at h
    | ok x =>
      rw [pair_eq hc hgen] at h
      obtain rfl := Except.ok.inj h
      obtain ⟨g, hg⟩ := exists_generator hgen
      obtain rfl := Except.ok.inj (hgen.symm.trans (hs.generate_eq hg t))
      obtain ⟨hadmits, hsound⟩ :=
        hs.absorbAll (List.mem_of_getElem? hg) (@Generator.asked_subset g t)
      exact .inr ⟨g, hg, hadmits, Bool.eq_false_iff.2 hc, hsound, rfl, rfl⟩

/-- What the pairs of sound engines bring about, a commit brings about. -/
theorem tokens_rel {R : Commit → Commit → Prop}
    (counted : ∀ {k : Commit} {report}, k.engine.Sound → R k { k with report })
    (trans : ∀ {k₁ k₂ k₃}, R k₁ k₂ → R k₂ k₃ → R k₁ k₃)
    (pair : ∀ {k t id k'}, k.engine.Sound → k.pair t id = .ok k' → R k k')
    (hs : k.engine.Sound) (h : k.tokens ts = .ok k') : R k k' := by
  -- a pair needs a sound engine, so soundness is carried along
  let R' (k k' : Commit) : Prop := k.engine.Sound → k'.engine.Sound ∧ R k k'
  have hrefl (k : Commit) : R' k k := fun hs => ⟨hs, counted hs⟩
  have htrans {k₁ k₂ k₃ : Commit} (h : R' k₁ k₂) (h' : R' k₂ k₃) : R' k₁ k₃ := by
    intro hs
    obtain ⟨hs₂, hr⟩ := h hs
    obtain ⟨hs₃, hr'⟩ := h' hs₂
    exact ⟨hs₃, trans hr hr'⟩
  have hpair {k : Commit} {t : String} {id : GeneratorId} {k' : Commit}
      (h : k.pair t id = .ok k') : R' k k' := by
    intro hs
    refine ⟨?_, pair hs h⟩
    rcases pair_cases hs h with ⟨he, -⟩ | ⟨g, -, -, -, hsound, -⟩
    · rwa [he]
    · exact hsound
  have htoken {k : Commit} {t : String} {k' : Commit} (h : k.token t = .ok k') : R' k k' := by
    intro hs
    obtain ⟨hs', hr⟩ := foldlM_rel hrefl htrans hpair h hs
    exact ⟨hs', trans (counted hs) hr⟩
  exact (foldlM_rel hrefl htrans htoken h hs).2

theorem pair_extends (hs : k.engine.Sound) (h : k.pair t id = .ok k') : k.Extends k' := by
  rcases pair_cases hs h with ⟨he, hc⟩ | ⟨g, -, hadmits, hc, hsound, hdocument, hcache⟩
  · exact ⟨he ▸ .refl _, hc ▸ .refl _, he ▸ hs⟩
  · exact ⟨hdocument ▸ .absorbAll hadmits, hcache ▸ .insert hc _, hsound⟩

/-- **A commit only adds.** -/
theorem tokens_extends (hs : k.engine.Sound) (h : k.tokens ts = .ok k') : k.Extends k' :=
  tokens_rel (fun hs => ⟨.refl _, .refl _, hs⟩) .trans pair_extends hs h

/-- Every committed class has its selector under the root. -/
def Presents (k : Commit) : Prop :=
  ∀ id t g, k.cache.contains id t = true → k.engine.generators[id]? = some g →
    t ∈ g.classes.map (·.1) → (k.engine.document.findSelector? Document.rootId
      (Text.trimmed (Css.classSelector t))).isSome

theorem pair_presents (hs : k.engine.Sound) (h : k.pair t id = .ok k') (hp : k.Presents) :
    k'.Presents := by
  intro id' t' g' hc' hg' ht'
  rw [(pair_ok h).2] at hc'
  rw [(pair_ok h).1.engine] at hg'
  rcases pair_cases hs h with ⟨he, hc⟩ | ⟨g, hg, -, -, -, hdocument, -⟩
  · rw [he]
    refine hp id' t' g' ?_ hg' ht'
    rwa [← hc, (pair_ok h).2]
  · rw [hdocument]
    rcases hc' with heq | hold
    · -- the committed pair is new, and its class was just emitted
      obtain ⟨rfl, rfl⟩ := Prod.mk.inj heq
      obtain rfl := Option.some.inj (hg.symm.trans hg')
      obtain ⟨x, hx, rfl⟩ := Generator.exists_mem_asked ht'
      exact Document.isSome_findSelector?_of_mem hx
    · exact Document.isSome_findSelector?_absorbAll (hp id' t' g' hold hg' ht')

/-- **A commit gives every class its selector.** -/
theorem tokens_presents (hs : k.engine.Sound) (h : k.tokens ts = .ok k') :
    k.Presents → k'.Presents :=
  tokens_rel (R := fun k k' => k.Presents → k'.Presents) (fun _ hp => hp)
    (fun h h' hp => h' (h hp)) pair_presents hs h

end Commit

end AtomicCss
