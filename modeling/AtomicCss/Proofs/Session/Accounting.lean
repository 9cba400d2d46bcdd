import AtomicCss.Proofs.Session.Ordinals
import AtomicCss.Proofs.Session.Sharing

/-! # What a commit adds and counts

A commit goes through the pairs of its tokens. It generates a pair that is neither in the cache nor
came before and adds it with the containers that it led to, and it counts the others as cached
(`Accounts.pair`). So the added pairs are the missing ones, each once and in the order in which they
came first, and the numbers of the report agree with them (`Arises.accounts_tokens`). -/

namespace AtomicCss

/-- The pair that an entry of the cache is for. -/
def CacheEntry.pair (x : CacheEntry) : GeneratorId × String := (x.generator, x.token)

/-- The entries are for pairs that were generated in turn, each with the containers that this returned. -/
inductive Engine.Generates : Engine → List CacheEntry → Engine → Prop
  | nil (e : Engine) : Generates e [] e
  | concat {e e₁ e₂ : Engine} {xs : List CacheEntry} {x : CacheEntry} (h : Generates e xs e₁)
      (hx : e₁.generate x.generator x.token = .ok (e₂, x.containers)) : Generates e (xs ++ [x]) e₂

namespace SessionCache

variable {c : SessionCache} {id : GeneratorId} {t : String}

/-- The pairs that are not in the cache, each once and in the order in which they came first. -/
def missing (c : SessionCache) (pairs : List (GeneratorId × String)) : List (GeneratorId × String) :=
  pairs.eraseDups.filter fun p => !c.contains p.1 p.2

theorem mem_missing {pairs : List (GeneratorId × String)} {p : GeneratorId × String} :
    p ∈ c.missing pairs ↔ p ∈ pairs ∧ c.contains p.1 p.2 = false := by
  simp [missing]

theorem missing_concat (c : SessionCache) (pairs : List (GeneratorId × String))
    (p : GeneratorId × String) : c.missing (pairs ++ [p]) =
      if p ∈ pairs ∨ c.contains p.1 p.2 = true then c.missing pairs else c.missing pairs ++ [p] := by
  rw [missing, eraseDups_concat]
  by_cases hp : p ∈ pairs
  · rw [if_pos hp, if_pos (.inl hp)]
    rfl
  · rw [if_neg hp, List.filter_append]
    cases hc : c.contains p.1 p.2 <;> simp [missing, hp, hc]

/-- A new entry is found. -/
theorem get?_insert_self (hnew : c.contains id t = false) (ids : List ContainerId) :
    (c.insert id t ids).get? id t = some ids := by
  have hcontains := (contains_insert (c := c) ids).2 (.inl (rfl : (id, t) = (id, t)))
  obtain ⟨ids', hids'⟩ := Option.isSome_iff_exists.1 hcontains
  obtain ⟨x, hx, rfl⟩ := Option.map_eq_some_iff.1 hids'
  -- the entry that is found is for the pair, so it is no earlier one
  have hpair : x.generator = id ∧ x.token = t := by simpa using List.find?_some hx
  rcases List.mem_cons.1 ((place_perm _ _).mem_iff.1 (List.mem_of_find?_eq_some hx)) with rfl | hold
  · exact hids'
  · rw [contains_iff.2 ⟨x, hold, hpair⟩] at hnew
    cases hnew

end SessionCache

namespace Commit

/-- What a commit into `e` and `c` has done when it has gone through some pairs and added some entries. -/
structure Accounts (e : Engine) (c : SessionCache) (done : List (GeneratorId × String))
    (added : List CacheEntry) (k : Commit) : Prop where
  engine : k.engine = { e with document := k.engine.document }
  generated : e.Generates added k.engine
  missing : added.map (·.pair) = c.missing done
  entries : k.cache.entries.Perm (added ++ c.entries)
  kept : c.Extends k.cache
  found : ∀ x ∈ added, k.cache.get? x.generator x.token = some x.containers
  newEntries : k.report.newEntries = added.length
  cachedEntries : k.report.newEntries + k.report.cachedEntries = done.length
  containers : k.report.containers = (added.map (·.containers.length)).sum

/-! ## Counting tokens -/

section TokensSeen

variable {k k' : Commit} {id : GeneratorId} {t : String} {ts : List String}

theorem tokensSeen_pair (hk : k.pair t id = .ok k') :
    k'.report.tokensSeen = k.report.tokensSeen := by
  by_cases hc : k.cache.contains id t = true
  · rw [Commit.pair, if_pos hc] at hk
    obtain rfl := Except.ok.inj hk
    rfl
  · cases hg : k.engine.generate id t with
    | error cause => simp [Commit.pair, hc, hg, bind, Except.bind] at hk
    | ok x =>
      rw [pair_eq hc hg] at hk
      obtain rfl := Except.ok.inj hk
      rfl

theorem tokensSeen_token (hk : k.token t = .ok k') :
    k'.report.tokensSeen = k.report.tokensSeen + 1 := by
  have hpairs := foldlM_rel (R := fun k k' : Commit => k'.report.tokensSeen = k.report.tokensSeen)
    (fun _ => rfl) (fun h h' => h'.trans h) tokensSeen_pair hk
  exact hpairs

theorem tokensSeen_tokens (hk : k.tokens ts = .ok k') :
    k'.report.tokensSeen = k.report.tokensSeen + ts.length := by
  induction ts generalizing k with
  | nil =>
    obtain rfl := Except.ok.inj hk
    rfl
  | cons t ts ih =>
    obtain ⟨k₁, hk₁, hrest⟩ := foldlM_cons_ok hk
    rw [ih hrest, tokensSeen_token hk₁, List.length_cons]
    omega

end TokensSeen

/-! ## Adding pairs -/

namespace Accounts

variable {e : Engine} {c : SessionCache} {k k' : Commit} {done : List (GeneratorId × String)}
  {added : List CacheEntry} {id : GeneratorId} {t : String} {ts : List String}

theorem start (e : Engine) (c : SessionCache) : Accounts e c [] [] (.start e c) where
  engine := rfl
  generated := .nil e
  missing := rfl
  entries := .refl _
  kept := .refl c
  found := by simp
  newEntries := rfl
  cachedEntries := rfl
  containers := rfl

theorem contains_iff (h : Accounts e c done added k) :
    k.cache.contains id t = true ↔ (id, t) ∈ done ∨ c.contains id t = true := by
  have hadded : (∃ x ∈ added, x.generator = id ∧ x.token = t) ↔ (id, t) ∈ c.missing done := by
    rw [← h.missing, List.mem_map]
    simp only [CacheEntry.pair, Prod.mk.injEq]
  rw [SessionCache.contains_iff]
  simp only [h.entries.mem_iff, List.mem_append, or_and_right, exists_or]
  rw [hadded, ← SessionCache.contains_iff, SessionCache.mem_missing]
  cases c.contains id t <;> simp

/-- **One pair** is added if it is missing, and counted as cached otherwise. -/
theorem pair (h : Accounts e c done added k) (hk : k.pair t id = .ok k') :
    ∃ added', Accounts e c (done ++ [(id, t)]) added' k' := by
  by_cases hc : k.cache.contains id t = true
  · rw [Commit.pair, if_pos hc] at hk
    obtain rfl := Except.ok.inj hk
    refine ⟨added, { h with missing := ?_, cachedEntries := ?_ }⟩
    · rw [c.missing_concat, if_pos (h.contains_iff.1 hc), h.missing]
    · rw [List.length_append, List.length_singleton, ← h.cachedEntries]
      rfl
  · cases hg : k.engine.generate id t with
    | error cause => simp [Commit.pair, hc, hg, bind, Except.bind] at hk
    | ok x =>
      obtain ⟨e', ids⟩ := x
      have hnew := Bool.eq_false_iff.2 hc
      rw [pair_eq hc hg] at hk
      obtain rfl := Except.ok.inj hk
      have hinsert := SessionCache.Extends.insert hnew ids
      refine ⟨added ++ [⟨id, t, ids⟩], ?_⟩
      constructor
      case engine =>
        rw [generate_ok hg, h.engine]
      case generated => exact .concat h.generated hg
      case missing =>
        rw [c.missing_concat, if_neg (mt h.contains_iff.2 hc), List.map_append, h.missing]
        rfl
      case entries =>
        refine (SessionCache.place_perm _ _).trans ((h.entries.cons _).trans ?_)
        rw [List.append_assoc]
        exact List.perm_middle.symm
      case kept => exact h.kept.trans hinsert
      case found =>
        intro x hx
        rcases List.mem_append.1 hx with hx | hx
        · exact hinsert.get? (h.found x hx)
        · obtain rfl := List.mem_singleton.1 hx
          exact SessionCache.get?_insert_self hnew ids
      case newEntries => simp [h.newEntries]
      case cachedEntries =>
        have := h.cachedEntries
        rw [List.length_append, List.length_singleton]
        show k.report.newEntries + 1 + k.report.cachedEntries = done.length + 1
        omega
      case containers => simp [h.containers]

theorem counted (h : Accounts e c done added k) (n : Nat) :
    Accounts e c done added { k with report := { k.report with tokensSeen := n } } :=
  { h with }

theorem generatorsFor (h : Accounts e c done added k) (t : String) :
    k.engine.generatorsFor t = e.generatorsFor t := by
  rw [h.engine]
  rfl

theorem token (h : Accounts e c done added k) (hk : k.token t = .ok k') :
    ∃ added', Accounts e c (done ++ e.pairsFor t) added' k' := by
  rw [Commit.token, h.generatorsFor] at hk
  rw [Engine.pairsFor, List.map_eq_flatMap]
  refine foldlM_flatMap (I := fun done k => ∃ added, Accounts e c done added k) ?_
    ⟨added, h.counted _⟩ hk
  rintro done k id k' ⟨added, h⟩ hk
  exact h.pair hk

/-- **A commit** goes through the pairs of all its tokens. -/
theorem tokens (hk : (Commit.start e c).tokens ts = .ok k) :
    ∃ added, Accounts e c (ts.flatMap e.pairsFor) added k := by
  have hstart : ∃ added, Accounts e c [] added (.start e c) := ⟨[], start e c⟩
  have htokens := foldlM_flatMap (I := fun done k => ∃ added, Accounts e c done added k)
    (fun ⟨_, h⟩ hk => h.token hk) hstart hk
  exact htokens

/-- At once again, all pairs of a commit are cached. -/
theorem repeated (h : Accounts e c (ts.flatMap e.pairsFor) added k)
    (hk : (Commit.start k.engine k.cache).tokens ts = .ok k') : k'.engine = k.engine ∧
      k'.cache = k.cache ∧ k'.report = ⟨ts.length, 0, (ts.flatMap e.pairsFor).length, 0⟩ := by
  obtain ⟨added', h'⟩ := tokens hk
  have hpairs : ts.flatMap k.engine.pairsFor = ts.flatMap e.pairsFor :=
    List.flatMap_congr fun t _ => by rw [Engine.pairsFor, h.generatorsFor, Engine.pairsFor]
  rw [hpairs] at h'
  have hnone : k.cache.missing (ts.flatMap e.pairsFor) = [] := by
    rw [List.eq_nil_iff_forall_not_mem]
    intro p hp
    obtain ⟨hp, hnew⟩ := SessionCache.mem_missing.1 hp
    rw [h.contains_iff.2 (.inl hp)] at hnew
    cases hnew
  obtain rfl : added' = [] := by simpa [hnone] using h'.missing
  have hnew : k'.report.newEntries = 0 := h'.newEntries
  have hcached := h'.cachedEntries
  rw [hnew, Nat.zero_add] at hcached
  have hcontainers : k'.report.containers = 0 := h'.containers
  have hseen : k'.report.tokensSeen = ts.length := (tokensSeen_tokens hk).trans (Nat.zero_add _)
  obtain ⟨hengine, hcache⟩ := (tokens_grows hk).same hnew
  refine ⟨hengine, hcache, ?_⟩
  calc k'.report = ⟨k'.report.tokensSeen, k'.report.newEntries, k'.report.cachedEntries,
        k'.report.containers⟩ := rfl
    _ = _ := by rw [hseen, hnew, hcached, hcontainers]

end Accounts

end Commit

namespace Engine

variable {e : Engine} {ts : List String}

theorem mem_flatMap_pairsFor {id : GeneratorId} {t : String} :
    (id, t) ∈ ts.flatMap e.pairsFor ↔ t ∈ ts ∧ id ∈ e.generatorsFor t := by
  simp only [pairsFor, List.mem_flatMap, List.mem_map, Prod.mk.injEq]
  constructor
  · rintro ⟨u, hu, i, hi, rfl, rfl⟩
    exact ⟨hu, hi⟩
  · rintro ⟨ht, hid⟩
    exact ⟨t, ht, id, hid, rfl, rfl⟩

theorem length_flatMap_pairsFor (e : Engine) (ts : List String) :
    (ts.flatMap e.pairsFor).length = (ts.map fun t => (e.generatorsFor t).length).sum := by
  simp [List.length_flatMap, pairsFor]

/-- **A commit accounts for every pair once.** It succeeds, and keeps every earlier entry of the cache. The
entries that it adds are those of the pairs of its tokens that were missing, each once, with the containers
that generating them in turn returned. The report counts the tokens, the added entries, all other pairs,
and the containers of the added entries. The same commit at once again adds nothing and changes neither
the engine nor the cache. -/
theorem Arises.accounts_tokens (h : e.Arises) (c : SessionCache) (ts : List String) :
    ∃ k added, (Commit.start e c).tokens ts = .ok k ∧
      (∀ id t ids, c.get? id t = some ids → k.cache.get? id t = some ids) ∧
      (k.cache.entries.Perm (added ++ c.entries) ∧
        ∀ x ∈ added, k.cache.get? x.generator x.token = some x.containers) ∧
      ((added.map (·.pair)).Nodup ∧ ∀ id t, (id, t) ∈ added.map (·.pair) ↔
        (t ∈ ts ∧ id ∈ e.generatorsFor t) ∧ c.contains id t = false) ∧
      e.Generates added k.engine ∧
      (k.report.tokensSeen = ts.length ∧
        k.cache.size = c.size + k.report.newEntries ∧
        k.report.newEntries + k.report.cachedEntries =
          (ts.map fun t => (e.generatorsFor t).length).sum ∧
        k.report.containers = (added.map (·.containers.length)).sum) ∧
      ∃ k', (Commit.start k.engine k.cache).tokens ts = .ok k' ∧ k'.engine = k.engine ∧
        k'.cache = k.cache ∧
        k'.report = ⟨ts.length, 0, (ts.map fun t => (e.generatorsFor t).length).sum, 0⟩ := by
  obtain ⟨k, hk, hsound⟩ := Sound.tokens_ok (k := .start e c) h.sound ts
  obtain ⟨added, hadded⟩ := Commit.Accounts.tokens hk
  have hsize := hadded.entries.length_eq
  rw [List.length_append, ← hadded.newEntries, Nat.add_comm] at hsize
  have hseen := Commit.tokensSeen_tokens hk
  obtain ⟨k', hk', -⟩ := Sound.tokens_ok (k := .start k.engine k.cache) hsound ts
  obtain ⟨hengine, hcache, hreport⟩ := hadded.repeated hk'
  rw [length_flatMap_pairsFor] at hreport
  refine ⟨k, added, hk, fun id t ids => hadded.kept.get?, ⟨hadded.entries, hadded.found⟩, ⟨?_, ?_⟩,
    hadded.generated, ⟨?_, hsize, ?_, hadded.containers⟩, k', hk', hengine, hcache, hreport⟩
  · rw [hadded.missing]
    exact (nodup_eraseDups _).filter _
  · intro id t
    rw [hadded.missing, SessionCache.mem_missing, mem_flatMap_pairsFor]
  · exact hseen.trans (Nat.zero_add _)
  · rw [hadded.cachedEntries, length_flatMap_pairsFor]

/-- Two utilities with a class in common, and a recipe. -/
def sharedStem : Engine := (new "app" .onDemand).run
  [.addUtility ((Utility.ofProperty "m" "margin").withStem "gap"),
    .addUtility ((Utility.ofProperty "p" "padding").withStem "gap"),
    .useUtility 0 (some (.ofList [("sm", .literal "4px"), ("lg", .literal "8px")])),
    .useUtility 1 (some (.ofList [("sm", .literal "2px")])),
    .addRecipe ⟨"tag", ∅, [⟨"s", [("l", .ofList [("color", .literal "red")])]⟩], [], []⟩]

/-- Tokens of which one was committed before, one comes twice and one is nobody's. -/
theorem accounts_tokens_sharedStem :
    let ts := ["gap:sm", "tag", "none", "gap:sm", "gap:lg"]
    ∃ k₀, (Commit.start sharedStem ∅).tokens ["gap:lg"] = .ok k₀ ∧ k₀.engine.Arises ∧
      ∃ k added, (Commit.start k₀.engine k₀.cache).tokens ts = .ok k ∧
        k₀.engine.Generates added k.engine ∧ k.report = ⟨5, 3, 3, 4⟩ ∧
        ∃ k', (Commit.start k.engine k.cache).tokens ts = .ok k' ∧ k'.report = ⟨5, 0, 6, 0⟩ := by
  intro ts
  have harises : sharedStem.Arises := (Arises.new "app" .onDemand).run _
  obtain ⟨k₀, hk₀, -⟩ := Sound.tokens_ok (k := .start sharedStem ∅) harises.sound ["gap:lg"]
  have h₀ : k₀.engine.Arises := .commit harises ∅ hk₀
  obtain ⟨k, added, hk, -, -, -, hgenerates, ⟨-, -, hcounts, -⟩, k', hk', -, -, hreport'⟩ :=
    h₀.accounts_tokens k₀.cache ts
  have hreport : ((Commit.start sharedStem ∅).tokens ["gap:lg"]).toOption.bind (fun k₀ =>
      ((Commit.start k₀.engine k₀.cache).tokens ts).toOption.map (·.report)) =
        some ⟨5, 3, 3, 4⟩ := by decide +kernel
  rw [hk₀, show (Except.ok k₀ : Except Error Commit).toOption = some k₀ from rfl, Option.bind_some,
    hk] at hreport
  have hreport : k.report = ⟨5, 3, 3, 4⟩ := Option.some.inj hreport
  rw [hreport] at hcounts
  rw [← hcounts] at hreport'
  exact ⟨k₀, hk₀, h₀, k, added, hk, hgenerates, hreport, k', hk', hreport'⟩

end Engine

end AtomicCss
