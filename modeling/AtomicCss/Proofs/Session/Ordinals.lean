import AtomicCss.Proofs.Session.Order
import Mathlib

/-! # Ordinals name classes

Whatever a config does, and whatever is committed in between, a container in the slot of a generator
has the text of the class at its ordinal. So generating a token leads to the containers that the token
asks for: the one of a utility's class, with the declarations of the table's present entry, or those
of all classes of a recipe, in order (`Arises.ordinals`). -/

namespace AtomicCss

/-- Different suffixes give different classes. -/
theorem Utility.classOf_inj {u : Utility} {s s' : String} : u.classOf s = u.classOf s' ↔ s = s' := by
  have hne (s : String) : u.stem ++ ":" ++ s ≠ u.stem := by
    intro h
    have := congrArg String.length h
    simp only [String.length_append] at this
    have : ":".length = 1 := rfl
    omega
  refine ⟨fun h => ?_, congrArg _⟩
  unfold classOf className at h
  split at h
  · rename_i hs
    split at h
    · rename_i hs'
      rw [hs, hs']
    · exact absurd h.symm (hne s')
  · split at h
    · exact absurd h (hne s)
    · have := congrArg String.toList h
      simpa [String.toList_inj] using this

namespace Generator

variable {r : Recipe} {table : ValueTable} {suffix token : String} {value : Value}

/-- The class of an entry asks a utility for itself alone. -/
theorem asked_utility (u : Utility) (slot : SlotId) (h : table.get? suffix = some value) : ∃ ordinal,
    (utility u table slot).asked (u.classOf suffix) =
      [⟨slot, ordinal, u.classOf suffix, u.style suffix value⟩] := by
  obtain ⟨p, hp, rfl⟩ := Option.map_eq_some_iff.1 h
  have hsuffix : p.1 = suffix := by simpa using List.find?_some hp
  subst hsuffix
  have hmem := List.mem_of_find?_eq_some hp
  cases hfind : (utility u table slot).classes.findIdx? (·.1 = u.classOf p.1) with
  | none =>
    rw [List.findIdx?_eq_none_iff] at hfind
    have := hfind _ (List.mem_map_of_mem hmem)
    simp at this
  | some ordinal =>
    obtain ⟨hlt, hclass, -⟩ := List.findIdx?_eq_some_iff_getElem.1 hfind
    have hlt' : ordinal < table.entries.length := by
      simpa [classes] using hlt
    -- the entry that the search finds has the same suffix, so it is this entry
    have hentry : table.entries[ordinal] = p := by
      apply List.inj_on_of_nodup_map table.distinct (List.getElem_mem hlt') hmem
      simpa [classes, Utility.classOf_inj] using hclass
    refine ⟨ordinal, ?_⟩
    unfold asked
    simp only [hfind]
    have hdrop : ((utility u table slot).classes.drop ordinal).take 1 =
        [(u.classOf p.1, u.style p.1 p.2)] := by
      rw [List.drop_eq_getElem_cons hlt]
      simp [classes, hentry]
    rw [hdrop]
    rfl

/-- A class of a recipe asks for all of them. -/
theorem asked_recipe (slot : SlotId) (h : token ∈ r.classes.map (·.1)) :
    (recipe r slot).asked token = (recipe r slot).emissions := by
  cases hfind : (recipe r slot).classes.findIdx? (·.1 = token) with
  | none =>
    rw [List.findIdx?_eq_none_iff] at hfind
    obtain ⟨c, hc, rfl⟩ := List.mem_map.1 h
    have := hfind c hc
    simp at this
  | some ordinal =>
    unfold asked
    simp only [hfind]

end Generator

namespace Engine

variable {e : Engine}

/-- The engines that the steps of configs and commits lead to, in any order. -/
inductive Arises : Engine → Prop
  | new (name : String) (mode : EmitMode) : Arises (.new name mode)
  | step {e : Engine} (h : Arises e) (s : ConfigStep) : Arises (e.step s)
  | commit {e : Engine} (h : Arises e) (c : SessionCache) {tokens : List String} {k : Commit}
      (hk : (Commit.start e c).tokens tokens = .ok k) : Arises k.engine

theorem Arises.run (h : e.Arises) (steps : List ConfigStep) : (e.run steps).Arises := by
  induction steps generalizing e with
  | nil => exact h
  | cons s steps ih => exact ih (h.step s)

theorem Arises.sound (h : e.Arises) : e.Sound := by
  induction h with
  | new name mode => exact sound_new name mode
  | step _ s ih => exact ih.step s
  | commit _ c hk ih =>
    obtain ⟨k', hk', hs⟩ := Sound.tokens_ok (k := .start _ c) ih _
    obtain rfl := Except.ok.inj (hk'.symm.trans hk)
    exact hs

/-- The main result. A container that stands in the slot of a generator has the text of the class at
its ordinal. A token of a utility leads to one container, which has the declarations of the present
entry; a token of a recipe leads to one container for each class, in order. -/
theorem Arises.ordinals (h : e.Arises) :
    (∀ g ∈ e.generators, ∀ ordinal id, e.document.StandsAt g.slot ordinal id →
      ∃ c, g.classes[ordinal]? = some c ∧
        e.document.selectorText? id = some (Text.trimmed (Css.classSelector c.1))) ∧
    (∀ id u table slot suffix value, e.generators[id]? = some (.utility u table slot) →
      table.get? suffix = some value → ∃ e' container c,
        e.generate id (u.classOf suffix) = .ok (e', [container]) ∧
        e'.document.get? container = some c ∧
        c.kind = .selector (Text.trimmed (Css.classSelector (u.classOf suffix))) ∧
        ∀ p ∈ (u.style suffix value).declarations, p ∈ c.block.declarations) ∧
    (∀ id r slot token, e.generators[id]? = some (.recipe r slot) →
      token ∈ r.classes.map (·.1) → ∃ e' containers,
        e.generate id token = .ok (e', containers) ∧
        containers.map e'.document.selectorText? =
          r.classes.map fun c => some (Text.trimmed (Css.classSelector c.1))) := by
  have hs := h.sound
  refine ⟨?slots, ?utility, ?recipe⟩
  case slots =>
    intro g hg ordinal id hat
    obtain ⟨className, hc, ht⟩ := hs.filled g hg hat
    obtain ⟨c, hget, rfl⟩ := Option.map_eq_some_iff.1 hc
    exact ⟨c, hget, ht⟩
  case utility =>
    intro id u table slot suffix value hg hvalue
    obtain ⟨ordinal, hasked⟩ := Generator.asked_utility u slot hvalue
    have hgen := hs.generate_eq hg (u.classOf suffix)
    rw [hasked] at hgen
    obtain ⟨c, hc, hk, hblock⟩ := hs.document.landing ⟨slot, ordinal, u.classOf suffix,
      u.style suffix value⟩
    exact ⟨_, _, c, hgen, hc, hk, hblock⟩
  case recipe =>
    intro id r slot token hg htoken
    have hasked := Generator.asked_recipe slot htoken
    have hgen := hs.generate_eq hg token
    have hadmits : e.document.AdmitsAll (Generator.recipe r slot).emissions :=
      (hs.absorbAll (List.mem_of_getElem? hg) (List.Subset.refl _)).1
    rw [hasked] at hgen
    refine ⟨_, _, hgen, ?_⟩
    have htexts := congrArg (List.map some) (map_text_listFrom slot 0 r.classes)
    rw [List.map_map, List.map_map] at htexts
    exact hadmits.selectorText?_landings.trans htexts

/-- The margins, one of which was committed before it was set to another value. -/
def resized : Engine :=
  (((Commit.start margins ∅).tokens ["m:sm"]).toOption.elim margins (·.engine)).step
    (.useUtility 0 (some (ValueTable.ofList [("sm", .literal "6px")])))

theorem ordinals_resized : resized.Arises ∧ ∃ e' container c,
    resized.generate 0 "m:sm" = .ok (e', [container]) ∧ e'.document.get? container = some c ∧
    c.kind = .selector ".m\\:sm" ∧ ⟨"margin", .literal "6px"⟩ ∈ c.block.declarations := by
  have harises : margins.Arises := (Arises.new "app" .onDemand).run _
  obtain ⟨k, hk, -⟩ := Sound.tokens_ok (k := .start margins ∅) harises.sound ["m:sm"]
  have hresized : resized = k.engine.step
      (.useUtility 0 (some (ValueTable.ofList [("sm", .literal "6px")]))) := by
    rw [resized, hk]
    rfl
  have h : resized.Arises := by
    rw [hresized]
    exact .step (.commit harises ∅ hk) _
  have hg : resized.generators[0]? = some (.utility (.ofProperty "m" "margin")
      (ValueTable.ofList [("sm", .literal "6px"), ("lg", .literal "16px")]) 0) := by
    cbv
  obtain ⟨e', container, c, hgen, hc, hkind, hblock⟩ :=
    h.ordinals.2.1 0 _ _ _ "sm" (.literal "6px") hg (by decide +kernel)
  refine ⟨h, e', container, c, hgen, hc, ?_, ?_⟩
  · rw [hkind]
    decide +kernel
  · apply hblock
    decide +kernel

end Engine

end AtomicCss
