import AtomicCss.Proofs.Engine.Learning
import AtomicCss.Proofs.Session.Extension
import AtomicCss.Proofs.Session.Ordinals
import Mathlib

/-! # The index of tokens and the generators

A token may be looked up in two ways: in the index, which is filled as generators are registered and
used, or by asking every generator for its present classes. Both ways lead to the same generators, and
the index lists each of them once (`Arises.generatorsFor_exact`). -/

namespace AtomicCss

namespace Generator

variable {g : Generator} {token : String}

/-- A generator is asked for something by the tokens that are its classes. -/
theorem asked_ne_nil_iff : g.asked token ≠ [] ↔ token ∈ g.classes.map (·.1) := by
  constructor
  · intro hne
    by_contra hnot
    apply hne
    have hfind : g.classes.findIdx? (·.1 = token) = none := by
      rw [List.findIdx?_eq_none_iff]
      intro c hc
      exact decide_eq_false fun heq => hnot (heq ▸ List.mem_map_of_mem hc)
    unfold asked
    simp only [hfind]
  · intro h
    obtain ⟨x, hx, -⟩ := exists_mem_asked h
    exact List.ne_nil_of_mem hx

end Generator

theorem ValueTable.isSome_get?_iff {t : ValueTable} {suffix : String} :
    (t.get? suffix).isSome ↔ suffix ∈ t.entries.map (·.1) := by
  rw [get?, Option.isSome_map, List.find?_isSome, List.mem_map]
  simp

theorem Document.landings_eq_nil_iff {d : Document} {xs : List Emission} :
    d.landings xs = [] ↔ xs = [] := by
  cases xs <;> simp [landings]

namespace Engine

variable {e : Engine} {id : GeneratorId} {token : String}

/-- The classes of a generator, by its kind. -/
theorem exists_class_iff : (∃ g, e.generators[id]? = some g ∧ token ∈ g.classes.map (·.1)) ↔
    (∃ u table slot suffix, e.generators[id]? = some (.utility u table slot) ∧
      (table.get? suffix).isSome ∧ token = u.classOf suffix) ∨
    ∃ r slot, e.generators[id]? = some (.recipe r slot) ∧ token ∈ r.classes.map (·.1) := by
  constructor
  · rintro ⟨g, hg, htoken⟩
    cases g with
    | utility u table slot =>
      left
      rw [Generator.map_fst_classes_utility] at htoken
      obtain ⟨suffix, hsuffix, rfl⟩ := List.mem_map.1 htoken
      exact ⟨u, table, slot, suffix, hg, ValueTable.isSome_get?_iff.2 hsuffix, rfl⟩
    | recipe r slot =>
      right
      exact ⟨r, slot, hg, htoken⟩
  · rintro (⟨u, table, slot, suffix, hg, hsuffix, rfl⟩ | ⟨r, slot, hg, htoken⟩)
    · refine ⟨_, hg, ?_⟩
      rw [Generator.map_fst_classes_utility]
      exact List.mem_map_of_mem (ValueTable.isSome_get?_iff.1 hsuffix)
    · exact ⟨_, hg, htoken⟩

/-- Generating leads somewhere for the classes of a generator, and for them alone. -/
theorem Sound.generate_ne_nil_iff (h : e.Sound) :
    (∃ e' containers, e.generate id token = .ok (e', containers) ∧ containers ≠ []) ↔
      ∃ g, e.generators[id]? = some g ∧ token ∈ g.classes.map (·.1) := by
  constructor
  · rintro ⟨e', containers, hgen, hne⟩
    obtain ⟨g, hg⟩ := Commit.exists_generator hgen
    rw [h.generate_eq hg token] at hgen
    obtain ⟨-, rfl⟩ := Prod.mk.inj (Except.ok.inj hgen)
    refine ⟨g, hg, Generator.asked_ne_nil_iff.1 ?_⟩
    rwa [Ne, Document.landings_eq_nil_iff] at hne
  · rintro ⟨g, hg, htoken⟩
    refine ⟨_, _, h.generate_eq hg token, ?_⟩
    rw [Ne, Document.landings_eq_nil_iff]
    exact Generator.asked_ne_nil_iff.2 htoken

theorem Arises.nodup_index (h : e.Arises) : e.index.Nodup := by
  induction h with
  | new name mode => exact List.nodup_nil
  | step h s ih => exact (h.sound.learns_step s).nodup_index ih
  | commit _ c hk ih =>
    rw [(Commit.tokens_grows hk).engine]
    exact ih

/-- **The index agrees with the generators.** It leads a token to a generator if and only if generating
the token leads to containers, which is so if and only if the token is a class of the generator: that
of a suffix in a utility's present table, or one of a recipe's classes. It lists no generator twice. -/
theorem Arises.generatorsFor_exact (h : e.Arises) (token : String) :
    (e.generatorsFor token).Nodup ∧ ∀ id : GeneratorId,
      (id ∈ e.generatorsFor token ↔ ∃ e' containers,
        e.generate id token = .ok (e', containers) ∧ containers ≠ []) ∧
      (id ∈ e.generatorsFor token ↔
        (∃ u table slot suffix, e.generators[id]? = some (.utility u table slot) ∧
          (table.get? suffix).isSome ∧ token = u.classOf suffix) ∨
        ∃ r slot, e.generators[id]? = some (.recipe r slot) ∧ token ∈ r.classes.map (·.1)) := by
  have hs := h.sound
  refine ⟨?nodup, fun id => ⟨?generate, ?classes⟩⟩
  case nodup =>
    -- the entries that a token selects all have it as their first part
    refine List.Nodup.map_on ?_ (h.nodup_index.filter _)
    intro x hx y hy heq
    have hx := of_decide_eq_true (List.mem_filter.1 hx).2
    have hy := of_decide_eq_true (List.mem_filter.1 hy).2
    exact Prod.ext (hx.trans hy.symm) heq
  case generate => rw [mem_generatorsFor, hs.indexed, hs.generate_ne_nil_iff]
  case classes => rw [mem_generatorsFor, hs.indexed, exists_class_iff]

theorem generatorsFor_exact_margins : margins.Arises ∧ margins.generatorsFor "m:sm" = [0] ∧
    (margins.generatorsFor "m:sm").Nodup ∧
    ∃ e' containers, margins.generate 0 "m:sm" = .ok (e', containers) ∧ containers ≠ [] := by
  have harises : margins.Arises := (Arises.new "app" .onDemand).run _
  obtain ⟨hnodup, hiff⟩ := harises.generatorsFor_exact "m:sm"
  have hfor : margins.generatorsFor "m:sm" = [0] := by decide +kernel
  exact ⟨harises, hfor, hnodup, (hiff 0).1.1 (by rw [hfor]; exact List.mem_singleton_self 0)⟩

end Engine

end AtomicCss
