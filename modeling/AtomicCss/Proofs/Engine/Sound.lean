import AtomicCss.Proofs.Document.Emission

/-! # Sound engines

In a sound engine every generator has a slot of the root to itself, and only the generator's own
classes stand there, each at its ordinal. The index of tokens lists exactly the classes, and
variables are declared in containers that exist. So emissions succeed (`Sound.generate_eq`), and
they keep the engine sound (`Sound.absorbAll`). -/

namespace AtomicCss

namespace Generator

variable {g : Generator} {x : Emission}

/-- The classes of a generator with their places. -/
def emissions (g : Generator) : List Emission := Emission.listFrom g.slot 0 g.classes

/-- The class at an ordinal. -/
def className? (g : Generator) (ordinal : Nat) : Option String := (g.classes[ordinal]?).map (·.1)

/-- What a token asks of a generator: a class of a utility, or all classes of a recipe. -/
def asked (g : Generator) (token : String) : List Emission :=
  match g.classes.findIdx? (·.1 = token), g with
  | none, _ => []
  | some ordinal, .utility .. =>
    Emission.listFrom g.slot ordinal ((g.classes.drop ordinal).take 1)
  | some _, .recipe .. => g.emissions

theorem mem_emissions : x ∈ g.emissions ↔
    x.slot = g.slot ∧ g.classes[x.ordinal]? = some (x.className, x.block) := by
  rw [emissions, Emission.mem_listFrom]
  constructor
  · rintro ⟨hs, i, ho, hc⟩
    rw [ho, Nat.zero_add]
    exact ⟨hs, hc⟩
  · rintro ⟨hs, hc⟩
    exact ⟨hs, x.ordinal, (Nat.zero_add _).symm, hc⟩

theorem className?_of_mem (hx : x ∈ g.emissions) : g.className? x.ordinal = some x.className := by
  rw [className?, (mem_emissions.1 hx).2]
  rfl

theorem asked_subset {token : String} : g.asked token ⊆ g.emissions := by
  intro x hx
  unfold asked at hx
  split at hx
  · cases hx
  · obtain ⟨hs, i, ho, hc⟩ := Emission.mem_listFrom.1 hx
    rw [List.getElem?_take, List.getElem?_drop, ← ho] at hc
    split at hc
    · exact mem_emissions.2 ⟨hs, hc⟩
    · cases hc
  · exact hx

/-- A class is among those that its token asks for. -/
theorem exists_mem_asked {token : String} (h : token ∈ g.classes.map (·.1)) :
    ∃ x ∈ g.asked token, x.className = token := by
  cases hfind : g.classes.findIdx? (·.1 = token) with
  | none =>
    rw [List.findIdx?_eq_none_iff] at hfind
    obtain ⟨c, hc, rfl⟩ := List.mem_map.1 h
    simpa using hfind c hc
  | some ordinal =>
    obtain ⟨hlt, hclass, -⟩ := List.findIdx?_eq_some_iff_getElem.1 hfind
    have hget : g.classes[ordinal]? = some (g.classes[ordinal].1, g.classes[ordinal].2) :=
      List.getElem?_eq_getElem hlt
    refine ⟨⟨g.slot, ordinal, g.classes[ordinal].1, g.classes[ordinal].2⟩, ?_, by simpa using hclass⟩
    unfold asked
    simp only [hfind]
    cases g with
    | utility definition table slot =>
      refine Emission.mem_listFrom.2 ⟨rfl, 0, rfl, ?_⟩
      rw [List.getElem?_take_of_lt Nat.one_pos, List.getElem?_drop, Nat.add_zero]
      exact hget
    | recipe definition slot => exact mem_emissions.2 ⟨rfl, hget⟩

end Generator

namespace Engine

variable {e : Engine} {d' : Document} {g : Generator} {x : Emission}

/-- The generators, the document, the index and the variables of an engine are in step. -/
structure Sound (e : Engine) : Prop where
  document : e.document.WellFormed
  slots : (e.generators.map Generator.slot).Nodup
  owned : ∀ g ∈ e.generators,
    (e.document.slots[g.slot]?).map (·.parent) = some Document.rootId
  filled : ∀ g ∈ e.generators, ∀ {ordinal id : Nat}, e.document.StandsAt g.slot ordinal id →
    ∃ className, g.className? ordinal = some className ∧
      e.document.selectorText? id = some (Text.trimmed (Css.classSelector className))
  scopes : ∀ v ∈ e.vars.entries, e.document.contains v.scope = true
  indexed : ∀ {token : String} {id : Nat}, (token, id) ∈ e.index ↔
    ∃ g, e.generators[id]? = some g ∧ token ∈ g.classes.map (·.1)

namespace Sound

theorem eq_of_slot_eq (h : e.Sound) {g' : Generator} (hg : g ∈ e.generators)
    (hg' : g' ∈ e.generators) (hs : g.slot = g'.slot) : g = g' :=
  List.inj_on_of_nodup_map h.slots hg hg' hs

theorem admits (h : e.Sound) (hg : g ∈ e.generators) (hx : x ∈ g.emissions) :
    e.document.Admits x where
  slot := by rw [(Generator.mem_emissions.1 hx).1, h.owned g hg]
  own hat := by
    rw [(Generator.mem_emissions.1 hx).1] at hat
    obtain ⟨className, hc, ht⟩ := h.filled g hg hat
    rw [Generator.className?_of_mem hx, Option.some.injEq] at hc
    rw [ht, ← hc]
    rfl

/-- A change of the document that keeps its containers and fills slots with their own classes. -/
theorem withDocument (h : e.Sound) (hw : d'.WellFormed) (hk : e.document.Keeps d')
    (hp : ∀ g ∈ e.generators, (d'.slots[g.slot]?).map (·.parent) = some Document.rootId)
    (hs : ∀ g ∈ e.generators, ∀ {ordinal id : Nat}, d'.StandsAt g.slot ordinal id →
      e.document.StandsAt g.slot ordinal id ∨ ∃ className, g.className? ordinal = some className ∧
        d'.selectorText? id = some (Text.trimmed (Css.classSelector className))) :
    Sound { e with document := d' } where
  document := hw
  slots := h.slots
  owned := hp
  filled g hg ordinal id hat := by
    rcases hs g hg hat with hold | hnew
    · obtain ⟨className, hc, ht⟩ := h.filled g hg hold
      exact ⟨className, hc, hk.selectorText? ht⟩
    · exact hnew
  scopes v hv := hk.contains (h.scopes v hv)
  indexed := h.indexed

/-- A change of the document that leaves its slots alone. -/
theorem withDocument_of_slots (h : e.Sound) (hw : d'.WellFormed) (hk : e.document.Keeps d')
    (hs : d'.slots = e.document.slots) : Sound { e with document := d' } := by
  apply h.withDocument hw hk
  · intro g hg
    rw [hs, h.owned g hg]
  · intro g _ ordinal id hat
    left
    rw [Document.StandsAt, hs] at hat
    exact hat

theorem absorb (h : e.Sound) (hg : g ∈ e.generators) (hx : x ∈ g.emissions) :
    Sound { e with document := (e.document.absorb x).1 } := by
  have hadm := h.admits hg hx
  apply h.withDocument (h.document.absorb hadm) (.absorb _ _)
  · intro g' hg'
    rw [← List.getElem?_map, Document.parents_absorb, List.getElem?_map, h.owned g' hg']
  · intro g' hg' ordinal id hat
    rcases h.document.standsAt_absorb hadm hat with hold | ⟨hs, rfl, ht⟩
    · left
      exact hold
    · right
      -- slots are not shared, so the class that stands there is one of this generator
      obtain rfl := h.eq_of_slot_eq hg hg' (hs.trans (Generator.mem_emissions.1 hx).1).symm
      exact ⟨x.className, Generator.className?_of_mem hx, ht⟩

/-- Emitting classes of a generator keeps the engine sound. -/
theorem absorbAll (h : e.Sound) (hg : g ∈ e.generators) {xs : List Emission}
    (hxs : xs ⊆ g.emissions) :
    e.document.AdmitsAll xs ∧ Sound { e with document := e.document.absorbAll xs } := by
  refine Document.admitsAll_of_step (I := fun d => Sound { e with document := d }) h ?_
  intro d x hx hd
  exact ⟨hd.document, hd.admits hg (hxs hx), hd.absorb hg (hxs hx)⟩

end Sound

theorem generate_eq_emitAll {id : GeneratorId} (hg : e.generators[id]? = some g) (token : String)
    (ha : e.document.AdmitsAll (g.asked token)) : e.generate id token =
      .ok ({ e with document := e.document.absorbAll (g.asked token) },
        e.document.landings (g.asked token)) := by
  cases hfind : g.classes.findIdx? (·.1 = token) with
  | none =>
    simp only [generate, hg, Generator.asked, hfind]
    rfl
  | some ordinal =>
    cases g with
    | utility definition table slot =>
      simp only [Generator.asked, hfind] at ha ⊢
      have hids := Document.emitAll_eq ha
      simp only [generate, hg, hfind]
      rw [Engine.withDocument, hids]
      rfl
    | recipe definition slot =>
      simp only [Generator.asked, hfind] at ha ⊢
      have hids := Document.emitAll_eq ha
      simp only [generate, hg, hfind]
      rw [Engine.withDocument, hids]
      rfl

/-- **Generating never fails** for a generator of a sound engine. -/
theorem Sound.generate_eq (h : e.Sound) {id : GeneratorId} (hg : e.generators[id]? = some g)
    (token : String) : e.generate id token =
      .ok ({ e with document := e.document.absorbAll (g.asked token) },
        e.document.landings (g.asked token)) :=
  generate_eq_emitAll hg token
    (h.absorbAll (List.mem_of_getElem? hg) Generator.asked_subset).1

end Engine

end AtomicCss
