import AtomicCss.Proofs.Css.ClassIdentity
import AtomicCss.Proofs.Session.Life
import AtomicCss.Proofs.Session.Ordinals

/-! # The containers of a use

In eager mode, a use of a utility emits a class for each entry and answers with their containers. Every
one of them is the selector of its class (`Sound.useEntries_eager`). So two entries have the same
container if and only if their classes have the same selector, which the names tell
(`Arises.containers_eq_iff`). -/

namespace AtomicCss.Engine

variable {e e' : Engine} {id : Nat} {u : Utility}

/-- The binding is for a class of the utility, and its container is the selector of that class. -/
structure Emitted (d : Document) (u : Utility) (b : Binding) : Prop where
  className : b.className = u.classOf b.suffix
  container : ∃ c, b.container = some c ∧
    d.findSelector? Document.rootId (Css.classSelector b.className) = some c

theorem Emitted.persists {d d' : Document} {b : Binding} (h : Emitted d u b) (hd : d.Persists d')
    (hw : d'.WellFormed) : Emitted d' u b where
  className := h.className
  container := by
    obtain ⟨c, hc, hfind⟩ := h.container
    exact ⟨c, hc, hd.findSelector? hw hfind⟩

/-- Containers tell the selectors of classes apart. -/
theorem Emitted.container_eq_iff {d : Document} {b b' : Binding} (hw : d.WellFormed)
    (h : Emitted d u b) (h' : Emitted d u b') : b.container = b'.container ↔
      Text.trimmed (Css.classSelector b.className) = Text.trimmed (Css.classSelector b'.className) := by
  obtain ⟨c, hc, hfind⟩ := h.container
  obtain ⟨c', hc', hfind'⟩ := h'.container
  rw [hc, hc', Option.some.injEq]
  constructor
  · rintro rfl
    have htext := (hw.findSelector?_eq_some_iff.1 hfind).2
    rw [(hw.findSelector?_eq_some_iff.1 hfind').2] at htext
    exact (Option.some.inj htext).symm
  · intro htext
    rw [Document.findSelector?, htext] at hfind
    exact Option.some.inj (hfind.symm.trans hfind')

namespace Sound

/-- In eager mode, a use emits the class of its entry. -/
theorem useEntry_eager (h : e.Sound) (hm : e.mode = .eager) {table : ValueTable} {slot : SlotId}
    (hg : e.generators[id]? = some (.utility u table slot)) (suffix : String) (value : Value) :
    ∃ e₁ b, e.useEntry id u table slot suffix value = .ok (e₁, b) ∧ e₁.mode = .eager ∧
      e.document.Persists e₁.document ∧ b.suffix = suffix ∧ Emitted e₁.document u b := by
  let x := u.emission table slot suffix value
  refine ⟨{ e with
      document := (e.document.absorb x).1
      generators := e.generators.set id (.utility u (table.insert suffix value) slot)
      index := indexClass e.index (u.classOf suffix) id },
    ⟨suffix, u.classOf suffix, some (e.document.absorb x).2⟩, ?_, hm, .absorb _ _, rfl, rfl, ?_⟩
  · simp only [Engine.useEntry, hm, h.emit_entry hg]
    rfl
  · refine ⟨_, rfl, ?_⟩
    exact Document.findSelector?_absorb.trans (if_pos rfl)

/-- In eager mode, a use answers with one container for each entry, and these are the selectors of the
entries' classes. -/
theorem useEntries_eager (h : e.Sound) (hm : e.mode = .eager) (hu : e.utility? id = some u)
    (entries : List (String × Value)) : ∃ e' bindings,
      e.useEntries id entries = .ok (e', bindings) ∧ e'.Sound ∧
      e.document.Persists e'.document ∧ bindings.map (·.suffix) = entries.map (·.1) ∧
      ∀ b ∈ bindings, Emitted e'.document u b := by
  induction entries generalizing e with
  | nil => exact ⟨e, [], rfl, h, .refl _, rfl, by simp⟩
  | cons entry entries ih =>
    obtain ⟨table, slot, hg⟩ := utility?_eq_some_iff.1 hu
    obtain ⟨e₁, b, he, hm₁, hp, hsuffix, hb⟩ := h.useEntry_eager hm hg entry.1 entry.2
    obtain ⟨e₂, b₂, he₂, h₁, hu₁⟩ := h.useEntry_ok hg entry.1 entry.2
    obtain ⟨rfl, rfl⟩ := Prod.mk.inj (Except.ok.inj (he.symm.trans he₂))
    obtain ⟨e', bindings, hrest, h', hp', hsuffixes, hbindings⟩ := ih h₁ hm₁ hu₁
    refine ⟨e', b :: bindings, ?_, h', hp.trans hp', ?_, ?_⟩
    · exact useEntries_cons_eq_ok_iff.2 ⟨u, table, slot, hg, e₁, b, he, bindings, hrest, rfl⟩
    · rw [List.map_cons, List.map_cons, hsuffix, hsuffixes]
    · exact List.forall_mem_cons.2 ⟨hb.persists hp' h'.document, hbindings⟩

end Sound

/-- **Which classes of a use share a container.** Two names without NUL have the same selector if and
only if they are the same up to wide blanks at the end, and if one is a single dash then both are. In
eager mode, a use of a utility answers with one binding for each suffix of its table, in order. The
container of each is the selector of its class, and two of them are one if and only if the classes
have the same selector, whatever selectors there were before. -/
theorem Arises.containers_eq_iff (h : e.Arises) :
    (∀ a b : String, '\x00' ∉ a.toList → '\x00' ∉ b.toList →
      (Text.trimmed (Css.classSelector a) = Text.trimmed (Css.classSelector b) ↔
        Css.told a = Css.told b ∧ (a = "-" ↔ b = "-"))) ∧
    ∀ id u config, e.mode = .eager → e.utility? id = some u → ∃ e' bindings,
      e.useUtility id config = .ok (e', bindings) ∧
      bindings.map (·.suffix) = (config.getD u.defaults).entries.map (·.1) ∧
      (∀ b ∈ bindings, Emitted e'.document u b) ∧
      ∀ b ∈ bindings, ∀ b' ∈ bindings, b.container = b'.container ↔
        Text.trimmed (Css.classSelector b.className) =
          Text.trimmed (Css.classSelector b'.className) := by
  refine ⟨fun a b => Css.trimmed_classSelector_eq_iff, ?_⟩
  intro id u config hm hu
  obtain ⟨e', bindings, hok, h', -, hsuffixes, hbindings⟩ :=
    h.sound.useEntries_eager hm hu (config.getD u.defaults).entries
  refine ⟨e', bindings, ?_, hsuffixes, hbindings, ?_⟩
  · rw [useUtility_eq, hu]
    exact hok
  · intro b hb b' hb'
    exact (hbindings b hb).container_eq_iff h'.document (hbindings b' hb')

/-- A utility for margins that emits its classes at once. -/
def eagerMargins : Engine := (new "app" .eager).run [.addUtility (.ofProperty "m" "margin")]

/-- Two of the suffixes differ in a no-break space at the end. -/
def padded : ValueTable :=
  .ofList [("sm", .literal "4px"), ("sm\u00A0", .literal "8px"), ("lg", .literal "16px")]

theorem containers_padded : eagerMargins.Arises ∧ ∃ e' bindings,
    eagerMargins.useUtility 0 (some padded) = .ok (e', bindings) ∧
    bindings.map (·.suffix) = ["sm", "sm\u00A0", "lg"] ∧
    ∀ b ∈ bindings, ∀ b' ∈ bindings, b.suffix = "sm" →
      (b'.suffix = "sm\u00A0" → b.container = b'.container) ∧
      (b'.suffix = "lg" → b.container ≠ b'.container) := by
  have harises : eagerMargins.Arises := (Arises.new "app" .eager).run _
  obtain ⟨htexts, huse⟩ := harises.containers_eq_iff
  obtain ⟨e', bindings, hok, hsuffixes, hemitted, hshare⟩ :=
    huse 0 (.ofProperty "m" "margin") (some padded) rfl rfl
  refine ⟨harises, e', bindings, hok, hsuffixes, ?_⟩
  intro b hb b' hb' hsuffix
  refine ⟨fun hsuffix' => ?_, fun hsuffix' => ?_⟩
  · rw [hshare b hb b' hb', (hemitted b hb).className, (hemitted b' hb').className, hsuffix, hsuffix',
      htexts _ _ (by decide +kernel) (by decide +kernel)]
    decide +kernel
  · rw [Ne, hshare b hb b' hb', (hemitted b hb).className, (hemitted b' hb').className, hsuffix,
      hsuffix', htexts _ _ (by decide +kernel) (by decide +kernel)]
    decide +kernel

end AtomicCss.Engine
