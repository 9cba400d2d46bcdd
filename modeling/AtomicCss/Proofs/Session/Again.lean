import AtomicCss.Proofs.Document.Again
import AtomicCss.Proofs.Session.Bindings
import AtomicCss.Proofs.Session.Following

/-! # Uses and tokens at once again

A use of a utility sets entries that its table then has, at the ordinals that they then have, so the same
use leaves the table alone and emits the same classes (`uses_again`). Classes that are emitted at once
again change nothing but the warnings. So the same use, or the same token, answers again with the same
containers and leaves the engine as it is (`Arises.again`). -/

namespace AtomicCss

variable {u : Utility} {slot : SlotId} {entries : List (String × Value)} {suffix : String} {value : Value}

/-! ## Tables -/

namespace ValueTable

variable {t t' : ValueTable}

/-- The suffixes of a table in the order of their ordinals. -/
def suffixes (t : ValueTable) : List String := t.entries.map (·.1)

theorem ordinal_eq_idxOf (t : ValueTable) (suffix : String) :
    t.ordinal suffix = t.suffixes.idxOf suffix := by
  unfold ordinal position? size suffixes
  induction t.entries with
  | nil => rfl
  | cons p es ih =>
    rw [List.findIdx?_cons, List.map_cons, List.idxOf_cons]
    by_cases hp : p.1 = suffix
    · simp [hp]
    · have hne : (p.1 == suffix) = false := by simpa using hp
      rw [if_neg (by simpa using hp), hne, cond_false, ← ih]
      cases es.findIdx? (·.1 = suffix) <;> rfl

theorem suffixes_insert (t : ValueTable) (suffix : String) (value : Value) :
    (t.insert suffix value).suffixes =
      if suffix ∈ t.suffixes then t.suffixes else t.suffixes ++ [suffix] :=
  map_fst_put suffix value t.entries

theorem suffixes_prefix_insert (t : ValueTable) (suffix : String) (value : Value) :
    t.suffixes <+: (t.insert suffix value).suffixes := by
  rw [suffixes_insert]
  split
  · exact List.prefix_rfl
  · exact List.prefix_append _ _

theorem suffixes_prefix_insertAll (t : ValueTable) (entries : List (String × Value)) :
    t.suffixes <+: (t.insertAll entries).suffixes := by
  induction entries generalizing t with
  | nil => exact List.prefix_rfl
  | cons p entries ih => exact (t.suffixes_prefix_insert p.1 p.2).trans (ih _)

theorem mem_suffixes_insert (t : ValueTable) (suffix : String) (value : Value) :
    suffix ∈ (t.insert suffix value).suffixes := by
  rw [suffixes_insert]
  split
  · assumption
  · exact List.mem_append_right _ (List.mem_singleton_self _)

/-- A suffix keeps its ordinal in tables with further suffixes. -/
theorem ordinal_of_prefix (h : t.suffixes <+: t'.suffixes) (hs : suffix ∈ t.suffixes) :
    t'.ordinal suffix = t.ordinal suffix := by
  obtain ⟨rest, hrest⟩ := h
  rw [ordinal_eq_idxOf, ordinal_eq_idxOf, ← hrest, List.idxOf_append_of_mem hs]

/-- A suffix stands where it was to be set. -/
theorem ordinal_insert (t : ValueTable) (suffix : String) (value : Value) :
    (t.insert suffix value).ordinal suffix = t.ordinal suffix := by
  rw [ordinal_eq_idxOf, ordinal_eq_idxOf, suffixes_insert]
  split
  · rfl
  · rename_i hs
    rw [List.idxOf_append_of_notMem hs, List.idxOf_of_notMem hs]
    simp

theorem put_of_find? {es : List (String × Value)}
    (h : (es.find? (·.1 = suffix)).map (·.2) = some value) : put suffix value es = es := by
  induction es with
  | nil => cases h
  | cons p es ih =>
    rw [List.find?_cons] at h
    unfold put
    by_cases hp : p.1 = suffix
    · have hvalue : p.2 = value := by simpa [hp] using h
      rw [if_pos hp, ← hp, ← hvalue]
    · rw [if_neg hp, ih (by simpa [hp] using h)]

/-- Setting a value that a suffix has changes nothing. -/
theorem insert_of_get? (h : t.get? suffix = some value) : t.insert suffix value = t := by
  have hput : put suffix value t.entries = t.entries := put_of_find? h
  cases t
  simpa [insert] using hput

theorem insertAll_of_get? (h : ∀ p ∈ entries, t.get? p.1 = some p.2) : t.insertAll entries = t := by
  induction entries with
  | nil => rfl
  | cons p entries ih =>
    obtain ⟨hp, hentries⟩ := List.forall_mem_cons.1 h
    rw [insertAll, List.foldl_cons, insert_of_get? hp]
    exact ih hentries

/-- **Entries that are set at once again change nothing.** -/
theorem insertAll_again (t : ValueTable) (hd : (entries.map (·.1)).Nodup) :
    (t.insertAll entries).insertAll entries = t.insertAll entries := by
  refine insertAll_of_get? fun p hp => ?_
  rw [get?_insertAll]
  have hmem : p.2 ∈ (entries.filter (·.1 = p.1)).map (·.2) :=
    List.mem_map_of_mem (List.mem_filter.2 ⟨hp, decide_eq_true rfl⟩)
  have hlast := List.getLast?_eq_some_getLast (List.ne_nil_of_mem hmem)
  obtain ⟨q, hq, hvalue⟩ := List.mem_map.1 (List.getLast_mem (List.ne_nil_of_mem hmem))
  -- there is one entry for each suffix
  obtain ⟨hq, hsuffix⟩ := List.mem_filter.1 hq
  rw [hlast, ← hvalue, List.inj_on_of_nodup_map hd hq hp (of_decide_eq_true hsuffix), Option.some_or]

end ValueTable

/-- A table that has the suffixes already leads to the same classes. -/
theorem Utility.uses_of_prefix {t t' : ValueTable}
    (h : (t.insertAll entries).suffixes <+: t'.suffixes) :
    u.uses slot t' entries = u.uses slot t entries := by
  induction entries generalizing t t' with
  | nil => rfl
  | cons p entries ih =>
    have hprefix : (t.insert p.1 p.2).suffixes <+: t'.suffixes :=
      ((t.insert p.1 p.2).suffixes_prefix_insertAll entries).trans h
    have hordinal : t'.ordinal p.1 = t.ordinal p.1 := by
      rw [ValueTable.ordinal_of_prefix hprefix (t.mem_suffixes_insert p.1 p.2),
        ValueTable.ordinal_insert]
    have hrest : ((t.insert p.1 p.2).insertAll entries).suffixes <+: (t'.insert p.1 p.2).suffixes :=
      h.trans (t'.suffixes_prefix_insert p.1 p.2)
    rw [uses, uses, ih hrest, emission, emission, hordinal]

/-- **The classes of a use are emitted at the same ordinals** when it comes at once again. -/
theorem Utility.uses_again (u : Utility) (slot : SlotId) (t : ValueTable)
    (entries : List (String × Value)) :
    u.uses slot (t.insertAll entries) entries = u.uses slot t entries :=
  uses_of_prefix List.prefix_rfl

theorem Document.used_again {d : Document} {xs : List Emission} (mode : EmitMode)
    (h : d.AdmitsAll xs) (hw : (d.used mode xs).WellFormed) : ∃ warnings,
      (d.used mode xs).used mode xs = { d.used mode xs with warnings := warnings } := by
  cases mode with
  | eager => exact (h.absorbAll_again hw).1
  | onDemand => exact ⟨d.warnings, rfl⟩

namespace Engine

variable {e e' : Engine} {id : GeneratorId} {table : ValueTable} {bindings : List Binding}

/-! ## The answers of uses -/

/-- What a use of a utility answers for a suffix. -/
def bindingOf (d : Document) (mode : EmitMode) (u : Utility) (suffix : String) : Binding :=
  ⟨suffix, u.classOf suffix, match mode with
    | .eager => d.findSelector? Document.rootId (Css.classSelector (u.classOf suffix))
    | .onDemand => none⟩

theorem useEntries_onDemand (hm : e.mode = .onDemand) (hu : e.utility? id = some u)
    (hok : e.useEntries id entries = .ok (e', bindings)) :
    bindings = entries.map fun p => ⟨p.1, u.classOf p.1, none⟩ := by
  induction entries generalizing e bindings with
  | nil => exact (Prod.mk.inj (Except.ok.inj hok)).2.symm
  | cons p entries ih =>
    obtain ⟨v, table, slot, hg, e₁, binding, he, rest, hrest, rfl⟩ := useEntries_cons_eq_ok_iff.1 hok
    obtain ⟨table', slot', hg'⟩ := utility?_eq_some_iff.1 hu
    obtain ⟨rfl, rfl, rfl⟩ := Generator.utility.inj (Option.some.inj (hg.symm.trans hg'))
    have huse : e.useEntry id v table slot p.1 p.2 = .ok ({ e with
        generators := e.generators.set id (.utility v (table.insert p.1 p.2) slot)
        index := indexClass e.index (v.classOf p.1) id }, ⟨p.1, v.classOf p.1, none⟩) := by
      simp only [useEntry, hm]
      rfl
    obtain ⟨rfl, rfl⟩ := Prod.mk.inj (Except.ok.inj (huse.symm.trans he))
    refine congrArg _ (ih ?_ ?_ hrest)
    · exact hm
    · exact utility?_eq_some_iff.2 ⟨_, _, List.getElem?_set_self (List.getElem?_eq_some_iff.1 hg).1⟩

theorem Sound.bindings_eq (h : e.Sound) (hu : e.utility? id = some u)
    (hok : e.useEntries id entries = .ok (e', bindings)) :
    bindings = entries.map fun p => bindingOf e'.document e.mode u p.1 := by
  cases hm : e.mode with
  | onDemand => exact useEntries_onDemand hm hu hok
  | eager =>
    obtain ⟨e₂, bindings₂, hok₂, -, -, hsuffixes, hemitted⟩ := h.useEntries_eager hm hu entries
    obtain ⟨rfl, rfl⟩ := Prod.mk.inj (Except.ok.inj (hok₂.symm.trans hok))
    have hbinding : ∀ b ∈ bindings₂, b = bindingOf e₂.document .eager u b.suffix := by
      intro b hb
      obtain ⟨hname, c, hc, hfind⟩ := hemitted b hb
      rw [hname] at hfind
      rw [bindingOf, hfind, ← hname, ← hc]
    have hmap : (entries.map (·.1)).map (bindingOf e₂.document .eager u) = bindings₂ := by
      rw [← hsuffixes, List.map_map]
      conv_rhs => rw [← List.map_id bindings₂]
      exact List.map_congr_left fun b hb => (hbinding b hb).symm
    rw [← hmap, List.map_map]
    rfl

/-! ## The same once more -/

/-- The engine with other warnings of its document. -/
def reported (e : Engine) (warnings : List Warning) : Engine :=
  { e with document := { e.document with warnings := warnings } }

theorem indexClass_of_mem {index : List (String × GeneratorId)} {className : String}
    (h : (className, id) ∈ index) : indexClass index className id = index :=
  if_pos h

/-- Classes that are known are not listed again. -/
theorem foldl_indexClass_of_mem {index : List (String × GeneratorId)}
    (h : ∀ p ∈ entries, (u.classOf p.1, id) ∈ index) :
    entries.foldl (fun index p => indexClass index (u.classOf p.1) id) index = index := by
  induction entries with
  | nil => rfl
  | cons p entries ih =>
    obtain ⟨hp, hentries⟩ := List.forall_mem_cons.1 h
    rw [List.foldl_cons, indexClass_of_mem hp, ih hentries]

theorem Sound.useEntries_again (h : e.Sound) (hu : e.utility? id = some u)
    (hd : (entries.map (·.1)).Nodup) (hok : e.useEntries id entries = .ok (e', bindings)) :
    e'.utility? id = some u ∧
      ∃ warnings, e'.useEntries id entries = .ok (e'.reported warnings, bindings) := by
  have hsound := h.useEntries hok
  have hbindings := h.bindings_eq hu hok
  obtain ⟨table, slot, hg⟩ := utility?_eq_some_iff.1 hu
  obtain ⟨_, hok₁⟩ := h.useEntries_eq hg entries
  have he' := (Prod.mk.inj (Except.ok.inj (hok₁.symm.trans hok))).1
  have hg' : e'.generators[id]? = some (.utility u (table.insertAll entries) slot) := by
    rw [← he']
    exact List.getElem?_set_self (List.getElem?_eq_some_iff.1 hg).1
  have hu' : e'.utility? id = some u := utility?_eq_some_iff.2 ⟨_, _, hg'⟩
  have hmode : e'.mode = e.mode := by rw [← he']
  have hdocument : e'.document = e.document.used e.mode (u.uses slot table entries) := by rw [← he']
  obtain ⟨bindings', hok'⟩ := hsound.useEntries_eq hg' entries
  -- the table has the entries, the index lists the classes, and the classes were emitted
  have hgenerators : e'.generators.set id
      (.utility u ((table.insertAll entries).insertAll entries) slot) = e'.generators := by
    obtain ⟨hid, hget⟩ := List.getElem?_eq_some_iff.1 hg'
    rw [ValueTable.insertAll_again table hd, ← hget, List.set_getElem_self]
  have hindex : entries.foldl (fun index p => indexClass index (u.classOf p.1) id) e'.index =
      e'.index := by
    refine foldl_indexClass_of_mem fun p hp => ?_
    exact hsound.indexed.2 ⟨_, hg', Generator.mem_classes_of_mem_entries hp⟩
  have hused : ∃ warnings, e'.document.used e'.mode
      (u.uses slot (table.insertAll entries) entries) =
        { e'.document with warnings := warnings } := by
    have hw := hsound.document
    rw [hdocument] at hw
    rw [hdocument, hmode, Utility.uses_again]
    exact Document.used_again e.mode (h.admitsAll_uses hg entries) hw
  obtain ⟨warnings, hused⟩ := hused
  rw [hgenerators, hindex, hused] at hok'
  refine ⟨hu', warnings, hok'.trans ?_⟩
  -- what is found by a text does not depend on the warnings
  have hbindings' := hsound.bindings_eq hu' hok'
  rw [hbindings', hbindings, ← hmode]
  rfl

theorem Sound.generate_again (h : e.Sound) {token : String} {ids : List ContainerId}
    (hok : e.generate id token = .ok (e', ids)) :
    ∃ warnings, e'.generate id token = .ok (e'.reported warnings, ids) := by
  have hsound := h.generate hok
  cases hg : e.generators[id]? with
  | none => simp [Engine.generate, hg] at hok
  | some g =>
    obtain ⟨rfl, rfl⟩ := Prod.mk.inj (Except.ok.inj ((h.generate_eq hg token).symm.trans hok))
    have hadmits := (h.absorbAll (List.mem_of_getElem? hg) (@Generator.asked_subset g token)).1
    obtain ⟨⟨warnings, hagain⟩, hlandings⟩ := hadmits.absorbAll_again hsound.document
    refine ⟨warnings, (hsound.generate_eq hg token).trans ?_⟩
    rw [hagain, hlandings]
    rfl

/-- **The same use or the same token at once again changes nothing.** Whatever selectors classes share,
and in either mode, a use that succeeded answers with the same bindings when it comes once more, and a
token with the same containers. Nothing but the warnings of the document is another one. -/
theorem Arises.again (h : e.Arises) :
    (∀ id config e' bindings, e.useUtility id config = .ok (e', bindings) →
      ∃ warnings, e'.useUtility id config = .ok (e'.reported warnings, bindings)) ∧
    (∀ id token e' ids, e.generate id token = .ok (e', ids) →
      ∃ warnings, e'.generate id token = .ok (e'.reported warnings, ids)) := by
  refine ⟨fun id config e' bindings hok => ?_, fun id token e' ids => h.sound.generate_again⟩
  rw [useUtility_eq] at hok
  cases hu : e.utility? id with
  | none => simp [hu] at hok
  | some u =>
    rw [hu, Option.elim_some] at hok
    obtain ⟨hu', hagain⟩ := h.sound.useEntries_again hu (config.getD u.defaults).distinct hok
    rwa [useUtility_eq, hu', Option.elim_some]

/-- A utility, a rule of the user for one of its classes, and a recipe with two options of one name. -/
def crowded : Engine := (new "app" .eager).run [.addUtility (.ofProperty "m" "margin"),
  .selector Document.rootId ".m\\:sm" (.ofList [("padding", .literal "1px")]),
  .addRecipe ⟨"tag", ∅,
    [⟨"s", [("l-x", .ofList [("color", .literal "red"), ("gap", .literal "2px")])]⟩,
      ⟨"s-l", [("x", .ofList [("gap", .literal "4px"), ("color", .literal "blue")])]⟩], [], []⟩]

theorem again_crowded : crowded.Arises ∧
    (∃ e' bindings warnings, crowded.useUtility 0 (some padded) = .ok (e', bindings) ∧
      bindings.map (·.container) = [some 2, some 2, some 5] ∧
      e'.useUtility 0 (some padded) = .ok (e'.reported warnings, bindings)) ∧
    ∃ e' ids warnings, crowded.generate 1 "tag" = .ok (e', ids) ∧ ids = [3, 4, 4] ∧
      e'.generate 1 "tag" = .ok (e'.reported warnings, ids) := by
  have harises : crowded.Arises := (Arises.new "app" .eager).run _
  obtain ⟨huse, hgenerate⟩ := harises.again
  have hpadded : (crowded.useUtility 0 (some padded)).toOption.map
      (fun r => r.2.map (·.container)) = some [some 2, some 2, some 5] := by decide +kernel
  have htag : (crowded.generate 1 "tag").toOption.map (·.2) = some [3, 4, 4] := by decide +kernel
  refine ⟨harises, ?_, ?_⟩
  · cases hok : crowded.useUtility 0 (some padded) with
    | error cause => simp [hok, Except.toOption] at hpadded
    | ok r =>
      obtain ⟨warnings, hagain⟩ := huse 0 (some padded) r.1 r.2 hok
      rw [hok] at hpadded
      exact ⟨r.1, r.2, warnings, rfl, Option.some.inj hpadded, hagain⟩
  · cases hok : crowded.generate 1 "tag" with
    | error cause => simp [hok, Except.toOption] at htag
    | ok r =>
      obtain ⟨warnings, hagain⟩ := hgenerate 1 "tag" r.1 r.2 hok
      rw [hok] at htag
      exact ⟨r.1, r.2, warnings, rfl, Option.some.inj htag, hagain⟩

end Engine

end AtomicCss
