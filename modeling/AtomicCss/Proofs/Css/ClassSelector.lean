import AtomicCss.Proofs.Css.Identifier
import AtomicCss.Proofs.Selector.Cut

/-! # Class selectors in selector lists

The selector of a class is read as a selector list like any other. Escaping puts backslashes into it,
which a list is not read for, and leaves brackets, quotes and commas where they are. So the selector
is cut exactly where the name of the class is cut (`Css.nest_classSelector`). -/

namespace AtomicCss.Css

open Selector (Opening)

variable {o : Opening} {c : Char} {s t e : List Char}

theorem HasCode.inert (hc : HasCode c) : Opening.Inert c ∧ ∀ d ∈ codeEscape c, Opening.Inert d := by
  have hall : HasCode c → Opening.Inert c ∧ (codeEscape c).all (Opening.Inert ·) = true :=
    of_ascii (p := fun c => HasCode c → Opening.Inert c ∧ (codeEscape c).all (Opening.Inert ·) = true)
      (by decide) hc.toNat_lt
  refine (hall hc).imp_right fun hcode d hd => ?_
  exact of_decide_eq_true (List.all_eq_true.1 hcode d hd)

theorem next_backslash (ho : o.Proper) : o.next '\\' = o := Opening.next_of_inert ho (by decide)

/-- What spells a character opens and closes what the character does. -/
theorem Spells.after (h : Spells c e) (ho : o.Proper) : o.after e = o.next c := by
  cases h with
  | self _ => rfl
  | null =>
    have hnull : o.next '\x00' = o := Opening.next_of_inert ho (by decide)
    rw [hnull]
    exact Opening.after_of_inert ho (List.forall_mem_singleton.2 (by decide))
  | code hcode =>
    obtain ⟨hc, he⟩ := hcode.inert
    rw [Opening.next_of_inert ho hc, Opening.after_of_inert ho he]
  | mark _ _ _ =>
    rw [Opening.after_cons, next_backslash ho]
    rfl

theorem Spells.uncut_iff (h : Spells c e) (ho : o.Proper) :
    o.Uncut e ↔ ¬(o = .nothing ∧ c = ',') := by
  cases h with
  | self _ => exact and_iff_left trivial
  | null =>
    have hkept : Opening.Inert '\uFFFD' := by decide
    exact iff_of_true (Opening.uncut_of_inert (List.forall_mem_singleton.2 hkept))
      fun h => absurd h.2 (by decide)
  | code hcode =>
    obtain ⟨hc, he⟩ := hcode.inert
    refine iff_of_true (Opening.uncut_of_inert he) ?_
    rintro ⟨-, rfl⟩
    exact absurd hc (by decide)
  | mark _ _ _ =>
    simp [Opening.Uncut, next_backslash ho]

/-- An identifier is cut nowhere if its text is cut nowhere. -/
theorem Spelled.uncut_iff (h : Spelled s t) (ho : o.Proper) : o.Uncut t ↔ o.Uncut s := by
  induction h generalizing o with
  | nil => rfl
  | cons head _ ih =>
    rw [Opening.uncut_append, head.uncut_iff ho, head.after ho, ih (ho.next _)]
    rfl

theorem toList_trimmed_classSelector (className : String) :
    (Text.trimmed (classSelector className)).toList =
      '.' :: Text.dropEndWhile Text.isBlank (escapeIdentifier className.toList) := by
  have hdot : Text.isBlank '.' = false := by decide
  rw [Text.trimmed, classSelector, String.toList_ofList, String.toList_ofList, Text.trim,
    List.dropWhile_cons_of_neg (by simp [hdot]), Text.dropEndWhile_cons hdot]

theorem uncut_trimmed_classSelector (className : String) :
    Opening.nothing.Uncut (Text.trimmed (classSelector className)).toList ↔
      Opening.nothing.Uncut className.toList := by
  obtain ⟨back, hback, hblank⟩ :=
    Text.exists_dropEndWhile Text.isBlank (escapeIdentifier className.toList)
  have hspelled := (spelled_escapeIdentifier className.toList).uncut_iff Opening.proper_nothing
  rw [hback, Opening.uncut_append] at hspelled
  rw [toList_trimmed_classSelector, ← hspelled, Opening.Uncut]
  have hrest {o : Opening} : o.Uncut back :=
    Opening.uncut_of_not_mem fun h => absurd (hblank ',' h) (by decide)
  exact (and_iff_right fun h => absurd h.2 (by decide)).trans (and_iff_left hrest).symm

/-- **A class is one selector if its name is one.** The selector of a class stands unchanged in its
own list if and only if the name of the class is cut nowhere, and it is the only one there. That is so
for every name without commas. -/
theorem nest_classSelector (className : String) :
    (Text.trimmed (classSelector className) ∈
        Selector.nest none (Text.trimmed (classSelector className)) ↔
      Selector.cut 0 none className.toList = [className.toList]) ∧
    (Selector.nest none (Text.trimmed (classSelector className)) =
        [Text.trimmed (classSelector className)] ↔
      Selector.cut 0 none className.toList = [className.toList]) ∧
    (',' ∉ className.toList → Selector.nest none (Text.trimmed (classSelector className)) =
      [Text.trimmed (classSelector className)]) := by
  have hcut := uncut_trimmed_classSelector className
  have htrim : Text.trim (Text.trimmed (classSelector className)).toList =
      (Text.trimmed (classSelector className)).toList := by
    rw [Text.trimmed, String.toList_ofList, Text.trim_trim]
  have hne : Text.trimmed (classSelector className) ≠ "" := by
    intro hempty
    have hnil := congrArg String.toList hempty
    rw [toList_trimmed_classSelector] at hnil
    cases hnil
  generalize Text.trimmed (classSelector className) = text at hcut htrim hne
  have hname : Selector.cut 0 none className.toList = [className.toList] ↔
      Opening.nothing.Uncut text.toList := Opening.uncut_iff.symm.trans hcut.symm
  have hone (h : Opening.nothing.Uncut text.toList) : Selector.nest none text = [text] :=
    Selector.splitList_of_uncut htrim hne h
  rw [hname]
  refine ⟨⟨Selector.uncut_of_mem_splitList, ?_⟩, ⟨Selector.uncut_of_splitList_eq, hone⟩, ?_⟩
  · intro h
    rw [hone h]
    exact List.mem_singleton_self text
  · intro hcomma
    exact hone (hcut.2 (Opening.uncut_of_not_mem hcomma))

example : Selector.nest none (Text.trimmed (classSelector "w:1,2")) = [".w\\:1\\", "2"] := by
  decide +kernel

end AtomicCss.Css
