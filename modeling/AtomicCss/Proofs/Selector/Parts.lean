import AtomicCss.Proofs.Selector.Cut
import Mathlib.Data.List.Basic

/-! # The parts of selector lists

A list is cut where nothing is open. So its parts are cut nowhere, and all but the last one close what they
open (`separate_of_cut`), however malformed the list is. This stays so when the parts are trimmed and
the empty ones are left out, and a list that is written of such parts has these again
(`splitList_intercalate`). So the selectors of a list are a normal form of it (`splitList_normal`). -/

namespace AtomicCss.Selector

variable {o : Opening} {s t f : List Char} {fs gs : List (List Char)}

namespace Opening

theorem after_append : o.after (s ++ t) = (o.after s).after t := List.foldl_append

theorem Proper.after (ho : o.Proper) (s : List Char) : (o.after s).Proper := by
  induction s generalizing o with
  | nil => exact ho
  | cons c s ih => exact ih (ho.next c)

/-- Blanks at the ends of a text open and close nothing. -/
theorem after_trim (ho : o.Proper) (s : List Char) : o.after (Text.trim s) = o.after s := by
  obtain ⟨front, back, hs, hfront, hback⟩ := Text.exists_trim s
  conv_rhs => rw [hs]
  rw [after_append, after_append, after_of_inert ho fun c hc => inert_of_isBlank (hfront c hc),
    after_of_inert (ho.after _) fun c hc => inert_of_isBlank (hback c hc)]

theorem Uncut.trim (ho : o.Proper) (h : o.Uncut s) : o.Uncut (Text.trim s) := by
  obtain ⟨front, back, hs, hfront, -⟩ := Text.exists_trim s
  rw [hs, uncut_append, uncut_append,
    after_of_inert ho fun c hc => inert_of_isBlank (hfront c hc)] at h
  exact h.1.2

end Opening

/-! ## Parts that do not interfere -/

/-- The parts are cut nowhere, and nothing is open behind a part that another one follows. -/
structure Separate (fs : List (List Char)) : Prop where
  uncut : ∀ f ∈ fs, Opening.nothing.Uncut f
  closed : fs.Pairwise fun f _ => Opening.nothing.after f = .nothing

theorem separate_cons_iff : Separate (f :: fs) ↔
    (Opening.nothing.Uncut f ∧ ∀ g ∈ fs, Opening.nothing.after f = .nothing) ∧ Separate fs := by
  constructor
  · rintro ⟨huncut, hclosed⟩
    obtain ⟨hf, hfs⟩ := List.forall_mem_cons.1 huncut
    obtain ⟨hfclosed, hfsclosed⟩ := List.pairwise_cons.1 hclosed
    exact ⟨⟨hf, hfclosed⟩, hfs, hfsclosed⟩
  · rintro ⟨⟨hf, hfclosed⟩, hfs⟩
    exact ⟨List.forall_mem_cons.2 ⟨hf, hfs.uncut⟩, List.pairwise_cons.2 ⟨hfclosed, hfs.closed⟩⟩

/-- What a cut says of the first part, with what is open in front of the text, and of the others. -/
theorem separate_of_cut (h : o.cut s = f :: fs) :
    (o.Uncut f ∧ ∀ g ∈ fs, o.after f = .nothing) ∧ Separate fs := by
  induction s generalizing o f fs with
  | nil =>
    rw [Opening.cut_nil, List.cons.injEq] at h
    obtain ⟨rfl, rfl⟩ := h
    exact ⟨⟨trivial, by simp⟩, by simp, .nil⟩
  | cons c s ih =>
    by_cases hc : o = .nothing ∧ c = ','
    · rw [Opening.cut_cons, if_pos hc, List.cons.injEq] at h
      obtain ⟨rfl, rfl⟩ := h
      obtain ⟨g, gs, hg⟩ := Opening.exists_cut .nothing s
      rw [hg]
      exact ⟨⟨trivial, fun _ _ => hc.1⟩, separate_cons_iff.2 (ih hg)⟩
    · obtain ⟨g, gs, hg⟩ := Opening.exists_cut (o.next c) s
      rw [Opening.cut_cons_of_not hc hg, List.cons.injEq] at h
      obtain ⟨rfl, rfl⟩ := h
      obtain ⟨⟨huncut, hclosed⟩, hrest⟩ := ih hg
      exact ⟨⟨⟨hc, huncut⟩, hclosed⟩, hrest⟩

/-- **Where a text is cut, nothing is open.** -/
theorem separate_cut (s : List Char) : Separate (Opening.nothing.cut s) := by
  obtain ⟨f, fs, h⟩ := Opening.exists_cut .nothing s
  rw [h, separate_cons_iff]
  exact separate_of_cut h

/-- Nothing but the commas between its parts is lost of a text. -/
theorem intercalate_cut (o : Opening) (s : List Char) : [','].intercalate (o.cut s) = s := by
  induction s generalizing o with
  | nil => rfl
  | cons c s ih =>
    by_cases hc : o = .nothing ∧ c = ','
    · obtain ⟨g, gs, hg⟩ := Opening.exists_cut .nothing s
      rw [Opening.cut_cons, if_pos hc, hg, List.intercalate_cons_cons, ← hg, ih, hc.2]
      rfl
    · obtain ⟨g, gs, hg⟩ := Opening.exists_cut (o.next c) s
      have hcons : [','].intercalate ((c :: g) :: gs) = c :: [','].intercalate (g :: gs) := by
        cases gs <;> simp [List.intercalate]
      rw [Opening.cut_cons_of_not hc hg, hcons, ← hg, ih]

namespace Separate

/-- Separate parts are found again between commas. -/
theorem cut_intercalate (h : Separate fs) (hne : fs ≠ []) :
    Opening.nothing.cut ([','].intercalate fs) = fs := by
  induction fs with
  | nil => exact absurd rfl hne
  | cons f fs ih =>
    obtain ⟨⟨huncut, hclosed⟩, hfs⟩ := separate_cons_iff.1 h
    cases fs with
    | nil =>
      rw [List.intercalate_singleton]
      exact Opening.uncut_iff.1 huncut
    | cons g fs =>
      rw [List.intercalate_cons_cons, List.append_assoc, List.singleton_append,
        Opening.cut_append_comma huncut (hclosed g List.mem_cons_self), ih hfs (List.cons_ne_nil g fs)]

theorem sublist (h : Separate fs) (hs : gs.Sublist fs) : Separate gs where
  uncut g hg := h.uncut g (hs.subset hg)
  closed := h.closed.sublist hs

/-- A change of the parts that keeps what is open behind them. -/
theorem map (h : Separate fs) {φ : List Char → List Char}
    (huncut : ∀ f, Opening.nothing.Uncut f → Opening.nothing.Uncut (φ f))
    (hafter : ∀ f, Opening.nothing.after (φ f) = Opening.nothing.after f) : Separate (fs.map φ) where
  uncut := List.forall_mem_map.2 fun f hf => huncut f (h.uncut f hf)
  closed := List.pairwise_map.2 (h.closed.imp fun {f _} hf => (hafter f).trans hf)

theorem trim (h : Separate fs) : Separate (fs.map Text.trim) :=
  h.map (fun _ => .trim Opening.proper_nothing) (Opening.after_trim Opening.proper_nothing)

/-- A blank in front of a part changes nothing. -/
theorem spaced (h : Separate fs) : Separate (fs.map (' ' :: ·)) :=
  h.map (fun _ hf => ⟨by decide, hf⟩) fun _ => rfl

end Separate

/-! ## The selectors of a list -/

variable {parts ss : List String}

/-- The selectors of a list are its parts, trimmed, without the empty ones. -/
theorem splitList_of_separate (h : Separate (parts.map String.toList)) (hne : parts ≠ []) :
    splitList (",".intercalate parts) = (parts.map Text.trimmed).filter (· ≠ "") := by
  have hcut : Opening.nothing.cut (",".intercalate parts).toList = parts.map String.toList := by
    rw [String.toList_intercalate]
    exact h.cut_intercalate (by simpa using hne)
  have hkeep (s : String) : (!(Text.trim s.toList).isEmpty) = decide (Text.trimmed s ≠ "") := by
    rw [Bool.eq_iff_iff]
    simp [Text.trimmed]
  rw [splitList_eq, hcut]
  simp only [List.map_map, List.filter_map, Function.comp_def, hkeep]
  rfl

/-- A text is made of separate parts. -/
theorem exists_parts (text : String) : ∃ parts, parts ≠ [] ∧ ",".intercalate parts = text ∧
    Separate (parts.map String.toList) := by
  have hparts : ((Opening.nothing.cut text.toList).map String.ofList).map String.toList =
      Opening.nothing.cut text.toList := by
    rw [List.map_map]
    exact List.map_id'' (fun _ => String.toList_ofList) _
  refine ⟨(Opening.nothing.cut text.toList).map String.ofList, ?_, ?_, ?_⟩
  · simpa using Opening.cut_ne_nil _ _
  · rw [← String.toList_inj, String.toList_intercalate, hparts]
    exact intercalate_cut _ _
  · rw [hparts]
    exact separate_cut _

theorem intercalate_spaced (s : String) (ss : List String) :
    ", ".intercalate (s :: ss) = ",".intercalate (s :: ss.map (" " ++ ·)) := by
  induction ss generalizing s with
  | nil => rfl
  | cons s' ss ih =>
    rw [String.intercalate_cons_cons, List.map_cons, String.intercalate_cons_cons, ih,
      String.intercalate_cons_append, ← String.append_assoc]
    congr 1
    rw [String.append_assoc]
    rfl

theorem trimmed_spaced (s : String) : Text.trimmed (" " ++ s) = Text.trimmed s := by
  rw [Text.trimmed, String.toList_append]
  rfl

/-- **Selectors that do not interfere are read back** from the list that is written of them. -/
theorem splitList_intercalate (h : Separate (ss.map String.toList))
    (hself : ∀ s ∈ ss, s ≠ "" ∧ Text.trimmed s = s) : splitList (", ".intercalate ss) = ss := by
  cases ss with
  | nil => rfl
  | cons s ss =>
    have hspaced : Separate ((s :: ss.map (" " ++ ·)).map String.toList) := by
      have hss : (ss.map (" " ++ ·)).map String.toList = (ss.map String.toList).map (' ' :: ·) := by
        simp
      rw [List.map_cons, separate_cons_iff] at h
      rw [List.map_cons, separate_cons_iff, hss]
      exact ⟨⟨h.1.1, by simpa using h.1.2⟩, h.2.spaced⟩
    have htrimmed : (s :: ss.map (" " ++ ·)).map Text.trimmed = (s :: ss).map Text.trimmed := by
      simp [trimmed_spaced]
    have hself' : (s :: ss).map Text.trimmed = s :: ss := by
      conv_rhs => rw [← List.map_id (s :: ss)]
      exact List.map_congr_left fun s hs => (hself s hs).2
    rw [intercalate_spaced, splitList_of_separate hspaced (by simp), htrimmed, hself',
      List.filter_eq_self]
    intro s hs
    simpa using (hself s hs).1

/-- **The selectors of a list are a normal form of it**, however malformed the list is. It is made of
parts between commas that are cut nowhere, and nothing is open behind any of them but the last one. The
selectors are these parts, trimmed, without the empty ones. Each of them is the only selector of its
text, and the list that is written of them has the same ones. -/
theorem splitList_normal (text : String) :
    (∃ parts, ",".intercalate parts = text ∧ Separate (parts.map String.toList) ∧
      splitList text = (parts.map Text.trimmed).filter (· ≠ "")) ∧
    (∀ s ∈ splitList text, s ≠ "" ∧ Text.trimmed s = s ∧ splitList s = [s]) ∧
    splitList (", ".intercalate (splitList text)) = splitList text := by
  obtain ⟨parts, hne, rfl, hparts⟩ := exists_parts text
  have hlist := splitList_of_separate hparts hne
  have hself : ∀ s ∈ splitList (",".intercalate parts), s ≠ "" ∧ Text.trimmed s = s := by
    intro s hs
    rw [hlist] at hs
    obtain ⟨hmem, hs⟩ := List.mem_filter.1 hs
    obtain ⟨part, -, rfl⟩ := List.mem_map.1 hmem
    exact ⟨of_decide_eq_true hs, Text.trimmed_trimmed part⟩
  have hseparate : Separate ((splitList (",".intercalate parts)).map String.toList) := by
    have htrim : (parts.map Text.trimmed).map String.toList =
        (parts.map String.toList).map Text.trim := by
      simp [Text.trimmed, Function.comp_def]
    rw [hlist]
    refine hparts.trim.sublist ?_
    rw [← htrim]
    exact (List.filter_sublist).map _
  refine ⟨⟨parts, rfl, hparts, hlist⟩, ?_, splitList_intercalate hseparate hself⟩
  intro s hs
  obtain ⟨hempty, htrimmed⟩ := hself s hs
  rw [Text.trimmed, ← String.toList_inj, String.toList_ofList] at htrimmed
  have huncut := hseparate.uncut s.toList (List.mem_map_of_mem hs)
  exact ⟨hempty, (hself s hs).2, splitList_of_uncut htrimmed hempty huncut⟩

/-- A list with a bracket that closes nothing, an empty part, and a quote that stays open. -/
theorem splitList_normal_unclosed :
    let text := ") a,, [b, c) :is(d,  e ) , \"f, g"
    splitList text = [") a", "[b, c) :is(d,  e )", "\"f, g"] ∧
    splitList "\"f, g" = ["\"f, g"] ∧
    splitList ") a, [b, c) :is(d,  e ), \"f, g" = [") a", "[b, c) :is(d,  e )", "\"f, g"] := by
  intro text
  have hlist : splitList text = [") a", "[b, c) :is(d,  e )", "\"f, g"] := by decide +kernel
  obtain ⟨-, hself, hagain⟩ := splitList_normal text
  refine ⟨hlist, (hself "\"f, g" (by simp [hlist])).2.2, ?_⟩
  rwa [hlist] at hagain

end AtomicCss.Selector
