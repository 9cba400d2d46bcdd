import AtomicCss.Files.Tree
import AtomicCss.Proofs.Text

/-! # Paths of locations

Splitting a path undoes joining segments, so the path of a location leads back to its names. -/

namespace AtomicCss

namespace Path

variable {p s : String} {segs names rest : List String}

/-! ## Segments -/

theorem not_slash_mem_segments (h : s ∈ segments p) : '/' ∉ s.toList := by
  obtain ⟨f, hf, rfl⟩ := List.mem_map.1 h
  intro hs
  have := Text.not_mem_of_mem_fields hf '/' (by simpa using hs)
  simp at this

/-- **Splitting undoes joining.** -/
theorem segments_intercalate (hne : segs ≠ []) (h : ∀ s ∈ segs, '/' ∉ s.toList) :
    segments ("/".intercalate segs) = segs := by
  induction segs with
  | nil => exact absurd rfl hne
  | cons s segs ih =>
    have hs : ∀ c ∈ s.toList, (c == '/') = false := by
      intro c hc
      rw [beq_eq_false_iff_ne]
      rintro rfl
      exact h s List.mem_cons_self hc
    cases segs with
    | nil => simp [segments, Text.fields_of_none hs]
    | cons s' segs =>
      have hrest : ∀ x ∈ s' :: segs, '/' ∉ x.toList := by
        intro x hx
        exact h x (List.mem_cons_of_mem _ hx)
      have ih := ih (by simp) hrest
      have hlist : ("/".intercalate (s :: s' :: segs)).toList =
          s.toList ++ '/' :: ("/".intercalate (s' :: segs)).toList := by
        rw [String.intercalate_cons_cons]
        simp
      -- the first field ends at the first slash, and the rest is the joined rest
      rw [segments, hlist, Text.fields_append_cons hs (by rfl), List.map_cons, String.ofList_toList]
      exact congrArg _ ih

/-- An absolute path starts with an empty segment. -/
theorem segments_of_isAbsolute (h : isAbsolute p = true) :
    segments p = "" :: (segments p).tail := by
  unfold isAbsolute at h
  cases hp : p.toList with
  | nil => simp [hp] at h
  | cons c cs =>
    have hc : c = '/' := by simpa [hp] using h
    rw [segments, hp, hc, Text.fields, if_pos (by rfl)]
    rfl

theorem components_of_isAbsolute (h : isAbsolute p = true) :
    components p = "" :: (segments p).tail.filter (!isIdle ·) := by
  rw [components, segments_of_isAbsolute h]
  simp [h]

/-- Only the components of an absolute path have an empty one in front. -/
theorem isAbsolute_of_components (h : components p = "" :: segs) : isAbsolute p = true := by
  unfold components at h
  split at h
  · cases h
  · rename_i s rest _
    by_contra hrel
    rw [Bool.not_eq_true] at hrel
    by_cases hs : s = ""
    · -- what comes behind the first segment is never empty
      have hmem : "" ∈ rest.filter (!isIdle ·) := by
        simp only [hs, hrel, Bool.not_false, decide_true, Bool.and_self, if_true, List.nil_append] at h
        rw [h]
        exact List.mem_cons_self
      simpa [isIdle] using (List.mem_filter.1 hmem).2
    · simp [hs] at h

theorem ne_empty_of_isAbsolute (h : isAbsolute p = true) : p ≠ "" := by
  rintro rfl
  exact absurd h (by decide)

/-! ## Names -/

/-- A segment that names something in a directory. -/
structure IsName (s : String) : Prop where
  busy : isIdle s = false
  down : s ≠ ".."
  solid : '/' ∉ s.toList

/-- Segments without idle ones start with names exactly if these are their first ones. -/
theorem segmentsBehind_eq (hs : ∀ s ∈ segs, isIdle s = false)
    (h : segmentsBehind names segs = some rest) : segs = names ++ rest := by
  induction names generalizing segs with
  | nil =>
    rw [segmentsBehind] at h
    simpa using h
  | cons n names ih =>
    cases segs with
    | nil => simp [segmentsBehind] at h
    | cons s segs =>
      rw [segmentsBehind, if_neg (by simp [hs s List.mem_cons_self])] at h
      split at h
      · rename_i heq
        have hrest : ∀ x ∈ segs, isIdle x = false := by
          intro x hx
          exact hs x (List.mem_cons_of_mem _ hx)
        rw [heq, ih hrest h, List.cons_append]
      · cases h

end Path

namespace Location

variable {l root : Location}

theorem path_cons (s : String) (l : Location) : path (s :: l) = "/".intercalate ("" :: s :: l) := by
  rw [path, Path.ofSegments, if_neg (by simp)]

theorem isAbsolute_path (l : Location) : Path.isAbsolute l.path = true := by
  cases l with
  | nil => rfl
  | cons s l =>
    rw [path_cons, String.intercalate_cons_cons]
    simp [Path.isAbsolute]

theorem segments_path_cons {s : String} (h : ∀ x ∈ s :: l, Path.IsName x) :
    Path.segments (path (s :: l)) = "" :: s :: l := by
  rw [path_cons]
  apply Path.segments_intercalate
  · simp
  · intro x hx
    rcases List.mem_cons.1 hx with rfl | hx
    · simp
    · exact (h x hx).solid

/-- The components of its path are the names of a location. -/
theorem components_path (h : ∀ s ∈ l, Path.IsName s) : Path.components l.path = "" :: l := by
  cases l with
  | nil => decide
  | cons s l =>
    rw [Path.components_of_isAbsolute (isAbsolute_path _), segments_path_cons h, List.tail_cons,
      List.filter_eq_self.2]
    intro x hx
    simp [(h x hx).busy]

/-- What is below a directory by its path is below it by its names. -/
theorem prefix_of_below? {below : String} (h : ∀ s ∈ l, Path.IsName s)
    (hb : Path.below? root l.path = some below) : root <+: l := by
  cases l with
  | nil =>
    rw [Path.below?, if_pos (isAbsolute_path _)] at hb
    cases root with
    | nil => exact List.nil_prefix
    | cons n names =>
      have : Path.segments (path []) = ["", ""] := by decide
      simp [this, Path.segmentsBehind, Path.isIdle] at hb
  | cons s l =>
    rw [Path.below?, if_pos (isAbsolute_path _), segments_path_cons h] at hb
    obtain ⟨rest, hrest, -⟩ := Option.map_eq_some_iff.1 hb
    cases root with
    | nil => exact List.nil_prefix
    | cons n names =>
      rw [Path.segmentsBehind, if_pos (by decide)] at hrest
      have hbusy : ∀ x ∈ s :: l, Path.isIdle x = false := by
        intro x hx
        exact (h x hx).busy
      exact ⟨rest, (Path.segmentsBehind_eq hbusy hrest).symm⟩

end Location

end AtomicCss
