import AtomicCss.Proofs.Usage.Scanner
import AtomicCss.Proofs.Usage.Token
import Mathlib

/-! # What records know

A record tells the truth about some earlier state of its file: the file had that content, and these
are its tokens. As long as a file of the same time and size still reads as it did, a scan finds the
tokens of the content that is there now. -/

namespace AtomicCss.Usage

theorem mem_distinctTokens {files : List (String × List String)} {x : String} :
    x ∈ distinctTokens files ↔ ∃ f ∈ files, x ∈ f.2 := by
  rw [distinctTokens, mem_eraseReps, List.mem_mergeSort, List.mem_flatMap]

variable {trees trees' : List FileTree} {t : FileTree} {r : UsageRecord}

/-- The record's file had that content at that time in one of the trees, and these are the tokens of
the content. -/
structure Recorded (trees : List FileTree) (r : UsageRecord) : Prop where
  tokens : r.tokens = Scanner.contentTokens r.content
  seen : ∃ t ∈ trees, ∃ path, Path.components path = Path.components r.path ∧
    t.lookup path = .ok (.file r.content r.written)

/-- Time and size of a file tell what reading gives: a content, or nothing if the file is locked. -/
def Faithful (trees : List FileTree) : Prop :=
  ∀ t ∈ trees, ∀ t' ∈ trees, ∀ l e e', t.at? l = some e → t'.at? l = some e' →
    e.metadata? = e'.metadata? → e.content? = e'.content?

/-- It is enough to compare the entries of all trees with each other. -/
theorem faithful_of_entries (known : List (Location × FileEntry))
    (hentries : ∀ t ∈ trees, t.entries ⊆ known)
    (hknown : ∀ x ∈ known, ∀ y ∈ known, x.1 = y.1 → x.2.metadata? = y.2.metadata? →
      x.2.content? = y.2.content?) : Faithful trees := by
  intro t ht t' ht' l e e' hat hat' hsame
  by_cases hl : l = []
  · subst hl
    obtain rfl := Option.some.inj hat
    obtain rfl := Option.some.inj hat'
    rfl
  · exact hknown (l, e) (hentries t ht (FileTree.mem_entries_of_at? hl hat)) (l, e')
      (hentries t' ht' (FileTree.mem_entries_of_at? hl hat')) rfl hsame

/-- What a record knows of a content file. -/
theorem Recorded.at? {l : Location} (h : Recorded trees r)
    (hl : ∀ s ∈ l, Path.IsName s) (hr : Path.components r.path = Path.components l.path) :
    ∃ t ∈ trees, t.at? l = some (.file r.content r.written) := by
  obtain ⟨t, ht, path, hpath, hlookup⟩ := h.seen
  obtain ⟨l', hl', hat⟩ := FileTree.lookup_eq_ok hlookup
  rw [hr, Location.components_path hl] at hpath
  have habsolute := Path.isAbsolute_of_components hpath
  -- a step upwards would be among the names of the location
  have hdown : ".." ∉ Path.segments path := by
    intro hmem
    rw [Path.components_of_isAbsolute habsolute] at hpath
    rw [Path.segments_of_isAbsolute habsolute] at hmem
    rcases List.mem_cons.1 hmem with hmem | hmem
    · exact absurd hmem (by decide)
    · have hmeml : ".." ∈ l := by
        rw [← (List.cons.inj hpath).2]
        exact List.mem_filter.2 ⟨hmem, by decide⟩
      exact (hl _ hmeml).down rfl
  have hsame := (FileTree.components_of_locate habsolute hdown hl').symm.trans hpath
  rw [(List.cons.inj hsame).2] at hat
  exact ⟨t, ht, hat⟩

namespace Scanner

variable {s : Scanner} {path : String} {paths : List String} {force : Bool}

/-- Every record tells the truth about one of the trees. -/
def Honest (trees : List FileTree) (s : Scanner) : Prop := ∀ r ∈ s.records, Recorded trees r

/-- What a scanner relies on: a file of the time and the size of its record reads as it did then. -/
def Trusts (s : Scanner) (t : FileTree) : Prop :=
  ∀ r ∈ s.records, ∀ l e, Path.components l.path = Path.components r.path → t.at? l = some e →
    e.metadata? = some (r.written, r.content.size) → e.content? = some r.content

namespace Honest

theorem mono (h : s.Honest trees) (hsub : trees ⊆ trees') : s.Honest trees' := by
  intro r hr
  obtain ⟨t, ht, hseen⟩ := (h r hr).seen
  exact ⟨(h r hr).tokens, t, hsub ht, hseen⟩

theorem of_subset {s' : Scanner} (h : s.Honest trees) (hsub : s'.records ⊆ s.records) :
    s'.Honest trees := by
  intro r hr
  exact h r (hsub hr)

theorem scanFile (h : s.Honest trees) (ht : t ∈ trees) (path : String)
    (hr : (s.scanFile t force path).record? = some r) : Recorded trees r := by
  cases hread : t.read path with
  | ok content =>
    obtain ⟨written, hl⟩ := FileTree.lookup_of_read hread
    rcases scanFile_file (s := s) force hl with
      ⟨r', heq, -, hr', -⟩ | ⟨r', heq, hr', hc⟩ | heq
    · rw [heq] at hr
      obtain rfl := Option.some.inj hr
      exact h _ (record?_eq_some hr').1
    · rw [heq] at hr
      obtain rfl := Option.some.inj hr
      obtain ⟨hmem, hpath⟩ := record?_eq_some hr'
      rw [← hc] at hl
      exact ⟨(h _ hmem).tokens, t, ht, path, hpath.symm, hl⟩
    · rw [heq] at hr
      obtain rfl := Option.some.inj hr
      exact ⟨rfl, t, ht, path, rfl, hl⟩
  | error cause =>
    rcases scanFile_unread (s := s) force hread with heq | ⟨r', content, heq, -, hr', -⟩
    · rw [heq] at hr
      cases hr
    · rw [heq] at hr
      obtain rfl := Option.some.inj hr
      exact h _ (record?_eq_some hr').1

theorem settled (h : s.Honest trees) (ht : t ∈ trees) (paths : List String) (force : Bool) :
    ∀ r ∈ (s.settled t paths force).1, Recorded trees r := by
  rw [settled_fst]
  -- the outcomes were settled before any record changed, so each is judged by `s`
  have hfold (records : List UsageRecord) (hrecords : ∀ r ∈ records, Recorded trees r) :
      ∀ r ∈ paths.foldl (fun records p => (s.scanFile t force p).update records) records,
        Recorded trees r := by
    induction paths generalizing records with
    | nil => exact hrecords
    | cons p paths ih =>
      apply ih
      intro r hr
      rcases Outcome.mem_of_mem_update hr with hr | hr
      · exact hrecords r hr
      · exact h.scanFile ht p hr
  exact hfold s.records h

theorem scanFiles (h : s.Honest trees) (ht : t ∈ trees) (paths : List String) (force : Bool) :
    (s.scanFiles t paths force).1.Honest trees := by
  rw [scanFiles_eq]
  split
  · exact h
  · exact h.settled ht paths force

theorem scan (h : s.Honest trees) (ht : t ∈ trees) : (s.scan t).1.Honest trees := by
  rw [scan_eq]
  split
  · exact h
  · exact h.settled ht _ false

theorem ran {s' : Scanner} (h : s.Honest trees) (ht : t ∈ trees) (hran : s.Ran t s') :
    s'.Honest trees := by
  induction hran with
  | refl => exact h
  | tail _ hcall ih =>
    obtain ⟨call, rfl⟩ := hcall
    cases call with
    | scan => exact ih.scan ht
    | scanPaths paths => exact ih.scanFiles ht _ true
    | forget path =>
      apply ih.of_subset
      intro r hr
      exact (List.mem_filter.1 hr).1
    | invalidate => exact ih.of_subset (List.nil_subset _)
    | resetCancel => exact ih

/-- If time and size tell what reading gives, honest records can be relied on. -/
theorem trusts (h : s.Honest trees) (ht : t ∈ trees) (hp : t.Proper) (hf : Faithful trees) :
    s.Trusts t := by
  intro r hr l e hpath hat hsame
  have hl : t.Walkable l := hp.walkable (Option.isSome_of_eq_some hat)
  obtain ⟨t', ht', hat'⟩ := (h r hr).at? hl.names hpath.symm
  exact (hf t' ht' t ht l _ _ hat' hat hsame.symm).symm

/-- Looking at a content file leads to the tokens of its content. -/
theorem tokens_scanFile (h : s.Honest trees) {l : Location} {content : ByteArray}
    {written : WriteTime} (hl : t.Walkable l) (hat : t.at? l = some (.file content written))
    (force : Bool) (hf : force = true ∨ s.Trusts t) :
    ∃ r, (s.scanFile t force l.path).record? = some r ∧ r.tokens = contentTokens content := by
  rcases scanFile_file (s := s) force (hl.lookup_path hat) with
    ⟨r, heq, hforce, hr, hwritten, hsize⟩ | ⟨r, heq, hr, hc⟩ | heq
  · obtain ⟨hmem, hpath⟩ := record?_eq_some hr
    refine ⟨r, ?_, ?_⟩
    · rw [heq]
      rfl
    -- the record is of the same time and size as the file, so of the same content
    rcases hf with hf | hf
    · simp [hf] at hforce
    · have hsame := hf r hmem l _ hpath.symm hat (by simp [FileEntry.metadata?, hwritten, hsize])
      rw [(h r hmem).tokens, Option.some.inj hsame]
  · refine ⟨{ r with written }, ?_, ?_⟩
    · rw [heq]
      rfl
    · rw [← hc]
      exact (h r (record?_eq_some hr).1).tokens
  · refine ⟨⟨l.path, written, content, contentTokens content⟩, ?_, rfl⟩
    rw [heq]
    rfl

end Honest

/-- What cannot be read is skipped: a record of its time and size would not read as it did. -/
theorem Trusts.scanFile_unread (hf : s.Trusts t) {l : Location} (hl : t.Walkable l)
    {cause : IoError} (hread : t.read l.path = .error cause) :
    s.scanFile t force l.path = .skipped (.unreadable l.path cause) := by
  rcases Scanner.scanFile_unread (s := s) force hread with heq | ⟨r, content, -, -, hr, hlookup, hsize⟩
  · exact heq
  · obtain ⟨hmem, hpath⟩ := record?_eq_some hr
    obtain ⟨l', hl', hat⟩ := FileTree.lookup_eq_ok hlookup
    rw [hl.locate_path] at hl'
    obtain rfl := Except.ok.inj hl'
    cases hf r hmem l _ hpath.symm hat (by simp [FileEntry.metadata?, hsize])

/-! ## The content that is there -/

variable {l : Location} {content : ByteArray} {written : WriteTime} {result : ScanResult}
  {x : String}

/-- A content file that can be read, with its content. -/
def Holds (s : Scanner) (t : FileTree) (l : Location) (content : ByteArray) : Prop :=
  s.isContent l.path = true ∧ ∃ written, t.at? l = some (.file content written)

theorem SameFiles.holds {s' : Scanner} (h : s.SameFiles s') :
    s'.Holds t l content ↔ s.Holds t l content := by
  rw [Holds, Holds, h.isContent]

theorem resolvePath_path (h : t.Walkable l) : s.resolvePath t l.path = l.path := by
  rw [resolvePath, Path.join, if_pos (Location.isAbsolute_path l), h.locate_path]

theorem mem_walkFrom {root : Location} {x : Location × FileEntry} (h : x ∈ t.walkFrom root) :
    t.at? x.1 = some x.2 ∨ x ∈ t.entries := by
  rcases List.mem_append.1 h with h | h
  · obtain ⟨e, he, rfl⟩ := List.mem_map.1 h
    exact .inl (Option.mem_toList.1 he)
  · exact .inr (List.mem_filter.1 h).1

theorem walkable_of_mem_walkFrom (hp : t.Proper) {root : Location} {e : FileEntry}
    (h : (l, e) ∈ t.walkFrom root) : t.Walkable l := by
  rcases mem_walkFrom h with hat | hmem
  · exact hp.walkable (Option.isSome_of_eq_some hat)
  · exact hp l e hmem

theorem mem_walkFrom_of_at? {root : Location} {e : FileEntry} (hl : l ≠ []) (hat : t.at? l = some e)
    (hroot : root <+: l) : (l, e) ∈ t.walkFrom root := by
  by_cases heq : l = root
  · subst heq
    apply List.mem_append_left
    rw [hat]
    exact List.mem_singleton.2 rfl
  · apply List.mem_append_right
    refine List.mem_filter.2 ⟨FileTree.mem_entries_of_at? hl hat, ?_⟩
    simp [hroot, heq]

theorem found?_eq_some {x : Location × FileEntry} {i : Nat} (h : s.found? x = some (i, l)) :
    l = x.1 ∧ s.isContent l.path = true := by
  obtain ⟨l', e⟩ := x
  cases e with
  | directory => cases h
  | file content written =>
    obtain ⟨j, hj, heq⟩ := Option.map_eq_some_iff.1 h
    obtain ⟨rfl, rfl⟩ := Prod.mk.inj heq
    exact ⟨rfl, Option.isSome_of_eq_some hj⟩
  | locked content written =>
    obtain ⟨j, hj, heq⟩ := Option.map_eq_some_iff.1 h
    obtain ⟨rfl, rfl⟩ := Prod.mk.inj heq
    exact ⟨rfl, Option.isSome_of_eq_some hj⟩

/-- A content file is found on the walk from the root. -/
theorem Holds.found (h : s.Holds t l content) (hl : t.Walkable l) :
    ∃ i, (i, l) ∈ (t.walkFrom s.root).filterMap s.found? := by
  obtain ⟨hc, written, hat⟩ := h
  obtain ⟨i, hi⟩ := Option.isSome_iff_exists.1 hc
  obtain ⟨below, hb, -⟩ := Option.bind_eq_some_iff.1 hi
  refine ⟨i, List.mem_filterMap.2 ⟨(l, .file content written), ?_, ?_⟩⟩
  · refine mem_walkFrom_of_at? ?_ hat (Location.prefix_of_below? hl.names hb)
    rintro rfl
    simp [FileTree.at?] at hat
  · simp [found?, hi]

/-- A walk finds the content files. -/
theorem mem_content (hp : t.Proper) :
    (∀ p ∈ (s.content t).1, ∃ l, t.Walkable l ∧ s.isContent l.path = true ∧ l.path = p) ∧
      ∀ l content, s.Holds t l content → l.path ∈ (s.content t).1 := by
  have hwalkable {l : Location} {content : ByteArray} (h : s.Holds t l content) : t.Walkable l :=
    hp.walkable (Option.isSome_of_eq_some h.2.choose_spec)
  unfold Scanner.content
  cases hroot : t.locate s.rootPath with
  | error cause =>
    refine ⟨by simp, fun l content hl => ?_⟩
    -- the way to a content file leads through the root
    obtain ⟨i, hi⟩ := Option.isSome_iff_exists.1 hl.1
    obtain ⟨below, hb, -⟩ := Option.bind_eq_some_iff.1 hi
    have hthere := hwalkable hl
    have hwalk := hthere.of_prefix (Location.prefix_of_below? hthere.names hb)
    rw [rootPath, hwalk.locate_path] at hroot
    cases hroot
  | ok root =>
    simp only [List.mem_map, List.mem_mergeSort]
    constructor
    · rintro p ⟨⟨i, l⟩, hmem, rfl⟩
      obtain ⟨⟨l', e⟩, hmet, hfound⟩ := List.mem_filterMap.1 hmem
      obtain ⟨rfl, hc⟩ := found?_eq_some hfound
      exact ⟨l, walkable_of_mem_walkFrom hp hmet, hc, rfl⟩
    · intro l content hl
      obtain ⟨i, hi⟩ := hl.found (hwalkable hl)
      exact ⟨(i, l), hi, rfl⟩

/-- **A scan finds the tokens of the content that is there now.** -/
theorem Honest.mem_scan (h : s.Honest trees) (hp : t.Proper) (hf : s.Trusts t)
    (hr : (s.scan t).2 = .ok result) :
    x ∈ distinctTokens result.files ↔
      ∃ l content, s.Holds t l content ∧ x ∈ contentTokens content := by
  obtain ⟨hpaths, hall⟩ := mem_content (s := s) hp
  simp only [mem_distinctTokens, (scan_ok hr).2.1, files_told, List.mem_filterMap,
    Option.map_eq_some_iff]
  constructor
  · rintro ⟨-, ⟨p, hmem, r, hr, rfl⟩, hx⟩
    -- what cannot be read is skipped
    obtain ⟨l, hl, hc, rfl⟩ := hpaths p hmem
    cases hread : t.read l.path with
    | error cause =>
      rw [hf.scanFile_unread hl hread] at hr
      cases hr
    | ok content =>
      obtain ⟨written, hat⟩ := hl.at?_of_read hread
      obtain ⟨r', hr', htokens⟩ := h.tokens_scanFile hl hat false (.inr hf)
      obtain rfl := Option.some.inj (hr'.symm.trans hr)
      rw [htokens] at hx
      exact ⟨l, content, ⟨hc, written, hat⟩, hx⟩
  · rintro ⟨l, content, hl, hx⟩
    obtain ⟨hc, written, hat⟩ := id hl
    obtain ⟨r, hr, htokens⟩ := h.tokens_scanFile
      (hp.walkable (Option.isSome_of_eq_some hat)) hat false (.inr hf)
    rw [← htokens] at hx
    exact ⟨_, ⟨l.path, hall l content hl, r, hr, rfl⟩, hx⟩

/-- A scan of a reported file finds the tokens of its content. -/
theorem Honest.mem_scanPaths (h : s.Honest trees) (hl : t.Walkable l)
    (hat : t.at? l = some (.file content written))
    (hr : (s.scanPaths t [l.path]).2 = .ok result) (hx : x ∈ contentTokens content) :
    x ∈ distinctTokens result.files := by
  obtain ⟨r, hrecord, htokens⟩ := h.tokens_scanFile hl hat true (.inl rfl)
  rw [(scanFiles_ok hr).2, files_told, List.map_singleton, resolvePath_path hl, List.filterMap_cons,
    hrecord]
  rw [← htokens] at hx
  exact mem_distinctTokens.2 ⟨_, List.mem_cons_self, hx⟩

end Scanner

end AtomicCss.Usage
