import AtomicCss.Proofs.Files.Path

/-! # Walks through file trees

A location is walkable if directories lead to it. Looking up a path ends at a walkable location,
and the path of a walkable location leads to it. In a tree that edits lead to, every entry is
walkable. -/

namespace AtomicCss

/-- An edit of the files. -/
inductive FileEdit where
  | write (path : String) (content : ByteArray) (time : Option Int)
  | makeDirectories (path : String)
  | remove (path : String)
  | setReadable (path : String) (readable : Bool)

namespace Location

/-- The location behind a segment, whatever stands there. -/
def advance (l : Location) (s : String) : Location :=
  if Path.isIdle s then l else if s = ".." then l.dropLast else l ++ [s]

/-- Without steps upwards, the names on the way are those that are spelled. -/
theorem foldl_advance {segs : List String} (hsegs : ".." ∉ segs) (l : Location) :
    segs.foldl advance l = l ++ segs.filter (!Path.isIdle ·) := by
  induction segs generalizing l with
  | nil => exact (List.append_nil l).symm
  | cons s segs ih =>
    have hs : s ≠ ".." := fun h => hsegs (h ▸ List.mem_cons_self)
    rw [List.foldl_cons, ih (fun h => hsegs (List.mem_cons_of_mem _ h)), advance]
    by_cases hidle : Path.isIdle s = true
    · rw [if_pos hidle, List.filter_cons_of_neg (by simp [hidle])]
    · rw [if_neg hidle, if_neg hs, List.filter_cons_of_pos (by simp [hidle]), List.append_assoc,
        List.singleton_append]

end Location

namespace FileTree

open AtomicCss.Path (IsName)

variable {t t' : FileTree} {l l' d : Location} {p s name : String} {segs : List String}
  {e : FileEntry}

/-- Directories lead from the root to a location, at which something stands. -/
inductive Walkable (t : FileTree) : Location → Prop
  | root : t.Walkable []
  | child {l : Location} {s : String} (parent : t.Walkable l)
      (directory : t.at? l = some .directory) (name : IsName s)
      (there : (t.at? (l ++ [s])).isSome = true) : t.Walkable (l ++ [s])

namespace Walkable

theorem names (h : t.Walkable l) : ∀ s ∈ l, IsName s := by
  induction h with
  | root => simp
  | child _ _ hs _ ih =>
    intro x hx
    rcases List.mem_append.1 hx with hx | hx
    · exact ih x hx
    · rw [List.mem_singleton.1 hx]
      exact hs

theorem of_prefix (h : t.Walkable l) (hp : l' <+: l) : t.Walkable l' := by
  induction h with
  | root =>
    rw [List.prefix_nil.1 hp]
    exact .root
  | child hl hd hs ht ih =>
    rcases List.prefix_concat_iff.1 hp with rfl | hp
    · exact .child hl hd hs ht
    · exact ih hp

/-- Walks stay open while their directories and their end are there. -/
theorem mono (h : t.Walkable l)
    (hd : ∀ l', l' <+: l → t.at? l' = some .directory → t'.at? l' = some .directory)
    (hs : ∀ l', l' <+: l → (t.at? l').isSome = true → (t'.at? l').isSome = true) :
    t'.Walkable l := by
  induction h with
  | root => exact .root
  | @child l s hl hdir hname hthere ih =>
    have hp : l <+: l ++ [s] := List.prefix_append l [s]
    have hparent : t'.Walkable l := by
      apply ih
      · intro l' h
        exact hd l' (h.trans hp)
      · intro l' h
        exact hs l' (h.trans hp)
    exact .child hparent (hd l hp hdir) hname (hs _ (List.prefix_refl _) hthere)

end Walkable

/-! ## Following segments -/

theorem follow_append (h : t.Walkable l) (segs : List String) :
    t.follow [] (l ++ segs) = t.follow l segs := by
  induction h generalizing segs with
  | root => rfl
  | child hl hd hs ht ih =>
    rw [List.append_assoc, ih, List.singleton_append, follow, hd]
    simp only [hs.busy, hs.down, ht, if_true, if_false, Bool.false_eq_true]

theorem walkable_of_follow (h : t.Walkable l) (hsegs : ∀ s ∈ segs, '/' ∉ s.toList)
    (hf : t.follow l segs = .ok l') : t.Walkable l' := by
  -- each segment stays in place, goes up, or goes down one name
  induction segs generalizing l with
  | nil =>
    rw [follow] at hf
    obtain rfl := Except.ok.inj hf
    exact h
  | cons s segs ih =>
    have hrest : ∀ s ∈ segs, '/' ∉ s.toList := by
      intro x hx
      exact hsegs x (List.mem_cons_of_mem _ hx)
    rw [follow] at hf
    split at hf
    · cases hf
    · rename_i hd
      split at hf
      · exact ih h hrest hf
      · rename_i hbusy
        split at hf
        · exact ih (h.of_prefix (List.dropLast_prefix l)) hrest hf
        · rename_i hdown
          split at hf
          · rename_i ht
            refine ih (.child h hd ⟨?_, hdown, hsegs s List.mem_cons_self⟩ ht) hrest hf
            simpa using hbusy
          · cases hf
    · cases hf

/-- Where segments lead depends on the names alone, if they lead anywhere. -/
theorem eq_foldl_of_follow (hf : t.follow l segs = .ok l') : l' = segs.foldl Location.advance l := by
  induction segs generalizing l with
  | nil => exact (Except.ok.inj hf).symm
  | cons s segs ih =>
    rw [List.foldl_cons, Location.advance]
    rw [follow] at hf
    split at hf
    · cases hf
    · split
      · rename_i hidle
        rw [if_pos hidle] at hf
        exact ih hf
      · rename_i hbusy
        rw [if_neg hbusy] at hf
        split
        · rename_i hup
          rw [if_pos hup] at hf
          exact ih hf
        · rename_i hdown
          rw [if_neg hdown] at hf
          split at hf
          · exact ih hf
          · cases hf
    · cases hf

/-! ## Looking up paths -/

/-- The location that a path spells, whether or not something stands there. -/
def spelled? (t : FileTree) (p : String) : Option Location :=
  if p = "" then none else some ((Path.segments (t.absolute p)).tail.foldl Location.advance [])

theorem absolute_eq (h : Path.isAbsolute p = true) : t.absolute p = p := if_pos h

theorem isAbsolute_absolute (t : FileTree) (p : String) : Path.isAbsolute (t.absolute p) = true := by
  unfold absolute Path.join
  have hbase : ∀ rest, Path.isAbsolute (t.workingDirectory.path ++ rest) = true := by
    intro rest
    have habsolute := Location.isAbsolute_path t.workingDirectory
    simp only [Path.isAbsolute, beq_iff_eq, String.toList_append, List.head?_append] at habsolute ⊢
    rw [habsolute]
    rfl
  split
  · assumption
  · split
    · exact hbase p
    · rw [String.append_assoc]
      exact hbase _

theorem locate_absolute (hp : p ≠ "") : t.locate (t.absolute p) = t.locate p := by
  have habsolute := t.isAbsolute_absolute p
  rw [locate, locate, if_neg hp, if_neg (Path.ne_empty_of_isAbsolute habsolute),
    absolute_eq habsolute]

theorem locate_eq_ok (h : t.locate p = .ok l) :
    p ≠ "" ∧ t.follow [] (Path.segments (t.absolute p)).tail = .ok l := by
  unfold locate at h
  split at h
  · cases h
  · rename_i hp
    exact ⟨hp, h⟩

/-- A path names what it spells, or nothing. -/
theorem spelled?_of_locate (h : t.locate p = .ok l) : t.spelled? p = some l := by
  obtain ⟨hp, hf⟩ := locate_eq_ok h
  rw [spelled?, if_neg hp, eq_foldl_of_follow hf]

/-- What a path spells depends on the working directory alone. -/
theorem spelled?_congr (hw : t'.workingDirectory = t.workingDirectory) (p : String) :
    t'.spelled? p = t.spelled? p := by
  rw [spelled?, spelled?, absolute, absolute, hw]

theorem locate_unique {l' : Location} (hw : t'.workingDirectory = t.workingDirectory)
    (h : t.locate p = .ok l) (h' : t'.locate p = .ok l') : l = l' := by
  have hspelled := spelled?_of_locate h'
  rw [spelled?_congr hw, spelled?_of_locate h] at hspelled
  exact Option.some.inj hspelled

theorem walkable_of_locate (h : t.locate p = .ok l) : t.Walkable l := by
  refine walkable_of_follow .root ?_ (locate_eq_ok h).2
  intro s hs
  exact Path.not_slash_mem_segments (List.mem_of_mem_tail hs)

/-- **The path of a walkable location leads to it.** -/
theorem Walkable.locate_path (h : t.Walkable l) : t.locate l.path = .ok l := by
  have habsolute := Location.isAbsolute_path l
  rw [locate, if_neg (Path.ne_empty_of_isAbsolute habsolute), absolute_eq habsolute]
  cases l with
  | nil =>
    have : (Path.segments (Location.path [])).tail = [""] := by decide
    simp [this, follow, at?, Path.isIdle]
  | cons s l =>
    rw [Location.segments_path_cons h.names, List.tail_cons]
    have := follow_append h []
    rwa [List.append_nil, follow] at this

theorem components_of_locate (ha : Path.isAbsolute p = true) (hsegs : ".." ∉ Path.segments p)
    (h : t.locate p = .ok l) : Path.components p = "" :: l := by
  have htail : ".." ∉ (Path.segments p).tail := by
    intro hd
    exact hsegs (List.mem_of_mem_tail hd)
  have hf := (locate_eq_ok h).2
  rw [absolute_eq ha] at hf
  rw [Path.components_of_isAbsolute ha, eq_foldl_of_follow hf, Location.foldl_advance htail,
    List.nil_append]

theorem Walkable.lookup_path (h : t.Walkable l) (he : t.at? l = some e) :
    t.lookup l.path = .ok e := by
  simp [lookup, h.locate_path, bind, Except.bind, he]

theorem lookup_eq_ok (h : t.lookup p = .ok e) : ∃ l, t.locate p = .ok l ∧ t.at? l = some e := by
  unfold lookup at h
  cases hl : t.locate p with
  | error cause => simp [hl, bind, Except.bind] at h
  | ok l =>
    simp only [hl, bind, Except.bind] at h
    split at h
    · rename_i he
      obtain rfl := Except.ok.inj h
      exact ⟨l, rfl, he⟩
    · cases h

theorem read_of_lookup {content : ByteArray} {written : WriteTime}
    (h : t.lookup p = .ok (.file content written)) : t.read p = .ok content := by
  rw [read, h]
  rfl

theorem lookup_of_read {content : ByteArray} (h : t.read p = .ok content) :
    ∃ written, t.lookup p = .ok (.file content written) := by
  unfold read at h
  cases hl : t.lookup p with
  | error cause =>
    rw [hl] at h
    cases h
  | ok e =>
    rw [hl] at h
    cases e with
    | file content' written =>
      obtain rfl := Except.ok.inj h
      exact ⟨written, rfl⟩
    | directory => cases h
    | locked content' written => cases h

/-- A walkable location that can be read is that of a file. -/
theorem Walkable.at?_of_read (h : t.Walkable l) {content : ByteArray}
    (hread : t.read l.path = .ok content) : ∃ written, t.at? l = some (.file content written) := by
  obtain ⟨written, hlookup⟩ := lookup_of_read hread
  obtain ⟨l', hl', hat⟩ := lookup_eq_ok hlookup
  rw [h.locate_path] at hl'
  obtain rfl := Except.ok.inj hl'
  exact ⟨written, hat⟩

/-! ## Edits -/

/-- Every entry of the tree can be walked to. -/
def Proper (t : FileTree) : Prop := ∀ l e, (l, e) ∈ t.entries → t.Walkable l

theorem mem_entries_of_at? (hl : l ≠ []) (h : t.at? l = some e) : (l, e) ∈ t.entries := by
  rw [at?, if_neg hl] at h
  obtain ⟨⟨l', e'⟩, hfind, rfl⟩ := Option.map_eq_some_iff.1 h
  have heq : l' = l := by simpa using List.find?_some hfind
  rw [← heq]
  exact List.mem_of_find?_eq_some hfind

theorem Proper.walkable (h : t.Proper) (he : (t.at? l).isSome = true) : t.Walkable l := by
  by_cases hl : l = []
  · rw [hl]
    exact .root
  · obtain ⟨e, he⟩ := Option.isSome_iff_exists.1 he
    exact h l e (mem_entries_of_at? hl he)

/-- All that stands in a tree with one entry. -/
theorem at?_of_entries {e' : FileEntry} (he : t.entries = [(l, e)]) (h : t.at? l' = some e') :
    l' = [] ∧ e' = .directory ∨ l' = l ∧ e' = e := by
  rw [at?, he] at h
  split at h
  · rename_i hl
    exact .inl ⟨hl, (Option.some.inj h).symm⟩
  · rw [List.find?_cons] at h
    split at h
    · rename_i hl
      exact .inr ⟨(of_decide_eq_true hl).symm, (Option.some.inj h).symm⟩
    · cases h

theorem at?_put (hl : l ≠ []) (e : FileEntry) (l' : Location) :
    (t.put l e).at? l' = if l' = l then some e else t.at? l' := by
  by_cases heq : l' = l
  · subst heq
    -- the entry at the location was dropped before the new one was added
    have hnone : (t.entries.filter (·.1 ≠ l')).find? (·.1 = l') = none := by
      apply List.find?_eq_none.2
      intro x hx
      simpa using (List.mem_filter.1 hx).2
    rw [at?, if_neg hl, put, List.find?_append, hnone]
    simp
  · rw [if_neg heq, at?, at?, put, List.find?_append, List.find?_filter]
    split
    · rfl
    · have hlast : [(l, e)].find? (·.1 = l') = none := by simp [Ne.symm heq]
      have hother : (fun x : Location × FileEntry => decide (decide (x.1 ≠ l) = true ∧
          decide (x.1 = l') = true)) = fun x => decide (x.1 = l') := by
        funext x
        by_cases hx : x.1 = l'
        · simp [hx, heq]
        · simp [hx]
      rw [hlast, hother, Option.or_none]

/-- A new entry in a directory, unless it takes the place of another directory. -/
theorem Proper.put (h : t.Proper) (hd : t.at? d = some .directory) (hname : IsName name)
    (hnew : t.at? (d ++ [name]) ≠ some .directory) (e : FileEntry) :
    (t.put (d ++ [name]) e).Proper := by
  have hat := at?_put (t := t) (l := d ++ [name]) (by simp) e
  have hkeep {l : Location} (hl : t.Walkable l) : (t.put (d ++ [name]) e).Walkable l := by
    apply hl.mono
    · intro l' _ hl'
      have hne : l' ≠ d ++ [name] := by
        rintro rfl
        exact hnew hl'
      rwa [hat, if_neg hne]
    · intro l' _ hl'
      rw [hat]
      split
      · rfl
      · exact hl'
  -- what was there stays, and the new entry stands in a directory
  intro l x hx
  rcases List.mem_append.1 hx with hx | hx
  · exact hkeep (h l x (List.mem_filter.1 hx).1)
  · obtain ⟨rfl, -⟩ := Prod.mk.inj (List.mem_singleton.1 hx)
    refine .child (hkeep (h.walkable (by rw [hd]; rfl))) ?_ hname ?_
    · rw [hat, if_neg (by simp)]
      exact hd
    · rw [hat, if_pos rfl]
      rfl

theorem Proper.of_entries (h : t.Proper) (he : t'.entries = t.entries) : t'.Proper := by
  have hat (l : Location) : t'.at? l = t.at? l := by rw [at?, at?, he]
  intro l e hmem
  rw [he] at hmem
  apply (h l e hmem).mono
  · intro l' _ hl'
    rwa [hat]
  · intro l' _ hl'
    rwa [hat]

/-- What stands behind a write. -/
theorem write_eq_ok {content : ByteArray} {time : Option Int}
    (h : t.write p content time = .ok t') : ∃ dir name written,
    t.at? dir = some .directory ∧
    (Path.segments (t.absolute p)).tail.getLast? = some name ∧ Path.isIdle name = false ∧ name ≠ ".." ∧
    t.at? (dir ++ [name]) ≠ some .directory ∧
    t' = { t.put (dir ++ [name]) (.file content written) with clock := t.clock + 1 } := by
  simp only [FileTree.write, bind, Except.bind, pure, Except.pure, throw, throwThe,
    MonadExceptOf.throw] at h
  split at h
  · cases h
  · split at h
    · cases h
    · rename_i dir hdir
      split at h
      · rename_i name hd hname
        split at h
        · cases h
        · rename_i hn
          simp only [Bool.or_eq_true, beq_iff_eq, not_or, Bool.not_eq_true] at hn
          split at h
          · cases h
          · cases h
          · rename_i hnew _
            obtain rfl := Except.ok.inj h
            exact ⟨dir, name, _, hd, hname, hn.1, hn.2, hnew, rfl⟩
      · cases h
      · cases h
      · cases h

theorem Proper.write {content : ByteArray} {time : Option Int} (h : t.Proper)
    (hw : t.write p content time = .ok t') : t'.Proper := by
  obtain ⟨dir, name, written, hd, hname, hbusy, hdown, hnew, rfl⟩ := write_eq_ok hw
  have hsolid : '/' ∉ name.toList :=
    Path.not_slash_mem_segments (List.mem_of_mem_tail (List.mem_of_getLast? hname))
  exact (h.put hd ⟨hbusy, hdown, hsolid⟩ hnew _).of_entries rfl

/-- What stands behind a new directory. -/
theorem makeDirectory_eq_ok (h : t.makeDirectory p = .ok t') : ∃ dir name,
    t.at? dir = some .directory ∧
    (Path.trimEnd (Path.segments (t.absolute p))).tail.getLast? = some name ∧ name ≠ ".." ∧
    t.at? (dir ++ [name]) = none ∧ t' = t.put (dir ++ [name]) .directory := by
  simp only [makeDirectory, bind, Except.bind, pure, Except.pure, throw, throwThe,
    MonadExceptOf.throw] at h
  split at h
  · cases h
  · split at h
    · cases h
    · rename_i dir hdir
      split at h
      · rename_i name hd hname
        split at h
        · cases h
        · rename_i hdown
          split at h
          · cases h
          · rename_i hnew
            exact ⟨dir, name, hd, hname, by simpa using hdown, by simpa using hnew,
              (Except.ok.inj h).symm⟩
      · cases h
      · cases h
      · cases h

theorem not_isIdle_of_getLast?_trimEnd (h : (Path.trimEnd segs).tail.getLast? = some s) :
    Path.isIdle s = false := by
  cases segs with
  | nil => simp [Path.trimEnd] at h
  | cons x segs =>
    rw [Path.trimEnd, List.tail_cons, List.getLast?_reverse] at h
    have := List.head?_dropWhile_not Path.isIdle segs.reverse
    simpa [h] using this

theorem mem_of_mem_trimEnd (h : s ∈ Path.trimEnd segs) : s ∈ segs := by
  cases segs with
  | nil => exact h
  | cons x segs =>
    rw [Path.trimEnd] at h
    rcases List.mem_cons.1 h with rfl | h
    · exact List.mem_cons_self
    · apply List.mem_cons_of_mem
      rw [List.mem_reverse] at h
      exact List.mem_reverse.1 ((List.dropWhile_sublist _).mem h)

theorem Proper.makeDirectory (h : t.Proper) (hm : t.makeDirectory p = .ok t') : t'.Proper := by
  obtain ⟨dir, name, hd, hname, hdown, hnew, rfl⟩ := makeDirectory_eq_ok hm
  have hsolid : '/' ∉ name.toList :=
    Path.not_slash_mem_segments
      (mem_of_mem_trimEnd (List.mem_of_mem_tail (List.mem_of_getLast? hname)))
  have hbusy := not_isIdle_of_getLast?_trimEnd hname
  exact h.put hd ⟨hbusy, hdown, hsolid⟩ (by simp [hnew]) _

/-- What every new directory keeps stays when a directory is made with all that is missing. -/
theorem makeAll_keeps {P : FileTree → Prop}
    (hmake : ∀ t t' p, P t → t.makeDirectory p = .ok t' → P t') (h : P t) (up : List String) :
    P (t.makeAll up).1 := by
  induction up with
  | nil => exact h
  | cons s up ih =>
    rw [FileTree.makeAll]
    split
    · rename_i hm
      exact hmake _ _ _ h hm
    · split
      · rename_i heq
        rwa [heq] at ih
      · rename_i heq
        rw [heq] at ih
        split
        · rename_i hm
          exact hmake _ _ _ ih hm
        · exact ih
    · exact h

theorem Proper.remove (h : t.Proper) (p : String) : (t.remove p).Proper := by
  unfold FileTree.remove
  split
  · exact h
  · rename_i l hl
    intro l' e hmem
    obtain ⟨hmem, hnot⟩ := List.mem_filter.1 hmem
    have hnot : ¬ l <+: l' := by
      intro hp
      rw [List.isPrefixOf_iff_prefix.2 hp] at hnot
      cases hnot
    -- no part of the way to what stays is removed
    have hat (x : Location) (hx : x <+: l') :
        FileTree.at? { t with entries := t.entries.filter fun e => !l.isPrefixOf e.1 } x =
          t.at? x := by
      rw [at?, at?, List.find?_filter]
      split
      · rfl
      · congr 2
        funext y
        by_cases hy : y.1 = x
        · have hstays : l.isPrefixOf y.1 = false := by
            rw [← Bool.not_eq_true, List.isPrefixOf_iff_prefix, hy]
            intro hp
            exact hnot (hp.trans hx)
          simp [hstays]
        · simp [hy]
    apply (h l' e hmem).mono
    · intro x hx hd
      rwa [hat x hx]
    · intro x hx hs
      rwa [hat x hx]

theorem Proper.setReadable (h : t.Proper) (p : String) (readable : Bool) :
    (t.setReadable p readable).Proper := by
  unfold FileTree.setReadable
  split
  · exact h
  · rename_i l hl
    split
    · exact h
    · exact h
    · rename_i e hnot he
      cases walkable_of_locate hl with
      | root => exact (hnot (Option.some.inj he).symm).elim
      | child _ hd hname _ =>
        refine h.put hd hname ?_ _
        rw [he]
        exact fun heq => hnot (Option.some.inj heq)

/-- The files after an edit. A write that fails changes nothing. -/
def edit (t : FileTree) : FileEdit → FileTree
  | .write path content time =>
    match t.write path content time with
    | .ok t' => t'
    | .error _ => t
  | .makeDirectories path => (t.makeDirectories path).1
  | .remove path => t.remove path
  | .setReadable path readable => t.setReadable path readable

theorem Proper.edit (h : t.Proper) (edit : FileEdit) : (t.edit edit).Proper := by
  cases edit with
  | write path content time =>
    rw [FileTree.edit]
    split
    · rename_i hw
      exact h.write hw
    · exact h
  | makeDirectories path => exact makeAll_keeps (fun _ _ _ h hm => h.makeDirectory hm) h _
  | remove path => exact h.remove path
  | setReadable path readable => exact h.setReadable path readable

/-- Edits leave the working directory where it is. -/
theorem workingDirectory_edit (t : FileTree) (edit : FileEdit) :
    (t.edit edit).workingDirectory = t.workingDirectory := by
  cases edit with
  | write path content time =>
    rw [FileTree.edit]
    split
    · rename_i hw
      obtain ⟨dir, name, written, -, -, -, -, -, rfl⟩ := write_eq_ok hw
      rfl
    · rfl
  | makeDirectories path =>
    apply makeAll_keeps (P := fun t' => t'.workingDirectory = t.workingDirectory) _ rfl
    intro t₁ t₂ p h hm
    obtain ⟨dir, name, -, -, -, -, rfl⟩ := makeDirectory_eq_ok hm
    exact h
  | remove path =>
    rw [FileTree.edit, FileTree.remove]
    split <;> rfl
  | setReadable path readable =>
    rw [FileTree.edit, FileTree.setReadable]
    split
    · rfl
    · split <;> rfl

/-- The files that edits lead to, seen from some working directory. -/
def Reached (t : FileTree) : Prop :=
  ∃ (workingDirectory : Location) (edits : List FileEdit),
    edits.foldl edit (emptyFrom workingDirectory) = t

theorem Reached.edit (h : t.Reached) (edit : FileEdit) : (t.edit edit).Reached := by
  obtain ⟨workingDirectory, edits, rfl⟩ := h
  exact ⟨workingDirectory, edits ++ [edit], List.foldl_concat ..⟩

/-- **In a tree that edits lead to, every entry can be walked to.** -/
theorem Reached.proper (h : t.Reached) : t.Proper := by
  obtain ⟨workingDirectory, edits, rfl⟩ := h
  -- the edits may start from any proper tree
  have hrun (t : FileTree) (ht : t.Proper) : (edits.foldl FileTree.edit t).Proper := by
    induction edits generalizing t with
    | nil => exact ht
    | cons edit edits ih => exact ih _ (ht.edit edit)
  exact hrun (emptyFrom workingDirectory) nofun

end FileTree

end AtomicCss
