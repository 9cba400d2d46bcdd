import AtomicCss.Build.WatchList
import AtomicCss.Proofs.Files.Tree
import Mathlib.Data.List.Dedup

/-! # What is watched

Files come and go between the calls of a watch list, and a path names something only while something
stands where it leads. So a call reaches the location that its path spells, or it misses it. A list is
what was made of the locations that were reached (`Watcher.list_run`). In particular, a location that is
missed by the call that takes it out stays, and it is not added when it is watched the next time
(`Watcher.watched_run`). -/

namespace AtomicCss

/-- What a call does about a location. -/
inductive Mark where
  | watched
  | unwatched
  /-- The location is to be watched no longer, but nothing stands there. -/
  | missed
  deriving DecidableEq

/-- What was done about locations, in order. -/
abbrev MarkHistory := List (Location × Mark)

namespace MarkHistory

variable {h : MarkHistory} {l : Location} {m : Mark}

/-- What was done last about a location. -/
def last? (h : MarkHistory) (l : Location) : Option Mark := ((h.filter (·.1 = l)).getLast?).map (·.2)

/-- What was done last about a location that was reached. -/
def lastReached? (h : MarkHistory) (l : Location) : Option Mark :=
  last? (h.filter (·.2 ≠ .missed)) l

/-- The locations about which something was done last, each once. -/
def marked (h : MarkHistory) (m : Mark) : List Location :=
  (h.map (·.1)).dedup.filter (h.last? · = some m)

theorem last?_concat (h : MarkHistory) (x : Location × Mark) (l : Location) :
    last? (h ++ [x]) l = if x.1 = l then some x.2 else h.last? l := by
  rw [last?, List.filter_append, List.getLast?_append]
  by_cases hx : x.1 = l
  · simp [hx]
  · simp [hx, last?]

theorem lastReached?_concat (h : MarkHistory) (x : Location × Mark) (l : Location) :
    lastReached? (h ++ [x]) l =
      if x.1 = l ∧ x.2 ≠ .missed then some x.2 else h.lastReached? l := by
  rw [lastReached?, List.filter_append]
  by_cases hx : x.2 = .missed
  · rw [List.filter_cons_of_neg (by simp [hx]), List.filter_nil, List.append_nil, if_neg (by simp [hx])]
    rfl
  · rw [List.filter_cons_of_pos (by simp [hx]), List.filter_nil, last?_concat]
    simp only [hx, ne_eq, not_false_eq_true, and_true]
    rfl

/-- What was done last is what was done last with the location reached, unless it was missed since. -/
theorem last?_eq (h : MarkHistory) (l : Location) :
    h.last? l = h.lastReached? l ∨ h.last? l = some .missed := by
  induction h using List.reverseRecOn with
  | nil => exact .inl rfl
  | append_singleton h x ih =>
    rw [last?_concat, lastReached?_concat]
    by_cases hx : x.1 = l
    · by_cases hmissed : x.2 = .missed
      · simp [hx, hmissed]
      · simp [hx, hmissed]
    · simpa [hx] using ih

theorem mem_marked : l ∈ h.marked m ↔ h.last? l = some m := by
  rw [marked, List.mem_filter, List.mem_dedup, decide_eq_true_iff, and_iff_right_iff_imp]
  intro hl
  obtain ⟨x, hx, -⟩ := Option.map_eq_some_iff.1 hl
  obtain ⟨hmem, hfst⟩ := List.mem_filter.1 (List.mem_of_getLast? hx)
  exact List.mem_map.2 ⟨x, hmem, of_decide_eq_true hfst⟩

theorem nodup_marked (h : MarkHistory) (m : Mark) : (h.marked m).Nodup :=
  (List.nodup_dedup _).filter _

end MarkHistory

/-- The paths of everything that a build depends on. -/
def Adapter.watchedPaths (a : Adapter) (t : FileTree) : List String :=
  a.scanner.rootPath :: a.configPaths.map (a.scanner.resolvePath t)

namespace WatchList

open MarkHistory

variable {w : WatchList} {t : FileTree} {p : String} {l : Location}

/-- Does about a location what it is marked with. -/
def mark (w : WatchList) : Location × Mark → WatchList
  | (l, .watched) => if w.watched.contains l then w else ⟨w.watched ++ [l]⟩
  | (l, .unwatched) => ⟨w.watched.filter (· ≠ l)⟩
  | (_, .missed) => w

theorem mark_watched (w : WatchList) (l : Location) :
    w.mark (l, .watched) = if l ∈ w.watched then w else ⟨w.watched ++ [l]⟩ := by
  simp [mark]

theorem nodup_mark (h : w.watched.Nodup) (x : Location × Mark) : (w.mark x).watched.Nodup := by
  obtain ⟨l, m⟩ := x
  cases m with
  | watched =>
    by_cases hl : l ∈ w.watched
    · simpa [mark_watched, hl] using h
    · simpa [mark_watched, hl] using h.append (List.nodup_singleton l) (by simpa using hl)
  | unwatched => exact h.filter _
  | missed => exact h

/-- Only what is done to a location that was reached matters, and for that location alone. -/
theorem mem_mark {x : Location × Mark} : l ∈ (w.mark x).watched ↔
    if x.1 = l ∧ x.2 ≠ .missed then x.2 = .watched else l ∈ w.watched := by
  obtain ⟨l', m⟩ := x
  by_cases heq : l' = l
  · cases m with
    | watched => by_cases hl : l ∈ w.watched <;> simp [mark_watched, heq, hl]
    | unwatched => simp [mark, heq]
    | missed => simp [mark]
  · cases m with
    | watched => by_cases hl : l' ∈ w.watched <;> simp [mark_watched, heq, hl, Ne.symm heq]
    | unwatched => simp [mark, heq, Ne.symm heq]
    | missed => simp [mark]

/-- A location is watched if that was done last about it when it was reached. -/
theorem watched_marks (h : MarkHistory) : (h.foldl mark ∅).watched.Nodup ∧
    ∀ l, l ∈ (h.foldl mark ∅).watched ↔ h.lastReached? l = some .watched := by
  induction h using List.reverseRecOn with
  | nil => exact ⟨List.nodup_nil, fun l => ⟨nofun, nofun⟩⟩
  | append_singleton h x ih =>
    obtain ⟨hnodup, hmem⟩ := ih
    rw [List.foldl_concat]
    refine ⟨nodup_mark hnodup x, fun l => ?_⟩
    rw [mem_mark, lastReached?_concat]
    split
    · exact Option.some_inj.symm
    · exact hmem l

/-- A list is as long as it would be if no location had been missed, and the missed ones in it more. -/
theorem size_eq {h : MarkHistory} (hnodup : w.watched.Nodup)
    (hmem : ∀ l, l ∈ w.watched ↔ h.lastReached? l = some .watched) :
    w.size = (h.marked .watched).length + ((h.marked .missed).filter (· ∈ w.watched)).length := by
  have hdisjoint : (h.marked .watched).Disjoint ((h.marked .missed).filter (· ∈ w.watched)) := by
    intro l hl hl'
    have hmissed := mem_marked.1 (List.mem_filter.1 hl').1
    rw [mem_marked.1 hl] at hmissed
    cases hmissed
  have hperm : w.watched.Perm (h.marked .watched ++ (h.marked .missed).filter (· ∈ w.watched)) := by
    rw [List.perm_ext_iff_of_nodup hnodup
      ((h.nodup_marked _).append ((h.nodup_marked _).filter _) hdisjoint)]
    intro l
    rw [List.mem_append, List.mem_filter, mem_marked, mem_marked, decide_eq_true_iff, hmem]
    -- either nothing was missed since the location was reached last, or the last call missed it
    rcases h.last?_eq l with heq | heq
    · rw [heq]
      tauto
    · simp [heq]
  rw [size, hperm.length_eq, List.length_append]

theorem foldl_mark_of_watched {h : MarkHistory} (hh : ∀ x ∈ h, x.2 = .watched ∧ x.1 ∈ w.watched) :
    h.foldl mark w = w := by
  induction h with
  | nil => rfl
  | cons x h ih =>
    obtain ⟨hx, hrest⟩ := List.forall_mem_cons.1 hh
    obtain ⟨l, m⟩ := x
    obtain ⟨rfl, hl⟩ := hx
    rw [List.foldl_cons, mark_watched, if_pos hl]
    exact ih hrest

/-- To watch no longer what a path spells has an effect if the path names something. -/
theorem unwatch_eq (hp : t.spelled? p = some l) :
    w.unwatch t p = if t.pathExists p then ⟨w.watched.filter (· ≠ l)⟩ else w := by
  rw [unwatch, FileTree.pathExists]
  cases hl : t.locate p with
  | error cause => rfl
  | ok l' =>
    obtain rfl := Option.some.inj (hp.symm.trans (FileTree.spelled?_of_locate hl))
    rfl

theorem watch_of_locate (hp : t.locate p = .ok l) :
    w.watch t p = (if l ∈ w.watched then w else ⟨w.watched ++ [l]⟩, .ok ()) := by
  rw [watch, hp]

/-- The locations of paths, up to the first path that names nothing. -/
def located (t : FileTree) : List String → List Location
  | [] => []
  | p :: ps =>
    match t.locate p with
    | .ok l => l :: located t ps
    | .error _ => []

theorem watchAll_fst (w : WatchList) (t : FileTree) (ps : List String) :
    (w.watchAll t ps).1 = ((located t ps).map (·, Mark.watched)).foldl mark w := by
  induction ps generalizing w with
  | nil => rfl
  | cons p ps ih =>
    unfold watchAll watch located
    cases hp : t.locate p with
    | error cause => rfl
    | ok l =>
      rw [List.map_cons, List.foldl_cons, mark_watched]
      exact ih _

end WatchList

/-- A call of a watch list, or an edit of the files. -/
inductive WatchCall where
  | watch (path : String)
  | watchAdapter (a : Adapter)
  | unwatch (path : String)
  | edit (e : FileEdit)

/-- What a call does about locations. The paths of an adapter are watched in turn until one of them names
nothing, and the call fails there. -/
def WatchCall.marks (t : FileTree) : WatchCall → MarkHistory
  | .watch path => (WatchList.located t [path]).map (·, .watched)
  | .watchAdapter a => (WatchList.located t (a.watchedPaths t)).map (·, .watched)
  | .unwatch path =>
    match t.locate path with
    | .ok l => [(l, .unwatched)]
    | .error _ => (t.spelled? path).toList.map (·, .missed)
  | .edit _ => []

/-- A watch list with the files that it looks at. -/
structure Watcher where
  files : FileTree
  list : WatchList

namespace Watcher

def new (t : FileTree) : Watcher := ⟨t, ∅⟩

def step (w : Watcher) : WatchCall → Watcher
  | .watch path => { w with list := (w.list.watch w.files path).1 }
  | .watchAdapter a => { w with list := (w.list.watchAdapter w.files a).1 }
  | .unwatch path => { w with list := w.list.unwatch w.files path }
  | .edit e => { w with files := w.files.edit e }

def run (w : Watcher) (calls : List WatchCall) : Watcher := calls.foldl step w

/-- What calls do about locations, each in the files as they are then. -/
def history (w : Watcher) : List WatchCall → MarkHistory
  | [] => []
  | c :: calls => c.marks w.files ++ (w.step c).history calls

/-- A call changes the list by what it does about locations. -/
theorem list_step (w : Watcher) (c : WatchCall) :
    (w.step c).list = (c.marks w.files).foldl WatchList.mark w.list := by
  cases c with
  | watch path =>
    simp only [step, WatchList.watch, WatchCall.marks, WatchList.located]
    cases w.files.locate path with
    | ok l => exact (w.list.mark_watched l).symm
    | error cause => rfl
  | watchAdapter a => exact w.list.watchAll_fst w.files (a.watchedPaths w.files)
  | unwatch path =>
    simp only [step, WatchList.unwatch, WatchCall.marks]
    cases w.files.locate path with
    | ok l => rfl
    | error cause => cases w.files.spelled? path <;> rfl
  | edit e => rfl

/-- A list is what was made of the locations that were reached. -/
theorem list_run (w : Watcher) (calls : List WatchCall) :
    (w.run calls).list = (w.history calls).foldl WatchList.mark w.list := by
  induction calls generalizing w with
  | nil => rfl
  | cons c calls ih =>
    rw [history, List.foldl_append, ← list_step]
    exact ih (w.step c)

/-- **What is watched is what was watched last, of what was reached.** Its size is the number of
locations about which the last call was to watch them, and the number of those that were missed and
stay. To watch what is watched changes nothing. A path is not watched any longer after it was taken out,
and is added anew when it is watched again, unless it was watched and did not exist when it was taken
out: then it stays, and is not added. -/
theorem watched_run (t : FileTree) (calls : List WatchCall) :
    let w := (new t).run calls
    let h := (new t).history calls
    (w.list.watched.Nodup ∧ ∀ l, l ∈ w.list.watched ↔ h.lastReached? l = some .watched) ∧
    w.list.size = (h.marked .watched).length +
      ((h.marked .missed).filter (· ∈ w.list.watched)).length ∧
    (∀ p, (w.list.watch w.files p).2 = .ok () ↔ w.files.pathExists p = true) ∧
    (∀ c : WatchCall, (∀ x ∈ c.marks w.files, x.2 = .watched ∧ x.1 ∈ w.list.watched) →
      (w.step c).list = w.list) ∧
    ∀ p l, w.files.spelled? p = some l →
      let left := w.list.unwatch w.files p
      (l ∈ left.watched ↔ l ∈ w.list.watched ∧ w.files.pathExists p = false) ∧
      (∀ l', l' ≠ l → (l' ∈ left.watched ↔ l' ∈ w.list.watched)) ∧
      ∀ t' : FileTree, t'.locate p = .ok l →
        left.watch t' p = (if l ∈ w.list.watched ∧ w.files.pathExists p = false then left
          else ⟨left.watched ++ [l]⟩, .ok ()) := by
  intro w h
  have hlist : w.list = h.foldl WatchList.mark ∅ := list_run (new t) calls
  have hwatched := WatchList.watched_marks h
  rw [← hlist] at hwatched
  refine ⟨hwatched, WatchList.size_eq hwatched.1 hwatched.2, ?_, ?_, ?_⟩
  · intro p
    rw [WatchList.watch, FileTree.pathExists]
    cases w.files.locate p <;> simp [Except.isOk, Except.toBool]
  · intro c hc
    rw [list_step]
    exact WatchList.foldl_mark_of_watched hc
  · intro p l hp left
    have hunwatch : left = _ := WatchList.unwatch_eq hp
    cases hexists : w.files.pathExists p with
    | false =>
      rw [hexists] at hunwatch
      have hleft : left = w.list := hunwatch
      refine ⟨by simp [hleft], fun l' _ => by rw [hleft], fun t' ht' => ?_⟩
      rw [WatchList.watch_of_locate ht', hleft]
      simp
    | true =>
      rw [hexists] at hunwatch
      have hleft : left.watched = w.list.watched.filter (· ≠ l) := congrArg WatchList.watched hunwatch
      refine ⟨by simp [hleft], fun l' hne => by simp [hleft, hne], fun t' ht' => ?_⟩
      rw [WatchList.watch_of_locate ht', if_neg (by simp [hleft])]
      simp

/-- A file is watched and removed. -/
def removedFile : List WatchCall :=
  [.edit (.write "/a.toml" .empty none), .watch "/a.toml", .edit (.remove "/a.toml")]

/-- A removed file that is taken out of the list stays. It is counted, though nothing was to be watched
last, and is not added when it is there again. -/
theorem watched_run_removedFile :
    let w := (new .empty).run removedFile
    let left := w.list.unwatch w.files "/a.toml"
    let h := (new .empty).history (removedFile ++ [.unwatch "/a.toml"])
    let t' := w.files.edit (.write "/a.toml" .empty none)
    w.files.spelled? "/a.toml" = some ["a.toml"] ∧ ["a.toml"] ∈ left.watched ∧
      (left.size = 1 ∧ h.marked .watched = []) ∧
      t'.locate "/a.toml" = .ok ["a.toml"] ∧ left.watch t' "/a.toml" = (left, .ok ()) := by
  intro w left h t'
  have hp : w.files.spelled? "/a.toml" = some ["a.toml"] := by decide +kernel
  have hmem : ["a.toml"] ∈ w.list.watched := by decide +kernel
  have hgone : w.files.pathExists "/a.toml" = false := by decide +kernel
  have ht' : t'.locate "/a.toml" = .ok ["a.toml"] := toOption_eq_some_iff.1 (by decide +kernel)
  obtain ⟨-, -, -, -, hunwatch⟩ := watched_run .empty removedFile
  obtain ⟨hleft, -, hwatch⟩ := hunwatch "/a.toml" ["a.toml"] hp
  obtain ⟨-, hsize, -⟩ := watched_run .empty (removedFile ++ [.unwatch "/a.toml"])
  refine ⟨hp, hleft.2 ⟨hmem, hgone⟩, ⟨hsize.trans (by decide +kernel), by decide +kernel⟩, ht', ?_⟩
  exact (hwatch t' ht').trans (by rw [if_pos ⟨hmem, hgone⟩])

end Watcher

end AtomicCss
