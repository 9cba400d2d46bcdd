import AtomicCss.Proofs.Sheet.Flattening

/-! # Failures of a sheet

A sheet fails when the value of a declaration does. The declarations that matter are those of the
root, of media queries and of selectors, except under a selector whose text holds none; the walk
over the document meets them in the order in which they are written (`Document.written`), and they
are told by the containers alone (`Document.WellFormed.mem_written_iff`). Writing fails just as
resolving them one after the other (`Document.verdict_sheet`). The main result is
`Document.sheet_fails_first`. -/

namespace AtomicCss

/-! ## Verdicts -/

section Verdict

variable {α β ε : Type} {x : Except ε α} {e : ε}

/-- Whether there is a result, or else the error. -/
def verdict (x : Except ε α) : Except ε Unit := x.map fun _ => ()

theorem verdict_eq_error_iff : verdict x = .error e ↔ x = .error e := by
  cases x <;> simp [verdict, Except.map]

theorem verdict_eq_ok_iff : verdict x = .ok () ↔ ∃ a, x = .ok a := by
  cases x <;> simp [verdict, Except.map]

theorem verdict_mapM_append {f : α → Except ε β} (l l' : List α) :
    verdict ((l ++ l').mapM f) = verdict (l.mapM f) >>= fun _ => verdict (l'.mapM f) := by
  rw [List.mapM_append]
  cases l.mapM f with
  | error e => rfl
  | ok first => cases l'.mapM f <;> rfl

theorem mapM_eq_ok_iff {f : α → Except ε β} {l : List α} :
    (∃ ys, l.mapM f = .ok ys) ↔ ∀ x ∈ l, ∃ y, f x = .ok y := by
  induction l with
  | nil => exact iff_of_true ⟨[], rfl⟩ nofun
  | cons x l ih =>
    rw [List.forall_mem_cons, ← ih, List.mapM_cons]
    cases f x with
    | error e => simp [bind, Except.bind]
    | ok y => cases l.mapM f <;> simp [bind, Except.bind, pure, Except.pure]

theorem mapM_cons_eq_error_iff {f : α → Except ε β} {a : α} {l : List α} :
    (a :: l).mapM f = .error e ↔
      f a = .error e ∨ (∃ b, f a = .ok b) ∧ l.mapM f = .error e := by
  rw [List.mapM_cons]
  cases f a with
  | error e' => simp [bind, Except.bind]
  | ok b => cases l.mapM f <;> simp [bind, Except.bind, pure, Except.pure]

/-- The elements of a list are taken in order until one fails. -/
theorem mapM_eq_error_iff {f : α → Except ε β} {l : List α} :
    l.mapM f = .error e ↔ ∃ front a back, l = front ++ a :: back ∧
      (∀ b ∈ front, ∃ y, f b = .ok y) ∧ f a = .error e := by
  induction l with
  | nil => simp [pure, Except.pure]
  | cons a l ih =>
    rw [mapM_cons_eq_error_iff, ih]
    constructor
    · rintro (ha | ⟨ha, front, b, back, rfl, hfront, hb⟩)
      · exact ⟨[], a, l, rfl, nofun, ha⟩
      · exact ⟨a :: front, b, back, rfl, List.forall_mem_cons.2 ⟨ha, hfront⟩, hb⟩
    · rintro ⟨front, b, back, heq, hfront, hb⟩
      cases front with
      | nil =>
        obtain ⟨rfl, -⟩ := List.cons.inj heq
        exact .inl hb
      | cons c front =>
        obtain ⟨rfl, rfl⟩ := List.cons.inj heq
        obtain ⟨ha, hfront⟩ := List.forall_mem_cons.1 hfront
        exact .inr ⟨ha, front, b, back, rfl, hfront, hb⟩

end Verdict

/-! ## Writing fails as resolving does -/

section Texts

variable {vars : Variables} {config : String} {e : Error}

theorem Written.text_eq_ok_iff {x : Written} :
    (∃ text, x.text vars config = .ok text) ↔ ∃ value, x.value vars = .ok value := by
  rw [text]
  cases x.value vars <;> simp

theorem Written.text_eq_error_iff {x : Written} : x.text vars config = .error e ↔
    ∃ cause, x.value vars = .error cause ∧ e = .lookup cause config x.path := by
  rw [text]
  cases x.value vars <;> simp [eq_comm]

theorem Visit.verdict_text? (v : Visit) (indent : String) :
    verdict (v.text? vars config indent) = verdict (v.written.mapM (Written.text · vars config)) := by
  obtain ⟨above, content⟩ := v
  cases content with
  | raw css => rfl
  | container id kind block raws =>
    unfold text?
    cases (written ⟨above, .container id kind block raws⟩).mapM (Written.text · vars config) <;> rfl

theorem Visit.verdict_leaves (vs : List Visit) (indent : String) :
    verdict (leaves vs vars config indent) =
      verdict ((vs.flatMap written).mapM (Written.text · vars config)) := by
  induction vs with
  | nil => rfl
  | cons v vs ih =>
    rw [List.flatMap_cons, verdict_mapM_append, ← verdict_text? v indent, ← ih,
      leaves_cons, leaf?]
    cases v.text? vars config indent with
    | error e => rfl
    | ok text => cases leaves vs vars config indent <;> rfl

end Texts

namespace Document

variable {d : Document} {v : Visit} {x : Written} {c : Chain} {id : ContainerId} {kind : Kind}
  {block : Block} {raws : List String}

theorem WellFormed.verdict_sheet (h : d.WellFormed) (vars : Variables) (config : String)
    (layout : Layout) : verdict (d.sheet vars config layout) =
      verdict (d.written.mapM (Written.text · vars config)) := by
  have hids : d.tree.ids.Nodup := by
    rw [h.ids_tree_perm.nodup_iff]
    exact List.nodup_range'
  have hchunks := Writer.chunks_eq_assembled (w := ⟨vars, config, layout.indent⟩) _ [] hids
  have hplace : Place.outermost = Chain.place [] := rfl
  rw [written, ← Visit.verdict_leaves _ layout.indent, sheet, hplace, hchunks,
    Writer.assembled, visits]
  cases Visit.leaves (d.tree.visits []) vars config layout.indent <;> rfl

/-! ## Which declarations are written -/

mutual

/-- Where a node shows a child, its containers are visited as they are stored. -/
theorem container_of_mem_visits : ∀ (n : Node) {child : Child} {above : Chain},
    d.Depicts child n → v ∈ n.visits above → v.content = .container id kind block raws →
    ∃ stored, d.get? id = some stored ∧ stored.kind = kind ∧ stored.block = block
  | .container _ _ _ children, _, _, hd, hv, hcontent => by
    cases hd with
    | container get hchildren =>
      rw [Node.visits] at hv
      rcases List.mem_cons.1 hv with rfl | hv
      · cases hcontent
        exact ⟨_, get, rfl, rfl⟩
      · exact container_of_mem_visitsOf children hchildren hv hcontent
  | .raw css, _, _, _, hv, hcontent => by
    rw [Node.visits, List.mem_singleton] at hv
    rw [hv] at hcontent
    cases hcontent
  | .slot _ entries, _, _, hd, hv, hcontent => by
    cases hd with
    | slot get hentries => exact container_of_mem_visitsOf entries hentries hv hcontent

theorem container_of_mem_visitsOf : ∀ (ns : List Node) {children : List Child} {above : Chain},
    List.Forall₂ d.Depicts children ns → v ∈ Node.visitsOf above ns →
    v.content = .container id kind block raws →
    ∃ stored, d.get? id = some stored ∧ stored.kind = kind ∧ stored.block = block
  | [], _, _, _, hv, _ => by cases hv
  | n :: ns, _, _, .cons hn hns, hv, hcontent => by
    rw [Node.visitsOf] at hv
    rcases List.mem_append.1 hv with hv | hv
    · exact container_of_mem_visits n hn hv hcontent
    · exact container_of_mem_visitsOf ns hns hv hcontent

end

/-- There is one path to a container. -/
theorem WellFormed.path_unique (h : d.WellFormed) {c c' : Chain} (hc : d.Path c) (hc' : d.Path c')
    (hlast : c.getLast?.map Ancestor.id = c'.getLast?.map Ancestor.id) : c = c' := by
  -- the root hangs nowhere
  have hroot {p : Nat} : rootId ∉ d.below p := fun hmem => by
    have := h.mem_placed_iff.1 (mem_placed_of_mem_below hmem)
    simp only [rootId] at this
    omega
  induction hc generalizing c' with
  | root get =>
    cases hc' with
    | root get' =>
      rw [Option.some.inj (get.symm.trans get')]
    | step path' mem' get' =>
      simp at hlast
      exact absurd (hlast ▸ mem') hroot
  | @step above p id stored path mem get ih =>
    cases hc' with
    | root get' =>
      simp at hlast
      exact absurd (hlast ▸ mem) hroot
    | @step above' p' id' stored' path' mem' get' =>
      obtain rfl : id = id' := by simpa using hlast
      have hparent := h.parent_unique mem mem'
      rw [ih path' (by simp [hparent]), Option.some.inj (get.symm.trans get')]

/-- A declaration is written if it belongs to a container that writes a rule with a selector. -/
def Writes (d : Document) (x : Written) : Prop :=
  d.Path x.chain ∧ ∃ a stored, x.chain.getLast? = some a ∧ d.get? a.id = some stored ∧
    (∀ name, stored.kind ≠ .keyframes name) ∧ x.chain.selectors?.getD [":root"] ≠ [] ∧
    x.declaration ∈ stored.block.declarations

theorem WellFormed.mem_written_iff (h : d.WellFormed) : x ∈ d.written ↔ d.Writes x := by
  have hdepicts {v : Visit} (hv : v ∈ d.visits) {id : ContainerId} {kind : Kind} {block : Block}
      {raws : List String} (hcontent : v.content = .container id kind block raws) :
      ∃ stored, d.get? id = some stored ∧ stored.kind = kind ∧ stored.block = block :=
    container_of_mem_visits d.tree h.depicts_tree hv hcontent
  rw [written, List.mem_flatMap]
  constructor
  · rintro ⟨v, hv, hx⟩
    obtain ⟨id, kind, block, raws, hcontent, hkind, hselectors, hchain, hx⟩ := Visit.mem_written.1 hx
    obtain ⟨stored, hget, rfl, rfl⟩ := hdepicts hv hcontent
    have hlast : v.chain.getLast? = some ⟨id, stored.kind⟩ := by simp [Visit.chain, hcontent]
    rw [← hchain] at hselectors hlast
    exact ⟨hchain ▸ h.path_of_mem_visits hv, _, stored, hlast, hget, hkind, hselectors, hx⟩
  · rintro ⟨hpath, a, stored, hlast, hget, hkind, hselectors, hx⟩
    have hvisited : a.id ∈ d.visits.filterMap Visit.container? := by
      rw [h.container?_visits_perm.mem_iff, List.mem_range'_1]
      have := get?_eq_some_size hget
      omega
    obtain ⟨v, hv, hid⟩ := List.mem_filterMap.1 hvisited
    obtain ⟨above, content⟩ := v
    cases content with
    | raw css => cases hid
    | container id kind block raws =>
      obtain rfl : id = a.id := Option.some.inj hid
      obtain ⟨stored', hget', rfl, rfl⟩ := hdepicts hv rfl
      obtain rfl := Option.some.inj (hget.symm.trans hget')
      have hchain := h.path_unique hpath (h.path_of_mem_visits hv) (by simp [hlast, Visit.chain])
      rw [hchain] at hselectors
      exact ⟨_, hv, Visit.mem_written.2 ⟨_, _, _, _, rfl, hkind, hselectors, hchain, hx⟩⟩

/-- The main result. The declarations that are written are those of the root, of media queries and
of selectors whose rule has a selector. A sheet is written if all of their values resolve in the
scopes around them. Otherwise it fails as the first one does, in the order of the walk, and the
error tells the config, the labels of the containers from the root on and the property. -/
theorem sheet_fails_first (calls : List Call) (vars : Variables) (config : String)
    (layout : Layout) :
    (∀ x, x ∈ (empty.run calls).written ↔ (empty.run calls).Writes x) ∧
    ((∃ css, (empty.run calls).sheet vars config layout = .ok css) ↔
      ∀ x, (empty.run calls).Writes x → ∃ value, x.value vars = .ok value) ∧
    ∀ e, (empty.run calls).sheet vars config layout = .error e ↔
      ∃ front x back cause, (empty.run calls).written = front ++ x :: back ∧
        (∀ y ∈ front, ∃ value, y.value vars = .ok value) ∧ x.value vars = .error cause ∧
        e = .lookup cause config x.path := by
  have h := wellFormed_run calls
  have hverdict := h.verdict_sheet vars config layout
  refine ⟨fun x => h.mem_written_iff, ?_, fun e => ?_⟩
  · rw [← verdict_eq_ok_iff, hverdict, verdict_eq_ok_iff, mapM_eq_ok_iff]
    simp only [Written.text_eq_ok_iff, h.mem_written_iff]
  · rw [← verdict_eq_error_iff, hverdict, verdict_eq_error_iff, mapM_eq_error_iff]
    simp only [Written.text_eq_ok_iff, Written.text_eq_error_iff]
    constructor
    · rintro ⟨front, x, back, hwritten, hfront, cause, hcause, he⟩
      exact ⟨front, x, back, cause, hwritten, hfront, hcause, he⟩
    · rintro ⟨front, x, back, cause, hwritten, hfront, hcause, he⟩
      exact ⟨front, x, back, hwritten, hfront, cause, hcause, he⟩

end Document

end AtomicCss
