import AtomicCss.Proofs.Variables.Search

/-! # Why resolution fails

A failed resolution has come to a dead end: all declarations of a name that are in sight there
have been entered. Which failure this is depends on the names on the way, also on those that are
no longer in sight: the name is reported as unresolved if none of its declarations has been
entered, and as the end of a cycle otherwise.

Main statements: resolution ends, and a reported cycle is one of declarations that mention each
other (`resolution_ends`); which of the two failures is reported (`unresolved_or_cycle`). -/

namespace AtomicCss.Variables

variable {vs : Variables} {chain : List ContainerId} {way : List Visible} {d : Visible}
  {v : Value} {name : String} {n m : Nat} {fs : List Fragment} {e : DeadEnd}
  {r r' : Except DeadEnd String}

/-! ## Dead ends -/

theorem eq_error_of_map {f : String → String} (h : .error e = r.map f) : r = .error e := by
  cases r with
  | error e' =>
    cases h
    rfl
  | ok text => cases h

/-- A dead end is at the end of a way, and its name is mentioned there. -/
theorem Resolves.trail (h : vs.Resolves chain n way fs (.error e)) (hway : Trail vs chain v way)
    (hfs : ∀ name, .ref ⟨name⟩ ∈ fs → name ∈ mentionsAt v way) :
    Trail vs chain v e.way ∧ e.name ∈ mentionsAt v e.way ∧
      vs.ahead? chain e.way e.name (outlook chain e.way) = none := by
  generalize hr : Except.error e = r at h
  induction h with
  | nil => cases hr
  | text tail ih =>
    exact ih hway (fun name hmem => hfs name (List.mem_cons_of_mem _ hmem))
      (eq_error_of_map hr).symm
  | lost ahead =>
    cases hr
    exact ⟨hway, hfs _ List.mem_cons_self, ahead⟩
  | failed ahead head ih =>
    cases hr
    have hway := hway.cons (hfs _ List.mem_cons_self) ahead
    exact ih hway (fun name hmem => Value.mem_mentions.2 hmem) rfl
  | ref ahead head tail ihhead ihtail =>
    exact ihtail hway (fun name hmem => hfs name (List.mem_cons_of_mem _ hmem))
      (eq_error_of_map hr).symm

theorem Resolves.trail_of_value (h : vs.Resolves chain n [] v.fragments (.error e)) :
    Trail vs chain v e.way ∧ e.name ∈ mentionsAt v e.way ∧
      vs.ahead? chain e.way e.name (outlook chain e.way) = none :=
  h.trail .nil fun _ hmem => Value.mem_mentions.2 hmem

/-- Resolution takes the same steps whatever the bound is. -/
theorem Resolves.unique (h : vs.Resolves chain n way fs r) (h' : vs.Resolves chain m way fs r') :
    r' = r := by
  induction h generalizing m r' with
  | nil =>
    cases h'
    rfl
  | text tail ih =>
    cases h' with
    | text tail' => rw [ih tail']
  | lost ahead =>
    cases h' with
    | lost _ => rfl
    | failed ahead' _ => simp [ahead] at ahead'
    | ref ahead' _ _ => simp [ahead] at ahead'
  | failed ahead head ih =>
    cases h' with
    | lost ahead' => simp [ahead] at ahead'
    | failed ahead' head' =>
      obtain rfl := Option.some.inj (ahead.symm.trans ahead')
      exact ih head'
    | ref ahead' head' _ =>
      obtain rfl := Option.some.inj (ahead.symm.trans ahead')
      cases ih head'
  | ref ahead head tail ihhead ihtail =>
    cases h' with
    | lost ahead' => simp [ahead] at ahead'
    | failed ahead' head' =>
      obtain rfl := Option.some.inj (ahead.symm.trans ahead')
      cases ihhead head'
    | ref ahead' head' tail' =>
      obtain rfl := Option.some.inj (ahead.symm.trans ahead')
      obtain rfl := Except.ok.inj (ihhead head')
      rw [ihtail tail']

/-- Whatever is declared in sight of a dead end under its name is on the way to it. -/
theorem Trail.mem_of_ahead?_eq_none (h : Trail vs chain v way)
    (hend : vs.ahead? chain way name (outlook chain way) = none)
    (hd : d.position < outlook chain way)
    (hdeclared : vs.declaredAt? chain name d.position = some d) : d ∈ way := by
  rcases ahead?_eq_none hend hd with ⟨d', hmem, hposition, rfl⟩ | hnone
  · have hsame := h.declared d' hmem
    rw [hposition, hdeclared] at hsame
    exact Option.some.inj hsame ▸ hmem
  · rw [hdeclared] at hnone
    cases hnone

/-! ## Reported cycles -/

theorem mem_namesOn : name ∈ namesOn way ↔ ∃ d ∈ way, d.name = name := by simp [namesOn]

theorem DeadEnd.error_eq_cycle {names : List String} :
    e.error = .cycle names ↔ e.name ∈ namesOn e.way ∧ names = namesOn e.way ++ [e.name] := by
  rw [DeadEnd.error]
  split <;> simp_all [eq_comm]

theorem DeadEnd.error_eq_unresolved :
    e.error = .unresolved name ↔ e.name ∉ namesOn e.way ∧ name = e.name := by
  rw [DeadEnd.error]
  split <;> simp_all [eq_comm]

theorem resolve_eq_resolveValue (target : Reference) :
    vs.resolve chain target = vs.resolveValue chain (.ref target) :=
  resolveFragments_singleton.symm

/-- The declarations of a reported cycle, in the order in which they were entered: each one's value
mentions the name of the next, and the value of the last one a name that was there before. -/
theorem exists_cycle {target : Reference} {names : List String}
    (h : vs.resolve chain target = .error (.cycle names)) :
    ∃ (ds : List Visible) (last : String), names = ds.map (·.name) ++ [last] ∧
      last ∈ ds.map (·.name) ∧ names.head? = some target.name ∧
      (∀ d ∈ ds, vs.declaredAt? chain d.name d.position = some d) ∧
      (ds.map (·.position)).Pairwise (· ≥ ·) ∧
      ds.IsChain (fun d e => e.name ∈ d.value.mentions) ∧
      ∀ d ∈ ds.getLast?, last ∈ d.value.mentions := by
  obtain ⟨r, hr, hvalue⟩ := exists_resolves vs chain (.ref target)
  rw [← resolve_eq_resolveValue, h] at hvalue
  cases r with
  | ok text => cases hvalue
  | error e =>
    obtain ⟨hmem, rfl⟩ := DeadEnd.error_eq_cycle.1 (Except.error.inj hvalue).symm
    obtain ⟨htrail, hmention, -⟩ := hr.trail_of_value
    have hfirst (d : Visible) (hd : e.way.getLast? = some d) : d.name = target.name := by
      simpa [Value.mentions, Value.fragments] using htrail.first d hd
    refine ⟨e.way.reverse, e.name, rfl, hmem, ?head, ?declared, ?positions, ?mentions, ?last⟩
    case head =>
      cases hd : e.way.getLast? with
      | none => simp [List.getLast?_eq_none_iff.1 hd, namesOn] at hmem
      | some d => simp [namesOn, hd, hfirst d hd]
    case declared =>
      intro d hd
      exact htrail.declared d (List.mem_reverse.1 hd)
    case positions =>
      rw [List.map_reverse, List.pairwise_reverse, List.pairwise_map]
      exact htrail.antitone
    case mentions =>
      rw [List.isChain_reverse]
      exact htrail.linked.imp fun _ _ hlink => hlink.2
    case last =>
      intro d hd
      rw [List.getLast?_reverse] at hd
      rw [mentionsAt, hd] at hmention
      exact hmention

/-- Resolution ends for every value, with no more declarations entered inside each other than are
visible, and it is what the running functions compute. If a reference is reported to end in a cycle,
then the names begin with its own, the last one was there before, and all but the last are those of
declarations that mention each other and stand further and further outside. -/
theorem resolution_ends (vs : Variables) (chain : List ContainerId) :
    (∀ v, ∃ r, vs.Resolves chain (vs.visibleCount chain) [] v.fragments r ∧
      (∀ n r', vs.Resolves chain n [] v.fragments r' → r' = r) ∧
      vs.resolveValue chain v = r.mapError DeadEnd.error) ∧
    ∀ (target : Reference) (names : List String),
      vs.resolve chain target = .error (.cycle names) →
      ∃ (ds : List Visible) (last : String), names = ds.map (·.name) ++ [last] ∧
        last ∈ ds.map (·.name) ∧ names.head? = some target.name ∧
        (∀ d ∈ ds, vs.declaredAt? chain d.name d.position = some d) ∧
        (ds.map (·.position)).Pairwise (· ≥ ·) ∧
        ds.IsChain (fun d e => e.name ∈ d.value.mentions) ∧
        ∀ d ∈ ds.getLast?, last ∈ d.value.mentions := by
  constructor
  · intro v
    obtain ⟨r, hr, hvalue⟩ := exists_resolves vs chain v
    exact ⟨r, hr, fun n r' h' => hr.unique h', hvalue⟩
  · intro target names h
    exact exists_cycle h

/-- Two colors that are set to each other, and a line that has one of them. -/
def circular : Variables where
  entries := [⟨1, "ink", .ref ⟨"text"⟩⟩, ⟨1, "text", .composite [.text "dark ", .ref ⟨"ink"⟩]⟩,
    ⟨2, "line", .ref ⟨"ink"⟩⟩]

theorem resolution_ends_circular :
    circular.resolve [1, 2] ⟨"line"⟩ = .error (.cycle ["line", "ink", "text", "ink"]) ∧
    ∃ (ds : List Visible) (last : String),
      ["line", "ink", "text", "ink"] = ds.map (·.name) ++ [last] ∧ last ∈ ds.map (·.name) ∧
        (ds.map (·.position)).Pairwise (· ≥ ·) := by
  let line : Visible := ⟨1, "line", .ref ⟨"ink"⟩⟩
  let ink : Visible := ⟨0, "ink", .ref ⟨"text"⟩⟩
  let text : Visible := ⟨0, "text", .composite [.text "dark ", .ref ⟨"ink"⟩]⟩
  have hend : circular.Resolves [1, 2] 0 [text, ink, line] text.value.fragments
      (.error ⟨[text, ink, line], "ink"⟩) := .text (.lost rfl)
  have hsteps : circular.Resolves [1, 2] 3 [] [.ref ⟨"line"⟩] (.error ⟨[text, ink, line], "ink"⟩) :=
    .failed rfl (.failed rfl (.failed rfl hend))
  have hcycle : circular.resolve [1, 2] ⟨"line"⟩ =
      .error (.cycle ["line", "ink", "text", "ink"]) := by
    rw [resolve_eq_resolveValue, hsteps.resolveValue_eq]
    rfl
  obtain ⟨ds, last, hnames, hmem, -, -, hpositions, -⟩ :=
    (resolution_ends circular [1, 2]).2 ⟨"line"⟩ _ hcycle
  exact ⟨hcycle, ds, last, hnames, hmem, hpositions⟩

/-! ## Which failure is reported -/

/-- Some scope that is in sight at a dead end declares its name. -/
def InSight (vs : Variables) (chain : List ContainerId) (e : DeadEnd) : Prop :=
  ∃ d, vs.declaredAt? chain e.name d.position = some d ∧ d.position < outlook chain e.way

theorem Resolves.resolveValue_eq_error_iff (h : vs.Resolves chain n [] v.fragments (.error e))
    {cause : LookupError} : vs.resolveValue chain v = .error cause ↔ e.error = cause := by
  rw [h.resolveValue_eq]
  simp [Except.mapError]

theorem Resolves.unresolved_iff (h : vs.Resolves chain n [] v.fragments (.error e)) :
    vs.resolveValue chain v = .error (.unresolved e.name) ↔ ¬ ∃ d ∈ e.way, d.name = e.name := by
  rw [h.resolveValue_eq_error_iff, DeadEnd.error_eq_unresolved, mem_namesOn, and_iff_left rfl]

theorem Resolves.cycle_iff (h : vs.Resolves chain n [] v.fragments (.error e)) :
    (∃ names, vs.resolveValue chain v = .error (.cycle names)) ↔ ∃ d ∈ e.way, d.name = e.name := by
  simp only [h.resolveValue_eq_error_iff, DeadEnd.error_eq_cycle, mem_namesOn, exists_and_left,
    exists_eq, and_true]

/-- A failed resolution has come to a dead end, where each declaration in sight has been entered.
The name is reported as unresolved if none of its declarations has been entered, be it in sight or
not, and as the end of a cycle otherwise. So the failure tells whether some scope in sight declares the
name, except where only declarations further inside have been entered. -/
theorem unresolved_or_cycle (vs : Variables) (chain : List ContainerId) (v : Value) :
    (∀ cause, vs.resolveValue chain v = .error cause →
      ∃ e, vs.Resolves chain (vs.visibleCount chain) [] v.fragments (.error e)) ∧
    ∀ n e, vs.Resolves chain n [] v.fragments (.error e) →
      (Trail vs chain v e.way ∧ e.name ∈ mentionsAt v e.way) ∧
      (∀ d, vs.declaredAt? chain e.name d.position = some d → d.position < outlook chain e.way →
        d ∈ e.way) ∧
      (vs.resolveValue chain v = .error (.unresolved e.name) ↔ ¬ ∃ d ∈ e.way, d.name = e.name) ∧
      ((∃ names, vs.resolveValue chain v = .error (.cycle names)) ↔ ∃ d ∈ e.way, d.name = e.name) ∧
      (((vs.resolveValue chain v = .error (.unresolved e.name) ↔ ¬ vs.InSight chain e) ∧
          ((∃ names, vs.resolveValue chain v = .error (.cycle names)) ↔ vs.InSight chain e)) ↔
        ((∃ d ∈ e.way, d.name = e.name) → vs.InSight chain e)) := by
  constructor
  · intro cause hcause
    obtain ⟨r, hr, hvalue⟩ := exists_resolves vs chain v
    cases r with
    | ok text =>
      rw [hcause] at hvalue
      cases hvalue
    | error e => exact ⟨e, hr⟩
  · intro n e h
    obtain ⟨htrail, hmention, hend⟩ := h.trail_of_value
    have hmem (d : Visible) (hd : vs.declaredAt? chain e.name d.position = some d)
        (hsight : d.position < outlook chain e.way) : d ∈ e.way :=
      htrail.mem_of_ahead?_eq_none hend hsight hd
    have hentered (hsight : vs.InSight chain e) : ∃ d ∈ e.way, d.name = e.name := by
      obtain ⟨d, hd, hlt⟩ := hsight
      exact ⟨d, hmem d hd hlt, (declaredAt?_eq_some hd).2.1⟩
    refine ⟨⟨htrail, hmention⟩, hmem, h.unresolved_iff, h.cycle_iff, ?_⟩
    rw [h.unresolved_iff, h.cycle_iff]
    constructor
    · rintro ⟨-, hiff⟩
      exact hiff.1
    · intro hsight
      have hiff : (∃ d ∈ e.way, d.name = e.name) ↔ vs.InSight chain e := ⟨hsight, hentered⟩
      exact ⟨not_congr hiff, hiff⟩

/-- A gap that is set to a space further outside, which mentions a gap in turn. -/
def innerGap : Variables where
  entries := [⟨1, "space", .ref ⟨"gap"⟩⟩, ⟨2, "gap", .ref ⟨"space"⟩⟩]

/-- The outer scope sees no gap. Yet its space is reported to end in a cycle, not to be unresolved,
when it is reached from the inner gap. -/
theorem unresolved_or_cycle_innerGap : ∃ e,
    innerGap.Resolves [1, 2] 2 [] [.ref ⟨"gap"⟩] (.error e) ∧ ¬ innerGap.InSight [1, 2] e ∧
      (∃ names, innerGap.resolveValue [1, 2] (.ref ⟨"gap"⟩) = .error (.cycle names)) ∧
      ¬ (innerGap.resolveValue [1, 2] (.ref ⟨"gap"⟩) = .error (.unresolved e.name) ↔
        ¬ innerGap.InSight [1, 2] e) := by
  let gap : Visible := ⟨1, "gap", .ref ⟨"space"⟩⟩
  let space : Visible := ⟨0, "space", .ref ⟨"gap"⟩⟩
  have hsteps : innerGap.Resolves [1, 2] 2 [] [.ref ⟨"gap"⟩] (.error ⟨[space, gap], "gap"⟩) :=
    .failed rfl (.failed rfl (.lost rfl))
  have hsight : ¬ innerGap.InSight [1, 2] ⟨[space, gap], "gap"⟩ := by
    rintro ⟨d, hd, hlt⟩
    obtain hposition : d.position = 0 := Nat.lt_one_iff.1 hlt
    rw [hposition] at hd
    cases hd
  have hentered : ∃ d ∈ [space, gap], d.name = "gap" := ⟨gap, by simp, rfl⟩
  obtain ⟨-, -, hunresolved, hcycle, -⟩ :=
    (unresolved_or_cycle innerGap [1, 2] (.ref ⟨"gap"⟩)).2 2 _ hsteps
  exact ⟨_, hsteps, hsight, hcycle.2 hentered, fun hiff => hunresolved.1 (hiff.2 hsight) hentered⟩

end AtomicCss.Variables
