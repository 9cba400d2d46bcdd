import AtomicCss.Proofs.Variables.Lexical
import Mathlib.Data.List.Chain

/-! # Resolution step by step

Resolution enters one declaration inside the other. The way to where it stands is the list of the
declarations that it has entered and not left, the last one first. A name leads on to its innermost
declaration that is in sight there and not on the way; where there is none, resolution has come to a
dead end. `Resolves` follows the ways with a bound on how many more declarations may be entered
inside each other.

Main statement: as many as there are visible declarations are enough to resolve any value, whatever
refers to what (`exists_resolves`). -/

namespace AtomicCss

/-- The end of a way from which a name leads no further. -/
structure DeadEnd where
  way : List Visible
  name : String
  deriving DecidableEq, Repr

/-- The names on a way, in the order in which they were entered. -/
def namesOn (way : List Visible) : List String := way.reverse.map (·.name)

/-- The failure that is reported from a dead end. -/
def DeadEnd.error (e : DeadEnd) : LookupError :=
  if e.name ∈ namesOn e.way then .cycle (namesOn e.way ++ [e.name]) else .unresolved e.name

namespace Variables

/-! ## Where a name leads -/

/-- How many scopes of the chain are in sight at the end of a way. -/
def outlook (chain : List ContainerId) (way : List Visible) : Nat :=
  way.head?.elim chain.length (·.position + 1)

/-- Some declaration on the way has this name and stands at this position. -/
def Entered (way : List Visible) (name : String) (position : Nat) : Prop :=
  ∃ d ∈ way, d.position = position ∧ d.name = name

instance (way : List Visible) (name : String) (position : Nat) :
    Decidable (Entered way name position) :=
  inferInstanceAs (Decidable (∃ _ ∈ _, _))

/-- The innermost declaration of a name in the first `n` scopes of a chain that is not on the
way. -/
def ahead? (vs : Variables) (chain : List ContainerId) (way : List Visible) (name : String) :
    Nat → Option Visible
  | 0 => none
  | n + 1 =>
    if Entered way name n then vs.ahead? chain way name n
    else (vs.declaredAt? chain name n).or (vs.ahead? chain way name n)

/-- What some fragments at the end of a way resolve to, if at most `n` declarations are entered
inside each other behind it. -/
inductive Resolves (vs : Variables) (chain : List ContainerId) :
    Nat → List Visible → List Fragment → Except DeadEnd String → Prop
  | nil {n : Nat} {way : List Visible} : Resolves vs chain n way [] (.ok "")
  | text {n : Nat} {way : List Visible} {text : String} {fs : List Fragment}
      {r : Except DeadEnd String} (tail : Resolves vs chain n way fs r) :
      Resolves vs chain n way (.text text :: fs) (r.map (text ++ ·))
  | lost {n : Nat} {way : List Visible} {target : Reference} {fs : List Fragment}
      (ahead : vs.ahead? chain way target.name (outlook chain way) = none) :
      Resolves vs chain n way (.ref target :: fs) (.error ⟨way, target.name⟩)
  | failed {n : Nat} {way : List Visible} {target : Reference} {fs : List Fragment} {d : Visible}
      {e : DeadEnd} (ahead : vs.ahead? chain way target.name (outlook chain way) = some d)
      (head : Resolves vs chain n (d :: way) d.value.fragments (.error e)) :
      Resolves vs chain (n + 1) way (.ref target :: fs) (.error e)
  | ref {n : Nat} {way : List Visible} {target : Reference} {fs : List Fragment} {d : Visible}
      {text : String} {r : Except DeadEnd String}
      (ahead : vs.ahead? chain way target.name (outlook chain way) = some d)
      (head : Resolves vs chain n (d :: way) d.value.fragments (.ok text))
      (tail : Resolves vs chain (n + 1) way fs r) :
      Resolves vs chain (n + 1) way (.ref target :: fs) (r.map (text ++ ·))

variable {vs : Variables} {chain : List ContainerId} {way : List Visible} {d w : Visible}
  {v : Value} {name : String} {n m : Nat} {fs : List Fragment} {r : Except DeadEnd String}

theorem ahead?_eq_some (h : vs.ahead? chain way name n = some d) :
    d.position < n ∧ d.name = name ∧ vs.declaredAt? chain d.name d.position = some d ∧
      ¬ Entered way d.name d.position := by
  induction n with
  | zero => cases h
  | succ n ih =>
    rw [ahead?] at h
    split at h
    · exact ⟨Nat.lt_succ_of_lt (ih h).1, (ih h).2⟩
    · next hentered =>
      rcases Option.or_eq_some_iff.1 h with h | ⟨-, h⟩
      · obtain ⟨hposition, hname, -⟩ := declaredAt?_eq_some h
        rw [hposition, hname]
        exact ⟨Nat.lt_succ_self n, rfl, h, hentered⟩
      · exact ⟨Nat.lt_succ_of_lt (ih h).1, (ih h).2⟩

theorem ahead?_eq_none (h : vs.ahead? chain way name n = none) {p : Nat} (hp : p < n) :
    Entered way name p ∨ vs.declaredAt? chain name p = none := by
  induction n with
  | zero => exact absurd hp (Nat.not_lt_zero p)
  | succ n ih =>
    rw [ahead?] at h
    rcases Nat.lt_succ_iff_lt_or_eq.1 hp with hp | rfl
    · split at h
      · exact ih h hp
      · exact ih (Option.or_eq_none_iff.1 h).2 hp
    · split at h
      · next hentered => exact .inl hentered
      · exact .inr (Option.or_eq_none_iff.1 h).1

/-! ## Ways -/

/-- A way of declarations, the last one entered first: each is mentioned in the value of the one
before it and stands no further inside, and the first one is mentioned in the value that is
resolved. -/
structure Trail (vs : Variables) (chain : List ContainerId) (v : Value) (way : List Visible) :
    Prop where
  declared : ∀ d ∈ way, vs.declaredAt? chain d.name d.position = some d
  linked : way.IsChain fun d e => d.position ≤ e.position ∧ d.name ∈ e.value.mentions
  first : ∀ d, way.getLast? = some d → d.name ∈ v.mentions

namespace Trail

theorem nil : Trail vs chain v [] where
  declared := by simp
  linked := .nil
  first := by simp

theorem cons (h : Trail vs chain v way) (hname : name ∈ mentionsAt v way)
    (hd : vs.ahead? chain way name (outlook chain way) = some d) : Trail vs chain v (d :: way) := by
  obtain ⟨hposition, rfl, hdeclared, -⟩ := ahead?_eq_some hd
  refine ⟨List.forall_mem_cons.2 ⟨hdeclared, h.declared⟩, ?linked, ?first⟩
  case linked =>
    refine List.isChain_cons.2 ⟨fun e he => ?_, h.linked⟩
    rw [outlook, he] at hposition
    rw [mentionsAt, he] at hname
    exact ⟨Nat.le_of_lt_succ hposition, hname⟩
  case first =>
    intro e he
    cases way with
    | nil =>
      cases he
      exact hname
    | cons a way => exact h.first e (by simpa using he)

theorem antitone (h : Trail vs chain v way) :
    way.Pairwise fun d e => d.position ≤ e.position := by
  have hchain : way.IsChain fun d e => d.position ≤ e.position := h.linked.imp fun _ _ h => h.1
  have : IsTrans Visible fun d e => d.position ≤ e.position := ⟨fun _ _ _ => Nat.le_trans⟩
  exact List.isChain_iff_pairwise.1 hchain

theorem outlook_le (h : Trail vs chain v way) : outlook chain way ≤ chain.length := by
  cases way with
  | nil => exact Nat.le_refl _
  | cons d way => exact (declaredAt?_eq_some (h.declared d List.mem_cons_self)).2.2

/-- What the declarations on the way leave visible is what is in sight at its end and not on it. -/
theorem clear_iff (h : Trail vs chain v way) (hw : w ∈ vs.visible chain) :
    Clear way w ↔ w.position < outlook chain way ∧ ¬ Entered way w.name w.position := by
  have hsight : (∀ d ∈ way, w.position ≤ d.position) ↔ w.position < outlook chain way := by
    cases way with
    | nil => simpa [outlook] using position_lt_of_mem_visible hw
    | cons a way =>
      have hall := (List.pairwise_cons.1 h.antitone).1
      simp only [outlook, List.forall_mem_cons, List.head?_cons, Option.elim_some, Nat.lt_succ_iff]
      exact ⟨fun h => h.1, fun h => ⟨h, fun d hd => Nat.le_trans h (hall d hd)⟩⟩
  rw [← hsight]
  simp only [Clear, Entered]
  grind

end Trail

/-! ## Looking through what is visible -/

/-- What is visible at a position is declared there, if perhaps with another value. -/
theorem declaredAt?_ne_none (h : w ∈ vs.visible chain) :
    vs.declaredAt? chain w.name w.position ≠ none := by
  obtain ⟨⟨scope, p⟩, hp, hw⟩ := List.mem_flatMap.1 h
  obtain ⟨v, hv, rfl⟩ := List.mem_map.1 hw
  have hscope : chain[p]? = some scope := List.mem_zipIdx_iff_getElem?.1 (List.mem_reverse.1 hp)
  intro hnone
  have hfind : (vs.inScope scope).find? (·.name = v.name) = none := by
    simpa [declaredAt?, hscope] using hnone
  simpa using List.find?_eq_none.1 hfind v hv

/-- Looking through what is visible, but not on the way, finds what is ahead. -/
theorem find?_ahead (hn : n ≤ chain.length) :
    (vs.visible chain).find?
        (fun w => w.name = name ∧ w.position < n ∧ ¬ Entered way w.name w.position) =
      vs.ahead? chain way name n := by
  induction n with
  | zero => simp [ahead?]
  | succ n ih =>
    rw [ahead?, ← ih (Nat.le_of_succ_le hn)]
    have hlater (hnone : Entered way name n ∨ vs.declaredAt? chain name n = none) :
        (vs.visible chain).find?
            (fun w => w.name = name ∧ w.position < n ∧ ¬ Entered way w.name w.position) =
          (vs.visible chain).find?
            (fun w => w.name = name ∧ w.position < n + 1 ∧ ¬ Entered way w.name w.position) := by
      apply find?_eq_of_imp
      · grind
      · intro w hfound
        have hw := List.find?_some hfound
        have hdeclared := declaredAt?_ne_none (List.mem_of_find?_eq_some hfound)
        grind
    split
    · next hentered => exact (hlater (.inl hentered)).symm
    · next hentered =>
      cases hd : vs.declaredAt? chain name n with
      | none => exact (hlater (.inr hd)).symm
      | some d =>
        obtain ⟨hposition, hname, -⟩ := declaredAt?_eq_some hd
        have hinnermost : (vs.visible chain).find? (fun w => w.name = name ∧ w.position < n + 1) =
            some d := by
          rw [find?_visible hn, innermost?, hd, Option.some_or]
        rw [Option.some_or, ← hinnermost]
        apply find?_eq_of_imp
        · grind
        · grind

theorem Trail.find?_eq (h : Trail vs chain v way) :
    ((vs.visible chain).filter (Clear way)).find? (·.name = name) =
      vs.ahead? chain way name (outlook chain way) := by
  rw [List.find?_filter, ← find?_ahead h.outlook_le]
  apply find?_eq_of_imp
  · intro w hw hfound
    have := h.clear_iff hw
    grind
  · intro w hfound
    have := h.clear_iff (List.mem_of_find?_eq_some hfound)
    have := List.find?_some hfound
    grind

/-! ## Resolution on a way -/

theorem resolveName_dead {env : List Visible} {path : List String}
    (h : env.find? (·.name = name) = none) : resolveName env path name =
      .error (if name ∈ path then .cycle (path ++ [name]) else .unresolved name) := by
  rw [resolveName]
  split
  · next heq => rw [h] at heq; cases heq
  · rfl

theorem resolveName_ahead {env : List Visible} {path : List String}
    (h : env.find? (·.name = name) = some d) : resolveName env path name =
      resolveFragments (d.outside env) (path ++ [name]) d.value.fragments := by
  rw [resolveName]
  split
  · next heq =>
    rw [h] at heq
    cases heq
    rfl
  · next heq => rw [h] at heq; cases heq

theorem namesOn_cons : namesOn (d :: way) = namesOn way ++ [d.name] := by simp [namesOn]

theorem mapError_append (text : String) (r : Except DeadEnd String) :
    (do let rest ← r.mapError DeadEnd.error; return text ++ rest) =
      (r.map (text ++ ·)).mapError DeadEnd.error := by
  cases r <;> rfl

/-- What a name resolves to is what the declaration resolves to that it leads to. -/
theorem Trail.resolveName_eq (h : Trail vs chain v way) (hname : name ∈ mentionsAt v way)
    (hd : vs.ahead? chain way name (outlook chain way) = some d)
    (hhead : Trail vs chain v (d :: way) →
      (∀ name, .ref ⟨name⟩ ∈ d.value.fragments → name ∈ mentionsAt v (d :: way)) →
      resolveFragments ((vs.visible chain).filter (Clear (d :: way))) (namesOn (d :: way))
        d.value.fragments = r.mapError DeadEnd.error) :
    resolveName ((vs.visible chain).filter (Clear way)) (namesOn way) name =
      r.mapError DeadEnd.error := by
  obtain ⟨-, rfl, -⟩ := ahead?_eq_some hd
  rw [resolveName_ahead (h.find?_eq.trans hd), filter_clear_cons, ← namesOn_cons]
  exact hhead (h.cons hname hd) fun name hmem => Value.mem_mentions.2 hmem

/-- Each step of resolution is one of `Resolves`. -/
theorem Resolves.resolveFragments_eq (h : vs.Resolves chain n way fs r)
    (hway : Trail vs chain v way) (hfs : ∀ name, .ref ⟨name⟩ ∈ fs → name ∈ mentionsAt v way) :
    resolveFragments ((vs.visible chain).filter (Clear way)) (namesOn way) fs =
      r.mapError DeadEnd.error := by
  induction h with
  | nil =>
    rw [resolveFragments]
    rfl
  | text tail ih =>
    have htail := ih hway fun name hmem => hfs name (List.mem_cons_of_mem _ hmem)
    rw [resolveFragments, htail, mapError_append]
  | lost ahead =>
    rw [resolveFragments, resolveName_dead (hway.find?_eq.trans ahead)]
    rfl
  | failed ahead head ih =>
    rw [resolveFragments, hway.resolveName_eq (hfs _ List.mem_cons_self) ahead ih]
    rfl
  | ref ahead head tail ihhead ihtail =>
    have htail := ihtail hway fun name hmem => hfs name (List.mem_cons_of_mem _ hmem)
    rw [resolveFragments, hway.resolveName_eq (hfs _ List.mem_cons_self) ahead ihhead, htail,
      ← mapError_append]
    rfl

theorem filter_clear_nil (ws : List Visible) : ws.filter (Clear []) = ws := by simp [Clear]

theorem Resolves.resolveValue_eq (h : vs.Resolves chain n [] v.fragments r) :
    vs.resolveValue chain v = r.mapError DeadEnd.error := by
  rw [resolveValue, ← filter_clear_nil (vs.visible chain)]
  exact h.resolveFragments_eq .nil fun name hmem => Value.mem_mentions.2 hmem

/-! ## Nesting -/

theorem Resolves.mono (h : vs.Resolves chain n way fs r) (hnm : n ≤ m) :
    vs.Resolves chain m way fs r := by
  induction h generalizing m with
  | nil => exact .nil
  | text tail ih => exact .text (ih hnm)
  | lost ahead => exact .lost ahead
  | failed ahead head ih =>
    cases m with
    | zero => cases hnm
    | succ m => exact .failed ahead (ih (Nat.le_of_succ_le_succ hnm))
  | ref ahead head tail ihhead ihtail =>
    cases m with
    | zero => cases hnm
    | succ m => exact .ref ahead (ihhead (Nat.le_of_succ_le_succ hnm)) (ihtail hnm)

/-- Each declaration that is entered leaves fewer to enter, so resolution ends. -/
theorem Trail.exists_resolves (h : Trail vs chain v way)
    (hfs : ∀ name, .ref ⟨name⟩ ∈ fs → name ∈ mentionsAt v way) :
    ∃ r, vs.Resolves chain ((vs.visible chain).filter (Clear way)).length way fs r := by
  induction hk : ((vs.visible chain).filter (Clear way)).length using Nat.strongRecOn
    generalizing way fs with
  | _ k ih =>
  induction fs with
  | nil => exact ⟨_, .nil⟩
  | cons f fs ihfs =>
    obtain ⟨rest, tail⟩ := ihfs fun name hmem => hfs name (List.mem_cons_of_mem _ hmem)
    cases f with
    | text text => exact ⟨_, .text tail⟩
    | ref target =>
      cases hd : vs.ahead? chain way target.name (outlook chain way) with
      | none => exact ⟨_, .lost hd⟩
      | some d =>
        have hlt := Visible.length_outside_lt (List.mem_of_find?_eq_some (h.find?_eq.trans hd))
        rw [filter_clear_cons, hk] at hlt
        obtain ⟨n, rfl⟩ := Nat.exists_eq_succ_of_ne_zero (Nat.ne_zero_of_lt hlt)
        obtain ⟨outcome, head⟩ := ih _ hlt (h.cons (hfs _ List.mem_cons_self) hd)
          (fun name hmem => Value.mem_mentions.2 hmem) rfl
        have head := head.mono (Nat.le_of_lt_succ hlt)
        cases outcome with
        | error e => exact ⟨_, .failed hd head⟩
        | ok text => exact ⟨_, .ref hd head tail⟩

/-- How many declarations are visible from a chain: those of each scope, for each position at which
the scope stands. -/
def visibleCount (vs : Variables) (chain : List ContainerId) : Nat :=
  (chain.flatMap vs.inScope).length

theorem length_visible : (vs.visible chain).length = vs.visibleCount chain := by
  induction chain using List.reverseRecOn with
  | nil => rfl
  | append_singleton chain scope ih =>
    rw [visible_concat, List.length_append, ih]
    simp [visibleCount, Nat.add_comm]

/-- The main result: every value is resolved without more nesting than there are declarations. -/
theorem exists_resolves (vs : Variables) (chain : List ContainerId) (v : Value) :
    ∃ r, vs.Resolves chain (vs.visibleCount chain) [] v.fragments r ∧
      vs.resolveValue chain v = r.mapError DeadEnd.error := by
  obtain ⟨r, hr⟩ := Trail.nil.exists_resolves fun name hmem => Value.mem_mentions.2 hmem
  rw [filter_clear_nil, length_visible] at hr
  exact ⟨r, hr, hr.resolveValue_eq⟩

end Variables

end AtomicCss
