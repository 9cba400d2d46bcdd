import AtomicCss.Error
import Mathlib.Data.List.Induction
import Mathlib.Logic.Relation

/-! # The lexical meaning of references

A name means the innermost declaration that it sees. In a value it sees every scope of the chain, in
the value of a declaration only the scope of that and the enclosing ones, and the declaration's own
name it sees only in the latter. `Denotes` says which text this leads to; it looks at scopes alone,
and not at what waits for the reference.

Main statement: where no declaration depends on itself, a value resolves to what it denotes, and it
does so if all names mean something (`resolveValue_lexical`). -/

namespace AtomicCss

theorem Value.mem_mentions {v : Value} {name : String} :
    name ∈ v.mentions ↔ .ref ⟨name⟩ ∈ v.fragments := by
  rw [mentions, List.mem_filterMap]
  constructor
  · rintro ⟨f, hf, hname⟩
    cases f with
    | text text => simp at hname
    | ref target =>
      obtain rfl : target.name = name := by simpa using hname
      exact hf
  · intro h
    exact ⟨_, h, rfl⟩

namespace Variables

/-! ## Scopes -/

/-- The declaration of a name in the scope at a position of a chain. -/
def declaredAt? (vs : Variables) (chain : List ContainerId) (name : String) (position : Nat) :
    Option Visible :=
  (chain[position]?).bind fun scope =>
    ((vs.inScope scope).find? (·.name = name)).map fun v => ⟨position, v.name, v.value⟩

/-- The innermost declaration of a name in the first `n` scopes of a chain. -/
def innermost? (vs : Variables) (chain : List ContainerId) (name : String) : Nat → Option Visible
  | 0 => none
  | n + 1 => (vs.declaredAt? chain name n).or (vs.innermost? chain name n)

/-- How many scopes of a chain a name sees that stands in a value, or in a declaration. -/
def sight (chain : List ContainerId) : Option Visible → String → Nat
  | none, _ => chain.length
  | some d, name => if name = d.name then d.position else d.position + 1

/-- The declaration that a name means in a value, or in a declaration. -/
def meant? (vs : Variables) (chain : List ContainerId) (site : Option Visible) (name : String) :
    Option Visible :=
  vs.innermost? chain name (sight chain site name)

variable {vs : Variables} {chain : List ContainerId} {site : Option Visible} {d e w : Visible}
  {v : Value} {name text : String} {n k : Nat}

theorem declaredAt?_eq_some (h : vs.declaredAt? chain name n = some d) :
    d.position = n ∧ d.name = name ∧ n < chain.length := by
  obtain ⟨scope, hscope, hd⟩ := Option.bind_eq_some_iff.1 h
  obtain ⟨v, hv, rfl⟩ := Option.map_eq_some_iff.1 hd
  exact ⟨rfl, by simpa using List.find?_some hv, (List.getElem?_eq_some_iff.1 hscope).1⟩

theorem innermost?_eq_some (h : vs.innermost? chain name n = some d) :
    d.position < n ∧ vs.declaredAt? chain d.name d.position = some d := by
  induction n with
  | zero => cases h
  | succ n ih =>
    rcases Option.or_eq_some_iff.1 h with h | ⟨-, h⟩
    · obtain ⟨hp, hname, -⟩ := declaredAt?_eq_some h
      rw [hp, hname]
      exact ⟨Nat.lt_succ_self n, h⟩
    · exact ⟨Nat.lt_succ_of_lt (ih h).1, (ih h).2⟩

theorem meant?_eq_some (h : vs.meant? chain site name = some d) :
    d.position < sight chain site name ∧ vs.declaredAt? chain d.name d.position = some d :=
  innermost?_eq_some h

theorem sight_le_position : sight chain (some d) name ≤ d.position + 1 := by
  rw [sight]
  split
  · exact Nat.le_succ _
  · exact Nat.le_refl _

/-- In a declaration, a name means none further inside. -/
theorem position_le_of_meant? (h : vs.meant? chain (some d) name = some e) :
    e.position ≤ d.position :=
  Nat.le_of_lt_succ (Nat.lt_of_lt_of_le (meant?_eq_some h).1 sight_le_position)

/-- The scopes further inside do not matter. -/
theorem declaredAt?_congr {chain' : List ContainerId} (h : chain'[n]? = chain[n]?) :
    vs.declaredAt? chain' name n = vs.declaredAt? chain name n := by
  rw [declaredAt?, declaredAt?, h]

theorem innermost?_congr {chain' : List ContainerId} (h : ∀ p < n, chain'[p]? = chain[p]?) :
    vs.innermost? chain' name n = vs.innermost? chain name n := by
  induction n with
  | zero => rfl
  | succ n ih =>
    rw [innermost?, innermost?, declaredAt?_congr (h n (Nat.lt_succ_self n)), ih]
    intro p hp
    exact h p (Nat.lt_succ_of_lt hp)

/-! ### What is visible -/

/-- A stronger test finds the same member if what the weaker one finds passes it. -/
theorem find?_eq_of_imp {α : Type} {p q : α → Bool} {l : List α}
    (himp : ∀ x ∈ l, q x = true → p x = true) (hfound : ∀ x, l.find? p = some x → q x = true) :
    l.find? q = l.find? p := by
  induction l with
  | nil => rfl
  | cons a l ih =>
    by_cases hp : p a = true
    · rw [List.find?_cons_of_pos hp] at hfound ⊢
      exact List.find?_cons_of_pos (hfound a rfl)
    · have hq : ¬ q a = true := fun hq => hp (himp a List.mem_cons_self hq)
      rw [List.find?_cons_of_neg hp] at hfound ⊢
      rw [List.find?_cons_of_neg hq]
      apply ih _ hfound
      intro x hx
      exact himp x (List.mem_cons_of_mem _ hx)

theorem visible_concat (scope : ContainerId) : vs.visible (chain ++ [scope]) =
    ((vs.inScope scope).map fun v => ⟨chain.length, v.name, v.value⟩) ++ vs.visible chain := by
  simp [visible, List.zipIdx_append]

theorem position_lt_of_mem_visible (h : w ∈ vs.visible chain) : w.position < chain.length := by
  obtain ⟨⟨scope, p⟩, hp, hw⟩ := List.mem_flatMap.1 h
  obtain ⟨v, -, rfl⟩ := List.mem_map.1 hw
  have := List.mem_zipIdx (List.mem_reverse.1 hp)
  simpa using this.2.1

theorem find?_map_inScope (scope : ContainerId) (p : Nat) :
    ((vs.inScope scope).map fun v => (⟨p, v.name, v.value⟩ : Visible)).find?
        (fun w => w.name = name ∧ w.position < n) =
      if p < n then ((vs.inScope scope).find? (·.name = name)).map fun v => ⟨p, v.name, v.value⟩
      else none := by
  have hcomp : (fun w : Visible => decide (w.name = name ∧ w.position < n)) ∘
      (fun v : Variable => ⟨p, v.name, v.value⟩) = fun v => decide (v.name = name ∧ p < n) := rfl
  rw [List.find?_map, hcomp]
  split
  · rename_i hp
    simp [hp]
  · rename_i hp
    simp [hp]

/-- Looking through what is visible finds the innermost declaration. -/
theorem find?_visible (hn : n ≤ chain.length) :
    (vs.visible chain).find? (fun w => w.name = name ∧ w.position < n) =
      vs.innermost? chain name n := by
  induction chain using List.reverseRecOn generalizing n with
  | nil =>
    obtain rfl : n = 0 := Nat.le_zero.1 hn
    rfl
  | append_singleton chain scope ih =>
    have hold {p : Nat} (hp : p < chain.length) : (chain ++ [scope])[p]? = chain[p]? :=
      List.getElem?_append_left hp
    rw [visible_concat, List.find?_append, find?_map_inScope]
    rw [List.length_append, List.length_singleton] at hn
    rcases Nat.lt_or_eq_of_le hn with hlt | rfl
    · have hle : n ≤ chain.length := Nat.le_of_lt_succ hlt
      rw [if_neg (Nat.not_lt.2 hle), Option.none_or, ih hle]
      symm
      apply innermost?_congr
      intro p hp
      exact hold (Nat.lt_of_lt_of_le hp hle)
    · have hall : (vs.visible chain).find? (fun w => w.name = name ∧ w.position < chain.length + 1) =
          (vs.visible chain).find? (fun w => w.name = name ∧ w.position < chain.length) := by
        apply find?_eq_of_imp
        · intro w hw _
          have := position_lt_of_mem_visible hw
          grind
        · intro w hw
          have := List.find?_some hw
          grind
      have hlast : vs.declaredAt? (chain ++ [scope]) name chain.length =
          ((vs.inScope scope).find? (·.name = name)).map fun v => ⟨chain.length, v.name, v.value⟩ := by
        simp [declaredAt?]
      rw [if_pos (Nat.lt_succ_self _), hall, ih (Nat.le_refl _), innermost?, hlast]
      congr 1
      symm
      exact innermost?_congr fun p hp => hold hp

/-! ## The text of a value -/

/-- The text that some fragments denote in a value, or in a declaration: each literal text as it
stands, and for each name what the meant declaration denotes. -/
inductive Denotes (vs : Variables) (chain : List ContainerId) :
    Option Visible → List Fragment → String → Prop
  | nil {site : Option Visible} : Denotes vs chain site [] ""
  | text {site : Option Visible} {text rest : String} {fs : List Fragment}
      (tail : Denotes vs chain site fs rest) : Denotes vs chain site (.text text :: fs) (text ++ rest)
  | ref {site : Option Visible} {target : Reference} {d : Visible} {text rest : String}
      {fs : List Fragment} (meant : vs.meant? chain site target.name = some d)
      (head : Denotes vs chain (some d) d.value.fragments text)
      (tail : Denotes vs chain site fs rest) : Denotes vs chain site (.ref target :: fs) (text ++ rest)

/-- The value of `d` mentions a name that means `e`. -/
def DependsOn (vs : Variables) (chain : List ContainerId) (d e : Visible) : Prop :=
  ∃ name ∈ d.value.mentions, vs.meant? chain (some d) name = some e

/-- The declarations that a value depends on, directly or through others. -/
inductive LeadsTo (vs : Variables) (chain : List ContainerId) (v : Value) : Visible → Prop
  | mention {name : String} {d : Visible} (mem : name ∈ v.mentions)
      (meant : vs.meant? chain none name = some d) : LeadsTo vs chain v d
  | step {d e : Visible} (led : LeadsTo vs chain v d) (depends : vs.DependsOn chain d e) :
      LeadsTo vs chain v e

theorem LeadsTo.position_lt (h : vs.LeadsTo chain v d) : d.position < chain.length := by
  cases h with
  | mention _ meant => exact (declaredAt?_eq_some (meant?_eq_some meant).2).2.2
  | step _ depends =>
    obtain ⟨name, -, meant⟩ := depends
    exact (declaredAt?_eq_some (meant?_eq_some meant).2).2.2

/-- No declaration that the value depends on depends on itself. -/
def Acyclic (vs : Variables) (chain : List ContainerId) (v : Value) : Prop :=
  ∀ d, vs.LeadsTo chain v d → ¬ Relation.TransGen (vs.DependsOn chain) d d

/-- Every mentioned name means a declaration, in the value and in all that it depends on. -/
structure Declared (vs : Variables) (chain : List ContainerId) (v : Value) : Prop where
  value : ∀ name ∈ v.mentions, (vs.meant? chain none name).isSome
  led : ∀ d, vs.LeadsTo chain v d → ∀ name ∈ d.value.mentions,
    (vs.meant? chain (some d) name).isSome

/-- What has a text has one for every name that it mentions. -/
theorem Denotes.of_mem {fs : List Fragment} (h : vs.Denotes chain site fs text)
    (hmem : .ref ⟨name⟩ ∈ fs) :
    ∃ d text', vs.meant? chain site name = some d ∧ vs.Denotes chain (some d) d.value.fragments text' := by
  induction fs generalizing text with
  | nil => cases hmem
  | cons f fs ih =>
    cases h with
    | text tail =>
      apply ih tail
      simpa using hmem
    | ref meant head tail =>
      rcases List.mem_cons.1 hmem with heq | hmem
      · obtain rfl := Fragment.ref.inj heq
        exact ⟨_, _, meant, head⟩
      · exact ih tail hmem

theorem Denotes.declared (h : vs.Denotes chain none v.fragments text) : vs.Declared chain v := by
  have hled (d : Visible) (hd : vs.LeadsTo chain v d) :
      ∃ text, vs.Denotes chain (some d) d.value.fragments text := by
    induction hd with
    | mention mem meant =>
      obtain ⟨d, text, hd, hden⟩ := h.of_mem (Value.mem_mentions.1 mem)
      obtain rfl := Option.some.inj (meant.symm.trans hd)
      exact ⟨text, hden⟩
    | step _ depends ih =>
      obtain ⟨name, mem, meant⟩ := depends
      obtain ⟨text, hden⟩ := ih
      obtain ⟨e, text, he, hden⟩ := hden.of_mem (Value.mem_mentions.1 mem)
      obtain rfl := Option.some.inj (meant.symm.trans he)
      exact ⟨text, hden⟩
  constructor
  · intro name hname
    obtain ⟨d, -, hd, -⟩ := h.of_mem (Value.mem_mentions.1 hname)
    rw [hd]
    rfl
  · intro d hd name hname
    obtain ⟨text, hden⟩ := hled d hd
    obtain ⟨e, -, he, -⟩ := hden.of_mem (Value.mem_mentions.1 hname)
    rw [he]
    rfl

theorem LeadsTo.mem_visible (h : vs.LeadsTo chain v d) : d ∈ vs.visible chain := by
  have hdecl : vs.declaredAt? chain d.name d.position = some d := by
    cases h with
    | mention _ meant => exact (meant?_eq_some meant).2
    | step _ depends =>
      obtain ⟨name, -, meant⟩ := depends
      exact (meant?_eq_some meant).2
  have hfind : (vs.visible chain).find? (fun w => w.name = d.name ∧ w.position < d.position + 1) =
      vs.innermost? chain d.name (d.position + 1) := find?_visible h.position_lt
  rw [innermost?, hdecl, Option.some_or] at hfind
  exact List.mem_of_find?_eq_some hfind

/-- There is no cycle if some measure goes down with each name that a visible declaration mentions. -/
theorem acyclic_of_lt (measure : Visible → Nat)
    (h : ∀ d ∈ vs.visible chain, ∀ name ∈ d.value.mentions,
      ∀ e ∈ vs.meant? chain (some d) name, measure e < measure d) : vs.Acyclic chain v := by
  have hstep {d e : Visible} (hd : vs.LeadsTo chain v d) (hde : vs.DependsOn chain d e) :
      measure e < measure d := by
    obtain ⟨name, hname, he⟩ := hde
    exact h d hd.mem_visible name hname e he
  intro d hd hcycle
  have hall (e : Visible) (he : Relation.TransGen (vs.DependsOn chain) d e) :
      vs.LeadsTo chain v e ∧ measure e < measure d := by
    induction he with
    | single hde => exact ⟨.step hd hde, hstep hd hde⟩
    | tail _ hde ih => exact ⟨.step ih.1 hde, Nat.lt_trans (hstep ih.1 hde) ih.2⟩
  exact Nat.lt_irrefl _ (hall d hcycle).2

/-! ## Resolution on the way -/

/-- What `d` and all the other declarations on the way leave visible. -/
def Clear (way : List Visible) (w : Visible) : Prop :=
  ∀ d ∈ way, w.position ≤ d.position ∧ ¬(w.position = d.position ∧ w.name = d.name)

instance (way : List Visible) : DecidablePred (Clear way) := fun _ => inferInstanceAs (Decidable (∀ _ ∈ _, _))

/-- The declarations on the way to a site, the last one first: each depends on the one before. -/
structure Way (vs : Variables) (chain : List ContainerId) (v : Value) (way : List Visible) : Prop where
  led : ∀ d ∈ way, vs.LeadsTo chain v d
  declared : ∀ d ∈ way, vs.declaredAt? chain d.name d.position = some d
  position : ∀ d, way.head? = some d → ∀ e ∈ way, d.position ≤ e.position
  depends : ∀ d, way.head? = some d → ∀ e ∈ way,
    Relation.ReflTransGen (vs.DependsOn chain) e d

/-- The names that stand at the end of a way. -/
def mentionsAt (v : Value) (way : List Visible) : List String := (way.head?.elim v (·.value)).mentions

namespace Way

variable {way : List Visible}

theorem nil : Way vs chain v [] where
  led := by simp
  declared := by simp
  position := by simp
  depends := by simp

/-- What a name at the end of a way means is not on the way, unless there is a cycle. -/
theorem clear (h : Way vs chain v way) (ha : vs.Acyclic chain v) (hname : name ∈ mentionsAt v way)
    (hd : vs.meant? chain way.head? name = some d) : Clear way d := by
  have hdecl := (meant?_eq_some hd).2
  intro e he
  cases hhead : way.head? with
  | none =>
    rw [List.head?_eq_none_iff.1 hhead] at he
    cases he
  | some a =>
    rw [hhead] at hd
    rw [mentionsAt, hhead] at hname
    refine ⟨Nat.le_trans (position_le_of_meant? hd) (h.position a hhead e he), ?_⟩
    rintro ⟨hp, hn⟩
    -- then the two are one, and it depends on itself
    rw [hp, hn, h.declared e he] at hdecl
    obtain rfl := Option.some.inj hdecl
    exact ha e (h.led e he) (.tail' (h.depends a hhead e he) ⟨name, hname, hd⟩)

theorem sight_le (h : Way vs chain v way) : sight chain way.head? name ≤ chain.length := by
  cases hhead : way.head? with
  | none => exact Nat.le_refl _
  | some d =>
    have hlt := (declaredAt?_eq_some (h.declared d (List.mem_of_head? hhead))).2.2
    exact Nat.le_trans sight_le_position hlt

/-- A declaration that is visible on the way is in sight. -/
theorem lt_sight (hw : w ∈ vs.visible chain) (hclear : Clear way w) :
    w.position < sight chain way.head? w.name := by
  cases hhead : way.head? with
  | none => exact position_lt_of_mem_visible hw
  | some d =>
    obtain ⟨hle, hne⟩ := hclear d (List.mem_of_head? hhead)
    rw [sight]
    split
    · rename_i hname
      have : w.position ≠ d.position := fun hp => hne ⟨hp, hname⟩
      omega
    · omega

/-- On the way, a search finds what a name means. -/
theorem find?_eq (h : Way vs chain v way) (ha : vs.Acyclic chain v)
    (hname : name ∈ mentionsAt v way) :
    ((vs.visible chain).filter (Clear way)).find? (·.name = name) =
      vs.meant? chain way.head? name := by
  have hmeant : (vs.visible chain).find?
      (fun w => w.name = name ∧ w.position < sight chain way.head? name) =
        vs.innermost? chain name (sight chain way.head? name) := find?_visible h.sight_le
  rw [List.find?_filter, meant?, ← hmeant]
  apply find?_eq_of_imp
  · intro w hw hpass
    simp only [decide_eq_true_eq] at hpass ⊢
    obtain ⟨hclear, rfl⟩ := hpass
    exact ⟨rfl, lt_sight hw hclear⟩
  · intro w hfind
    have hfound := List.find?_some hfind
    rw [hmeant] at hfind
    simp only [decide_eq_true_eq] at hfound ⊢
    exact ⟨h.clear ha hname hfind, hfound.1⟩

/-- The way to what a name at its end means. -/
theorem cons (h : Way vs chain v way) (hname : name ∈ mentionsAt v way)
    (hd : vs.meant? chain way.head? name = some d) : Way vs chain v (d :: way) := by
  have hdecl := (meant?_eq_some hd).2
  have hlast (a : Visible) (hhead : way.head? = some a) :
      d.position ≤ a.position ∧ vs.DependsOn chain a d := by
    rw [hhead] at hd
    rw [mentionsAt, hhead] at hname
    exact ⟨position_le_of_meant? hd, name, hname, hd⟩
  refine ⟨?led, ?declared, ?position, ?depends⟩
  case led =>
    intro e he
    rcases List.mem_cons.1 he with rfl | he
    · cases hhead : way.head? with
      | none =>
        rw [hhead] at hd
        rw [mentionsAt, hhead] at hname
        exact .mention hname hd
      | some a => exact .step (h.led a (List.mem_of_head? hhead)) (hlast a hhead).2
    · exact h.led e he
  case declared =>
    intro e he
    rcases List.mem_cons.1 he with rfl | he
    · exact hdecl
    · exact h.declared e he
  case position =>
    intro a ha e he
    obtain rfl := Option.some.inj ha
    rcases List.mem_cons.1 he with rfl | he
    · exact Nat.le_refl _
    · obtain ⟨a, hhead⟩ := Option.isSome_iff_exists.1 (List.isSome_head?.2 (List.ne_nil_of_mem he))
      exact Nat.le_trans (hlast a hhead).1 (h.position a hhead e he)
  case depends =>
    intro a ha e he
    obtain rfl := Option.some.inj ha
    rcases List.mem_cons.1 he with rfl | he
    · exact .refl
    · obtain ⟨a, hhead⟩ := Option.isSome_iff_exists.1 (List.isSome_head?.2 (List.ne_nil_of_mem he))
      exact (h.depends a hhead e he).tail (hlast a hhead).2

end Way

theorem filter_clear_cons {way : List Visible} :
    d.outside ((vs.visible chain).filter (Clear way)) =
      (vs.visible chain).filter (Clear (d :: way)) := by
  rw [Visible.outside, List.filter_filter]
  congr 1
  funext w
  simp [Clear]

/-- On each way less is visible than on the one before, so that one may follow all of them. -/
theorem Way.induction (ha : vs.Acyclic chain v)
    {motive : (way : List Visible) → Way vs chain v way → Prop}
    (step : ∀ way (h : Way vs chain v way),
      (∀ name (hname : name ∈ mentionsAt v way) d (hd : vs.meant? chain way.head? name = some d),
        motive (d :: way) (h.cons hname hd)) → motive way h)
    {way : List Visible} (h : Way vs chain v way) : motive way h := by
  induction hk : ((vs.visible chain).filter (Clear way)).length using Nat.strongRecOn
    generalizing way with
  | _ k ih =>
  apply step way h
  intro name hname d hd
  have hlt := Visible.length_outside_lt
    (List.mem_of_find?_eq_some ((h.find?_eq ha hname).trans hd))
  rw [filter_clear_cons] at hlt
  exact ih _ (hk ▸ hlt) (h.cons hname hd) rfl

theorem resolveName_eq_ok_iff {env : List Visible} {path : List String} :
    resolveName env path name = .ok text ↔ ∃ d, env.find? (·.name = name) = some d ∧
      resolveFragments (d.outside env) (path ++ [name]) d.value.fragments = .ok text := by
  rw [resolveName]
  split
  · rename_i d hd
    simp [hd]
  · rename_i hd
    simp [hd]

/-- What the end of a way resolves to is what it denotes. -/
theorem Way.resolveFragments_eq_ok_iff (ha : vs.Acyclic chain v) {way : List Visible}
    (h : Way vs chain v way) {path : List String} {fs : List Fragment}
    (hfs : ∀ name, .ref ⟨name⟩ ∈ fs → name ∈ mentionsAt v way) :
    resolveFragments ((vs.visible chain).filter (Clear way)) path fs = .ok text ↔
      vs.Denotes chain way.head? fs text := by
  induction h using Way.induction ha generalizing path fs text with
  | step way h ihway =>
  have hhead {name : String} (hname : name ∈ mentionsAt v way) {d : Visible}
      (hd : vs.meant? chain way.head? name = some d) (text : String) :
      resolveFragments (d.outside ((vs.visible chain).filter (Clear way))) (path ++ [name])
        d.value.fragments = .ok text ↔ vs.Denotes chain (some d) d.value.fragments text := by
    rw [filter_clear_cons]
    apply ihway name hname d hd
    intro name hmem
    exact Value.mem_mentions.2 hmem
  induction fs generalizing text with
  | nil =>
    rw [resolveFragments]
    constructor
    · rintro ⟨⟩
      exact .nil
    · rintro ⟨⟩
      rfl
  | cons f fs ih =>
    have ihfs (rest : String) := @ih rest fun name hmem => hfs name (List.mem_cons_of_mem _ hmem)
    cases f with
    | text text' =>
      rw [resolveFragments]
      constructor
      · intro hok
        obtain ⟨rest, hrest, hok⟩ := bind_eq_ok.1 hok
        cases hok
        exact .text ((ihfs rest).1 hrest)
      · rintro (_ | tail)
        rw [(ihfs _).2 tail]
        rfl
    | ref target =>
      have hname : target.name ∈ mentionsAt v way := hfs target.name List.mem_cons_self
      have hfind := h.find?_eq ha hname
      rw [resolveFragments]
      constructor
      · intro hok
        obtain ⟨text', htext, hok⟩ := bind_eq_ok.1 hok
        obtain ⟨rest, hrest, hok⟩ := bind_eq_ok.1 hok
        cases hok
        obtain ⟨d, hd, htext⟩ := resolveName_eq_ok_iff.1 htext
        rw [hfind] at hd
        exact .ref hd ((hhead hname hd text').1 htext) ((ihfs rest).1 hrest)
      · intro hden
        cases hden with
        | ref meant head tail =>
          rw [resolveName_eq_ok_iff.2 ⟨_, hfind.trans meant, (hhead hname meant _).2 head⟩,
            (ihfs _).2 tail]
          rfl

/-- If all names mean something, then the end of each way denotes a text. -/
theorem Way.exists_denotes (ha : vs.Acyclic chain v) (hd : vs.Declared chain v)
    {way : List Visible} (h : Way vs chain v way) {fs : List Fragment}
    (hfs : ∀ name, .ref ⟨name⟩ ∈ fs → name ∈ mentionsAt v way) :
    ∃ text, vs.Denotes chain way.head? fs text := by
  induction h using Way.induction ha generalizing fs with
  | step way h ihway =>
  have hmeant {name : String} (hname : name ∈ mentionsAt v way) :
      (vs.meant? chain way.head? name).isSome := by
    rw [mentionsAt] at hname
    cases hhead : way.head? with
    | none =>
      rw [hhead] at hname
      exact hd.value name hname
    | some d =>
      rw [hhead] at hname
      exact hd.led d (h.led d (List.mem_of_head? hhead)) name hname
  induction fs with
  | nil => exact ⟨"", .nil⟩
  | cons f fs ih =>
    obtain ⟨rest, tail⟩ := ih fun name hmem => hfs name (List.mem_cons_of_mem _ hmem)
    cases f with
    | text text => exact ⟨_, .text tail⟩
    | ref target =>
      have hname : target.name ∈ mentionsAt v way := hfs target.name List.mem_cons_self
      obtain ⟨d, hd⟩ := Option.isSome_iff_exists.1 (hmeant hname)
      obtain ⟨text, head⟩ := ihway target.name hname d hd fun _ hmem => Value.mem_mentions.2 hmem
      exact ⟨_, .ref hd head tail⟩

theorem resolveValue_eq_ok_iff (ha : vs.Acyclic chain v) :
    vs.resolveValue chain v = .ok text ↔ vs.Denotes chain none v.fragments text := by
  have hall : (vs.visible chain).filter (Clear []) = vs.visible chain := by simp [Clear]
  rw [resolveValue, ← hall]
  apply Way.nil.resolveFragments_eq_ok_iff ha
  intro name hmem
  exact Value.mem_mentions.2 hmem

theorem exists_resolveValue_iff (ha : vs.Acyclic chain v) :
    (∃ text, vs.resolveValue chain v = .ok text) ↔ vs.Declared chain v := by
  constructor
  · rintro ⟨text, hok⟩
    exact ((resolveValue_eq_ok_iff ha).1 hok).declared
  · intro hd
    obtain ⟨text, hden⟩ := Way.nil.exists_denotes ha hd fun _ hmem => Value.mem_mentions.2 hmem
    exact ⟨text, (resolveValue_eq_ok_iff ha).2 hden⟩

/-! ## Outer scopes

A declaration means the same in the first scopes of a chain as in the whole of it, if it stands in
one of them. -/

theorem meant?_take (hd : d.position < n) :
    vs.meant? (chain.take n) (some d) name = vs.meant? chain (some d) name := by
  apply innermost?_congr
  intro p hp
  have : p < d.position + 1 := Nat.lt_of_lt_of_le hp sight_le_position
  exact List.getElem?_take_of_lt (by omega)

theorem dependsOn_take (hd : d.position < n) :
    vs.DependsOn (chain.take n) d e ↔ vs.DependsOn chain d e := by
  simp only [DependsOn, meant?_take hd]

theorem DependsOn.position_le (h : vs.DependsOn chain d e) : e.position ≤ d.position := by
  obtain ⟨name, -, hmeant⟩ := h
  exact position_le_of_meant? hmeant

theorem transGen_of_take (hd : d.position < n)
    (h : Relation.TransGen (vs.DependsOn (chain.take n)) d e) :
    Relation.TransGen (vs.DependsOn chain) d e ∧ e.position < n := by
  induction h with
  | single h =>
    have hdep := (dependsOn_take hd).1 h
    exact ⟨.single hdep, Nat.lt_of_le_of_lt hdep.position_le hd⟩
  | tail _ h ih =>
    have hdep := (dependsOn_take ih.2).1 h
    exact ⟨ih.1.tail hdep, Nat.lt_of_le_of_lt hdep.position_le ih.2⟩

theorem Denotes.congr_chain {chain' : List ContainerId} {fs : List Fragment}
    (hmeant : ∀ e : Visible, e.position < n → ∀ name,
      vs.meant? chain' (some e) name = vs.meant? chain (some e) name)
    (h : vs.Denotes chain site fs text) (hsite : site = some d) (hd : d.position < n) :
    vs.Denotes chain' site fs text := by
  induction h generalizing d with
  | nil => exact .nil
  | text _ ih => exact .text (ih hsite hd)
  | ref meant _ _ ihhead ihtail =>
    subst hsite
    have hpos := Nat.lt_of_le_of_lt (position_le_of_meant? meant) hd
    exact .ref ((hmeant d hd _).trans meant) (ihhead rfl hpos) (ihtail rfl hd)

theorem denotes_take {fs : List Fragment} (hd : d.position < n) :
    vs.Denotes (chain.take n) (some d) fs text ↔ vs.Denotes chain (some d) fs text := by
  constructor
  · intro h
    exact h.congr_chain (fun e he name => (meant?_take he).symm) rfl hd
  · intro h
    exact h.congr_chain (fun e he name => meant?_take he) rfl hd

theorem resolveFragments_singleton {env : List Visible} {path : List String} {target : Reference} :
    resolveFragments env path [.ref target] = resolveName env path target.name := by
  rw [resolveFragments, resolveFragments]
  cases resolveName env path target.name with
  | error cause => rfl
  | ok text =>
    show Except.ok (text ++ "") = _
    rw [String.append_empty]

theorem denotes_singleton {target : Reference} : vs.Denotes chain site [.ref target] text ↔
    ∃ d, vs.meant? chain site target.name = some d ∧
      vs.Denotes chain (some d) d.value.fragments text := by
  constructor
  · intro h
    cases h with
    | ref meant head tail =>
      cases tail
      rw [String.append_empty]
      exact ⟨_, meant, head⟩
  · rintro ⟨d, hd, hden⟩
    simpa using Denotes.ref hd hden .nil

/-- A name that is looked up in the first scopes of a chain has the text of the innermost
declaration there. -/
theorem resolve_take_eq_ok_iff (ha : vs.Acyclic chain v) (hn : n ≤ chain.length)
    (hled : ∀ d, vs.innermost? chain name n = some d → vs.LeadsTo chain v d) :
    vs.resolve (chain.take n) ⟨name⟩ = .ok text ↔ ∃ d, vs.innermost? chain name n = some d ∧
      vs.Denotes chain (some d) d.value.fragments text := by
  have hlength : (chain.take n).length = n := List.length_take_of_le hn
  have hmeant : vs.meant? (chain.take n) none name = vs.innermost? chain name n := by
    rw [meant?, sight, hlength]
    exact innermost?_congr fun _ hp => List.getElem?_take_of_lt hp
  -- what the reference leads to there, the value leads to as well
  have hleads (e : Visible) (he : vs.LeadsTo (chain.take n) (.ref ⟨name⟩) e) :
      vs.LeadsTo chain v e ∧ e.position < n := by
    induction he with
    | mention mem meant =>
      obtain rfl : _ = name := by simpa [Value.mentions, Value.fragments] using mem
      rw [hmeant] at meant
      exact ⟨hled _ meant, (innermost?_eq_some meant).1⟩
    | step _ depends ih =>
      have hdep := (dependsOn_take ih.2).1 depends
      exact ⟨.step ih.1 hdep, Nat.lt_of_le_of_lt hdep.position_le ih.2⟩
  have hacyclic : vs.Acyclic (chain.take n) (.ref ⟨name⟩) := by
    intro e he hcycle
    obtain ⟨hled, hpos⟩ := hleads e he
    exact ha e hled (transGen_of_take hpos hcycle).1
  have hvalue : vs.resolveValue (chain.take n) (.ref ⟨name⟩) = vs.resolve (chain.take n) ⟨name⟩ :=
    resolveFragments_singleton
  rw [← hvalue, resolveValue_eq_ok_iff hacyclic, Value.fragments, denotes_singleton, hmeant]
  apply exists_congr
  intro d
  apply and_congr_right
  intro hd
  exact denotes_take (innermost?_eq_some hd).1

/-- The main result. Where no declaration depends on itself, a value resolves if every mentioned
name means a declaration, and then to what it denotes. In the value of a declaration, each name
stands for what it resolves to in the scopes that it sees there; the declaration's own name stands
for what an outer scope makes of it. -/
theorem resolveValue_lexical (vs : Variables) (chain : List ContainerId) (v : Value)
    (h : vs.Acyclic chain v) :
    ((∃ text, vs.resolveValue chain v = .ok text) ↔ vs.Declared chain v) ∧
    (∀ text, vs.resolveValue chain v = .ok text ↔ vs.Denotes chain none v.fragments text) ∧
    (∀ d, vs.LeadsTo chain v d → ∀ name ∈ d.value.mentions, ∀ text,
      vs.resolve (chain.take (sight chain (some d) name)) ⟨name⟩ = .ok text ↔
        ∃ e, vs.meant? chain (some d) name = some e ∧
          vs.Denotes chain (some e) e.value.fragments text) ∧
    (∀ d, vs.LeadsTo chain v d → d.name ∈ d.value.mentions → ∀ text,
      vs.resolve (chain.take d.position) ⟨d.name⟩ = .ok text ↔
        ∃ e, vs.meant? chain (some d) d.name = some e ∧ e.position < d.position ∧
          vs.Denotes chain (some e) e.value.fragments text) := by
  have hname (d : Visible) (hd : vs.LeadsTo chain v d) (name : String)
      (hname : name ∈ d.value.mentions) (text : String) :
      vs.resolve (chain.take (sight chain (some d) name)) ⟨name⟩ = .ok text ↔
        ∃ e, vs.meant? chain (some d) name = some e ∧
          vs.Denotes chain (some e) e.value.fragments text := by
    have hlt := hd.position_lt
    apply resolve_take_eq_ok_iff h (Nat.le_trans sight_le_position hlt)
    intro e he
    exact .step hd ⟨name, hname, he⟩
  refine ⟨exists_resolveValue_iff h, fun text => resolveValue_eq_ok_iff h, hname, ?_⟩
  intro d hd hown text
  have hsight : sight chain (some d) d.name = d.position := if_pos rfl
  have hiff := hname d hd d.name hown text
  rw [hsight] at hiff
  rw [hiff]
  apply exists_congr
  intro e
  rw [and_congr_right_iff]
  intro he
  have hpos := (meant?_eq_some he).1
  rw [hsight] at hpos
  rw [and_iff_right hpos]

/-- An inner gap that adds to the outer one. -/
def gaps : Variables where
  entries := [⟨1, "gap", .literal "4px"⟩, ⟨2, "gap", .composite [.ref ⟨"gap"⟩, .text " 2px"]⟩]

theorem resolveValue_gaps : gaps.Acyclic [1, 2] (.ref ⟨"gap"⟩) ∧
    gaps.resolveValue [1, 2] (.ref ⟨"gap"⟩) = .ok "4px 2px" := by
  have hacyclic : gaps.Acyclic [1, 2] (.ref ⟨"gap"⟩) := acyclic_of_lt (·.position) (by decide)
  refine ⟨hacyclic, ((resolveValue_lexical gaps [1, 2] (.ref ⟨"gap"⟩) hacyclic).2.1 _).2 ?_⟩
  have houter : gaps.Denotes [1, 2] (some ⟨0, "gap", .literal "4px"⟩) [.text "4px"] "4px" := .text .nil
  have hinner : gaps.Denotes [1, 2]
      (some ⟨1, "gap", .composite [.ref ⟨"gap"⟩, .text " 2px"]⟩) [.ref ⟨"gap"⟩, .text " 2px"]
        "4px 2px" := .ref rfl houter (.text .nil)
  exact .ref rfl hinner .nil

end Variables

end AtomicCss
