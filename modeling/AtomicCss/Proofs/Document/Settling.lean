import AtomicCss.Proofs.Document.Standing
import Mathlib

/-! # Selectors that several classes share

Classes that share a selector settle it one after the other: the first one decides on its place, if
it had none (`places?_settle`), and the blocks are merged in turn (`block_settle`). Lists of classes
may change places where either order settles the selector alike. This stays so after further classes
(`comm_settle`), so whole lists may be permuted if any two members may change places
(`settle_flatMap_perm`); and it shows in the presence of other classes, if these are put both in front
and behind (`comm_of_rest`). -/

namespace AtomicCss

/-! ## Merging in either order -/

namespace Block

variable {b c c' r : Block}

/-- Blocks with the same properties have the same effect on `b` if they agree in the values, and in
the order of the properties that are new to `b`. -/
theorem merge_eq_merge_iff (hmem : ∀ p, p ∈ c.properties ↔ p ∈ c'.properties) :
    (b.merge c).1 = (b.merge c').1 ↔
      c.properties.filter (· ∉ b.properties) = c'.properties.filter (· ∉ b.properties) ∧
        ∀ p, c.get? p = c'.get? p := by
  constructor
  · intro h
    constructor
    · have hprops := congrArg properties h
      rwa [properties_merge_eq, properties_merge_eq, List.append_right_inj] at hprops
    · intro p
      have hget := congrArg (fun b : Block => b.get? p) h
      simp only [get?_merge] at hget
      cases hc : c.get? p with
      | none =>
        rw [get?_eq_none_iff, hmem, ← get?_eq_none_iff] at hc
        exact hc.symm
      | some v =>
        have hsome : (c'.get? p).isSome := by
          rw [isSome_get?, ← hmem, ← isSome_get?, hc]
          rfl
        obtain ⟨v', hv'⟩ := Option.isSome_iff_exists.1 hsome
        rw [hc, hv', Option.some_or, Option.some_or] at hget
        rw [hv', hget]
  · rintro ⟨hprops, hget⟩
    apply ext_get?
    · rw [properties_merge_eq, properties_merge_eq, hprops]
    · intro p
      rw [get?_merge, get?_merge, hget]

/-- What has the same effect on a block has the same effect on it after others were merged. -/
theorem merge_eq_merge_after (hmem : ∀ p, p ∈ c.properties ↔ p ∈ c'.properties)
    (h : (b.merge c).1 = (b.merge c').1) (r : Block) :
    ((b.merge r).1.merge c).1 = ((b.merge r).1.merge c').1 := by
  rw [merge_eq_merge_iff hmem] at h ⊢
  refine ⟨?_, h.2⟩
  have hfilter (l : List String) : l.filter (· ∉ (b.merge r).1.properties) =
      (l.filter (· ∉ b.properties)).filter (· ∉ r.properties) := by
    rw [List.filter_filter]
    apply List.filter_congr
    intro p _
    by_cases hb : p ∈ b.properties <;> by_cases hr : p ∈ r.properties <;>
      simp [mem_properties_merge, hb, hr]
  rw [hfilter, hfilter, h.1]

/-- Where nothing else is merged behind and nothing else in front, the effect is the same. -/
theorem merge_eq_merge_of_rest (hmem : ∀ p, p ∈ c.properties ↔ p ∈ c'.properties)
    (hbehind : ((b.merge c).1.merge r).1 = ((b.merge c').1.merge r).1)
    (hfront : ((b.merge r).1.merge c).1 = ((b.merge r).1.merge c').1) :
    (b.merge c).1 = (b.merge c').1 := by
  rw [merge_eq_merge_iff hmem] at hfront ⊢
  refine ⟨?_, hfront.2⟩
  -- the new properties are as many in both blocks, so they end at the same place
  have hperm : c.properties.Perm c'.properties :=
    (List.perm_ext_iff_of_nodup c.distinct c'.distinct).2 hmem
  have hprops := congrArg properties hbehind
  simp only [properties_merge_eq, List.append_assoc, List.append_right_inj] at hprops
  exact List.append_inj_left hprops (hperm.filter _).length_eq

end Block

/-! ## Settling -/

namespace Standing

variable {st st' : Option Standing} {x : Emission} {xs ys zs : List Emission}

/-- The places of a selector, if there is one. -/
def places? (st : Option Standing) : Option (Set (SlotId × Nat)) := st.map (·.places)

/-- The declarations of a selector. -/
def blockOf (st : Option Standing) : Block := (st.map (·.block)).getD ∅

/-- The blocks of classes, merged in turn. -/
def merged (xs : List Emission) : Block := xs.foldl (fun b x => (b.merge x.block).1) ∅

theorem ext_views (hp : places? st = places? st') (hb : blockOf st = blockOf st') : st = st' := by
  cases st with
  | none => cases st' with
    | none => rfl
    | some s' => cases hp
  | some s => cases st' with
    | none => cases hp
    | some s' =>
      cases s
      cases s'
      exact congrArg some (congrArg₂ Standing.mk (Option.some.inj hp) hb)

theorem settle_append (st : Option Standing) (xs ys : List Emission) :
    settle st (xs ++ ys) = settle (settle st xs) ys :=
  List.foldl_append

theorem foldl_merge (b : Block) : xs.foldl (fun b x => (b.merge x.block).1) b =
    (b.merge (merged xs)).1 := by
  induction xs generalizing b with
  | nil => rfl
  | cons x xs ih =>
    rw [merged, List.foldl_cons, List.foldl_cons, ih, ih, Block.empty_merge, Block.merge_assoc]

theorem mem_properties_merged {p : String} :
    p ∈ (merged xs).properties ↔ ∃ x ∈ xs, p ∈ x.block.properties := by
  induction xs with
  | nil => simp [merged, Block.properties, EmptyCollection.emptyCollection, Block.empty]
  | cons x xs ih =>
    have hcons : merged (x :: xs) = (x.block.merge (merged xs)).1 := by
      rw [merged, List.foldl_cons, foldl_merge, Block.empty_merge]
    rw [hcons, Block.mem_properties_merge, ih]
    simp

/-- **The first class decides on the place**, where there is none. -/
theorem places?_settle : places? (settle st xs) =
    (places? st).or (xs.head?.map fun x => {(x.slot, x.ordinal)}) := by
  induction xs generalizing st with
  | nil => exact Option.or_none.symm
  | cons x xs ih =>
    refine ih.trans ?_
    cases st <;> rfl

/-- **The blocks are merged in turn.** -/
theorem block_settle : blockOf (settle st xs) = ((blockOf st).merge (merged xs)).1 := by
  have hadd (st : Option Standing) (x : Emission) :
      blockOf (Standing.add st x) = ((blockOf st).merge x.block).1 := by
    cases st with
    | none => exact (Block.empty_merge _).symm
    | some st => rfl
  rw [← foldl_merge]
  induction xs generalizing st with
  | nil => rfl
  | cons x xs ih =>
    rw [List.foldl_cons, ← hadd]
    exact ih

/-! ## Changing places -/

/-- Either order of two lists of classes settles a selector alike. -/
def Comm (st : Option Standing) (xs ys : List Emission) : Prop :=
  settle st (xs ++ ys) = settle st (ys ++ xs)

theorem comm_iff : Comm st xs ys ↔
    (places? (settle st (xs ++ ys)) = places? (settle st (ys ++ xs)) ∧
      ((blockOf st).merge (merged (xs ++ ys))).1 = ((blockOf st).merge (merged (ys ++ xs))).1) := by
  rw [← block_settle, ← block_settle]
  constructor
  · intro h
    rw [Comm] at h
    rw [h]
    exact ⟨rfl, rfl⟩
  · rintro ⟨hp, hb⟩
    exact ext_views hp hb

/-- Either order sets the same properties. -/
theorem mem_properties_merged_comm (p : String) :
    p ∈ (merged (xs ++ ys)).properties ↔ p ∈ (merged (ys ++ xs)).properties := by
  rw [mem_properties_merged, mem_properties_merged]
  simp only [List.mem_append, or_comm]

/-- Classes that may change places may do so after others. -/
theorem comm_settle (h : Comm st xs ys) (zs : List Emission) : Comm (settle st zs) xs ys := by
  rw [comm_iff] at h ⊢
  obtain ⟨hp, hb⟩ := h
  constructor
  · simp only [places?_settle] at hp ⊢
    -- a selector that has its place keeps it
    cases st with
    | some st => rfl
    | none =>
      cases zs with
      | cons z zs => rfl
      | nil => exact hp
  · rw [block_settle]
    exact Block.merge_eq_merge_after mem_properties_merged_comm hb _

/-- Classes that may change places with others behind them, and with others in front of them, may do
so without them. -/
theorem comm_of_rest (hbehind : settle st (xs ++ ys ++ zs) = settle st (ys ++ xs ++ zs))
    (hfront : Comm (settle st zs) xs ys) : Comm st xs ys := by
  rw [comm_iff]
  constructor
  · have hp := congrArg places? hbehind
    rw [places?_settle, places?_settle] at hp ⊢
    cases xs with
    | nil => rw [List.nil_append, List.append_nil]
    | cons x xs => cases ys with
      | nil => rw [List.nil_append, List.append_nil]
      | cons y ys => exact hp
  · have hb := congrArg blockOf hbehind
    simp only [settle_append _ _ zs, block_settle] at hb
    have hf := (comm_iff.1 hfront).2
    rw [block_settle] at hf
    exact Block.merge_eq_merge_of_rest mem_properties_merged_comm hb hf

/-- Classes may change places with themselves. -/
theorem comm_of_eq (h : ∀ x ∈ xs, ∀ y ∈ ys, x = y) : Comm st xs ys := by
  cases xs with
  | nil => rw [Comm, List.nil_append, List.append_nil]
  | cons x xs =>
    cases ys with
    | nil => rw [Comm, List.nil_append, List.append_nil]
    | cons y ys =>
      have hys : y :: ys = List.replicate (ys.length + 1) x := by
        apply List.eq_replicate_of_mem
        intro z hz
        exact (h x List.mem_cons_self z hz).symm
      have hxs : x :: xs = List.replicate (xs.length + 1) x := by
        apply List.eq_replicate_of_mem
        intro z hz
        exact (h z hz y List.mem_cons_self).trans (h x List.mem_cons_self y List.mem_cons_self).symm
      rw [Comm, hxs, hys, List.replicate_append_replicate, List.replicate_append_replicate,
        Nat.add_comm]

/-- Lists of which any two may change places may be permuted. -/
theorem settle_flatMap_perm {α : Type} {f : α → List Emission} {l l' : List α} (hp : l.Perm l')
    (h : ∀ a ∈ l, ∀ b ∈ l, Comm st (f a) (f b)) :
    settle st (l.flatMap f) = settle st (l'.flatMap f) := by
  induction hp generalizing st with
  | nil => rfl
  | cons a _ ih =>
    rw [List.flatMap_cons, List.flatMap_cons, settle_append, settle_append]
    apply ih
    intro b hb c hc
    exact comm_settle (h b (List.mem_cons_of_mem _ hb) c (List.mem_cons_of_mem _ hc)) _
  | swap a b l =>
    have hcomm := h b List.mem_cons_self a (List.mem_cons_of_mem _ List.mem_cons_self)
    simp only [List.flatMap_cons, ← List.append_assoc]
    rw [settle_append, settle_append _ (f a ++ f b), hcomm]
  | trans h₁ _ ih₁ ih₂ =>
    refine (ih₁ h).trans (ih₂ ?_)
    intro a ha b hb
    exact h a (h₁.mem_iff.2 ha) b (h₁.mem_iff.2 hb)

end Standing

end AtomicCss
