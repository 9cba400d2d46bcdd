import AtomicCss.Document.Node
import AtomicCss.Proofs.Document.Calls

/-! # The tree of a document

`Document.tree` is built from the youngest container to the root. For a well-formed document that
loses nothing: the tree depicts the stored containers (`depicts_tree`), and it holds each of them
exactly once (`ids_tree_perm`). -/

namespace AtomicCss

namespace Node

mutual

/-- The containers of a node, in the order in which they are written. -/
def ids : Node → List ContainerId
  | .container id _ _ children => id :: idsOf children
  | .raw _ => []
  | .slot _ entries => idsOf entries

/-- The containers of some nodes, one node after the other. -/
def idsOf : List Node → List ContainerId
  | [] => []
  | n :: ns => n.ids ++ idsOf ns

end

variable {slots : List Slot} {start k id : Nat} {cs : List Container}

theorem drop_ofContainers (k : Nat) :
    (ofContainers slots start cs).drop k = ofContainers slots (start + k) (cs.drop k) := by
  induction cs generalizing start k with
  | nil => simp [ofContainers]
  | cons c cs ih =>
    cases k with
    | zero => rfl
    | succ k =>
      rw [ofContainers, List.drop_succ_cons, List.drop_succ_cons, ih, Nat.add_assoc,
        Nat.add_comm 1 k]

theorem pick_ofContainers_drop (h : start + k ≤ id) :
    pick (start + k) (ofContainers slots (start + k) (cs.drop k)) id =
      pick start (ofContainers slots start cs) id := by
  have h' : start ≤ id := by omega
  have hid : k + (id - (start + k)) = id - start := by omega
  rw [pick, pick, if_pos h, if_pos h', ← drop_ofContainers, List.getElem?_drop]
  exact congrArg _ hid

theorem getElem?_ofContainers (i : Nat) :
    (ofContainers slots start cs)[i]? = (cs[i]?).map fun c =>
      .container (start + i) c.kind c.block (c.children.filterMap
        (ofChild slots (start + i + 1) (ofContainers slots (start + i + 1) (cs.drop (i + 1))))) := by
  rw [← Nat.add_zero i, ← List.getElem?_drop, drop_ofContainers, Nat.add_zero, ← List.head?_drop (l := cs)]
  cases h : cs.drop i with
  | nil => simp [ofContainers]
  | cons c rest =>
    rw [ofContainers, List.head?_cons, Option.map_some, ← List.drop_drop, h]
    rfl

end Node

namespace Document

variable {d : Document} {id j p x : Nat}

/-! ## Nodes by number -/

def node? (d : Document) (id : ContainerId) : Option Node :=
  Node.pick rootId (Node.ofContainers d.slots rootId d.containers) id

def childNode? (d : Document) : Child → Option Node
  | .container id => d.node? id
  | .raw css => some (.raw css)
  | .slot s => (d.slots[s]?).map fun sl => .slot s (sl.ids.filterMap d.node?)

/-- In a well-formed document, the node of a container holds the nodes of all its children. -/
theorem WellFormed.node?_eq (h : d.WellFormed) {c : Container} (hc : d.get? id = some c) :
    d.node? id = some (.container id c.kind c.block (c.children.filterMap d.childNode?)) := by
  obtain ⟨n, rfl, hn⟩ := get?_eq_some_iff.1 hc
  -- what hangs under the container is younger, so it is among the nodes built before
  have hpick {j : Nat} (hj : j ∈ d.below (n + 1)) :
      Node.pick (1 + n + 1) (Node.ofContainers d.slots (1 + n + 1) (d.containers.drop (n + 1))) j =
        d.node? j := by
    have := h.younger hj
    exact @Node.pick_ofContainers_drop d.slots 1 (n + 1) j d.containers (by omega)
  have hchild : ∀ ch ∈ c.children,
      Node.ofChild d.slots (1 + n + 1)
        (Node.ofContainers d.slots (1 + n + 1) (d.containers.drop (n + 1))) ch =
      d.childNode? ch := by
    intro ch hch
    cases ch with
    | container j => exact hpick (mem_below.2 ⟨c, hc, .inl hch⟩)
    | raw css => rfl
    | slot s =>
      cases hs : d.slots[s]? with
      | none => simp [Node.ofChild, childNode?, hs]
      | some sl =>
        simp only [Node.ofChild, childNode?, hs, Option.map_some]
        congr 2
        apply List.filterMap_congr
        intro j hj
        apply hpick
        exact mem_below.2 ⟨c, hc, .inr ⟨s, sl, hch, hs, hj⟩⟩
  rw [node?, Node.pick, rootId, if_pos (Nat.le_add_left 1 n), Nat.add_sub_cancel, Node.getElem?_ofContainers, hn,
    Option.map_some, List.filterMap_congr hchild, Nat.add_comm 1 n]

theorem WellFormed.node?_root (h : d.WellFormed) : d.node? rootId = some d.tree := by
  obtain ⟨c, hc⟩ := get?_of_contains h.contains_root
  have hnode := h.node?_eq hc
  rw [node?, Node.pick, if_pos (Nat.le_refl _), Nat.sub_self, ← List.head?_eq_getElem?] at hnode ⊢
  rw [tree, List.headD_eq_head?_getD, hnode]
  rfl

/-! ## The containers of the tree -/

/-- The containers that a child brings to the place where it stands. -/
def hanging (d : Document) : Child → List ContainerId
  | .container id => [id]
  | .raw _ => []
  | .slot s => (d.slots[s]?).elim [] Slot.ids

theorem below_eq_flatMap {c : Container} (hc : d.get? p = some c) :
    d.below p = c.children.flatMap d.hanging := by
  rw [below, hc]
  apply List.flatMap_congr
  intro ch _
  cases ch <;> rfl

/-- The containers at and below a container, in the order in which they are written. -/
def idsUnder (d : Document) (id : ContainerId) : List ContainerId :=
  (d.node? id).elim [] Node.ids

theorem idsOf_filterMap_node? (l : List ContainerId) :
    Node.idsOf (l.filterMap d.node?) = l.flatMap d.idsUnder := by
  induction l with
  | nil => rfl
  | cons i l ih =>
    rw [List.filterMap_cons, List.flatMap_cons, idsUnder]
    cases d.node? i with
    | none => exact ih
    | some n => exact congrArg (n.ids ++ ·) ih

theorem idsOf_filterMap_childNode? (l : List Child) :
    Node.idsOf (l.filterMap d.childNode?) = (l.flatMap d.hanging).flatMap d.idsUnder := by
  induction l with
  | nil => rfl
  | cons ch l ih =>
    rw [List.filterMap_cons, List.flatMap_cons, List.flatMap_append, ← ih]
    cases ch with
    | container i =>
      simp only [childNode?, hanging, List.flatMap_singleton, idsUnder]
      cases d.node? i <;> rfl
    | raw css => rfl
    | slot s =>
      simp only [childNode?, hanging]
      cases d.slots[s]? with
      | none => rfl
      | some sl => exact congrArg (· ++ _) (idsOf_filterMap_node? sl.ids)

theorem WellFormed.idsUnder_eq (h : d.WellFormed) (hid : d.contains id = true) :
    d.idsUnder id = id :: (d.below id).flatMap d.idsUnder := by
  obtain ⟨c, hc⟩ := get?_of_contains hid
  rw [idsUnder, h.node?_eq hc, below_eq_flatMap hc, ← idsOf_filterMap_childNode?]
  rfl

/-- What holds of a container once it holds of all younger ones holds of every container. -/
theorem WellFormed.induction_below (h : d.WellFormed) {motive : Nat → Prop}
    (step : ∀ id : Nat, d.contains id = true → (∀ j ∈ d.below id, motive j) → motive id) :
    ∀ id : Nat, d.contains id = true → motive id := by
  intro id
  induction hk : d.size - id using Nat.strongRecOn generalizing id with
  | _ k ih =>
    intro hid
    apply step id hid
    intro j hj
    have hj' := h.contains_of_mem_below hj
    have hdecrease : d.size - j < k := by
      have := h.younger hj
      have := contains_iff.1 hid
      have := contains_iff.1 hj'
      omega
    exact ih (d.size - j) hdecrease j rfl hj'

/-! ### Each container has one parent -/

theorem flatMap_range_getElem? {α β : Type} (l : List α) (f : α → List β) :
    ((List.range l.length).flatMap fun i => (l[i]?).elim [] f) = l.flatMap f := by
  have hmap : (List.range l.length).map (fun i => (l[i]?).elim [] f) = l.map f := by
    apply List.ext_getElem
    · simp
    · intro i h1 h2
      simp only [List.length_map] at h2
      simp [h2]
  rw [List.flatMap_def, List.flatMap_def, hmap]

/-- The places under all containers taken together are the places of the document. -/
theorem WellFormed.flatMap_hanging_perm (h : d.WellFormed) :
    (d.containers.flatMap fun c => c.children.flatMap d.hanging).Perm d.placed := by
  let slotIds (s : SlotId) : List ContainerId := (d.slots[s]?).elim [] Slot.ids
  have hsplit (l : List Child) : (l.flatMap d.hanging).Perm
      (l.filterMap Child.container? ++ (l.filterMap Child.slot?).flatMap slotIds) := by
    induction l with
    | nil => exact .refl _
    | cons ch l ih =>
      cases ch with
      | container i => exact ih.cons i
      | raw css => exact ih
      | slot s =>
        refine (ih.append_left _).trans ?_
        simp only [hanging, List.filterMap_cons, Child.container?, Child.slot?, List.flatMap_cons,
          ← List.append_assoc]
        exact List.perm_append_comm.append_right _
  have hslots : (d.containers.flatMap fun c =>
      (c.children.filterMap Child.slot?).flatMap slotIds).Perm (d.slots.flatMap Slot.ids) := by
    rw [← List.flatMap_assoc, ← flatMap_range_getElem? d.slots Slot.ids]
    exact h.slotted.flatMap_right _
  refine (List.Perm.flatMap_left _ fun c _ => hsplit c.children).trans ?_
  exact (List.flatMap_append_perm _ _ _).symm.trans (hslots.append_left _)

theorem WellFormed.nodup_flatMap_hanging (h : d.WellFormed) :
    (d.containers.flatMap fun c => c.children.flatMap d.hanging).Nodup := by
  rw [(h.flatMap_hanging_perm.trans h.placed).nodup_iff]
  exact List.nodup_range'

theorem WellFormed.nodup_below (h : d.WellFormed) (p : Nat) : (d.below p).Nodup := by
  cases hc : d.get? p with
  | none => simp [below, hc]
  | some c =>
    obtain ⟨n, -, hn⟩ := get?_eq_some_iff.1 hc
    rw [below_eq_flatMap hc]
    exact (List.nodup_flatMap.1 h.nodup_flatMap_hanging).1 c (List.mem_of_getElem? hn)

/-- No container hangs under two. -/
theorem WellFormed.parent_unique (h : d.WellFormed) (hp : x ∈ d.below p) (hj : x ∈ d.below j) :
    p = j := by
  obtain ⟨c, hc, -⟩ := mem_below.1 hp
  obtain ⟨c', hc', -⟩ := mem_below.1 hj
  rw [below_eq_flatMap hc] at hp
  rw [below_eq_flatMap hc'] at hj
  obtain ⟨n, rfl, hgetn⟩ := get?_eq_some_iff.1 hc
  obtain ⟨m, rfl, hgetm⟩ := get?_eq_some_iff.1 hc'
  obtain ⟨hn, hcn⟩ := List.getElem?_eq_some_iff.1 hgetn
  obtain ⟨hm, hcm⟩ := List.getElem?_eq_some_iff.1 hgetm
  have hpair := List.pairwise_iff_getElem.1 (List.nodup_flatMap.1 h.nodup_flatMap_hanging).2
  rcases Nat.lt_trichotomy n m with hlt | rfl | hlt
  · exfalso
    exact hpair n m hn hm hlt (by rwa [hcn]) (by rwa [hcm])
  · rfl
  · exfalso
    exact hpair m n hm hn hlt (by rwa [hcm]) (by rwa [hcn])

theorem WellFormed.exists_parent (h : d.WellFormed) (hx : d.contains x = true) (h1 : x ≠ rootId) :
    ∃ p, d.contains p = true ∧ x ∈ d.below p := by
  have hx' := contains_iff.1 hx
  have hmem : x ∈ d.placed := h.mem_placed_iff.2 ⟨by simp only [rootId] at h1; omega, hx'.2⟩
  obtain ⟨c, hc, hxc⟩ := List.mem_flatMap.1 (h.flatMap_hanging_perm.mem_iff.2 hmem)
  obtain ⟨n, hn⟩ := List.mem_iff_getElem?.1 hc
  have hget : d.get? (n + 1) = some c := hn
  exact ⟨n + 1, by simp [contains, hget], by rwa [below_eq_flatMap hget]⟩

theorem WellFormed.count_below (h : d.WellFormed) (hp : x ∈ d.below p) :
    (d.below id).count x = if id = p then 1 else 0 := by
  split
  · rename_i heq
    rw [heq]
    exact List.count_eq_one_of_mem (h.nodup_below p) hp
  · rename_i hne
    apply List.count_eq_zero.2
    intro hid
    exact hne (h.parent_unique hid hp)

/-! ### Counting -/

theorem WellFormed.le_of_mem_idsUnder (h : d.WellFormed) :
    ∀ id : Nat, d.contains id = true → ∀ x ∈ d.idsUnder id, id ≤ x ∧ d.contains x = true := by
  refine h.induction_below ?_
  intro id hid ih x hx
  rw [h.idsUnder_eq hid, List.mem_cons, List.mem_flatMap] at hx
  rcases hx with rfl | ⟨j, hj, hx⟩
  · exact ⟨Nat.le_refl _, hid⟩
  · have := ih j hj x hx
    exact ⟨Nat.le_trans (Nat.le_of_lt (h.younger hj)) this.1, this.2⟩

/-- A container occurs under another one as often as its parent does, except under itself. -/
theorem WellFormed.count_idsUnder (h : d.WellFormed) (hp : x ∈ d.below p) :
    ∀ id : Nat, d.contains id = true →
      (d.idsUnder id).count x = (if id = x then 1 else 0) + (d.idsUnder id).count p := by
  refine h.induction_below ?_
  intro id hid ih
  have hsum : ((d.below id).flatMap d.idsUnder).count x =
      (d.below id).count x + ((d.below id).flatMap d.idsUnder).count p := by
    generalize d.below id = l at ih
    induction l with
    | nil => rfl
    | cons j l ihl =>
      have hj := ih j List.mem_cons_self
      have hl := by
        apply ihl
        intro i hi
        exact ih i (List.mem_cons_of_mem _ hi)
      simp only [List.flatMap_cons, List.count_append, List.count_cons, beq_iff_eq]
      omega
  rw [h.idsUnder_eq hid, List.count_cons, List.count_cons, hsum, h.count_below hp]
  simp only [beq_iff_eq]
  omega

theorem WellFormed.count_idsUnder_root (h : d.WellFormed) :
    ∀ x : Nat, d.contains x = true → (d.idsUnder rootId).count x = 1 := by
  intro x
  -- the root occurs once because all else is younger, and every other container as often as its
  -- parent, which is older than itself
  induction x using Nat.strongRecOn with
  | _ x ih =>
    intro hx
    by_cases hroot : x = rootId
    · rw [hroot, h.idsUnder_eq h.contains_root, List.count_cons_self, List.count_eq_zero.2]
      intro hmem
      obtain ⟨j, hj, hjx⟩ := List.mem_flatMap.1 hmem
      have hle : (j : Nat) ≤ rootId := (h.le_of_mem_idsUnder j (h.contains_of_mem_below hj) _ hjx).1
      exact absurd hle (Nat.not_le.2 (h.younger hj))
    · obtain ⟨p, hpc, hp⟩ := h.exists_parent hx hroot
      rw [h.count_idsUnder hp rootId h.contains_root, if_neg (Ne.symm hroot),
        ih p (h.younger hp) hpc]

/-- The tree holds every container exactly once. -/
theorem WellFormed.ids_tree_perm (h : d.WellFormed) : d.tree.ids.Perm (List.range' 1 d.size) := by
  have htree : d.tree.ids = d.idsUnder rootId := by
    rw [idsUnder, h.node?_root]
    rfl
  rw [htree, List.perm_iff_count]
  intro x
  rw [List.Nodup.count List.nodup_range']
  by_cases hx : d.contains x = true
  · have := contains_iff.1 hx
    rw [h.count_idsUnder_root x hx, if_pos (List.mem_range'_1.2 ⟨this.1, by omega⟩)]
  · rw [if_neg, List.count_eq_zero]
    · intro hmem
      exact hx (h.le_of_mem_idsUnder rootId h.contains_root x hmem).2
    · intro hmem
      have := List.mem_range'_1.1 hmem
      exact hx (contains_iff.2 ⟨this.1, by omega⟩)

/-! ## The tree depicts the document -/

/-- A node shows a child as it is stored, with everything below it and in order. -/
inductive Depicts (d : Document) : Child → Node → Prop
  | container {id : ContainerId} {c : Container} {nodes : List Node} (get : d.get? id = some c)
      (children : List.Forall₂ (Depicts d) c.children nodes) :
      Depicts d (.container id) (.container id c.kind c.block nodes)
  | raw {css : String} : Depicts d (.raw css) (.raw css)
  | slot {s : SlotId} {sl : Slot} {nodes : List Node} (get : d.slots[s]? = some sl)
      (entries : List.Forall₂ (Depicts d) (sl.ids.map .container) nodes) :
      Depicts d (.slot s) (.slot s nodes)

theorem forall₂_filterMap {α β : Type} {R : α → β → Prop} {f : α → Option β} {l : List α}
    (h : ∀ a ∈ l, ∃ b, f a = some b ∧ R a b) : List.Forall₂ R l (l.filterMap f) := by
  induction l with
  | nil => exact .nil
  | cons a l ih =>
    obtain ⟨b, hb, hr⟩ := h a List.mem_cons_self
    rw [List.filterMap_cons, hb]
    apply List.Forall₂.cons hr
    apply ih
    intro x hx
    exact h x (List.mem_cons_of_mem _ hx)

theorem WellFormed.depicts_node? (h : d.WellFormed) :
    ∀ id : Nat, d.contains id = true → ∃ n, d.node? id = some n ∧ d.Depicts (.container id) n := by
  refine h.induction_below ?_
  intro id hid ih
  obtain ⟨c, hc⟩ := get?_of_contains hid
  refine ⟨_, h.node?_eq hc, .container hc ?_⟩
  apply forall₂_filterMap
  intro ch hch
  cases ch with
  | container j => exact ih j (mem_below.2 ⟨c, hc, .inl hch⟩)
  | raw css => exact ⟨_, rfl, .raw⟩
  | slot s =>
    obtain ⟨sl, hsl, -⟩ := Option.map_eq_some_iff.1 (h.parents hc hch)
    refine ⟨_, by rw [childNode?, hsl]; rfl, .slot hsl ?_⟩
    rw [List.forall₂_map_left_iff]
    apply forall₂_filterMap
    intro j hj
    apply ih
    exact mem_below.2 ⟨c, hc, .inr ⟨s, sl, hch, hsl, hj⟩⟩

/-- The tree shows the whole document. -/
theorem WellFormed.depicts_tree (h : d.WellFormed) : d.Depicts (.container rootId) d.tree := by
  obtain ⟨n, hn, hd⟩ := h.depicts_node? rootId h.contains_root
  rw [h.node?_root, Option.some.injEq] at hn
  exact hn ▸ hd

/-! ## Reached documents -/

/-- The containers of a document form one tree, in which every selector can be found by its text. -/
structure Arranged (d : Document) : Prop where
  /-- Child lists and slots taken together name every container but the root, and each once. -/
  placed : ∀ id : Nat, d.placed.count id = if 2 ≤ id ∧ id ≤ d.size then 1 else 0
  slotPlaces : ∀ s : Nat, d.slotPlaces.count s = if s < d.slots.length then 1 else 0
  slotParent : ∀ {s : Nat} {sl}, d.slots[s]? = some sl →
    ∃ c, d.get? sl.parent = some c ∧ .slot s ∈ c.children
  younger : ∀ {p id : Nat}, id ∈ d.below p → p < id
  distinctTexts : ∀ {p id id' : Nat} {text}, id ∈ d.below p → id' ∈ d.below p →
    d.selectorText? id = some text → d.selectorText? id' = some text → id = id'
  found : ∀ {p : Nat} {text} {id : Nat}, d.findSelector? p text = some id ↔
    id ∈ d.below p ∧ d.selectorText? id = some (Text.trimmed text)
  depicted : d.Depicts (.container rootId) d.tree
  visited : d.tree.ids.Perm (List.range' 1 d.size)

theorem WellFormed.arranged (h : d.WellFormed) : d.Arranged where
  placed id := by
    rw [(h.placed).count_eq, List.Nodup.count List.nodup_range']
    simp only [← h.placed.mem_iff, h.mem_placed_iff]
  slotPlaces s := by
    rw [h.slotted.count_eq, List.Nodup.count List.nodup_range]
    simp only [List.mem_range]
  slotParent := h.slot_mem_children
  younger := h.younger
  distinctTexts := h.eq_of_selectorText?_eq
  found := h.findSelector?_eq_some_iff
  depicted := h.depicts_tree
  visited := h.ids_tree_perm

/-- **The tree invariant.** Whatever is called, each container has one place, below an older one,
no text repeats under a container, and what is written is one finite walk over all of them. -/
theorem arranged_run (calls : List Call) : (empty.run calls).Arranged :=
  (wellFormed_run calls).arranged

end Document

end AtomicCss
