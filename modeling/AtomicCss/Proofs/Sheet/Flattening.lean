import AtomicCss.Proofs.Sheet.Leaves
import AtomicCss.Sheet
import Mathlib

/-! # A sheet without recursion

The writer goes down the tree with a place that it changes on the way, and writes the rule, the raw
fragments and the at-rule of every container that it comes through. The same sheet comes about from
the texts of what is met on the walk (`Document.sheet_eq_flattened`). -/

namespace AtomicCss

/-! ## Places -/

/-- The place inside of a container. -/
def Place.within (p : Place) (id : ContainerId) (kind : Kind) : Place :=
  match kind with
  | .root => { p.enter id kind with selectors := none }
  | .selector text =>
    { p.enter id kind with selectors := some (Selector.nest p.selectors text), inRule := true }
  | .media _ => { p.enter id kind with depth := p.depth + 1 }
  | .keyframes _ => { p.enter id kind with selectors := none, depth := p.depth + 1 }

/-- The place that some containers lead to. -/
def Chain.place (c : Chain) : Place :=
  ⟨c.scopes, c.labels, c.selectors?, c.atRules.length, c.inRule⟩

theorem Chain.place_concat (c : Chain) (id : ContainerId) (kind : Kind) :
    place (c ++ [⟨id, kind⟩]) = c.place.within id kind := by
  rw [place, atRules_concat, selectors?_concat, List.length_append]
  cases kind <;>
    simp [place, scopes, labels, inRule, Place.within, Place.enter, Kind.header?, Kind.selectorText?]

/-! ## Rules and raw fragments -/

theorem length_of_mapM_eq_ok {α β ε : Type} {f : α → Except ε β} {l : List α} {ys : List β}
    (h : l.mapM f = .ok ys) : ys.length = l.length := by
  induction l generalizing ys with
  | nil =>
    obtain rfl := Except.ok.inj h
    rfl
  | cons x l ih =>
    rw [List.mapM_cons] at h
    obtain ⟨y, -, h⟩ := bind_eq_ok.1 h
    obtain ⟨zs, hzs, h⟩ := bind_eq_ok.1 h
    obtain rfl := Except.ok.inj h
    exact congrArg (· + 1) (ih hzs)

theorem join_map_space {items : List String} (h : items ≠ []) :
    String.join (items.map (" " ++ ·)) = " " ++ " ".intercalate items := by
  induction items with
  | nil => exact absurd rfl h
  | cons item items ih =>
    cases items with
    | nil => simp
    | cons item' items =>
      rw [List.map_cons, String.join_cons, ih (List.cons_ne_nil _ _), String.intercalate_cons_cons,
        String.append_assoc, String.append_assoc]

namespace Writer

variable {w : Writer} {vs vs' : List Visit} {depth : Nat} {a : AtRule}

theorem rawTexts_eq_rawsOf (ns : List Node) : rawTexts ns = Node.rawsOf ns := by
  induction ns with
  | nil => rfl
  | cons n ns ih =>
    cases n with
    | raw css => exact congrArg (css :: ·) ih
    | container id kind block children => exact ih
    | slot s entries => exact ih

/-- At the place of its container, a declaration is resolved in the scopes around it. -/
theorem declaration_place (x : Written) : w.declaration x.chain.place x.declaration =
    (x.text w.vars w.config).map (" " ++ ·) := by
  have hscopes : x.chain.place.scopes = x.chain.scopes := rfl
  rw [declaration, Written.text, Written.value, hscopes]
  cases w.vars.resolveValue x.chain.scopes x.declaration.value with
  | error cause => rfl
  | ok value => simp only [Except.map, String.append_assoc]

theorem mapM_declaration (c : Chain) (ds : List Declaration) : ds.mapM (w.declaration c.place) =
    ((ds.map (Written.mk c)).mapM (Written.text · w.vars w.config)).map (List.map (" " ++ ·)) := by
  induction ds with
  | nil => rfl
  | cons d ds ih =>
    rw [List.map_cons, List.mapM_cons, List.mapM_cons, ih, declaration_place ⟨c, d⟩]
    cases Written.text ⟨c, d⟩ w.vars w.config with
    | error cause => rfl
    | ok text => cases (ds.map (Written.mk c)).mapM (Written.text · w.vars w.config) <;> rfl

/-- The rule of a container has its declarations and raw fragments between the braces. -/
theorem rule_place (c : Chain) (block : Block) (raws : List String) :
    w.rule c.place c.selectors block raws = do
      let declarations ← (if c.selectors = [] then [] else block.declarations.map (Written.mk c)).mapM
        (Written.text · w.vars w.config)
      return (ruleText? (indentation w.indent c.atRules.length) c.selectors
        (declarations ++ (raws.map oneLine).filter (· ≠ ""))).toList := by
  have hinlined : raws.map inlined = raws.map oneLine := rfl
  rw [rule, hinlined]
  generalize (raws.map oneLine).filter (· ≠ "") = raws
  by_cases hselectors : c.selectors = []
  · simp [hselectors, ruleText?, bind, Except.bind, pure, Except.pure]
  rw [if_neg hselectors]
  by_cases hempty : block.declarations = [] ∧ raws = []
  · simp [hempty, Block.isEmpty, ruleText?, bind, Except.bind, pure, Except.pure]
  have hwrite : ¬ ((block.isEmpty && raws.isEmpty || c.selectors.isEmpty) = true) := by
    simpa [Block.isEmpty, hselectors] using hempty
  dsimp only
  rw [if_neg hwrite, mapM_declaration]
  cases hlines : (block.declarations.map (Written.mk c)).mapM (Written.text · w.vars w.config) with
  | error cause => rfl
  | ok lines =>
    have hitems : lines ++ raws ≠ [] := by
      intro hnone
      obtain ⟨rfl, hraws⟩ := List.append_eq_nil_iff.1 hnone
      have hlength := length_of_mapM_eq_ok hlines
      rw [List.length_map] at hlength
      exact hempty ⟨List.length_eq_zero_iff.1 hlength.symm, hraws⟩
    have hbody : String.join (lines.map (" " ++ ·)) ++ String.join (raws.map (" " ++ ·)) =
        " " ++ " ".intercalate (lines ++ raws) := by
      rw [← join_map_space hitems, List.map_append, String.join_append]
    have hrule : ruleText? (indentation w.indent c.atRules.length) c.selectors (lines ++ raws) =
        some _ := if_neg (not_or.2 ⟨hitems, hselectors⟩)
    simp only [Except.map, bind, Except.bind, pure, Except.pure, hrule, hbody, String.append_assoc]
    rfl

/-! ## The texts of some visits -/

/-- What is written of a visit by itself. -/
def own (w : Writer) (v : Visit) : Except Error (List String) :=
  (v.text? w.vars w.config w.indent).map Option.toList

/-- A container's own rule is written at the place inside of it. -/
theorem own_container (c : Chain) (id : ContainerId) (kind : Kind) (block : Block)
    (raws : List String) :
    let inside := c ++ [⟨id, kind⟩]
    w.own ⟨c, .container id kind block raws⟩ = match kind with
      | .keyframes _ => .ok []
      | .selector _ => w.rule (Chain.place inside) (Chain.selectors inside) block raws
      | _ => w.rule (Chain.place inside) (Chain.selectors inside) block [] := by
  intro inside
  have hown : w.own ⟨c, .container id kind block raws⟩ = do
      let declarations ← (Visit.written ⟨c, .container id kind block raws⟩).mapM
        (Written.text · w.vars w.config)
      return (ruleText? (indentation w.indent (Chain.atRules inside).length) (Chain.selectors inside)
        (declarations ++ Visit.raws ⟨c, .container id kind block raws⟩)).toList := by
    unfold own Visit.text?
    cases (Visit.written ⟨c, .container id kind block raws⟩).mapM (Written.text · w.vars w.config) <;>
      rfl
  rw [hown]
  -- only the rule of a selector has raw fragments, and keyframes have none at all
  cases kind with
  | keyframes name => rfl
  | root => exact (rule_place inside block []).symm
  | selector text => exact (rule_place inside block raws).symm
  | media query => exact (rule_place inside block []).symm

/-- Outside of rules, a raw fragment is written line by line. -/
theorem own_raw (c : Chain) (css : String) :
    w.own ⟨c, .raw css⟩ = .ok (if c.inRule then [] else w.fragment c.atRules.length css) := by
  have hlines : (Text.trimmedLines css.toList).map String.ofList = rawLines css := rfl
  rw [own, Visit.text?, fragment, hlines]
  apply congrArg Except.ok
  by_cases hrule : c.inRule = true
  · simp [hrule]
  by_cases hblank : rawLines css = []
  · simp [hblank]
  simp only [hrule, hblank, or_self, if_false, List.isEmpty_iff, Bool.false_eq_true]
  rfl

/-- What is written of some visits that have the first `depth` at-rules in common. -/
def assembled (w : Writer) (depth : Nat) (vs : List Visit) : Except Error (List String) :=
  (Visit.leaves vs w.vars w.config w.indent).map (Leaf.assemble w.indent depth)

theorem assembled_nil : w.assembled depth [] = .ok [] := congrArg Except.ok Leaf.assemble_nil

theorem assembled_cons (v : Visit) (vs : List Visit) :
    w.assembled v.chain.atRules.length (v :: vs) = do
      let own ← w.own v
      let inner ← w.assembled v.chain.atRules.length vs
      return own ++ inner := by
  rw [assembled, assembled, Visit.leaves_cons, Visit.leaf?, own]
  cases v.text? w.vars w.config w.indent with
  | error cause => rfl
  | ok text =>
    cases Visit.leaves vs w.vars w.config w.indent with
    | error cause => rfl
    | ok inner =>
      cases text with
      | none => rfl
      | some text => exact congrArg Except.ok (Leaf.assemble_cons_of_none (by simp))

theorem assembled_of_forall (h : ∀ v ∈ vs, v.chain.atRules[depth]? = some a) :
    w.assembled depth vs = (w.assembled (depth + 1) vs).map (w.atRule depth a.2) := by
  rw [assembled, assembled]
  cases hls : Visit.leaves vs w.vars w.config w.indent with
  | error cause => rfl
  | ok ls =>
    apply congrArg Except.ok
    by_cases hnone : ls = []
    · simp [hnone, Leaf.assemble_nil, atRule]
    have htexts : ¬ ((Leaf.assemble w.indent (depth + 1) ls).isEmpty = true) := by
      rwa [List.isEmpty_iff, Leaf.assemble_eq_nil_iff]
    rw [atRule, if_neg htexts]
    apply Leaf.assemble_of_forall hnone
    intro l hl
    obtain ⟨v, hv, heq⟩ := Visit.exists_visit_of_mem_leaves hls hl
    rw [heq, h v hv]

theorem assembled_append (h : ∀ v ∈ vs, ∀ v' ∈ vs', ∀ a, v.chain.atRules[depth]? = some a →
    v'.chain.atRules[depth]? ≠ some a) :
    w.assembled depth (vs ++ vs') = do
      let first ← w.assembled depth vs
      let rest ← w.assembled depth vs'
      return first ++ rest := by
  rw [assembled, assembled, assembled, Visit.leaves_append]
  cases hls : Visit.leaves vs w.vars w.config w.indent with
  | error cause => rfl
  | ok ls =>
    cases hls' : Visit.leaves vs' w.vars w.config w.indent with
    | error cause => rfl
    | ok ls' =>
      apply congrArg Except.ok
      apply Leaf.assemble_append
      intro l hl l' hl'
      obtain ⟨v, hv, heq⟩ := Visit.exists_visit_of_mem_leaves hls hl
      obtain ⟨v', hv', heq'⟩ := Visit.exists_visit_of_mem_leaves hls' hl'
      rw [heq, heq']
      exact h v hv v' hv'

/-! ## The writer -/

/-- Some chunks in the at-rule of a container, if it writes one. -/
def enclose (w : Writer) (depth : Nat) (kind : Kind) (chunks : List String) : List String :=
  kind.header?.elim chunks (w.atRule depth · chunks)

/-- A container writes its own rule, then what it holds, and its at-rule around both. -/
theorem chunks_container (c : Chain) (id : ContainerId) (kind : Kind) (block : Block)
    (children : List Node) : w.chunks c.place (.container id kind block children) = do
      let own ← w.own ⟨c, .container id kind block (Node.rawsOf children)⟩
      let inner ← w.chunksOf (Chain.place (c ++ [⟨id, kind⟩])) children
      return w.enclose c.atRules.length kind (own ++ inner) := by
  rw [own_container, ← rawTexts_eq_rawsOf]
  -- a rule does not see in which respects the place of the writer and that of the visit differ
  cases kind <;>
    · simp only [Chain.selectors, Chain.place_concat, Chain.selectors?_concat]
      rw [chunks]
      rfl

theorem exists_ancestor_of_atRules {c rest : Chain}
    (h : (Chain.atRules (c ++ rest))[c.atRules.length]? = some a) : ∃ x ∈ rest, x.id = a.1 := by
  rw [Chain.atRules_append, List.getElem?_append_right (Nat.le_refl _), Nat.sub_self] at h
  exact Chain.exists_mem_of_mem_atRules (List.mem_of_getElem? h)

/-- Nodes without a common container have no at-rule in common but those around both. -/
theorem separate_visits {n : Node} {ns : List Node} {c : Chain}
    (h : ∀ x ∈ n.ids, x ∉ Node.idsOf ns) {v v' : Visit} (hv : v ∈ n.visits c)
    (hv' : v' ∈ Node.visitsOf c ns) (ha : v.chain.atRules[c.atRules.length]? = some a) :
    v'.chain.atRules[c.atRules.length]? ≠ some a := by
  intro ha'
  obtain ⟨rest, hrest, hids⟩ := Node.chain_of_mem_visits n hv
  obtain ⟨rest', hrest', hids'⟩ := Node.chain_of_mem_visitsOf ns hv'
  rw [hrest] at ha
  rw [hrest'] at ha'
  obtain ⟨x, hx, hxa⟩ := exists_ancestor_of_atRules ha
  obtain ⟨x', hx', hxa'⟩ := exists_ancestor_of_atRules ha'
  apply h x.id (hids x hx)
  rw [hxa, ← hxa']
  exact hids' x' hx'

/-- What is met in a container is written as the container writes it. -/
theorem assembled_container (c : Chain) (id : ContainerId) (kind : Kind) (block : Block)
    (children : List Node) (raws : List String) :
    w.assembled c.atRules.length (⟨c, .container id kind block raws⟩ ::
        Node.visitsOf (c ++ [⟨id, kind⟩]) children) = do
      let own ← w.own ⟨c, .container id kind block raws⟩
      let inner ← w.assembled (Chain.atRules (c ++ [⟨id, kind⟩])).length
        (Node.visitsOf (c ++ [⟨id, kind⟩]) children)
      return w.enclose c.atRules.length kind (own ++ inner) := by
  have hcons := assembled_cons (w := w) ⟨c, .container id kind block raws⟩
    (Node.visitsOf (c ++ [⟨id, kind⟩]) children)
  simp only [Visit.chain] at hcons
  unfold enclose
  cases hk : kind.header? with
  | none =>
    have hrules : Chain.atRules (c ++ [⟨id, kind⟩]) = c.atRules := by
      rw [Chain.atRules_concat, hk]
      exact List.append_nil _
    rw [hrules] at hcons ⊢
    exact hcons
  | some header =>
    have hrules : Chain.atRules (c ++ [⟨id, kind⟩]) = c.atRules ++ [(id, header)] := by
      rw [Chain.atRules_concat, hk]
      rfl
    have hall : ∀ v ∈ ⟨c, .container id kind block raws⟩ ::
        Node.visitsOf (c ++ [⟨id, kind⟩]) children,
        v.chain.atRules[c.atRules.length]? = some (id, header) := by
      intro v hv
      have hchain : ∃ rest : Chain, v.chain = (c ++ [⟨id, kind⟩]) ++ rest := by
        rcases List.mem_cons.1 hv with rfl | hv
        · exact ⟨[], (List.append_nil _).symm⟩
        · obtain ⟨rest, hrest, -⟩ := Node.chain_of_mem_visitsOf children hv
          exact ⟨rest, hrest⟩
      obtain ⟨rest, hrest⟩ := hchain
      rw [hrest, Chain.atRules_append, hrules, List.append_assoc,
        List.getElem?_append_right (Nat.le_refl _), Nat.sub_self]
      rfl
    rw [hrules, List.length_append] at hcons ⊢
    rw [assembled_of_forall hall]
    refine (congrArg (Except.map _) hcons).trans ?_
    cases w.own ⟨c, .container id kind block raws⟩ with
    | error cause => rfl
    | ok own => cases w.assembled _ (Node.visitsOf (c ++ [⟨id, kind⟩]) children) <;> rfl

mutual

/-- The chunks of a node are assembled from what is met in it. -/
theorem chunks_eq_assembled : ∀ (n : Node) (c : Chain), n.ids.Nodup →
    w.chunks c.place n = w.assembled c.atRules.length (n.visits c)
  | .raw css, c, _ => by
    have hcons := assembled_cons (w := w) ⟨c, .raw css⟩ []
    rw [assembled_nil, own_raw] at hcons
    rw [chunks, Node.visits]
    refine Eq.trans ?_ hcons.symm
    exact congrArg Except.ok (List.append_nil _).symm
  | .slot s entries, c, h => by rw [chunks, Node.visits, chunksOf_eq_assembled entries c h]
  | .container id kind block children, c, h => by
    rw [chunks_container, chunksOf_eq_assembled children _ h.of_cons, Node.visits,
      assembled_container]

theorem chunksOf_eq_assembled : ∀ (ns : List Node) (c : Chain), (Node.idsOf ns).Nodup →
    w.chunksOf c.place ns = w.assembled c.atRules.length (Node.visitsOf c ns)
  | [], c, _ => assembled_nil.symm
  | n :: ns, c, h => by
    rw [Node.idsOf, List.nodup_append'] at h
    rw [chunksOf, Node.visitsOf, chunks_eq_assembled n c h.1, chunksOf_eq_assembled ns c h.2.1,
      assembled_append]
    intro v hv v' hv' a
    exact separate_visits h.2.2 hv hv'

end

end Writer

/-! ## Sheets -/

namespace Document

theorem intercalate_empty (texts : List String) : "".intercalate texts = String.join texts := by
  induction texts with
  | nil => rfl
  | cons s texts ih =>
    cases texts with
    | nil => simp
    | cons s' texts =>
      rw [String.intercalate_cons_cons, ih, String.append_empty]
      exact String.join_cons.symm

/-- **A sheet is a flat sequence of texts.** The walk goes over the containers as they are stored,
with those of a slot by ascending ordinals. It meets each of them once, and around what it meets
are the containers that lead there from the root. What it meets is written one by one: no text
depends on what stands beside it, and an at-rule is written for the texts that stand in it. -/
theorem sheet_eq_flattened (calls : List Call) (vars : Variables) (config indent : String) :
    (empty.run calls).Depicts (.container rootId) (empty.run calls).tree ∧
    ((empty.run calls).visits.filterMap Visit.container?).Perm
      (List.range' 1 (empty.run calls).size) ∧
    (∀ v ∈ (empty.run calls).visits, (empty.run calls).Path v.chain) ∧
    (empty.run calls).sheet vars config ⟨indent, false⟩ =
      (empty.run calls).flattened vars config indent := by
  have h := wellFormed_run calls
  refine ⟨h.depicts_tree, h.container?_visits_perm, fun _ => h.path_of_mem_visits, ?_⟩
  have hids : (empty.run calls).tree.ids.Nodup := by
    rw [h.ids_tree_perm.nodup_iff]
    exact List.nodup_range'
  have hchunks := Writer.chunks_eq_assembled (w := ⟨vars, config, indent⟩) _ [] hids
  have hplace : Place.outermost = Chain.place [] := rfl
  rw [sheet, hplace, hchunks, flattened, visits, Writer.assembled]
  cases Visit.leaves ((empty.run calls).tree.visits []) vars config indent with
  | error cause => rfl
  | ok leaves => exact congrArg Except.ok (intercalate_empty _)

end Document

end AtomicCss
