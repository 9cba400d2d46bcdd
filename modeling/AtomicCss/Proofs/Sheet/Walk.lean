import AtomicCss.Proofs.Document.Tree
import AtomicCss.Proofs.Selector
import Mathlib.Data.List.DropRight

/-! # A walk over a document

A document is read from the front to the back: a container before what it holds, children in order,
and the containers of a slot by their ordinals. `Document.visits` lists what is met on the way,
each container and each raw fragment together with the containers around it, which are those on the
path from the root (`Document.WellFormed.path_of_mem_visits`).

The containers around a place determine the selectors that apply there (`Chain.selectors?`) and the
at-rules it stands in (`Chain.atRules`). -/

namespace AtomicCss

namespace Kind

/-- The at-rule that a container writes around what it holds. -/
def header? : Kind → Option String
  | media query => some ("@media " ++ query)
  | keyframes name => some ("@keyframes " ++ name)
  | _ => none

/-- Whether selectors inside of a container start anew. -/
def resets : Kind → Bool
  | root | keyframes _ => true
  | _ => false

end Kind

/-- A container around a place. -/
structure Ancestor where
  id : ContainerId
  kind : Kind
  deriving DecidableEq, Repr

/-- The containers around a place, outermost first. -/
abbrev Chain := List Ancestor

/-- An at-rule, which is the one of a certain container. -/
abbrev AtRule := ContainerId × String

namespace Chain

variable {c : Chain}

def scopes (c : Chain) : List ContainerId := c.map Ancestor.id

def labels (c : Chain) : List String := c.map (·.kind.label)

/-- The at-rules of the containers that write one. -/
def atRules (c : Chain) : List AtRule := c.filterMap fun a => a.kind.header?.map (a.id, ·)

/-- The texts of the selectors since the innermost container that starts anew. -/
def texts (c : Chain) : List String :=
  (c.rtakeWhile (!·.kind.resets)).filterMap (·.kind.selectorText?)

/-- The selectors that apply: those of the texts, combined. -/
def selectors? (c : Chain) : Option (List String) :=
  if c.texts = [] then none else some (Selector.product c.texts)

/-- The selectors that a rule at a place is written for: those that apply, or else the root. -/
def selectors (c : Chain) : List String := c.selectors?.getD [":root"]

/-- Whether the innermost container is a selector. -/
def inRule (c : Chain) : Bool := c.getLast?.any (·.kind.selectorText?.isSome)

theorem atRules_append (c rest : Chain) : atRules (c ++ rest) = c.atRules ++ rest.atRules :=
  List.filterMap_append

theorem atRules_concat (id : ContainerId) (kind : Kind) :
    atRules (c ++ [⟨id, kind⟩]) = c.atRules ++ (kind.header?.map (id, ·)).toList := by
  rw [atRules_append]
  cases h : kind.header? <;> simp [atRules, h]

theorem exists_mem_of_mem_atRules {a : AtRule} (h : a ∈ c.atRules) : ∃ x ∈ c, x.id = a.1 := by
  obtain ⟨x, hx, hmap⟩ := List.mem_filterMap.1 h
  obtain ⟨header, -, rfl⟩ := Option.map_eq_some_iff.1 hmap
  exact ⟨x, hx, rfl⟩

theorem texts_concat (id : ContainerId) (kind : Kind) : texts (c ++ [⟨id, kind⟩]) =
    if kind.resets then [] else c.texts ++ kind.selectorText?.toList := by
  split
  · rename_i h
    rw [texts, List.rtakeWhile_concat_neg _ _ _ (by simp [h])]
    rfl
  · rename_i h
    rw [texts, List.rtakeWhile_concat_pos _ _ _ (by simp [h]), List.filterMap_append]
    cases hkind : kind.selectorText? <;> simp [texts, hkind]

/-- Going into one container more, a selector is nested in those that apply around it, a media query
leaves them as they are, and the others drop them. -/
theorem selectors?_concat (id : ContainerId) (kind : Kind) : selectors? (c ++ [⟨id, kind⟩]) =
    match kind with
    | .root | .keyframes _ => none
    | .media _ => c.selectors?
    | .selector text => some (Selector.nest c.selectors? text) := by
  rw [selectors?, texts_concat]
  cases kind with
  | root => rfl
  | keyframes name => rfl
  | media query => simp [Kind.resets, Kind.selectorText?, selectors?]
  | selector text =>
    simp only [Kind.resets, Kind.selectorText?, Option.toList_some, selectors?]
    by_cases h : c.texts = []
    · simp [h, Selector.product_singleton]
    · simp [h, Selector.product_concat]

end Chain

/-! ## Visits -/

/-- What is met on a walk: a container with its own declarations and the raw fragments among its
children, or a raw fragment. -/
inductive Content where
  | container (id : ContainerId) (kind : Kind) (block : Block) (raws : List String)
  | raw (css : String)

/-- What is met on a walk, and the containers around it. -/
structure Visit where
  above : Chain
  content : Content

namespace Visit

def container? (v : Visit) : Option ContainerId :=
  match v.content with
  | .container id .. => some id
  | .raw _ => none

/-- The containers around the visited content; a container itself is the innermost one. -/
def chain (v : Visit) : Chain :=
  match v.content with
  | .container id kind .. => v.above ++ [⟨id, kind⟩]
  | .raw _ => v.above

end Visit

namespace Node

/-- The raw fragments among some nodes. -/
def rawsOf : List Node → List String
  | [] => []
  | .raw css :: ns => css :: rawsOf ns
  | .container .. :: ns => rawsOf ns
  | .slot .. :: ns => rawsOf ns

mutual

/-- What is met in a node that stands inside of some containers. -/
def visits (above : Chain) : Node → List Visit
  | .container id kind block children =>
    ⟨above, .container id kind block (rawsOf children)⟩ ::
      visitsOf (above ++ [⟨id, kind⟩]) children
  | .raw css => [⟨above, .raw css⟩]
  | .slot _ entries => visitsOf above entries

/-- What is met in some nodes, one after the other. -/
def visitsOf (above : Chain) : List Node → List Visit
  | [] => []
  | n :: ns => n.visits above ++ visitsOf above ns

end

mutual

/-- A walk meets the containers of a node in order. -/
theorem container?_visits :
    ∀ (n : Node) (above : Chain), (n.visits above).filterMap Visit.container? = n.ids
  | .container id kind block children, above => by
    rw [visits, ids, ← container?_visitsOf children (above ++ [⟨id, kind⟩])]
    rfl
  | .raw css, above => rfl
  | .slot s entries, above => by rw [visits, ids, container?_visitsOf entries above]

theorem container?_visitsOf :
    ∀ (ns : List Node) (above : Chain), (visitsOf above ns).filterMap Visit.container? = idsOf ns
  | [], above => rfl
  | n :: ns, above => by
    rw [visitsOf, idsOf, List.filterMap_append, container?_visits n above,
      container?_visitsOf ns above]

end

mutual

/-- Inside of a node, only containers of the node come around a place. -/
theorem chain_of_mem_visits : ∀ (n : Node) {above : Chain} {v : Visit}, v ∈ n.visits above →
    ∃ rest : Chain, v.chain = above ++ rest ∧ ∀ a ∈ rest, a.id ∈ n.ids
  | .container id kind block children, above, v, hv => by
    rw [visits] at hv
    rcases List.mem_cons.1 hv with rfl | hv
    · refine ⟨[⟨id, kind⟩], rfl, ?_⟩
      intro a ha
      rw [List.mem_singleton.1 ha, ids]
      exact List.mem_cons_self
    · obtain ⟨rest, hrest, hids⟩ := chain_of_mem_visitsOf children hv
      refine ⟨⟨id, kind⟩ :: rest, by rw [hrest, List.append_assoc, List.singleton_append], ?_⟩
      intro a ha
      rw [ids]
      rcases List.mem_cons.1 ha with rfl | ha
      · exact List.mem_cons_self
      · exact List.mem_cons_of_mem _ (hids a ha)
  | .raw css, above, v, hv => by
    rw [visits, List.mem_singleton] at hv
    exact ⟨[], by rw [hv, List.append_nil]; rfl, by simp⟩
  | .slot s entries, above, v, hv => by
    rw [visits] at hv
    rw [ids]
    exact chain_of_mem_visitsOf entries hv

theorem chain_of_mem_visitsOf : ∀ (ns : List Node) {above : Chain} {v : Visit},
    v ∈ visitsOf above ns → ∃ rest : Chain, v.chain = above ++ rest ∧ ∀ a ∈ rest, a.id ∈ idsOf ns
  | [], above, v, hv => by cases hv
  | n :: ns, above, v, hv => by
    rw [visitsOf] at hv
    rw [idsOf]
    rcases List.mem_append.1 hv with hv | hv
    · obtain ⟨rest, hrest, hids⟩ := chain_of_mem_visits n hv
      exact ⟨rest, hrest, fun a ha => List.mem_append_left _ (hids a ha)⟩
    · obtain ⟨rest, hrest, hids⟩ := chain_of_mem_visitsOf ns hv
      exact ⟨rest, hrest, fun a ha => List.mem_append_right _ (hids a ha)⟩

end

end Node

namespace Document

variable {d : Document}

/-- What is met on the walk over a document. -/
def visits (d : Document) : List Visit := d.tree.visits []

/-- The walk meets every container once. -/
theorem WellFormed.container?_visits_perm (h : d.WellFormed) :
    (d.visits.filterMap Visit.container?).Perm (List.range' 1 d.size) := by
  rw [visits, Node.container?_visits]
  exact h.ids_tree_perm

/-! ## Paths -/

/-- The containers from the root to some container, each one directly below the one before. -/
inductive Path (d : Document) : Chain → Prop
  | root {c : Container} (get : d.get? rootId = some c) : Path d [⟨rootId, c.kind⟩]
  | step {above : Chain} {p : Ancestor} {id : ContainerId} {c : Container}
      (path : Path d (above ++ [p])) (mem : id ∈ d.below p.id) (get : d.get? id = some c) :
      Path d (above ++ [p] ++ [⟨id, c.kind⟩])

/-- The child has its place inside of some containers: what hangs there continues their path. -/
def Fits (d : Document) (above : Chain) (child : Child) : Prop :=
  (∀ css, child = .raw css → d.Path above) ∧
    ∀ id ∈ d.hanging child, ∀ c, d.get? id = some c → d.Path (above ++ [⟨id, c.kind⟩])

theorem Path.fits {above : Chain} {id : ContainerId} {c : Container}
    (h : d.Path (above ++ [⟨id, c.kind⟩])) (hc : d.get? id = some c) {child : Child}
    (hchild : child ∈ c.children) : d.Fits (above ++ [⟨id, c.kind⟩]) child := by
  refine ⟨fun _ _ => h, ?_⟩
  intro j hj c' hc'
  apply Path.step h _ hc'
  rw [below_eq_flatMap hc]
  exact List.mem_flatMap.2 ⟨child, hchild, hj⟩

mutual

/-- Where a node shows a child in its place, the containers around every visit are a path. -/
theorem path_of_mem_visits : ∀ (n : Node) {child : Child} {above : Chain}, d.Depicts child n →
    d.Fits above child → ∀ v ∈ n.visits above, d.Path v.chain
  | .container id _ _ children, _, above, hd, hfits, v, hv => by
    cases hd with
    | container get hchildren =>
      have hpath := hfits.2 id List.mem_cons_self _ get
      rw [Node.visits] at hv
      rcases List.mem_cons.1 hv with rfl | hv
      · exact hpath
      · exact path_of_mem_visitsOf children hchildren (fun _ => hpath.fits get) v hv
  | .raw css, _, above, hd, hfits, v, hv => by
    cases hd with
    | raw =>
      rw [Node.visits, List.mem_singleton] at hv
      rw [hv]
      exact hfits.1 css rfl
  | .slot s entries, _, above, hd, hfits, v, hv => by
    cases hd with
    | slot get hentries =>
      rw [Node.visits] at hv
      refine path_of_mem_visitsOf entries hentries ?_ v hv
      intro child hchild
      obtain ⟨id, hid, rfl⟩ := List.mem_map.1 hchild
      refine ⟨nofun, ?_⟩
      intro j hj
      obtain rfl := List.mem_singleton.1 hj
      apply hfits.2
      rw [hanging, get]
      exact hid

theorem path_of_mem_visitsOf : ∀ (ns : List Node) {children : List Child} {above : Chain},
    List.Forall₂ d.Depicts children ns → (∀ child ∈ children, d.Fits above child) →
    ∀ v ∈ Node.visitsOf above ns, d.Path v.chain
  | [], _, _, _, _, v, hv => by cases hv
  | n :: ns, _, _, .cons hn hns, hfits, v, hv => by
    rw [Node.visitsOf] at hv
    rcases List.mem_append.1 hv with hv | hv
    · exact path_of_mem_visits n hn (hfits _ List.mem_cons_self) v hv
    · refine path_of_mem_visitsOf ns hns ?_ v hv
      intro child hchild
      exact hfits child (List.mem_cons_of_mem _ hchild)

end

/-- On the walk, the containers around what is met are those between it and the root. -/
theorem WellFormed.path_of_mem_visits (h : d.WellFormed) {v : Visit} (hv : v ∈ d.visits) :
    d.Path v.chain := by
  refine Document.path_of_mem_visits d.tree h.depicts_tree ⟨nofun, ?_⟩ v hv
  intro id hid c hc
  obtain rfl := List.mem_singleton.1 hid
  exact .root hc

end Document

end AtomicCss
