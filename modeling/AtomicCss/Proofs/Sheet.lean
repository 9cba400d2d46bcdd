import AtomicCss.Sheet

/-! # What a sheet depends on

The writer asks for containers only to learn which variables they declare. So the numbers of the
containers can be exchanged against others with the same variables (`chunks_relabel`). -/

namespace AtomicCss

variable {f : ContainerId → ContainerId}

namespace Node

mutual

/-- The node with other numbers for its containers. -/
def relabel (f : ContainerId → ContainerId) : Node → Node
  | .container id kind block children => .container (f id) kind block (relabelAll f children)
  | .raw css => .raw css
  | .slot s entries => .slot s (relabelAll f entries)

def relabelAll (f : ContainerId → ContainerId) : List Node → List Node
  | [] => []
  | n :: ns => n.relabel f :: relabelAll f ns

end

theorem relabelAll_eq_map (ns : List Node) : relabelAll f ns = ns.map (relabel f) := by
  induction ns with
  | nil => rfl
  | cons n ns ih => rw [relabelAll, ih, List.map_cons]

end Node

/-- The place with other numbers for the containers around it. -/
def Place.relabel (f : ContainerId → ContainerId) (p : Place) : Place :=
  { p with scopes := p.scopes.map f }

namespace Variables

variable {vs : Variables}

theorem visible_map (h : ∀ id, vs.inScope (f id) = vs.inScope id) (chain : List ContainerId) :
    vs.visible (chain.map f) = vs.visible chain := by
  rw [visible, visible, List.zipIdx_map, ← List.map_reverse, List.flatMap_map]
  congr 1
  funext x
  show (vs.inScope (f x.1)).map _ = (vs.inScope x.1).map _
  rw [h]
  rfl

end Variables

namespace Writer

variable {w : Writer}

theorem declaration_relabel (h : ∀ id, w.vars.inScope (f id) = w.vars.inScope id) (p : Place)
    (d : Declaration) : w.declaration (p.relabel f) d = w.declaration p d := by
  simp only [declaration, Variables.resolveValue, Place.relabel, Variables.visible_map h]

theorem rule_relabel (h : ∀ id, w.vars.inScope (f id) = w.vars.inScope id) (p : Place)
    (selectors : List String) (block : Block) (raws : List String) :
    w.rule (p.relabel f) selectors block raws = w.rule p selectors block raws := by
  have hd : w.declaration (p.relabel f) = w.declaration p := funext (declaration_relabel h p)
  simp only [rule, hd]
  rfl

theorem rawTexts_relabelAll (ns : List Node) : rawTexts (Node.relabelAll f ns) = rawTexts ns := by
  induction ns with
  | nil => rfl
  | cons n ns ih =>
    rw [rawTexts] at ih ⊢
    cases n <;> simp only [Node.relabelAll, Node.relabel, List.filterMap_cons, ih] <;> rfl

theorem enter_relabel (p : Place) (id : ContainerId) (kind : Kind) :
    (p.relabel f).enter (f id) kind = (p.enter id kind).relabel f := by
  simp [Place.enter, Place.relabel]

mutual

/-- Numbers of containers leave no trace in the text. -/
theorem chunks_relabel (h : ∀ id, w.vars.inScope (f id) = w.vars.inScope id) :
    ∀ (n : Node) (p : Place), w.chunks (p.relabel f) (n.relabel f) = w.chunks p n
  | .raw css, p => rfl
  | .slot s entries, p => by
    rw [Node.relabel, chunks, chunks, chunksOf_relabel h entries p]
  | .container id .root block children, p => by
    have hin := chunksOf_relabel h children { p.enter id .root with selectors := none }
    rw [Node.relabel, chunks, chunks, enter_relabel, rule_relabel h, ← hin]
    rfl
  | .container id (.selector text) block children, p => by
    have hin := chunksOf_relabel h children { p.enter id (.selector text) with
      selectors := some (Selector.nest p.selectors text), inRule := true }
    rw [Node.relabel, chunks, chunks, enter_relabel, rule_relabel h, rawTexts_relabelAll, ← hin]
    rfl
  | .container id (.media query) block children, p => by
    have hown := rule_relabel h { p.enter id (.media query) with depth := p.depth + 1 }
      (p.selectors.getD [":root"]) block []
    have hin := chunksOf_relabel h children { p.enter id (.media query) with depth := p.depth + 1 }
    rw [Node.relabel, chunks, chunks, enter_relabel, ← hin, ← hown]
    rfl
  | .container id (.keyframes name) block children, p => by
    have hin := chunksOf_relabel h children
      { p.enter id (.keyframes name) with selectors := none, depth := p.depth + 1 }
    rw [Node.relabel, chunks, chunks, enter_relabel, ← hin]
    rfl

theorem chunksOf_relabel (h : ∀ id, w.vars.inScope (f id) = w.vars.inScope id) :
    ∀ (ns : List Node) (p : Place),
      w.chunksOf (p.relabel f) (Node.relabelAll f ns) = w.chunksOf p ns
  | [], p => rfl
  | n :: ns, p => by
    rw [Node.relabelAll, chunksOf, chunksOf, chunks_relabel h n p, chunksOf_relabel h ns p]

end

end Writer

/-- Documents whose trees differ in numbers only have the same sheet, or fail alike. -/
theorem Document.sheet_eq_of_relabel_tree_eq {d d' : Document} {vars : Variables}
    (h : ∀ id, vars.inScope (f id) = vars.inScope id) (ht : d.tree.relabel f = d'.tree.relabel f)
    (config : String) (layout : Layout) :
    d.sheet vars config layout = d'.sheet vars config layout := by
  let w : Writer := ⟨vars, config, layout.indent⟩
  have hd := Writer.chunks_relabel (w := w) h d.tree .outermost
  have hd' := Writer.chunks_relabel (w := w) h d'.tree .outermost
  rw [sheet, sheet, ← hd, ← hd', ht]

end AtomicCss
