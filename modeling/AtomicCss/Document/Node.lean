import AtomicCss.Document.Basic

/-!
# A document as a tree

The stored containers refer to each other by number. `Document.tree` is the same document as a
tree that can be walked by recursion. A container only refers to younger ones, so the nodes are
built from the youngest container to the root.
-/

namespace AtomicCss

/-- A container, raw fragment or slot with everything below it. -/
inductive Node where
  | container (id : ContainerId) (kind : Kind) (block : Block) (children : List Node)
  | raw (css : String)
  | slot (id : SlotId) (entries : List Node)

namespace Node

/-- The node of a container, among the nodes of the containers from number `start` on. -/
def pick (start : ContainerId) (younger : List Node) (id : ContainerId) : Option Node :=
  if start ≤ id then younger[id - start]? else none

def ofChild (slots : List Slot) (start : ContainerId) (younger : List Node) : Child → Option Node
  | .container id => pick start younger id
  | .raw css => some (.raw css)
  | .slot s => (slots[s]?).map fun slot => .slot s (slot.ids.filterMap (pick start younger))

/-- The nodes of the given containers, which are numbered from `start` on. -/
def ofContainers (slots : List Slot) (start : ContainerId) : List Container → List Node
  | [] => []
  | c :: cs =>
    let younger := ofContainers slots (start + 1) cs
    .container start c.kind c.block (c.children.filterMap (ofChild slots (start + 1) younger)) ::
      younger

end Node

def Document.tree (d : Document) : Node :=
  (Node.ofContainers d.slots Document.rootId d.containers).headD (.slot 0 [])

end AtomicCss
