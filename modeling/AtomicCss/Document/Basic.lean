import AtomicCss.Block
import AtomicCss.Error

/-!
# Documents

A document is a tree of containers: the root, selectors, media queries and keyframes. Next to
containers, a container's children may be raw fragments and slots. A slot keeps a place among the
children for selectors that are generated later; these are ordered by their ordinals and not by
the time at which they arrive.

Containers are stored by number and refer to their children by number. Two selectors under the
same container never have the same text: naming a text again merges into the selector that has it,
which an index of the selectors by container and text finds.
-/

namespace AtomicCss

/-- What a container is. -/
inductive Kind where
  | root
  | selector (text : String)
  | media (query : String)
  | keyframes (name : String)
  deriving DecidableEq, Repr

namespace Kind

/-- How a container is named in messages. -/
def label : Kind → String
  | root => ":root"
  | selector text => text
  | media query => "@media " ++ query
  | keyframes name => "@keyframes " ++ name

def selectorText? : Kind → Option String
  | selector text => some text
  | _ => none

end Kind

/-- One child of a container. -/
inductive Child where
  | container (id : ContainerId)
  | raw (css : String)
  | slot (id : SlotId)
  deriving DecidableEq, Repr

/-- A container with its own declarations and its children in order. -/
structure Container where
  kind : Kind
  block : Block
  children : List Child
  deriving DecidableEq, Repr

namespace Slot

/-- Sets the container at an ordinal in a list of ascending ordinals. -/
def place (ordinal : Nat) (id : ContainerId) :
    List (Nat × ContainerId) → List (Nat × ContainerId)
  | [] => [(ordinal, id)]
  | e :: es =>
    if ordinal < e.1 then (ordinal, id) :: e :: es
    else if ordinal = e.1 then (ordinal, id) :: es
    else e :: place ordinal id es

/-- What stands in a list after a container was set. -/
theorem mem_place {ordinal : Nat} {id : ContainerId} {es : List (Nat × ContainerId)}
    {x : Nat × ContainerId} (h : x ∈ place ordinal id es) : x = (ordinal, id) ∨ x ∈ es := by
  induction es with
  | nil => simpa [place] using h
  | cons e es ih =>
    unfold place at h
    split at h
    · simpa using h
    · split at h
      · rcases List.mem_cons.1 h with h | h
        · exact .inl h
        · exact .inr (List.mem_cons_of_mem _ h)
      · rcases List.mem_cons.1 h with h | h
        · exact .inr (h ▸ List.mem_cons_self)
        · exact (ih h).imp_right (List.mem_cons_of_mem _)

/-- Setting a container keeps the ordinals ascending. -/
theorem ascending_place (ordinal : Nat) (id : ContainerId) {es : List (Nat × ContainerId)}
    (h : es.Pairwise fun a b => a.1 < b.1) :
    (place ordinal id es).Pairwise fun a b => a.1 < b.1 := by
  induction es with
  | nil => simp [place]
  | cons e es ih =>
    obtain ⟨he, hes⟩ := List.pairwise_cons.1 h
    unfold place
    split
    · rename_i hlt
      refine List.pairwise_cons.2 ⟨fun x hx => ?_, h⟩
      rcases List.mem_cons.1 hx with rfl | hx
      · exact hlt
      · exact Nat.lt_trans hlt (he x hx)
    · split
      · rename_i heq
        exact List.pairwise_cons.2 ⟨fun x hx => heq ▸ he x hx, hes⟩
      · rename_i hnot hne
        refine List.pairwise_cons.2 ⟨fun x hx => ?_, ih hes⟩
        rcases mem_place hx with rfl | hx
        · exact Nat.lt_of_le_of_ne (Nat.not_lt.1 hnot) (Ne.symm hne)
        · exact he x hx

end Slot

/-- A place for generated selectors under `parent`, with the selectors by ascending ordinal. -/
structure Slot where
  parent : ContainerId
  entries : List (Nat × ContainerId)
  ascending : entries.Pairwise fun a b => a.1 < b.1
  deriving DecidableEq

namespace Slot

def vacant (parent : ContainerId) : Slot := ⟨parent, [], .nil⟩

def at? (s : Slot) (ordinal : Nat) : Option ContainerId :=
  (s.entries.find? (·.1 = ordinal)).map (·.2)

def insert (s : Slot) (ordinal : Nat) (id : ContainerId) : Slot :=
  { s with entries := place ordinal id s.entries, ascending := ascending_place _ _ s.ascending }

/-- The containers of a slot in order. -/
def ids (s : Slot) : List ContainerId := s.entries.map (·.2)

end Slot

/-- The containers and slots of a config by number, and what was reported on the way. -/
structure Document where
  containers : List Container
  slots : List Slot
  /-- The selectors by the container that they stand under and by their text. -/
  index : List ((ContainerId × String) × ContainerId)
  warnings : List Warning
  deriving DecidableEq

namespace Document

/-- The document that holds the root alone. -/
def empty : Document := ⟨[⟨.root, ∅, []⟩], [], [], []⟩

instance : EmptyCollection Document := ⟨empty⟩

def rootId : ContainerId := 1

def size (d : Document) : Nat := d.containers.length

/-- Whether there is nothing but the root. -/
def isEmpty (d : Document) : Bool := d.size == 1

def get? (d : Document) : ContainerId → Option Container
  | 0 => none
  | n + 1 => d.containers[n]?

def contains (d : Document) (id : ContainerId) : Bool := (d.get? id).isSome

def update (d : Document) (id : ContainerId) (f : Container → Container) : Document :=
  match id with
  | 0 => d
  | n + 1 => { d with containers := d.containers.modify n f }

/-- Adds a container that has no place in the tree yet. -/
def insert (d : Document) (kind : Kind) (block : Block) : Document × ContainerId :=
  ({ d with containers := d.containers ++ [⟨kind, block, []⟩] }, d.size + 1)

/-- Adds a child behind the other children of a container. -/
def adopt (d : Document) (parent : ContainerId) (child : Child) : Document :=
  d.update parent fun c => { c with children := c.children ++ [child] }

/-- The containers directly under a container, those in its slots included, in order. -/
def below (d : Document) (parent : ContainerId) : List ContainerId :=
  match d.get? parent with
  | none => []
  | some c => c.children.flatMap fun
    | .container id => [id]
    | .raw _ => []
    | .slot s => (d.slots[s]?).elim [] Slot.ids

/-- The text of a container that is a selector. -/
def selectorText? (d : Document) (id : ContainerId) : Option String :=
  (d.get? id).bind (·.kind.selectorText?)

/-- The selector with the given text directly under a container. -/
def findSelector? (d : Document) (parent : ContainerId) (text : String) : Option ContainerId :=
  (d.index.find? (·.1 = (parent, Text.trimmed text))).map (·.2)

/-- Lets a selector be found by its container and its text. -/
def enlist (d : Document) (parent : ContainerId) (text : String) (id : ContainerId) : Document :=
  { d with index := ((parent, text), id) :: d.index }

/-- Merges declarations into a container and reports the values that are replaced. -/
def merge (d : Document) (id : ContainerId) (block : Block) : Document :=
  match d.get? id with
  | none => d
  | some c =>
    let (merged, overridden) := c.block.merge block
    { d.update id fun c => { c with block := merged } with
      warnings := d.warnings ++ overridden.map (.redeclared c.kind.label) }

/-- `merge` on a container that has to exist. -/
def mergeInto (d : Document) (id : ContainerId) (block : Block) : Except Error Document :=
  if d.contains id then .ok (d.merge id block) else .error (.unknownContainer id)

/-- The selector with the given text under a container, with these declarations: merged into it
if it exists, created otherwise. -/
def selector (d : Document) (parent : ContainerId) (text : String) (block : Block) :
    Except Error (Document × ContainerId) :=
  if d.contains parent then
    match d.findSelector? parent text with
    | some id => .ok (d.merge id block, id)
    | none =>
      let (d, id) := d.insert (.selector (Text.trimmed text)) block
      .ok ((d.adopt parent (.container id)).enlist parent (Text.trimmed text) id, id)
  else .error (.unknownContainer parent)

def nested (d : Document) (parent : ContainerId) (kind : Kind) :
    Except Error (Document × ContainerId) :=
  if d.contains parent then
    let (d, id) := d.insert kind ∅
    .ok (d.adopt parent (.container id), id)
  else .error (.unknownContainer parent)

def media (d : Document) (parent : ContainerId) (query : String) :
    Except Error (Document × ContainerId) :=
  d.nested parent (.media (Text.trimmed query))

def keyframes (d : Document) (parent : ContainerId) (name : String) :
    Except Error (Document × ContainerId) :=
  d.nested parent (.keyframes (Text.trimmed name))

def raw (d : Document) (parent : ContainerId) (css : String) : Except Error Document :=
  if d.contains parent then .ok (d.adopt parent (.raw css)) else .error (.unknownContainer parent)

/-- Keeps a place for generated selectors behind the present children of a container. -/
def reserveSlot (d : Document) (parent : ContainerId) : Except Error (Document × SlotId) :=
  if d.contains parent then
    -- slots are numbered from zero, so the next number is how many there are
    let d' := d.adopt parent (.slot d.slots.length)
    .ok ({ d' with slots := d'.slots ++ [Slot.vacant parent] }, d.slots.length)
  else .error (.unknownContainer parent)

/-- Puts a new container into a slot. -/
def fillSlot (d : Document) (slot : SlotId) (ordinal : Nat) (id : ContainerId) : Document :=
  { d with slots := d.slots.modify slot fun s => s.insert ordinal id }

/-- The generated selector at an ordinal of a slot. It is merged into the selector that already
stands there, else into one with its text under the slot's parent, and is created otherwise. -/
def slotSelector (d : Document) (slot : SlotId) (ordinal : Nat) (text : String) (block : Block) :
    Except Error (Document × ContainerId) :=
  match d.slots[slot]? with
  | none => .error (.unknownSlot slot)
  | some s =>
    match (s.at? ordinal).or (d.findSelector? s.parent text) with
    | some id => .ok (d.merge id block, id)
    | none =>
      -- a selector in a slot hangs there alone, not among the children of the parent
      let (d, id) := d.insert (.selector (Text.trimmed text)) block
      .ok ((d.fillSlot slot ordinal id).enlist s.parent (Text.trimmed text) id, id)

/-- The containers of a slot in order. -/
def slotEntries (d : Document) (slot : SlotId) : List ContainerId :=
  (d.slots[slot]?).elim [] Slot.ids

/-- The container that a slot belongs to. -/
def slotParent? (d : Document) (slot : SlotId) : Option ContainerId :=
  (d.slots[slot]?).map (·.parent)

def clearWarnings (d : Document) : Document := { d with warnings := [] }

end Document

end AtomicCss
