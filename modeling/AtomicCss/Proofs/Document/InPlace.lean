import AtomicCss.Proofs.Document.Emission
import Mathlib

/-! # Documents in place

A call that is carried out in place has done a part of its work when it fails, and this part stays done.
Here the calls on documents are put together from such steps. A call that checks first that it can do
its work never fails afterwards, so it leads where the call leads that changes the document as a whole,
and one that fails has changed nothing. -/

namespace AtomicCss

/-- How a call ends that changes a state as a whole: one that fails leaves the state. -/
def atOnce {σ α : Type} (s : σ) : Except Error (σ × α) → EStateM.Result Error σ α
  | .ok (s', a) => .ok a s'
  | .error cause => .error cause s

namespace Document.InPlace

/-! ## Calls -/

/-- Goes on if a container exists. -/
def ensure (id : ContainerId) : EStateM Error Document Unit := do
  unless (← get).contains id do
    throw (.unknownContainer id)

def insert (kind : Kind) (block : Block) : EStateM Error Document ContainerId :=
  modifyGet fun d => (d.insert kind block).swap

def adopt (parent : ContainerId) (child : Child) : EStateM Error Document Unit := do
  ensure parent
  modify (·.adopt parent child)

def merge (id : ContainerId) (block : Block) : EStateM Error Document Unit := do
  ensure id
  modify (·.merge id block)

def selector (parent : ContainerId) (text : String) (block : Block) :
    EStateM Error Document ContainerId := do
  ensure parent
  match (← get).findSelector? parent text with
  | some id =>
    merge id block
    return id
  | none =>
    let id ← insert (.selector (Text.trimmed text)) block
    adopt parent (.container id)
    modify (·.enlist parent (Text.trimmed text) id)
    return id

def nested (parent : ContainerId) (kind : Kind) : EStateM Error Document ContainerId := do
  ensure parent
  let id ← insert kind ∅
  adopt parent (.container id)
  return id

def raw (parent : ContainerId) (css : String) : EStateM Error Document Unit :=
  adopt parent (.raw css)

def reserveSlot (parent : ContainerId) : EStateM Error Document SlotId := do
  let slot := (← get).slots.length
  adopt parent (.slot slot)
  modify fun d => { d with slots := d.slots ++ [Slot.vacant parent] }
  return slot

def slotSelector (slot : SlotId) (ordinal : Nat) (text : String) (block : Block) :
    EStateM Error Document ContainerId := do
  let d ← get
  match d.slots[slot]? with
  | none => throw (.unknownSlot slot)
  | some s =>
    match (s.at? ordinal).or (d.findSelector? s.parent text) with
    | some id =>
      merge id block
      return id
    | none =>
      let id ← insert (.selector (Text.trimmed text)) block
      modify (·.fillSlot slot ordinal id)
      modify (·.enlist s.parent (Text.trimmed text) id)
      return id

def emit (slot : SlotId) (ordinal : Nat) (className : String) (block : Block) :
    EStateM Error Document ContainerId :=
  slotSelector slot ordinal (Css.classSelector className) block

def emitAll (slot : SlotId) (ordinal : Nat) :
    List (String × Block) → EStateM Error Document (List ContainerId)
  | [] => return []
  | (className, block) :: rest => do
    let id ← emit slot ordinal className block
    let ids ← emitAll slot (ordinal + 1) rest
    return id :: ids

/-! ## Where they lead -/

variable {d : Document} {parent : ContainerId}

theorem run_ensure (id : ContainerId) (d : Document) : (ensure id).run d =
    if d.contains id then .ok () d else .error (.unknownContainer id) d := by
  cases h : d.contains id <;> simp [ensure, h]

theorem run_adopt (h : d.contains parent = true) (child : Child) :
    (adopt parent child).run d = .ok () (d.adopt parent child) := by
  simp [adopt, run_ensure, h]

theorem run_merge {id : ContainerId} (h : d.contains id = true) (block : Block) :
    (merge id block).run d = .ok () (d.merge id block) := by
  simp [merge, run_ensure, h]

@[simp] theorem run_insert (kind : Kind) (block : Block) (d : Document) :
    (insert kind block).run d = .ok (d.insert kind block).2 (d.insert kind block).1 := by rfl

theorem run_selector (h : d.WellFormed) (parent : ContainerId) (text : String) (block : Block) :
    (selector parent text block).run d = atOnce d (d.selector parent text block) := by
  rw [Document.selector, selector, EStateM.run_bind, run_ensure]
  by_cases hp : d.contains parent = true
  · rw [if_pos hp, if_pos hp]
    cases hfind : d.findSelector? parent text with
    | some id =>
      have hid := h.contains_of_mem_below (h.findSelector?_eq_some_iff.1 hfind).1
      simp [hfind, run_merge hid, atOnce]
    | none =>
      -- a new container does not take the parent away
      have hins := (Keeps.insert d (.selector (Text.trimmed text)) block).contains hp
      simp [hfind, run_adopt hins, atOnce]
  · rw [if_neg hp, if_neg hp]
    rfl

theorem run_nested (d : Document) (parent : ContainerId) (kind : Kind) :
    (nested parent kind).run d = atOnce d (d.nested parent kind) := by
  rw [Document.nested, nested, EStateM.run_bind, run_ensure]
  by_cases hp : d.contains parent = true
  · have hins := (Keeps.insert d kind ∅).contains hp
    simp [hp, run_adopt hins, atOnce]
  · rw [if_neg hp, if_neg hp]
    rfl

theorem run_raw (d : Document) (parent : ContainerId) (css : String) :
    (raw parent css).run d = atOnce d ((d.raw parent css).map (·, ())) := by
  by_cases hp : d.contains parent = true
  · rw [raw, run_adopt hp, Document.raw, if_pos hp]
    rfl
  · simp [raw, adopt, run_ensure, hp, Document.raw, atOnce, Except.map]

theorem run_reserveSlot (d : Document) (parent : ContainerId) :
    (reserveSlot parent).run d = atOnce d (d.reserveSlot parent) := by
  by_cases hp : d.contains parent = true
  · simp [reserveSlot, Document.reserveSlot, run_adopt hp, hp, atOnce]
  · simp [reserveSlot, Document.reserveSlot, adopt, run_ensure, hp, atOnce]

theorem run_slotSelector (h : d.WellFormed) (slot : SlotId) (ordinal : Nat) (text : String)
    (block : Block) : (slotSelector slot ordinal text block).run d =
      atOnce d (d.slotSelector slot ordinal text block) := by
  rw [Document.slotSelector]
  cases hs : d.slots[slot]? with
  | none =>
    simp only [slotSelector, EStateM.run_bind, EStateM.run_get, hs]
    rfl
  | some s =>
    cases hfind : (s.at? ordinal).or (d.findSelector? s.parent text) with
    | none => simp [slotSelector, hs, hfind, atOnce]
    | some id =>
      have hid : d.contains id = true := by
        rcases Option.or_eq_some_iff.1 hfind with hat | ⟨-, hfind⟩
        · apply h.contains_of_mem_below (p := s.parent)
          exact h.mem_below_of_standsAt (standsAt_of_at? hs hat) (by rw [hs]; rfl)
        · exact h.contains_of_mem_below (h.findSelector?_eq_some_iff.1 hfind).1
      simp [slotSelector, hs, hfind, run_merge hid, atOnce]

theorem run_emit (h : d.WellFormed) (slot : SlotId) (ordinal : Nat) (className : String)
    (block : Block) : (emit slot ordinal className block).run d =
      atOnce d (d.emit slot ordinal className block) :=
  run_slotSelector h slot ordinal _ block

/-- Classes that are admitted are emitted, without a failure in between. -/
theorem run_emitAll {slot : SlotId} {ordinal : Nat} {cs : List (String × Block)}
    (h : d.AdmitsAll (Emission.listFrom slot ordinal cs)) :
    (emitAll slot ordinal cs).run d = atOnce d (d.emitAll slot ordinal cs) := by
  rw [emitAll_eq h]
  induction cs generalizing d ordinal with
  | nil => rfl
  | cons c cs ih =>
    obtain ⟨hw, hx, ha⟩ := h
    have hfirst := run_emit hw slot ordinal c.1 c.2
    rw [hw.emit_eq hx] at hfirst
    rw [emitAll, EStateM.run_bind, hfirst]
    simp only [atOnce, EStateM.run_bind]
    rw [ih ha]
    rfl

end Document.InPlace

end AtomicCss
