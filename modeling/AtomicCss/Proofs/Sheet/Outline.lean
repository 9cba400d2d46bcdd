import AtomicCss.Proofs.Document.Outline
import AtomicCss.Proofs.Sheet
import AtomicCss.Proofs.Sheet.Pieces

/-! # The sheet of an outline

The pieces of a flat document are those of the root's children in turn (`Realizes.pieces_eq`), and a
selector brings one rule. What the text of that rule depends on is the selector and its declarations,
and not the number of its container (`texts_ofSelector`). -/

namespace AtomicCss

/-- The place of the root's children. -/
def Place.inRoot : Place :=
  { Place.outermost.enter Document.rootId .root with selectors := none }

/-- The container whose rule a piece is. At-rules and raw fragments are no rules. -/
def Piece.container? : Piece → Option ContainerId
  | .rule place .. => place.scopes.getLast?
  | _ => none

/-- The rule of a selector directly under the root. -/
def Piece.ofSelector (id : ContainerId) (text : String) (block : Block) : List Piece :=
  Piece.ofBlock (Place.inRoot.enter id (.selector text)) (Selector.nest none text) block []

namespace Piece

variable {id : Nat} {text : String} {block : Block} {q : Piece}

theorem container?_of_mem_ofSelector (h : q ∈ ofSelector id text block) : q.container? = some id := by
  unfold ofSelector ofBlock at h
  simp only [] at h
  split at h
  · cases h
  · rw [List.mem_singleton.1 h]
    rfl

theorem container?_of_mem_ofRaw {depth : Nat} {css : String} (h : q ∈ ofRaw depth css) :
    q.container? = none := by
  unfold ofRaw at h
  simp only [] at h
  split at h
  · cases h
  · rw [List.mem_singleton.1 h]
    rfl

end Piece

namespace Writer

variable {w : Writer} {ps : List Piece}

/-- The number of a selector's container leaves no trace if only the root declares variables. -/
theorem texts_ofSelector (hw : ∀ v ∈ w.vars.entries, v.scope = Document.rootId) {i j : Nat}
    (hi : i ≠ Document.rootId) (hj : j ≠ Document.rootId) (text : String) (block : Block) :
    w.texts (Piece.ofSelector i text block) = w.texts (Piece.ofSelector j text block) := by
  let f (id : ContainerId) : ContainerId := if id = Document.rootId then Document.rootId else 0
  have hnone {id : Nat} (hid : id ≠ Document.rootId) : w.vars.inScope id = [] := by
    apply List.filter_eq_nil_iff.2
    intro v hv hscope
    rw [decide_eq_true_eq, hw v hv] at hscope
    exact hid hscope.symm
  have hf (id : ContainerId) : w.vars.inScope (f id) = w.vars.inScope id := by
    by_cases hid : id = Document.rootId
    · rw [show f id = id by simp [f, hid]]
    · rw [show f id = 0 from if_neg hid, hnone hid, hnone (by decide)]
  have hplace {id : Nat} (hid : id ≠ Document.rootId) :
      (Place.inRoot.enter id (.selector text)).relabel f =
        Place.inRoot.enter 0 (.selector text) := by
    rw [← enter_relabel, show f id = 0 from if_neg hid]
    rfl
  have htext {id : Nat} (hid : id ≠ Document.rootId) : w.texts (Piece.ofSelector id text block) =
      w.rule (Place.inRoot.enter 0 (.selector text)) (Selector.nest none text) block [] := by
    rw [Piece.ofSelector, texts_ofBlock, ← rule_relabel hf, hplace hid]
  rw [htext hi, htext hj]

theorem texts_flatMap_congr {α β : Type} {f : α → List Piece} {g : β → List Piece} {l : List α}
    {m : List β} (h : List.Forall₂ (fun a b => w.texts (f a) = w.texts (g b)) l m) :
    w.texts (l.flatMap f) = w.texts (m.flatMap g) := by
  induction h with
  | nil => rfl
  | cons hhead _ ih => rw [List.flatMap_cons, List.flatMap_cons, texts_append, texts_append, hhead, ih]

/-- Where all pieces have texts, some of the pieces have the texts that belong to them. -/
theorem texts_filter {texts : List String} (h : w.texts ps = .ok texts) :
    ∃ chunks : List (Piece × String), chunks.map (·.1) = ps ∧ chunks.map (·.2) = texts ∧
      (∀ c ∈ chunks, w.text c.1 = .ok c.2) ∧
      ∀ p : Piece → Bool, w.texts (ps.filter p) = .ok ((chunks.filter (p ·.1)).map (·.2)) := by
  induction ps generalizing texts with
  | nil =>
    obtain rfl := Except.ok.inj h
    exact ⟨[], rfl, rfl, by simp, fun _ => rfl⟩
  | cons q ps ih =>
    rw [Writer.texts] at h
    obtain ⟨first, hfirst, h⟩ := bind_eq_ok.1 h
    obtain ⟨rest, hrest, h⟩ := bind_eq_ok.1 h
    obtain rfl := Except.ok.inj h
    obtain ⟨chunks, hps, htexts, htext, hfilter⟩ := ih hrest
    refine ⟨(q, first) :: chunks, by rw [List.map_cons, hps], by rw [List.map_cons, htexts], ?_, ?_⟩
    · intro c hc
      rcases List.mem_cons.1 hc with rfl | hc
      · exact hfirst
      · exact htext c hc
    · intro p
      rw [List.filter_cons, List.filter_cons]
      split
      · rw [Writer.texts, hfirst, hfilter]
        rfl
      · exact hfilter p

end Writer

namespace Document

variable {d : Document} {items : List Item} {S : Set Emission} {x : Emission} {id s : Nat}

/-- The pieces that a child of the root brings. -/
def piecesAt (d : Document) (child : Child) : List Piece :=
  (d.childNode? child).elim [] (Node.pieces .inRoot)

theorem WellFormed.piecesAt_selector (h : d.WellFormed) {text : String} {block : Block}
    (hc : d.get? id = some ⟨.selector text, block, []⟩) :
    d.piecesAt (.container id) = Piece.ofSelector id text block := by
  rw [piecesAt, childNode?, h.node?_eq hc, Option.elim_some, Node.pieces]
  exact List.append_nil _

theorem WellFormed.piecesAt_keyframes (h : d.WellFormed) {name : String}
    (hc : d.get? id = some ⟨.keyframes name, ∅, []⟩) : d.piecesAt (.container id) = [] := by
  rw [piecesAt, childNode?, h.node?_eq hc, Option.elim_some, Node.pieces]
  rfl

theorem piecesAt_raw (css : String) : d.piecesAt (.raw css) = Piece.ofRaw 0 css := rfl

theorem flatMap_filterMap {α β γ : Type} (f : α → Option β) (g : β → List γ) (l : List α) :
    (l.filterMap f).flatMap g = l.flatMap fun a => (f a).elim [] g := by
  induction l with
  | nil => rfl
  | cons a l ih =>
    rw [List.filterMap_cons, List.flatMap_cons, ← ih]
    cases f a <;> rfl

theorem piecesAt_slot {sl : Slot} (hs : d.slots[s]? = some sl) :
    d.piecesAt (.slot s) = sl.entries.flatMap fun e => d.piecesAt (.container e.2) := by
  rw [piecesAt, childNode?, hs, Option.map_some, Option.elim_some, Node.pieces,
    Node.piecesOf_eq_flatMap, flatMap_filterMap, Slot.ids, List.flatMap_map]
  rfl

/-- The pieces of a flat document are those of the root's children in turn. -/
theorem Realizes.pieces_eq (h : d.Realizes items S) {c : Container} (hc : d.get? rootId = some c) :
    d.pieces = c.children.flatMap d.piecesAt := by
  obtain ⟨c', hc', hb, -⟩ := h.root
  obtain rfl := Option.some.inj (hc'.symm.trans hc)
  have hkind : c'.kind = .root := by
    have hroot := h.wellFormed.root
    rwa [hc, Option.map_some, Option.some.injEq] at hroot
  have htree := h.wellFormed.node?_root
  rw [h.wellFormed.node?_eq hc, Option.some.injEq] at htree
  rw [pieces, ← htree, hkind, hb, Node.pieces, Node.piecesOf_eq_flatMap, flatMap_filterMap]
  exact List.nil_append _

end Document

end AtomicCss
