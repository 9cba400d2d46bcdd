import AtomicCss.Proofs.Selector.Unambiguous
import AtomicCss.Proofs.Sheet.Pieces
import AtomicCss.Proofs.Sheet.Walk

/-! # The headers of a sheet

A rule is written below the list of its selectors, which are those of its container nested in the
ones around it. If the selector texts of a document are plain, then the selectors of a rule can be
read back from that list, however deep the rule is nested (`Document.unambiguous_run`). -/

namespace AtomicCss

open Selector (Single)

/-- The selectors that apply at a place, if there are any, are single ones. -/
def AllSingle (selectors : Option (List String)) : Prop :=
  ∀ ss, selectors = some ss → ∀ s ∈ ss, Single s.toList

theorem AllSingle.none : AllSingle none := fun _ h => nomatch h

/-- Going into a container, the selectors that apply stay single. -/
theorem Chain.allSingle_concat {c : Chain} {kind : Kind} (hc : AllSingle c.selectors?)
    (hkind : ∀ text, kind.selectorText? = some text → Selector.Plain text) (id : ContainerId) :
    AllSingle (selectors? (c ++ [⟨id, kind⟩])) := by
  rw [selectors?_concat]
  cases kind with
  | root => exact .none
  | selector text =>
    rintro _ ⟨rfl⟩ s hs
    exact (hkind text rfl).single_of_mem_nest hc hs
  | media query => exact hc
  | keyframes name => exact .none

theorem single_root : Single ":root".toList :=
  have hplain : Selector.Plain ":root" := by decide
  hplain.single_of_mem (by decide)

theorem AllSingle.getD {selectors : Option (List String)} (h : AllSingle selectors) :
    ∀ s ∈ selectors.getD [":root"], Single s.toList := by
  cases selectors with
  | none =>
    intro s hs
    rw [List.mem_singleton.1 hs]
    exact single_root
  | some ss => exact h ss rfl

namespace Piece

/-- The rules of some pieces have single selectors. -/
def SingleRules (ps : List Piece) : Prop :=
  ∀ atRules, ∀ r ∈ rulesOf atRules ps, ∀ s ∈ r.selectors, Single s.toList

namespace SingleRules

variable {ps qs : List Piece}

theorem nil : SingleRules [] := fun _ _ h => nomatch h

theorem append (hps : SingleRules ps) (hqs : SingleRules qs) : SingleRules (ps ++ qs) := by
  intro atRules r hr
  rw [rulesOf_append] at hr
  rcases List.mem_append.1 hr with hr | hr
  · exact hps atRules r hr
  · exact hqs atRules r hr

theorem around (h : SingleRules ps) (depth : Nat) (header : String) :
    SingleRules (around depth header ps) := by
  intro atRules r hr
  rw [rulesOf_around] at hr
  exact h _ r hr

theorem ofBlock {p : Place} {selectors : List String} {block : Block} {raws : List String}
    (h : ∀ s ∈ selectors, Single s.toList) : SingleRules (ofBlock p selectors block raws) := by
  intro atRules r hr
  unfold Piece.ofBlock at hr
  simp only [] at hr
  split at hr
  · cases hr
  · obtain rfl := List.mem_singleton.1 hr
    exact h

theorem ofRaw (depth : Nat) (css : String) : SingleRules (ofRaw depth css) := by
  intro atRules r hr
  unfold Piece.ofRaw at hr
  simp only [] at hr
  split at hr <;> cases hr

end SingleRules

end Piece

namespace Document

variable {d : Document}

/-- The texts of all selectors of a document. -/
def selectorTexts (d : Document) : List String := d.containers.filterMap (·.kind.selectorText?)

/-- Every container is reached from the root. -/
theorem WellFormed.exists_path (h : d.WellFormed) {id : Nat} {c : Container}
    (hc : d.get? id = some c) : ∃ above, d.Path (above ++ [⟨id, c.kind⟩]) := by
  induction id using Nat.strongRecOn generalizing c with
  | _ id ih =>
    by_cases hroot : id = rootId
    · subst hroot
      exact ⟨[], .root hc⟩
    · obtain ⟨p, hp, hbelow⟩ := h.exists_parent (by simp [contains, hc]) hroot
      obtain ⟨parent, hparent⟩ := get?_of_contains hp
      obtain ⟨above, hpath⟩ := ih p (h.younger hbelow) hparent
      exact ⟨_, .step hpath hbelow hc⟩

theorem mem_selectorTexts {id : Nat} {c : Container} {text : String} (hc : d.get? id = some c)
    (htext : c.kind.selectorText? = some text) : text ∈ d.selectorTexts := by
  obtain ⟨n, -, hn⟩ := get?_eq_some_iff.1 hc
  exact List.mem_filterMap.2 ⟨c, List.mem_of_getElem? hn, htext⟩

theorem Path.allSingle {chain : Chain} (h : d.Path chain)
    (hplain : ∀ text ∈ d.selectorTexts, Selector.Plain text) : AllSingle chain.selectors? := by
  induction h with
  | root get =>
    have houter : AllSingle (Chain.selectors? []) := .none
    exact Chain.allSingle_concat houter (fun text ht => hplain text (mem_selectorTexts get ht)) _
  | step _ _ get ih =>
    exact Chain.allSingle_concat ih (fun text ht => hplain text (mem_selectorTexts get ht)) _

/-! ## Rules -/

open Piece (SingleRules)

mutual

/-- Where the selectors that apply are single, those of the rules in a node are. -/
theorem singleRules_pieces (hplain : ∀ text ∈ d.selectorTexts, Selector.Plain text) :
    ∀ (n : Node) {child : Child} {p : Place}, d.Depicts child n → AllSingle p.selectors →
      SingleRules (n.pieces p)
  | .raw css, _, p, _, _ => by
    rw [Node.pieces]
    split
    · exact .nil
    · exact .ofRaw _ _
  | .slot s entries, _, p, hd, hp => by
    cases hd with
    | slot get hentries => exact singleRules_piecesOf hplain entries hentries hp
  | .container id kind block children, _, p, hd, hp => by
    cases hd with
    | @container _ c _ get hchildren =>
      have hkind (text : String) (htext : c.kind.selectorText? = some text) : Selector.Plain text :=
        hplain text (mem_selectorTexts get htext)
      cases hc : c.kind with
      | root =>
        have hroot : ∀ s ∈ [":root"], Single s.toList := List.forall_mem_singleton.2 single_root
        rw [Node.pieces]
        exact (SingleRules.ofBlock hroot).append
          (singleRules_piecesOf hplain children hchildren .none)
      | selector text =>
        have hnest : AllSingle (some (Selector.nest p.selectors text)) := by
          rintro _ ⟨rfl⟩ s hs
          exact (hkind text (by rw [hc]; rfl)).single_of_mem_nest hp hs
        rw [Node.pieces]
        exact (SingleRules.ofBlock (hnest _ rfl)).append
          (singleRules_piecesOf hplain children hchildren hnest)
      | media query =>
        rw [Node.pieces]
        refine (SingleRules.append (.ofBlock hp.getD) ?_).around _ _
        exact singleRules_piecesOf hplain children hchildren hp
      | keyframes name =>
        rw [Node.pieces]
        exact (singleRules_piecesOf hplain children hchildren .none).around _ _

theorem singleRules_piecesOf (hplain : ∀ text ∈ d.selectorTexts, Selector.Plain text) :
    ∀ (ns : List Node) {children : List Child} {p : Place}, List.Forall₂ d.Depicts children ns →
      AllSingle p.selectors → SingleRules (Node.piecesOf p ns)
  | [], _, _, _, _ => .nil
  | n :: ns, _, _, .cons hn hns, hp =>
    (singleRules_pieces hplain n hn hp).append (singleRules_piecesOf hplain ns hns hp)

end

/-! ## Reached documents -/

/-- **Written selector lists are unambiguous.** If no selector text of a document has quotes and all of
them pair their brackets, then every selector of a list, as it is after nesting, is one selector when
it is read by itself, and the list that is written has the selectors it was written for. This holds
for each container along its path from the root, and for all rules of the sheet. -/
theorem unambiguous_run (calls : List Call)
    (hplain : ∀ text ∈ (empty.run calls).selectorTexts, Selector.Plain text) :
    (∀ id text, (empty.run calls).selectorText? id = some text →
      (∃ above : Chain, (empty.run calls).Path (above ++ [⟨id, .selector text⟩])) ∧
      ∀ above : Chain, (empty.run calls).Path (above ++ [⟨id, .selector text⟩]) →
        Selector.Unambiguous (Selector.nest above.selectors? text)) ∧
    ∀ rule ∈ (empty.run calls).rules, Selector.Unambiguous rule.selectors := by
  have h := wellFormed_run calls
  refine ⟨?_, ?_⟩
  · intro id text htext
    obtain ⟨c, hc, hkind⟩ := Option.bind_eq_some_iff.1 htext
    refine ⟨?_, ?_⟩
    · rw [← Kind.selectorText?_eq_some_iff.1 hkind]
      exact h.exists_path hc
    · intro above hpath
      exact Selector.unambiguous_of_single
        (hpath.allSingle hplain _ (Chain.selectors?_concat id (.selector text)))
  · intro rule hrule
    exact Selector.unambiguous_of_single
      (singleRules_pieces hplain _ h.depicts_tree .none [] rule hrule)

/-- Two lists, one inside of the other, with commas and places to fill inside of brackets. -/
def nestedLists : List Call :=
  [.selector rootId ":is(.a, .b), .c" ∅,
    .selector 2 "&:not([x], &), .d" (.ofList [("color", .literal "red")])]

theorem unambiguous_nestedLists :
    (∀ text ∈ (empty.run nestedLists).selectorTexts, Selector.Plain text) ∧
    (empty.run nestedLists).rules = [⟨[], [":is(.a, .b):not([x], :is(.a, .b))", ":is(.a, .b) .d",
      ".c:not([x], .c)", ".c .d"], ["color"]⟩] ∧
    ∀ rule ∈ (empty.run nestedLists).rules, Selector.Unambiguous rule.selectors := by
  have hplain : ∀ text ∈ (empty.run nestedLists).selectorTexts, Selector.Plain text := by
    decide +kernel
  exact ⟨hplain, by decide +kernel, (unambiguous_run nestedLists hplain).2⟩

end Document

end AtomicCss
