import AtomicCss.Selector
import Mathlib.Data.List.Basic

/-! # Nested selectors

Selector lists that enclose each other combine to all choices of one selector from each of them. Going
one list further down (`Selector.nest`) is one more factor of that product (`product_concat`). -/

namespace AtomicCss.Selector

variable {ls : List (List String)} {texts : List String}

/-- All ways to choose one member of each list. The first list varies slowest. -/
def choices : List (List String) → List (List String)
  | [] => [[]]
  | l :: ls => l.flatMap fun s => (choices ls).map (s :: ·)

/-- The selector that some selectors make when each one encloses the next. -/
def descend : List String → String
  | [] => ""
  | s :: ss => ss.foldl under s

/-- The selectors of some selector lists when each one encloses the next. -/
def product (texts : List String) : List String := (choices (texts.map splitList)).map descend

theorem choices_concat (ls : List (List String)) (l : List String) :
    choices (ls ++ [l]) = (choices ls).flatMap fun c => l.map fun s => c ++ [s] := by
  induction ls with
  | nil => simp [choices, List.map_eq_flatMap]
  | cons l' ls ih =>
    rw [List.cons_append, choices, choices, ih]
    simp only [List.flatMap_assoc, List.map_flatMap, List.flatMap_map, List.map_map]
    rfl

theorem length_of_mem_choices {c : List String} (h : c ∈ choices ls) : c.length = ls.length := by
  induction ls generalizing c with
  | nil =>
    rw [List.mem_singleton.1 h]
    rfl
  | cons l ls ih =>
    obtain ⟨s, -, hc⟩ := List.mem_flatMap.1 h
    obtain ⟨rest, hrest, rfl⟩ := List.mem_map.1 hc
    rw [List.length_cons, List.length_cons, ih hrest]

theorem descend_concat {c : List String} (hc : c ≠ []) (s : String) :
    descend (c ++ [s]) = under (descend c) s := by
  cases c with
  | nil => exact absurd rfl hc
  | cons s' c => simp [descend]

theorem product_singleton (text : String) : product [text] = nest none text := by
  simp only [product, List.map_singleton, choices, List.map_flatMap]
  exact List.flatMap_singleton' _

/-- Nesting adds one more factor. -/
theorem product_concat (h : texts ≠ []) (text : String) :
    product (texts ++ [text]) = nest (some (product texts)) text := by
  rw [product, List.map_append, List.map_singleton, choices_concat, List.map_flatMap, nest, product,
    List.flatMap_map]
  apply List.flatMap_congr
  intro c hc
  have hne : c ≠ [] := by
    rintro rfl
    have := length_of_mem_choices hc
    rw [List.length_map] at this
    exact h (List.length_eq_zero_iff.1 this.symm)
  rw [List.map_map]
  apply List.map_congr_left
  intro s _
  exact descend_concat hne s

end AtomicCss.Selector
