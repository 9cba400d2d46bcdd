import AtomicCss.Format.Json.Printer
import AtomicCss.Proofs.Format.Json.Tokens
import AtomicCss.Proofs.Text

/-!
# Reading what was written

A value is written over several lines and read from tokens, whose groups are then closed. A text
reads as some members of a group if it can be cut into tokens that collapse to them; this is
composed along the text, from a mark to the whole of a value.

Main statement: each value with proper numerals is read back as it was written (`read?_pretty`).
-/

namespace AtomicCss.Json

open Nesting (Bracket collapse)

variable {c : Char} {s rest : List Char}

/-! ## Members -/

/-- `s` reads as some members in front of `rest`: it is cut into tokens that collapse to them. -/
def Reads (s : List Char) (as : List Member) (rest : List Char) : Prop :=
  ∀ ts, tokens? rest = some ts → ∃ us, tokens? s = some (us ++ ts) ∧
    ∀ stack current ts, collapse close? stack current (us ++ ts) =
      collapse close? stack (as.reverse ++ current) ts

namespace Reads

variable {as bs : List Member} {s' : List Char}

theorem refl (s : List Char) : Reads s [] s := by
  intro ts hts
  exact ⟨[], hts, fun _ _ _ => rfl⟩

theorem trans (h : Reads s as s') (h' : Reads s' bs rest) : Reads s (as ++ bs) rest := by
  intro ts hts
  obtain ⟨vs, hvs, hbs⟩ := h' ts hts
  obtain ⟨us, hus, has⟩ := h _ hvs
  refine ⟨us ++ vs, by rw [hus, List.append_assoc], fun stack current ts => ?_⟩
  rw [List.append_assoc, has, hbs, List.reverse_append, List.append_assoc]

theorem space (hc : isSpace c = true) (h : Reads s as rest) : Reads (c :: s) as rest := by
  intro ts hts
  rw [tokens?_space hc]
  exact h ts hts

theorem lineStart (depth : Nat) (h : Reads s as rest) : Reads (lineStart depth ++ s) as rest := by
  refine .space (by decide) ?_
  generalize 2 * depth = n
  induction n with
  | zero => exact h
  | succ n ih => exact .space (by decide) ih

theorem scalar {j : Raw} (h : tokens? s = consScalar (some j) (tokens? rest)) :
    Reads s [.value j] rest := by
  intro ts hts
  refine ⟨[.member (.value j)], ?_, fun _ _ _ => rfl⟩
  rw [h, hts]
  rfl

theorem mark {m : Member} (hc : mark? c = some (.member m)) (h : Reads s as rest) :
    Reads (c :: s) (m :: as) rest := by
  intro ts hts
  obtain ⟨us, hus, has⟩ := h ts hts
  refine ⟨.member m :: us, ?_, fun stack current ts => ?_⟩
  · rw [tokens?_mark hc, hus]
    rfl
  · rw [List.cons_append, collapse, has, List.reverse_cons, List.append_assoc]
    rfl

/-- A group is read as what its members are closed into. -/
theorem group {b : Bracket} {opening closing : Char} {m : Member}
    (hopening : mark? opening = some (.opening b)) (hclosing : mark? closing = some (.closing b))
    (h : Reads s as (closing :: rest)) (hm : close? b as = some m) :
    Reads (opening :: s) [m] rest := by
  intro ts hts
  have hend : tokens? (closing :: rest) = some (.closing b :: ts) := by
    rw [tokens?_mark hclosing, hts]
    rfl
  obtain ⟨us, hus, has⟩ := h _ hend
  refine ⟨.opening b :: us ++ [.closing b], ?_, fun stack current ts => ?_⟩
  · rw [tokens?_mark hopening, hus]
    simp
  · rw [List.append_assoc, List.singleton_append]
    exact Nesting.collapse_group has hm stack current ts

theorem quoted (text : String) (h : Reads s as rest) :
    Reads (Quoted.write text.toList ++ s) (.value (.string (some text)) :: as) rest := by
  have hread : tokens? (Quoted.write text.toList ++ s) =
      consScalar (some (.string (some text))) (tokens? s) := by
    rw [tokens?_quoted, String.ofList_toList]
  exact .trans (.scalar hread) h

/-- A key is read together with the mark behind it. -/
theorem key (key : String) (h : Reads s as rest) :
    Reads (Quoted.write key.toList ++ ':' :: ' ' :: s)
      (.value (.string (some key)) :: .colon :: as) rest := by
  have hspace : Reads (' ' :: s) as rest := .space rfl h
  have hcolon : Reads (':' :: ' ' :: s) (.colon :: as) rest := .mark rfl hspace
  exact .quoted key hcolon

/-- A group whose closing bracket stands on a line of its own. -/
theorem groupOnLines {b : Bracket} {opening closing : Char} {m : Member} (depth : Nat)
    (hopening : mark? opening = some (.opening b)) (hclosing : mark? closing = some (.closing b))
    (h : Reads s as (Json.lineStart depth ++ closing :: rest)) (hm : close? b as = some m) :
    Reads (opening :: s) [m] rest := by
  have hinside := h.trans (.lineStart depth (.refl _))
  rw [List.append_nil] at hinside
  exact .group hopening hclosing hinside hm

end Reads

/-! ### Groups -/

/-- The members of a group by its fields, with a comma between neighbours. -/
def separated (field : List Member) (fields : List (List Member)) : List Member :=
  field ++ fields.flatMap (.comma :: ·)

theorem fields_separated {field : List Member} {fields : List (List Member)}
    (h : ∀ f ∈ field :: fields, ∀ m ∈ f, m.isComma = false) :
    Text.fields Member.isComma (separated field fields) = field :: fields :=
  Text.fields_flatMap rfl h

/-- Things that are read back one by one. -/
theorem mapM_map {α β : Type} {read : β → Option α} {write : α → β} {as : List α}
    (h : ∀ a ∈ as, read (write a) = some a) : (as.map write).mapM read = some as := by
  induction as with
  | nil => rfl
  | cons a as ih =>
    obtain ⟨ha, has⟩ := List.forall_mem_cons.1 h
    rw [List.map_cons, List.mapM_cons, ha, ih has]
    rfl

/-- The field of an item of an array. -/
def itemField (j : Raw) : List Member := [.value j]

/-- The field of a member of an object. -/
def memberField (m : Option String × Raw) : List Member :=
  [.value (.string m.1), .colon, .value m.2]

theorem close?_array (j : Raw) (js : List Raw) :
    close? .square (separated (itemField j) (js.map itemField)) =
      some (.value (.array (j :: js))) := by
  have hfields : Text.fields Member.isComma (separated (itemField j) (js.map itemField)) =
      (j :: js).map itemField := fields_separated (by simp [itemField, Member.isComma])
  have hclose : close? .square (separated (itemField j) (js.map itemField)) =
      ((Text.fields Member.isComma (separated (itemField j) (js.map itemField))).mapM item?).bind
        fun items => some (.value (.array items)) := rfl
  have hitems : ((j :: js).map itemField).mapM item? = some (j :: js) := mapM_map fun _ _ => rfl
  rw [hclose, hfields, hitems]
  rfl

theorem close?_object (m : Option String × Raw) (ms : List (Option String × Raw)) :
    close? .curly (separated (memberField m) (ms.map memberField)) =
      some (.value (.object (m :: ms))) := by
  have hcomma (m : Option String × Raw) : ∀ a ∈ memberField m, a.isComma = false := by
    simp [memberField, Member.isComma]
  have hfields : Text.fields Member.isComma (separated (memberField m) (ms.map memberField)) =
      (m :: ms).map memberField := by
    apply fields_separated
    rw [← List.map_cons, List.forall_mem_map]
    exact fun m _ => hcomma m
  have hclose : close? .curly (separated (memberField m) (ms.map memberField)) =
      ((Text.fields Member.isComma (separated (memberField m) (ms.map memberField))).mapM at?).bind
        fun members => some (.value (.object members)) := rfl
  have hmembers : ((m :: ms).map memberField).mapM at? = some (m :: ms) := mapM_map fun _ _ => rfl
  rw [hclose, hfields, hmembers]
  rfl

/-! ## Values

One case for each sort of value: scalars are single tokens, and what stands between two brackets is
read first. -/

mutual

/-- The numerals in a value. -/
def numerals : Json τ → List String
  | number numeral => [numeral]
  | array items => numeralsOfItems items
  | object members => numeralsOfMembers members
  | _ => []

def numeralsOfItems : List (Json τ) → List String
  | [] => []
  | j :: js => numerals j ++ numeralsOfItems js

def numeralsOfMembers : List (τ × Json τ) → List String
  | [] => []
  | (_, j) :: ms => numerals j ++ numeralsOfMembers ms

end

mutual

/-- A value as it is read. -/
def raw : Json String → Raw
  | null => .null
  | bool b => .bool b
  | number numeral => .number numeral
  | string text => .string (some text)
  | array items => .array (rawItems items)
  | object members => .object (rawMembers members)

def rawItems : List (Json String) → List Raw
  | [] => []
  | j :: js => raw j :: rawItems js

def rawMembers : List (String × Json String) → List (Option String × Raw)
  | [] => []
  | (key, j) :: ms => (some key, raw j) :: rawMembers ms

end

theorem ends_lineStart (depth : Nat) : Ends (lineStart depth ++ s) := by
  rintro _ ⟨⟩
  decide

theorem ends_writeItems (js : List (Json String)) (depth : Nat) (hrest : Ends rest) :
    Ends (writeItems depth js ++ rest) := by
  cases js with
  | nil => exact hrest
  | cons j js =>
    rintro _ ⟨⟩
    decide

theorem ends_writeMembers (ms : List (String × Json String)) (depth : Nat) (hrest : Ends rest) :
    Ends (writeMembers depth ms ++ rest) := by
  cases ms with
  | nil => exact hrest
  | cons m ms =>
    rintro _ ⟨⟩
    decide

mutual

theorem reads_write (j : Json String) (hj : ∀ n ∈ j.numerals, Numeral.isNumeral n.toList = true)
    (depth : Nat) (rest : List Char) (hrest : Ends rest) :
    Reads (write depth j ++ rest) [.value j.raw] rest := by
  cases j with
  | null => exact .scalar (tokens?_word rfl rfl (by decide) hrest)
  | bool b =>
    cases b with
    | false => exact .scalar (tokens?_word rfl rfl (by decide) hrest)
    | true => exact .scalar (tokens?_word rfl rfl (by decide) hrest)
  | number numeral =>
    have hn : Numeral.isNumeral numeral.toList = true := hj numeral (by simp [numerals])
    have h := tokens?_numeral hn hrest
    rw [String.ofList_toList] at h
    exact .scalar h
  | string text => exact .quoted text (.refl rest)
  | array items =>
    cases items with
    | nil => exact .group rfl rfl (.refl _) rfl
    | cons j js =>
      simp only [numerals, numeralsOfItems, List.mem_append] at hj
      -- the last item ends at the line of the closing bracket, each other one at a comma
      have htail := reads_writeItems js (fun n hn => hj n (.inr hn)) (depth + 1)
        (lineStart depth ++ ']' :: rest) (ends_lineStart depth)
      have hhead := reads_write j (fun n hn => hj n (.inl hn)) (depth + 1)
        (writeItems (depth + 1) js ++ (lineStart depth ++ ']' :: rest))
        (ends_writeItems js _ (ends_lineStart depth))
      have h : Reads ('[' :: _) _ rest :=
        .groupOnLines depth rfl rfl (.lineStart (depth + 1) (hhead.trans htail))
          (close?_array j.raw (rawItems js))
      simpa [write, raw, rawItems] using h
  | object members =>
    cases members with
    | nil => exact .group rfl rfl (.refl _) rfl
    | cons m ms =>
      obtain ⟨key, j⟩ := m
      simp only [numerals, numeralsOfMembers, List.mem_append] at hj
      have htail := reads_writeMembers ms (fun n hn => hj n (.inr hn)) (depth + 1)
        (lineStart depth ++ '\x7d' :: rest) (ends_lineStart depth)
      have hhead := reads_write j (fun n hn => hj n (.inl hn)) (depth + 1)
        (writeMembers (depth + 1) ms ++ (lineStart depth ++ '\x7d' :: rest))
        (ends_writeMembers ms _ (ends_lineStart depth))
      have hmember := Reads.key key (hhead.trans htail)
      have h : Reads ('\x7b' :: _) _ rest :=
        .groupOnLines depth rfl rfl (.lineStart (depth + 1) hmember)
          (close?_object (some key, j.raw) (rawMembers ms))
      simpa [write, raw, rawMembers] using h

theorem reads_writeItems (js : List (Json String))
    (hjs : ∀ n ∈ numeralsOfItems js, Numeral.isNumeral n.toList = true)
    (depth : Nat) (rest : List Char) (hrest : Ends rest) :
    Reads (writeItems depth js ++ rest)
      (((rawItems js).map itemField).flatMap (.comma :: ·)) rest := by
  cases js with
  | nil => exact .refl rest
  | cons j js =>
    simp only [numeralsOfItems, List.mem_append] at hjs
    have htail := reads_writeItems js (fun n hn => hjs n (.inr hn)) depth rest hrest
    have hhead := reads_write j (fun n hn => hjs n (.inl hn)) depth (writeItems depth js ++ rest)
      (ends_writeItems js depth hrest)
    have h : Reads (',' :: _) _ rest := .mark rfl (.lineStart depth (hhead.trans htail))
    simpa [writeItems, rawItems, itemField] using h

theorem reads_writeMembers (ms : List (String × Json String))
    (hms : ∀ n ∈ numeralsOfMembers ms, Numeral.isNumeral n.toList = true)
    (depth : Nat) (rest : List Char) (hrest : Ends rest) :
    Reads (writeMembers depth ms ++ rest)
      (((rawMembers ms).map memberField).flatMap (.comma :: ·)) rest := by
  cases ms with
  | nil => exact .refl rest
  | cons m ms =>
    obtain ⟨key, j⟩ := m
    simp only [numeralsOfMembers, List.mem_append] at hms
    have htail := reads_writeMembers ms (fun n hn => hms n (.inr hn)) depth rest hrest
    have hhead := reads_write j (fun n hn => hms n (.inl hn)) depth (writeMembers depth ms ++ rest)
      (ends_writeMembers ms depth hrest)
    have hmember := Reads.key key (hhead.trans htail)
    have h : Reads (',' :: _) _ rest := .mark rfl (.lineStart depth hmember)
    simpa [writeMembers, rawMembers, memberField] using h

end

/-- The main result: a value is read back as it was written. -/
theorem read?_pretty (j : Json String)
    (hj : ∀ n ∈ j.numerals, Numeral.isNumeral n.toList = true) : read? j.pretty = some j.raw := by
  have hempty : tokens? [] = some [] := by rw [tokens?]
  obtain ⟨us, hus, hmembers⟩ := reads_write j hj 0 [] (by rintro _ ⟨⟩) [] hempty
  have htokens : tokens? j.pretty.toList = some us := by simpa [pretty] using hus
  have hcollapse : Nesting.members close? us = some [.value j.raw] := by
    simpa [Nesting.members, collapse] using hmembers [] [] []
  simp [read?, htokens, hcollapse]

/-! ### What is read

A value as it is read is as deep as the one that was written, and it passes the check. -/

theorem rawItems_eq_map (js : List (Json String)) : rawItems js = js.map raw := by
  induction js with
  | nil => rfl
  | cons j js ih => rw [rawItems, ih, List.map_cons]

mutual

theorem depth_raw (j : Json String) : j.raw.depth = j.depth := by
  cases j with
  | array items => rw [raw, depth, depth, depthOfItems_raw items]
  | object members => rw [raw, depth, depth, depthOfMembers_raw members]
  | _ => rfl

theorem depthOfItems_raw (js : List (Json String)) :
    depthOfItems (rawItems js) = depthOfItems js := by
  cases js with
  | nil => rfl
  | cons j js => rw [rawItems, depthOfItems, depthOfItems, depth_raw j, depthOfItems_raw js]

theorem depthOfMembers_raw (ms : List (String × Json String)) :
    depthOfMembers (rawMembers ms) = depthOfMembers ms := by
  cases ms with
  | nil => rfl
  | cons m ms =>
    rw [rawMembers, depthOfMembers, depthOfMembers, depth_raw m.2, depthOfMembers_raw ms]

end

mutual

theorem checked?_raw (j : Json String) (hj : ∀ n ∈ j.numerals, Numeral.fits n.toList = true) :
    j.raw.checked? = some j := by
  cases j with
  | number numeral => rw [raw, checked?, if_pos (hj numeral (by simp [numerals]))]
  | array items =>
    rw [raw, checked?, checkedItems?_raw items hj]
    rfl
  | object members =>
    rw [raw, checked?, checkedMembers?_raw members hj]
    rfl
  | _ => rfl

theorem checkedItems?_raw (js : List (Json String))
    (hjs : ∀ n ∈ numeralsOfItems js, Numeral.fits n.toList = true) :
    checkedItems? (rawItems js) = some js := by
  cases js with
  | nil => rfl
  | cons j js =>
    simp only [numeralsOfItems, List.mem_append] at hjs
    rw [rawItems, checkedItems?, checked?_raw j fun n hn => hjs n (.inl hn),
      checkedItems?_raw js fun n hn => hjs n (.inr hn)]
    rfl

theorem checkedMembers?_raw (ms : List (String × Json String))
    (hms : ∀ n ∈ numeralsOfMembers ms, Numeral.fits n.toList = true) :
    checkedMembers? (rawMembers ms) = some ms := by
  cases ms with
  | nil => rfl
  | cons m ms =>
    simp only [numeralsOfMembers, List.mem_append] at hms
    rw [rawMembers, checkedMembers?, checked?_raw m.2 fun n hn => hms n (.inl hn),
      checkedMembers?_raw ms fun n hn => hms n (.inr hn)]
    rfl

end

/-! ### Arrays of things that are alike -/

section

variable {α τ : Type} {f : α → Json τ} {as : List α}

theorem depthOfItems_map_le {n : Nat} (h : ∀ a ∈ as, (f a).depth ≤ n) :
    depthOfItems (as.map f) ≤ n := by
  induction as with
  | nil => exact Nat.zero_le n
  | cons a as ih =>
    obtain ⟨ha, has⟩ := List.forall_mem_cons.1 h
    exact Nat.max_le.2 ⟨ha, ih has⟩

theorem numeralsOfItems_map (h : ∀ a ∈ as, (f a).numerals = []) :
    numeralsOfItems (as.map f) = [] := by
  induction as with
  | nil => rfl
  | cons a as ih =>
    obtain ⟨ha, has⟩ := List.forall_mem_cons.1 h
    rw [List.map_cons, numeralsOfItems, ha, ih has]
    rfl

end

end AtomicCss.Json
