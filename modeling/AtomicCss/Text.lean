/-!
# Text

Texts are handled as lists of characters. A blank is a character with the Unicode property
White_Space; trimming, words and lines are defined through it.

Main statement: `trim_trim`, trimming twice is trimming once.
-/

namespace AtomicCss.Text

/-- The characters with the Unicode property White_Space. -/
def isBlank (c : Char) : Bool :=
  let n := c.toNat
  (0x9 ≤ n && n ≤ 0xD) || n == 0x20 || n == 0x85 || n == 0xA0 || n == 0x1680 ||
    (0x2000 ≤ n && n ≤ 0x200A) || n == 0x2028 || n == 0x2029 || n == 0x202F || n == 0x205F ||
    n == 0x3000

/-! ### Trimming -/

/-- Drops the longest end of the list whose members all satisfy `p`. -/
def dropEndWhile (p : Char → Bool) (s : List Char) : List Char :=
  (s.reverse.dropWhile p).reverse

/-- The text without the blanks at its two ends. -/
def trim (s : List Char) : List Char :=
  dropEndWhile isBlank (s.dropWhile isBlank)

def trimmed (s : String) : String :=
  String.ofList (trim s.toList)

/-- Dropping from the front stops at a member that stays. -/
theorem dropWhile_eq_self {p : α → Bool} {s : List α} (h : ∀ c, s.head? = some c → p c = false) :
    s.dropWhile p = s := by
  cases s with
  | nil => rfl
  | cons c cs => exact List.dropWhile_cons_of_neg (by simp [h c rfl])

theorem dropEndWhile_eq_self {p : Char → Bool} {s : List Char}
    (h : ∀ c, s.getLast? = some c → p c = false) : dropEndWhile p s = s := by
  rw [dropEndWhile, dropWhile_eq_self (by simpa using h), List.reverse_reverse]

/-- What is left after dropping from the end is an initial part. -/
theorem dropEndWhile_prefix (p : Char → Bool) (s : List Char) : dropEndWhile p s <+: s := by
  have h := List.dropWhile_suffix p (l := s.reverse)
  rw [← List.reverse_prefix, List.reverse_reverse] at h
  exact h

theorem head?_trim {s : List Char} {c : Char} (h : (trim s).head? = some c) : isBlank c = false := by
  have hd := List.head?_dropWhile_not isBlank s
  have hp := dropEndWhile_prefix isBlank (s.dropWhile isBlank)
  obtain ⟨rest, hrest⟩ := hp
  have hne : (s.dropWhile isBlank).head? = some c := by
    rw [← hrest, List.head?_append, trim] at *
    simp [h]
  simpa [hne] using hd

theorem getLast?_trim {s : List Char} {c : Char} (h : (trim s).getLast? = some c) :
    isBlank c = false := by
  have hd := List.head?_dropWhile_not isBlank (s.dropWhile isBlank).reverse
  rw [trim, dropEndWhile, List.getLast?_reverse] at h
  simpa [h] using hd

/-- A text without blanks at its ends is left alone. -/
theorem trim_eq_self {s : List Char} (hf : ∀ c, s.head? = some c → isBlank c = false)
    (hl : ∀ c, s.getLast? = some c → isBlank c = false) : trim s = s := by
  rw [trim, dropWhile_eq_self hf, dropEndWhile_eq_self hl]

theorem trim_trim (s : List Char) : trim (trim s) = trim s :=
  trim_eq_self (fun _ => head?_trim) (fun _ => getLast?_trim)

theorem trimmed_trimmed (s : String) : trimmed (trimmed s) = trimmed s := by
  simp [trimmed, trim_trim]

/-! ### Cutting -/

/-- Dropping from the front leaves no more than there was. -/
theorem length_dropWhile_le (p : α → Bool) (s : List α) : (s.dropWhile p).length ≤ s.length :=
  (List.dropWhile_sublist p).length_le

/-- Puts a member in front of the first field. -/
def grow (c : α) : List (List α) → List (List α)
  | [] => [[c]]
  | f :: fs => (c :: f) :: fs

/-- The fields between the members that satisfy `p`; there is always at least one. -/
def fields (p : α → Bool) : List α → List (List α)
  | [] => [[]]
  | c :: cs => if p c then [] :: fields p cs else grow c (fields p cs)

/-- The words of a text: its longest runs without blanks. -/
def words (s : List Char) : List (List Char) :=
  (fields isBlank s).filter (!·.isEmpty)

/-- The lines of a text, trimmed, without the blank ones. -/
def trimmedLines (s : List Char) : List (List Char) :=
  ((fields (· == '\n') s).map trim).filter (!·.isEmpty)

/-- The members of a list with a separator between neighbours. -/
def join (sep : String) (parts : List String) : String :=
  sep.intercalate parts

end AtomicCss.Text
