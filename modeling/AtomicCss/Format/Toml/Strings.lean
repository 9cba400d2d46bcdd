import AtomicCss.Format.Hex
import AtomicCss.Text

/-!
# TOML strings

There are four sorts of strings: between single quotes everything stands for itself, between
double quotes there are escapes, and with three quotes of either sort a string may run over
several lines. Each reader takes the text behind the opening quotes, in which a line ends with a
single newline character.
-/

namespace AtomicCss.Toml

/-- A string as it was read, and what stands behind it. -/
abbrev Cut := Option (List Char × List Char)

/-- A character in front of a string. -/
def consChar (c : Char) (rest : Cut) : Cut := rest.map fun (text, s) => (c :: text, s)

def isMargin (c : Char) : Bool := c == ' ' || c == '\t'

/-- The characters that may stand in a line: all but control characters, of which only the tab may. -/
def isPlain (c : Char) : Bool := c == '\t' || (0x20 ≤ c.toNat && c.toNat != 0x7F)

/-! ### Escapes -/

/-- The character with a code in hexadecimal digits, unless the code is none of a character. -/
def coded? (ds : List Char) : Option Char := do
  let n ← Hex.number? ds
  if n.isValidChar then return Char.ofNat n else none

def shortEscape? (c : Char) : Option Char :=
  if c = '"' || c = '\\' then some c
  else if c = 'b' then some '\x08'
  else if c = 't' then some '\t'
  else if c = 'n' then some '\n'
  else if c = 'f' then some '\x0c'
  else if c = 'r' then some '\r'
  else none

/-- The character of the escape that stands behind a backslash, and what is left. -/
def escape? : List Char → Option (Char × List Char)
  | 'u' :: a :: b :: c :: d :: s => (coded? [a, b, c, d]).map (·, s)
  | 'U' :: a :: b :: c :: d :: e :: f :: g :: h :: s =>
    (coded? [a, b, c, d, e, f, g, h]).map (·, s)
  | c :: s => (shortEscape? c).map (·, s)
  | [] => none

/-- Reading an escape leaves less than there was. -/
theorem length_of_escape {s rest : List Char} {c : Char} (h : escape? s = some (c, rest)) :
    rest.length < s.length := by
  unfold escape? at h
  split at h
  all_goals first
    | cases h
    | obtain ⟨_, -, h⟩ := Option.map_eq_some_iff.1 h
      obtain rfl := (Prod.mk.inj h).2
      simp only [List.length_cons]
      omega

/-! ### Strings on one line -/

/-- The string that ends at a single quote. -/
def literal (s : List Char) : Cut :=
  let text := s.takeWhile (· != '\'')
  match s.dropWhile (· != '\'') with
  | _ :: rest => if text.all isPlain then some (text, rest) else none
  | [] => none

/-- The string with escapes that ends at a double quote. -/
def basic : List Char → Cut
  | [] => none
  | '"' :: s => some ([], s)
  | '\\' :: s =>
    match h : escape? s with
    | some (c, rest) =>
      have := length_of_escape h
      consChar c (basic rest)
    | none => none
  | c :: s => if isPlain c then consChar c (basic s) else none
termination_by s => s.length
decreasing_by all_goals simp only [List.length_cons]; omega

/-! ### Strings over several lines -/

/-- Behind three quotes that end a string, up to two more belong to its text. -/
def closing (q : Char) : List Char → List Char × List Char
  | [] => ([], [])
  | a :: s =>
    if a = q then
      match s with
      | [] => ([q], [])
      | b :: t => if b = q then ([q, q], t) else ([q], s)
    else ([], a :: s)

/-- The string that ends at three single quotes. -/
def literalLines : List Char → Cut
  | [] => none
  | '\'' :: '\'' :: '\'' :: s => some (closing '\'' s)
  | c :: s => if isPlain c || c = '\n' then consChar c (literalLines s) else none

/-- What is left behind the end of a line and all blanks that follow, if only blanks stand in front
of the end of the line. -/
def behindLine? (s : List Char) : Option (List Char) :=
  match s.dropWhile isMargin with
  | '\n' :: t => some (t.dropWhile fun c => isMargin c || c = '\n')
  | _ => none

/-- Passing over the end of a line leaves less than there was. -/
theorem length_of_behindLine {s rest : List Char} (h : behindLine? s = some rest) :
    rest.length < s.length := by
  unfold behindLine? at h
  split at h
  · rename_i t ht
    obtain rfl := by simpa using h
    have h1 := Text.length_dropWhile_le (fun c => isMargin c || c = '\n') t
    have h2 := Text.length_dropWhile_le isMargin s
    rw [ht] at h2
    simp only [List.length_cons] at h2
    omega
  · cases h

/-- The string with escapes that ends at three double quotes. A backslash at the end of a line
takes the blanks behind it out of the text. -/
def basicLines : List Char → Cut
  | [] => none
  | '"' :: '"' :: '"' :: s => some (closing '"' s)
  | '\\' :: s =>
    match h : behindLine? s with
    | some rest =>
      have := length_of_behindLine h
      basicLines rest
    | none =>
      match h : escape? s with
      | some (c, rest) =>
        have := length_of_escape h
        consChar c (basicLines rest)
      | none => none
  | c :: s => if isPlain c || c = '\n' then consChar c (basicLines s) else none
termination_by s => s.length
decreasing_by all_goals simp only [List.length_cons]; omega

/-! ### Progress

Reading a string leaves less than there was, whichever sort it is of. -/

/-- A character can only stand in front of a string that was read. -/
theorem read_of_consChar {c : Char} {r : Cut} {text rest : List Char}
    (h : consChar c r = some (text, rest)) : ∃ t, r = some (t, rest) := by
  cases r with
  | none => cases h
  | some p =>
    obtain ⟨-, rfl⟩ := by simpa [consChar] using h
    exact ⟨p.1, rfl⟩

/-- The closing quotes leave no more than there was. -/
theorem length_closing (q : Char) (s : List Char) : (closing q s).2.length ≤ s.length := by
  unfold closing
  split
  · simp
  · split
    · split
      · simp
      · split
        · simp
          omega
        · simp
    · simp

theorem length_of_literal {s text rest : List Char} (h : literal s = some (text, rest)) :
    rest.length < s.length := by
  unfold literal at h
  have := Text.length_dropWhile_le (· != '\'') s
  split at h
  · rename_i heq
    rw [heq] at this
    obtain ⟨-, -, rfl⟩ := by simpa using h
    exact this
  · cases h

theorem length_of_basic {s text rest : List Char} (h : basic s = some (text, rest)) :
    rest.length < s.length := by
  fun_induction basic s generalizing text with
  | case1 => cases h
  | case2 s => simp_all
  | case3 s c r hr hlt ih =>
    obtain ⟨t, ht⟩ := read_of_consChar h
    have := ih ht
    simp only [List.length_cons]
    omega
  | case4 => cases h
  | case5 c s _ _ _ ih =>
    obtain ⟨t, ht⟩ := read_of_consChar h
    have := ih ht
    simp only [List.length_cons]
    omega
  | case6 => cases h

theorem length_of_literalLines {s text rest : List Char}
    (h : literalLines s = some (text, rest)) : rest.length < s.length := by
  fun_induction literalLines s generalizing text with
  | case1 => cases h
  | case2 s =>
    have := length_closing '\'' s
    obtain rfl := congrArg Prod.snd (Option.some.inj h)
    simp only [List.length_cons]
    omega
  | case3 c s _ _ ih =>
    obtain ⟨t, ht⟩ := read_of_consChar h
    have := ih ht
    simp only [List.length_cons]
    omega
  | case4 => cases h

theorem length_of_basicLines {s text rest : List Char}
    (h : basicLines s = some (text, rest)) : rest.length < s.length := by
  fun_induction basicLines s generalizing text with
  | case1 => cases h
  | case2 s =>
    have := length_closing '"' s
    obtain rfl := congrArg Prod.snd (Option.some.inj h)
    simp only [List.length_cons]
    omega
  | case3 s r hr hlt ih =>
    have := ih h
    simp only [List.length_cons]
    omega
  | case4 s hn c r hr hlt ih =>
    obtain ⟨t, ht⟩ := read_of_consChar h
    have := ih ht
    simp only [List.length_cons]
    omega
  | case5 => cases h
  | case6 c s _ _ _ ih =>
    obtain ⟨t, ht⟩ := read_of_consChar h
    have := ih ht
    simp only [List.length_cons]
    omega
  | case7 => cases h

end AtomicCss.Toml
