import AtomicCss.Css.Name

/-!
# Strings, comments, numbers and addresses

The pieces of a style sheet that hold other characters together: a semicolon or a bracket inside
of them ends nothing. Each scanner starts behind the characters by which its piece is recognized.
-/

namespace AtomicCss.Css

/-! ### Strings, comments, numbers -/

/-- What a backslash in a string covers: an escape or a line break. -/
def covered (s : List Char) : Cut :=
  if escapable s then escape s else newline s

theorem of_covered (s : List Char) : Cut.Of s (covered s) := by
  unfold covered; split
  · exact of_escape s
  · exact of_newline s

theorem length_covered (s : List Char) : (covered s).2.length ≤ s.length :=
  Cut.length_le (of_covered s)

/-- A string after its opening quote, the closing one included. A line break ends it as well. -/
def quoted (q : Char) : List Char → Cut
  | [] => Cut.none []
  | c :: r =>
    if c = q then ([c], r)
    else if isNewline c then Cut.none (c :: r)
    else if c = '\\' then
      Cut.cons c ((covered r).1 ++ (quoted q (covered r).2).1, (quoted q (covered r).2).2)
    else Cut.cons c (quoted q r)
termination_by s => s.length
decreasing_by
  all_goals
    have := length_covered r
    simp
    try omega

theorem of_quoted (q : Char) (s : List Char) : Cut.Of s (quoted q s) := by
  fun_induction quoted q s with
  | case1 => rfl
  | case2 => rfl
  | case3 => rfl
  | case4 r _ _ ih =>
    apply Cut.of_cons
    have h := of_covered r
    simp only [Cut.Of] at *
    rw [List.append_assoc, ih, h]
  | case5 c r _ _ _ ih => exact Cut.of_cons ih

/-- A comment after its opening mark, the closing one included. -/
def comment : List Char → Cut
  | '*' :: '/' :: r => (['*', '/'], r)
  | c :: r => Cut.cons c (comment r)
  | [] => Cut.none []

theorem of_comment (s : List Char) : Cut.Of s (comment s) := by
  fun_induction comment s with
  | case1 => rfl
  | case2 c r _ ih => exact Cut.of_cons ih
  | case3 => rfl

def digits (s : List Char) : Cut := Cut.spanning Char.isDigit s

/-- The digits after a decimal point, with the point. -/
def fraction : List Char → Cut
  | '.' :: d :: r => if d.isDigit then Cut.cons '.' (digits (d :: r)) else Cut.none ('.' :: d :: r)
  | s => Cut.none s

/-- Whether a sign may stand before an exponent's digits. -/
def isSign (c : Char) : Bool := c == '+' || c == '-'

def exponent : List Char → Cut
  | e :: c :: r =>
    if e == 'e' || e == 'E' then
      if c.isDigit then Cut.cons e (digits (c :: r))
      else if isSign c && (r.head?.any Char.isDigit) then Cut.cons e (Cut.cons c (digits r))
      else Cut.none (e :: c :: r)
    else Cut.none (e :: c :: r)
  | s => Cut.none s

/-- What may follow a number directly: a percent sign or a unit. -/
def unit : List Char → Cut
  | '%' :: r => (['%'], r)
  | s => if startsName s then name s else Cut.none s

/-- A number after its decimal point, with its unit. -/
def decimals (s : List Char) : Cut :=
  ((digits s).andThen exponent).andThen unit

/-- A number after its sign or its first digit, with its unit. -/
def number (s : List Char) : Cut :=
  (((digits s).andThen fraction).andThen exponent).andThen unit

/-- Whether the input goes on with the digits of a number, before or after a decimal point. -/
def startsDigits : List Char → Bool
  | '.' :: d :: _ => d.isDigit
  | d :: _ => d.isDigit
  | [] => false

theorem of_fraction (s : List Char) : Cut.Of s (fraction s) := by
  unfold fraction; split
  · split
    · exact Cut.of_cons (Cut.of_spanning _ _)
    · rfl
  · rfl

theorem of_exponent (s : List Char) : Cut.Of s (exponent s) := by
  unfold exponent; split
  · split
    · split
      · exact Cut.of_cons (Cut.of_spanning _ _)
      · split
        · exact Cut.of_cons (Cut.of_cons (Cut.of_spanning _ _))
        · rfl
    · rfl
  · rfl

theorem of_unit (s : List Char) : Cut.Of s (unit s) := by
  unfold unit; split
  · rfl
  · split
    · exact of_name s
    · rfl

theorem of_decimals (s : List Char) : Cut.Of s (decimals s) :=
  Cut.of_andThen (Cut.of_andThen (Cut.of_spanning _ _) of_exponent) of_unit

theorem of_number (s : List Char) : Cut.Of s (number s) :=
  Cut.of_andThen (Cut.of_andThen (Cut.of_andThen (Cut.of_spanning _ _) of_fraction) of_exponent)
    of_unit

/-! ### Addresses -/

/-- The rest of an address that holds a character it may not hold, up to its closing bracket. -/
def badUrl : List Char → Cut
  | [] => Cut.none []
  | '\\' :: ')' :: r => Cut.cons '\\' (Cut.cons ')' (badUrl r))
  | '\\' :: '\\' :: r => Cut.cons '\\' (Cut.cons '\\' (badUrl r))
  | ')' :: r => ([')'], r)
  | c :: r => Cut.cons c (badUrl r)

/-- The end of an address after a blank: only blanks may come before the closing bracket. -/
def urlEnd : List Char → Cut
  | [] => Cut.none []
  | c :: r =>
    if c = ')' then ([c], r)
    else if isSpace c then Cut.cons c (urlEnd r)
    else Cut.cons c (badUrl r)

/-- The characters of an address, from the first one that is not blank. -/
def urlBody : List Char → Cut
  | [] => Cut.none []
  | c :: r =>
    if c = ')' then ([c], r)
    else if isSpace c then urlEnd (c :: r)
    else if c = '"' || c = '\'' || c = '(' || isNonPrintable c then Cut.cons c (badUrl r)
    else if c = '\\' then
      if escapable r then
        Cut.cons c ((escape r).1 ++ (urlBody (escape r).2).1, (urlBody (escape r).2).2)
      else Cut.cons c (badUrl r)
    else Cut.cons c (urlBody r)
termination_by s => s.length
decreasing_by
  all_goals
    have := length_escape r
    simp
    try omega

theorem of_badUrl (s : List Char) : Cut.Of s (badUrl s) := by
  fun_induction badUrl s with
  | case1 => rfl
  | case2 r ih => exact Cut.of_cons (Cut.of_cons ih)
  | case3 r ih => exact Cut.of_cons (Cut.of_cons ih)
  | case4 => rfl
  | case5 c r _ _ _ ih => exact Cut.of_cons ih

theorem of_urlEnd (s : List Char) : Cut.Of s (urlEnd s) := by
  fun_induction urlEnd s with
  | case1 => rfl
  | case2 => rfl
  | case3 c r _ _ ih => exact Cut.of_cons ih
  | case4 c r => exact Cut.of_cons (of_badUrl r)

theorem of_urlBody (s : List Char) : Cut.Of s (urlBody s) := by
  fun_induction urlBody s with
  | case1 => rfl
  | case2 => rfl
  | case3 c r => exact of_urlEnd _
  | case4 c r => exact Cut.of_cons (of_badUrl r)
  | case5 r _ _ _ _ ih =>
    apply Cut.of_cons
    have h := of_escape r
    simp only [Cut.Of] at *
    rw [List.append_assoc, ih, h]
  | case6 r => exact Cut.of_cons (of_badUrl r)
  | case7 c r _ _ _ _ ih => exact Cut.of_cons ih

/-- Whether what follows the opening bracket is a string, so that the address is quoted. -/
def startsQuoted (s : List Char) : Bool :=
  match s.dropWhile isSpace with
  | c :: _ => c == '"' || c == '\''
  | [] => false

/-- An unquoted address after its opening bracket, the closing one included. -/
def url (s : List Char) : Cut := (Cut.spanning isSpace s).andThen urlBody

theorem of_url (s : List Char) : Cut.Of s (url s) :=
  Cut.of_andThen (Cut.of_spanning _ _) of_urlBody

end AtomicCss.Css
