import AtomicCss.Css.Lexeme
import AtomicCss.Proofs.Css.Literal

/-! # Lexemes of texts that are put together

A token ends in front of a semicolon unless it is a piece that is still open (`apart_tokenAt`). So a closed
text and what follows behind a semicolon are read independently of each other (`lex_append`). -/

namespace AtomicCss.Css

variable {c d : Char} {m r s t x : List Char} {f : List Char → Cut} {g : List Char → Token × Cut}

/-! ## Scanners of tokens -/

/-- The token that `f` reads of `r` is the same with `t` behind `r`. -/
def TokenApart (f : List Char → Token × Cut) (r t : List Char) : Prop :=
  f (r ++ t) = ((f r).1, (f r).2.append t)

/-- `f` reads a token that does not go on behind `r`. -/
def TokenStops (f : List Char → Token × Cut) (r m : List Char) : Prop :=
  (f r).2.2 ≠ [] ∨ TokenApart f r m

theorem TokenStops.apart_of_eq {f g : List Char → Token × Cut} (h : TokenStops g r m)
    (h₀ : g r = f r) (hm : g (r ++ m) = f (r ++ m)) (ht : g (r ++ t) = f (r ++ t))
    (hf : TokenStops f r m → TokenApart f r t) : TokenApart g r t := by
  unfold TokenStops TokenApart at *
  rw [h₀, hm] at h
  rw [h₀, ht]
  exact hf h

/-- A scanner of one kind of tokens. -/
theorem TokenStops.apart_of_kind {g : List Char → Token × Cut} {kind : Token}
    (h : TokenStops g r m) (h₀ : g r = (kind, f r)) (hm : g (r ++ m) = (kind, f (r ++ m)))
    (ht : g (r ++ t) = (kind, f (r ++ t))) (hf : Stops f r m → Apart f r t) : TokenApart g r t := by
  unfold TokenStops TokenApart Stops Apart at *
  rw [h₀, hm] at h
  rw [h₀, ht]
  simp only [Prod.mk.injEq, true_and] at h ⊢
  exact hf h

/-! ## Names and what they introduce -/

theorem nameLike_ident (h : (nameAfter c s).2.head? ≠ some '(') :
    nameLike c s = (.ident (unescape (c :: (nameAfter c s).1)), nameAfter c s) := by
  unfold nameLike
  dsimp only
  split
  · rename_i heq
    simp [heq] at h
  · rfl

theorem nameLike_round (h : (nameAfter c s).2 = '(' :: r) :
    nameLike c s =
      if isUrlName (c :: (nameAfter c s).1) && !startsQuoted r then
        (.other, Cut.andThen ((nameAfter c s).1 ++ ['('], r) url)
      else (.opening .round, ((nameAfter c s).1 ++ ['('], r)) := by
  unfold nameLike
  dsimp only
  rw [h]
  simp [Cut.andThen]

/-- What starts with a hyphen that does not belong to a closing mark. -/
theorem hyphen_of_not_closing (hs : ¬ ∃ u, s = '-' :: '>' :: u) :
    hyphen s = if startsName ('-' :: s) then nameLike '-' s else (.other, Cut.none s) := by
  rw [hyphen.eq_def]
  split
  · exact absurd ⟨_, rfl⟩ hs
  · rfl

section Stop

variable (hd : isStop d = true)

include hd

theorem apart_nameAfter (h : Stops (nameAfter c) r [')']) : Apart (nameAfter c) r (d :: x) := by
  by_cases hc : c = '\\'
  · have hafter (s : List Char) : nameAfter c s = (escape s).andThen name := by
      rw [nameAfter, if_pos hc]
    by_cases hr : r = []
    · subst hr
      have hnil : name [] = Cut.none [] := by rw [name]
      simp [Stops, Apart, hafter, escape, isHexDigit, Cut.andThen, Cut.none, Cut.append, hnil] at h
    · refine h.apart_of_eq (f := fun s => (escape s).andThen name) (hafter _) (hafter _) (hafter _)
        fun h => ?_
      exact Apart.andThen (apart_escape hd hr) (apart_name hd (h.of_andThen (apart_escape rfl hr)))
  · have hafter (s : List Char) : nameAfter c s = name s := by rw [nameAfter, if_neg hc]
    exact h.apart_of_eq (hafter _) (hafter _) (hafter _) (apart_name hd)

theorem startsQuoted_append (hq : d ≠ '"' ∧ d ≠ '\'') (r : List Char) :
    startsQuoted (r ++ d :: x) = startsQuoted r := by
  have hspace := not_isSpace_of_isStop hd
  unfold startsQuoted
  induction r with
  | nil => simp [hspace, hq]
  | cons c r ih =>
    cases hc : isSpace c
    · simp [hc]
    · simpa [hc] using ih

/-- A function's name, with its bracket or with the address that it introduces. -/
theorem apart_nameLike_round (hq : d ≠ '"' ∧ d ≠ '\'') (hround : (nameAfter c r).2 = '(' :: s)
    (h : TokenStops (nameLike c) r [')']) : TokenApart (nameLike c) r (d :: x) := by
  -- the name ends at the bracket, whatever stands behind
  have hstops : Stops (nameAfter c) r [')'] := .inl (by simp [hround])
  have hbehind {d : Char} (hd : isStop d = true) (hq : d ≠ '"' ∧ d ≠ '\'') (x : List Char) :
      nameLike c (r ++ d :: x) =
        if isUrlName (c :: (nameAfter c r).1) && !startsQuoted s then
          (.other, (Cut.append ((nameAfter c r).1 ++ ['('], s) (d :: x)).andThen url)
        else (.opening .round, ((nameAfter c r).1 ++ ['('], s ++ d :: x)) := by
    have hname : nameAfter c (r ++ d :: x) = (nameAfter c r).append (d :: x) :=
      apart_nameAfter hd hstops
    rw [nameLike_round (r := s ++ d :: x) (by rw [hname, Cut.append_snd, hround]; rfl), hname,
      startsQuoted_append hd hq]
    rfl
  unfold TokenStops TokenApart at *
  rw [nameLike_round hround, hbehind rfl (by decide)] at h
  rw [nameLike_round hround, hbehind hd hq]
  cases hurl : isUrlName (c :: (nameAfter c r).1) && !startsQuoted s with
  | true =>
    simp only [hurl, if_true, Prod.mk.injEq, true_and, Cut.append_andThen] at h ⊢
    exact apart_url hd h
  | false => rfl

theorem apart_nameLike (hq : d ≠ '"' ∧ d ≠ '\'') (h : TokenStops (nameLike c) r [')']) :
    TokenApart (nameLike c) r (d :: x) := by
  by_cases hround : (nameAfter c r).2.head? = some '('
  · obtain ⟨u, hu⟩ := List.head?_eq_some_iff.1 hround
    exact apart_nameLike_round hd hq hu h
  have hstops : Stops (nameAfter c) r [')'] := by
    unfold TokenStops TokenApart at h
    rw [nameLike_ident hround] at h
    refine h.imp id fun h => ?_
    by_cases hmark : (nameAfter c (r ++ [')'])).2.head? = some '('
    · obtain ⟨u, hu⟩ := List.head?_eq_some_iff.1 hmark
      rw [nameLike_round hu] at h
      split at h <;> cases h
    · rw [nameLike_ident hmark] at h
      exact (Prod.ext_iff.1 h).2
  have hname : nameAfter c (r ++ d :: x) = (nameAfter c r).append (d :: x) := apart_nameAfter hd hstops
  have hhead : (nameAfter c (r ++ d :: x)).2.head? ≠ some '(' := by
    rw [hname, Cut.append_snd]
    refine head?_append_ne hround ?_
    rintro rfl
    cases hd
  rw [TokenApart, nameLike_ident hhead, nameLike_ident hround, hname]
  rfl

theorem apart_hyphen (hq : d ≠ '"' ∧ d ≠ '\'') (h : TokenStops hyphen r [')']) :
    TokenApart hyphen r (d :: x) := by
  by_cases hclose : ∃ u, r = '-' :: '>' :: u
  · obtain ⟨u, rfl⟩ := hclose
    rfl
  have hbehind {d : Char} (hd : isStop d = true) (x : List Char) : hyphen (r ++ d :: x) =
      if startsName ('-' :: r) then nameLike '-' (r ++ d :: x) else (.other, Cut.none (r ++ d :: x)) := by
    have hstop : d ∉ ['-', '>'] := by
      rcases isStop_iff.1 hd with rfl | rfl | rfl | rfl <;> decide
    rw [hyphen_of_not_closing, ← List.cons_append, startsName_append_stop hd]
    rintro ⟨u, hu⟩
    exact hclose (exists_eq_append hstop hu)
  have h₀ := hyphen_of_not_closing hclose
  have hm := hbehind (d := ')') rfl []
  have ht := hbehind hd x
  by_cases hname : startsName ('-' :: r)
  · simp only [hname, if_true] at h₀ hm ht
    exact h.apart_of_eq h₀ hm ht (apart_nameLike hd hq)
  · simp only [hname] at h₀ hm ht
    exact h.apart_of_kind h₀ hm ht fun _ => rfl

end Stop

/-! ## Tokens -/

/-- The mark that would close a piece once more. -/
def closingMark : List Char → List Char
  | '"' :: _ => ['"']
  | '\'' :: _ => ['\'']
  | '/' :: '*' :: _ => ['*', '/']
  | _ => [')']

/-- The characters that tell by themselves how their token goes on. -/
def isLead (c : Char) : Bool :=
  isSpace c || c == '"' || c == '\'' || c == '/' || c == '#' || c == '@' || c == '<'

theorem tokenAt_of_not_isLead (hc : isLead c = false) (s : List Char) : tokenAt c s =
    if c.isDigit || (isSign c && startsDigits s) then (.other, number s)
    else if c = '.' && s.head?.any Char.isDigit then (.other, decimals s)
    else if c = '-' then hyphen s
    else if startsName (c :: s) then nameLike c s
    else (punctuation c, Cut.none s) := by
  simp only [isLead, Bool.or_eq_false_iff, beq_eq_false_iff_ne] at hc
  obtain ⟨⟨⟨⟨⟨⟨hspace, hdouble⟩, hsingle⟩, hslash⟩, hhash⟩, hat⟩, hless⟩ := hc
  simp [tokenAt, hspace, hdouble, hsingle, hslash, hhash, hat, hless]

section Stop

variable (hd : isStop d = true)

include hd

theorem apart_hash (h : Stops hash r [')']) : Apart hash r (d :: x) := by
  have hbehind {d : Char} (hd : isStop d = true) (x : List Char) : hash (r ++ d :: x) =
      if startsName r || r.head?.any (fun d => d.isDigit || d == '-') then name (r ++ d :: x)
      else Cut.none (r ++ d :: x) := by
    have hhead : (d.isDigit || d == '-') = false := by
      rcases isStop_iff.1 hd with rfl | rfl | rfl | rfl <;> rfl
    rw [hash, startsName_append_stop hd, any_head?_append hhead]
  exact apart_name_or_none hd h rfl (hbehind (d := ')') rfl []) (hbehind hd x)

theorem apart_atKeyword (h : Stops atKeyword r [')']) : Apart atKeyword r (d :: x) := by
  have hbehind {d : Char} (hd : isStop d = true) (x : List Char) : atKeyword (r ++ d :: x) =
      if startsName r then name (r ++ d :: x) else Cut.none (r ++ d :: x) := by
    rw [atKeyword, startsName_append_stop hd]
  exact apart_name_or_none hd h rfl (hbehind (d := ')') rfl []) (hbehind hd x)

theorem apart_lessThan (r : List Char) : Apart lessThan r (d :: x) := by
  by_cases hopen : ∃ u, r = '!' :: '-' :: '-' :: u
  · obtain ⟨u, rfl⟩ := hopen
    rfl
  have hnone {s : List Char} (hs : ¬ ∃ u, s = '!' :: '-' :: '-' :: u) : lessThan s = Cut.none s := by
    rw [lessThan.eq_def]
    split
    · exact absurd ⟨_, rfl⟩ hs
    · rfl
  have hstop : d ∉ ['!', '-', '-'] := by
    rcases isStop_iff.1 hd with rfl | rfl | rfl | rfl <;> decide
  rw [Apart, hnone hopen, hnone]
  · rfl
  rintro ⟨u, hu⟩
  exact hopen (exists_eq_append hstop hu)

theorem apart_slash (h : TokenStops slash r (closingMark ('/' :: (slash r).2.1))) :
    TokenApart slash r (d :: x) := by
  by_cases hstar : r.head? = some '*'
  · obtain ⟨r, rfl⟩ := List.head?_eq_some_iff.1 hstar
    -- behind the star, it is a comment
    refine h.apart_of_kind (f := fun s => Cut.cons '*' (comment s.tail)) rfl rfl rfl fun h => ?_
    exact h.apart_of_cons (f := Cut.none) rfl rfl rfl rfl rfl (apart_comment hd)
  · have hslash {s : List Char} (hs : s.head? ≠ some '*') : slash s = (.other, Cut.none s) := by
      rw [slash.eq_def]
      split
      · simp at hs
      · rfl
    rw [TokenApart, hslash hstar, hslash (head?_append_ne hstar ?_)]
    · rfl
    · rintro rfl
      cases hd

/-- A token that starts with a character of another kind. What it is depends on what follows, but not on
a stop. -/
theorem apart_tokenAt_of_not_isLead (hq : d ≠ '"' ∧ d ≠ '\'') (hc : isLead c = false)
    (h : TokenStops (tokenAt c) r [')']) : TokenApart (tokenAt c) r (d :: x) := by
  have hbehind {d : Char} (hd : isStop d = true) (x : List Char) : tokenAt c (r ++ d :: x) =
      if c.isDigit || (isSign c && startsDigits r) then (.other, number (r ++ d :: x))
      else if c = '.' && r.head?.any Char.isDigit then (.other, decimals (r ++ d :: x))
      else if c = '-' then hyphen (r ++ d :: x)
      else if startsName (c :: r) then nameLike c (r ++ d :: x)
      else (punctuation c, Cut.none (r ++ d :: x)) := by
    rw [tokenAt_of_not_isLead hc, startsDigits_append_stop hd,
      any_head?_append (not_isDigit_of_isStop hd), ← List.cons_append, startsName_append_stop hd]
  have h₀ := tokenAt_of_not_isLead hc r
  have hm := hbehind (d := ')') rfl []
  have ht := hbehind hd x
  split at h₀
  · rename_i hnumber
    rw [if_pos hnumber] at hm ht
    exact h.apart_of_kind h₀ hm ht (apart_number hd)
  rename_i hnumber
  rw [if_neg hnumber] at hm ht
  split at h₀
  · rename_i hdecimals
    rw [if_pos hdecimals] at hm ht
    exact h.apart_of_kind h₀ hm ht (apart_decimals hd)
  rename_i hdecimals
  rw [if_neg hdecimals] at hm ht
  split at h₀
  · rename_i hhyphen
    rw [if_pos hhyphen] at hm ht
    exact h.apart_of_eq h₀ hm ht (apart_hyphen hd hq)
  rename_i hhyphen
  rw [if_neg hhyphen] at hm ht
  split at h₀
  · rename_i hname
    rw [if_pos hname] at hm ht
    exact h.apart_of_eq h₀ hm ht (apart_nameLike hd hq)
  rename_i hname
  rw [if_neg hname] at hm ht
  exact h.apart_of_kind h₀ hm ht fun _ => rfl

/-- A token ends in front of a stop that is no quote, unless it could be closed once more. -/
theorem apart_tokenAt (hq : d ≠ '"' ∧ d ≠ '\'')
    (h : TokenStops (tokenAt c) r (closingMark (c :: (tokenAt c r).2.1))) :
    TokenApart (tokenAt c) r (d :: x) := by
  by_cases hspace : isSpace c = true
  · have hstep (s : List Char) : tokenAt c s = (.space, Cut.spanning isSpace s) := by
      simp [tokenAt, hspace]
    exact h.apart_of_kind (hstep _) (hstep _) (hstep _)
      fun _ => apart_spanning (not_isSpace_of_isStop hd) r
  by_cases hquote : c = '"' ∨ c = '\''
  · have hstep (s : List Char) : tokenAt c s = (.other, quoted c s) := by
      rw [tokenAt, if_neg hspace, if_pos (by simpa using hquote)]
    have hmark (s : List Char) : closingMark (c :: s) = [c] := by
      rcases hquote with rfl | rfl <;> rfl
    rw [hmark] at h
    exact h.apart_of_kind (hstep _) (hstep _) (hstep _)
      (apart_quoted hd (isStop_iff.2 (.inr (.inr hquote))))
  by_cases hslash : c = '/'
  · subst hslash
    exact h.apart_of_eq rfl rfl rfl (apart_slash hd)
  have hmark (s : List Char) : closingMark (c :: s) = [')'] := by
    obtain ⟨hdouble, hsingle⟩ := not_or.1 hquote
    simp [closingMark, hdouble, hsingle, hslash]
  rw [hmark] at h
  by_cases hhash : c = '#'
  · subst hhash
    exact h.apart_of_kind rfl rfl rfl (apart_hash hd)
  by_cases hat : c = '@'
  · subst hat
    exact h.apart_of_kind rfl rfl rfl (apart_atKeyword hd)
  by_cases hless : c = '<'
  · subst hless
    exact h.apart_of_kind rfl rfl rfl fun _ => apart_lessThan hd r
  obtain ⟨hdouble, hsingle⟩ := not_or.1 hquote
  exact apart_tokenAt_of_not_isLead hd hq
    (by simp [isLead, hspace, hdouble, hsingle, hslash, hhash, hat, hless]) h

end Stop

/-! ## Closed texts -/

/-- A lexeme is closed if one more of its closing marks behind it is not read as a part of it. So strings,
comments and addresses without their ends are open, and names that end with a backslash. -/
def Lexeme.isClosed (l : Lexeme) : Bool := (lex (l.text ++ closingMark l.text)).head? == some l

example : Lexeme.isClosed ⟨.other, ['"', 'a', ';', '"']⟩ = true := by decide +kernel

example : Lexeme.isClosed ⟨.other, ['"', 'a', '\\', '"']⟩ = false := by decide +kernel

theorem tokenStops_of_isClosed (hr : (tokenAt c r).2.2 = [])
    (h : Lexeme.isClosed ⟨(tokenAt c r).1, c :: (tokenAt c r).2.1⟩ = true) :
    TokenStops (tokenAt c) r (closingMark (c :: (tokenAt c r).2.1)) := by
  have hread : (tokenAt c r).2.1 = r := by
    have hof : (tokenAt c r).2.1 ++ (tokenAt c r).2.2 = r := of_tokenAt c r
    rwa [hr, List.append_nil] at hof
  rw [hread] at h ⊢
  rw [Lexeme.isClosed, beq_iff_eq, List.cons_append, lex, List.head?_cons, Option.some.injEq,
    Lexeme.mk.injEq, List.cons.injEq] at h
  obtain ⟨hkind, -, htext⟩ := h
  have hof : (tokenAt c (r ++ closingMark (c :: r))).2.1 ++
      (tokenAt c (r ++ closingMark (c :: r))).2.2 = r ++ closingMark (c :: r) := of_tokenAt c _
  rw [htext, List.append_cancel_left_eq] at hof
  right
  refine Prod.ext hkind (Prod.ext ?_ ?_)
  · rw [htext]
    exact hread.symm
  · rw [hof, Cut.append_snd, hr, List.nil_append]

/-- **Behind a closed text, a semicolon is a lexeme of its own**, and what follows it is read as it is
read alone. Only the last lexeme of a text can be open. -/
theorem lex_append (s t : List Char) (h : ∀ l ∈ (lex s).getLast?, l.isClosed = true) :
    lex (s ++ ';' :: t) = lex s ++ ⟨.semicolon, [';']⟩ :: lex t := by
  fun_induction lex s with
  | case1 =>
    rw [List.nil_append, lex]
    rfl
  | case2 c r ih =>
    have hstops : TokenStops (tokenAt c) r (closingMark (c :: (tokenAt c r).2.1)) := by
      by_cases hr : (tokenAt c r).2.2 = []
      · refine tokenStops_of_isClosed hr (h _ ?_)
        rw [hr, lex]
        rfl
      · exact .inl hr
    have happart : tokenAt c (r ++ ';' :: t) = ((tokenAt c r).1, (tokenAt c r).2.append (';' :: t)) :=
      apart_tokenAt rfl (by decide) hstops
    rw [List.cons_append, lex, happart, Cut.append_snd, ih]
    · rfl
    intro l hl
    refine h l ?_
    rw [List.getLast?_cons, Option.mem_def.1 hl]
    rfl

end AtomicCss.Css
