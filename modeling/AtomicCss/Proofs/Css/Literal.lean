import AtomicCss.Css.Literal
import Mathlib.Data.List.Basic

/-! # Scanners in front of a stop

What a scanner reads of a text may change when more stands behind the text: a name goes on, a string is
closed. `Apart` says that it does not change. Behind a text that ends with a semicolon or a closing
bracket, every scanner has stopped, except in a piece that is still open (`apart_name`, `apart_quoted`,
`apart_comment`, `apart_url`, `apart_number`). -/

namespace AtomicCss.Css

variable {c d q : Char} {m r s t x : List Char} {f g scan : List Char → Cut} {k k' : Cut}

/-! ## Cuts with more behind them -/

namespace Cut

/-- The cut with more text behind what it leaves. -/
def append (k : Cut) (t : List Char) : Cut := (k.1, k.2 ++ t)

@[simp] theorem none_append : (none s).append t = none (s ++ t) := by rfl

@[simp] theorem cons_append : (cons c k).append t = cons c (k.append t) := rfl

@[simp] theorem append_snd : (k.append t).2 = k.2 ++ t := rfl

@[simp] theorem cons_inj : cons c k = cons c k' ↔ k = k' := by
  simp [cons, Prod.ext_iff]

theorem append_andThen :
    (k.append t).andThen g = (k.andThen g).append t ↔ g (k.2 ++ t) = (g k.2).append t := by
  simp [andThen, append, Prod.ext_iff]

end Cut

/-- What `f` reads of `r` is the same with `t` behind `r`. -/
def Apart (f : List Char → Cut) (r t : List Char) : Prop := f (r ++ t) = (f r).append t

/-- `f` does not read on behind `r`: something of `r` is left, or at least the mark `m` behind it. -/
def Stops (f : List Char → Cut) (r m : List Char) : Prop := (f r).2 ≠ [] ∨ Apart f r m

theorem Apart.andThen (hf : Apart f r t) (hg : Apart g (f r).2 t) :
    Apart (fun s => (f s).andThen g) r t := by
  have hf : f (r ++ t) = (f r).append t := hf
  show (f (r ++ t)).andThen g = ((f r).andThen g).append t
  rw [hf, Cut.append_andThen]
  exact hg

theorem Stops.of_andThen (h : Stops (fun s => (f s).andThen g) r m) (hf : Apart f r m) :
    Stops g (f r).2 m := by
  have hf : f (r ++ m) = (f r).append m := hf
  refine h.imp id fun h => ?_
  have h : (f (r ++ m)).andThen g = ((f r).andThen g).append m := h
  rwa [hf, Cut.append_andThen] at h

/-- A scanner that does here what `f` does. -/
theorem Stops.apart_of_eq (h : Stops g r m) (h₀ : g r = f r) (hm : g (r ++ m) = f (r ++ m))
    (ht : g (r ++ t) = f (r ++ t)) (hf : Stops f r m → Apart f r t) : Apart g r t := by
  unfold Stops Apart at *
  rw [h₀, hm] at h
  rw [h₀, ht]
  exact hf h

/-- A scanner that reads `c`, goes on with `f`, and then with `g`. -/
theorem Stops.apart_of_cons (h : Stops scan (c :: r) m)
    (h₀ : scan (c :: r) = Cut.cons c ((f r).andThen g))
    (hm : scan (c :: (r ++ m)) = Cut.cons c ((f (r ++ m)).andThen g))
    (ht : scan (c :: (r ++ t)) = Cut.cons c ((f (r ++ t)).andThen g))
    (hfm : Apart f r m) (hft : Apart f r t) (hg : Stops g (f r).2 m → Apart g (f r).2 t) :
    Apart scan (c :: r) t := by
  have hfm : f (r ++ m) = (f r).append m := hfm
  have hft : f (r ++ t) = (f r).append t := hft
  unfold Stops Apart at *
  rw [List.cons_append, h₀, hm, hfm, Cut.cons_append, Cut.cons_inj, Cut.append_andThen] at h
  rw [List.cons_append, h₀, ht, hft, Cut.cons_append, Cut.cons_inj, Cut.append_andThen]
  exact hg h

/-- A scanner that reads `c` and then goes on as `f`, whatever follows. -/
theorem Stops.apart_of_step (h : Stops scan (c :: r) m)
    (hstep : ∀ s, scan (c :: s) = Cut.cons c (f s)) (hf : Stops f r m → Apart f r t) :
    Apart scan (c :: r) t :=
  h.apart_of_cons (f := Cut.none) (hstep r) (hstep _) (hstep _) rfl rfl hf

/-! ## One step -/

theorem newline_cons (h : c = '\r' → s.head? ≠ some '\n') :
    newline (c :: s) = if isNewline c then ([c], s) else Cut.none (c :: s) := by
  unfold newline
  split
  · rename_i heq
    obtain ⟨rfl, rfl⟩ := List.cons.inj heq
    exact absurd rfl (h rfl)
  · rename_i heq
    obtain ⟨rfl, rfl⟩ := List.cons.inj heq
    rfl
  · rename_i heq
    cases heq

theorem name_escape (h : escapable r = true) :
    name ('\\' :: r) = Cut.cons '\\' ((escape r).andThen name) := by
  rw [name, if_pos rfl, if_pos h]
  rfl

theorem comment_cons (h : c = '*' → s.head? ≠ some '/') :
    comment (c :: s) = Cut.cons c ((Cut.none s).andThen comment) := by
  rw [comment.eq_def]
  split
  · rename_i heq
    obtain ⟨rfl, rfl⟩ := List.cons.inj heq
    exact absurd rfl (h rfl)
  · rename_i heq
    obtain ⟨rfl, rfl⟩ := List.cons.inj heq
    rfl
  · rename_i heq
    cases heq

theorem badUrl_cons (hc : c ≠ ')') (h : c = '\\' → s.head? ≠ some ')' ∧ s.head? ≠ some '\\') :
    badUrl (c :: s) = Cut.cons c ((Cut.none s).andThen badUrl) := by
  rw [badUrl.eq_def]
  split
  · rename_i heq
    cases heq
  · rename_i heq
    obtain ⟨rfl, rfl⟩ := List.cons.inj heq
    exact absurd rfl (h rfl).1
  · rename_i heq
    obtain ⟨rfl, rfl⟩ := List.cons.inj heq
    exact absurd rfl (h rfl).2
  · rename_i heq
    exact absurd (List.cons.inj heq).1 hc
  · rename_i heq
    obtain ⟨rfl, rfl⟩ := List.cons.inj heq
    rfl

/-! ## Stops -/

/-- Marks with which no name, number or escape goes on. -/
def isStop (d : Char) : Bool := d == ';' || d == ')' || d == '"' || d == '\''

theorem isStop_iff : isStop d = true ↔ d = ';' ∨ d = ')' ∨ d = '"' ∨ d = '\'' := by
  simp [isStop, or_assoc]

section Stop

variable (hd : isStop d = true)

include hd

theorem not_isHexDigit_of_isStop : isHexDigit d = false := by
  rcases isStop_iff.1 hd with rfl | rfl | rfl | rfl <;> rfl

theorem not_isNameChar_of_isStop : isNameChar d = false := by
  rcases isStop_iff.1 hd with rfl | rfl | rfl | rfl <;> rfl

theorem not_isSpace_of_isStop : isSpace d = false := by
  rcases isStop_iff.1 hd with rfl | rfl | rfl | rfl <;> rfl

theorem not_isDigit_of_isStop : d.isDigit = false := by
  rcases isStop_iff.1 hd with rfl | rfl | rfl | rfl <;> rfl

end Stop

theorem apart_spanning {p : Char → Bool} (hp : p d = false) (r : List Char) :
    Apart (Cut.spanning p) r (d :: x) := by
  induction r with
  | nil => simp [Apart, Cut.spanning, Cut.append, hp]
  | cons c r ih =>
    simp only [Apart, Cut.spanning, Cut.append, Prod.mk.injEq] at ih
    cases hc : p c <;> simp [Apart, Cut.spanning, Cut.append, hc, ih]

theorem head?_append_ne {a : Char} (hr : r.head? ≠ some a) (hne : d ≠ a) :
    (r ++ d :: x).head? ≠ some a := by
  cases r with
  | nil => simpa using hne
  | cons => exact hr

/-- A character that does not belong to a pattern does not complete it. -/
theorem exists_eq_append {p u : List Char} (hp : d ∉ p) (h : r ++ d :: x = p ++ u) :
    ∃ v, r = p ++ v := by
  rcases List.append_eq_append_iff.1 h with ⟨a, rfl, ha⟩ | ⟨v, hv, -⟩
  · cases a with
    | nil => exact ⟨[], by simp⟩
    | cons b a =>
      obtain ⟨rfl, -⟩ := List.cons.inj ha
      simp at hp
  · exact ⟨v, hv⟩

theorem any_head?_append {p : Char → Bool} (hp : p d = false) (r : List Char) :
    (r ++ d :: x).head?.any p = r.head?.any p := by
  cases r <;> simp [hp]

/-! ## Names and escapes -/

section Stop

variable (hd : isStop d = true)

include hd

theorem escapable_append_stop (r : List Char) : escapable (r ++ d :: x) = escapable r := by
  cases r with
  | nil => rcases isStop_iff.1 hd with rfl | rfl | rfl | rfl <;> rfl
  | cons => rfl

theorem apart_newline (r : List Char) : Apart newline r (d :: x) := by
  rcases r with _ | ⟨c, r⟩
  · rcases isStop_iff.1 hd with rfl | rfl | rfl | rfl <;> rfl
  by_cases h : c = '\r' ∧ r.head? = some '\n'
  · obtain ⟨rfl, h⟩ := h
    obtain ⟨r, rfl⟩ := List.head?_eq_some_iff.1 h
    rfl
  · have hr : c = '\r' → r.head? ≠ some '\n' := fun hc hlf => h ⟨hc, hlf⟩
    have hlf : d ≠ '\n' := by
      rintro rfl
      cases hd
    rw [Apart, List.cons_append, newline_cons fun hc => head?_append_ne (hr hc) hlf, newline_cons hr]
    split <;> rfl

theorem apart_space (r : List Char) : Apart space r (d :: x) := by
  rcases r with _ | ⟨c, r⟩
  · rcases isStop_iff.1 hd with rfl | rfl | rfl | rfl <;> rfl
  · simp only [Apart, List.cons_append, space]
    split
    · rfl
    · exact apart_newline hd (c :: r)

theorem apart_hexDigits (n : Nat) (r : List Char) : Apart (hexDigits n) r (d :: x) := by
  unfold Apart
  fun_induction hexDigits n r with
  | case1 n c r hc ih => simp [hexDigits, hc, ih]
  | case2 n c r hc => simp [hexDigits, hc]
  | case3 n r h =>
    cases n with
    | zero => rfl
    | succ n =>
      cases r with
      | nil => simp [hexDigits, not_isHexDigit_of_isStop hd]
      | cons c r => exact absurd rfl (h n c r rfl)

theorem apart_escape (hr : r ≠ []) : Apart escape r (d :: x) := by
  obtain ⟨c, r, rfl⟩ := List.exists_cons_of_ne_nil hr
  simp only [Apart, List.cons_append, escape]
  split
  · exact (apart_hexDigits hd 6 (c :: r)).andThen (apart_space hd _)
  · rfl

theorem apart_covered (hr : r ≠ []) : Apart covered r (d :: x) := by
  obtain ⟨c, r', rfl⟩ := List.exists_cons_of_ne_nil hr
  have he : escapable (c :: (r' ++ d :: x)) = escapable (c :: r') := rfl
  simp only [Apart, List.cons_append, covered, he]
  split
  · exact apart_escape hd hr
  · exact apart_newline hd (c :: r')

theorem name_stop : name (d :: x) = Cut.none (d :: x) := by
  have hne : d ≠ '\\' := by
    rintro rfl
    simp [isStop] at hd
  rw [name, if_neg hne, if_neg (by simp [not_isNameChar_of_isStop hd])]

/-- An escape reaches over a stop only if nothing stands behind its backslash. -/
theorem apart_of_escape
    (hstep : ∀ {s}, escapable s = true → scan ('\\' :: s) = Cut.cons '\\' ((escape s).andThen scan))
    (hnil : scan [] = Cut.none []) (he : escapable r = true) (h : Stops scan ('\\' :: r) [')'])
    (hscan : Stops scan (escape r).2 [')'] → Apart scan (escape r).2 (d :: x)) :
    Apart scan ('\\' :: r) (d :: x) := by
  by_cases hr : r = []
  · subst hr
    simp [Stops, Apart, hstep he, hstep (s := [')']) rfl, escape, isHexDigit, Cut.andThen, hnil,
      Cut.cons, Cut.none, Cut.append] at h
  · exact h.apart_of_cons (hstep he) (hstep (by rwa [escapable_append_stop rfl]))
      (hstep (by rwa [escapable_append_stop hd])) (apart_escape rfl hr) (apart_escape hd hr) hscan

/-- A name ends in front of a stop unless an escape reaches over it. -/
theorem apart_name (h : Stops name r [')']) : Apart name r (d :: x) := by
  fun_induction name r with
  | case1 =>
    rw [Apart, List.nil_append, name_stop hd, name]
    rfl
  | case2 r he ih => exact apart_of_escape hd name_escape (by rw [name]) he h ih
  | case3 r he =>
    rw [Apart, List.cons_append, name, if_pos rfl, if_neg (by rwa [escapable_append_stop hd])]
    rw [name, if_pos rfl, if_neg he]
    rfl
  | case4 c r hc hname ih =>
    have hstep (s : List Char) : name (c :: s) = Cut.cons c (name s) := by
      rw [name, if_neg hc, if_pos hname]
    exact h.apart_of_step hstep ih
  | case5 c r hc hname =>
    rw [Apart, List.cons_append, name, name, if_neg hc, if_neg hname, if_neg hc, if_neg hname]
    rfl

/-- A scanner that reads a name or nothing. -/
theorem apart_name_or_none {b : Bool} (h : Stops scan r [')'])
    (h₀ : scan r = if b then name r else Cut.none r)
    (hm : scan (r ++ [')']) = if b then name (r ++ [')']) else Cut.none (r ++ [')']))
    (ht : scan (r ++ d :: x) = if b then name (r ++ d :: x) else Cut.none (r ++ d :: x)) :
    Apart scan r (d :: x) := by
  cases b with
  | true => exact h.apart_of_eq h₀ hm ht (apart_name hd)
  | false =>
    rw [Apart, ht, h₀]
    rfl

theorem startsName_append_stop (r : List Char) : startsName (r ++ d :: x) = startsName r := by
  fun_cases startsName r with
  | case1 r => exact escapable_append_stop hd r
  | case2 c r hc => simp [startsName]
  | case3 r => exact escapable_append_stop hd r
  | case4 c r _ hnil _ =>
    by_cases hc : c = '-'
    · cases r with
      | nil =>
        subst hc
        rcases isStop_iff.1 hd with rfl | rfl | rfl | rfl <;> rfl
      | cons c' r => exact (hnil c' r hc rfl).elim
    · simp [startsName, hc]
  | case5 => rcases isStop_iff.1 hd with rfl | rfl | rfl | rfl <;> rfl

/-! ## Strings and comments -/

theorem apart_quoted (hq : isStop q = true) (h : Stops (quoted q) r [q]) :
    Apart (quoted q) r (d :: x) := by
  fun_induction quoted q r with
  | case1 => simp [Stops, Apart, quoted, Cut.none, Cut.append] at h
  | case2 r =>
    rw [Apart, List.cons_append, quoted, if_pos rfl, quoted, if_pos rfl]
    rfl
  | case3 c r hc hn =>
    rw [Apart, List.cons_append, quoted, quoted, if_neg hc, if_pos hn, if_neg hc, if_pos hn]
    rfl
  | case4 r hc hn ih =>
    have hstep (s : List Char) :
        quoted q ('\\' :: s) = Cut.cons '\\' ((covered s).andThen (quoted q)) := by
      rw [quoted, if_neg hc, if_neg hn, if_pos rfl]
      rfl
    by_cases hr : r = []
    · subst hr
      have hcovered : covered [q] = ([q], []) := by
        rcases isStop_iff.1 hq with rfl | rfl | rfl | rfl <;> rfl
      have hopen : (covered []).2 = [] := rfl
      simp [Stops, Apart, hstep, hcovered, Cut.andThen, quoted, Cut.cons, Cut.none, Cut.append,
        hopen] at h
    · exact h.apart_of_cons (hstep r) (hstep _) (hstep _) (apart_covered hq hr) (apart_covered hd hr) ih
  | case5 c r hc hn hb ih =>
    have hstep (s : List Char) : quoted q (c :: s) = Cut.cons c (quoted q s) := by
      rw [quoted, if_neg hc, if_neg hn, if_neg hb]
    exact h.apart_of_step hstep ih

theorem apart_comment (h : Stops comment r ['*', '/']) : Apart comment r (d :: x) := by
  fun_induction comment r with
  | case1 r => rfl
  | case2 c r hr ih =>
    have hhead : c = '*' → r.head? ≠ some '/' := by
      rintro rfl hslash
      obtain ⟨r, rfl⟩ := List.head?_eq_some_iff.1 hslash
      exact hr r rfl rfl
    have hbehind {d : Char} (hd : d ≠ '/') (x : List Char) :
        comment (c :: (r ++ d :: x)) = Cut.cons c ((Cut.none (r ++ d :: x)).andThen comment) :=
      comment_cons fun hc => head?_append_ne (hhead hc) hd
    refine h.apart_of_cons (comment_cons hhead) (hbehind (by decide) _) (hbehind ?_ x) rfl rfl ih
    rintro rfl
    cases hd
  | case3 => simp [Stops, Apart, comment, Cut.none, Cut.append] at h

/-! ## Addresses -/

omit hd in
theorem apart_badUrl (h : Stops badUrl r [')']) : Apart badUrl r t := by
  fun_induction badUrl r with
  | case1 => simp [Stops, Apart, badUrl, Cut.none, Cut.append] at h
  | case2 r ih => exact h.apart_of_cons (f := fun s => (s.take 1, s.drop 1)) rfl rfl rfl rfl rfl ih
  | case3 r ih => exact h.apart_of_cons (f := fun s => (s.take 1, s.drop 1)) rfl rfl rfl rfl rfl ih
  | case4 r => rfl
  | case5 c r hround hback hc ih =>
    by_cases hopen : c = '\\' ∧ r = []
    · obtain ⟨rfl, rfl⟩ := hopen
      simp [Stops, Apart, badUrl, Cut.cons, Cut.none, Cut.append] at h
    · have hstep (t : List Char) :
          badUrl (c :: (r ++ t)) = Cut.cons c ((Cut.none (r ++ t)).andThen badUrl) := by
        refine badUrl_cons hc fun hb => ?_
        cases r with
        | nil => exact absurd ⟨hb, rfl⟩ hopen
        | cons a r =>
          simp only [List.cons_append, List.head?_cons, ne_eq, Option.some.injEq]
          exact ⟨fun ha => hround r hb (by rw [ha]), fun ha => hback r hb (by rw [ha])⟩
      exact h.apart_of_cons (by simpa using hstep []) (hstep _) (hstep _) rfl rfl ih

omit hd in
theorem apart_urlEnd (h : Stops urlEnd r [')']) : Apart urlEnd r t := by
  fun_induction urlEnd r with
  | case1 => simp [Stops, Apart, urlEnd, Cut.none, Cut.append] at h
  | case2 r => rfl
  | case3 c r hc hspace ih =>
    have hstep (s : List Char) : urlEnd (c :: s) = Cut.cons c (urlEnd s) := by
      rw [urlEnd, if_neg hc, if_pos hspace]
    exact h.apart_of_step hstep ih
  | case4 c r hc hspace =>
    have hstep (s : List Char) : urlEnd (c :: s) = Cut.cons c (badUrl s) := by
      rw [urlEnd, if_neg hc, if_neg hspace]
    exact h.apart_of_step hstep apart_badUrl

theorem apart_urlBody (h : Stops urlBody r [')']) : Apart urlBody r (d :: x) := by
  fun_induction urlBody r with
  | case1 => simp [Stops, Apart, urlBody, Cut.none, Cut.append] at h
  | case2 r =>
    rw [Apart, List.cons_append, urlBody, if_pos rfl, urlBody, if_pos rfl]
    rfl
  | case3 c r hc hspace =>
    have hstep (s : List Char) : urlBody (c :: s) = urlEnd (c :: s) := by
      rw [urlBody, if_neg hc, if_pos hspace]
    exact h.apart_of_eq (hstep _) (hstep _) (hstep _) apart_urlEnd
  | case4 c r hc hspace hbad =>
    have hstep (s : List Char) : urlBody (c :: s) = Cut.cons c (badUrl s) := by
      rw [urlBody, if_neg hc, if_neg hspace, if_pos hbad]
    exact h.apart_of_step hstep apart_badUrl
  | case5 r he _ _ _ ih =>
    refine apart_of_escape hd (fun hs => ?_) (by rw [urlBody]) he h ih
    rw [urlBody, if_neg (by decide), if_neg (by decide), if_neg (by decide), if_pos rfl, if_pos hs]
    rfl
  | case6 r he =>
    have hstep {s : List Char} (hs : escapable s = false) :
        urlBody ('\\' :: s) = Cut.cons '\\' ((Cut.none s).andThen badUrl) := by
      rw [urlBody, if_neg (by decide), if_neg (by decide), if_neg (by decide), if_pos rfl,
        if_neg (by simp [hs])]
      rfl
    have he : escapable r = false := by simpa using he
    exact h.apart_of_cons (hstep he) (hstep (by rwa [escapable_append_stop rfl]))
      (hstep (by rwa [escapable_append_stop hd])) rfl rfl apart_badUrl
  | case7 c r hc hspace hbad hb ih =>
    have hstep (s : List Char) : urlBody (c :: s) = Cut.cons c (urlBody s) := by
      rw [urlBody, if_neg hc, if_neg hspace, if_neg hbad, if_neg hb]
    exact h.apart_of_step hstep ih

theorem apart_url (h : Stops url r [')']) : Apart url r (d :: x) := by
  have hm : Apart (Cut.spanning isSpace) r [')'] := apart_spanning rfl r
  have hbody := Stops.of_andThen h hm
  exact Apart.andThen (apart_spanning (not_isSpace_of_isStop hd) r) (apart_urlBody hd hbody)

/-! ## Numbers -/

theorem startsDigits_append_stop (r : List Char) : startsDigits (r ++ d :: x) = startsDigits r := by
  rcases r with _ | ⟨a, _ | ⟨b, r⟩⟩
  · cases x <;> rcases isStop_iff.1 hd with rfl | rfl | rfl | rfl <;> rfl
  · by_cases ha : a = '.'
    · subst ha
      rcases isStop_iff.1 hd with rfl | rfl | rfl | rfl <;> rfl
    · simp [startsDigits, ha]
  · by_cases ha : a = '.'
    · subst ha
      rfl
    · simp [startsDigits, ha]

theorem apart_fraction (r : List Char) : Apart fraction r (d :: x) := by
  have hdigit := not_isDigit_of_isStop hd
  rcases r with _ | ⟨c, _ | ⟨c', r⟩⟩
  · rcases isStop_iff.1 hd with rfl | rfl | rfl | rfl <;> rfl
  · by_cases hc : c = '.'
    · subst hc
      simp [Apart, fraction, hdigit]
    · simp [Apart, fraction, hc]
  · by_cases hc : c = '.'
    · subst hc
      simp only [Apart, List.cons_append, fraction]
      split
      · exact congrArg (Cut.cons '.') (apart_spanning hdigit (c' :: r))
      · rfl
    · simp [Apart, fraction, hc]

theorem apart_exponent (r : List Char) : Apart exponent r (d :: x) := by
  have hdigit := not_isDigit_of_isStop hd
  unfold Apart
  rcases r with _ | ⟨e, _ | ⟨c, r⟩⟩
  · cases x with
    | nil => rfl
    | cons c x => rcases isStop_iff.1 hd with rfl | rfl | rfl | rfl <;> rfl
  · have hsign : isSign d = false := by rcases isStop_iff.1 hd with rfl | rfl | rfl | rfl <;> rfl
    simp only [List.cons_append, List.nil_append, exponent, hdigit, hsign]
    split <;> rfl
  · simp only [List.cons_append, exponent, any_head?_append hdigit]
    split
    · split
      · exact congrArg (Cut.cons e) (apart_spanning hdigit (c :: r))
      split
      · exact congrArg (fun k => Cut.cons e (Cut.cons c k)) (apart_spanning hdigit r)
      · rfl
    · rfl

theorem apart_unit (h : Stops unit r [')']) : Apart unit r (d :: x) := by
  by_cases hpercent : r.head? = some '%'
  · obtain ⟨r, rfl⟩ := List.head?_eq_some_iff.1 hpercent
    rfl
  have hunit {t : List Char} (ht : t.head? ≠ some '%') :
      unit t = if startsName t then name t else Cut.none t := by
    rw [unit.eq_def]
    split
    · simp at ht
    · rfl
  have hbehind {d : Char} (hd : isStop d = true) (x : List Char) :
      unit (r ++ d :: x) = if startsName r then name (r ++ d :: x) else Cut.none (r ++ d :: x) := by
    rw [hunit (head?_append_ne hpercent ?_), startsName_append_stop hd]
    rintro rfl
    cases hd
  exact apart_name_or_none hd h (hunit hpercent) (hbehind (d := ')') rfl []) (hbehind hd x)

theorem apart_decimals (h : Stops decimals r [')']) : Apart decimals r (d :: x) := by
  have hexponent {d : Char} (hd : isStop d = true) (x : List Char) :
      Apart (fun s => (digits s).andThen exponent) r (d :: x) :=
    Apart.andThen (apart_spanning (not_isDigit_of_isStop hd) r) (apart_exponent hd _)
  exact (hexponent hd x).andThen (apart_unit hd (h.of_andThen (hexponent (d := ')') rfl [])))

theorem apart_number (h : Stops number r [')']) : Apart number r (d :: x) := by
  have hexponent {d : Char} (hd : isStop d = true) (x : List Char) :
      Apart (fun s => ((digits s).andThen fraction).andThen exponent) r (d :: x) :=
    Apart.andThen (Apart.andThen (apart_spanning (not_isDigit_of_isStop hd) r)
      (apart_fraction hd _)) (apart_exponent hd _)
  exact (hexponent hd x).andThen (apart_unit hd (h.of_andThen (hexponent (d := ')') rfl [])))

end Stop

end AtomicCss.Css
