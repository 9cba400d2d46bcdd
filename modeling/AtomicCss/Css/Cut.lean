/-!
# Cuts

Every scanner returns a *cut* of its input: what it reads and what is left. `Cut.Of` says that
nothing is lost on the way, and the combinators keep it.
-/

namespace AtomicCss.Css

/-- What a scanner reads, and what it leaves. -/
abbrev Cut := List Char × List Char

namespace Cut

def none (s : List Char) : Cut := ([], s)

/-- One more character in front of what is read. -/
def cons (c : Char) (k : Cut) : Cut := (c :: k.1, k.2)

/-- Goes on with `next` where `k` stopped. -/
def andThen (k : Cut) (next : List Char → Cut) : Cut :=
  (k.1 ++ (next k.2).1, (next k.2).2)

/-- The longest beginning whose characters satisfy `p`. -/
def spanning (p : Char → Bool) (s : List Char) : Cut := (s.takeWhile p, s.dropWhile p)

/-- `k` is a cut of `s`: putting its two sides together gives `s` back. -/
def Of (s : List Char) (k : Cut) : Prop := k.1 ++ k.2 = s

theorem of_cons {c : Char} {s : List Char} {k : Cut} (h : Of s k) : Of (c :: s) (cons c k) := by
  simpa [Of, cons] using h

theorem of_andThen {s : List Char} {k : Cut} {next : List Char → Cut}
    (h : Of s k) (hn : ∀ t, Of t (next t)) : Of s (k.andThen next) := by
  have := hn k.2
  simp only [Of, andThen] at *
  rw [List.append_assoc, this, h]

theorem of_spanning (p : Char → Bool) (s : List Char) : Of s (spanning p s) := by
  simp [Of, spanning]

theorem length_le {s : List Char} {k : Cut} (h : Of s k) : k.2.length ≤ s.length := by
  rw [← h]; simp

end Cut

end AtomicCss.Css
