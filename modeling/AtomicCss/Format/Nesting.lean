/-!
# Nested brackets

A text in brackets is read in one pass over its tokens. What stands between two brackets is kept
aside until the closing one comes, and is then turned into a single member of what stands around.

Main statement: `collapse_group`, a group in the middle of a text counts as the one member that
it is closed into.
-/

namespace AtomicCss.Nesting

/-- The sorts of brackets. -/
inductive Bracket where
  | square
  | curly
  deriving DecidableEq, Repr

/-- A bracket, or a member between brackets. -/
inductive Token (α : Type) where
  | opening (b : Bracket)
  | closing (b : Bracket)
  | member (a : α)
  deriving Repr

/-- A bracket that is still open, with the members in front of it, last one first. -/
structure OpenGroup (α : Type) where
  bracket : Bracket
  front : List α

/-- The members of a text, once each group is closed by `close`. The groups in `stack` are open,
innermost one first, and `current` are the members since the last bracket, last one first. -/
def collapse (close : Bracket → List α → Option α) (stack : List (OpenGroup α)) (current : List α) :
    List (Token α) → Option (List α)
  | [] => if stack.isEmpty then some current.reverse else none
  | .member a :: ts => collapse close stack (a :: current) ts
  | .opening b :: ts => collapse close (⟨b, current⟩ :: stack) [] ts
  | .closing b :: ts =>
    match stack with
    | [] => none
    | g :: gs =>
      if g.bracket = b then
        match close b current.reverse with
        | some a => collapse close gs (a :: g.front) ts
        | none => none
      else none

def members (close : Bracket → List α → Option α) (ts : List (Token α)) : Option (List α) :=
  collapse close [] [] ts

/-- A group whose inside collapses to `as`, and which is closed into `a`, counts as `a`. -/
theorem collapse_group {close : Bracket → List α → Option α} {b : Bracket} {inside : List (Token α)}
    {as : List α} {a : α}
    (h : ∀ stack current ts, collapse close stack current (inside ++ ts) =
      collapse close stack (as.reverse ++ current) ts)
    (hclose : close b as = some a) (stack : List (OpenGroup α)) (current : List α)
    (ts : List (Token α)) :
    collapse close stack current (.opening b :: inside ++ .closing b :: ts) =
      collapse close stack (a :: current) ts := by
  simp [collapse, h, hclose]

end AtomicCss.Nesting
