import AtomicCss.Block

/-!
# Utilities

A utility turns each entry of a table into a class of its own: the suffix and the value of the
entry give the class its name and its declarations.
-/

namespace AtomicCss

namespace ValueTable

/-- Sets the value of a suffix: in place if it is there, at the end otherwise. -/
def put (suffix : String) (value : Value) : List (String × Value) → List (String × Value)
  | [] => [(suffix, value)]
  | e :: es => if e.1 = suffix then (suffix, value) :: es else e :: put suffix value es

/-- Setting a value keeps the suffixes and their order; a new one stands at the end. -/
theorem map_fst_put (suffix : String) (value : Value) (es : List (String × Value)) :
    (put suffix value es).map (·.1) =
      if suffix ∈ es.map (·.1) then es.map (·.1) else es.map (·.1) ++ [suffix] := by
  induction es with
  | nil => rfl
  | cons e es ih =>
    by_cases he : e.1 = suffix
    · simp [put, he]
    · simp only [put, he, if_false, List.map_cons, ih, List.mem_cons, Ne.symm he, false_or]
      split <;> rfl

theorem nodup_put (suffix : String) (value : Value) {es : List (String × Value)}
    (h : (es.map (·.1)).Nodup) : ((put suffix value es).map (·.1)).Nodup := by
  rw [map_fst_put]
  split
  · exact h
  · rename_i hs
    refine List.nodup_append.2 ⟨h, by simp, fun a ha b hb => ?_⟩
    rintro rfl
    exact hs (List.mem_singleton.1 hb ▸ ha)

end ValueTable

/-- Values by suffix, in the order in which the suffixes were first given. -/
structure ValueTable where
  entries : List (String × Value)
  distinct : (entries.map (·.1)).Nodup
  deriving DecidableEq

namespace ValueTable

def empty : ValueTable := ⟨[], by simp⟩

instance : EmptyCollection ValueTable := ⟨empty⟩

/-- Sets the value of a suffix: in place if the table has it, at the end otherwise. -/
def insert (t : ValueTable) (suffix : String) (value : Value) : ValueTable :=
  ⟨put suffix value t.entries, nodup_put suffix value t.distinct⟩

/-- The table that results from setting each pair in turn. -/
def ofList (pairs : List (String × Value)) : ValueTable :=
  pairs.foldl (fun t p => t.insert p.1 p.2) empty

def get? (t : ValueTable) (suffix : String) : Option Value :=
  (t.entries.find? (·.1 = suffix)).map (·.2)

def position? (t : ValueTable) (suffix : String) : Option Nat :=
  t.entries.findIdx? (·.1 = suffix)

def size (t : ValueTable) : Nat := t.entries.length

def isEmpty (t : ValueTable) : Bool := t.entries.isEmpty

/-- The position at which a suffix stands once it is set. -/
def ordinal (t : ValueTable) (suffix : String) : Nat :=
  (t.position? suffix).getD t.size

end ValueTable

/-- The suffix whose class has no suffix in its name. -/
def defaultSuffix : String := "default"

def className (stem suffix : String) : String :=
  if suffix = defaultSuffix then stem else stem ++ ":" ++ suffix

/-- A named family of classes, one for each entry of a table. -/
structure Utility where
  name : String
  /-- What the classes' names start with. -/
  stem : String
  /-- The table that is used where none is given. -/
  defaults : ValueTable
  /-- The declarations of the class for a suffix and its value. -/
  style : String → Value → Block

namespace Utility

/-- A utility whose classes start with its name, and which has no table of its own. -/
def new (name : String) (style : String → Value → Block) : Utility := ⟨name, name, ∅, style⟩

/-- The utility that sets one property to the table's value. -/
def ofProperty (name property : String) : Utility :=
  new name fun _ value => Block.ofList [(property, value)]

/-- The utility with classes that start with another text. -/
def withStem (u : Utility) (stem : String) : Utility := { u with stem }

/-- The utility with a table for uses that bring none. -/
def withDefaults (u : Utility) (defaults : ValueTable) : Utility := { u with defaults }

def classOf (u : Utility) (suffix : String) : String := className u.stem suffix

end Utility

end AtomicCss
