import AtomicCss.Text
import AtomicCss.Value

/-!
# Declaration blocks

A block is an ordered list of declarations. Setting a property that the block has replaces its
value in place, and otherwise appends, so the last write wins and positions are stable.

The properties of a block are normalized and differ from each other; both facts are part of the
type, and setting a property keeps them.
-/

namespace AtomicCss

/-! ### Properties -/

/-- One character of a property in kebab case. -/
def kebabChar (c : Char) : List Char := if c.isUpper then ['-', c.toLower] else [c]

/-- Writes trimmed characters in kebab case. Custom properties keep their spelling. -/
def normalizeChars (cs : List Char) : List Char :=
  if ['-', '-'].isPrefixOf cs then cs else cs.flatMap kebabChar

/-- Writes a camel-case property in kebab case. -/
def normalizeProperty (name : String) : String :=
  String.ofList (normalizeChars (Text.trim name.toList))

theorem toNat_of_isUpper {c : Char} (h : c.isUpper = true) :
    65 ≤ c.toNat ∧ c.toNat ≤ 90 ∧ c.toLower.toNat = c.toNat + 32 := by
  have hc : c.val ≥ 'A'.val ∧ c.val ≤ 'Z'.val := of_decide_eq_true h
  have h1 : 65 ≤ c.val.toNat := hc.1
  have h2 : c.val.toNat ≤ 90 := hc.2
  refine ⟨h1, h2, ?_⟩
  unfold Char.toLower
  rw [dif_pos hc]
  show (c.val + 32).toNat = c.val.toNat + 32
  rw [UInt32.toNat_add]
  exact Nat.mod_eq_of_lt (by show c.val.toNat + 32 < 4294967296; omega)

theorem isUpper_toLower {c : Char} (h : c.isUpper = true) : c.toLower.isUpper = false := by
  rw [Bool.eq_false_iff]
  intro hu
  have hc := toNat_of_isUpper h
  have hl := toNat_of_isUpper hu
  omega

theorem isBlank_toLower {c : Char} (h : c.isUpper = true) : Text.isBlank c.toLower = false := by
  have hc := toNat_of_isUpper h
  simp [Text.isBlank]
  omega

theorem not_isUpper_of_mem_kebabChar {c x : Char} (h : x ∈ kebabChar c) : x.isUpper = false := by
  by_cases hc : c.isUpper = true
  · simp only [kebabChar, hc, if_true, List.mem_cons, List.not_mem_nil, or_false] at h
    rcases h with rfl | rfl
    · decide
    · exact isUpper_toLower hc
  · simp only [kebabChar, hc, Bool.false_eq_true, if_false, List.mem_singleton] at h
    rw [h]
    simpa using hc

/-- Kebab case changes nothing where there is no capital. -/
theorem flatMap_kebabChar_eq_self {cs : List Char} (h : ∀ c ∈ cs, c.isUpper = false) :
    cs.flatMap kebabChar = cs := by
  induction cs with
  | nil => rfl
  | cons c cs ih =>
    rw [List.flatMap_cons, ih fun x hx => h x (List.mem_cons_of_mem _ hx), kebabChar,
      if_neg (by simp [h c List.mem_cons_self])]
    rfl

theorem normalizeChars_normalizeChars (cs : List Char) :
    normalizeChars (normalizeChars cs) = normalizeChars cs := by
  by_cases hc : ['-', '-'].isPrefixOf cs = true
  · simp [normalizeChars, hc]
  · rw [normalizeChars, normalizeChars, if_neg hc]
    split
    · rfl
    · refine flatMap_kebabChar_eq_self fun x hx => ?_
      obtain ⟨c, -, hc⟩ := List.mem_flatMap.1 hx
      exact not_isUpper_of_mem_kebabChar hc

theorem head?_kebabChar (c : Char) :
    ∃ x, (kebabChar c).head? = some x ∧ (Text.isBlank c = false → Text.isBlank x = false) := by
  by_cases hc : c.isUpper = true
  · exact ⟨'-', by simp [kebabChar, hc], fun _ => by decide⟩
  · exact ⟨c, by simp [kebabChar, hc], id⟩

theorem getLast?_kebabChar (c : Char) :
    ∃ x, (kebabChar c).getLast? = some x ∧ (Text.isBlank c = false → Text.isBlank x = false) := by
  by_cases hc : c.isUpper = true
  · exact ⟨c.toLower, by simp [kebabChar, hc], fun _ => isBlank_toLower hc⟩
  · exact ⟨c, by simp [kebabChar, hc], id⟩

/-- Normalizing puts no blanks at the ends of a text. -/
theorem trim_normalizeChars (s : List Char) :
    Text.trim (normalizeChars (Text.trim s)) = normalizeChars (Text.trim s) := by
  rw [normalizeChars]
  split
  · exact Text.trim_trim s
  · refine Text.trim_eq_self (fun x hx => ?_) (fun x hx => ?_)
    · cases hs : Text.trim s with
      | nil => simp [hs] at hx
      | cons c cs =>
        obtain ⟨y, hy, hb⟩ := head?_kebabChar c
        rw [hs, List.flatMap_cons, List.head?_append, hy] at hx
        exact Option.some.inj hx ▸ hb (Text.head?_trim (s := s) (by rw [hs]; rfl))
    · cases hs : (Text.trim s).getLast? with
      | none => simp [List.getLast?_eq_none_iff.1 hs] at hx
      | some c =>
        obtain ⟨cs, hcs⟩ := List.getLast?_eq_some_iff.1 hs
        obtain ⟨y, hy, hb⟩ := getLast?_kebabChar c
        rw [hcs, List.flatMap_append, List.flatMap_cons, List.flatMap_nil, List.append_nil,
          List.getLast?_append, hy] at hx
        exact Option.some.inj hx ▸ hb (Text.getLast?_trim hs)

theorem normalizeProperty_normalizeProperty (name : String) :
    normalizeProperty (normalizeProperty name) = normalizeProperty name := by
  simp only [normalizeProperty, String.toList_ofList, trim_normalizeChars,
    normalizeChars_normalizeChars]

/-! ### Lists of declarations -/

/-- One property with its value. -/
structure Declaration where
  property : String
  value : Value
  deriving DecidableEq, Repr

/-- What setting a property did. -/
inductive SetOutcome where
  | inserted
  | unchanged
  | overridden (old : Value)
  deriving DecidableEq, Repr

namespace Block

/-- Sets an already normalized property in a list of declarations. -/
def put (property : String) (value : Value) : List Declaration → List Declaration × SetOutcome
  | [] => ([⟨property, value⟩], .inserted)
  | d :: ds =>
    if d.property = property then
      (⟨property, value⟩ :: ds, if d.value = value then .unchanged else .overridden d.value)
    else
      let (ds', outcome) := put property value ds
      (d :: ds', outcome)

/-- Setting a property keeps the properties and their order; a new one stands at the end. -/
theorem map_property_put (property : String) (value : Value) (ds : List Declaration) :
    (put property value ds).1.map (·.property) =
      if property ∈ ds.map (·.property) then ds.map (·.property)
      else ds.map (·.property) ++ [property] := by
  induction ds with
  | nil => rfl
  | cons d ds ih =>
    by_cases hd : d.property = property
    · simp [put, hd]
    · simp only [put, hd, if_false, List.map_cons, ih, List.mem_cons, Ne.symm hd, false_or]
      split <;> rfl

theorem mem_map_property_put {property p : String} {value : Value} {ds : List Declaration}
    (h : p ∈ (put property value ds).1.map (·.property)) :
    p ∈ ds.map (·.property) ∨ p = property := by
  rw [map_property_put] at h
  split at h
  · exact .inl h
  · simpa using h

theorem nodup_put (property : String) (value : Value) {ds : List Declaration}
    (h : (ds.map (·.property)).Nodup) : ((put property value ds).1.map (·.property)).Nodup := by
  rw [map_property_put]
  split
  · exact h
  · rename_i hp
    refine List.nodup_append.2 ⟨h, by simp, fun a ha b hb => ?_⟩
    rintro rfl
    exact hp (List.mem_singleton.1 hb ▸ ha)

end Block

/-! ### Blocks -/

/-- Declarations in the order in which their properties were first set. -/
structure Block where
  declarations : List Declaration
  normalized : ∀ p ∈ declarations.map (·.property), normalizeProperty p = p
  distinct : (declarations.map (·.property)).Nodup
  deriving DecidableEq

namespace Block

def empty : Block := ⟨[], by simp, by simp⟩

instance : EmptyCollection Block := ⟨empty⟩
instance : Inhabited Block := ⟨empty⟩
instance : Repr Block := ⟨fun b n => reprPrec b.declarations n⟩

@[ext] theorem ext {b c : Block} (h : b.declarations = c.declarations) : b = c := by
  cases b
  cases c
  cases h
  rfl

/-- Sets a property: in place if the block has it, at the end otherwise. -/
def set (b : Block) (property : String) (value : Value) : Block × SetOutcome :=
  let written := put (normalizeProperty property) value b.declarations
  (⟨written.1, fun p hp => by
      rcases mem_map_property_put hp with h | rfl
      · exact b.normalized p h
      · exact normalizeProperty_normalizeProperty property,
    nodup_put _ _ b.distinct⟩, written.2)

/-- The block that results from setting each pair in turn. -/
def ofList (pairs : List (String × Value)) : Block :=
  pairs.foldl (fun b p => (b.set p.1 p.2).1) empty

/-- Sets the given declarations in turn; also lists the properties whose value was replaced. -/
def setAll (b : Block) : List Declaration → Block × List String
  | [] => (b, [])
  | d :: ds =>
    let (b', outcome) := b.set d.property d.value
    let (b'', overridden) := b'.setAll ds
    match outcome with
    | .overridden _ => (b'', d.property :: overridden)
    | _ => (b'', overridden)

/-- Sets every declaration of `other`; also lists the properties whose value was replaced. -/
def merge (b other : Block) : Block × List String :=
  b.setAll other.declarations

/-- The value of a property, under any of its spellings. -/
def get? (b : Block) (property : String) : Option Value :=
  (b.declarations.find? (·.property = normalizeProperty property)).map (·.value)

def size (b : Block) : Nat := b.declarations.length

def isEmpty (b : Block) : Bool := b.declarations.isEmpty

end Block

end AtomicCss
