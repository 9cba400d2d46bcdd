import AtomicCss.Format.Json.Printer
import AtomicCss.Format.Json.Reader
import AtomicCss.Manifest.Basic

/-!
# Manifests as JSON

A manifest is written as an object of objects, with the kind of an export in front of its fields.
When it is read, a structure may also be given as the array of its fields, unknown fields are
passed over, and a missing value of a variable means that there is none.
-/

namespace AtomicCss.Manifest

/-! ### Writing -/

def encodeStrings (pairs : List (String × String)) : Json String :=
  .object (pairs.map fun (key, text) => (key, .string text))

def encodeClass (c : ManifestClass) : Json String :=
  encodeStrings [("key", c.key), ("class", c.className)]

def encodeClasses (cs : List ManifestClass) : Json String := .array (cs.map encodeClass)

def encodeDimension (d : ManifestDimension) : Json String :=
  .object [("name", .string d.name), ("options", encodeClasses d.options)]

def encodeExport : ManifestExport → Json String
  | .selector name selector =>
    encodeStrings [("kind", "selector"), ("name", name), ("selector", selector)]
  | .variable name target value =>
    .object [("kind", .string "variable"), ("name", .string name), ("variable", .string target),
      ("value", value.elim .null .string)]
  | .utility name classes =>
    .object [("kind", .string "utility"), ("name", .string name),
      ("classes", encodeClasses classes)]
  | .recipe name base variants compounds defaults =>
    .object [("kind", .string "recipe"), ("name", .string name), ("base", .string base),
      ("variants", .array (variants.map encodeDimension)),
      ("compounds", .array (compounds.map .string)), ("defaults", encodeStrings defaults.pairs)]

def encode (m : Manifest) : Json String :=
  .object [("name", .string m.name), ("exports", .array (m.exports.map encodeExport))]

def toJson (m : Manifest) : String := m.encode.pretty

/-! ### Reading -/

/-- The value of the only member with a key, `none` if there is no such member, and a failure if
there are several. -/
def field? [DecidableEq τ] (members : List (τ × Json τ)) (key : τ) : Option (Option (Json τ)) :=
  match members.filter (·.1 = key) with
  | [] => some none
  | [m] => some (some m.2)
  | _ => none

/-- The fields of a structure, in the order of `keys`. Fields of an object may be missing. -/
def fields? [DecidableEq τ] (keys : List τ) : Json τ → Option (List (Option (Json τ)))
  | .object members => keys.mapM (field? members)
  | .array items => if items.length = keys.length then some (items.map some) else none
  | _ => none

def decodeString : Json String → Option String
  | .string text => some text
  | _ => none

def decodeOptional : Json String → Option (Option String)
  | .null => some none
  | j => (decodeString j).map some

/-- An array of things that `f` reads. -/
def decodeList (f : Json τ → Option α) : Json τ → Option (List α)
  | .array items => items.mapM f
  | _ => none

def decodeClass (j : Json String) : Option ManifestClass := do
  match ← fields? ["key", "class"] j with
  | [some key, some className] => return ⟨← decodeString key, ← decodeString className⟩
  | _ => none

def decodeDimension (j : Json String) : Option ManifestDimension := do
  match ← fields? ["name", "options"] j with
  | [some name, some options] => return ⟨← decodeString name, ← decodeList decodeClass options⟩
  | _ => none

/-- A member whose value is a string. -/
def decodeMember (m : String × Json String) : Option (String × String) :=
  (decodeString m.2).map (m.1, ·)

/-- Default options; of several for one dimension the last one counts. -/
def decodeDefaults : Json String → Option DefaultOptions
  | .object members => (members.mapM decodeMember).map .ofList
  | _ => none

/-- The kind of an export, and what its other fields are in. -/
def kindOf? : Json String → Option (String × Json String)
  | .object members =>
    match members.filter (·.1 = "kind") with
    | [(_, .string kind)] => some (kind, .object (members.filter (·.1 ≠ "kind")))
    | _ => none
  | .array (.string kind :: items) => some (kind, .array items)
  | _ => none

def decodeExport (j : Json String) : Option ManifestExport := do
  let (kind, body) ← kindOf? j
  if kind = "selector" then
    match ← fields? ["name", "selector"] body with
    | [some name, some selector] => return .selector (← decodeString name) (← decodeString selector)
    | _ => none
  else if kind = "variable" then
    match ← fields? ["name", "variable", "value"] body with
    | [some name, some target, value] =>
      return .variable (← decodeString name) (← decodeString target)
        (← decodeOptional (value.getD .null))
    | _ => none
  else if kind = "utility" then
    match ← fields? ["name", "classes"] body with
    | [some name, some classes] =>
      return .utility (← decodeString name) (← decodeList decodeClass classes)
    | _ => none
  else if kind = "recipe" then
    match ← fields? ["name", "base", "variants", "compounds", "defaults"] body with
    | [some name, some base, some variants, some compounds, some defaults] =>
      return .recipe (← decodeString name) (← decodeString base)
        (← decodeList decodeDimension variants) (← decodeList decodeString compounds)
        (← decodeDefaults defaults)
    | _ => none
  else none

/-- The depth to which an export may be nested. -/
def maxDepth : Nat := 125

/-- An export as it was read. All of its strings have to be texts, also those in unknown fields. -/
def decodeRawExport (j : Json.Raw) : Option ManifestExport :=
  if j.depth ≤ maxDepth then j.checked?.bind decodeExport else none

/-- A manifest. Of its unknown fields, only the keys have to be texts. -/
def decode (j : Json.Raw) : Option Manifest := do
  if let .object members := j then
    if members.any (·.1.isNone) then failure
  match ← fields? [some "name", some "exports"] j with
  | [some (.string name), some exports] => return ⟨← name, ← decodeList decodeRawExport exports⟩
  | _ => none

/-- The manifest that a text stands for. -/
def ofJson? (s : String) : Option Manifest := (Json.read? s).bind decode

end AtomicCss.Manifest
