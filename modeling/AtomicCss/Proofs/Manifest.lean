import AtomicCss.Manifest.Coding
import AtomicCss.Proofs.Format.Json
import Mathlib.Data.List.Induction

/-!
# Reading manifests back

A manifest is written as JSON and read back by the keys of its fields. Its defaults are written in
ascending order and read by setting one after the other, which gives the same list. Nothing in a
manifest is refused: it holds no numbers, and none of its exports is nested too deeply.

Main statement: the text of a manifest stands for that manifest (`ofJson?_toJson`).
-/

namespace AtomicCss

namespace DefaultOptions

/-- An option for a dimension behind all others is placed at the end. -/
theorem place_eq_append {dimension option : String} {es : List (String × String)}
    (h : ∀ e ∈ es, e.1 < dimension) : place dimension option es = es ++ [(dimension, option)] := by
  induction es with
  | nil => rfl
  | cons e es ih =>
    obtain ⟨he, hes⟩ := List.forall_mem_cons.1 h
    have hlt : ¬ dimension < e.1 := String.lt_asymm he
    have hne : dimension ≠ e.1 := by
      rintro rfl
      exact String.lt_irrefl _ he
    rw [place, if_neg hlt, if_neg hne, ih hes]
    rfl

theorem pairs_ofList {pairs : List (String × String)} (h : pairs.Pairwise fun a b => a.1 < b.1) :
    (ofList pairs).pairs = pairs := by
  induction pairs using List.reverseRecOn with
  | nil => rfl
  | append_singleton pairs p ih =>
    obtain ⟨hpairs, -, hp⟩ := List.pairwise_append.1 h
    rw [ofList, List.foldl_append, ← ofList]
    simp only [List.foldl_cons, List.foldl_nil, insert]
    rw [ih hpairs]
    exact place_eq_append fun e he => hp e he p (List.mem_singleton.2 rfl)

theorem eq_of_pairs_eq {d d' : DefaultOptions} (h : d.pairs = d'.pairs) : d = d' := by
  cases d
  cases d'
  cases h
  rfl

/-- Setting ascending pairs in turn gives them back. -/
theorem ofList_pairs (d : DefaultOptions) : ofList d.pairs = d :=
  eq_of_pairs_eq (pairs_ofList d.ascending)

end DefaultOptions

namespace Manifest

/-! ## Field by field -/

theorem decodeClass_encodeClass (c : ManifestClass) : decodeClass (encodeClass c) = some c := by
  simp [decodeClass, encodeClass, encodeStrings, fields?, field?, decodeString]

theorem decodeClasses_encodeClasses (cs : List ManifestClass) :
    decodeList decodeClass (encodeClasses cs) = some cs :=
  Json.mapM_map fun c _ => decodeClass_encodeClass c

theorem decodeDimension_encodeDimension (d : ManifestDimension) :
    decodeDimension (encodeDimension d) = some d := by
  simp [decodeDimension, encodeDimension, fields?, field?, decodeString,
    decodeClasses_encodeClasses]

theorem mapM_decodeMember (pairs : List (String × String)) :
    (pairs.map fun (key, text) => (key, Json.string text)).mapM decodeMember = some pairs :=
  Json.mapM_map fun _ _ => rfl

theorem decodeDefaults_encodeStrings (d : DefaultOptions) :
    decodeDefaults (encodeStrings d.pairs) = some d := by
  rw [encodeStrings, decodeDefaults, mapM_decodeMember, Option.map_some, DefaultOptions.ofList_pairs]

theorem decodeExport_encodeExport (x : ManifestExport) :
    decodeExport (encodeExport x) = some x := by
  cases x with
  | selector name selector =>
    simp [decodeExport, encodeExport, encodeStrings, kindOf?, fields?, field?, decodeString]
  | «variable» name target value =>
    -- no value is written as null, and null is read as none
    cases value with
    | none =>
      simp [decodeExport, encodeExport, kindOf?, fields?, field?, decodeString, decodeOptional]
    | some text =>
      simp [decodeExport, encodeExport, kindOf?, fields?, field?, decodeString, decodeOptional]
  | utility name classes =>
    simp [decodeExport, encodeExport, kindOf?, fields?, field?, decodeString,
      decodeClasses_encodeClasses]
  | recipe name base variants compounds defaults =>
    have hvariants : decodeList decodeDimension (.array (variants.map encodeDimension)) =
        some variants := Json.mapM_map fun d _ => decodeDimension_encodeDimension d
    have hcompounds : decodeList decodeString (.array (compounds.map .string)) = some compounds :=
      Json.mapM_map fun _ _ => rfl
    simp [decodeExport, encodeExport, kindOf?, fields?, field?, decodeString, hvariants, hcompounds,
      decodeDefaults_encodeStrings]

/-! ## Nothing in a manifest is refused -/

theorem depth_encodeStrings (pairs : List (String × String)) : (encodeStrings pairs).depth = 1 := by
  rw [encodeStrings, Json.depth, Nat.add_eq_right]
  induction pairs with
  | nil => rfl
  | cons p pairs ih => simpa [Json.depthOfMembers, Json.depth] using ih

theorem numerals_encodeStrings (pairs : List (String × String)) :
    (encodeStrings pairs).numerals = [] := by
  rw [encodeStrings, Json.numerals]
  induction pairs with
  | nil => rfl
  | cons p pairs ih => simpa [Json.numeralsOfMembers, Json.numerals] using ih

theorem depth_encodeClasses (cs : List ManifestClass) : (encodeClasses cs).depth ≤ 2 := by
  have hitems : Json.depthOfItems (cs.map encodeClass) ≤ 1 :=
    Json.depthOfItems_map_le fun c _ => (depth_encodeStrings _).le
  rw [encodeClasses, Json.depth]
  omega

theorem numerals_encodeClasses (cs : List ManifestClass) : (encodeClasses cs).numerals = [] :=
  Json.numeralsOfItems_map fun _ _ => numerals_encodeStrings _

theorem depth_encodeDimension (d : ManifestDimension) : (encodeDimension d).depth ≤ 3 := by
  have hoptions := depth_encodeClasses d.options
  simp only [encodeDimension, Json.depth, Json.depthOfMembers]
  omega

theorem numerals_encodeDimension (d : ManifestDimension) : (encodeDimension d).numerals = [] := by
  simp [encodeDimension, Json.numerals, Json.numeralsOfMembers, numerals_encodeClasses]

theorem depth_encodeExport (x : ManifestExport) : (encodeExport x).depth ≤ 5 := by
  cases x with
  | selector name selector =>
    rw [encodeExport, depth_encodeStrings]
    decide
  | «variable» name target value =>
    cases value <;> simp [encodeExport, Json.depth, Json.depthOfMembers]
  | utility name classes =>
    have hclasses := depth_encodeClasses classes
    simp only [encodeExport, Json.depth, Json.depthOfMembers]
    omega
  | recipe name base variants compounds defaults =>
    have hvariants : Json.depthOfItems (variants.map encodeDimension) ≤ 3 :=
      Json.depthOfItems_map_le fun d _ => depth_encodeDimension d
    have hcompounds : Json.depthOfItems (compounds.map .string : List (Json String)) ≤ 0 :=
      Json.depthOfItems_map_le fun c _ => Nat.le_refl 0
    have hdefaults := depth_encodeStrings defaults.pairs
    simp only [encodeExport, Json.depth, Json.depthOfMembers]
    omega

theorem numerals_encodeExport (x : ManifestExport) : (encodeExport x).numerals = [] := by
  cases x with
  | selector name selector => exact numerals_encodeStrings _
  | «variable» name target value =>
    cases value <;> simp [encodeExport, Json.numerals, Json.numeralsOfMembers]
  | utility name classes =>
    simp [encodeExport, Json.numerals, Json.numeralsOfMembers, numerals_encodeClasses]
  | recipe name base variants compounds defaults =>
    have hvariants : Json.numeralsOfItems (variants.map encodeDimension) = [] :=
      Json.numeralsOfItems_map fun d _ => numerals_encodeDimension d
    have hcompounds : Json.numeralsOfItems (compounds.map .string : List (Json String)) = [] :=
      Json.numeralsOfItems_map fun _ _ => rfl
    simp [encodeExport, Json.numerals, Json.numeralsOfMembers, hvariants, hcompounds,
      numerals_encodeStrings]

theorem numerals_encode (m : Manifest) : m.encode.numerals = [] := by
  have hexports : Json.numeralsOfItems (m.exports.map encodeExport) = [] :=
    Json.numeralsOfItems_map fun x _ => numerals_encodeExport x
  simp [encode, Json.numerals, Json.numeralsOfMembers, hexports]

theorem decodeRawExport_raw (x : ManifestExport) :
    decodeRawExport (encodeExport x).raw = some x := by
  have hdepth : (encodeExport x).raw.depth ≤ maxDepth := by
    rw [Json.depth_raw]
    exact Nat.le_trans (depth_encodeExport x) (by decide)
  have hchecked : (encodeExport x).raw.checked? = some (encodeExport x) :=
    Json.checked?_raw _ (by simp [numerals_encodeExport])
  rw [decodeRawExport, if_pos hdepth, hchecked, Option.bind_some, decodeExport_encodeExport]

theorem decode_raw (m : Manifest) : decode m.encode.raw = some m := by
  have hexports : decodeList decodeRawExport (.array (Json.rawItems (m.exports.map encodeExport))) =
      some m.exports := by
    rw [Json.rawItems_eq_map, List.map_map]
    exact Json.mapM_map fun x _ => decodeRawExport_raw x
  simp [decode, encode, Json.raw, Json.rawMembers, fields?, field?, hexports]

/-- The main result: the text of a manifest is a JSON text of its value, and from this text the same
manifest is read back. -/
theorem ofJson?_toJson (m : Manifest) :
    (Json.read? m.toJson).bind Json.checked? = some m.encode ∧ ofJson? m.toJson = some m := by
  have hread : Json.read? m.toJson = some m.encode.raw :=
    Json.read?_pretty _ (by simp [numerals_encode])
  have hchecked : m.encode.raw.checked? = some m.encode :=
    Json.checked?_raw _ (by simp [numerals_encode])
  constructor
  · rw [hread, Option.bind_some, hchecked]
  · rw [ofJson?, hread, Option.bind_some, decode_raw]

end Manifest

end AtomicCss
