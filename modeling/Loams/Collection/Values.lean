/-
# Checking documents against a schema
-/

import Loams.Collection.Documents
import Mathlib.Data.Rat.Floor

namespace Loams.Collection

open Loams.Control Loams.Data Std

/-! ## Schemas -/

/-- The types of indexed fields. -/
inductive FieldKind
  | text | keyword | i64 | f64 | bool | date | uuid | json
  deriving DecidableEq

/-- A field of a schema. -/
structure FieldSpec where
  name : String
  /-- Where the value comes from; the empty path is the whole source. -/
  sourcePath : String
  kind : FieldKind
  /-- A value of the wrong type is skipped, not a violation. -/
  ignoreMalformed : Bool
  deriving DecidableEq

/-- A dense vector of a schema. -/
structure VectorSpec where
  name : String
  dim : ℕ
  deriving DecidableEq

/-- A sparse vector of a schema. -/
structure SparseVectorSpec where
  name : String
  deriving DecidableEq

/-- What a write does with paths of the source that no field maps. -/
inductive DynamicMapping
  /-- Such a write is refused. -/
  | strict
  /-- They live only in the source. -/
  | ignore
  /-- Fields are added for them first. -/
  | map
  deriving DecidableEq

/-- What a collection indexes. -/
structure CollectionSchema where
  fields : List FieldSpec
  vectors : List VectorSpec
  sparseVectors : List SparseVectorSpec
  dynamic : DynamicMapping
  deriving DecidableEq

namespace CollectionSchema

variable (schema : CollectionSchema)

/-- The field of this name. -/
def field (name : String) : Option FieldSpec :=
  schema.fields.find? (·.name == name)

/-- The vector of this name. -/
def vector (name : String) : Option VectorSpec :=
  schema.vectors.find? (·.name == name)

/-- The sparse vector of this name. -/
def sparseVector (name : String) : Option SparseVectorSpec :=
  schema.sparseVectors.find? (·.name == name)

/-- The schema under which records are applied: unmapped paths are ignored. -/
def lenient : CollectionSchema := { schema with dynamic := .ignore }

end CollectionSchema

/-! ## Extraction -/

namespace Value

mutual

/-- The values at the segments below a value; arrays are looked through. -/
def extractAt : Value → List String → List Value
  | .array items, segments => extractItems items segments
  | .object fields, segments =>
    if segments = [] then [.object fields]
    else
      let parts := extractors fields
      (List.range segments.length).flatMap fun k =>
        match parts.lookup (".".intercalate (segments.take (k + 1))) with
        | some extract => extract (segments.drop (k + 1))
        | none => []
  -- A scalar with segments left: the path does not exist here.
  | value, segments => if segments = [] then [value] else []

/-- What the items have at a path. -/
def extractItems : List Value → List String → List Value
  | [], _ => []
  | item :: items, segments => item.extractAt segments ++ extractItems items segments

/-- What each field gives for the segments below it. -/
def extractors : Fields → List (String × (List String → List Value))
  | [] => []
  | (key, value) :: rest => (key, fun segments => value.extractAt segments) :: extractors rest

end

end Value

/-- Resolves the segments against an object: every number of them may form a key. -/
def extractIn (fields : Fields) (segments : List String) : List Value :=
  (List.range segments.length).flatMap fun k =>
    match fields.lookup (".".intercalate (segments.take (k + 1))) with
    | some value => value.extractAt (segments.drop (k + 1))
    | none => []

/-- Every value at `path`, in document order. -/
def extract (source : Object) (path : String) : List Value :=
  if path = "" then [.object source.fields] else extractIn source.fields (segments path)

theorem lookup_extractors (fields : Fields) (key : String) :
    (Value.extractors fields).lookup key = (fields.lookup key).map Value.extractAt := by
  induction fields with
  | nil => simp [Value.extractors]
  | cons entry rest ih =>
    obtain ⟨key', value⟩ := entry
    rw [Value.extractors, List.lookup_cons, List.lookup_cons]
    cases key == key' with
    | true => rfl
    | false => exact ih

theorem extractAt_object {fields : Fields} {segments : List String} (h : segments ≠ []) :
    (Value.object fields).extractAt segments = extractIn fields segments := by
  rw [Value.extractAt, if_neg h, extractIn]
  apply congrArg (fun f => List.flatMap f (List.range segments.length))
  funext k
  rw [lookup_extractors]
  cases fields.lookup (".".intercalate (segments.take (k + 1))) <;> rfl

/-! ## Coercion -/

/-- A value as it is indexed. -/
inductive IndexValue
  | text (s : String)
  | keyword (s : String)
  | i64 (n : Int64)
  | f64 (x : Float64)
  | bool (b : Bool)
  | date (millis : Int64)
  | uuid (bytes : Vector UInt8 16)
  deriving DecidableEq

/-- The readers and writers of numbers, dates and texts that coercion rests on. -/
structure Scalars where
  jsonText : Value → String
  asF64 : Number → Float64
  parseI64 : String → Option Int64
  parseF64 : String → Option Float64
  /-- One of the date formats, in milliseconds since the epoch. -/
  parseDateTime : String → Option Int64
  parseUuid : String → Option (Vector UInt8 16)

/-- The name in messages. -/
def FieldKind.name : FieldKind → String
  | .text => "text"
  | .keyword => "keyword"
  | .i64 => "i64"
  | .f64 => "f64"
  | .bool => "bool"
  | .date => "date"
  | .uuid => "uuid"
  | .json => "json"

/-- How much of a value a message shows. -/
def maxShownValue : ℕ := 64

/-- The characters that fit a number of bytes. -/
def fitting : ℕ → List Char → List Char
  | _, [] => []
  | room, c :: rest => if c.utf8Size ≤ room then c :: fitting (room - c.utf8Size) rest else []

/-- The number if it is an `i64`. -/
def Number.asI64 : Number → Option Int64
  | .posInt n => if n.toNat < 2 ^ 63 then some (Int64.ofNat n.toNat) else none
  | .negInt n => some n
  | .float _ => none

/-- The number truncated toward zero, if that is in range. -/
def floatToI64 (x : Float64) : Option Int64 :=
  if x.magnitude < Float64.infinity then
    let whole := ⌊Float64.absValue x.magnitude⌋
    let truncated := if x.isNeg then -whole else whole
    if -2 ^ 63 ≤ truncated ∧ truncated < 2 ^ 63 then some (Int64.ofInt truncated) else none
  else none

/-- Only digits. -/
def isEpochMillis (s : String) : Bool := s ≠ "" && s.toList.all Char.isDigit

/-- The dates that fit 64 bits of nanoseconds. -/
def inDateRange (millis : Int64) : Option Int64 :=
  if -9223372036854 ≤ millis.toInt ∧ millis.toInt ≤ 9223372036854 then some millis else none

namespace Scalars

variable (scalars : Scalars)

/-- The value as text, cut when it is long. -/
def shown (value : Value) : String :=
  let text := scalars.jsonText value
  if text.utf8ByteSize ≤ maxShownValue then text
  else String.ofList (fitting maxShownValue text.toList) ++ "…"

/-- The message about a value of the wrong type. -/
def malformed (kind : FieldKind) (value : Value) : String :=
  s!"cannot index {scalars.shown value} as {kind.name}"

/-- A string as it is, any other value as JSON. -/
def scalarText : Value → String
  | .string s => s
  | other => scalars.jsonText other

/-- The number if it is finite. -/
def finiteF64 (x : Float64) : Option Float64 :=
  if x.magnitude < Float64.infinity then some x else none

/-- A date as milliseconds or as text. -/
def parseDateStr (s : String) : Option Int64 :=
  let millis := if isEpochMillis s then scalars.parseI64 s else scalars.parseDateTime s
  millis.bind inDateRange

/-- The date that a value stands for. -/
def parseDate : Value → Option Int64
  | .number n => n.asI64.bind inDateRange
  | .string s => scalars.parseDateStr s
  | _ => none

/-- One value as `kind`: nothing for null, an error when it is malformed. Objects and
arrays are malformed for every kind. -/
def coerce (kind : FieldKind) (value : Value) : Except String (Option IndexValue) :=
  let bad : Except String (Option IndexValue) := .error (scalars.malformed kind value)
  let orBad (found : Option IndexValue) : Except String (Option IndexValue) :=
    match found with
    | some v => .ok (some v)
    | none => bad
  match kind, value with
  | _, .null => .ok none
  | .json, _ => .error "a json field is indexed whole, not coerced"
  | _, .object _ => bad
  | _, .array _ => bad
  | .text, value => .ok (some (.text (scalars.scalarText value)))
  | .keyword, value => .ok (some (.keyword (scalars.scalarText value)))
  | .i64, .number n => orBad ((n.asI64.or (floatToI64 (scalars.asF64 n))).map .i64)
  | .i64, .string s =>
    orBad (((scalars.parseI64 s).or ((scalars.parseF64 s).bind floatToI64)).map .i64)
  | .f64, .number n => orBad ((finiteF64 (scalars.asF64 n)).map .f64)
  | .f64, .string s => orBad (((scalars.parseF64 s).bind finiteF64).map .f64)
  | .bool, .bool b => .ok (some (.bool b))
  | .bool, .string s =>
    if s = "true" then .ok (some (.bool true))
    else if s = "false" ∨ s = "" then .ok (some (.bool false))
    else bad
  | .date, value => orBad ((scalars.parseDate value).map .date)
  | .uuid, .string s => orBad ((scalars.parseUuid s).map .uuid)
  | _, _ => bad

end Scalars

/-! ## Unmapped paths -/

namespace Value

mutual

/-- The paths of the leaves below a value that stands at `path`. -/
def leafPaths (path : String) : Value → List String
  | .null => []
  | .array items => itemLeaves path items
  | .object fields => fieldLeaves path fields
  | _ => [path]

/-- The leaf paths of the items. -/
def itemLeaves (path : String) : List Value → List String
  | [] => []
  | item :: items => item.leafPaths path ++ itemLeaves path items

/-- The leaf paths of the fields. -/
def fieldLeaves (path : String) : Fields → List String
  | [] => []
  | (key, value) :: rest => value.leafPaths (path ++ "." ++ key) ++ fieldLeaves path rest

end

end Value

/-- The leaves of a source, by their paths. -/
def leaves (source : Object) : List String :=
  source.fields.flatMap fun (key, value) => value.leafPaths key

/-- A field reads the path, or a json field reads all of the source or a part that the
path leads into. -/
def isCovered (schema : CollectionSchema) (path : String) : Bool :=
  schema.fields.any fun field =>
    field.sourcePath == path ||
      (field.kind == .json &&
        (field.sourcePath == "" ||
          match stripPrefix? field.sourcePath path with
          | some rest => startsWithChar rest '.'
          | none => false))

/-- Sorted, without duplicates. -/
def sorted (paths : List String) : List String :=
  paths.dedup.mergeSort fun a b => (compare a b).isLE

/-- The leaf paths that no field covers, in order. -/
def unmappedPaths (schema : CollectionSchema) (source : Object) : List String :=
  sorted ((leaves source).filter fun path => !isCovered schema path)

/-- The length of a name in bytes. -/
def maxSchemaNameLen : ℕ := 255

/-- A keyword field of this name and path would be valid by itself. -/
def validAlone (path : String) : Bool :=
  path ≠ "" && path.utf8ByteSize ≤ maxSchemaNameLen && !path.toList.any isControl &&
    !(startsWithChar path '_') && !(startsWithChar path '-') && !(startsWithChar path '.') &&
    !(endsWithChar path '.') && !(containsText path "..") && !((segments path).any (· == ""))

/-- A field named like the path could be added. -/
def isMappable (schema : CollectionSchema) (path : String) : Bool :=
  (schema.field path).isNone && validAlone path

/-! ## Checks -/

/-- What is wrong with a field. -/
structure Violation where
  field : String
  message : String
  deriving DecidableEq

/-- The typed values of a document: by the position of the field. -/
abbrev ExtractedDoc := List (ℕ × List IndexValue)

/-- Why a document is refused. -/
inductive DocRejection
  | violations (vs : List Violation)
  | dynamicMappingRequired (paths : List String)
  deriving DecidableEq

/-- What checking one part of a write found. -/
structure Findings where
  violations : List Violation
  required : List String

namespace Findings

instance : Append Findings :=
  ⟨fun a b => ⟨a.violations ++ b.violations, a.required ++ b.required⟩⟩

/-- A document that breaks the schema is refused before a mapping is proposed for it. -/
def intoResult {α : Type} (findings : Findings) (ok : α) : Except DocRejection α :=
  if findings.violations ≠ [] then .error (.violations findings.violations)
  else if findings.required ≠ [] then
    .error (.dynamicMappingRequired (sorted findings.required))
  else .ok ok

end Findings

section

variable (scalars : Scalars) (schema : CollectionSchema)

/-- The typed values of a field, and the violations. -/
def checkField (source : Object) (field : FieldSpec) : List IndexValue × List Violation :=
  if field.kind = .json then ([], [])
  else
    let results := (extract source field.sourcePath).map (scalars.coerce field.kind)
    (results.filterMap fun result =>
        match result with
        | .ok value => value
        | .error _ => none,
      if field.ignoreMalformed then []
      else results.filterMap fun result =>
        match result with
        | .ok _ => none
        | .error message => some { field := field.name, message })

/-- Checks the fields of the schema, then the paths that it does not cover. -/
def checkSource (source : Object) : Findings × ExtractedDoc :=
  let checked := schema.fields.map (checkField scalars source)
  let violations := checked.flatMap Prod.snd
  let unmapped := unmappedPaths schema source
  let findings : Findings := match schema.dynamic with
    | .strict =>
      ⟨violations ++ unmapped.map fun path =>
        { field := path, message := s!"strict dynamic mapping: {path} is not mapped" }, []⟩
    | .ignore => ⟨violations, []⟩
    | .map => ⟨violations, unmapped.filter (isMappable schema)⟩
  (findings, (checked.zipIdx.map fun (result, index) => (index, result.1)).filter (·.2 ≠ []))

/-- A known name, the right dimension, finite values. -/
def checkVector (name : String) (vector : List F32) : List Violation :=
  let field := s!"vectors.{name}"
  match schema.vector name with
  | none => [{ field, message := "unknown vector" }]
  | some spec =>
    if vector.length ≠ spec.dim then
      [{ field, message := s!"expected {spec.dim} dimensions, got {vector.length}" }]
    else if vector.any fun x => !x.isFinite then
      [{ field, message := "every value must be finite" }]
    else []

/-- Checks every dense vector. -/
def checkVectors (vectors : List (String × List F32)) : Findings :=
  ⟨vectors.flatMap fun (name, vector) => checkVector schema name vector, []⟩

/-- Checks that every sparse vector is known. -/
def checkSparseVectors (names : List String) : Findings :=
  ⟨names.flatMap fun name =>
    if (schema.sparseVector name).isNone then
      [{ field := s!"sparse_vectors.{name}", message := "unknown sparse vector" }]
    else [], []⟩

/-- Checks a document part by part. -/
def checkDocumentInto (doc : Document) : Findings × ExtractedDoc :=
  let (findings, extracted) := checkSource scalars schema doc.source
  (findings ++ checkVectors schema doc.vectors.toList ++
    checkSparseVectors schema doc.sparseVectors.keys, extracted)

/-- Validates a whole document; gives the typed values. -/
def checkDocument (doc : Document) : Except DocRejection ExtractedDoc :=
  let (findings, extracted) := checkDocumentInto scalars schema doc
  findings.intoResult extracted

/-- The first entry that is not a path. -/
def invalidDeleteKey (deleteKeys : List String) : Option Violation :=
  (deleteKeys.find? fun key => (segments key).any (· == "")).map fun key =>
    { field := "delete_keys", message := s!"{debugStr key} is not a dot-separated path" }

/-- The entries a patch sets. -/
def setEntries {α : Type} (changes : BTreeMap String (Option α)) : List (String × α) :=
  changes.toList.filterMap fun (name, change) => change.map fun value => (name, value)

/-- Validates what a write brings: for a patch, its source as a partial document, what
it sets, its paths, and its upsert document in full. -/
def checkPatch (op : DocOp) : Except DocRejection Unit :=
  let findings : Findings := match op with
    | .upsert doc => (checkDocumentInto scalars schema doc).1
    | .delete _ => ⟨[], []⟩
    | .patch p =>
      (checkSource scalars schema p.source).1 ++ checkVectors schema (setEntries p.vectors) ++
        checkSparseVectors schema ((setEntries p.sparseVectors).map Prod.fst) ++
        ⟨(invalidDeleteKey p.deleteKeys).toList, []⟩ ++
        match p.upsert with
        | some doc => (checkDocumentInto scalars schema doc).1
        | none => ⟨[], []⟩
  findings.intoResult ()

end

end Loams.Collection
