/-
# Collection schemas
-/

import Loams.Control.Program
import Loams.Data.OrderedMap
import Loams.Data.Text

namespace Loams.Meta

open Loams.Data Loams.Control

/-! ## Limits -/

/-- The analyzers of text fields. -/
def knownAnalyzers : List String := ["standard", "english", "simple", "whitespace", "keyword"]
/-- The dimensions of a vector. -/
def maxVectorDim : ℕ := 65536
/-- The limit of the limit of fields. -/
def maxMaxFields : ℕ := 100000
/-- The length of a name in bytes. -/
def maxSchemaNameLen : ℕ := 255
/-- The annotations beside those of the fields. -/
def extraAnnotations : ℕ := 256
/-- The length of a value in bytes. -/
def maxAnnotationValueLen : ℕ := 65536
/-- How the keys of annotations start. -/
def annotationPrefixes : List String := ["es.", "qdrant.", "loams."]
/-- The partitions of a vector index. -/
def maxNumPartitions : ℕ := 65536
/-- The ratios of a quantization. -/
def compressionRatios : List ℕ := [4, 8, 16, 32, 64]

/-! ## Schemas -/

/-- The type of a field. -/
inductive FieldKind
  | text (analyzer : String) (positions : Bool)
  | keyword
  | i64
  | f64
  | bool
  | date
  | uuid
  | json
  deriving DecidableEq

/-- A typed field, extracted from the document at `sourcePath`. -/
structure FieldSpec where
  name : String
  sourcePath : String
  kind : FieldKind
  indexed : Bool
  fast : Bool
  ignoreMalformed : Bool
  deriving DecidableEq

/-- A dense vector's distance function. -/
inductive Distance
  | cosine
  | dot
  | euclid
  | manhattan
  deriving DecidableEq

/-- A dense vector's element type. -/
inductive VectorElement
  | f32
  deriving DecidableEq

/-- The index built for a dense vector. -/
inductive VectorIndexSpec
  | auto
  | none
  | ivfPq (numPartitions numSubVectors : Option ℕ) (numBits : ℕ)
  | ivfRq (numPartitions : Option ℕ) (numBits : ℕ)
  | ivfHnswSq (numPartitions : Option ℕ)
  deriving DecidableEq

/-- The partitions, if they are given. -/
def VectorIndexSpec.numPartitions : VectorIndexSpec → Option ℕ
  | .auto | .none => Option.none
  | .ivfPq numPartitions _ _ => numPartitions
  | .ivfRq numPartitions _ => numPartitions
  | .ivfHnswSq numPartitions => numPartitions

/-- HNSW parameters, kept for the hot tier. -/
structure HnswParams where
  m : ℕ := 16
  efConstruct : ℕ := 100
  fullScanThresholdKb : ℕ := 10000
  payloadM : Option ℕ := none
  onDisk : Bool := false
  deriving DecidableEq

/-- Quantization settings. -/
inductive Quantization
  | scalar (quantilePpm : Option ℕ) (alwaysRam : Bool)
  | product (compressionRatio : ℕ) (alwaysRam : Bool)
  | binary (alwaysRam : Bool)
  deriving DecidableEq

/-- A named dense vector. -/
structure VectorSpec where
  name : String
  dim : ℕ
  distance : Distance
  element : VectorElement
  index : VectorIndexSpec
  hnsw : HnswParams
  quantization : Option Quantization
  deriving DecidableEq

/-- What a write does with paths no field maps. -/
inductive DynamicMapping
  | strict
  | ignore
  | map
  deriving DecidableEq

/-- How a sparse vector is weighted. -/
inductive SparseModifier
  | none
  | idf
  deriving DecidableEq

/-- A named sparse vector. -/
structure SparseVectorSpec where
  name : String
  modifier : SparseModifier
  deriving DecidableEq

/-- A collection's schema. -/
structure CollectionSchema where
  version : ℕ
  fields : List FieldSpec
  vectors : List VectorSpec
  sparseVectors : List SparseVectorSpec
  dynamic : DynamicMapping
  maxFields : ℕ
  annotations : BTreeMap String String
  deriving DecidableEq

/-- Why a schema, or a change to one, was refused. -/
inductive SchemaError
  | invalid (message : String)
  | incompatible (message : String)
  deriving DecidableEq

/-- The error as it is displayed. -/
def SchemaError.display : SchemaError → String
  | .invalid message => s!"invalid schema: {message}"
  | .incompatible message => s!"incompatible schema change: {message}"

/-! ## Checks on one schema -/

/-- Refuses a schema with a message unless the condition holds. -/
def requireValid (ok : Prop) [Decidable ok] (message : String) : Except SchemaError Unit :=
  require ok (.invalid message)

/-- The rules all schema names share; `seen` holds the names before this one and
comes back with it. -/
def checkName (kind name : String) (seen : List String) : Except SchemaError (List String) := do
  requireValid (name.utf8ByteSize ≤ maxSchemaNameLen)
    s!"{kind} name {debugStr name} is longer than {maxSchemaNameLen} bytes"
  requireValid (name.toList.any isControl = false)
    s!"{kind} name {debugStr name} contains a control character"
  requireValid (name ∉ seen) s!"duplicate {kind} name {debugStr name}"
  return name :: seen

/-- Whether the path has a segment with nothing in it. -/
def hasEmptySegment (path : String) : Bool :=
  (path.toList.splitOn '.').any List.isEmpty

/-- A name that is new, and options that fit the kind. -/
def FieldSpec.validate (f : FieldSpec) (seen : List String) : Except SchemaError (List String) := do
  requireValid (f.name ≠ "") "a field name is empty"
  let seen ← checkName "field" f.name seen
  requireValid (¬(startsWithChar f.name '_' || startsWithChar f.name '-'))
    s!"field name {debugStr f.name} starts with '_' or '-'"
  requireValid
    (¬(startsWithChar f.name '.' || endsWithChar f.name '.' || containsText f.name ".."))
    s!"field name {debugStr f.name} starts or ends with '.' or contains \"..\""
  if f.sourcePath = "" then
    requireValid (f.kind = .json)
      s!"field {debugStr f.name} has an empty source path, which only Json fields may have"
  else
    requireValid (hasEmptySegment f.sourcePath = false)
      s!"field {debugStr f.name} has source path {debugStr f.sourcePath} with an empty segment"
  match f.kind with
  | .text analyzer _ =>
    requireValid (analyzer ∈ knownAnalyzers)
      s!"field {debugStr f.name} names unknown analyzer {debugStr analyzer}"
    requireValid (f.fast = false) s!"text field {debugStr f.name} cannot be fast"
  | _ => pure ()
  requireValid (f.indexed ∨ f.fast) s!"field {debugStr f.name} is neither indexed nor fast"
  return seen

/-- The rules of the index of a dense vector. -/
def VectorSpec.validateIndex (v : VectorSpec) : Except SchemaError Unit :=
  match v.index with
  | .ivfPq _ numSubVectors numBits => do
    requireValid (numBits = 4 ∨ numBits = 8)
      s!"vector {debugStr v.name}: IVF_PQ num_bits must be 4 or 8, got {numBits}"
    match numSubVectors with
    | some sub =>
      requireValid (¬(sub = 0 ∨ v.dim % sub ≠ 0))
        s!"vector {debugStr v.name}: {sub} PQ sub-vectors do not divide dim {v.dim}"
    | none => pure ()
  | .ivfRq _ numBits =>
    requireValid (1 ≤ numBits ∧ numBits ≤ 8)
      s!"vector {debugStr v.name}: IVF_RQ num_bits must be 1..=8, got {numBits}"
  | _ => pure ()

/-- The rules of the quantization of a dense vector. -/
def VectorSpec.validateQuantization (v : VectorSpec) : Except SchemaError Unit :=
  match v.quantization with
  | some (.product compressionRatio _) =>
    requireValid (compressionRatio ∈ compressionRatios)
      (s!"vector {debugStr v.name}: product quantization compression ratio must be one of " ++
        s!"[4, 8, 16, 32, 64], got {compressionRatio}")
  | some (.scalar (some ppm) _) =>
    requireValid (500000 ≤ ppm ∧ ppm ≤ 1000000)
      s!"vector {debugStr v.name}: scalar quantile must be 500000..=1000000 ppm, got {ppm}"
  | _ => pure ()

/-- A name that is new, and bounds. -/
def VectorSpec.validate (v : VectorSpec) (seen : List String) :
    Except SchemaError (List String) := do
  let seen ← checkName "vector" v.name seen
  requireValid (1 ≤ v.dim ∧ v.dim ≤ maxVectorDim)
    s!"vector {debugStr v.name} has dim {v.dim}, expected 1..={maxVectorDim}"
  requireValid (¬(v.distance = .manhattan ∧ ¬(v.index = .auto ∨ v.index = .none)))
    s!"vector {debugStr v.name} uses Manhattan distance, which has no IVF index"
  v.validateIndex
  match v.index.numPartitions with
  | some partitions =>
    requireValid (1 ≤ partitions ∧ partitions ≤ maxNumPartitions)
      (s!"vector {debugStr v.name}: num_partitions must be 1..={maxNumPartitions}, " ++
        s!"got {partitions}")
  | none => pure ()
  v.validateQuantization
  return seen

/-- Checks a sparse vector's name against the other sparse and the dense names. -/
def SparseVectorSpec.validate (v : SparseVectorSpec) (dense sparse : List String) :
    Except SchemaError (List String) := do
  requireValid (v.name ≠ "") "a sparse vector name is empty"
  let sparse ← checkName "sparse vector" v.name sparse
  requireValid (v.name ∉ dense)
    s!"sparse vector {debugStr v.name} has the name of a dense vector"
  return sparse

/-- The rules of one annotation. -/
def checkAnnotation (key value : String) : Except SchemaError Unit := do
  requireValid (annotationPrefixes.any fun p => (stripPrefix? p key).isSome)
    (s!"annotation key {debugStr key} does not start with one of " ++
      "[\"es.\", \"qdrant.\", \"loams.\"]")
  requireValid (key.utf8ByteSize ≤ maxSchemaNameLen)
    s!"annotation key {debugStr key} is longer than {maxSchemaNameLen} bytes"
  requireValid (value.utf8ByteSize ≤ maxAnnotationValueLen)
    s!"annotation {debugStr key} has a value longer than {maxAnnotationValueLen} bytes"

namespace CollectionSchema

/-- Fields, vectors and sparse vectors together. -/
def memberCount (s : CollectionSchema) : ℕ :=
  s.fields.length + s.vectors.length + s.sparseVectors.length

/-- Checks the schema on its own; the error names the offender. -/
def validate (s : CollectionSchema) : Except SchemaError Unit := do
  requireValid (s.version ≠ 0) "version 0"
  requireValid (1 ≤ s.maxFields ∧ s.maxFields ≤ maxMaxFields)
    s!"max_fields must be 1..={maxMaxFields}, got {s.maxFields}"
  requireValid (s.memberCount ≤ s.maxFields)
    s!"{s.memberCount} fields, vectors and sparse vectors exceed max_fields {s.maxFields}"
  let _ ← s.fields.foldlM (fun seen f => f.validate seen) []
  let dense ← s.vectors.foldlM (fun seen v => v.validate seen) []
  let _ ← s.sparseVectors.foldlM (fun seen v => v.validate dense seen) []
  requireValid (s.annotations.size ≤ s.maxFields + extraAnnotations)
    s!"{s.annotations.size} annotations exceed max_fields + {extraAnnotations}"
  s.annotations.toList.forM fun kv => checkAnnotation kv.1 kv.2

/-! ## Changes of a schema -/

/-- Checks that `next` only extends this schema: it keeps every field and dense
vector in order, its sparse vectors are unchanged, and everything still fits. -/
def checkAdditive (s next : CollectionSchema) : Except SchemaError Unit := do
  require (s.fields <+: next.fields)
    (.incompatible "fields may only be appended, never changed or removed")
  require (s.vectors <+: next.vectors)
    (.incompatible "vectors may only be appended, never changed or removed")
  require (next.sparseVectors = s.sparseVectors)
    (.incompatible "sparse vectors are fixed when the collection is created")
  require (next.memberCount ≤ next.maxFields)
    (.incompatible (s!"max_fields {next.maxFields} is below the {next.memberCount} fields, " ++
      "vectors and sparse vectors"))

/-- Whether the two schemas are equal apart from their versions. -/
def sameIgnoringVersion (s other : CollectionSchema) : Bool :=
  s.fields = other.fields && s.vectors = other.vectors &&
    s.sparseVectors = other.sparseVectors && s.dynamic = other.dynamic &&
    s.maxFields = other.maxFields && s.annotations = other.annotations

end CollectionSchema

end Loams.Meta
