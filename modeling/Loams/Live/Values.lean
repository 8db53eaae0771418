/-
# Values, ids and limits of Loams Live
-/

import Loams.Tikv.Runner
import Loams.Tikv.Tuple

namespace Loams.Live

open Loams.Data Loams.Control Loams.Tikv

/-! ## Errors -/

/-- What a function can fail with. -/
inductive LiveError
  | invalidArgument (message : String)
  | notFound (message : String)
  | failedPrecondition (message : String)
  | limitExceeded (limit message : String)
  | journalTrimmed (shard position : ℕ) (first : Option ℕ)
  | corrupt (message : String)
  | internal (message : String)
  | txn (e : TxnError)
  deriving DecidableEq

/-- The text of an error. -/
def LiveError.text : LiveError → String
  | .invalidArgument m => s!"invalid argument: {m}"
  | .notFound m => s!"not found: {m}"
  | .failedPrecondition m => s!"failed precondition: {m}"
  | .limitExceeded l m => s!"limit {l} exceeded: {m}"
  | .journalTrimmed shard position first =>
    let left := match first with
      | some seq => s!"Some({seq})"
      | none => "None"
    s!"journal shard {shard} was trimmed past position {position} (oldest entry left: {left})"
  | .corrupt m => s!"corrupt record: {m}"
  | .internal m => s!"internal error: {m}"
  | .txn e => s!"storage: {e.text}"

/-! ## Values -/

/-- A value of a document. -/
inductive LiveValue
  | null
  | i64 (v : Int64)
  | f64 (v : Float64)
  | bool (v : Bool)
  | str (v : String)
  | bytes (v : Bytes)
  | array (items : List LiveValue)
  /-- Fields in the order of their names. -/
  | object (fields : List (String × LiveValue))

/-- The user fields of a document. -/
abbrev Fields := BTreeMap String LiveValue

namespace LiveValue

mutual

/-- The element of an index key that the value becomes. -/
def indexElem : LiveValue → Except LiveError Tuple.Elem
  | .null => .ok .null
  | .i64 v => .ok (.i64 v)
  | .f64 v => .ok (.f64 v)
  | .bool v => .ok (.bool v)
  | .str v => .ok (.str v)
  | .bytes v => .ok (.bytes v)
  | .array items =>
    match indexElems items with
    | .ok elems => .ok (.array elems)
    | .error e => .error e
  | .object _ => .error (.invalidArgument "objects are not indexable in R1")

/-- Element by element. -/
def indexElems : List LiveValue → Except LiveError (List Tuple.Elem)
  | [] => .ok []
  | v :: rest =>
    match indexElem v with
    | .error e => .error e
    | .ok elem =>
      match indexElems rest with
      | .error e => .error e
      | .ok elems => .ok (elem :: elems)

end

/-- The name in messages. -/
def typeName : LiveValue → String
  | .null => "null"
  | .i64 _ => "int64"
  | .f64 _ => "float64"
  | .bool _ => "bool"
  | .str _ => "string"
  | .bytes _ => "bytes"
  | .array _ => "array"
  | .object _ => "object"

end LiveValue

/-! ## Ids -/

/-- The number of a table. -/
abbrev TableId := UInt32

/-- The number of an index. -/
abbrev IndexId := UInt32

namespace IndexId

/-- The index on the document key. -/
def byId : IndexId := 0

/-- The index on the creation time, then the id. -/
def byCreationTime : IndexId := 1

/-- The first id of an index that is not the system's. -/
def firstUser : UInt32 := 2

end IndexId

/-- The identity of a document. -/
structure DocId where
  table : TableId
  bytes : Vector UInt8 16
  deriving DecidableEq

/-- What the text form of an id is built on: base32 in Crockford's alphabet and a
checksum of two bytes. -/
structure IdText where
  encode : Bytes → String
  decode : String → Option Bytes
  checksum : Bytes → UInt16

/-- Seven bits a byte, the low ones first; all bytes but the last have the high bit. -/
def varint (n : ℕ) : Bytes :=
  if n < 128 then [UInt8.ofNat n] else UInt8.ofNat (n % 128 + 128) :: varint (n / 128)

namespace DocId

variable (text : IdText)

/-- The table, the bytes and a checksum. -/
def payload (id : DocId) : Bytes :=
  let body := varint id.table.toNat ++ id.bytes.toList
  body ++ beBytes 2 (text.checksum body).toNat

/-- The id as text. -/
def display (id : DocId) : String := text.encode (id.payload text)

/-- The table in front of an id's bytes and how many bytes it takes, or what is wrong. -/
def takeTable : ℕ → ℕ → Bytes → Except String (ℕ × ℕ)
  | _, _, [] => .error "too short"
  | taken, table, b :: rest =>
    if taken = 5 then .error "the table id is too long"
    else
      let table := table + b.toNat % 128 * 2 ^ (7 * taken)
      if b.toNat < 128 then .ok (table, taken + 1) else takeTable (taken + 1) table rest

/-- The id of a text. -/
def parse (s : String) : Except LiveError DocId :=
  let bad (why : String) : LiveError :=
    .invalidArgument s!"'{s}' is not a document id: {why}"
  match text.decode s with
  | none => .error (bad "not Crockford base32")
  | some raw =>
    match takeTable 0 0 raw with
    | .error why => .error (bad why)
    | .ok (table, taken) =>
      if table ≥ 2 ^ 32 then .error (bad "the table id is too large")
      else
        let bytes := (raw.drop taken).take 16
        if h : raw.length = taken + 16 + 2 ∧ bytes.length = 16 then
          let id : DocId := ⟨UInt32.ofNat table, ⟨bytes.toArray, by simp [h.2]⟩⟩
          if raw.drop (taken + 16) ≠
              beBytes 2 (text.checksum (raw.take (taken + 16))).toNat then
            .error (bad "checksum mismatch")
          -- only the table id that the display writes is accepted
          else if id.payload text ≠ raw then .error (bad "non-canonical table id")
          else .ok id
        else .error (bad "wrong length")

end DocId

/-! ## Limits -/

/-- The limits of an app. -/
structure Limits where
  maxDocumentBytes : ℕ := 1024 * 1024
  maxFields : ℕ := 1024
  maxDepth : ℕ := 16
  maxArrayLen : ℕ := 8192
  maxFieldNameBytes : ℕ := 1024
  maxIndexFields : ℕ := 16
  maxIndexes : ℕ := 32
  maxIndexKeyBytes : ℕ := 4096
  maxWrittenBytes : ℕ := 8 * 1024 * 1024
  maxWrittenDocs : ℕ := 16000
  maxScannedDocs : ℕ := 32000
  maxIndexRanges : ℕ := 4096

namespace Limits

variable (limits : Limits)

/-- Neither empty nor too long. -/
def checkName (name : String) : Except LiveError Unit := do
  require (name ≠ "") (.invalidArgument "a field name is empty")
  require ((utf8 name).length ≤ limits.maxFieldNameBytes)
    (.limitExceeded "max_field_name_bytes"
      s!"a field name has {(utf8 name).length} bytes, more than {limits.maxFieldNameBytes}")

mutual

/-- Not too deep and not too long. -/
def checkValue (field : String) : LiveValue → ℕ → Except LiveError Unit
  | .array items, depth => do
    require (depth ≤ limits.maxDepth)
      (.limitExceeded "max_depth" s!"field '{field}' nests deeper than {limits.maxDepth}")
    require (items.length ≤ limits.maxArrayLen)
      (.limitExceeded "max_array_len" (s!"field '{field}' has an array of {items.length} " ++
        s!"elements, more than {limits.maxArrayLen}"))
    checkItems field items (depth + 1)
  | .object fields, depth => do
    require (depth ≤ limits.maxDepth)
      (.limitExceeded "max_depth" s!"field '{field}' nests deeper than {limits.maxDepth}")
    require (fields.length ≤ limits.maxFields)
      (.limitExceeded "max_fields" (s!"field '{field}' has an object of {fields.length} " ++
        s!"fields, more than {limits.maxFields}"))
    checkEntries field fields (depth + 1)
  | _, depth =>
    require (depth ≤ limits.maxDepth)
      (.limitExceeded "max_depth" s!"field '{field}' nests deeper than {limits.maxDepth}")

/-- Checks every item. -/
def checkItems (field : String) : List LiveValue → ℕ → Except LiveError Unit
  | [], _ => .ok ()
  | item :: rest, depth => do
    checkValue field item depth
    checkItems field rest depth

/-- Checks every name and value. -/
def checkEntries (field : String) : List (String × LiveValue) → ℕ → Except LiveError Unit
  | [], _ => .ok ()
  | (name, item) :: rest, depth => do
    limits.checkName name
    checkValue field item depth
    checkEntries field rest depth

end

/-- Checks the user fields of a document. -/
def checkFields (fields : Fields) : Except LiveError Unit := do
  require (fields.size ≤ limits.maxFields)
    (.limitExceeded "max_fields"
      s!"a document has {fields.size} fields, more than {limits.maxFields}")
  fields.toList.forM fun (name, value) => do
    limits.checkName name
    require (name.toList.head? ≠ some '_')
      (.invalidArgument
        s!"field '{name}': names starting with '_' are reserved for system fields")
    limits.checkValue name value 1

/-- A document is not too large. -/
def checkDocumentBytes (len : ℕ) : Except LiveError Unit :=
  require (len ≤ limits.maxDocumentBytes)
    (.limitExceeded "max_document_bytes"
      s!"a document encodes to {len} bytes, more than {limits.maxDocumentBytes}")

end Limits

end Loams.Live
