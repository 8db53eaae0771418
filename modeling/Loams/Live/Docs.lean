/-
# Tables, documents and their index entries
-/

import Loams.Live.Store

namespace Loams.Live

open Loams.Data Loams.Control Loams.Tikv Program AppKeys

/-! ## Tables -/

namespace Catalog

/-- Checks a table name: up to 64 ASCII letters, digits and `_`, a letter first. -/
def checkName (what name : String) : Except LiveError Unit :=
  let ok := match name.toList with
    | [] => false
    | c :: rest => c.isAlpha && rest.all fun c => c.isAlphanum || c = '_'
  require ((utf8 name).length ≤ 64 ∧ ok = true)
    (.invalidArgument (s!"{what} name '{name}': use 1 to 64 ASCII letters, digits and '_', " ++
      "starting with a letter"))

/-- The definition of a table. -/
def loadTableById (data : Data) (id : TableId) : Except LiveError (Option TableDef) :=
  match data[AppKeys.table id]? with
  | none => .ok none
  | some (.table t) => .ok (some t)
  | some _ => .error (.corrupt "table record")

/-- The definition behind a name. -/
def loadTable (data : Data) (name : String) : Except LiveError (Option TableDef) :=
  match data[tableName name]? with
  | none => .ok none
  | some (.number id) => do
    match ← loadTableById data id with
    | some t =>
      if t.name = name then .ok (some t)
      else .error (.corrupt
        s!"table name '{name}' points at table {id}, which does not name it back")
    | none => .error (.corrupt
        s!"table name '{name}' points at table {id}, which does not name it back")
  | some _ => .error (.corrupt "table name record")

/-- The id of the next table. -/
def nextTable (data : Data) : Except LiveError TableId :=
  match data[tableCounter]? with
  | none => .ok 1
  | some (.number n) => .ok n
  | some _ => .error (.corrupt "the table counter is not 4 bytes")

/-- A table without user indexes. -/
def newTable (id : TableId) (name : String) : TableDef where
  id := id
  name := name
  indexes := []
  nextIndexId := IndexId.firstUser
  user_ids := by simp
  distinct_ids := .nil

/-- A table without indexes gets the next id. -/
def createTable (enc : Encoding) (name : String) : TxnM TableDef := do
  let t ← read
  let id ← nextTable t.view.data
  require (id.toNat + 1 < 2 ^ 32) (LiveError.limitExceeded "tables" "the app has 2^32 − 1 tables")
  let table := newTable id name
  Txn.put enc (.data tableCounter) (.number (id + 1))
  Txn.put enc (.data (tableName name)) (.number id)
  Txn.put enc (.data (AppKeys.table id)) (.table table)
  return table

/-- The table that an insert writes to, created unless a schema says which tables there
are. -/
def tableForInsert (enc : Encoding) (name : String) : TxnM TableDef := do
  checkName "table" name
  let t ← read
  match ← loadTable t.view.data name with
  | some table => return table
  | none =>
    require (t.view.data[AppKeys.schema]?.isNone)
      (LiveError.notFound s!"table '{name}' is not in the deployed schema")
    createTable enc name

/-- The shards of the app's journal. -/
def loadJournalShards (data : Data) : Except LiveError (Option ℕ) :=
  match data[appDef]? with
  | none => .ok none
  | some (.shards n) =>
    if 1 ≤ n ∧ n ≤ 1024 then .ok (some n)
    else .error (.corrupt s!"app record: {n} journal shards (1 to 1024)")
  | some _ => .error (.corrupt "app record")

end Catalog

/-! ## Documents -/

/-- A stored document. -/
structure Doc where
  id : DocId
  creationMs : UInt64
  fields : Fields

/-- The stored record. -/
def Doc.record (doc : Doc) : Record := .document doc.creationMs doc.fields

/-- The direction of a scan. -/
inductive Order
  | asc
  | desc
  deriving DecidableEq

/-- A read of one index: equality on its first fields, then bounds on the next one. The
fields of an index are its user fields, then the creation time. -/
structure IndexRange where
  table : TableId
  index : IndexId
  eq : List LiveValue := []
  lower : Bound LiveValue := .unbounded
  upper : Bound LiveValue := .unbounded
  order : Order := .asc
  limit : Option ℕ := none

namespace Docs

variable (text : IdText) (enc : Encoding)

/-- The document in a record. -/
def decode (id : DocId) : Record → Except LiveError Doc
  | .document creationMs fields => .ok ⟨id, creationMs, fields⟩
  | _ => .error (.corrupt s!"document {id.display text}")

/-- The document of an id. -/
def get (data : Data) (id : DocId) : Except LiveError (Option Doc) :=
  match data[document id]? with
  | none => .ok none
  | some r => (decode text id r).map some

variable (table : TableDef)

/-- The document belongs to the table. -/
def checkTable (id : DocId) : Except LiveError Unit :=
  require (id.table = table.id)
    (.invalidArgument (s!"document {id.display text} belongs to table {id.table}, " ++
      s!"not to '{table.name}' ({table.id})"))

/-! ### Index entries -/

/-- The values under which an index lists a document. -/
def indexValues (index : IndexDef) (doc : Doc) : Except LiveError (List Tuple.Elem) :=
  index.fields.mapM fun f =>
    (doc.fields[f]?.getD .null).indexElem.mapError fun e =>
      .invalidArgument s!"index '{index.name}', field '{f}': {e.text}"

/-- The entry of a document in a user index. -/
def indexKey (limits : Limits) (doc : Doc) (index : IndexDef) : Except LiveError Bytes := do
  let values ← indexValues index doc
  let len := (Tuple.encodeAll values).length
  require (len ≤ limits.maxIndexKeyBytes)
    (.limitExceeded "max_index_key_bytes" (s!"index '{index.name}': the indexed values encode " ++
      s!"to {len} bytes, more than {limits.maxIndexKeyBytes}"))
  return indexEntry index.id values doc.creationMs doc.id

/-- Every index entry of a document. -/
def indexKeys (limits : Limits) (doc : Doc) : Except LiveError (List Bytes) := do
  let keys ← table.indexes.mapM (indexKey limits doc)
  return indexEntry IndexId.byCreationTime [] doc.creationMs doc.id :: keys

/-! ### Ranges -/

/-- Appends the value at a position of an index with `n` user fields. -/
def encodeAt (key : Bytes) (pos n : ℕ) (value : LiveValue) : Except LiveError Bytes :=
  if pos < n then value.indexElem.map fun elem => key ++ Tuple.encode elem
  else
    match value with
    | .i64 ms =>
      if 0 ≤ ms.toInt then .ok (key ++ beBytes 8 ms.toInt.toNat)
      else .error (.invalidArgument
        s!"_creationTime is compared with a non-negative int64, not {value.typeName}")
    | _ => .error (.invalidArgument
        s!"_creationTime is compared with a non-negative int64, not {value.typeName}")

/-- Appends the values from a position on. -/
def encodeFrom (n : ℕ) : Bytes → ℕ → List LiveValue → Except LiveError Bytes
  | key, _, [] => .ok key
  | key, pos, value :: rest => do
    let key ← encodeAt key pos n value
    encodeFrom n key (pos + 1) rest

/-- The keys between two bounds. -/
def bounded (base : Bytes) (lower upper : Bound LiveValue)
    (keyAt : LiveValue → Except LiveError Bytes) : Except LiveError KeyRange := do
  let lo ← match lower with
    | .unbounded => .ok base
    | .included v => keyAt v
    | .excluded v => (keyAt v).map successor
  let hi ← match upper with
    | .unbounded => .ok (successor base)
    | .included v => (keyAt v).map successor
    | .excluded v => keyAt v
  return ⟨lo, hi⟩

/-- The key that a bound of the index by id stands for. -/
def idAt : LiveValue → Except LiveError Bytes
  | .str s => do
    let id ← DocId.parse text s
    checkTable text table id
    return (documents table.id).lo ++ id.bytes.toList
  | v => .error (.invalidArgument s!"a by_id bound is a document id string, not {v.typeName}")

/-- One of the bounds is there. -/
def isBounded (range : IndexRange) : Bool :=
  match range.lower, range.upper with
  | .unbounded, .unbounded => false
  | _, _ => true

/-- The keys that an index range covers, before any limit. -/
def indexKeyRange (range : IndexRange) : Except LiveError KeyRange := do
  require (range.table = table.id)
    (.invalidArgument
      s!"the range is on table {range.table}, not on '{table.name}' ({table.id})")
  if range.index = IndexId.byId then
    require (range.eq.isEmpty) (.invalidArgument "by_id takes bounds on _id, not equality")
    bounded (documents table.id).lo range.lower range.upper (idAt text table)
  else
    match table.indexFields range.index with
    | none => .error (.notFound s!"index {range.index} of table '{table.name}'")
    | some fields =>
      let n := fields.length
      require (range.eq.length ≤ n + 1)
        (.invalidArgument (s!"{range.eq.length} equality values for an index of {n} fields " ++
          "and _creationTime"))
      require (isBounded range = true → range.eq.length ≤ n)
        (.invalidArgument "an index range cannot bound _id after equality on _creationTime")
      let base ← encodeFrom n (indexPrefix table.id range.index) 0 range.eq
      bounded base range.lower range.upper (encodeAt base range.eq.length n)

/-- The pairs of a key range in one direction. -/
def pairs (data : Data) (keys : KeyRange) (fetch : ℕ) (order : Order) : List (Bytes × Record) :=
  match order with
  | .asc => Loams.Data.scan data keys.bounds.1 keys.bounds.2 fetch
  | .desc => Loams.Data.scanReverse data keys.bounds.1 keys.bounds.2 fetch

/-- The keys that a read depends on: when the limit is filled, those up to the last one
read. -/
def readRange (keys : KeyRange) (range : IndexRange) (found : List (Bytes × Record)) : KeyRange :=
  match found.getLast? with
  | some (last, _) =>
    if range.limit = some found.length then
      match range.order with
      | .asc => ⟨keys.lo, keyAfter last⟩
      | .desc => ⟨last, keys.hi⟩
    else keys
  | none => keys

/-- The document that a pair of an index range names. -/
def docOf (data : Data) (table : TableDef) (index : IndexId) (pair : Bytes × Record) :
    Except LiveError Doc :=
  if index = IndexId.byId then
    match docIdOfDocument table.id pair.1 with
    | some id => decode text id pair.2
    | none => .error (.corrupt "a document key of the wrong length")
  else
    match docOfIndexEntry table.id pair.1 with
    | some (id, _) =>
      match data[document id]? with
      | some r => decode text id r
      | none => .error (.corrupt
          s!"an index entry names a missing document {id.display text}")
    | none => .error (.corrupt "an index entry key is too short")

/-- Reads an index range: its documents, and the keys that the read depends on. -/
def scan (data : Data) (table : TableDef) (range : IndexRange) (limits : Limits) :
    Except LiveError (List Doc × KeyRange) := do
  let keys ← indexKeyRange text table range
  let max := limits.maxScannedDocs
  require (∀ limit ∈ range.limit, limit ≤ max)
    (.limitExceeded "max_scanned_docs"
      s!"a scan limit of {range.limit.getD 0} is more than {max}")
  let fetch := range.limit.getD (max + 1)
  let found := if keys.isEmpty || fetch = 0 then [] else pairs data keys fetch range.order
  require (range.limit = none → found.length ≤ max)
    (.limitExceeded "max_scanned_docs"
      s!"the range holds more than {max} documents; add a limit")
  let docs ← found.mapM (docOf text data table range.index)
  return (docs, readRange keys range found)

/-! ### Writes -/

/-- Checks the size of a document's record. -/
def checkRecord (limits : Limits) (doc : Doc) : Except LiveError Unit :=
  limits.checkDocumentBytes (enc.len doc.record)

/-- The document, which must exist. -/
def existing (data : Data) (table : TableDef) (id : DocId) : Except LiveError Doc := do
  checkTable text table id
  match ← get text data id with
  | some doc => return doc
  | none => .error (.notFound s!"document {id.display text} in table '{table.name}'")

/-- Inserts a document with the sixteen bytes that the random source gave. -/
def insertSized (fields : Fields) (limits : Limits)
    (random : Option (Vector UInt8 16)) : TxnM (DocId × WriteRecord × ℕ) := do
  limits.checkFields fields
  let t ← read
  match random with
  | none => fail (.internal "the OS random source failed")
  | some bytes =>
    let doc : Doc := ⟨⟨table.id, bytes⟩, UInt64.ofNat (physicalMs t.start), fields⟩
    checkRecord enc limits doc
    let added ← indexKeys table limits doc
    let docKey := document doc.id
    Txn.insert enc (.data docKey) doc.record
    added.forM fun key => Txn.put enc (.data key) .indexEntry
    return (doc.id, ⟨doc.id, .insert, [], added⟩,
      docKey.length + enc.len doc.record + (added.map List.length).sum)

/-- Stores new fields and moves the index entries. -/
def rewrite (old : Doc) (fields : Fields) (limits : Limits) : TxnM (WriteRecord × ℕ) := do
  limits.checkFields fields
  let removed ← indexKeys table limits old
  let new := { old with fields := fields }
  checkRecord enc limits new
  let added ← indexKeys table limits new
  let docKey := document new.id
  Txn.put enc (.data docKey) new.record
  -- an entry in both lists is kept, not rewritten
  (removed.filter fun key => key ∉ added).forM fun key => Txn.delete (.data key)
  let fresh := added.filter fun key => key ∉ removed
  fresh.forM fun key => Txn.put enc (.data key) .indexEntry
  return (⟨new.id, .replace, removed, added⟩,
    docKey.length + enc.len new.record + (fresh.map List.length).sum)

/-- The fields of a document with others set over them. -/
def merged (old fields : Fields) : Fields :=
  fields.toList.foldl (fun m (name, value) => m.insert name value) old

/-- The fields are replaced. -/
def replaceSized (id : DocId) (fields : Fields) (limits : Limits) : TxnM (WriteRecord × ℕ) := do
  let t ← read
  let old ← existing text t.view.data table id
  rewrite enc table old fields limits

/-- The fields are merged into the old ones. -/
def patchSized (id : DocId) (fields : Fields) (limits : Limits) : TxnM (WriteRecord × ℕ) := do
  let t ← read
  let old ← existing text t.view.data table id
  rewrite enc table old (merged old.fields fields) limits

/-- Deletes a document and its entries, if it exists. -/
def delete (id : DocId) (limits : Limits) : TxnM (Option WriteRecord) := do
  checkTable text table id
  let t ← read
  match ← get text t.view.data id with
  | none => return none
  | some old =>
    let removed ← indexKeys table limits old
    Txn.delete (.data (document id))
    removed.forM fun key => Txn.delete (.data key)
    return some ⟨id, .delete, removed, []⟩

end Docs

end Loams.Live
