/-
# The transaction that a function runs in
-/

import Loams.Live.Docs
import Mathlib.Data.Vector.Defs

namespace Loams.Live

open Loams.Data Loams.Control Loams.Tikv Program AppKeys

/-- What an app's functions run with. -/
structure App where
  text : IdText
  enc : Encoding
  limits : Limits := {}

/-- What one attempt used, against the limits. -/
structure Usage where
  writtenBytes : ℕ := 0
  writtenDocs : ℕ := 0
  scannedDocs : ℕ := 0
  indexRanges : ℕ := 0
  deriving DecidableEq

/-- The transaction of a running function. -/
structure LiveTxn where
  /-- Of a query, the snapshot: it has no writes. -/
  txn : Txn
  isMutation : Bool
  tables : BTreeMap TableId (Option TableDef) := ∅
  names : BTreeMap String TableId := ∅
  readSet : ReadSet := {}
  writes : List WriteRecord := []
  usage : Usage := {}
  /-- How many ids the attempt has drawn. -/
  drawn : ℕ := 0

/-- Programs on the transaction of a running function. -/
abbrev LiveM := Program LiveTxn LiveError

namespace LiveTxn

variable (app : App)

/-- A mutation that starts. -/
def forMutation (txn : Txn) : LiveTxn := { txn, isMutation := true }

/-- A query that starts. -/
def forQuery (ts : Timestamp) (snapshot : Store) : LiveTxn :=
  { txn := .startAt ts snapshot, isMutation := false }

/-- A program on the transaction below. -/
def onTxn {α : Type} (p : TxnM α) : LiveM α := fun s =>
  ((p.exec s.txn).1, { s with txn := (p.exec s.txn).2 })

/-- The data that the function sees. -/
def data (s : LiveTxn) : Data := s.txn.view.data

/-! ## Bookkeeping -/

/-- The message to a query that writes. -/
def queryWrite (op : String) : LiveError :=
  .invalidArgument s!"a query cannot write ({op}); call it from a mutation"

/-- The table is cached. -/
def remember (table : TableDef) (s : LiveTxn) : LiveTxn :=
  { s with
    names := s.names.insert table.name table.id
    tables := s.tables.insert table.id (some table) }

/-- The function read a key. -/
def addPoint (key : Bytes) (s : LiveTxn) : LiveTxn :=
  { s with readSet.points :=
      if key ∈ s.readSet.points then s.readSet.points else s.readSet.points ++ [key] }

/-- The function read a range. -/
def addRange (range : KeyRange) (s : LiveTxn) : LiveTxn :=
  { s with readSet.ranges := s.readSet.ranges ++ [range] }

/-- The message about too many documents. -/
def scannedOver : LiveError :=
  .limitExceeded "max_scanned_docs"
    s!"a function reads more than {app.limits.maxScannedDocs} documents"

/-- A scan's own refusal, restated for the whole function. -/
def scanLimit : LiveError → LiveError
  | .limitExceeded "max_scanned_docs" _ => scannedOver app
  | other => other

/-- Counts documents that were read. -/
def countScanned (n : ℕ) : LiveM Unit := do
  update fun s => { s with usage.scannedDocs := s.usage.scannedDocs + n }
  let s ← read
  require (s.usage.scannedDocs ≤ app.limits.maxScannedDocs) (scannedOver app)

/-- Counts and records a write. -/
def wrote (record : WriteRecord) (bytes : ℕ) : LiveM Unit := do
  update fun s =>
    { s with
      usage.writtenDocs := s.usage.writtenDocs + 1
      usage.writtenBytes := s.usage.writtenBytes + bytes
      writes := s.writes ++ [record] }
  let s ← read
  require (s.usage.writtenDocs ≤ app.limits.maxWrittenDocs)
    (LiveError.limitExceeded "max_written_docs"
      s!"a mutation writes more than {app.limits.maxWrittenDocs} documents")
  require (s.usage.writtenBytes ≤ app.limits.maxWrittenBytes)
    (LiveError.limitExceeded "max_written_bytes"
      s!"a mutation writes more than {app.limits.maxWrittenBytes} bytes")

/-! ## Reads -/

/-- The table from the cache or the catalog. -/
def tableById (id : TableId) : LiveM (Option TableDef) := do
  let s ← read
  match s.tables[id]? with
  | some found => return found
  | none =>
    let found ← Catalog.loadTableById s.data id
    match found with
    | some table => update (remember table)
    | none => update fun s => { s with tables := s.tables.insert id none }
    return found

/-- The document, or none. In a mutation its key is locked. -/
def get (id : DocId) : LiveM (Option Doc) := do
  countScanned app 1
  let key := document id
  let s ← read
  if s.isMutation then onTxn (Txn.lockKeys [.data key])
  let doc ← Docs.get app.text s.data id
  update (addPoint key)
  return doc

/-- The documents of an index range, in the order of the index. A table that does not
exist has none, and the read depends on the range all the same. -/
def query (range : IndexRange) : LiveM (List Doc) := do
  update fun s => { s with usage.indexRanges := s.usage.indexRanges + 1 }
  let s ← read
  require (s.usage.indexRanges ≤ app.limits.maxIndexRanges)
    (LiveError.limitExceeded "max_index_ranges"
      s!"a function reads more than {app.limits.maxIndexRanges} index ranges")
  let table := (← tableById range.table).getD (Catalog.newTable range.table s!"#{range.table}")
  let s ← read
  let remaining := app.limits.maxScannedDocs - s.usage.scannedDocs
  let limits := { app.limits with maxScannedDocs := remaining }
  let (found, keys) ← (Docs.scan app.text s.data table range limits).mapError (scanLimit app)
  countScanned app found.length
  update (addRange keys)
  return found

/-- The table of a name, or none. A missing table depends on the index entries of every
table not created yet. -/
def table (name : String) : LiveM (Option TableDef) := do
  let s ← read
  match s.names[name]? with
  | some id => return (s.tables[id]?).join
  | none =>
    match ← Catalog.loadTable s.data name with
    | some table =>
      update (remember table)
      return some table
    | none =>
      let next ← Catalog.nextTable s.data
      update (addRange (tablesFrom next))
      return none

/-! ## Writes -/

/-- Inserts a document, with the next id that the random source gives. -/
def insert (draws : ℕ → Option (Vector UInt8 16)) (table : String) (fields : Fields) :
    LiveM DocId := do
  let s ← read
  if s.isMutation then
    let table ← onTxn (Catalog.tableForInsert app.enc table)
    update fun s => { s with drawn := s.drawn + 1 }
    let (id, record, bytes) ←
      onTxn (Docs.insertSized app.enc table fields app.limits (draws s.drawn))
    update (remember table)
    wrote app record bytes
    return id
  else fail (queryWrite "insert")

/-- The table of a document, which must exist. -/
def existingTable (id : DocId) : LiveM TableDef := do
  match ← tableById id.table with
  | some table => return table
  | none => fail (.notFound
      s!"document {id.display app.text}: its table {id.table} does not exist")

/-- Patches or replaces a document. -/
def rewrite (id : DocId) (fields : Fields) (merge : Bool) : LiveM Unit := do
  let s ← read
  if s.isMutation then
    let table ← existingTable app id
    countScanned app 1
    let (record, bytes) ←
      if merge then onTxn (Docs.patchSized app.text app.enc table id fields app.limits)
      else onTxn (Docs.replaceSized app.text app.enc table id fields app.limits)
    update (addPoint (document id))
    wrote app record bytes
  else fail (queryWrite (if merge then "patch" else "replace"))

/-- Sets fields of a document and keeps the others. -/
def patch (id : DocId) (fields : Fields) : LiveM Unit :=
  rewrite app id fields true

/-- Replaces the fields of a document. -/
def replace (id : DocId) (fields : Fields) : LiveM Unit :=
  rewrite app id fields false

/-- Deletes a document, which must exist. -/
def delete (id : DocId) : LiveM Unit := do
  let s ← read
  if s.isMutation then
    let table ← existingTable app id
    countScanned app 1
    match ← onTxn (Docs.delete app.text table id app.limits) with
    | none => fail (.notFound s!"document {id.display app.text} in table '{table.name}'")
    | some record =>
      update (addPoint (document id))
      wrote app record
        ((document id).length + (record.removed.map List.length).sum)
  else fail (queryWrite "delete")

end LiveTxn

/-! ## Functions -/

/-- A function as a tree: each operation is followed by what the function does with its
answer, an error included. -/
inductive Body
  | done (result : Except LiveError LiveValue)
  /-- Looks at the start timestamp, the usage and the read set. -/
  | observe (next : Timestamp → Usage → ReadSet → Body)
  | get (id : DocId) (next : Except LiveError (Option Doc) → Body)
  | query (range : IndexRange) (next : Except LiveError (List Doc) → Body)
  | table (name : String) (next : Except LiveError (Option TableDef) → Body)
  | insert (table : String) (fields : Fields) (next : Except LiveError DocId → Body)
  | patch (id : DocId) (fields : Fields) (next : Except LiveError Unit → Body)
  | replace (id : DocId) (fields : Fields) (next : Except LiveError Unit → Body)
  | delete (id : DocId) (next : Except LiveError Unit → Body)

namespace Body

variable (app : App) (draws : ℕ → Option (Vector UInt8 16))

/-- Runs an operation and goes on with its answer, whatever it is. -/
def andThen {α β : Type} (p : LiveM α)
    (next : Except LiveError α → LiveM β) : LiveM β := fun s =>
  (next (p.exec s).1).exec (p.exec s).2

/-- Runs a function to its result. -/
def run : Body → LiveM LiveValue
  | .done result => ofExcept result
  | .observe next => fun s => ((next s.txn.start s.usage s.readSet).run).exec s
  | .get id next => andThen (LiveTxn.get app id) fun r => (next r).run
  | .query range next => andThen (LiveTxn.query app range) fun r => (next r).run
  | .table name next => andThen (LiveTxn.table name) fun r => (next r).run
  | .insert name fields next =>
    andThen (LiveTxn.insert app draws name fields) fun r => (next r).run
  | .patch id fields next => andThen (LiveTxn.patch app id fields) fun r => (next r).run
  | .replace id fields next => andThen (LiveTxn.replace app id fields) fun r => (next r).run
  | .delete id next => andThen (LiveTxn.delete app id) fun r => (next r).run

end Body

end Loams.Live
