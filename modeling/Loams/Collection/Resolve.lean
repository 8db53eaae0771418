/-
# Applying a batch of records to a collection

A batch is resolved against the committed rows before anything is written.
-/

import Loams.Collection.Values
import Loams.Log.Batch

namespace Loams.Collection

open Loams.Control Loams.Data Loams.Log Std

/-- The parts of the program that resolution rests on: the codec of records, the hash
of keys, and the readers of scalars. -/
structure Runtime where
  encode : DocOp → Except String Record
  decode : Record → Except String DocOp
  hash : Bytes → UInt64
  scalars : Scalars

/-- A collection, as far as writes read it. -/
structure CollectionInfo where
  schema : CollectionSchema
  partitions : ℕ

/-- What reading and committing can fail with. -/
inductive CollectionError
  | corrupt (message : String)
  | internal (message : String)
  /-- The object store has no object at the path. -/
  | storeNotFound (path : String)
  | manifestGone (version : ℕ)
  deriving DecidableEq

/-- One skipped record: where it was, what it held, and why. -/
structure DeadLetter where
  partition : ℕ
  offset : UInt64
  key : Option Bytes
  value : Option Bytes
  reason : String
  deriving DecidableEq

/-- A row: a document, and the record that last wrote it. -/
structure Row where
  doc : Document
  partition : ℕ
  offset : UInt64

/-- A manifest's rows by their ids, and the index from keys to row ids. -/
structure Snapshot where
  lanceVersion : ℕ
  rows : BTreeMap ℕ Row
  index : BTreeMap PrimaryKey ℕ

/-- The row of a key. -/
def Snapshot.view (s : Snapshot) (pk : PrimaryKey) : Option Row := s.index[pk]?.bind (s.rows[·]?)

/-- One write of a key, with the record that carried it. -/
structure KeyOp where
  partition : ℕ
  offset : UInt64
  op : DocOp
  /-- For a valid upsert, the typed values of its document. -/
  extracted : Option ExtractedDoc

/-- A document to insert, with the record that last wrote it. -/
structure Insert where
  doc : Document
  extracted : ExtractedDoc
  partition : ℕ
  offset : UInt64

/-- What a batch does. -/
structure Resolution where
  inserts : BTreeMap PrimaryKey Insert
  deletedRows : List ℕ
  /-- Keys deleted without replacement. -/
  deletedKeys : List PrimaryKey
  letters : List DeadLetter

namespace Resolution

/-- Nothing resolved yet. -/
def empty : Resolution := ⟨∅, [], [], []⟩

/-- Rows come or go. -/
def changesRows (r : Resolution) : Bool := r.inserts.size ≠ 0 || r.deletedRows ≠ []

end Resolution

/-- The dead letter of a record. -/
def letter (partition : ℕ) (record : OffsetRecord) (reason : String) : DeadLetter where
  partition := partition
  offset := record.offset
  key := record.record.key
  value := record.record.value
  reason := reason

/-- The record is given up. -/
def Resolution.letter (r : Resolution) (partition : ℕ) (record : OffsetRecord)
    (reason : String) : Resolution :=
  { r with letters := r.letters ++ [Collection.letter partition record reason] }

/-- The first reason a rejection gives. -/
def schemaReason : DocRejection → String
  | .violations (v :: _) => s!"schema: {v.field}: {v.message}"
  | .violations [] => "schema: rejected"
  | .dynamicMappingRequired paths =>
    s!"schema: {joined paths}: dynamic mapping required"
where
  joined (paths : List String) : String := ", ".intercalate paths

/-! ## One key -/

/-- What one key's writes leave. -/
inductive Outcome
  | unchanged
  | delete
  | upsert (insert : Insert)

/-- The records of a batch by partition and offset. -/
abbrev BatchRecords := BTreeMap (ℕ × UInt64) OffsetRecord

/-- The last write of a key that changed it: the typed values of its result, and its
record. -/
abbrev LastWrite := Option (ExtractedDoc × ℕ × UInt64)

section Fold

variable (scalars : Scalars) (lenient : CollectionSchema) (records : BatchRecords)

/-- The loop of `fold_key`. A patch whose result breaks the schema is skipped. -/
def foldOps : Option Document → LastWrite → Resolution → List KeyOp →
    Except CollectionError (Option Document × LastWrite × Resolution)
  | state, written, resolution, [] => pure (state, written, resolution)
  | state, written, resolution, key :: rest =>
    match key.op with
    | .upsert _ =>
      foldOps (fold state [key.op]) (key.extracted.map fun e => (e, key.partition, key.offset))
        resolution rest
    | .delete _ => foldOps none none resolution rest
    | .patch _ =>
      match fold state [key.op] with
      -- A patch of a missing key without an upsert document.
      | none => foldOps state written resolution rest
      | some next =>
        -- No change: not a write.
        if state.any (·.same next) then foldOps state written resolution rest
        else match checkDocument scalars lenient next with
          | .ok e => foldOps (some next) (some (e, key.partition, key.offset)) resolution rest
          | .error rejection =>
            match records[(key.partition, key.offset)]? with
            | some record =>
              foldOps state written
                (resolution.letter key.partition record (schemaReason rejection)) rest
            | none =>
              .error (.internal
                s!"record {key.partition}/{key.offset} of a key's ops is not in the batch")

/-- Folds one key's writes over its committed document. -/
def foldKey (current : Option Document) (ops : List KeyOp) (resolution : Resolution)
    (hasRow : Bool) : Except CollectionError (Outcome × Resolution) := do
  let (state, written, resolution) ← foldOps scalars lenient records current none resolution ops
  let outcome := match state, written with
    | some doc, some (extracted, partition, offset) =>
      .upsert { doc, extracted, partition, offset }
    -- Only patches that changed nothing, and dead letters: the committed row stands.
    | some _, none => .unchanged
    | none, _ => if hasRow then .delete else .unchanged
  pure (outcome, resolution)

end Fold

/-! ## One batch -/

section Resolve

variable (rt : Runtime) (collection : CollectionInfo)

/-- The operation of a record, or why there is none. -/
def decodeOp (record : OffsetRecord) : Except String DocOp :=
  match rt.decode record.record with
  | .ok op => .ok op
  | .error err => .error s!"undecodable: {err}"

/-- The typed values of an upsert, or why it is rejected. -/
def typedValues : DocOp → Except String (Option ExtractedDoc)
  | .upsert doc =>
    match checkDocument rt.scalars collection.schema.lenient doc with
    | .ok extracted => .ok (some extracted)
    | .error rejection => .error (schemaReason rejection)
  | _ => .ok none

/-- What a record is before any state is looked at: a dead letter, or a write of a key. -/
def sortRecord (partition : ℕ) (record : OffsetRecord) : Except String KeyOp := do
  let op ← decodeOp rt record
  let home := op.pk.partitionOf rt.hash collection.partitions
  require (home = partition) s!"wrong_partition: the key belongs to partition {home}"
  let extracted ← typedValues rt collection op
  pure { partition, offset := record.offset, op, extracted }

/-- The first pass over a batch. -/
structure Pass where
  records : BatchRecords
  keys : BTreeMap PrimaryKey (List KeyOp)
  resolution : Resolution

/-- Takes in one record. -/
def Pass.step (pass : Pass) : ℕ × OffsetRecord → Pass
  | (partition, record) =>
    let records := pass.records.insert (partition, record.offset) record
    match sortRecord rt collection partition record with
    | .error reason =>
      { pass with records, resolution := pass.resolution.letter partition record reason }
    | .ok key =>
      let ops := (pass.keys[key.op.pk]?).getD []
      { pass with records, keys := pass.keys.insert key.op.pk (ops ++ [key]) }

/-- The committed document of a key, when its writes need it. -/
def committedOf (snapshot : Snapshot) (pk : PrimaryKey) (ops : List KeyOp) :
    Except CollectionError (Option Document) :=
  match snapshot.index[pk]? with
  | none => pure none
  | some row =>
    if needsCurrent (ops.map (·.op)) then
      match snapshot.rows[row]? with
      | none => .error (.corrupt <|
          s!"the pk index names row {row}, which lance version {snapshot.lanceVersion} " ++
            "does not have")
      | some stored =>
        if stored.doc.pk = pk then pure (some stored.doc)
        else .error (.corrupt
          s!"the pk index maps {pk.debug} to a row of {stored.doc.pk.debug}")
    else pure none

/-- Adds what one key's writes left; its old row goes unless it stands. -/
def Resolution.settle (resolution : Resolution) (pk : PrimaryKey) (old : Option ℕ) :
    Outcome → Resolution
  | .unchanged => resolution
  | .delete =>
    { resolution with
      deletedRows := resolution.deletedRows ++ old.toList
      deletedKeys := resolution.deletedKeys ++ [pk] }
  | .upsert insert =>
    { resolution with
      deletedRows := resolution.deletedRows ++ old.toList
      inserts := resolution.inserts.insert pk insert }

/-- Folds one key of a batch. -/
def resolveKey (snapshot : Snapshot) (records : BatchRecords) (resolution : Resolution) :
    PrimaryKey × List KeyOp → Except CollectionError Resolution
  | (pk, ops) => do
    let old := snapshot.index[pk]?
    let committed ← committedOf snapshot pk ops
    let (outcome, resolution) ← foldKey rt.scalars collection.schema.lenient records committed ops
      resolution old.isSome
    pure (resolution.settle pk old outcome)

/-- The order of a batch's dead letters. -/
def DeadLetter.le (a b : DeadLetter) : Bool :=
  (compare (a.partition, a.offset) (b.partition, b.offset)).isLE

/-- Decodes a batch and folds every key. -/
def resolve (snapshot : Snapshot) (batch : List (ℕ × OffsetRecord)) :
    Except CollectionError Resolution := do
  let pass := batch.foldl (Pass.step rt collection) ⟨∅, ∅, .empty⟩
  let resolution ← pass.keys.toList.foldlM
    (resolveKey rt collection snapshot pass.records) pass.resolution
  pure { resolution with letters := resolution.letters.mergeSort DeadLetter.le }

end Resolve

/-! ## Committing -/

/-- What is committed: the rows with their index, the id of the next row, and the dead
letters of all commits. -/
structure Committed where
  snapshot : Snapshot
  nextRow : ℕ
  letters : List DeadLetter

namespace Committed

/-- A collection before its first commit. -/
def empty : Committed := ⟨⟨0, ∅, ∅⟩, 0, []⟩

/-- The new rows in the order of their keys, with their ids. -/
def newRows (c : Committed) (r : Resolution) : List (ℕ × PrimaryKey × Row) :=
  r.inserts.toList.zipIdx.map fun ((pk, insert), i) =>
    (c.nextRow + i, pk, { doc := insert.doc, partition := insert.partition,
                          offset := insert.offset })

/-- The rows change, the index follows, and the dead letters are kept. -/
def commit (c : Committed) (r : Resolution) (lanceVersion : ℕ) : Committed where
  snapshot :=
    { lanceVersion := if r.changesRows then lanceVersion else c.snapshot.lanceVersion
      rows := (c.newRows r).foldl (fun rows (id, _, row) => rows.insert id row)
        (r.deletedRows.foldl (·.erase ·) c.snapshot.rows)
      index := (c.newRows r).foldl (fun index (id, pk, _) => index.insert pk id)
        (r.deletedKeys.foldl (·.erase ·) c.snapshot.index) }
  nextRow := c.nextRow + r.inserts.size
  letters := c.letters ++ r.letters

/-- One link-apply batch; Lance names the version it writes. -/
def applyBatch (rt : Runtime) (collection : CollectionInfo) (c : Committed)
    (batch : List (ℕ × OffsetRecord)) (lanceVersion : ℕ) : Except CollectionError Committed := do
  let resolution ← resolve rt collection c.snapshot batch
  pure (c.commit resolution lanceVersion)

end Committed

end Loams.Collection
