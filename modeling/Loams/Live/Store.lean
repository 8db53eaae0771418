/-
# The store of an app and its transactions
-/

import Loams.Control.Isolation
import Loams.Live.Keys

namespace Loams.Live

open Loams.Data Loams.Control Loams.Tikv Program

/-! ## Records -/

/-- A user index: its fields, then the creation time and the id. -/
structure IndexDef where
  id : IndexId
  name : String
  fields : List String
  deriving DecidableEq

/-- A table and its user indexes, whose ids are those of no other index. -/
structure TableDef where
  id : TableId
  name : String
  indexes : List IndexDef
  nextIndexId : UInt32
  user_ids : ∀ i ∈ indexes, IndexId.firstUser ≤ i.id
  distinct_ids : indexes.Pairwise fun i j => i.id ≠ j.id
  deriving DecidableEq

/-- The fields of an index: none for the index on the creation time. The index by id has
no entries. -/
def TableDef.indexFields (table : TableDef) (id : IndexId) : Option (List String) :=
  if id = IndexId.byCreationTime then some []
  else (table.indexes.find? fun i => i.id = id).map (·.fields)

/-- What happened to a document. -/
inductive WriteKind
  | insert
  | replace
  | delete
  deriving DecidableEq

/-- What a write did: all index entries its document had before and all it has after. -/
structure WriteRecord where
  id : DocId
  kind : WriteKind
  removed : List Bytes
  added : List Bytes
  deriving DecidableEq

/-- What one mutation wrote. -/
structure JournalEntry where
  commitHintMs : ℕ
  writes : List WriteRecord
  function : String
  requestId : String
  deriving DecidableEq

/-- The result of a call that was made before. -/
structure IdempotencyRecord where
  result : LiveValue
  expiresMs : ℕ
  function : String
  startTs : Timestamp
  argsHash : Bytes

/-- A stored value. -/
inductive Record
  | number (n : UInt32)
  | table (t : TableDef)
  | schema
  | shards (n : ℕ)
  | document (creationMs : UInt64) (fields : Fields)
  | indexEntry
  | head (seq : ℕ)
  | entry (e : JournalEntry)
  | checkpoint (seq expiresMs : ℕ)
  | idempotency (r : IdempotencyRecord)

/-! ## Keys -/

/-- A stored key. -/
inductive AppKey
  /-- A key of the catalog, the documents or the indexes. -/
  | data (key : Bytes)
  | head (shard : ℕ)
  | entry (shard seq : ℕ)
  | checkpoint (shard : ℕ) (consumer : String)
  | idempotency (hash : Bytes)
  deriving DecidableEq

/-- What functions read. -/
abbrev Data := BTreeMap Bytes Record

/-- What an app stores. -/
structure Store where
  data : Data := ∅
  /-- The head of each journal shard. -/
  heads : ℕ → Option Record := fun _ => none
  /-- The entries of each shard by sequence. -/
  entries : ℕ → BTreeMap ℕ Record := fun _ => ∅
  /-- The checkpoints of each shard by consumer. -/
  checkpoints : ℕ → BTreeMap String Record := fun _ => ∅
  idempotency : BTreeMap Bytes Record := ∅

/-- Writes or erases one key of a map. -/
def setKey {K : Type} [Ord K] [Std.TransOrd K] (m : BTreeMap K Record) (key : K) :
    Option Record → BTreeMap K Record
  | some r => m.insert key r
  | none => m.erase key

theorem getElem?_setKey {K : Type} [Ord K] [Std.TransOrd K] [Std.LawfulEqOrd K] [DecidableEq K]
    (m : BTreeMap K Record) (key : K) (r : Option Record) (key' : K) :
    (setKey m key r)[key']? = if key = key' then r else m[key']? := by
  cases r with
  | none => simp [setKey, Std.ExtTreeMap.getElem?_erase]
  | some r => simp [setKey, Std.ExtTreeMap.getElem?_insert]

namespace Store

/-- The record at a key. -/
def get (s : Store) : AppKey → Option Record
  | .data key => s.data[key]?
  | .head shard => s.heads shard
  | .entry shard seq => (s.entries shard)[seq]?
  | .checkpoint shard consumer => (s.checkpoints shard)[consumer]?
  | .idempotency hash => s.idempotency[hash]?

def set (s : Store) (key : AppKey) (r : Option Record) : Store :=
  match key with
  | .data key => { s with data := setKey s.data key r }
  | .head shard => { s with heads := Function.update s.heads shard r }
  | .entry shard seq =>
    { s with entries := Function.update s.entries shard (setKey (s.entries shard) seq r) }
  | .checkpoint shard consumer =>
    { s with
      checkpoints := Function.update s.checkpoints shard
        (setKey (s.checkpoints shard) consumer r) }
  | .idempotency hash => { s with idempotency := setKey s.idempotency hash r }

theorem get_set (s : Store) (k : AppKey) (r : Option Record) (k' : AppKey) :
    (s.set k r).get k' = if k = k' then r else s.get k' := by
  cases k with
  | data key => cases k' <;> simp [get, set, getElem?_setKey]
  | head shard => cases k' <;> simp [get, set, Function.update_apply, eq_comm]
  | entry shard seq =>
    cases k' with
    | entry shard' seq' =>
      by_cases hs : shard = shard'
      · subst hs
        simp [get, set, getElem?_setKey]
      · simp [get, set, hs, Ne.symm hs]
    | _ => simp [get, set]
  | checkpoint shard consumer =>
    cases k' with
    | checkpoint shard' consumer' =>
      by_cases hs : shard = shard'
      · subst hs
        simp [get, set, getElem?_setKey]
      · simp [get, set, hs, Ne.symm hs]
    | _ => simp [get, set]
  | idempotency hash => cases k' <;> simp [get, set, getElem?_setKey]

/-- The store as transactions see it. -/
def keyed : Keyed Store AppKey Record := ⟨get, set, get_set⟩

end Store

/-! ## Transactions -/

/-- What a transaction has done so far. -/
structure Txn where
  start : Timestamp
  /-- The snapshot of the start, with the transaction's own writes. -/
  view : Store
  /-- In the order they were made. -/
  writes : List (AppKey × Option Record) := []
  /-- Keys that must be absent when the transaction commits. -/
  inserts : List AppKey := []
  locks : List AppKey := []

/-- The lengths of the records as they are encoded. -/
structure Encoding where
  len : Record → ℕ
  /-- Of a journal entry without its writes. -/
  header : JournalEntry → ℕ
  write : WriteRecord → ℕ

/-- Two mebibytes. -/
def maxValueBytes : ℕ := 2 * 1024 * 1024

/-- Programs on a transaction. -/
abbrev TxnM := Program Txn LiveError

namespace Txn

variable (enc : Encoding)

/-- A transaction that has done nothing yet. -/
def startAt (start : Timestamp) (snapshot : Store) : Txn := ⟨start, snapshot, [], [], []⟩

/-- What the transaction asks of the store when it commits. -/
def effect (t : Txn) : Effect AppKey Record := ⟨t.writes, t.inserts, t.locks⟩

def set (key : AppKey) (r : Option Record) (t : Txn) : Txn :=
  { t with view := t.view.set key r, writes := t.writes ++ [(key, r)] }

/-- What the transaction itself has written at a key. -/
def buffered (t : Txn) (key : AppKey) : Option Record := (t.writes.reverse.lookup key).join

/-- Writes a record. -/
def put (key : AppKey) (r : Record) : TxnM Unit := do
  require (enc.len r ≤ maxValueBytes) (LiveError.txn (.fatal "value over 2 MiB"))
  update (Txn.set key (some r))

/-- Writes a record at a key that must be absent. -/
def insert (key : AppKey) (r : Record) : TxnM Unit := do
  require (enc.len r ≤ maxValueBytes) (LiveError.txn (.fatal "value over 2 MiB"))
  let t ← read
  -- the client refuses a key that the transaction itself has already written
  require ((t.buffered key).isNone)
    (LiveError.txn (.alreadyExists "duplicate key insertion"))
  update fun t => { Txn.set key (some r) t with inserts := t.inserts ++ [key] }

/-- The key is deleted. -/
def delete (key : AppKey) : TxnM Unit := update (Txn.set key none)

/-- The keys are locked. -/
def lockKeys (keys : List AppKey) : TxnM Unit :=
  update fun t => { t with locks := t.locks ++ keys }

end Txn

end Loams.Live
