/-
# The metastore's records
-/

import Loams.Data.OrderedMap
import Loams.Data.Text

namespace Loams.Meta

open Loams.Data

/-! ## Machine integers -/

/-- The largest 64-bit value. -/
def u64Max : ℕ := 2 ^ 64 - 1

/-- The largest 32-bit value. -/
def u32Max : ℕ := 2 ^ 32 - 1

/-- 64-bit addition that stops at the largest value. -/
def satAdd (a b : ℕ) : ℕ := min (a + b) u64Max

/-! ## Namespaces, streams and links -/

/-- The number of a namespace. -/
abbrev NamespaceId := ℕ
/-- The number of a stream. -/
abbrev StreamId := ℕ
/-- The number of a link. -/
abbrev LinkId := ℕ
/-- The number of a collection. -/
abbrev CollectionId := ℕ

/-- The unit of tenancy. -/
structure Namespace where
  id : NamespaceId
  name : String
  deriving DecidableEq

/-- WAL durability class of a stream. -/
inductive WalClass
  | standard
  | express
  | quorum
  deriving DecidableEq

/-- How long a stream keeps its records; `none` is no limit of that kind. -/
structure Retention where
  maxAgeMs : Option ℕ := none
  maxBytes : Option ℕ := none
  deriving DecidableEq

/-- What a link materializes into. -/
structure TargetRef where
  kind : String
  name : String
  deriving DecidableEq

/-- A continuously maintained materialization of a stream into a target. -/
structure Link where
  id : LinkId
  «namespace» : NamespaceId
  name : String
  source : StreamId
  target : TargetRef
  options : BTreeMap String String
  deriving DecidableEq

/-- A partitioned, offset-addressed stream. -/
structure Stream where
  id : StreamId
  «namespace» : NamespaceId
  name : String
  partitions : ℕ
  «class» : WalClass
  retention : Retention
  deriving DecidableEq

/-! ## The log engine -/

/-- A half-open range of byte positions. -/
structure ByteRange where
  start : ℕ
  stop : ℕ
  deriving DecidableEq

/-- The bytes a range covers; none when it ends before it starts. -/
def ByteRange.length (r : ByteRange) : ℕ := r.stop - r.start

/-- One partition's records inside a WAL object. -/
structure WalChunk where
  stream : StreamId
  partition : ℕ
  records : ℕ
  byteRange : ByteRange
  maxTimestampMs : ℤ
  deriving DecidableEq

/-- What kind of object an index entry points into. -/
inductive EntryKind
  | wal
  | segment
  deriving DecidableEq

/-- Records `[baseOffset, baseOffset + records)` of a partition live at `byteRange`
inside `object`. -/
structure IndexEntry where
  kind : EntryKind
  baseOffset : ℕ
  records : ℕ
  object : String
  byteRange : ByteRange
  maxTimestampMs : ℤ
  deriving DecidableEq

/-- One past the last offset of an entry. -/
def IndexEntry.endOffset (e : IndexEntry) : ℕ := e.baseOffset + e.records

/-- How old a WAL object may be when it is first committed. Commit records are
kept for twice as long. -/
def walCommitWindowMs : ℕ := 900000

/-- What the metastore remembers about a committed WAL object. -/
structure WalCommitRecord where
  baseOffsets : List ℕ
  createdAtMs : ℕ
  deriving DecidableEq

/-- Sequencer state of one partition: the next offset, the first readable one, the
offset index by base offset, and the bytes the index covers. -/
structure PartitionState where
  nextOffset : ℕ := 0
  logStartOffset : ℕ := 0
  index : BTreeMap ℕ IndexEntry := ∅
  bytes : ℕ := 0
  deriving DecidableEq

/-- The bytes an entry covers. -/
def entryBytes (e : IndexEntry) : ℕ := e.byteRange.length

namespace PartitionState

variable (p : PartitionState)

/-- Adds an index entry, keeping the byte count. -/
def insertEntry (e : IndexEntry) : PartitionState :=
  let bytes := p.bytes + entryBytes e
  match p.index[e.baseOffset]? with
  | some replaced =>
    { p with index := p.index.insert e.baseOffset e, bytes := bytes - entryBytes replaced }
  | none => { p with index := p.index.insert e.baseOffset e, bytes := bytes }

/-- Removes the index entry at a base offset, keeping the byte count. -/
def removeEntry (baseOffset : ℕ) : Option IndexEntry × PartitionState :=
  match p.index[baseOffset]? with
  | some e =>
    (some e, { p with index := p.index.erase baseOffset, bytes := p.bytes - entryBytes e })
  | none => (none, p)

/-- Removes the first index entry if it ends at or before the offset. -/
def popFirstBefore (offset : ℕ) : Option IndexEntry × PartitionState :=
  match p.index.first? with
  | some (base, e) => if e.endOffset ≤ offset then p.removeEntry base else (none, p)
  | none => (none, p)

/-- Pops entries until the first one reaches past the offset; the entries come
out in offset order. Each round removes an entry, so the index's size bounds the
rounds. -/
def popAllBefore (p : PartitionState) (offset : ℕ) : ℕ → List IndexEntry × PartitionState
  | 0 => ([], p)
  | fuel + 1 =>
    match p.popFirstBefore offset with
    | (some e, p') =>
      let (removed, q) := popAllBefore p' offset fuel
      (e :: removed, q)
    | (none, p') => ([], p')

/-- Every index entry, in offset order. -/
def entries : List IndexEntry := p.index.toList.map Prod.snd

/-- The index entry holding an offset, if that offset is committed and not trimmed. -/
def lookup (offset : ℕ) : Option IndexEntry :=
  if offset < p.logStartOffset then none
  else
    (p.index.toList.filter fun kv => kv.1 ≤ offset).getLast?.map Prod.snd
      |>.filter fun e => offset < e.endOffset

/-- Index entries in offset order, starting with the one holding the offset or the
first one after it; trimmed entries are never returned. -/
def entriesFrom (offset : ℕ) : List IndexEntry :=
  let offset := max offset p.logStartOffset
  let start := (p.lookup offset).elim offset IndexEntry.baseOffset
  (p.index.toList.filter fun kv => start ≤ kv.1).map Prod.snd

end PartitionState

/-! ## The ingest ledger -/

/-- SHA-256 of an event's identity. -/
abbrev IdempotencyKey := Vector UInt8 32

instance lawfulBEqIdempotencyKey : LawfulBEq IdempotencyKey := inferInstance

instance transOrdLedgerKey : Std.TransOrd (StreamId × IdempotencyKey) := inferInstance

/-- The longest a claim stays pending, and the longest a done key is remembered. -/
def maxIdempotencyTtlMs : ℕ := 86400000

/-- The most keys one ledger request may carry. -/
def maxIdempotencyKeys : ℕ := 1000

/-- One key of the ledger, until `untilMs` by the metastore clock. -/
inductive IdempotencyEntry
  | pending (owner : String) (untilMs : ℕ)
  | done (partition : ℕ) (offset : ℕ) (untilMs : ℕ)
  deriving DecidableEq

/-- When the entry lapses. -/
def IdempotencyEntry.untilMs : IdempotencyEntry → ℕ
  | .pending _ untilMs => untilMs
  | .done _ _ untilMs => untilMs

/-- Whether the entry still counts. -/
def IdempotencyEntry.isLiveAt (e : IdempotencyEntry) (nowMs : ℕ) : Bool := nowMs < e.untilMs

/-- What a claim found for one key. -/
inductive IdempotencyState
  | claimed
  | inFlight (untilMs : ℕ)
  | done (partition : ℕ) (offset : ℕ)
  deriving DecidableEq

/-! ## Leases, fences and pointers -/

/-- A lease on a key; the owner is `none` once the holder has released it. -/
structure Lease where
  epoch : ℕ
  owner : Option String
  deadlineMs : ℕ
  deriving DecidableEq

/-- Whether the lease is held, neither released nor expired. -/
def Lease.isHeldAt (l : Lease) (nowMs : ℕ) : Bool := l.owner.isSome && nowMs < l.deadlineMs

/-- What a successful acquire or renew hands back. -/
structure LeaseGrant where
  epoch : ℕ
  deadlineMs : ℕ
  deriving DecidableEq

/-- The precondition that a lease is still at `epoch`. -/
structure Fence where
  lease : String
  epoch : ℕ
  deriving DecidableEq

/-- How long a newly written object may take to become referenced. -/
structure Freshness where
  createdAtMs : ℕ
  maxAgeMs : ℕ
  deriving DecidableEq

/-- Whether a command carrying this freshness is refused at the clock. -/
def Freshness.expiredAt (f : Freshness) (clockMs : ℕ) : Bool :=
  satAdd f.createdAtMs f.maxAgeMs < clockMs

/-- A versioned pointer. -/
structure Pointer where
  version : ℕ
  value : String
  deriving DecidableEq

/-! ## Limits -/

/-- The length of a collection's name. -/
def maxCollectionNameLen : ℕ := 222
/-- The length of a name. -/
def maxNameLen : ℕ := 255
/-- The partitions of a stream. -/
def maxPartitions : ℕ := 10000
/-- The length of a key. -/
def maxKeyLen : ℕ := 1024
/-- The lifetime of a lease. -/
def maxLeaseTtlMs : ℕ := 3600000
/-- The members of an alias. -/
def maxAliasTargets : ℕ := 100
/-- The actions of one command. -/
def maxAliasActions : ℕ := 100
/-- The options of a link. -/
def maxLinkOptions : ℕ := 64

/-! ## Collections and aliases -/

/-- The target kind of a collection's implicit link. -/
def collectionKind : String := "collection"

/-- Which hot structures a collection keeps. -/
structure HotConfig where
  vectors : Bool := false
  text : Bool := false
  fragments : Bool := false
  deriving DecidableEq

/-- Whether any structure is on. -/
def HotConfig.any (h : HotConfig) : Bool := h.vectors || h.text || h.fragments

/-- One change of an alias update. -/
inductive AliasAction
  | create («alias» collection : String)
  | delete («alias» : String)
  deriving DecidableEq

/-- One change of an alias-target update. -/
inductive AliasTargetAction
  | add («alias» collection : String) (isWriteIndex : Option Bool)
  | remove («alias» collection : String)
  | removeAlias («alias» : String)
  deriving DecidableEq

/-- The members of an alias with their `is_write_index` settings. -/
abbrev AliasMembers := BTreeMap CollectionId (Option Bool)

/-- An alias outside the single-target map. -/
structure AliasTargets where
  members : AliasMembers
  deriving DecidableEq

/-- The name of a collection's implicit stream and link. -/
def implicitName (collection : String) (id : CollectionId) : String :=
  "_collection." ++ collection ++ "." ++ toString id

/-- Pointer keys under this prefix belong to collections. -/
def collectionPointerPrefix : String := "collection/"

/-- The pointer key of a collection's manifest. -/
def collectionPointerKey (id : CollectionId) : String := collectionPointerPrefix ++ toString id

/-- Where a collection's objects live. -/
def collectionPrefix (ns : NamespaceId) (id : CollectionId) : String :=
  "ns/" ++ toString ns ++ "/collections/" ++ toString id ++ "/"

/-- Where a collection's primary-key index lives. -/
def collectionPkPrefix (ns : NamespaceId) (id : CollectionId) : String :=
  "ns/" ++ toString ns ++ "/pk/collection-" ++ toString id ++ "/"

/-! ## Refusals -/

/-- Why a command was rejected. -/
inductive ApplyError
  | invalidArgument (message : String)
  | namespaceExists (id : NamespaceId)
  | namespaceNotFound (id : NamespaceId)
  | streamExists (id : StreamId)
  | streamNotFound (id : StreamId)
  | linkExists (id : LinkId)
  | partitionNotFound (stream : StreamId) (partition : ℕ)
  | leaseHeld (owner : String) (deadlineMs : ℕ)
  | leaseLost (key : String)
  | versionMismatch (current : Option Pointer)
  | fenced (lease : String)
  | indexMismatch (stream : StreamId) (partition : ℕ)
  | staleCommit (object : String)
  | staleObject (object : String) (createdAtMs maxAgeMs clockMs : ℕ)
  | collectionExists (id : CollectionId)
  | collectionNotFound (id : CollectionId)
  | nameTaken (name : String)
  | incompatibleSchema (message : String)
  | schemaVersionMismatch (collection : CollectionId) (current : ℕ)
  | unknownCollection (name : String)
  deriving DecidableEq

end Loams.Meta
