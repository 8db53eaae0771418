/-
# The metastore state
-/

import Loams.Meta.Schema
import Loams.Meta.Types

namespace Loams.Meta

open Loams.Data Loams.Control

/-- A collection: documents under a schema, written through its implicit stream
and materialized by its implicit link. -/
structure Collection where
  id : CollectionId
  «namespace» : NamespaceId
  name : String
  schema : CollectionSchema
  partitions : ℕ
  stream : StreamId
  link : LinkId
  deriving DecidableEq

/-! ## Commands and replies -/

/-- A change to the metastore. -/
inductive Command
  | createNamespace (name : String)
  | createStream («namespace» : NamespaceId) (name : String) (partitions : ℕ)
      («class» : WalClass) (retention : Retention)
  | createLink («namespace» : NamespaceId) (name : String) (source : StreamId)
      (target : TargetRef) (options : BTreeMap String String)
  | commitWal (object : String) (createdAtMs : ℕ) (chunks : List WalChunk)
  | setRetention (stream : StreamId) (retention : Retention)
  | swapSegment (stream : StreamId) (partition : ℕ) (replaces : List (ℕ × String))
      (segment : String) (byteRange : ByteRange) (maxTimestampMs : ℤ) (fence : Option Fence)
      (nowMs : ℕ) (fresh : Freshness)
  | trimPartition (stream : StreamId) (partition : ℕ) (beforeOffset : ℕ) (fence : Option Fence)
      (nowMs : ℕ)
  | pruneWalCommits (fence : Option Fence) (nowMs : ℕ)
  | forgetObjects (objects : List String) (fence : Option Fence)
  | acquireLease (key owner : String) (ttlMs nowMs : ℕ)
  | renewLease (key owner : String) (epoch ttlMs nowMs : ℕ)
  | reacquireLease (key owner : String) (epoch ttlMs nowMs : ℕ)
  | releaseLease (key owner : String) (epoch : ℕ)
  | casPointer («namespace» : NamespaceId) (key : String) (expected : Option ℕ) (value : String)
      (fence : Option Fence) (fresh : Option Freshness)
  | createCollection («namespace» : NamespaceId) (name : String) (schema : CollectionSchema)
      (partitions : ℕ)
  | dropCollection («namespace» : NamespaceId) (name : String) (nowMs : ℕ)
  | updateCollectionSchema (collection : CollectionId) (expectedVersion : ℕ)
      (schema : CollectionSchema)
  | updateAliases («namespace» : NamespaceId) (actions : List AliasAction)
  | setCollectionHot (collection : CollectionId) (hot : HotConfig)
  | updateAliasTargets («namespace» : NamespaceId) (actions : List AliasTargetAction)
  | claimIdempotencyKeys (stream : StreamId) (owner : String) (keys : List IdempotencyKey)
      (ttlMs nowMs : ℕ)
  | completeIdempotencyKeys (stream : StreamId) (owner : String)
      (done : List (IdempotencyKey × ℕ × ℕ)) (windowMs nowMs : ℕ)
  | releaseIdempotencyKeys (stream : StreamId) (owner : String) (keys : List IdempotencyKey)
  | pruneIdempotencyKeys (fence : Option Fence) (nowMs : ℕ)
  deriving DecidableEq

/-- The result of a command that was applied. -/
inductive Reply
  | namespaceCreated (id : NamespaceId)
  | streamCreated (id : StreamId)
  | linkCreated (id : LinkId)
  | walCommitted (baseOffsets : List ℕ)
  | lease (grant : LeaseGrant)
  | leaseReleased
  | pointerSet (version : ℕ)
  | retentionSet
  | segmentSwapped
  | trimmed (logStartOffset : ℕ)
  | pruned (removed : ℕ)
  | forgotten (removed : ℕ)
  | collectionCreated (id : CollectionId) (stream : StreamId) (link : LinkId)
  | collectionDropped (id : Option CollectionId)
  | schemaUpdated (version : ℕ)
  | aliasesUpdated
  | collectionHotSet
  | idempotencyClaimed (states : List IdempotencyState)
  | idempotencyKeysUpdated
  deriving DecidableEq

/-! ## The state -/

/-- The metastore state machine. `clockMs` is the latest time of any applied
command, so it never goes backwards. -/
structure MetaState where
  clockMs : ℕ := 0
  lastNamespaceId : ℕ := 0
  lastStreamId : ℕ := 0
  namespaces : BTreeMap NamespaceId Namespace := ∅
  namespaceNames : BTreeMap String NamespaceId := ∅
  streams : BTreeMap StreamId Stream := ∅
  streamNames : BTreeMap (NamespaceId × String) StreamId := ∅
  partitions : BTreeMap (StreamId × ℕ) PartitionState := ∅
  walCommits : BTreeMap String WalCommitRecord := ∅
  walLiveChunks : BTreeMap String ℕ := ∅
  retired : BTreeMap String ℕ := ∅
  leases : BTreeMap String Lease := ∅
  pointers : BTreeMap (NamespaceId × String) Pointer := ∅
  lastLinkId : ℕ := 0
  links : BTreeMap LinkId Link := ∅
  linkNames : BTreeMap (NamespaceId × String) LinkId := ∅
  lastCollectionId : ℕ := 0
  collections : BTreeMap CollectionId Collection := ∅
  collectionNames : BTreeMap (NamespaceId × String) CollectionId := ∅
  aliases : BTreeMap (NamespaceId × String) CollectionId := ∅
  collectionHot : BTreeMap CollectionId HotConfig := ∅
  aliasTargets : BTreeMap (NamespaceId × String) AliasTargets := ∅
  idempotency : BTreeMap (StreamId × IdempotencyKey) IdempotencyEntry := ∅
  deriving DecidableEq

/-- A handler of a command: it may fail, and what it wrote before stays. -/
abbrev Handler := Program MetaState ApplyError

/-- Moves the clock forward to the time a command carries. -/
def MetaState.advance (s : MetaState) (nowMs : ℕ) : MetaState :=
  { s with clockMs := max s.clockMs nowMs }

/-! ## Names and keys -/

/-- Refuses a command with a message unless the condition holds. -/
def requireArg (ok : Prop) [Decidable ok] (message : String) : Except ApplyError Unit :=
  require ok (.invalidArgument message)

@[simp] theorem requireArg_eq_ok {ok : Prop} [Decidable ok] {message : String} {u : Unit} :
    requireArg ok message = .ok u ↔ ok := require_eq_ok

/-- Names are 1 to 255 ASCII letters, digits, `-`, `_` and `.`, other than `.` and
`..`, so they are safe as path segments. -/
def isName (name : String) : Bool :=
  name ≠ "" && name.utf8ByteSize ≤ maxNameLen && name ≠ "." && name ≠ ".." &&
    name.toList.all fun c => c.isAlphanum || c = '-' || c = '_' || c = '.'

/-- A name of the allowed characters. -/
def validateName (kind name : String) : Except ApplyError Unit :=
  requireArg (isName name) s!"invalid {kind} name {debugStr name}"

/-- Names starting with `_` belong to a collection's stream and link. -/
def refuseReserved (name : String) : Except ApplyError Unit :=
  requireArg (startsWithChar name '_' = false)
    "names starting with '_' are reserved for implicit objects"

/-- Object paths, lease keys and pointer keys are 1 to 1024 bytes. -/
def validateKey (kind key : String) : Except ApplyError Unit :=
  requireArg (key ≠ "" ∧ key.utf8ByteSize ≤ maxKeyLen)
    s!"{kind} must be 1..={maxKeyLen} bytes, got {key.utf8ByteSize}"

end Loams.Meta
