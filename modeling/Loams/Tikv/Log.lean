/-
# The log engine on TiKV

A partition is a head and one key per index entry, and a WAL object is committed in groups.
-/

import Loams.Meta.Log
import Loams.Tikv.Txn

namespace Loams.Tikv

open Loams.Data Loams.Meta Loams.Control Program

/-- A request to commit a WAL object. -/
structure WalCommit where
  object : String
  createdAtMs : ℕ
  chunks : List WalChunk
  deriving DecidableEq

/-- A request to replace a run of WAL entries by a segment. -/
structure SegmentSwap where
  stream : StreamId
  partition : ℕ
  replaces : List (ℕ × String)
  segment : String
  byteRange : ByteRange
  maxTimestampMs : ℤ
  fence : Option Fence
  fresh : Freshness
  deriving DecidableEq

/-- Index entries per scan page. -/
def entryPage : ℕ := 256

variable (F : Format)

/-! ## Shared reads -/

variable (store : Store)

/-- The partition exists. -/
def checkPartition (stream : StreamId) (partition : ℕ) : Except Stop Unit := do
  match ← load F.stream store "stream" ((Key.stream stream).bytes F) with
  | none => .error (.rejected (.streamNotFound stream))
  | some s =>
    if s.partitions ≤ partition then .error (.rejected (.partitionNotFound stream partition))
    else .ok ()

/-- The lease has the fence's epoch. -/
def checkFence (fence : Fence) : Except Stop Unit := do
  match ← load F.lease store "lease" ((Key.lease fence.lease).bytes F) with
  | some lease =>
    require (lease.epoch = fence.epoch ∧ lease.owner.isSome) (.rejected (.fenced fence.lease))
  | none => .error (.rejected (.fenced fence.lease))

/-- A request without a fence passes. -/
def checkFence? : Option Fence → Except Stop Unit
  | none => .ok ()
  | some fence => checkFence F store fence

/-- An absent head is an empty one. -/
def decodeHead : Option Bytes → Except Stop Head
  | none => .ok {}
  | some value => decode F.head "partition head" value

/-- Whether garbage collection has claimed an object. -/
def isClaimed (value : Option Bytes) : Except Stop Bool :=
  match value with
  | none => .ok false
  | some value => (decode F.object "object reference" value).map ObjectRef.gcClaim

/-! ## Commits -/

/-- The streams that the chunks name, by their ids. -/
def loadStreams (chunks : List WalChunk) : Except Stop (BTreeMap StreamId Meta.Stream) := do
  let pairs := (batchGet store (chunks.map fun c => (Key.stream c.stream).bytes F)).toList
  let streams ← pairs.mapM fun pair => decode F.stream "stream" pair.2
  return streams.foldl (fun m s => m.insert s.id s) ∅

/-- The partition exists, and the chunk is within bounds. -/
def validateChunk (streams : BTreeMap StreamId Meta.Stream) (chunk : WalChunk) :
    Except ApplyError Unit :=
  match streams[chunk.stream]? with
  | none => .error (.streamNotFound chunk.stream)
  | some stream => do
    require (chunk.partition < stream.partitions)
      (ApplyError.partitionNotFound chunk.stream chunk.partition)
    requireArg (chunk.records ≠ 0) "a WAL chunk needs at least one record"
    requireArg (chunk.byteRange.start < chunk.byteRange.stop)
      (s!"a WAL chunk needs a non-empty byte range, got " ++
        s!"{chunk.byteRange.start}..{chunk.byteRange.stop}")

/-- Offsets by call position, in call order. -/
def inCallOrder (offsets : List (ℕ × ℕ)) : List ℕ :=
  (offsets.insertionSort fun a b => a.1 ≤ b.1).map Prod.snd

/-- A retry whose chunks group differently from the first attempt's. -/
def regrouped (object : String) (recorded now : ℕ) : ApplyError :=
  .invalidArgument
    (s!"WAL object {debugStr object} was committed in {recorded} partition groups " ++
    s!"and this retry makes {now}: retry it with its original chunks")

/-- The heads of the chunks' partitions, as the transaction locked them. -/
def lockedHeads (locked : Store) : List Bytes → Except Stop (BTreeMap Bytes Head)
  | [] => .ok ∅
  | key :: rest => do
    let head ← decodeHead F locked[key]?
    let heads ← lockedHeads locked rest
    return heads.insert key head

/-- The loop of a group's commit: each chunk gets the next offset of its partition
and an index entry. -/
def placeMembers (object : String) : List (ℕ × WalChunk) → BTreeMap Bytes Head →
    Txn (List (ℕ × ℕ) × BTreeMap Bytes Head)
  | [], heads => pure ([], heads)
  | (position, chunk) :: rest, heads =>
    let key := (Key.head chunk.stream chunk.partition).bytes F
    match heads[key]? with
    | none => fail (.fatal "a chunk's head was not locked")
    | some head => do
      let entry := chunk.entryAt object head.next
      update fun store => store.insert
        ((Key.indexEntry chunk.stream chunk.partition head.next).bytes F) (encode F.entry entry)
      if u32Max < position then fail (.fatal "a WAL commit has over u32::MAX chunks")
      else
        let (offsets, heads) ← placeMembers object rest (heads.insert key
          { head with next := head.next + chunk.records, bytes := head.bytes + entryBytes entry })
        return ((position, head.next) :: offsets, heads)

/-- Writes every head. -/
def putHeads (heads : List (Bytes × Head)) : Store :=
  heads.foldl (fun store pair => store.insert pair.1 (encode F.head pair.2)) store

/-- The live count an object has, none being zero. -/
def liveCount (value : Option Bytes) : Except Stop ℕ :=
  match value with
  | none => .ok 0
  | some value => decodeU32 "WAL live count" value

/-- Commits one partition group, given by the positions of its chunks in the call,
and returns each chunk's position with its base offset. -/
def commitGroup (commit : WalCommit) (group groups : ℕ) (members : List ℕ) (clockMs : ℕ) :
    Txn (List (ℕ × ℕ)) := do
  let object := commit.object
  let picked := members.filterMap fun i => (commit.chunks[i]?).map fun c => (i, c)
  let chunks := picked.map Prod.snd
  let heads := chunks.map fun c => (Key.head c.stream c.partition).bytes F
  let recordKey := (Key.walGroup object group).bytes F
  let liveKey := (Key.walLive object).bytes F
  let retiredKey := (Key.retired object).bytes F
  let objectKey := (Key.objectRef object).bytes F
  let store ← read
  let locked := batchGet store (heads ++ [recordKey, liveKey, retiredKey, objectKey])
  match locked[recordKey]? with
  -- A retry: the group's record holds its first commit's offsets.
  | some value =>
    let record ← decode F.group "WAL commit record" value
    require (record.groups = groups) (Stop.rejected (regrouped object record.groups groups))
    return record.offsets
  | none =>
    let stale := Stop.rejected (.staleCommit object)
    require (clockMs ≤ satAdd commit.createdAtMs walCommitWindowMs) stale
    checked (requireArg (members ≠ []) "a WAL commit needs at least one chunk")
    -- An object already retired or claimed must not become reachable again.
    let claimed ← isClaimed F locked[objectKey]?
    require (claimed = false ∧ retiredKey ∉ locked) stale
    let streams ← loadStreams F store chunks
    checked (chunks.forM (validateChunk streams))
    let headValues ← lockedHeads F locked heads
    let (offsets, headValues) ← placeMembers F object picked headValues
    update fun store => putHeads F store headValues.toList
    let live ← liveCount locked[liveKey]?
    update fun store => store.insert liveKey
      (beBytes 4 (min (live + min members.length u32Max) u32Max))
    update fun store => store.insert recordKey
      (encode F.group ⟨groups, commit.createdAtMs, offsets⟩)
    return offsets

/-! ## Releases -/

/-- How many WAL entries of each object are released. -/
def releasedWal (entries : List IndexEntry) : BTreeMap String ℕ :=
  entries.foldl (fun wal e =>
    match e.kind with
    | .wal => wal.insert e.object ((wal[e.object]?).getD 0 + 1)
    | .segment => wal) ∅

/-- Segments retire at once. -/
def retireSegments (entries : List IndexEntry) (nowMs : ℕ) : Store :=
  entries.foldl (fun store e =>
    match e.kind with
    | .wal => store
    | .segment => store.insert ((Key.retired e.object).bytes F) (beBytes 8 nowMs)) store

/-- Takes the released entries off the live counts; an object without live entries
retires. -/
def releaseWal (live : Store) (nowMs : ℕ) : List (String × ℕ) → Txn Unit
  | [] => pure ()
  | (object, released) :: rest => do
    let key := (Key.walLive object).bytes F
    let count ← liveCount live[key]?
    let remaining := count - released
    if remaining = 0 then do
      update fun store => store.erase key
      update fun store => store.insert ((Key.retired object).bytes F) (beBytes 8 nowMs)
    else update fun store => store.insert key (beBytes 4 remaining)
    releaseWal live nowMs rest

/-- Accounts for index entries that a write removed. -/
def releaseEntries (entries : List IndexEntry) (nowMs : ℕ) : Txn Unit := do
  update fun store => retireSegments F store entries nowMs
  let wal := (releasedWal entries).toList
  if wal.isEmpty then pure ()
  else
    let store ← read
    releaseWal F (batchGet store (wal.map fun pair => (Key.walLive pair.1).bytes F)) nowMs wal

/-! ## Scans of the index -/

/-- One page of a scan: stops at the first entry that is not wanted. Returns
whether the scan goes on, what was taken so far and where the next page starts. -/
def takePage (keepGoing : List (Bytes × IndexEntry) → IndexEntry → Bool) :
    List (Bytes × Bytes) → List (Bytes × IndexEntry) → Bytes →
    Except Stop (Bool × List (Bytes × IndexEntry) × Bytes)
  | [], out, start => .ok (true, out, start)
  | (key, value) :: page, out, start => do
    let entry ← decode F.entry "index entry" value
    if keepGoing out entry then takePage keepGoing page (out ++ [(key, entry)]) (after key)
    else .ok (false, out, start)

/-- Pages until one is not full. A full page moves the start behind its keys, so
the number of keys bounds the rounds. -/
def takePages (hi : Option Bytes) (keepGoing : List (Bytes × IndexEntry) → IndexEntry → Bool) :
    ℕ → List (Bytes × IndexEntry) → Bytes → Except Stop (List (Bytes × IndexEntry))
  | 0, out, _ => .ok out
  | fuel + 1, out, start => do
    let page := scan store start hi entryPage
    let (goOn, out, start) ← takePage F keepGoing page out start
    if goOn ∧ page.length = entryPage then takePages hi keepGoing fuel out start
    else .ok out

/-- Where a scan of a partition's index from an offset starts: at the entry that
holds the offset, or at the offset. -/
def scanStart (stream : StreamId) (partition offset : ℕ) : Except Stop Bytes := do
  let lo := (prefixRange (partitionEntries stream partition)).1
  let start := (Key.indexEntry stream partition offset).bytes F
  match scanReverse store lo (some (after start)) 1 with
  | [] => .ok start
  | (key, value) :: _ =>
    let entry ← decode F.entry "index entry" value
    return if offset < entry.endOffset then key else start

/-- The index entries of a partition from the one holding an offset, or the first
after it, in offset order, as long as they are wanted. -/
def entriesFrom (stream : StreamId) (partition offset : ℕ)
    (keepGoing : List (Bytes × IndexEntry) → IndexEntry → Bool) :
    Except Stop (List (Bytes × IndexEntry)) := do
  let hi := (prefixRange (partitionEntries stream partition)).2
  let start ← scanStart F store stream partition offset
  takePages F store hi keepGoing (store.size + 1) [] start

/-! ## Swaps and trims -/

/-- The index entries found under the keys. -/
def decodeEntries : List (Bytes × Bytes) → Except Stop (BTreeMap Bytes IndexEntry)
  | [] => .ok ∅
  | (key, value) :: rest => do
    let entry ← decode F.entry "index entry" value
    let found ← decodeEntries rest
    return found.insert key entry

/-- Checks the run of entries a swap replaces, from the base offset the next one
must have; returns their records and the entries. -/
def checkRun (found : BTreeMap Bytes IndexEntry) (mismatch : ApplyError) :
    List ((ℕ × String) × Bytes) → ℕ → ℕ → Except ApplyError (ℕ × List IndexEntry)
  | [], _, records => .ok (records, [])
  | ((base, object), key) :: rest, expectedBase, records =>
    match found[key]? with
    | none => .error mismatch
    | some e =>
      if base ≠ expectedBase ∨ e.kind ≠ .wal ∨ e.object ≠ object then .error mismatch
      else if records + e.records ≤ u32Max then do
        let (records, removed) ← checkRun found mismatch rest e.endOffset (records + e.records)
        return (records, e :: removed)
      else .error (.invalidArgument "a segment holds at most u32::MAX records")

/-- Takes the replaced entries out of the head's byte count and, apart from the
first, out of the index, where the segment overwrites it. -/
def dropRun (firstBase : ℕ) : List (IndexEntry × Bytes) → Head → Store → Head × Store
  | [], head, store => (head, store)
  | (entry, key) :: rest, head, store =>
    dropRun firstBase rest { head with bytes := head.bytes - entryBytes entry }
      (if entry.baseOffset ≠ firstBase then store.erase key else store)

/-- A segment takes the place of entries. -/
def swapBody (swap : SegmentSwap) (clockMs : ℕ) : Txn Unit := do
  let headKey := (Key.head swap.stream swap.partition).bytes F
  let store ← read
  let head ← decodeHead F store[headKey]?
  checkPartition F store swap.stream swap.partition
  match swap.replaces with
  | [] =>
    fail (.rejected (.invalidArgument "a segment swap must replace at least one entry"))
  | (firstBase, _) :: _ =>
    let entryKeys := swap.replaces.map fun r =>
      (Key.indexEntry swap.stream swap.partition r.1).bytes F
    let firstKey := (Key.indexEntry swap.stream swap.partition firstBase).bytes F
    let found ← decodeEntries F (batchGet store entryKeys).toList
    -- A retry of a swap that was applied: the segment entry is in place.
    if (found[firstKey]?).any fun e => e.kind = .segment ∧ e.object = swap.segment then pure ()
    else
      checkFence? F store swap.fence
      checked (requireArg (swap.byteRange.start < swap.byteRange.stop)
        (s!"a segment needs a non-empty byte range, got {swap.byteRange.start}.." ++
          s!"{swap.byteRange.stop}"))
      let stale := Stop.rejected
        (.staleObject swap.segment swap.fresh.createdAtMs swap.fresh.maxAgeMs clockMs)
      require (swap.fresh.expiredAt clockMs = false) stale
      -- A segment that garbage collection has claimed must not become reachable.
      let claimed ← isClaimed F store[(Key.objectRef swap.segment).bytes F]?
      require (claimed = false) stale
      let (records, removed) ← checked (checkRun found
        (.indexMismatch swap.stream swap.partition) (swap.replaces.zip entryKeys) firstBase 0)
      let segment : IndexEntry :=
        { kind := .segment, baseOffset := firstBase, records, object := swap.segment,
          byteRange := swap.byteRange, maxTimestampMs := swap.maxTimestampMs }
      let (head, dropped) := dropRun firstBase (removed.zip entryKeys) head store
      update fun _ => dropped.insert firstKey (encode F.entry segment)
      update fun store => store.insert headKey
        (encode F.head { head with bytes := head.bytes + entryBytes segment })
      releaseEntries F removed clockMs

/-- The entries before an offset go. -/
def trimPartition (stream : StreamId) (partition beforeOffset : ℕ) (fence : Option Fence)
    (nowMs : ℕ) : Txn ℕ := do
  let headKey := (Key.head stream partition).bytes F
  let store ← read
  let head ← decodeHead F store[headKey]?
  checkPartition F store stream partition
  checkFence? F store fence
  let before := min beforeOffset head.next
  let removed ← entriesFrom F store stream partition 0 fun _ e => e.endOffset ≤ before
  let logStart := max head.logStart before
  if removed = [] ∧ logStart = head.logStart then return logStart
  else
    let bytes := removed.foldl (fun bytes r => bytes - entryBytes r.2) head.bytes
    update fun store => removed.foldl (fun store r => store.erase r.1) store
    update fun store => store.insert headKey (encode F.head { head with logStart, bytes })
    releaseEntries F (removed.map Prod.snd) nowMs
    return logStart

end Loams.Tikv
