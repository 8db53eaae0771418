/-
# The log engine

Commits of WAL objects assign offsets and append to the partitions' offset indexes.
-/

import Loams.Meta.Leases

namespace Loams.Meta

open Loams.Data Loams.Control Program

/-- The index entry of a chunk placed at a base offset. -/
def WalChunk.entryAt (chunk : WalChunk) (object : String) (baseOffset : ℕ) : IndexEntry :=
  { kind := .wal, baseOffset, records := chunk.records, object, byteRange := chunk.byteRange,
    maxTimestampMs := chunk.maxTimestampMs }

namespace PartitionState

/-- Appends a chunk of a WAL object at the next offset. -/
def appendChunk (p : PartitionState) (object : String) (chunk : WalChunk) : PartitionState :=
  { p with nextOffset := p.nextOffset + chunk.records }.insertEntry
    (chunk.entryAt object p.nextOffset)

/-- Removes the entries at the base offsets that are there. -/
def removeEntries (p : PartitionState) : List ℕ → List IndexEntry × PartitionState
  | [] => ([], p)
  | base :: rest =>
    match p.removeEntry base with
    | (some e, p') =>
      let (removed, q) := removeEntries p' rest
      (e :: removed, q)
    | (none, p') => removeEntries p' rest

/-- Checks the run of entries a swap replaces, from the base offset the next one
must have, and adds up their records. -/
def checkReplaced (p : PartitionState) (mismatch : ApplyError) :
    List (ℕ × String) → ℕ → ℕ → Except ApplyError ℕ
  | [], _, records => .ok records
  | (base, object) :: rest, expectedBase, records =>
    match p.index[base]? with
    | none => .error mismatch
    | some e =>
      if base ≠ expectedBase ∨ e.kind ≠ .wal ∨ e.object ≠ object then .error mismatch
      else if records + e.records ≤ u32Max then
        checkReplaced p mismatch rest e.endOffset (records + e.records)
      else .error (.invalidArgument "a segment holds at most u32::MAX records")

end PartitionState

namespace MetaState

variable {s s' : MetaState} {r : Reply}

/-! ## WAL commits -/

/-- The partition exists, and the chunk is within bounds. -/
def validateChunk (s : MetaState) (chunk : WalChunk) : Except ApplyError Unit := do
  require (chunk.stream ∈ s.streams) (ApplyError.streamNotFound chunk.stream)
  require ((chunk.stream, chunk.partition) ∈ s.partitions)
    (ApplyError.partitionNotFound chunk.stream chunk.partition)
  requireArg (chunk.records ≠ 0) "a WAL chunk needs at least one record"
  requireArg (chunk.byteRange.start < chunk.byteRange.stop)
    (s!"a WAL chunk needs a non-empty byte range, got " ++
      s!"{chunk.byteRange.start}..{chunk.byteRange.stop}")

/-- Every chunk is valid. -/
def validateChunks (s : MetaState) (chunks : List WalChunk) : Except ApplyError Unit :=
  chunks.forM s.validateChunk

/-- The loop of a commit: each chunk gets the next offset of its partition. An
error here would keep the chunks already placed. -/
def placeChunks (object : String) : List WalChunk → Handler (List ℕ)
  | [] => pure []
  | chunk :: rest => do
    let s ← read
    match s.partitions[(chunk.stream, chunk.partition)]? with
    | none => fail (.partitionNotFound chunk.stream chunk.partition)
    | some p =>
      update fun s => { s with
        partitions :=
          s.partitions.insert (chunk.stream, chunk.partition) (p.appendChunk object chunk) }
      let baseOffsets ← placeChunks object rest
      return p.nextOffset :: baseOffsets

/-- The chunks of an object get their offsets. -/
def commitWal (object : String) (createdAtMs : ℕ) (chunks : List WalChunk) : Handler Reply := do
  validateKey "WAL object path" object
  let s ← read
  match s.walCommits[object]? with
  -- A retry of a commit whose record is still there.
  | some record => return .walCommitted record.baseOffsets
  | none =>
    require (s.clockMs ≤ satAdd createdAtMs walCommitWindowMs) (ApplyError.staleCommit object)
    requireArg (chunks ≠ []) "a WAL commit needs at least one chunk"
    requireArg (chunks.length ≤ u32Max) s!"too many chunks: {chunks.length}"
    -- Every chunk is checked before anything changes.
    s.validateChunks chunks
    let baseOffsets ← placeChunks object chunks
    update fun s => { s with walLiveChunks := s.walLiveChunks.insert object chunks.length }
    update fun s => { s with walCommits := s.walCommits.insert object ⟨baseOffsets, createdAtMs⟩ }
    return .walCommitted baseOffsets

/-! ## Releases -/

/-- Accounts for an index entry that was removed; what retires is stamped with
the clock. -/
def releaseEntry (s : MetaState) (e : IndexEntry) : MetaState :=
  match e.kind with
  | .wal =>
    let remaining := (s.walLiveChunks[e.object]?).getD 0 - 1
    if remaining = 0 then
      { s with
        walLiveChunks := s.walLiveChunks.erase e.object
        retired := s.retired.insert e.object s.clockMs }
    else { s with walLiveChunks := s.walLiveChunks.insert e.object remaining }
  | .segment => { s with retired := s.retired.insert e.object s.clockMs }

/-- The objects lose these references. -/
def releaseEntries (s : MetaState) (removed : List IndexEntry) : MetaState :=
  removed.foldl releaseEntry s

/-- Releases touch the live counts and the retired objects only. -/
theorem releaseEntries_eq (removed : List IndexEntry) : ∃ live retired,
    s.releaseEntries removed = { s with walLiveChunks := live, retired := retired } := by
  refine removed.foldlRecOn releaseEntry (motive := fun t => ∃ live retired,
    t = { s with walLiveChunks := live, retired := retired }) ⟨s.walLiveChunks, s.retired, rfl⟩ ?_
  rintro _ ⟨live, retired, rfl⟩ e -
  unfold releaseEntry
  cases e.kind with
  | wal =>
    simp only
    split_ifs <;> exact ⟨_, _, rfl⟩
  | segment => exact ⟨_, _, rfl⟩

/-! ## Swaps and trims -/

/-- The partition, if it exists. -/
def partitionState (s : MetaState) (stream : StreamId) (partition : ℕ) :
    Except ApplyError PartitionState := do
  require (stream ∈ s.streams) (ApplyError.streamNotFound stream)
  match s.partitions[(stream, partition)]? with
  | some p => .ok p
  | none => .error (.partitionNotFound stream partition)

/-- The partition once everything is checked; the stream is not looked up again. -/
def partitionStateMut (s : MetaState) (stream : StreamId) (partition : ℕ) :
    Except ApplyError PartitionState :=
  match s.partitions[(stream, partition)]? with
  | some p => .ok p
  | none => .error (.partitionNotFound stream partition)

/-- Whether a swap finds its own segment entry in place. -/
def isSwapped (p : PartitionState) (firstBase : ℕ) (segment : String) : Bool :=
  match p.index[firstBase]? with
  | some e => e.kind = .segment && e.object = segment
  | none => false

/-- The part of a swap that writes. -/
def replaceRun (stream : StreamId) (partition : ℕ) (bases : List ℕ) (entry : IndexEntry) :
    Handler Reply := do
  let s ← read
  let p ← s.partitionStateMut stream partition
  let (removed, p) := p.removeEntries bases
  update fun s => { s with
    partitions := s.partitions.insert (stream, partition) (p.insertEntry entry) }
  update fun s => s.releaseEntries removed
  return .segmentSwapped

/-- A segment takes the place of entries. -/
def swapSegment (stream : StreamId) (partition : ℕ) (replaces : List (ℕ × String))
    (segment : String) (byteRange : ByteRange) (maxTimestampMs : ℤ) (fence : Option Fence)
    (nowMs : ℕ) (fresh : Freshness) : Handler Reply := do
  validateKey "segment path" segment
  let s ← read
  let p ← s.partitionState stream partition
  match replaces with
  | [] => fail (.invalidArgument "a segment swap must replace at least one entry")
  | (firstBase, _) :: _ =>
    -- A retry of a swap that was applied.
    if isSwapped p firstBase segment then return .segmentSwapped
    else
      s.checkFence? fence
      requireArg (byteRange.start < byteRange.stop)
        s!"a segment needs a non-empty byte range, got {byteRange.start}..{byteRange.stop}"
      checkFresh segment fresh (max s.clockMs nowMs)
      let records ← p.checkReplaced (.indexMismatch stream partition) replaces firstBase 0
      update fun s => s.advance nowMs
      replaceRun stream partition (replaces.map Prod.fst)
        { kind := .segment, baseOffset := firstBase, records, object := segment, byteRange,
          maxTimestampMs }

/-- The entries before an offset go. -/
def trimPartition (stream : StreamId) (partition : ℕ) (beforeOffset : ℕ) (fence : Option Fence)
    (nowMs : ℕ) : Handler Reply := do
  let s ← read
  let _ ← s.partitionState stream partition
  s.checkFence? fence
  update fun s => s.advance nowMs
  let s ← read
  let p ← s.partitionStateMut stream partition
  let before := min beforeOffset p.nextOffset
  let (removed, p) := p.popAllBefore before p.index.size
  let logStartOffset := max p.logStartOffset before
  update fun s => { s with
    partitions := s.partitions.insert (stream, partition) { p with logStartOffset } }
  update fun s => s.releaseEntries removed
  return .trimmed logStartOffset

/-! ## Retention and garbage collection -/

/-- How long a stream is kept. -/
def setRetention (stream : StreamId) (retention : Retention) : Handler Reply := do
  let s ← read
  match s.streams[stream]? with
  | none => fail (.streamNotFound stream)
  | some st =>
    requireArg (startsWithChar st.name '_' = false)
      s!"stream {st.id} belongs to a collection; its retention cannot be set"
    update fun s => { s with streams := s.streams.insert stream { st with retention } }
    return .retentionSet

/-- Whether a commit record is kept at the clock. -/
def keepsRecord (clockMs : ℕ) (record : WalCommitRecord) : Bool :=
  clockMs ≤ satAdd record.createdAtMs (2 * walCommitWindowMs)

/-- Old commits are forgotten. -/
def pruneWalCommits (fence : Option Fence) (nowMs : ℕ) : Handler Reply := do
  let s ← read
  s.checkFence? fence
  update fun s => s.advance nowMs
  let s ← read
  let kept := s.walCommits.filter fun _ record => keepsRecord s.clockMs record
  update fun s => { s with walCommits := kept }
  return .pruned (min (s.walCommits.size - kept.size) u32Max)

/-- Forgets the retired objects among the given ones and counts them. -/
def forgetAll (retired : BTreeMap String ℕ) : List String → ℕ → ℕ × BTreeMap String ℕ
  | [], removed => (removed, retired)
  | object :: rest, removed =>
    forgetAll (retired.erase object) rest
      (if object ∈ retired then min (removed + 1) u32Max else removed)

/-- Retired objects are forgotten. -/
def forgetObjects (objects : List String) (fence : Option Fence) : Handler Reply := do
  let s ← read
  s.checkFence? fence
  let (removed, retired) := forgetAll s.retired objects 0
  update fun s => { s with retired }
  return .forgotten removed

/-! ## What a successful command did -/

theorem validateChunk_eq_ok {chunk : WalChunk} {u : Unit} :
    s.validateChunk chunk = .ok u ↔ chunk.stream ∈ s.streams ∧
      (chunk.stream, chunk.partition) ∈ s.partitions ∧ chunk.records ≠ 0 ∧
      chunk.byteRange.start < chunk.byteRange.stop := by
  simp [validateChunk, except_bind_ok]

variable {chunks : List WalChunk} {partition nowMs createdAtMs beforeOffset : ℕ} {stream : StreamId}
  {fence : Option Fence} {object segment : String} {replaces : List (ℕ × String)}
  {byteRange : ByteRange} {maxTimestampMs : ℤ} {fresh : Freshness} {retention : Retention}
  {objects : List String} {p : PartitionState} {bases : List ℕ}

theorem validateChunks_eq_ok {u : Unit} :
    s.validateChunks chunks = .ok u ↔ ∀ chunk ∈ chunks, s.validateChunk chunk = .ok () :=
  forM_eq_ok

/-- The chunks of an object placed one after the other, with their base offsets. -/
inductive Placed (object : String) : List WalChunk → BTreeMap (StreamId × ℕ) PartitionState →
    List ℕ → BTreeMap (StreamId × ℕ) PartitionState → Prop
  | nil (m : BTreeMap (StreamId × ℕ) PartitionState) : Placed object [] m [] m
  | cons {chunk : WalChunk} {rest : List WalChunk} {p : PartitionState} {bases : List ℕ}
      {m m' : BTreeMap (StreamId × ℕ) PartitionState}
      (found : m[(chunk.stream, chunk.partition)]? = some p)
      (placed : Placed object rest
        (m.insert (chunk.stream, chunk.partition) (p.appendChunk object chunk)) bases m') :
      Placed object (chunk :: rest) m (p.nextOffset :: bases) m'

/-- Chunks of partitions that exist are all placed, and nothing else changes. -/
theorem placeChunks_exec (object : String)
    (h : ∀ chunk ∈ chunks, (chunk.stream, chunk.partition) ∈ s.partitions) :
    ∃ bases m', Placed object chunks s.partitions bases m' ∧
      (placeChunks object chunks).exec s = (.ok bases, { s with partitions := m' }) := by
  induction chunks generalizing s with
  | nil => exact ⟨[], s.partitions, .nil _, rfl⟩
  | cons chunk rest ih =>
    obtain ⟨p, hp⟩ := Std.ExtTreeMap.mem_iff_get.mp (h chunk (by simp))
    have hrest : ∀ c ∈ rest, (c.stream, c.partition) ∈
        s.partitions.insert (chunk.stream, chunk.partition) (p.appendChunk object chunk) := by
      intro c hc
      exact Std.ExtTreeMap.mem_insert.mpr (.inr (h c (by simp [hc])))
    obtain ⟨bases, m', hplaced, hexec⟩ := ih (s := { s with
      partitions :=
        s.partitions.insert (chunk.stream, chunk.partition) (p.appendChunk object chunk) }) hrest
    refine ⟨p.nextOffset :: bases, m', .cons hp hplaced, ?_⟩
    rw [placeChunks, exec_read_bind]
    simp only [hp]
    rw [exec_update_bind, exec_bind_of_ok hexec, exec_pure]

/-- A commit answers from its record, or checks and places every chunk. -/
theorem commitWal_ok
    (h : (commitWal object createdAtMs chunks).exec s = (.ok r, s')) :
    (∃ record, s.walCommits[object]? = some record ∧
      r = .walCommitted record.baseOffsets ∧ s' = s) ∨
    s.walCommits[object]? = none ∧ s.clockMs ≤ satAdd createdAtMs walCommitWindowMs ∧
      chunks ≠ [] ∧ chunks.length ≤ u32Max ∧ (∀ c ∈ chunks, s.validateChunk c = .ok ()) ∧
      ∃ bases m', Placed object chunks s.partitions bases m' ∧ r = .walCommitted bases ∧
        s' = { s with
          partitions := m'
          walLiveChunks := s.walLiveChunks.insert object chunks.length
          walCommits := s.walCommits.insert object ⟨bases, createdAtMs⟩ } := by
  simp only [commitWal, exec_check_bind_ok, exec_read_bind] at h
  obtain ⟨_, -, h⟩ := h
  cases hrecord : s.walCommits[object]? with
  | some record =>
    simp only [hrecord, exec_pure, Prod.mk.injEq, Except.ok.injEq] at h
    exact .inl ⟨record, rfl, h.1.symm, h.2.symm⟩
  | none =>
    simp only [hrecord, exec_check_bind_ok, require_eq_ok, requireArg_eq_ok,
      validateChunks_eq_ok] at h
    obtain ⟨_, hclock, _, hne, _, hlen, _, hvalid, h⟩ := h
    obtain ⟨bases, m', hplaced, hexec⟩ := placeChunks_exec (s := s) object
      fun c hc => (validateChunk_eq_ok.mp (hvalid c hc)).2.1
    rw [exec_bind_of_ok hexec, exec_update_bind, exec_update_bind, exec_pure, Prod.mk.injEq,
      Except.ok.injEq] at h
    exact .inr ⟨rfl, hclock, hne, hlen, hvalid, bases, m', hplaced, h.1.symm, h.2.symm⟩

/-- A first commit whose checks pass places its chunks and is recorded. -/
theorem commitWal_exec {m' : BTreeMap (StreamId × ℕ) PartitionState}
    (hkey : validateKey "WAL object path" object = .ok ()) (hrecord : s.walCommits[object]? = none)
    (hwindow : s.clockMs ≤ satAdd createdAtMs walCommitWindowMs) (hne : chunks ≠ [])
    (hlen : chunks.length ≤ u32Max) (hvalid : s.validateChunks chunks = .ok ())
    (hplace : (placeChunks object chunks).exec s = (.ok bases, { s with partitions := m' })) :
    (commitWal object createdAtMs chunks).exec s = (.ok (.walCommitted bases), { s with
      partitions := m'
      walLiveChunks := s.walLiveChunks.insert object chunks.length
      walCommits := s.walCommits.insert object ⟨bases, createdAtMs⟩ }) := by
  rw [commitWal, hkey, exec_ok_bind, exec_read_bind]
  simp only [hrecord, require, requireArg, hwindow, hne, hlen, ne_eq, not_false_eq_true, if_true,
    exec_ok_bind, hvalid]
  rw [exec_bind_of_ok hplace, exec_update_bind, exec_update_bind, exec_pure]

theorem partitionState_eq_ok :
    s.partitionState stream partition = .ok p ↔
      stream ∈ s.streams ∧ s.partitions[(stream, partition)]? = some p := by
  simp only [partitionState, except_bind_ok, require_eq_ok, exists_const]
  cases s.partitions[(stream, partition)]? <;> simp

/-- The state after the run at the base offsets gave way to the entry. -/
def withRun (s : MetaState) (stream : StreamId) (partition : ℕ) (p : PartitionState)
    (bases : List ℕ) (entry : IndexEntry) : MetaState :=
  releaseEntries { s with
    partitions := s.partitions.insert (stream, partition)
      ((p.removeEntries bases).2.insertEntry entry) } (p.removeEntries bases).1

theorem replaceRun_exec {e : IndexEntry} (h : s.partitions[(stream, partition)]? = some p) :
    (replaceRun stream partition bases e).exec s =
      (.ok .segmentSwapped, s.withRun stream partition p bases e) := by
  rw [replaceRun, exec_read_bind, partitionStateMut, h]
  rfl

/-- A swap finds itself applied, or every check passed and the run was replaced. -/
theorem swapSegment_ok
    (h : (swapSegment stream partition replaces segment byteRange maxTimestampMs fence nowMs
      fresh).exec s = (.ok r, s')) :
    r = .segmentSwapped ∧ ∃ p firstBase, stream ∈ s.streams ∧
      s.partitions[(stream, partition)]? = some p ∧ replaces.head?.map Prod.fst = some firstBase ∧
      (isSwapped p firstBase segment = true ∧ s' = s ∨
        (∀ f ∈ fence, s.fenceHolds f = true) ∧ byteRange.start < byteRange.stop ∧
        fresh.expiredAt (max s.clockMs nowMs) = false ∧
        ∃ records, p.checkReplaced (.indexMismatch stream partition) replaces firstBase 0 =
            .ok records ∧
          s' = (s.advance nowMs).withRun stream partition p (replaces.map Prod.fst)
            { kind := .segment, baseOffset := firstBase, records, object := segment, byteRange,
              maxTimestampMs }) := by
  simp only [swapSegment, exec_check_bind_ok, exec_read_bind, partitionState_eq_ok] at h
  obtain ⟨_, -, p, ⟨hstream, hp⟩, h⟩ := h
  cases replaces with
  | nil => simp at h
  | cons first rest =>
    obtain ⟨firstBase, object⟩ := first
    simp only at h
    split_ifs at h with hswapped
    · simp only [exec_pure, Prod.mk.injEq, Except.ok.injEq] at h
      exact ⟨h.1.symm, p, firstBase, hstream, hp, rfl, .inl ⟨hswapped, h.2.symm⟩⟩
    · simp only [exec_check_bind_ok, exec_update_bind, checkFence?_eq_ok, requireArg_eq_ok,
        checkFresh, require_eq_ok] at h
      obtain ⟨_, hfence, _, hrange, _, hfresh, records, hrecords, h⟩ := h
      rw [replaceRun_exec (s := s.advance nowMs) hp, Prod.mk.injEq, Except.ok.injEq] at h
      exact ⟨h.1.symm, p, firstBase, hstream, hp, rfl,
        .inr ⟨hfence, hrange, hfresh, records, hrecords, h.2.symm⟩⟩

/-- The partition after a trim. -/
def trimmedPartition (p : PartitionState) (beforeOffset : ℕ) : List IndexEntry × PartitionState :=
  let before := min beforeOffset p.nextOffset
  let popped := p.popAllBefore before p.index.size
  (popped.1, { popped.2 with logStartOffset := max popped.2.logStartOffset before })

theorem trimPartition_ok
    (h : (trimPartition stream partition beforeOffset fence nowMs).exec s = (.ok r, s')) :
    ∃ p, stream ∈ s.streams ∧ s.partitions[(stream, partition)]? = some p ∧
      (∀ f ∈ fence, s.fenceHolds f = true) ∧
      r = .trimmed (trimmedPartition p beforeOffset).2.logStartOffset ∧
      s' = releaseEntries { s.advance nowMs with
        partitions := s.partitions.insert (stream, partition) (trimmedPartition p beforeOffset).2 }
        (trimmedPartition p beforeOffset).1 := by
  simp only [trimPartition, exec_check_bind_ok, exec_read_bind, partitionState_eq_ok,
    checkFence?_eq_ok, exec_update_bind] at h
  obtain ⟨p, ⟨hstream, hp⟩, _, hfence, q, hq, h⟩ := h
  obtain rfl : p = q := by
    rw [partitionStateMut] at hq
    simpa [advance, hp] using hq
  rw [exec_pure, Prod.mk.injEq, Except.ok.injEq] at h
  exact ⟨p, hstream, hp, hfence, h.1.symm, h.2.symm⟩

theorem setRetention_ok
    (h : (setRetention stream retention).exec s = (.ok r, s')) :
    ∃ st, s.streams[stream]? = some st ∧ startsWithChar st.name '_' = false ∧
      s' = { s with streams := s.streams.insert stream { st with retention } } := by
  rw [setRetention, exec_read_bind] at h
  cases hst : s.streams[stream]? with
  | none => simp [hst] at h
  | some st =>
    simp only [hst, exec_check_bind_ok, requireArg_eq_ok, exec_update_bind, exec_pure,
      Prod.mk.injEq] at h
    obtain ⟨_, hname, -, hs⟩ := h
    exact ⟨st, rfl, hname, hs.symm⟩

theorem pruneWalCommits_ok (h : (pruneWalCommits fence nowMs).exec s = (.ok r, s')) :
    (∀ f ∈ fence, s.fenceHolds f = true) ∧
      s' = { s.advance nowMs with
        walCommits := s.walCommits.filter fun _ record =>
          keepsRecord (s.advance nowMs).clockMs record } := by
  simp only [pruneWalCommits, exec_check_bind_ok, exec_read_bind, checkFence?_eq_ok,
    exec_update_bind, exec_pure, Prod.mk.injEq] at h
  obtain ⟨_, hfence, -, hs⟩ := h
  exact ⟨hfence, hs.symm⟩

theorem forgetObjects_ok
    (h : (forgetObjects objects fence).exec s = (.ok r, s')) :
    (∀ f ∈ fence, s.fenceHolds f = true) ∧
      s' = { s with retired := (forgetAll s.retired objects 0).2 } := by
  simp only [forgetObjects, exec_check_bind_ok, exec_read_bind, checkFence?_eq_ok,
    exec_update_bind, exec_pure, Prod.mk.injEq] at h
  obtain ⟨_, hfence, -, hs⟩ := h
  exact ⟨hfence, hs.symm⟩

/-! ## A refused command changed nothing -/

/-- The loop of a commit could stop halfway, but every chunk was checked before. -/
theorem commitWal_failsClean : (commitWal object createdAtMs chunks).FailsClean s := by
  simp only [commitWal, failsClean_check_bind, failsClean_read_bind]
  intro _ _
  split
  · exact failsClean_pure
  · simp only [failsClean_check_bind, validateChunks_eq_ok]
    intro _ _ _ _ _ _ _ hvalid e s' hs
    obtain ⟨bases, m', -, hexec⟩ := placeChunks_exec (s := s) object
      fun c hc => (validateChunk_eq_ok.mp (hvalid c hc)).2.1
    rw [exec_bind_of_ok hexec, exec_update_bind, exec_update_bind, exec_pure] at hs
    simp at hs

/-- The partition looked up again after the checks is still there. -/
theorem swapSegment_failsClean :
    (swapSegment stream partition replaces segment byteRange maxTimestampMs fence nowMs
      fresh).FailsClean s := by
  simp only [swapSegment, failsClean_check_bind, failsClean_read_bind, partitionState_eq_ok]
  intro _ _ p hp
  split
  · exact failsClean_fail
  · split_ifs
    · exact failsClean_pure
    · simp only [failsClean_check_bind]
      intro _ _ _ _ _ _ records _ e s' hs
      rw [exec_update_bind, replaceRun_exec (s := s.advance nowMs) hp.2] at hs
      simp at hs

theorem trimPartition_failsClean :
    (trimPartition stream partition beforeOffset fence nowMs).FailsClean s := by
  simp only [trimPartition, failsClean_check_bind, failsClean_read_bind, partitionState_eq_ok]
  intro p hp _ _ e s' hs
  have hmut : (s.advance nowMs).partitionStateMut stream partition = .ok p := by
    simp [partitionStateMut, advance, hp.2]
  rw [exec_update_bind, exec_read_bind, hmut, exec_ok_bind, exec_update_bind,
    exec_update_bind, exec_pure] at hs
  simp at hs

theorem setRetention_failsClean : (setRetention stream retention).FailsClean s := by
  rw [setRetention, failsClean_read_bind]
  split
  · exact failsClean_fail
  · simp only [failsClean_check_bind]
    intro _ _
    exact failsClean_write

theorem pruneWalCommits_failsClean : (pruneWalCommits fence nowMs).FailsClean s := by
  simp only [pruneWalCommits, failsClean_check_bind, failsClean_read_bind]
  intro _ _ e s' hs
  simp at hs

theorem forgetObjects_failsClean : (forgetObjects objects fence).FailsClean s := by
  simp only [forgetObjects, failsClean_check_bind, failsClean_read_bind]
  intro _ _
  exact failsClean_write

end MetaState

end Loams.Meta
