/-
# The journal

One append-only log for every timeline of a shard.
-/

import Loams.Control.Run
import Loams.Safekeeper.Types
import Mathlib.Data.List.Sort

namespace Loams.Safekeeper

open Loams.Data Loams.Control

/-! ## Records and their sizes -/

/-- The alignment of a flush unit. -/
def block : ℕ := 4096

/-- A segment starts with a block. -/
def segmentHeader : ℕ := block

/-- The length of the header of a record. -/
def recordHeader : ℕ := 80

/-- Rounds up to a multiple. -/
def alignUp (n m : ℕ) : ℕ := (n + m - 1) / m * m

/-- The bytes a record takes, padding included. -/
def recordSize (payload : ℕ) : ℕ := recordHeader + alignUp payload 8

/-- The kinds of records. -/
inductive Kind
  | append
  | truncate
  | progress
  deriving DecidableEq

/-- What precedes a payload. -/
structure RecordHeader where
  kind : Kind
  tl : TimelineId
  term : Term
  lsn : Lsn
  aux : ℕ
  aux2 : ℕ
  len : ℕ
  deriving DecidableEq

/-- Where a record was put. -/
structure Placed where
  unit : ℕ
  seq : ℕ
  payloadOff : ℕ
  deriving DecidableEq

/-- A record of the log with its place. -/
structure Logged where
  placed : Placed
  header : RecordHeader
  payload : Bytes
  deriving DecidableEq

/-- The end of the WAL that a record carries. -/
def RecordHeader.endLsn (h : RecordHeader) : Lsn := h.lsn + h.len

/-- The payload of a record of the log holds the bytes at an offset of a segment. -/
def Logged.holds (r : Logged) (seq off len : ℕ) : Bool :=
  r.placed.seq = seq && r.placed.payloadOff ≤ off &&
    off + len ≤ r.placed.payloadOff + r.payload.length

/-- The sizes of a journal. -/
structure JournalConfig where
  segmentSize : ℕ
  /-- Segments kept prepared ahead of the writer. -/
  prepared : ℕ
  /-- The largest flush unit. -/
  unitCapacity : ℕ

/-- What a record in a unit of its own can hold. -/
def JournalConfig.maxPayload (cfg : JournalConfig) : ℕ := cfg.unitCapacity - recordHeader - 8

/-- A flush unit; its bytes are the records of the log that carry its id. -/
structure FlushUnit where
  id : ℕ
  seq : ℕ
  deriving DecidableEq

/-- The highest WAL end of a timeline's Append records in a segment. -/
structure SegmentEnd where
  seq : ℕ
  tl : TimelineId
  lsn : Lsn
  deriving DecidableEq

/-- The durable position that the journal reports. -/
structure Durable where
  unit : ℕ := 0
  failed : Bool := false
  deriving DecidableEq

/-- The answer of the file system: nothing, or the text of its error. -/
abbrev IoResult := Except String Unit

/-- What the preparer holds outside the lock. -/
inductive Preparer
  | idle
  | preparing (seq : ℕ)
  | zeroing (seq : ℕ)

/-- The number of the segment in the preparer's hands. -/
def Preparer.seq : Preparer → Option ℕ
  | .idle => none
  | .preparing seq => some seq
  | .zeroing seq => some seq

/-- The segments, the open unit and the units written. -/
structure Journal where
  cur : ℕ
  /-- Where the open unit starts in the current segment. -/
  nextOff : ℕ := segmentHeader
  /-- The length of the open unit. -/
  openUnit : Option ℕ := none
  nextId : ℕ := 1
  sealed : List FlushUnit := []
  ready : List ℕ
  /-- Segments with data, and the current one, ascending. -/
  live : List ℕ
  /-- The retired segments' files; their order does not matter. -/
  free : List ℕ
  maxSeq : ℕ
  /-- Units taken by an engine and not reported written. -/
  inflight : List FlushUnit := []
  done : List ℕ := []
  durable : ℕ := 0
  failed : Option String := none
  ends : List SegmentEnd
  /-- What the journal reports to those who wait. -/
  reported : Durable := {}
  preparer : Preparer := .idle
  /-- The units in the engines' hands. -/
  engines : List FlushUnit := []
  log : List Logged

namespace Journal

variable (cfg : JournalConfig)

/-! ## The writer -/

/-- The length of the open unit, 0 if there is none. -/
def openLen (st : Journal) : ℕ := st.openUnit.getD 0

/-- Closes the open unit, padded to a block. -/
def sealOpen (st : Journal) : Journal :=
  match st.openUnit with
  | none => st
  | some len =>
    { st with
      openUnit := none
      nextOff := st.nextOff + alignUp len block
      nextId := st.nextId + 1
      sealed := st.sealed ++ [⟨st.nextId, st.cur⟩] }

/-- One retired file is taken for reuse, if there is one that no reader holds. -/
def takeRecyclable (pick : Option ℕ) (free : List ℕ) : List ℕ :=
  match pick with
  | some i => free.eraseIdx i
  | none => free

/-- The writer goes on in another segment. -/
def enter (seq : ℕ) (st : Journal) : Journal :=
  { st with live := st.live.orderedInsert (· ≤ ·) seq, cur := seq, nextOff := segmentHeader }

/-- What the environment decides about a segment that is prepared inline. -/
structure Inline where
  recycle : Option ℕ := none
  result : IoResult := .ok ()

/-- The next segment, prepared before or now. -/
def rollover (inline : Inline) (st : Journal) : Except Error Unit × Journal :=
  match st.ready with
  | next :: ready => (.ok (), { st with ready := ready }.enter next)
  | [] =>
    let st := { st with
      maxSeq := st.maxSeq + 1
      free := takeRecyclable inline.recycle st.free }
    match inline.result with
    | .error e => (.error (.store s!"journal: {e}"), st)
    | .ok () => (.ok (), st.enter st.maxSeq)

/-- Seals the open unit if the record does not fit it, and rolls over if it does not fit
the segment. -/
def makeRoom (inline : Inline) (size : ℕ) (st : Journal) : Except Error Unit × Journal :=
  if cfg.segmentSize < st.nextOff + alignUp (st.openLen + size) block then
    st.sealOpen.rollover inline
  else if cfg.unitCapacity < st.openLen + size then (.ok (), st.sealOpen)
  else (.ok (), st)

/-- Raises the end of a timeline in a segment. -/
def raiseEnd (seq : ℕ) (tl : TimelineId) (lsn : Lsn) : List SegmentEnd → List SegmentEnd
  | [] => [⟨seq, tl, lsn⟩]
  | e :: ends =>
    if e.seq = seq ∧ e.tl = tl then { e with lsn := max e.lsn lsn } :: ends
    else e :: raiseEnd seq tl lsn ends

/-- The ends after a record in a segment. -/
def noteEnd (seq : ℕ) (h : RecordHeader) (ends : List SegmentEnd) : List SegmentEnd :=
  if h.kind = .append then raiseEnd seq h.tl h.endLsn ends else ends

/-- Where the next record goes. -/
def place (st : Journal) : Placed := ⟨st.nextId, st.cur, st.nextOff + (st.openLen + recordHeader)⟩

/-- Packs a record into the open unit. -/
def put (h : RecordHeader) (payload : List Bytes) (st : Journal) : Journal :=
  { st with
    openUnit := some (st.openLen + recordSize (payload.map List.length).sum)
    ends := noteEnd st.cur h st.ends
    log := st.log ++ [⟨st.place, h, payload.flatten⟩] }

/-- A record fits its header, the unit and a journal that has not failed. -/
def checkRecord (h : RecordHeader) (payload : List Bytes) (st : Journal) : Except Error Unit := do
  let len := (payload.map List.length).sum
  require (len = h.len) (.store s!"journal: header says {h.len} bytes, payload has {len}")
  require (recordSize len ≤ cfg.unitCapacity) (.store
    s!"journal: a {len}-byte record exceeds the {cfg.unitCapacity}-byte unit")
  match st.failed with
  | some f => .error (.store s!"journal failed: {f}")
  | none => .ok ()

/-- A record goes to the open unit or to a new one. -/
def append (inline : Inline) (h : RecordHeader) (payload : List Bytes) (st : Journal) :
    Except Error Placed × Journal :=
  match checkRecord cfg h payload st with
  | .error e => (.error e, st)
  | .ok () =>
    match st.makeRoom cfg inline (recordSize (payload.map List.length).sum) with
    | (.error e, st) => (.error e, st)
    | (.ok (), st) => (.ok st.place, st.put h payload)

/-! ## The engines -/

/-- An engine takes the next unit, and the open one if nothing is sealed yet. -/
def take (st : Journal) : Journal :=
  let st := if st.sealed = [] ∧ 0 < st.openLen then st.sealOpen else st
  match st.sealed with
  | [] => st
  | u :: sealed =>
    { st with sealed := sealed, inflight := st.inflight ++ [u], engines := st.engines ++ [u] }

/-- The loop over the finished units that follow the durable ones. -/
def advance : ℕ → List ℕ → ℕ → ℕ × List ℕ
  | 0, done, durable => (durable, done)
  | fuel + 1, done, durable =>
    if durable + 1 ∈ done then advance fuel (done.filter (· ≠ durable + 1)) (durable + 1)
    else (durable, done)

/-- Units were written, or failed. -/
def complete (units : List FlushUnit) (res : IoResult) (st : Journal) : Journal :=
  match res with
  | .error e => { st with failed := some e, reported := ⟨st.durable, true⟩ }
  | .ok () =>
    let ids := units.map FlushUnit.id
    let done := st.done ++ ids
    let moved := advance done.length done st.durable
    { st with
      inflight := st.inflight.filter (·.id ∉ ids)
      durable := moved.1
      done := moved.2
      reported :=
        if moved.1 ≠ st.durable ∧ st.failed = none then ⟨moved.1, false⟩ else st.reported }

/-- What a wait for a unit finds. -/
inductive Waited
  | pending
  | durable
  | failed
  deriving DecidableEq

/-- Waits until a unit is durable, or the journal failed before. -/
def wait (unit : ℕ) (st : Journal) : Waited :=
  if unit ≤ st.reported.unit then .durable
  else if st.reported.failed then .failed
  else .pending

/-! ## Reading -/

/-- Bytes of a live segment. Only payloads are ever asked for. -/
def read (st : Journal) (seq off len : ℕ) : Except Error Bytes :=
  if seq ∈ st.live then
    match st.log.find? (·.holds seq off len) with
    | some r => .ok ((r.payload.drop (off - r.placed.payloadOff)).take len)
    | none => .error (.store s!"journal: no record at {off}")
  else .error (.store s!"journal segment {seq} is gone")

/-! ## Freeing -/

/-- A segment before the current one, without a unit queued or in flight, whose Append
records all end where their timelines may go. -/
def freeable (trimmed : TimelineId → Lsn → Bool) (st : Journal) (seq : ℕ) : Bool :=
  seq < st.cur && !(st.sealed.any (·.seq == seq) || st.inflight.any (·.seq == seq)) &&
    st.ends.all fun e => e.seq != seq || trimmed e.tl e.lsn

/-- Frees the oldest segments, until one may not go or its file cannot be retired. The
surplus of retired files is deleted. -/
def freeOldest (trimmed : TimelineId → Lsn → Bool) (retires : ℕ → Bool) (st : Journal) :
    List ℕ × Journal :=
  let freed := st.live.takeWhile fun seq => st.freeable trimmed seq && retires seq
  (freed,
    { st with
      live := st.live.drop freed.length
      free := (st.free ++ freed).take cfg.prepared
      ends := st.ends.filter (·.seq ∉ freed)
      log := st.log.filter (·.placed.seq ∉ freed) })

/-! ## The preparer -/

/-- The preparer takes the next number. -/
def prepare (recycle : Option ℕ) (st : Journal) : Journal :=
  match st.preparer with
  | .idle =>
    if st.ready.length < cfg.prepared then
      { st with
        maxSeq := st.maxSeq + 1
        free := takeRecyclable recycle st.free
        preparer := .preparing (st.maxSeq + 1) }
    else st
  | _ => st

/-- With enough segments ready, the preparer takes one of them out to zero it. -/
def zero (i : ℕ) (st : Journal) : Journal :=
  match st.preparer, st.ready[i]? with
  | .idle, some seq =>
    if cfg.prepared ≤ st.ready.length then
      { st with ready := st.ready.eraseIdx i, preparer := .zeroing seq }
    else st
  | _, _ => st

/-- A prepared segment becomes ready, unless the writer is past its number: it is then
retired. -/
def offer (seq : ℕ) (retires : Bool) (st : Journal) : List ℕ × Journal :=
  let st := { st with preparer := .idle }
  if seq < st.cur then
    if retires then ([seq], { st with free := st.free ++ [seq] }) else ([], st)
  else ([], { st with ready := st.ready.orderedInsert (· ≤ ·) seq })

/-- The preparer comes back. A number whose preparation failed is not used again. -/
def prepared (res : IoResult) (retires : Bool) (st : Journal) : List ℕ × Journal :=
  match st.preparer, res with
  | .idle, _ => ([], st)
  | .preparing seq, .ok () => st.offer seq retires
  | .preparing _, .error _ => ([], { st with preparer := .idle })
  | .zeroing seq, _ => st.offer seq retires

/-! ## Opening -/

end Journal

/-- The journal's directory: the segments' numbers, ascending, the retired ones, and the
records with those that are still intact. -/
structure Disk where
  files : List ℕ := []
  retired : List ℕ := []
  log : List Logged := []
  intact : Logged → Bool := fun _ => true

/-- The records that opening the journal replays: those of each segment up to the first
one that is torn or that runs past the segment's size. -/
def Disk.replayed (cfg : JournalConfig) (disk : Disk) : List Logged :=
  disk.files.flatMap fun seq =>
    (disk.log.filter (·.placed.seq = seq)).takeWhile fun r =>
      disk.intact r && r.placed.payloadOff + r.header.len ≤ cfg.segmentSize

namespace Journal

variable (cfg : JournalConfig)

/-- The journal after a replay. Segments without a valid record are retired under their
numbers, and the writer starts above every number in use. -/
def opened (disk : Disk) : Journal :=
  let records := disk.replayed cfg
  let withData := disk.files.filter fun seq => records.any (·.placed.seq == seq)
  let empty := disk.files.filter fun seq => !records.any (·.placed.seq == seq)
  let free := disk.retired ++ empty
  let maxSeq := (disk.files ++ free).foldr max 0
  { cur := maxSeq + 1
    ready := (List.range cfg.prepared).map (maxSeq + 2 + ·)
    live := withData ++ [maxSeq + 1]
    free := free.drop (cfg.prepared + 1)
    maxSeq := maxSeq + cfg.prepared + 1
    ends := records.foldl (fun ends r => noteEnd r.placed.seq r.header ends) []
    log := records.map fun r => { r with placed := { r.placed with unit := 0 } } }

/-- What a crash leaves in the directory. The segment in the preparer's hands holds no
record; its number is not used again. -/
def crashed (intact : Logged → Bool) (st : Journal) : Disk where
  files := st.live ++ st.ready ++ st.preparer.seq.toList
  retired := st.free
  log := st.log
  intact := intact

/-! ## Steps -/

/-- The steps of the writer, the engines, the preparer and the owner. -/
inductive Step
  | append (inline : Inline) (h : RecordHeader) (payload : List Bytes)
  | take
  | complete (ids : List ℕ) (res : IoResult)
  | free (trimmed : TimelineId → Option Lsn) (retires : ℕ → Bool)
  | prepare (recycle : Option ℕ)
  | zero (i : ℕ)
  | prepared (res : IoResult) (retires : Bool)

/-- A timeline's WAL up to the end may go: it has a bound, at or above the end. -/
def mayGo (trimmed : TimelineId → Option Lsn) (tl : TimelineId) (stop : Lsn) : Bool :=
  (trimmed tl).any (stop ≤ ·)

theorem mayGo_iff {trimmed : TimelineId → Option Lsn} {tl : TimelineId} {stop : Lsn} :
    mayGo trimmed tl stop = true ↔ ∃ bound ∈ trimmed tl, stop ≤ bound := by
  unfold mayGo
  cases trimmed tl <;> simp

/-- A step, with the segments it hands to the free list. Units that no engine holds
cannot be completed. -/
def step (st : Journal) : Step → List ℕ × Journal
  | .append inline h payload => ([], (st.append cfg inline h payload).2)
  | .take => ([], st.take)
  | .complete ids res =>
    ([], { st with engines := st.engines.filter (·.id ∉ ids) }.complete
      (st.engines.filter (·.id ∈ ids)) res)
  | .free trimmed retires => st.freeOldest cfg (mayGo trimmed) retires
  | .prepare recycle => ([], st.prepare cfg recycle)
  | .zero i => ([], st.zero cfg i)
  | .prepared res retires => st.prepared res retires

end Journal

end Loams.Safekeeper
