/-
# The local store
-/

import Loams.Safekeeper.Journal
import Loams.Safekeeper.Store

namespace Loams.Safekeeper

open Loams.Data Loams.Control

/-! ## The timeline in memory -/

/-- Where one run of a timeline's WAL sits in the journal. -/
structure IndexEntry where
  lsn : Lsn
  len : ℕ
  seq : ℕ
  off : ℕ
  /-- The flush unit that carries it; zero for replayed WAL. -/
  unit : ℕ
  deriving DecidableEq

/-- The end of the run. -/
def IndexEntry.stop (e : IndexEntry) : Lsn := e.lsn + e.len

/-- A timeline in memory. -/
structure Tl where
  /-- The flush position is the end of the WAL written, maybe not yet durable. -/
  head : AcceptorState
  index : List IndexEntry := []
  /-- Written, not yet known durable: the unit and the WAL end after it. -/
  pending : List (ℕ × Lsn) := []
  durableEnd : Lsn
  /-- The unit of the timeline's latest record of any kind. -/
  lastUnit : ℕ := 0

namespace Tl

/-- A timeline of a stored head. -/
def new (head : AcceptorState) : Tl where
  head := head
  durableEnd := head.flushLsn

/-- The loop over the pending writes that became durable. -/
def settleLoop (durable : ℕ) : List (ℕ × Lsn) → Lsn → List (ℕ × Lsn) × Lsn
  | [], durableEnd => ([], durableEnd)
  | (unit, stop) :: pending, durableEnd =>
    if durable < unit then ((unit, stop) :: pending, durableEnd)
    else settleLoop durable pending stop

/-- Pending records up to a unit are durable. -/
def settle (durable : ℕ) (t : Tl) : Tl :=
  let settled := settleLoop durable t.pending t.durableEnd
  { t with
    pending := settled.1
    durableEnd := if settled.1 = [] then t.head.flushLsn else settled.2 }

/-- The head as readers and a new connection see it: durable WAL only. -/
def durableHead (t : Tl) : AcceptorState :=
  let st := { t.head with flushLsn := t.durableEnd }
  { st with commitLsn := min st.commitLsn st.walEnd }

/-- Drops the WAL at and above a position, from the back. -/
def truncate (stop : Lsn) (t : Tl) : Tl :=
  { t with
    index :=
      match t.index.reverse.dropWhile (stop ≤ ·.lsn) with
      | [] => []
      | e :: rest =>
        ((if stop < e.stop then { e with len := stop - e.lsn } else e) :: rest).reverse }

/-- Drops the entries below a position, and the part of the first one left. -/
def trimIndex (below : Lsn) : List IndexEntry → List IndexEntry
  | [] => []
  | e :: index =>
    if e.stop ≤ below then trimIndex below index
    else if e.lsn < below then
      { e with
        lsn := below
        off := e.off + (below - e.lsn)
        len := e.len - (below - e.lsn) } :: index
    else e :: index

/-- Index entries below a position go. -/
def trimFront (below : Lsn) (t : Tl) : Tl := { t with index := trimIndex below t.index }

/-! ## Recovery -/

/-- An Append record extends the contiguous WAL. -/
def replayAppend (seq off : ℕ) (h : RecordHeader) (t : Tl) : Tl :=
  let cur := t.head.flushLsn
  if h.endLsn ≤ cur ∨ cur < h.lsn then t
  else
    { t with
      index := t.index ++ [⟨cur, h.endLsn - cur, seq, off + (cur - h.lsn), 0⟩]
      head := { t.head with
        flushLsn := h.endLsn
        commitLsn := if h.aux ≠ 0 then max t.head.commitLsn h.aux else t.head.commitLsn
        peerHorizonLsn := max t.head.peerHorizonLsn h.aux2 } }

/-- One replayed record of the timeline. -/
def replay (t : Tl) (r : Logged) : Tl :=
  match r.header.kind with
  | .append => t.replayAppend r.placed.seq r.placed.payloadOff r.header
  | .truncate =>
    if r.header.lsn < t.head.flushLsn then
      { t.truncate r.header.lsn with head := { t.head with flushLsn := r.header.lsn } }
    else t
  | .progress =>
    { t with head := { t.head with
        commitLsn := max t.head.commitLsn r.header.lsn
        backupLsn := max t.head.backupLsn r.header.aux
        remoteConsistentLsn := max t.head.remoteConsistentLsn r.header.aux2 } }

/-- The stored head as recovery starts from it: the WAL comes from the journal. -/
def fromStored (head : AcceptorState) : Tl :=
  new { head with flushLsn := max head.trimmedLsn head.localStartLsn }

/-- After the replay, no position is above the recovered WAL. -/
def recovered (t : Tl) : Tl :=
  { t with
    head := { t.head with
      commitLsn := min t.head.commitLsn t.head.walEnd
      backupLsn := min t.head.backupLsn t.head.walEnd }
    durableEnd := t.head.flushLsn }

/-- A timeline rebuilt from its stored head and the journal's records. -/
def recover (id : TimelineId) (records : List Logged) (head : AcceptorState) : Tl :=
  ((records.filter (·.header.tl = id)).foldl replay (fromStored head)).recovered

/-! ## Reads -/

/-- A piece of WAL to read: its position, and where its bytes are. -/
structure Piece where
  lsn : Lsn
  seq : ℕ
  off : ℕ
  len : ℕ
  deriving DecidableEq

/-- The pieces from a position on, up to a number of bytes and the durable end. -/
def pieces (stop : Lsn) : List IndexEntry → Lsn → ℕ → Except Error (List Piece)
  | [], _, _ => .ok []
  | e :: index, pos, budget =>
    if budget = 0 ∨ stop ≤ pos then .ok []
    else if pos < e.lsn then .error (.store s!"WAL hole at {Lsn.display pos}")
    else
      let lo := pos - e.lsn
      let hi := min (min e.stop stop - e.lsn) (lo + budget)
      if hi ≤ lo then .ok []
      else do
        let rest ← pieces stop index (e.lsn + hi) (budget - (hi - lo))
        .ok (⟨pos, e.seq, e.off + lo, hi - lo⟩ :: rest)

/-- The entries before the first that ends above the position are passed over. -/
def readPieces (t : Tl) (start : Lsn) (maxBytes : ℕ) : Except Error (List Piece) := do
  require (t.head.trimmedLsn ≤ start) (Error.trimmed start t.head.trimmedLsn)
  pieces t.durableEnd (t.index.dropWhile (·.stop ≤ start)) start maxBytes

end Tl

/-- WAL from a position on, in order. -/
def Tl.read (t : Tl) (journal : Journal) (start : Lsn) (maxBytes : ℕ) :
    Except Error (List (Lsn × Bytes)) := do
  let pieces ← t.readPieces start maxBytes
  pieces.mapM fun p => do
    let bytes ← journal.read p.seq p.off p.len
    .ok (p.lsn, bytes)

/-! ## Writes -/

section Write

variable (cfg : JournalConfig) (id : TimelineId)

/-- Cuts bytes into groups of at most a size; the fuel is the number of bytes. -/
def pack (max : ℕ) : ℕ → Bytes → List Bytes
  | 0, _ => []
  | fuel + 1, bytes => if bytes = [] then [] else bytes.take max :: pack max fuel (bytes.drop max)

/-- A step of the journal's own threads or of the writers of other timelines. -/
def foreign : Journal.Step → Bool
  | .append _ h _ => h.tl ≠ id
  | .free _ _ => false
  | _ => true

/-- The journal's lock is taken for each record of a batch. Before it, others may have it;
then the environment decides about a segment that is prepared inline. -/
structure Slot where
  meanwhile : List Journal.Step := []
  inline : Journal.Inline := {}

/-- Appends one group of a batch to the journal, and notes it in the timeline. -/
def flushGroup (term : Term) (next : AcceptorState) (slot : Slot) (pos : Lsn)
    (group : Bytes) (journal : Journal) (t : Tl) : Except Error Unit × Journal × Tl :=
  let h : RecordHeader :=
    ⟨.append, id, term, pos, next.commitLsn, next.peerHorizonLsn, group.length⟩
  let journal := Control.run (Journal.step cfg) journal (slot.meanwhile.filter (foreign id))
  match journal.append cfg slot.inline h [group] with
  | (.error e, journal) => (.error e, journal, t)
  | (.ok p, journal) =>
    (.ok (), journal,
      { t with
        index := t.index ++ [⟨pos, group.length, p.seq, p.payloadOff, p.unit⟩]
        pending := t.pending ++ [(p.unit, pos + group.length)]
        lastUnit := p.unit })

/-- The groups in order, up to the first that the journal refuses. -/
def flushGroups (term : Term) (next : AcceptorState) :
    List Slot → Lsn → List Bytes → Journal → Tl → Except Error Unit × Journal × Tl
  | _, _, [], journal, t => (.ok (), journal, t)
  | slots, pos, group :: groups, journal, t =>
    match flushGroup cfg id term next (slots.headD {}) pos group journal t with
    | (.error e, journal, t) => (.error e, journal, t)
    | (.ok (), journal, t) =>
      flushGroups term next slots.tail (pos + group.length) groups journal t

/-- The groups of a batch that are still to be written. -/
def batchGroups (batch : AppendBatch) (plan : AppendPlan) : List Bytes :=
  let bytes := (remainingChunks batch.wal plan.skip).flatten
  pack cfg.maxPayload bytes.length bytes

/-- Packs a batch into the journal under the timeline's lock. A retry of WAL already
written is acknowledged once what is pending is durable. -/
def write (slots : List Slot) (batch : AppendBatch) (journal : Journal) (t : Tl) :
    Except Error (Except Deposed (Option ℕ)) × Journal × Tl :=
  match applyAppend t.head batch with
  | .error e => (.error e, journal, t)
  | .ok (.error d) => (.ok (.error d), journal, t)
  | .ok (.ok (next, plan)) =>
    let groups := batchGroups cfg batch plan
    match flushGroups cfg id batch.term next slots plan.writeFrom groups journal t with
    | (.error e, journal, t) => (.error e, journal, t)
    | (.ok (), journal, t) =>
      let t := if groups = [] then t.settle journal.reported.unit else t
      (.ok (.ok (t.pending.getLast?.map Prod.fst)), journal, { t with head := next })

/-- A head whose lazily kept positions moved is written to the journal. -/
def progress (inline : Journal.Inline) (next : AcceptorState) (journal : Journal) (t : Tl) :
    Journal × Tl :=
  let h : RecordHeader :=
    ⟨.progress, id, next.term, next.commitLsn, next.backupLsn, next.remoteConsistentLsn, 0⟩
  match journal.append cfg inline h [] with
  | (.error _, journal) => (journal, { t with head := next })
  | (.ok p, journal) => (journal, { t with head := next, lastUnit := p.unit })

end Write

/-! ## The store of one timeline -/

/-- What the lock's holder does once its head is stored. -/
inductive After
  | vote (term : Term)
  | updateMeta
  | elected
  | trim (bound : Lsn)
  | persistProgress
  deriving DecidableEq

/-- Where the lock's holder waits. -/
inductive Holder
  | none
  /-- For the timeline's written WAL, before a vote. -/
  | flushVote (term : Term)
  /-- For the timeline's written WAL, before an election. -/
  | flushElected (msg : ProposerElected)
  /-- For the Truncate record of an election. -/
  | truncate (next : AcceptorState) (unit : ℕ)
  /-- For the metadata store, which has not stored the head. -/
  | put (next : AcceptorState) (after : After)
  /-- For the answer of the metadata store, which has stored the head. -/
  | stored (next : AcceptorState) (after : After)
  deriving DecidableEq

/-- Where a call that creates the timeline waits. -/
inductive Creating
  | idle
  /-- It did not find the timeline, and its fresh head is not stored. -/
  | put (head : AcceptorState)
  /-- Its fresh head is stored, and the answer of the metadata store is to come. -/
  | stored (head : AcceptorState)

/-- The store of one timeline. -/
structure Nvme where
  /-- The stored head. -/
  stored : Option AcceptorState := .none
  journal : Journal
  /-- The timeline in memory. -/
  tl : Option Tl := .none
  holder : Holder := .none
  creating : ℕ → Creating := fun _ => .idle
  /-- The bound below which segments may be freed. -/
  trimmed : Option Lsn := .none
  /-- The votes granted so far. No step reads them. -/
  granted : List Term := []
  /-- The bytes of the last successful write of each position. No step reads them. -/
  wal : Lsn → UInt8 := fun _ => 0
  /-- The last acknowledged end of the WAL that no election cut. No step reads it. -/
  acked : Lsn := 0

/-- The sections between two waits. -/
inductive NvmeStep
  | createCheck (call : ℕ) (server : ServerInfo) (startLsn : Lsn)
  /-- The fresh head is stored, or the store fails without an effect. -/
  | createPut (call : ℕ) (ok : Bool)
  /-- The store succeeds, or it fails though the fresh head is stored. -/
  | createInsert (call : ℕ) (ok : Bool)
  | vote (term : Term)
  | elected (msg : ProposerElected)
  | updateMeta (update : MetaUpdate)
  | trim (lsn : Lsn)
  | persistProgress
  /-- The lock's holder goes on, if what it waits for happened; the store of a head may fail
  without an effect, or after it took effect. -/
  | resume (ok : Bool) (inline : Journal.Inline)
  | append (batch : AppendBatch) (slots : List Slot)
  /-- A load, a read, or the answer of an append: it sees what is durable. -/
  | settle
  | recordCommitLsn (term : Term) (lsn : Lsn) (inline : Journal.Inline)
  | recordBackupLsn (lsn : Lsn) (inline : Journal.Inline)
  | recordRemoteConsistentLsn (lsn : Lsn) (inline : Journal.Inline)
  /-- The end of a trim, of this timeline or another: the copy of the bounds it took may
  be older than the bound now. -/
  | free (lag : Lsn) (others : TimelineId → Option Lsn) (retires : ℕ → Bool)
  /-- The journal's own threads, and the records of other timelines. -/
  | journal (s : Journal.Step)
  | restart (intact : Logged → Bool)

namespace Nvme

variable (cfg : JournalConfig) (id : TimelineId)

/-- The bytes after a write. -/
def overwrite (wal : Lsn → UInt8) (start : Lsn) (bytes : Bytes) : Lsn → UInt8 :=
  fun pos => if start ≤ pos then bytes[pos - start]?.getD (wal pos) else wal pos

/-- The bytes and the position at which a batch writes them, if its rules admit it. -/
def written (st : AcceptorState) (batch : AppendBatch) : Option (Lsn × Bytes) :=
  match applyAppend st batch with
  | .ok (.ok (_, plan)) => some (plan.writeFrom, (remainingChunks batch.wal plan.skip).flatten)
  | _ => .none

/-- The bytes of the WAL after a batch that was written. -/
def walAfter (wal : Lsn → UInt8) (st : AcceptorState) (batch : AppendBatch) : Lsn → UInt8 :=
  match written st batch with
  | some (start, bytes) => overwrite wal start bytes
  | .none => wal

/-- Whether an append waits for its predecessor. -/
def gap (st : AcceptorState) (batch : AppendBatch) : Bool :=
  !batch.isEmpty && st.term == batch.term && st.flushLsn != 0 && st.flushLsn < batch.beginLsn

/-- WAL is written unless it leaves a gap. -/
def appendStep (batch : AppendBatch) (slots : List Slot) (sys : Nvme) (t : Tl) : Nvme :=
  if gap t.head batch then sys
  else
    match write cfg id slots batch sys.journal t with
    | (.ok (.ok _), journal, t') =>
      { sys with
        journal := journal
        tl := some t'
        wal := walAfter sys.wal t.head batch }
    | (_, journal, t') => { sys with journal := journal, tl := some t' }

/-- An election after its flush: its rule, and a Truncate record if it cuts WAL. -/
def electStep (msg : ProposerElected) (inline : Journal.Inline) (sys : Nvme) (t : Tl) : Nvme :=
  match applyElected t.head msg with
  | .ok (.ok (next, stop)) =>
    if stop < t.head.flushLsn then
      match sys.journal.append cfg inline ⟨.truncate, id, msg.term, stop, 0, 0, 0⟩ [] with
      | (.error _, journal) => { sys with journal := journal, tl := some t, holder := .none }
      | (.ok p, journal) =>
        { sys with
          journal := journal
          tl := some { t with lastUnit := p.unit }
          holder := .truncate next p.unit
          acked := min sys.acked stop }
    else { sys with tl := some t, holder := .put next .elected }
  | _ => { sys with tl := some t, holder := .none }

/-- The lock's holder takes over the head it stored, and answers. -/
def finish (next : AcceptorState) (after : After) (sys : Nvme) (t : Tl) : Nvme :=
  match after with
  | .vote term =>
    { sys with
      tl := some { t with head := next }
      holder := .none
      granted := sys.granted ++ [term] }
  | .updateMeta => { sys with tl := some { t with head := next }, holder := .none }
  | .elected =>
    { sys with
      tl := some { t with head := next, pending := [], durableEnd := next.flushLsn }
      holder := .none }
  | .trim bound =>
    { sys with
      tl := some ({ t with head := { t.head with trimmedLsn := bound } }.trimFront bound)
      holder := .none
      trimmed := some bound }
  | .persistProgress => { sys with holder := .none }

/-- The lock's holder goes on from its wait. -/
def resume (ok : Bool) (inline : Journal.Inline) (sys : Nvme) (t : Tl) : Nvme :=
  match sys.holder with
  | .none => sys
  | .flushVote term =>
    match sys.journal.wait t.lastUnit with
    | .pending => sys
    | .failed => { sys with holder := .none }
    | .durable =>
      let t := t.settle sys.journal.reported.unit
      let vote := applyVote t.head term
      { sys with
        tl := some t
        holder := if vote.1 then .put vote.2 (.vote term) else .none }
  | .flushElected msg =>
    match sys.journal.wait t.lastUnit with
    | .pending => sys
    | .failed => { sys with holder := .none }
    | .durable => sys.electStep cfg id msg inline (t.settle sys.journal.reported.unit)
  | .truncate next unit =>
    match sys.journal.wait unit with
    | .pending => sys
    | .failed => { sys with holder := .none }
    | .durable => { sys with tl := some (t.truncate next.flushLsn), holder := .put next .elected }
  | .put next after =>
    if ok then { sys with stored := some next, holder := .stored next after }
    else { sys with holder := .none }
  | .stored next after =>
    -- The directory may fail to be synchronised after the head was renamed into its place.
    if ok then sys.finish next after t else { sys with holder := .none }

/-- A call that needs the lock, from a timeline that is in memory. -/
def locked (sys : Nvme) (f : Tl → Nvme) : Nvme :=
  match sys.holder, sys.tl with
  | .none, some t => f t
  | _, _ => sys

/-- The commit position is recorded. -/
def progressStep (inline : Journal.Inline) (next : AcceptorState) (sys : Nvme) (t : Tl) : Nvme :=
  let moved := progress cfg id inline next sys.journal t
  { sys with journal := moved.1, tl := some moved.2 }

/-- The WAL below a position is given up. -/
def trimStep (lsn : Lsn) (sys : Nvme) (t : Tl) : Nvme :=
  let t := t.settle sys.journal.reported.unit
  let head := t.durableHead
  let bound := trimBound head lsn
  if bound ≤ t.head.trimmedLsn then { sys with tl := some t }
  else { sys with tl := some t, holder := .put { head with trimmedLsn := bound } (.trim bound) }

/-- A crash, and recovery from the stored head and what the crash left of the journal:
everything acknowledged, and of the rest what is intact. -/
def restart (intact : Logged → Bool) (sys : Nvme) : Nvme :=
  let disk := sys.journal.crashed fun r =>
    r.placed.unit ≤ sys.journal.reported.unit || intact r
  let tl := sys.stored.map (Tl.recover id (disk.replayed cfg))
  { sys with
    journal := Journal.opened cfg disk
    tl := tl
    holder := .none
    creating := fun _ => .idle
    trimmed := tl.map (·.head.trimmedLsn) }

/-- One step. -/
def step (sys : Nvme) : NvmeStep → Nvme
  | .createCheck call server startLsn =>
    match sys.tl, sys.creating call with
    | .none, .idle =>
      { sys with
        creating := Function.update sys.creating call (.put (AcceptorState.new server startLsn)) }
    | _, _ => sys
  | .createPut call ok =>
    match sys.creating call with
    | .put head =>
      if ok then
        { sys with
          stored := some head
          creating := Function.update sys.creating call (.stored head) }
      else { sys with creating := Function.update sys.creating call .idle }
    | _ => sys
  | .createInsert call ok =>
    match sys.creating call with
    | .stored head =>
      if ok then
        { sys with
          tl := some (sys.tl.getD (Tl.new head))
          trimmed := some (sys.trimmed.getD head.trimmedLsn)
          creating := Function.update sys.creating call .idle }
      else { sys with creating := Function.update sys.creating call .idle }
    | _ => sys
  | .vote term => sys.locked fun _ => { sys with holder := .flushVote term }
  | .elected msg => sys.locked fun _ => { sys with holder := .flushElected msg }
  | .updateMeta update =>
    sys.locked fun t =>
      { sys with holder := .put (Safekeeper.updateMeta t.head update) .updateMeta }
  | .trim lsn => sys.locked (sys.trimStep lsn)
  | .persistProgress =>
    sys.locked fun t =>
      let t := t.settle sys.journal.reported.unit
      { sys with tl := some t, holder := .put t.durableHead .persistProgress }
  | .resume ok inline =>
    match sys.tl with
    | some t => sys.resume cfg id ok inline t
    | .none => sys
  | .append batch slots => sys.locked (sys.appendStep cfg id batch slots)
  | .settle =>
    sys.locked fun t =>
      let t := t.settle sys.journal.reported.unit
      { sys with tl := some t, acked := t.durableEnd }
  | .recordCommitLsn term lsn inline =>
    sys.locked fun t =>
      match applyCommitLsn t.head term lsn with
      | .ok (.ok next) =>
        if next.commitLsn ≠ t.head.commitLsn then sys.progressStep cfg id inline next t else sys
      | _ => sys
  | .recordBackupLsn lsn inline =>
    sys.locked fun t =>
      let backup := max t.head.backupLsn (min lsn t.durableEnd)
      if backup ≠ t.head.backupLsn then
        sys.progressStep cfg id inline { t.head with backupLsn := backup } t
      else sys
  | .recordRemoteConsistentLsn lsn inline =>
    sys.locked fun t =>
      if t.head.remoteConsistentLsn < lsn then
        sys.progressStep cfg id inline { t.head with remoteConsistentLsn := lsn } t
      else sys
  | .free lag others retires =>
    let bounds := fun tl => if tl = id then sys.trimmed.map (min lag) else others tl
    { sys with journal := (sys.journal.step cfg (.free bounds retires)).2 }
  | .journal s =>
    if foreign id s then { sys with journal := (sys.journal.step cfg s).2 } else sys
  | .restart intact => sys.restart cfg id intact

/-- A store that was opened on a directory without WAL or heads. -/
def initial : Nvme where
  journal := Journal.opened cfg {}

/-- The store after a sequence of steps. -/
def run (steps : List NvmeStep) : Nvme := steps.foldl (step cfg id) (initial cfg)

/-- A small journal: one block of records a segment, and no segment prepared ahead. -/
def sampleConfig : JournalConfig := ⟨2 * block, 0, block⟩

/-- A timeline. -/
def sampleId : TimelineId := ⟨.zero, .zero⟩

end Nvme

end Loams.Safekeeper
