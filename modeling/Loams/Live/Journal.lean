/-
# The commit journal
-/

import Loams.Live.Docs

namespace Loams.Live

open Loams.Data Loams.Control Loams.Tikv Program

/-! ## Entries -/

/-- The size of a chunk of an entry. -/
def maxChunkBytes : ℕ := 1024 * 1024

/-- The length of a consumer's id. -/
def maxConsumerBytes : ℕ := 256

/-- The consumers of a shard. -/
def maxConsumers : ℕ := 4096

/-- The entries that one trim deletes. -/
def trimBatch : ℕ := 256

/-- The entries of a page. -/
def readPageEntries : ℕ := 256

/-- The last sequence; a missing head is 0. -/
def decodeHead : Option Record → Except LiveError ℕ
  | none => .ok 0
  | some (.head seq) => .ok seq
  | some _ => .error (.corrupt "a journal head is not 8 bytes")

/-- The entry in a record. -/
def decodeEntry : Record → Except LiveError JournalEntry
  | .entry e => .ok e
  | _ => .error (.corrupt "a journal entry")

/-- The sequence and the expiry. -/
def decodeCheckpoint : Record → Except LiveError (ℕ × ℕ)
  | .checkpoint seq expiresMs => .ok (seq, expiresMs)
  | _ => .error (.corrupt "a journal checkpoint is not 16 bytes")

/-- The rest of the split: the writes left, and the chunk so far with its length. -/
def splitFrom (enc : Encoding) (header : JournalEntry) :
    List WriteRecord → List WriteRecord → ℕ → Except LiveError (List JournalEntry)
  | [], chunk, _ => .ok [{ header with writes := chunk }]
  | write :: rest, chunk, len => do
    -- the record, its field tag and its length
    let writeLen := enc.write write + 6
    require (enc.header header + writeLen ≤ maxChunkBytes)
      (.internal s!"a write record of {writeLen} bytes does not fit a journal chunk")
    if chunk ≠ [] ∧ maxChunkBytes < len + writeLen then
      let chunks ← splitFrom enc header rest [write] (enc.header header + writeLen)
      return { header with writes := chunk } :: chunks
    else splitFrom enc header rest (chunk ++ [write]) (len + writeLen)

/-- An entry as chunks of bounded size, each with its header. -/
def split (enc : Encoding) (entry : JournalEntry) : Except LiveError (List JournalEntry) :=
  let header := { entry with writes := [] }
  splitFrom enc header entry.writes [] (enc.header header)

namespace Journal

/-! ## Appending -/

/-- The shard that a random draw picks. -/
def pick (shards draw : ℕ) : ℕ := draw % shards

/-- The same among the shards other than one. -/
def pickOther (shards : ℕ) (exclude : Option ℕ) (draw : ℕ) : ℕ :=
  match exclude with
  | some skip =>
    if 1 < shards ∧ skip < shards then
      let shard := draw % (shards - 1)
      if skip ≤ shard then shard + 1 else shard
    else pick shards draw
  | none => pick shards draw

/-- The shard exists. -/
def checkShard (shards shard : ℕ) : Except LiveError Unit :=
  require (shard < shards)
    (.invalidArgument s!"journal shard {shard} is not below the shard count {shards}")

/-- One position for each shard. -/
def checkPositions (shards : ℕ) (positions : List ℕ) : Except LiveError Unit :=
  require (positions.length = shards)
    (.invalidArgument s!"{positions.length} journal positions for {shards} shards")

/-- Writes chunks behind a sequence and returns the last one. -/
def appendChunks (enc : Encoding) (shard : ℕ) : ℕ → List JournalEntry → TxnM ℕ
  | seq, [] => pure seq
  | seq, chunk :: rest => do
    Txn.put enc (.entry shard (seq + 1)) (.entry chunk)
    appendChunks enc shard (seq + 1) rest

/-- Appends an entry to a shard: the shard and its new head. -/
def appendTo (enc : Encoding) (shards shard : ℕ) (entry : JournalEntry) : TxnM (ℕ × ℕ) := do
  checkShard shards shard
  require (entry.writes ≠ []) (LiveError.invalidArgument
    "a journal entry needs at least one write (read-only mutations write none)")
  let t ← read
  let head ← decodeHead (t.view.heads shard)
  let chunks ← split enc { entry with commitHintMs := physicalMs t.start }
  let seq ← appendChunks enc shard head chunks
  Txn.put enc (.head shard) (.head seq)
  return (shard, seq)

/-! ## Reading -/

/-- Every shard's head. -/
def heads (shards : ℕ) (snap : Store) : Except LiveError (List ℕ) :=
  (List.range shards).mapM fun shard => decodeHead (snap.heads shard)

/-- One entry as read: its shard, its sequence and the entry. -/
abbrev Read := ℕ × ℕ × JournalEntry

/-- What has been read so far. -/
structure Reading where
  out : List Read
  /-- The last sequence read in every shard. -/
  reached : List ℕ
  bytes : ℕ

/-- The first entry of a shard within two sequences. -/
def firstEntry (snap : Store) (shard low high : ℕ) : Option ℕ :=
  (((snap.entries shard).toList.filter fun p => low ≤ p.1 ∧ p.1 ≤ high).head?).map Prod.fst

section Read

variable (enc : Encoding) (snap : Store) (low high : List ℕ) (maxBytes : ℕ)

/-- Takes one page of wanted entries; true when the budget is used up. -/
def readPage : List (ℕ × ℕ) → Reading → Except LiveError (Reading × Bool)
  | [], r => .ok (r, false)
  | (shard, seq) :: rest, r =>
    match (snap.entries shard)[seq]? with
    | none =>
      let position := low.getD shard 0
      .error (if seq = position + 1 then
        .journalTrimmed shard position (firstEntry snap shard seq (high.getD shard 0))
      else .corrupt s!"journal shard {shard}: entry {seq} is missing")
    | some value => do
      let bytes := r.bytes + enc.len value
      let entry ← decodeEntry value
      let r : Reading := ⟨r.out ++ [(shard, seq, entry)], r.reached.set shard seq, bytes⟩
      if maxBytes ≤ bytes then return (r, true) else readPage rest r

/-- Takes the wanted entries page by page, while there are some and the budget lasts. -/
def readPages : ℕ → List (ℕ × ℕ) → Reading → Except LiveError Reading
  | 0, _, r => .ok r
  | fuel + 1, wanted, r =>
    if wanted = [] ∨ maxBytes ≤ r.bytes then .ok r
    else do
      let (r, full) ← readPage enc snap low high maxBytes (wanted.take readPageEntries) r
      if full then return r else readPages fuel (wanted.drop readPageEntries) r

/-- The keys behind `low` and up to `high`, by shard, then sequence. -/
def wantedEntries (shards : ℕ) : List (ℕ × ℕ) :=
  (List.range shards).flatMap fun shard =>
    (List.range' (low.getD shard 0 + 1) (high.getD shard 0 - low.getD shard 0)).map (shard, ·)

/-- The entries in `(low, high]` of every shard, until they hold `maxBytes`, and the last
sequence read in every shard. -/
def readBounded (shards : ℕ) : Except LiveError (List Read × List ℕ) := do
  checkPositions shards low
  checkPositions shards high
  (List.range shards).forM fun shard =>
    require (low.getD shard 0 ≤ high.getD shard 0) (.invalidArgument
      (s!"journal shard {shard}: head {high.getD shard 0} is below position " ++
        s!"{low.getD shard 0}"))
  let wanted := wantedEntries low high shards
  let r ← readPages enc snap low high maxBytes wanted.length wanted ⟨[], low, 0⟩
  return (r.out, r.reached)

end Read

/-! ## Checkpoints -/

/-- An id that is neither empty nor too long. -/
def checkConsumer (consumer : String) : Except LiveError Unit :=
  require (1 ≤ (utf8 consumer).length ∧ (utf8 consumer).length ≤ maxConsumerBytes)
    (.invalidArgument s!"a journal consumer id has 1 to {maxConsumerBytes} bytes")

/-- Writes a consumer's checkpoint, which expires some milliseconds after the start, or
never. -/
def checkpoint (enc : Encoding) (shards : ℕ) (consumer : String) (positions : List ℕ)
    (ttlMs : Option ℕ) : TxnM Unit := do
  checkConsumer consumer
  checkPositions shards positions
  let t ← read
  let expiresMs := match ttlMs with
    | none => 0
    | some ttl => max (physicalMs t.start + ttl) 1
  (List.range shards).forM fun shard =>
    Txn.put enc (.checkpoint shard consumer) (.checkpoint (positions.getD shard 0) expiresMs)

/-- Forgets a consumer in every shard. -/
def removeCheckpoint (shards : ℕ) (consumer : String) : TxnM Unit := do
  checkConsumer consumer
  (List.range shards).forM fun shard => Txn.delete (.checkpoint shard consumer)

/-! ## The janitor -/

/-- What a trim did. -/
structure TrimPass where
  deleted : ℕ := 0
  expired : ℕ := 0
  floor : ℕ := 0
  done : Bool := false

/-- Goes over the checkpoints of a shard: drops the expired ones, from every shard at
once, and keeps the lowest position of the others. -/
def visitCheckpoints (shards nowMs : ℕ) :
    List (String × Record) → Option ℕ → ℕ → TxnM (Option ℕ × ℕ)
  | [], floor, expired => pure (floor, expired)
  | (consumer, value) :: rest, floor, expired => do
    let (seq, expiresMs) ← decodeCheckpoint value
    if expiresMs ≠ 0 ∧ expiresMs ≤ nowMs then
      (List.range shards).forM fun s => Txn.delete (.checkpoint s consumer)
      visitCheckpoints shards nowMs rest floor (expired + shards)
    else visitCheckpoints shards nowMs rest (some (floor.elim seq (min · seq))) expired

/-- Deletes entries, the oldest first, up to the first one that is kept. -/
def trimEntries (shard retentionMs nowMs : ℕ) :
    List (ℕ × Record) → TrimPass → TxnM TrimPass
  | [], pass => pure pass
  | (seq, value) :: rest, pass => do
    let entry ← decodeEntry value
    if nowMs < entry.commitHintMs + retentionMs then return { pass with done := true }
    else
      Txn.delete (.entry shard seq)
      trimEntries shard retentionMs nowMs rest { pass with deleted := pass.deleted + 1 }

/-- One pass over a shard. -/
def trim (shards shard retentionMs : ℕ) : TxnM TrimPass := do
  let t ← read
  let nowMs := physicalMs t.start
  let checkpoints := (t.view.checkpoints shard).toList.take (maxConsumers + 1)
  require (checkpoints.length ≤ maxConsumers) (LiveError.limitExceeded "journal_consumers"
    s!"journal shard {shard} has more than {maxConsumers} checkpoints")
  let (lowest, expired) ← visitCheckpoints shards nowMs checkpoints none 0
  let t ← read
  let head ← decodeHead (t.view.heads shard)
  let floor := min (lowest.getD head) head
  let pass : TrimPass := { expired, floor, done := true }
  if floor = 0 then return pass
  else
    let entries := ((t.view.entries shard).toList.filter fun p => p.1 ≤ floor).take trimBatch
    trimEntries shard retentionMs nowMs entries { pass with done := entries.length < trimBatch }

/-- Deletes the expired ones of some idempotency records, and counts them. -/
def sweepRecords (nowMs : ℕ) : List (Bytes × Record) → ℕ → TxnM ℕ
  | [], deleted => pure deleted
  | (hash, .idempotency record) :: rest, deleted =>
    if record.expiresMs ≤ nowMs then do
      Txn.delete (.idempotency hash)
      sweepRecords nowMs rest (deleted + 1)
    else sweepRecords nowMs rest deleted
  -- a record that cannot be decoded is kept
  | (_, _) :: rest, deleted => sweepRecords nowMs rest deleted

/-- Deletes the expired idempotency records among the next ones from a hash on: how many,
and where the next pass starts. -/
def sweepIdempotency (start : Bytes) : TxnM (ℕ × Option Bytes) := do
  let t ← read
  let records := (t.view.idempotency.toList.filter fun p => (compare start p.1).isLE).take trimBatch
  let next := if records.length = trimBatch then records.getLast?.map (keyAfter ·.1) else none
  let deleted ← sweepRecords (physicalMs t.start) records 0
  return (deleted, next)

end Journal

/-! ## The tailer -/

/-- What a tick read: the entries in `(low, heads]` of every shard. -/
structure Batch where
  ts : Timestamp
  low : List ℕ
  heads : List ℕ
  entries : List Journal.Read
  /-- Whether the heads are those visible at the timestamp. -/
  complete : Bool

/-- A reader of every shard of the journal. -/
structure Tailer where
  shards : ℕ
  positions : List ℕ
  maxBatchBytes : ℕ := 64 * 1024 * 1024
  /-- At least one entry is read. -/
  reads_some : 1 ≤ maxBatchBytes := by decide

namespace Tailer

/-- A tailer at these positions. -/
def new (shards : ℕ) (positions : List ℕ) : Except LiveError Tailer := do
  Journal.checkPositions shards positions
  return { shards, positions }

/-- Batches of another size. -/
def withMaxBatchBytes (t : Tailer) (bytes : ℕ) : Tailer :=
  { t with maxBatchBytes := max bytes 1, reads_some := le_max_right _ _ }

/-- A tailer at the heads visible in a snapshot. -/
def start (shards : ℕ) (snap : Store) : Except LiveError Tailer := do
  let positions ← Journal.heads shards snap
  new shards positions

/-- Reads the entries behind the positions in the snapshot at a timestamp. -/
def tick (enc : Encoding) (t : Tailer) (ts : Timestamp) (snap : Store) :
    Except LiveError Batch := do
  let visible ← Journal.heads t.shards snap
  let (entries, heads) ←
    Journal.readBounded enc snap t.positions visible t.maxBatchBytes t.shards
  return ⟨ts, t.positions, heads, entries, heads = visible⟩

/-- Moves the positions behind a batch that was read from them. -/
def ack (t : Tailer) (batch : Batch) : Except LiveError Tailer :=
  if batch.low = t.positions then .ok { t with positions := batch.heads }
  else .error (.invalidArgument "the batch was not read from the tailer's current positions")

end Tailer

end Loams.Live
