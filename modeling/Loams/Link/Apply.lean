/-
# Applying a stream to a table of counters

A run loads what the table has committed, fetches a batch of records and commits the batch
on the version it loaded.
-/

import Loams.Control.Run
import Loams.Link.Counter

namespace Loams.Link

open Loams.Control Loams.Data Loams.Log Std

/-! ## Gathering a batch -/

/-- How much a batch may hold. -/
structure LinkConfig where
  batchRecords : ℕ
  maxBatchBytes : ℕ

/-- What a table has committed. -/
structure TargetState where
  version : ℕ
  applied : BTreeMap ℕ ℕ

/-- What the next batch builds on. -/
def Manifest.state (m : Manifest) : TargetState := ⟨m.version, m.applied⟩

/-- A run that gathers a batch: the partition whose turn it is, and the next offset to
fetch of it. -/
structure Gathering where
  state : TargetState
  partitions : ℕ
  turn : ℕ
  offset : ℕ
  batch : ApplyBatch
  bytes : ℕ
  /-- Whether a limit stopped the batch. -/
  full : Bool

namespace Gathering

/-- Every version starts at a different partition. -/
def partitionAt (state : TargetState) (partitions turn : ℕ) : ℕ :=
  (state.version % max partitions 1 + turn) % partitions

/-- The partition whose turn it is. -/
def partition (g : Gathering) : ℕ := partitionAt g.state g.partitions g.turn

/-- A batch that has nothing yet. -/
def start (state : TargetState) (partitions : ℕ) : Gathering where
  state := state
  partitions := partitions
  turn := 0
  offset := state.applied.getD (partitionAt state partitions 0) 0
  batch := {}
  bytes := 0
  full := false

/-- The turn of the next partition. -/
def pass (g : Gathering) : Gathering :=
  { g with
    turn := g.turn + 1
    offset := g.state.applied.getD (partitionAt g.state g.partitions (g.turn + 1)) 0 }

/-- The partition's offset is reached by the batch. -/
def reach (g : Gathering) (offset : ℕ) : Gathering :=
  { g with
    offset := offset
    batch := { g.batch with appliedAfter := g.batch.appliedAfter.insert g.partition offset } }

end Gathering

/-- What a record counts in a batch. -/
def recordBytes (record : Record) : ℕ :=
  (record.key.map List.length).getD 0 + (record.value.map List.length).getD 0 +
    (record.headers.map fun h => h.1.utf8ByteSize + (h.2.map List.length).getD 0).sum

/-- What a fetch returns. -/
inductive Response
  | records (records : List Fetched) (highWatermark : ℕ)
  | outOfRange (logStart highWatermark : ℕ)

namespace Gathering

variable (config : LinkConfig)

/-- Takes fetched records until the batch has its number of them. -/
def take (g : Gathering) : List Fetched → Gathering
  | [] => g
  | x :: rest =>
    if config.batchRecords ≤ g.batch.records.length then { g with full := true }
    else
      take { g with
        offset := x.offset + 1
        bytes := g.bytes + recordBytes x.record
        batch := { g.batch with records := g.batch.records ++ [(g.partition, x)] } } rest

/-- One round of the loop over a partition. -/
def answer (g : Gathering) : Response → Gathering
  | .outOfRange logStart _ => if g.offset < logStart then g.reach logStart else g.pass
  | .records [] _ => g.pass
  | .records (x :: rest) highWatermark =>
    let taken := g.take config (x :: rest)
    let reached := taken.reach taken.offset
    if reached.full ∨ highWatermark ≤ reached.offset then reached.pass else reached

/-- Whether the batch is complete, and if so whether a limit stopped it. -/
def complete? (g : Gathering) : Option Bool :=
  if g.turn < g.partitions then
    if config.batchRecords ≤ g.batch.records.length ∨ config.maxBatchBytes ≤ g.bytes then some true
    else none
  else some g.full

/-- Whether the batch applies anything. -/
def advances (g : Gathering) : Bool :=
  g.batch.appliedAfter.toList.any fun e => g.state.applied.getD e.1 0 < e.2

end Gathering

/-! ## Runs, tables and the stream -/

/-- Where a run of the task is. -/
inductive Phase
  | loading
  | gathering (g : Gathering)
  /-- With a batch for the version it loaded. -/
  | committing (version : ℕ) (batch : ApplyBatch) (full : Bool)
  /-- The data object is written, the manifest is not. -/
  | writing (manifest : Manifest)
  /-- The manifest is written; the pointer update may have been sent. -/
  | swapping (path : LinkPath) (manifest : Manifest)
  | ended

/-- A full batch is committed if it advances. -/
def Gathering.phase (config : LinkConfig) (g : Gathering) : Phase :=
  match g.complete? config with
  | none => .gathering g
  | some full => if g.advances then .committing g.state.version g.batch full else .ended

/-- One run of a table. -/
structure Run where
  table : ℕ
  phase : Phase

/-- The committed manifests with their paths, newest first. -/
abbrev Versions := List (LinkPath × Manifest)

/-- The newest manifest; before any commit, the empty one. -/
def Versions.newest : Versions → Manifest
  | [] => {}
  | (_, m) :: _ => m

/-- One partition of the stream. Trimming only moves the start of the log. -/
structure PartitionLog where
  records : List Record
  logStart : ℕ

/-- The record takes the next offset. -/
def PartitionLog.append (log : PartitionLog) (record : Record) : PartitionLog :=
  { log with records := log.records ++ [record] }

/-- Never back and never past the end. -/
def PartitionLog.trim (log : PartitionLog) (before : ℕ) : PartitionLog :=
  { log with logStart := max log.logStart (min before log.records.length) }

/-- The first `count` records from `offset` on. -/
def PartitionLog.read (log : PartitionLog) (offset count : ℕ) : List Fetched :=
  (((log.records.drop offset).take count).zipIdx offset).map fun x => ⟨x.2, x.1⟩

/-- The object store, the pointer, the log and the tables with their runs. -/
structure World where
  manifests : LinkPath → Option Manifest
  data : LinkPath → Option (BTreeMap String Int64)
  /-- The pointer of the link: its version is the number of commits, its value the path of
  the newest. -/
  versions : Versions
  /-- What each open table remembers. -/
  tables : List (Option Manifest)
  runs : List Run
  /-- The pointer updates that were sent, with the versions they expect. -/
  sent : List (ℕ × LinkPath)
  log : ℕ → PartitionLog

/-- What can happen. -/
inductive Action
  | append (partition : ℕ) (record : Record)
  | trim (partition before : ℕ)
  | openTable
  | begin (table : ℕ)
  | load (run : ℕ)
  | fetch (run : ℕ) (response : Response)
  /-- A small batch waits for more records, or a commit found another version: the run
  loads again. -/
  | again (run : ℕ)
  | commit (run : ℕ) (ulid : Ulid)
  | putManifest (run : ℕ) (ulid : Ulid)
  | send (run : ℕ)
  /-- A pointer update that was sent is applied. -/
  | land (update : ℕ)
  /-- A run learns that its pointer update was applied. -/
  | acknowledge (run : ℕ)

namespace World

/-- Nothing stored, no table open. -/
def initial : World where
  manifests _ := none
  data _ := none
  versions := []
  tables := []
  runs := []
  sent := []
  log _ := ⟨[], 0⟩

variable (ns link : ℕ) (config : LinkConfig) (ps : Parsers) (partitions : ℕ) (w : World)

/-- The manifest the pointer names: the remembered one, if it has the pointer's version. -/
def current (last : Option Manifest) : Except LinkError Manifest :=
  match w.versions with
  | [] => .ok {}
  | (path, _) :: older =>
    match last.filter (·.version = older.length + 1) with
    | some m => .ok m
    | none =>
      match w.manifests path with
      | none => .error (.storeNotFound (path.text ns link))
      | some m =>
        if m.version = older.length + 1 then .ok m
        else .error (.corrupt
          s!"{path.text ns link} holds version {m.version}, its pointer says {older.length + 1}")

/-- The table remembers the manifest it read, unless there was none. -/
def remember (table : ℕ) (m : Manifest) : World :=
  { w with tables := if w.versions = [] then w.tables else w.tables.set table (some m) }

/-- A run goes on to a phase. -/
def setPhase (run : ℕ) (phase : Phase) : World :=
  { w with runs := w.runs.modify run fun r => { r with phase := phase } }

/-- The counters with the sums of one more data object. -/
def addData (counters : BTreeMap String Int64) (path : LinkPath) :
    Except LinkError (BTreeMap String Int64) :=
  match w.data path with
  | none => .error (.storeNotFound (path.text ns link))
  | some sums => .ok (sums.toList.foldl addDelta counters)

/-- What the data objects of a manifest add up to. -/
def readData (paths : List LinkPath) : Except LinkError (BTreeMap String Int64) :=
  paths.foldlM (w.addData ns link) ∅

/-- A consistent view of the table at one version. -/
structure Snapshot where
  version : ℕ
  counters : BTreeMap String Int64
  applied : BTreeMap ℕ ℕ
  skipped : ℕ

/-- The counters of the current version. -/
def snapshot (last : Option Manifest) : Except LinkError Snapshot := do
  let m ← w.current ns link last
  let counters ← w.readData ns link m.data
  pure ⟨m.version, counters, m.applied, m.skipped⟩

/-- A run starts from the current version. -/
def load (run : ℕ) (table : ℕ) : World :=
  match w.tables[table]? with
  | none => w.setPhase run .ended
  | some last =>
    match w.current ns link last with
    | .error _ => w.setPhase run .ended
    | .ok m =>
      (w.remember table m).setPhase run ((Gathering.start m.state partitions).phase config)

/-- The manifest a commit builds on: the remembered one of that version, else the current. -/
def parentOf (last : Option Manifest) (version : ℕ) : Option Manifest :=
  match last.filter (·.version = version) with
  | some m => some m
  | none =>
    match w.current ns link last with
    | .ok m => if m.version = version then some m else none
    | .error _ => none

/-- The first part of a commit: the sums of the batch are written. -/
def commit (run table version : ℕ) (batch : ApplyBatch) (ulid : Ulid) : World :=
  match w.tables[table]? with
  | none => w.setPhase run .ended
  | some last =>
    match w.parentOf ns link last version with
    | none => w.setPhase run .loading
    | some parent =>
      match deltas ps parent batch with
      | .error _ => w.setPhase run .ended
      | .ok (sums, skipped) =>
        if sums.isEmpty then w.setPhase run
          (.writing (nextManifest parent batch parent.data skipped))
        else
          match w.data (.data ulid) with
          | some _ => w.setPhase run .ended
          | none =>
            let w := { w with data := Function.update w.data (.data ulid) (some sums) }
            w.setPhase run
              (.writing (nextManifest parent batch (parent.data ++ [.data ulid]) skipped))

/-- The manifest is written at a new path; there may already be the same one, after a retry. -/
def putManifest (run : ℕ) (m : Manifest) (ulid : Ulid) : World :=
  let path := LinkPath.manifest m.version ulid
  match w.manifests path with
  | none =>
    let w := { w with manifests := Function.update w.manifests path (some m) }
    w.setPhase run (.swapping path m)
  | some existing =>
    if existing = m then w.setPhase run (.swapping path m) else w.setPhase run .ended

/-- The pointer moves if it has the version the update expects. -/
def land (expected : ℕ) (path : LinkPath) : World :=
  match w.manifests path with
  | none => w
  | some m =>
    if expected = w.versions.length then { w with versions := (path, m) :: w.versions } else w

/-- One action. -/
def step : Action → World
  | .append partition record =>
    { w with log := Function.update w.log partition ((w.log partition).append record) }
  | .trim partition before =>
    { w with log := Function.update w.log partition ((w.log partition).trim before) }
  | .openTable => { w with tables := w.tables ++ [none] }
  | .begin table => { w with runs := w.runs ++ [⟨table, .loading⟩] }
  | .load run =>
    match w.runs[run]? with
    | some ⟨table, .loading⟩ => w.load ns link config partitions run table
    | _ => w
  | .fetch run response =>
    match w.runs[run]? with
    | some ⟨_, .gathering g⟩ => w.setPhase run ((g.answer config response).phase config)
    | _ => w
  | .again run =>
    match w.runs[run]? with
    | some ⟨_, .committing _ _ false⟩ => w.setPhase run .loading
    | some ⟨_, .swapping _ _⟩ => w.setPhase run .loading
    | _ => w
  | .commit run ulid =>
    match w.runs[run]? with
    | some ⟨table, .committing version batch _⟩ => w.commit ns link ps run table version batch ulid
    | _ => w
  | .putManifest run ulid =>
    match w.runs[run]? with
    | some ⟨_, .writing m⟩ => w.putManifest run m ulid
    | _ => w
  | .send run =>
    match w.runs[run]? with
    | some ⟨_, .swapping path m⟩ => { w with sent := w.sent ++ [(m.parent, path)] }
    | _ => w
  | .land update =>
    match w.sent[update]? with
    | some (expected, path) => w.land expected path
    | none => w
  | .acknowledge run =>
    match w.runs[run]? with
    | some ⟨table, .swapping path m⟩ =>
      if (path, m) ∈ w.versions then (w.remember table m).setPhase run .ended else w
    | _ => w

/-- A fetch answers from the log of its partition, as some replica knew it: records follow
each other from the offset on, and a start of the log was reached by a trim. -/
def Answers (g : Gathering) : Response → Prop
  | .records xs _ => ∃ count, xs = (w.log g.partition).read g.offset count
  | .outOfRange logStart _ => logStart ≤ (w.log g.partition).logStart

/-- The world after the actions, from a new link on an empty stream. -/
def run (actions : List Action) : World :=
  actions.foldl (step ns link config ps partitions) initial

/-- Every fetch of a run is answered from the log. -/
def Fetches : Action → Prop
  | .fetch run response =>
    ∀ table g, w.runs[run]? = some ⟨table, .gathering g⟩ → w.Answers g response
  | _ => True

end World

end Loams.Link
