/-
# A table of counters that a link maintains

A commit writes the sums of its batch, then a manifest, then the pointer to it.
-/

import Loams.Log.Batch
import Loams.Meta.Types

namespace Loams.Link

open Loams.Control Loams.Data Loams.Log Loams.Meta Std

/-- Where an object of the link lives, below the prefix of the link. -/
inductive LinkPath
  | data (ulid : Ulid)
  | manifest (version : ℕ) (ulid : Ulid)
  deriving DecidableEq

/-- Where the objects of a link lie. -/
def linkPrefix (ns link : ℕ) : String := s!"ns/{ns}/links/{link}/"

/-- The path in the object store. -/
def LinkPath.text (ns link : ℕ) : LinkPath → String
  | .data ulid => linkPrefix ns link ++ s!"data/{ulid.text}.cnt"
  | .manifest version ulid =>
    linkPrefix ns link ++ s!"manifests/{padded version}-{ulid.text}.man"

/-- What a link can fail with. -/
inductive LinkError
  | corrupt (message : String)
  | storeNotFound (path : String)
  | storeExists (path : String)
  deriving DecidableEq

/-- One version of the table. -/
structure Manifest where
  version : ℕ := 0
  parent : ℕ := 0
  /-- Every data object of the table, oldest first. -/
  data : List LinkPath := []
  /-- The next offset to apply of each partition. -/
  applied : BTreeMap ℕ ℕ := ∅
  /-- How many records below these offsets were not applied. -/
  skipped : ℕ := 0
  deriving DecidableEq

/-- The next offset to apply of a partition. -/
def Manifest.appliedAt (m : Manifest) (partition : ℕ) : ℕ := m.applied.getD partition 0

/-- A record as a fetch returns it. -/
structure Fetched where
  offset : ℕ
  record : Record
  deriving DecidableEq

/-- Records with their partitions and, for each partition that advanced, the next offset to
apply after them. Offsets in between without a record were trimmed. -/
structure ApplyBatch where
  records : List (ℕ × Fetched) := []
  appliedAfter : BTreeMap ℕ ℕ := ∅

/-- How the standard library reads text: bytes as UTF-8, and a trimmed decimal numeral. -/
structure Parsers where
  fromUtf8 : Bytes → Option String
  parseTrimmed : String → Option Int64

/-- The counter a record adds to and what it adds. -/
def Parsers.delta (ps : Parsers) (record : Record) : Option (String × Int64) := do
  let key ← record.key.bind ps.fromUtf8
  let delta ← (record.value.bind ps.fromUtf8).bind ps.parseTrimmed
  pure (key, delta)

/-! ## Sums -/

/-- The counters with one more delta. -/
def addDelta (counters : BTreeMap String Int64) (entry : String × Int64) : BTreeMap String Int64 :=
  counters.insert entry.1 (counters.getD entry.1 0 + entry.2)

/-- The sum of the deltas of each counter. -/
def tally (entries : List (String × Int64)) : BTreeMap String Int64 := entries.foldl addDelta ∅

/-- What a commit does with one record of its batch: the sums, the records that were not
applied, and the number of records of each partition. -/
def deltaStep (ps : Parsers) (parent : Manifest) (batch : ApplyBatch)
    (acc : BTreeMap String Int64 × ℕ × BTreeMap ℕ ℕ) (x : ℕ × Fetched) :
    Except LinkError (BTreeMap String Int64 × ℕ × BTreeMap ℕ ℕ) := do
  let (sums, skipped, counts) := acc
  let start := parent.appliedAt x.1
  let stop := batch.appliedAfter.getD x.1 start
  require (start ≤ x.2.offset ∧ x.2.offset < stop)
    (.corrupt s!"record {x.1}/{x.2.offset} is outside the batch's range {start}..{stop}")
  let counts := counts.insert x.1 (counts.getD x.1 0 + 1)
  match ps.delta x.2.record with
  | some entry => pure (addDelta sums entry, skipped, counts)
  | none => pure (sums, skipped + 1, counts)

/-- Offsets that the batch covers without a record. -/
def gapStep (parent : Manifest) (counts : BTreeMap ℕ ℕ) (skipped : ℕ) (x : ℕ × ℕ) :
    Except LinkError ℕ := do
  let start := parent.appliedAt x.1
  require (start ≤ x.2) (.corrupt s!"partition {x.1} would go back from {start} to {x.2}")
  pure (skipped + (x.2 - start - counts.getD x.1 0))

/-- The sums of a batch and how many of its offsets were not applied. -/
def deltas (ps : Parsers) (parent : Manifest) (batch : ApplyBatch) :
    Except LinkError (BTreeMap String Int64 × ℕ) := do
  let (sums, skipped, counts) ← batch.records.foldlM (deltaStep ps parent batch) (∅, 0, ∅)
  let skipped ← batch.appliedAfter.toList.foldlM (gapStep parent counts) skipped
  pure (sums, skipped)

/-- The manifest of a commit on `parent`. -/
def nextManifest (parent : Manifest) (batch : ApplyBatch) (data : List LinkPath) (skipped : ℕ) :
    Manifest where
  version := parent.version + 1
  parent := parent.version
  data := data
  applied := batch.appliedAfter.toList.foldl (fun m e => m.insert e.1 e.2) parent.applied
  skipped := satAdd parent.skipped skipped

end Loams.Link
