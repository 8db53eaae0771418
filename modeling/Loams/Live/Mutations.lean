/-
# Mutations and the transactions of an app

One attempt of a mutation looks for an idempotency record, runs the function and journals
what it wrote.
-/

import Loams.Live.Journal
import Loams.Live.LiveTxn

namespace Loams.Live

open Loams.Data Loams.Control Loams.Tikv Program

/-- A day. -/
def idempotencyTtlMs : ℕ := 24 * 60 * 60 * 1000

/-- The size of a result that is kept. -/
def maxIdempotentResultBytes : ℕ := 1024 * 1024

/-- What a runner can be told. -/
structure RunnerOptions where
  serializableRanges : Bool := false

/-- The hash of an idempotency key and the digest of the arguments. -/
structure IdemKey where
  hash : Bytes
  args : Bytes
  deriving DecidableEq

/-- One attempt of a call of a mutation, with what its random sources give. -/
structure Attempt where
  function : String
  body : LiveValue → Body
  args : LiveValue
  idem : Option IdemKey := none
  requestId : String := ""
  draws : ℕ → Option (Vector UInt8 16)
  /-- The shard that the attempt before drew. -/
  lastShard : Option ℕ := none
  shardDraw : ℕ := 0

/-- How an attempt ended. -/
inductive Outcome
  | ran (result : LiveValue) (journal : Option (ℕ × ℕ)) (usage : Usage)
  | replayed (result : LiveValue)

namespace Attempt

variable (app : App) (options : RunnerOptions) (attempt : Attempt)

/-- The app was never opened. -/
def noAppRecord : LiveError :=
  .failedPrecondition "the app has no settings record: open its Runner first"

/-- The shard count of the app. -/
def journalShards (data : Data) : Except LiveError ℕ := do
  match ← Catalog.loadJournalShards data with
  | some shards => return shards
  | none => .error noAppRecord

/-- The idempotency record in a record. -/
def decodeIdempotency : Record → Except LiveError IdempotencyRecord
  | .idempotency record => .ok record
  | _ => .error (.corrupt "an idempotency record")

/-- The result of a live record of the attempt's key. -/
def replay (store : Store) (nowMs : ℕ) : Except LiveError (Option LiveValue) := do
  match attempt.idem with
  | none => return none
  | some idem =>
    match store.idempotency[idem.hash]? with
    | none => return none
    | some value =>
      let record ← decodeIdempotency value
      if nowMs < record.expiresMs then
        require (record.function = attempt.function) (.invalidArgument
          s!"the idempotency key was used for {record.function}, not {attempt.function}")
        -- a record without the digest predates it
        require (record.argsHash = [] ∨ record.argsHash = idem.args) (.invalidArgument
          s!"the idempotency key was used for {attempt.function} with other arguments")
        return some record.result
      else return none

/-- Runs the function in the transaction. -/
def call : TxnM (LiveValue × LiveTxn) := fun t =>
  let ran := ((attempt.body attempt.args).run app attempt.draws).exec (LiveTxn.forMutation t)
  (ran.1.map (·, ran.2), ran.2.txn)

/-- Records the result under the attempt's key. -/
def record (result : LiveValue) : TxnM Unit := do
  match attempt.idem with
  | none => return ()
  | some idem =>
    let t ← read
    let record : IdempotencyRecord :=
      { result
        expiresMs := physicalMs t.start + idempotencyTtlMs
        function := attempt.function
        startTs := t.start
        argsHash := idem.args }
    require (app.enc.len (.idempotency record) ≤ maxIdempotentResultBytes + 1024)
      (LiveError.limitExceeded "max_idempotent_result_bytes"
        (s!"an idempotent mutation's result encodes to more than " ++
          s!"{maxIdempotentResultBytes} bytes"))
    Txn.put app.enc (.idempotency idem.hash) (.idempotency record)

/-- The journal entry of the attempt. -/
def entry (writes : List WriteRecord) : JournalEntry :=
  { commitHintMs := 0, writes, function := attempt.function, requestId := attempt.requestId }

/-- What follows the function: nothing if it wrote nothing. -/
def finish (shards : ℕ) (result : LiveValue) (live : LiveTxn) : TxnM Outcome := do
  if live.writes = [] then return .ran result none live.usage
  else
    attempt.record app result
    if options.serializableRanges ∧ live.readSet.ranges ≠ [] then
      Txn.lockKeys ((List.range shards).map .head)
    let shard := Journal.pickOther shards attempt.lastShard attempt.shardDraw
    let position ← Journal.appendTo app.enc shards shard (attempt.entry live.writes)
    return .ran result (some position) live.usage

/-- One attempt, inside its transaction. -/
def run : TxnM Outcome := do
  let t ← read
  let shards ← journalShards t.view.data
  match ← attempt.replay t.view (physicalMs t.start) with
  | some result => return .replayed result
  | none =>
    let (result, live) ← attempt.call app
    attempt.finish app options shards result live

end Attempt

/-! ## The transactions of an app -/

/-- A transaction of an app whose journal has the given shards. -/
inductive Tx
  | mutate (attempt : Attempt)
  | trim (shard retentionMs : ℕ)
  | sweep (start : Bytes)
  | checkpoint (consumer : String) (positions : List ℕ) (ttlMs : Option ℕ)
  | removeCheckpoint (consumer : String)

/-- What a transaction answers. -/
inductive Answer
  | mutated (outcome : Outcome)
  | trimmed (pass : Except LiveError Journal.TrimPass)
  | swept (pass : Except LiveError (ℕ × Option Bytes))
  | checkpointed (result : Except LiveError Unit)

/-- Runs a body whose errors roll the transaction back. -/
def Txn.orRollback {α : Type} (body : TxnM α) (wrap : α → Answer) (t : Txn) :
    Option (Answer × Effect AppKey Record) :=
  match body.exec t with
  | (.ok a, t') => some (wrap a, t'.effect)
  | (.error _, _) => none

/-- Runs a body whose own errors are answers: only a storage error rolls back. -/
def Txn.lifted {α : Type} (body : TxnM α) (wrap : Except LiveError α → Answer)
    (t : Txn) : Option (Answer × Effect AppKey Record) :=
  match body.exec t with
  | (.error (.txn _), _) => none
  | (r, t') => some (wrap r, t'.effect)

namespace Tx

variable (app : App) (options : RunnerOptions) (shards : ℕ)

/-- What the transaction answers and does when it starts at a timestamp and sees a store;
none if it is rolled back. -/
def run (tx : Tx) (start : Timestamp) (snapshot : Store) : Option (Answer × Effect AppKey Record) :=
  let t := Txn.startAt start snapshot
  match tx with
  | .mutate attempt => Txn.orRollback (attempt.run app options) .mutated t
  | .trim shard retentionMs => Txn.lifted (Journal.trim shards shard retentionMs) .trimmed t
  | .sweep start => Txn.lifted (Journal.sweepIdempotency start) .swept t
  | .checkpoint consumer positions ttlMs =>
    Txn.lifted (Journal.checkpoint app.enc shards consumer positions ttlMs) .checkpointed t
  | .removeCheckpoint consumer =>
    Txn.lifted (Journal.removeCheckpoint shards consumer) .checkpointed t

end Tx

/-- A commit of an app. -/
abbrev AppCommit := Commit Tx Answer AppKey Record

end Loams.Live
