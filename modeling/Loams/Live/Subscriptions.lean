/-
# The subscription manager

One task owns the subscriptions of an app, the index of their read sets and a tailer of the
journal.
-/

import Loams.Live.Coverage
import Loams.Live.Store

namespace Loams.Live

open Loams.Data Loams.Tikv

/-- Adds the subscriptions whose read set covers a key that the record names. -/
def ReadSetIndex.stab (index : ReadSetIndex) (w : WriteRecord) (out : Finset SubId) :
    Finset SubId :=
  (w.removed ++ w.added).foldl (fun out key => index.stabKey key out)
    (index.stabKey (AppKeys.document w.id) out)

namespace Subs

/-- A function and the digest of its arguments. -/
structure SubKey where
  function : String
  argsDigest : Bytes
  deriving DecidableEq

/-- Someone who subscribes. -/
abbrev Subscriber := ℕ

/-- What a query evaluates to on a snapshot. -/
structure Evaluation (V : Type) where
  result : V
  readSet : ReadSet

/-- A result and the tick it was computed at. -/
structure SubResult (V E : Type) where
  result : Except E V
  ts : Timestamp

/-- A subscription that its subscribers share. -/
structure Sub (Q V E : Type) where
  key : SubKey
  query : Q
  refs : ℕ
  result : SubResult V E
  readSet : ReadSet
  /-- The last evaluation failed. -/
  errored : Bool

/-- A new key, and everyone asking for it. -/
structure NewSub (Q : Type) where
  key : SubKey
  query : Q
  replies : List Subscriber

/-- A command to the manager. -/
inductive Cmd (Q : Type)
  | subscribe (key : SubKey) (query : Q) (reply : Subscriber)
  /-- One subscriber of the id leaves; the manager does not see which. -/
  | unsubscribe (id : SubId) (subscriber : Subscriber)

/-- A journal entry that was committed at a timestamp. -/
structure Entry where
  ts : Timestamp
  writes : List WriteRecord

/-- A tailer that was started at a timestamp, with the entries that are behind it. -/
structure Tailer where
  since : Timestamp
  acked : List Entry := []

/-- What the tailer answers when it reads at a timestamp. -/
inductive Read
  /-- Whether a shard moved, and whether the heads visible at the timestamp were reached. -/
  | batch (entries : List Entry) (moved complete : Bool)
  /-- The journal was trimmed past the positions. -/
  | trimmed
  | failed

/-- A completed tick and the results that changed. -/
structure Tick (V E : Type) where
  ts : Timestamp
  changed : List (SubId × SubResult V E)
  resynced : Bool

/-- The subscriptions of an app. -/
structure Manager (Q V E : Type) where
  tailer : Option Tailer := none
  /-- The tick every subscription is valid at. -/
  tick : Option Timestamp := none
  /-- Whether the tailer's positions are those of the tick. -/
  valid : Bool := false
  index : ReadSetIndex := {}
  subs : BTreeMap SubId (Sub Q V E) := ∅
  byKey : SubKey → Option SubId := fun _ => none
  nextId : SubId := 1
  /-- Invalidated by acknowledged batches, not evaluated again yet. -/
  pending : Finset SubId := ∅
  /-- New keys waiting for a valid tick. -/
  waiting : List (NewSub Q) := []

variable {Q V E : Type}

/-- An evaluation as a result, a read set and whether it failed. -/
def split : Except E (Evaluation V) → Except E V × ReadSet × Bool
  | .ok q => (.ok q.result, q.readSet, false)
  | .error e => (.error e, {}, true)

/-- Whether two results are equal as values. -/
def sameResult [BEq V] [BEq E] : Except E V → Except E V → Bool
  | .ok a, .ok b => a == b
  | .error a, .error b => a == b
  | _, _ => false

namespace Manager

/-! ## Commands -/

/-- The last subscriber takes the subscription along. -/
def unsubscribe (id : SubId) (m : Manager Q V E) : Manager Q V E :=
  match m.subs[id]? with
  | none => m
  | some sub =>
    if sub.refs - 1 = 0 then
      { m with
        subs := m.subs.erase id
        byKey := Function.update m.byKey sub.key none
        index := m.index.remove id
        pending := m.pending.erase id }
    else { m with subs := m.subs.insert id { sub with refs := sub.refs - 1 } }

/-- Asks for a key among the new ones, with those that ask for it already. -/
def ask (key : SubKey) (query : Q) (reply : Subscriber) : List (NewSub Q) → List (NewSub Q)
  | [] => [⟨key, query, [reply]⟩]
  | n :: rest =>
    if n.key = key then { n with replies := n.replies ++ [reply] } :: rest
    else n :: ask key query reply rest

/-- The subscription that holds a key. -/
def holding (m : Manager Q V E) (key : SubKey) : Option (SubId × Sub Q V E) :=
  (m.byKey key).bind fun id => (m.subs[id]?).map fun sub => (id, sub)

/-- The answers that subscribers got. -/
abbrev Replies := List (Subscriber × SubId)

/-- One command, with the new keys so far and the answers. -/
def command (s : Manager Q V E × List (NewSub Q) × Replies) :
    Cmd Q → Manager Q V E × List (NewSub Q) × Replies
  | .subscribe key query reply =>
    match s.1.holding key with
    | some (id, sub) =>
      ({ s.1 with subs := s.1.subs.insert id { sub with refs := sub.refs + 1 } }, s.2.1,
        s.2.2 ++ [(reply, id)])
    | none => (s.1, ask key query reply s.2.1, s.2.2)
  | .unsubscribe id _ => (s.1.unsubscribe id, s.2)

variable (evaluate : SubId → Q → Except E (Evaluation V))

/-- Subscribes a new key with its first evaluation. -/
def addNew (ts : Timestamp) (s : Manager Q V E × Replies) (n : NewSub Q) :
    Manager Q V E × Replies :=
  let id := s.1.nextId
  let (result, readSet, errored) := split (evaluate id n.query)
  let sub : Sub Q V E := ⟨n.key, n.query, n.replies.length, ⟨result, ts⟩, readSet, errored⟩
  ({ s.1 with
      nextId := id + 1
      index := if errored then s.1.index else s.1.index.insert id readSet
      byKey := Function.update s.1.byKey n.key (some id)
      subs := s.1.subs.insert id sub },
    s.2 ++ n.replies.map fun reply => (reply, id))

/-- Evaluates new keys at a timestamp and subscribes them. -/
def evaluateNew (fresh : List (NewSub Q)) (ts : Timestamp) (m : Manager Q V E) :
    Manager Q V E × Replies :=
  fresh.foldl (addNew evaluate ts) (m, [])

/-- What happens to the new keys of the commands. -/
def enroll (fresh : List (NewSub Q)) (m : Manager Q V E) : Manager Q V E × Replies :=
  if fresh.isEmpty then (m, [])
  else
    match m.tick, m.valid with
    | some ts, true => evaluateNew evaluate fresh ts m
    | _, _ => ({ m with waiting := m.waiting ++ fresh }, [])

/-- Handles the commands that are queued. -/
def commands (cmds : List (Cmd Q)) (m : Manager Q V E) : Manager Q V E × Replies :=
  let (m, fresh, replies) := cmds.foldl command (m, [], [])
  let (m, more) := m.enroll evaluate fresh
  (m, replies ++ more)

/-! ## Ticks -/

section Ticks

variable [BEq V] [BEq E]

/-- Takes a fresh evaluation of a subscription, with the result if it changed. -/
def apply (id : SubId) (evaluated : Except E (Evaluation V)) (ts : Timestamp)
    (m : Manager Q V E) : Manager Q V E × Option (SubResult V E) :=
  match m.subs[id]? with
  | none => (m, none)
  | some sub =>
    let (result, readSet, errored) := split evaluated
    let m := { m with index := if errored then m.index.remove id else m.index.insert id readSet }
    let sub := { sub with readSet, errored }
    if sameResult sub.result.result result then ({ m with subs := m.subs.insert id sub }, none)
    else
      ({ m with subs := m.subs.insert id { sub with result := ⟨result, ts⟩ } }, some ⟨result, ts⟩)

/-- Takes the evaluations of several subscriptions, with the results that changed. -/
def applyAll (ts : Timestamp) (m : Manager Q V E)
    (evaluated : List (SubId × Except E (Evaluation V))) :
    Manager Q V E × List (SubId × SubResult V E) :=
  evaluated.foldl (fun s p =>
    let (m, result) := s.1.apply p.1 p.2 ts
    (m, s.2 ++ (result.map fun r => (p.1, r)).toList)) (m, [])

variable (evaluate : SubId → Q → Except E (Evaluation V))

/-- The subscriptions of the ids, evaluated. -/
def evaluations (ids : List SubId) (m : Manager Q V E) : List (SubId × Except E (Evaluation V)) :=
  ids.filterMap fun id => (m.subs[id]?).map fun sub => (id, evaluate id sub.query)

/-- Evaluates subscriptions again and replaces their read sets. -/
def rerun (ids : List SubId) (ts : Timestamp) (m : Manager Q V E) :
    Manager Q V E × List (SubId × SubResult V E) :=
  m.applyAll ts (m.evaluations evaluate ids)

/-- Evaluates every subscription that has not failed and takes what succeeds. -/
def safety (ts : Timestamp) (m : Manager Q V E) : Manager Q V E × List (SubId × SubResult V E) :=
  let ids := (m.subs.toList.filter fun p => !p.2.errored).map Prod.fst
  m.applyAll ts ((m.evaluations evaluate ids).filter fun p => p.2.isOk)

/-- Publishes a tick that every subscription is valid at, and evaluates waiting keys. -/
def finish (ts : Timestamp) (changed : List (SubId × SubResult V E)) (resynced : Bool)
    (m : Manager Q V E) : Manager Q V E × Replies × Tick V E :=
  let m := { m with tick := some ts, valid := true }
  let (m, replies) := evaluateNew evaluate m.waiting ts { m with waiting := [] }
  (m, replies, ⟨ts, changed, resynced⟩)

/-- Why queries are evaluated. -/
inductive Pass
  | rerun
  | safety
  | waiting
  deriving DecidableEq

/-- What a tick is told from outside. -/
structure Env (Q V E : Type) where
  now : Option Timestamp
  /-- What the tailer answers, read after read. -/
  reads : List Read
  /-- The timestamp of a restart; none if it could not be made. -/
  restarted : Option Timestamp
  evaluate : Pass → SubId → Q → Except E (Evaluation V)
  safetyDue : Bool

/-- What a step leaves: the manager, the answers to subscribers, and the tick if it was
completed. -/
structure Step (Q V E : Type) where
  manager : Manager Q V E
  replies : Replies := []
  tick : Option (Tick V E) := none

/-- Starts the tailer at a fresh timestamp and evaluates every subscription there. -/
def restart (env : Env Q V E) (resync : Bool) (m : Manager Q V E) : Step Q V E :=
  match env.restarted with
  | none => { manager := m }
  | some ts =>
    let m := { m with tailer := some { since := ts }, pending := ∅ }
    let (m, changed) := m.rerun (env.evaluate .rerun) m.subs.keys ts
    let (m, replies, tick) := m.finish (env.evaluate .waiting) ts changed resync
    ⟨m, replies, some tick⟩

/-- How the reading of the journal ended. -/
inductive Reached
  | complete
  | trimmed
  | failed

/-- The subscriptions that the entries invalidate. -/
def stabAll (index : ReadSetIndex) (entries : List Entry) (out : Finset SubId) : Finset SubId :=
  entries.foldl (fun out e => e.writes.foldl (fun out w => index.stab w out) out) out

/-- Takes a batch: the subscriptions that it invalidates are pending before it is
acknowledged. -/
def take (entries : List Entry) (moved : Bool) (m : Manager Q V E) : Manager Q V E :=
  { m with
    valid := m.valid && !moved
    pending := stabAll m.index entries m.pending
    tailer := m.tailer.map fun t => { t with acked := t.acked ++ entries } }

/-- Reads the journal until a batch is complete. -/
def readJournal (m : Manager Q V E) : List Read → Manager Q V E × Reached
  | [] => (m, .failed)
  | .batch entries moved complete :: rest =>
    let m := m.take entries moved
    if complete then (m, .complete) else readJournal m rest
  | .trimmed :: _ => (m, .trimmed)
  | .failed :: _ => (m, .failed)

/-- The subscriptions that a tick evaluates again. -/
def due (m : Manager Q V E) : List SubId :=
  (m.subs.toList.filter fun p => p.2.errored || decide (p.1 ∈ m.pending)).map Prod.fst

/-- The part of a tick that follows the journal. -/
def settle (env : Env Q V E) (ts : Timestamp) (m : Manager Q V E) : Step Q V E :=
  let (m, changed) := m.rerun (env.evaluate .rerun) m.due ts
  let m := { m with pending := ∅ }
  let (m, repaired) := if env.safetyDue then m.safety (env.evaluate .safety) ts else (m, [])
  let changed := repaired.foldl (fun changed p => changed.filter (·.1 ≠ p.1) ++ [p]) changed
  let (m, replies, tick) := m.finish (env.evaluate .waiting) ts changed false
  ⟨m, replies, some tick⟩

/-- One round: restarts, or takes in the journal. -/
def tickOnce (env : Env Q V E) (m : Manager Q V E) : Step Q V E :=
  match m.tailer with
  | none => m.restart env false
  | some _ =>
    match env.now with
    | none => { manager := m }
    | some ts =>
      match m.readJournal env.reads with
      | (m, .failed) => { manager := m }
      | (m, .trimmed) => m.restart env true
      | (m, .complete) => m.settle env ts

end Ticks

end Manager

end Subs

end Loams.Live
