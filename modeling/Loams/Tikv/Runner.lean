/-
# The transaction runner with commit tokens

A run makes attempts until one commits, an error ends it or its budget is used up.
-/

import Loams.Control.Cell
import Loams.Control.Run
import Loams.Data.ByteKeys

namespace Loams.Tikv

open Loams.Data Loams.Control

/-! ## Tokens -/

/-- Sixteen random bytes. -/
abbrev Token := Vector UInt8 16

/-- A timestamp of the oracle: milliseconds and an 18-bit counter. -/
abbrev Timestamp := ℕ

/-- The milliseconds of a timestamp. -/
def physicalMs (ts : Timestamp) : ℕ := ts / 2 ^ 18

/-- `t/`. -/
def tokenPrefix : Bytes := [0x74, 0x2f]

/-- Thirty minutes. -/
def tokenTtl : ℕ := 30 * 60 * 1000

/-- Where the token of an attempt is stored. -/
def tokenKey (token : Token) : Bytes := tokenPrefix ++ token.toList

/-- The time at which the token expires. -/
def tokenValue (nowMs : ℕ) : Bytes := beBytes 8 (min (nowMs + tokenTtl) (2 ^ 64 - 1))

/-- The value that a resolver writes in place of an absent token. -/
def fenceValue (nowMs : ℕ) : Bytes := tokenValue nowMs ++ [0x46]

/-- The value is a fence, not a commit. -/
def isFence (value : Bytes) : Bool := value.length = 9 && value[8]? = some 0x46

@[simp] theorem isFence_tokenValue (nowMs : ℕ) : isFence (tokenValue nowMs) = false := by
  simp [isFence, tokenValue]

@[simp] theorem isFence_fenceValue (nowMs : ℕ) : isFence (fenceValue nowMs) = true := by
  simp [isFence, fenceValue, tokenValue]

theorem tokenKey_inj {t t' : Token} : tokenKey t = tokenKey t' ↔ t = t' := by
  rw [tokenKey, tokenKey, List.append_cancel_left_eq, Vector.toList_inj]

/-! ## Errors -/

/-- The classes of the client's errors. -/
inductive Class
  | fatal
  | notApplied
  | tsoClosed
  | tooLarge
  | conflict
  | alreadyExists
  | undetermined
  deriving DecidableEq

/-- What a transaction can fail with. -/
inductive TxnError
  | conflict
  | notApplied (text : String)
  | undetermined (token : Option Token)
  | alreadyExists (text : String)
  | fatal (text : String)
  | deadline
  deriving DecidableEq

/-- The error of a transaction that the client's error becomes. -/
def txnError (text : String) : Class → TxnError
  | .conflict => .conflict
  | .undetermined => .undetermined none
  | .alreadyExists => .alreadyExists text
  | .notApplied | .tsoClosed => .notApplied text
  | .tooLarge | .fatal => .fatal text

namespace TxnError

/-- Whether the runner runs the transaction again after this error. -/
def retryable : TxnError → Bool
  | .conflict | .notApplied _ => true
  | _ => false

/-- The message. -/
def text : TxnError → String
  | .conflict => "transaction conflict"
  | .notApplied text => s!"not applied: {text}"
  | .undetermined _ => "commit outcome undetermined"
  | .alreadyExists text => s!"key already exists: {text}"
  | .fatal text => text
  | .deadline => "transaction deadline passed"

/-- It may have been committed. -/
def isUndetermined : TxnError → Bool
  | .undetermined _ => true
  | _ => false

end TxnError

/-! ## The machine -/

namespace Runner

/-- What a fault plan injects. -/
inductive Fault
  | refuse
  | conflict
  | loseAck
  | delay
  deriving DecidableEq

/-- A committed run. -/
structure Committed (α : Type) where
  value : α
  commitTs : Timestamp
  /-- The attempts it took, from 1. -/
  attempts : ℕ
  /-- The outcome was unknown and was resolved through the token. -/
  earlierUnknown : Bool
  deriving DecidableEq

/-- How one attempt ended. -/
inductive Attempt (α : Type)
  | committed (value : α) (commitTs : Timestamp) (resolved : Bool)
  | retry (e : TxnError)
  | fail (e : TxnError)

/-- Where the runner is in attempt `attempt`. -/
inductive Phase (α : Type)
  /-- Before the transaction begins. -/
  | starting (attempt : ℕ)
  /-- In the body. -/
  | running (attempt : ℕ) (start : Timestamp)
  /-- The body has returned. -/
  | produced (attempt : ℕ) (start : Timestamp) (value : α)
  /-- The token is written in the transaction. -/
  | committing (attempt : ℕ) (start : Timestamp) (value : α)
  /-- The commit is acknowledged. -/
  | acked (attempt : ℕ) (value : α) (commitTs : Timestamp)
  /-- The outcome is unknown, and no resolving transaction runs. -/
  | unknown (attempt : ℕ) (value : α)
  /-- A resolving transaction has begun. -/
  | resolving (attempt : ℕ) (value : α) (start : Timestamp)
  /-- A resolving transaction has found no token. -/
  | fencing (attempt : ℕ) (value : α) (start : Timestamp)
  | returned (result : Except TxnError (Committed α))
  deriving DecidableEq

/-- What a transaction writes at a token's key, and the attempt whose other writes it
commits with it. A resolver writes nothing else. -/
structure Payload where
  value : Bytes
  attempt : Option ℕ
  deriving DecidableEq

/-- The timestamp oracle and the store at the tokens' keys. -/
structure Server where
  /-- The last timestamp that the oracle gave out. -/
  clock : Timestamp := 0
  cells : Bytes → Cell Payload := fun _ => {}
  /-- The attempts whose writes were applied, in order. -/
  applied : List ℕ := []

/-- The runner and the store it talks to. -/
structure World (α : Type) where
  phase : Phase α := .starting 1
  server : Server := {}
  /-- What the body returned on each attempt. -/
  produced : ℕ → Option α := fun _ => none

/-- What the runner meets. -/
inductive Event (α : Type)
  /-- The deadline has passed. -/
  | deadline
  | fault (fault : Fault)
  /-- The fault plan has nothing after the commit. -/
  | noFault
  | begun (answer : Except (Class × String) Timestamp)
  | body (answer : Except TxnError α)
  | put (answer : Except TxnError Unit)
  | read (answer : Except Class Unit)
  | commit (answer : Except (Class × String) Timestamp)
  /-- The request is given up while the store may still carry it out. -/
  | dropped
  /-- The resolver has used up its time. -/
  | giveUp
  /-- The request number `i` in flight at a key commits at `ts`. -/
  | land (key : Bytes) (i : ℕ) (ts : Timestamp)

variable {α : Type}

/-- What the runner is given: its attempts, and the token of each. -/
structure Options where
  maxAttempts : ℕ
  tokens : ℕ → Token

namespace Options

variable (opts : Options)

/-- The attempts of a run. -/
def attempts : ℕ := max opts.maxAttempts 1

/-- Where the token of an attempt is stored. -/
def key (attempt : ℕ) : Bytes := tokenKey (opts.tokens attempt)

/-- What follows an attempt. -/
def after (attempt : ℕ) : Attempt α → Phase α
  | .committed value commitTs resolved =>
    .returned (.ok
      { value := value, commitTs := commitTs, attempts := attempt, earlierUnknown := resolved })
  | .retry e => if attempt < opts.attempts then .starting (attempt + 1) else .returned (.error e)
  | .fail e => .returned (.error e)

/-- What follows an error, which ends the attempt. -/
def failed (attempt : ℕ) (e : TxnError) : Phase α :=
  opts.after attempt (if e.retryable then .retry e else .fail e)

end Options

namespace Server

/-- Changes the store at a key. -/
def setCell (s : Server) (key : Bytes) (c : Cell Payload) : Server :=
  { s with cells := Function.update s.cells key c }

/-- A transaction that writes the payload commits at `ts`. -/
def apply (s : Server) (key : Bytes) (ts : Timestamp) (p : Payload) : Server :=
  { s.setCell key ((s.cells key).put ts p) with applied := s.applied ++ p.attempt.toList }

/-- The answer to a transaction that writes the payload is lost. -/
def lose (s : Server) (key : Bytes) (start : Timestamp) (p : Payload) : Server :=
  s.setCell key ((s.cells key).send ⟨start, p⟩)

/-- A request in flight reaches the store. -/
def land (s : Server) (key : Bytes) (i : ℕ) (ts : Timestamp) : Server :=
  match (s.cells key).inflight[i]? with
  | some r => if (s.cells key).admits r.start ts then s.apply key ts r.value else s
  | none => s

end Server

variable (opts : Options)

/-- A fault before the commit. -/
def preCommitFault (attempt : ℕ) (value : α) (here : Phase α) (stage : String) :
    Fault → Phase α
  | .delay => here
  | .refuse => opts.after attempt (.retry (.notApplied s!"fault: refused before {stage}"))
  | .conflict => opts.after attempt (.retry .conflict)
  | .loseAck => .unknown attempt value

/-- What an attempt writes at its token. -/
def mark (attempt : ℕ) (start : Timestamp) : Payload :=
  ⟨tokenValue (physicalMs start), some attempt⟩

/-- What a resolver writes at a token. -/
def fence (start : Timestamp) : Payload := ⟨fenceValue (physicalMs start), none⟩

variable (w : World α)

/-- The commit of an attempt. -/
def commitStep (attempt : ℕ) (start : Timestamp) (value : α) :
    Except (Class × String) Timestamp → World α
  | .ok ts =>
    if (w.server.cells (opts.key attempt)).admits start ts then
      { w with
        server := w.server.apply (opts.key attempt) ts (mark attempt start)
        phase := .acked attempt value ts }
    else w
  | .error (cls, text) =>
    if cls = .undetermined then
      { w with
        server := w.server.lose (opts.key attempt) start (mark attempt start)
        phase := .unknown attempt value }
    else { w with phase := opts.failed attempt (txnError text cls) }

/-- The outcome of an attempt whose token is fenced. -/
def fenced : Attempt α :=
  .retry (.notApplied "the commit's outcome was unknown and its token is absent")

/-- What the resolving transaction finds at the token. -/
def readStep (attempt : ℕ) (value : α) (start : Timestamp) : World α :=
  let cell := w.server.cells (opts.key attempt)
  { w with
    server := w.server.setCell (opts.key attempt) (cell.readAt start)
    phase :=
      match cell.get start with
      | some found =>
        opts.after attempt
          (if isFence found.value then fenced else .committed value start true)
      | none => .fencing attempt value start }

/-- The commit of a fence. -/
def fenceStep (attempt : ℕ) (value : α) (start : Timestamp) :
    Except (Class × String) Timestamp → World α
  | .ok ts =>
    if (w.server.cells (opts.key attempt)).admits start ts then
      { w with
        server := w.server.apply (opts.key attempt) ts (fence start)
        phase := opts.after attempt fenced }
    else w
  | .error (cls, _) =>
    if cls = .undetermined then
      { w with
        server := w.server.lose (opts.key attempt) start (fence start)
        phase := .unknown attempt value }
    else { w with phase := .unknown attempt value }

/-- The oracle's answer to a transaction that begins, and what follows when the timestamp
is above all that the oracle gave out. -/
def beginStep (start : Timestamp) (phase : Phase α) : World α :=
  if w.server.clock < start then
    { w with server := { w.server with clock := start }, phase := phase }
  else w

/-- One answer of the environment. An answer that the runner does not wait for, or that
the oracle or the store cannot give, changes nothing. -/
def next (e : Event α) : World α :=
  match w.phase, e with
  | _, .land key i ts => { w with server := w.server.land key i ts }
  | .starting _, .deadline => { w with phase := .returned (.error .deadline) }
  | .starting attempt, .fault f =>
    { w with
      phase :=
        match f with
        | .refuse | .loseAck =>
          opts.after attempt (.retry (.notApplied "fault: refused before begin"))
        | .conflict => opts.after attempt (.retry .conflict)
        | .delay => .starting attempt }
  | .starting attempt, .begun (.error (cls, text)) =>
    { w with phase := opts.failed attempt (txnError text cls) }
  | .starting attempt, .begun (.ok start) => beginStep w start (.running attempt start)
  | .running _ _, .deadline => { w with phase := .returned (.error .deadline) }
  | .running attempt _, .body (.error e) => { w with phase := opts.failed attempt e }
  | .running attempt start, .body (.ok value) =>
    { w with
      phase := .produced attempt start value
      produced := Function.update w.produced attempt (some value) }
  | .produced attempt start value, .fault f =>
    { w with
      phase := preCommitFault opts attempt value (.produced attempt start value) "prewrite" f }
  | .produced attempt _ _, .put (.error e) => { w with phase := opts.after attempt (.fail e) }
  | .produced attempt start value, .put (.ok ()) =>
    { w with phase := .committing attempt start value }
  | .committing attempt start value, .fault f =>
    { w with
      phase := preCommitFault opts attempt value (.committing attempt start value) "commit" f }
  | .committing _ _ _, .deadline => { w with phase := .returned (.error .deadline) }
  | .committing attempt start value, .dropped =>
    { w with
      server := w.server.lose (opts.key attempt) start (mark attempt start)
      phase := .unknown attempt value }
  | .committing attempt start value, .commit answer =>
    commitStep opts w attempt start value answer
  | .acked attempt value ts, .fault f =>
    { w with
      phase :=
        match f with
        | .delay => .acked attempt value ts
        | _ => .unknown attempt value }
  | .acked attempt value ts, .noFault =>
    { w with phase := opts.after attempt (.committed value ts false) }
  | .unknown attempt _, .giveUp =>
    { w with phase := .returned (.error (.undetermined (some (opts.tokens attempt)))) }
  | .unknown attempt value, .begun (.ok start) =>
    beginStep w start (.resolving attempt value start)
  | .resolving attempt value _, .dropped => { w with phase := .unknown attempt value }
  | .resolving attempt value _, .read (.error _) => { w with phase := .unknown attempt value }
  | .resolving attempt value start, .read (.ok ()) => readStep opts w attempt value start
  | .fencing attempt value _, .put (.error _) => { w with phase := .unknown attempt value }
  | .fencing attempt value start, .dropped =>
    { w with
      server := w.server.lose (opts.key attempt) start (fence start)
      phase := .unknown attempt value }
  | .fencing attempt value start, .commit answer => fenceStep opts w attempt value start answer
  | _, _ => w

/-- The world after the events. -/
def run (events : List (Event α)) : World α := events.foldl (next opts) {}

end Runner

end Loams.Tikv
