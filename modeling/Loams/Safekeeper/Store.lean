/-
# The rules of an acceptor's store
-/

import Loams.Safekeeper.Proto

namespace Loams.Safekeeper

open Loams.Data Loams.Control

/-- The proposer's term is older than the stored one. -/
structure Deposed where
  current : Term
  deriving DecidableEq

/-- A contiguous run of WAL from one proposer term, in chunks. -/
structure AppendBatch where
  term : Term
  beginLsn : Lsn
  wal : List Bytes
  /-- The proposer's commit position, or zero. -/
  commitLsn : Lsn
  truncateLsn : Lsn
  deriving DecidableEq

namespace AppendBatch

/-- The WAL bytes carried, over all chunks. -/
def len (batch : AppendBatch) : ℕ := (batch.wal.map List.length).sum

/-- No WAL at all. -/
def isEmpty (batch : AppendBatch) : Bool := batch.wal.all List.isEmpty

/-- Where the batch ends. -/
def endLsn (batch : AppendBatch) : Except Error Lsn := Lsn.checkedAdd batch.beginLsn batch.len

end AppendBatch

/-- The bytes of a batch that are still to be written: from where on, and how many
leading bytes are stored already. -/
structure AppendPlan where
  writeFrom : Lsn
  skip : ℕ
  deriving DecidableEq

/-! ## Votes -/

variable (st : AcceptorState)

/-- Grants a vote if the term is higher. -/
def applyVote (term : Term) : Bool × AcceptorState :=
  if st.term < term then (true, { st with term := term }) else (false, st)

/-! ## Elections -/

/-- The entries as text. -/
def TermHistory.debug (history : TermHistory) : String :=
  "[" ++ String.intercalate ", " (history.map TermLsn.debug) ++ "]"

/-- The text of an election at another point than the common one. -/
def truncationPointText (msg : ProposerElected) (lcp : TermLsn) : String :=
  s!"ProposerElected: truncation point {Lsn.display msg.startStreamingAt} differs from the " ++
  s!"common point {TermLsn.debug lcp} (acceptor history " ++
  s!"TermHistory({TermHistory.debug st.storedTermHistory}), WAL end {Lsn.display st.walEnd}); " ++
  "the proposer reconnects"

/-- The head after an election, whose checks passed. -/
def electedHead (msg : ProposerElected) : AcceptorState :=
  let start := (msg.termHistory.head?.map TermLsn.lsn).getD 0
  let timelineStartLsn := if st.timelineStartLsn = 0 then start else st.timelineStartLsn
  -- The first WAL this acceptor will hold.
  let localStartLsn :=
    if st.flushLsn = 0 ∧ st.localStartLsn = 0 then msg.startStreamingAt else st.localStartLsn
  let trimmedLsn := if st.flushLsn = 0 ∧ st.trimmedLsn = 0 then localStartLsn else st.trimmedLsn
  { st with
    term := msg.term
    timelineStartLsn := timelineStartLsn
    peerHorizonLsn := if st.peerHorizonLsn = 0 then timelineStartLsn else st.peerHorizonLsn
    localStartLsn := localStartLsn
    trimmedLsn := trimmedLsn
    commitLsn := max st.commitLsn timelineStartLsn
    backupLsn := max st.backupLsn timelineStartLsn
    remoteConsistentLsn := max st.remoteConsistentLsn timelineStartLsn
    flushLsn := msg.startStreamingAt
    termHistory := msg.termHistory }

/-- Where an elected proposer's history and the stored one part; the start of the
proposer's when they share nothing. -/
def commonPoint (msg : ProposerElected) : Except Error TermLsn := do
  match ← TermHistory.findHighestCommonPoint msg.termHistory st.storedTermHistory st.walEnd with
  | some p => .ok p
  | none =>
    match msg.termHistory.head? with
    | some first => .ok first
    | none => .error (.protocol "ProposerElected with an empty term history")

/-- Adopts the elected proposer's history; the head comes with the position to truncate
the stored WAL at. -/
def applyElected (msg : ProposerElected) : Except Error (Except Deposed (AcceptorState × Lsn)) :=
  if msg.term < st.term then .ok (.error ⟨st.term⟩)
  else do
    let lcp ← commonPoint st msg
    require (lcp.lsn = msg.startStreamingAt) (.protocol (truncationPointText st msg lcp))
    require (st.commitLsn ≤ msg.startStreamingAt) (.protocol
      (s!"ProposerElected would truncate committed WAL: start " ++
        s!"{Lsn.display msg.startStreamingAt} < commit {Lsn.display st.commitLsn}"))
    .ok (.ok (electedHead st msg, msg.startStreamingAt))

/-! ## Appends -/

/-- Which bytes of a batch that ends at `stop` are still to be written. -/
def appendPlan (batch : AppendBatch) (stop : Lsn) : Except Error AppendPlan :=
  if batch.isEmpty ∨ stop ≤ st.flushLsn then .ok ⟨stop, batch.len⟩
  else if batch.beginLsn < st.flushLsn then .ok ⟨st.flushLsn, st.flushLsn - batch.beginLsn⟩
  else if st.flushLsn < batch.beginLsn ∧ st.flushLsn ≠ 0 then
    .error (.protocol (s!"AppendRequest at {Lsn.display batch.beginLsn} leaves a gap after " ++
      s!"the WAL end {Lsn.display st.flushLsn}"))
  else .ok ⟨batch.beginLsn, 0⟩

/-- The head after a batch that ends at `stop`. -/
def appendedHead (batch : AppendBatch) (stop : Lsn) : AcceptorState :=
  let flushLsn := max st.flushLsn stop
  let commitLsn :=
    if batch.commitLsn ≠ 0 then
      max st.commitLsn (min batch.commitLsn (max flushLsn st.timelineStartLsn))
    else st.commitLsn
  { st with
    flushLsn := flushLsn
    commitLsn := commitLsn
    peerHorizonLsn := max st.peerHorizonLsn batch.truncateLsn }

/-- What an append does to the state, and what to write. -/
def applyAppend (batch : AppendBatch) :
    Except Error (Except Deposed (AcceptorState × AppendPlan)) :=
  if batch.term < st.term then .ok (.error ⟨st.term⟩)
  else if st.term < batch.term then
    .error (.protocol (s!"AppendRequest of term {batch.term} before ProposerElected " ++
      s!"(acceptor term {st.term})"))
  else do
    let stop ← batch.endLsn
    let plan ← appendPlan st batch stop
    .ok (.ok (appendedHead st batch stop, plan))

/-- The bytes of a batch from the plan's skip on, as chunks. -/
def remainingChunks : List Bytes → ℕ → List Bytes
  | [], _ => []
  | c :: wal, skip =>
    if c.length ≤ skip then remainingChunks wal (skip - c.length)
    else c.drop skip :: remainingChunks wal 0

/-! ## Commit positions and trims -/

/-- The commit position moves up to what is flushed. -/
def applyCommitLsn (term : Term) (commitLsn : Lsn) : Except Error (Except Deposed AcceptorState) :=
  if term < st.term then .ok (.error ⟨st.term⟩)
  else if st.term < term then
    .error (.protocol s!"commit_lsn of term {term} above the stored term {st.term}")
  else .ok (.ok { st with commitLsn := max st.commitLsn (min commitLsn st.walEnd) })

/-- Never above what the bucket copy, the pageserver and the commit point have passed. -/
def trimBound (want : Lsn) : Lsn :=
  max (min (min (min (min want st.backupLsn) st.remoteConsistentLsn) st.commitLsn) st.walEnd)
    st.trimmedLsn

/-- What a greeting taught: the server and, if any, a membership configuration. -/
structure MetaUpdate where
  server : ServerInfo
  mconf : Option Configuration
  deriving DecidableEq

/-- Every store writes what it is given. -/
def updateMeta (update : MetaUpdate) : AcceptorState :=
  { st with server := update.server, mconf := update.mconf.getD st.mconf }

end Loams.Safekeeper
