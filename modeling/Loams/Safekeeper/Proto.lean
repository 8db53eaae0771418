/-
# The wire protocol
-/

import Loams.Data.Reader
import Loams.Safekeeper.Types

namespace Loams.Safekeeper

open Loams.Data Loams.Control Reader

/-! ## Messages -/

/-- The most WAL one append request carries. -/
def maxSendSize : ℕ := 8192 * 16

/-- Who greets, and for which timeline. -/
structure ProposerGreeting where
  tenantId : Id
  timelineId : Id
  mconf : Configuration
  pgVersion : ℕ
  systemId : ℕ
  walSegSize : ℕ
  deriving DecidableEq

/-- A proposer asks for a vote. -/
structure VoteRequest where
  generation : ℕ
  term : Term
  deriving DecidableEq

/-- A proposer has won its term. -/
structure ProposerElected where
  generation : ℕ
  term : Term
  startStreamingAt : Lsn
  termHistory : TermHistory
  deriving DecidableEq

/-- What precedes the WAL of an append. -/
structure AppendRequestHeader where
  generation : ℕ
  term : Term
  beginLsn : Lsn
  endLsn : Lsn
  /-- The proposer's quorum commit position. -/
  commitLsn : Lsn
  /-- The lowest position the proposer may still need. -/
  truncateLsn : Lsn
  deriving DecidableEq

/-- The header, then the WAL; empty WAL is a heartbeat. -/
structure AppendRequest where
  h : AppendRequestHeader
  wal : Bytes
  deriving DecidableEq

/-- Messages from a proposer. -/
inductive ProposerMessage
  | greeting (m : ProposerGreeting)
  | voteRequest (m : VoteRequest)
  | elected (m : ProposerElected)
  | append (m : AppendRequest)
  deriving DecidableEq

/-- Who answers, and its term. -/
structure AcceptorGreeting where
  nodeId : NodeId
  mconf : Configuration
  term : Term
  deriving DecidableEq

/-- The vote and what the acceptor has. -/
structure VoteResponse where
  generation : ℕ
  term : Term
  voteGiven : Bool
  flushLsn : Lsn
  truncateLsn : Lsn
  termHistory : TermHistory
  deriving DecidableEq

/-- How far the acceptor has come. -/
structure AppendResponse where
  generation : ℕ
  term : Term
  flushLsn : Lsn
  commitLsn : Lsn
  hsFeedback : HotStandbyFeedback
  pageserverFeedback : Option PageserverFeedback
  deriving DecidableEq

/-- Messages from an acceptor. -/
inductive AcceptorMessage
  | greeting (m : AcceptorGreeting)
  | voteResponse (m : VoteResponse)
  | appendResponse (m : AppendResponse)
  deriving DecidableEq

/-! ## Reading -/

variable (what : String)

/-- The payload ends too early. -/
def short : Error := .protocol s!"message truncated while reading {what}"

/-- One byte. -/
def getU8 : Reader Error ℕ := unsigned 1 (short what)
/-- Two bytes. -/
def getU16 : Reader Error ℕ := unsigned 2 (short what)
/-- Four bytes. -/
def getU32 : Reader Error ℕ := unsigned 4 (short what)
/-- Eight bytes. -/
def getU64 : Reader Error ℕ := unsigned 8 (short what)
/-- Four bytes with a sign. -/
def getI32 : Reader Error ℤ := signed 4 (short what)
/-- Eight bytes with a sign. -/
def getI64 : Reader Error ℤ := signed 8 (short what)
/-- A position. -/
def getLsn : Reader Error Lsn := getU64 what

/-- Text up to a NUL. -/
def getCstr : Reader Error String := do
  let bytes ← terminated (.protocol s!"missing NUL after {what}")
  match ofUtf8? bytes with
  | some text => pure text
  | none => Program.fail (.protocol s!"{what} is not UTF-8")

/-- One member of a list. -/
def getMember : Reader Error SafekeeperId := do
  let id ← getU64 "member node_id"
  let host ← getCstr "member host"
  let pgPort ← getU16 "member port"
  pure ⟨id, host, pgPort⟩

/-- A count and so many members. -/
def getMembers : Reader Error (List SafekeeperId) :=
  counted (getU32 what) getMember

/-- Only generation 0 has no members. -/
def getMconf : Reader Error Configuration := do
  let generation ← getU32 "generation"
  let members ← getMembers "members"
  require (generation = 0 ∨ members ≠ [])
    (Error.protocol s!"generation {generation} with an empty member set")
  let newMembers ← getMembers "new_members"
  -- An empty list of new members stands for none.
  pure ⟨generation, members, if newMembers = [] then none else some newMembers⟩

/-- A term and where it starts. -/
def getTermLsn : Reader Error TermLsn := do
  let term ← getU64 "term history term"
  let lsn ← getLsn "term history lsn"
  pure ⟨term, lsn⟩

/-- A count and so many entries. -/
def getTermHistory : Reader Error TermHistory :=
  counted (getU32 "term history length") getTermLsn

/-- An id in hexadecimal. -/
def getId : Reader Error Id := do
  let text ← getCstr what
  Id.parse text

/-- Nothing is left. -/
def expectEnd : Reader Error Unit := do
  let buf ← Program.read
  require (buf = []) (Error.protocol s!"{buf.length} trailing bytes after {what}")

/-- A byte as a quoted character: the printable ones of the first 256 stand for
themselves. -/
def debugTag (tag : ℕ) : String :=
  let c := Char.ofNat tag
  let text :=
    if c = '\'' then "\\'"
    else if c = '\\' then "\\\\"
    else if c = '\n' then "\\n"
    else if c = '\r' then "\\r"
    else if c = '\t' then "\\t"
    else if c = '\x00' then "\\0"
    else if tag < 32 ∨ (127 ≤ tag ∧ tag ≤ 160) ∨ tag = 173 then
      "\\u\x7b" ++ String.ofList (Nat.toDigits 16 tag) ++ "\x7d"
    else c.toString
  "'" ++ text ++ "'"

/-- The tags are the letters `g`, `v`, `e` and `a`. -/
def tagGreeting : ℕ := 103
/-- The letter `v`. -/
def tagVote : ℕ := 118
/-- The letter `e`. -/
def tagElected : ℕ := 101
/-- The letter `a`. -/
def tagAppend : ℕ := 97

/-- Reads a greeting. -/
def getProposerGreeting : Reader Error ProposerGreeting := do
  let tenantId ← getId "tenant_id"
  let timelineId ← getId "timeline_id"
  let mconf ← getMconf
  let pgVersion ← getU32 "pg_version"
  let systemId ← getU64 "system_id"
  let walSegSize ← getU32 "wal_seg_size"
  pure ⟨tenantId, timelineId, mconf, pgVersion, systemId, walSegSize⟩

/-- Reads a vote request. -/
def getVoteRequest : Reader Error VoteRequest := do
  let generation ← getU32 "generation"
  let term ← getU64 "term"
  pure ⟨generation, term⟩

/-- Reads an election. -/
def getElected : Reader Error ProposerElected := do
  let generation ← getU32 "generation"
  let term ← getU64 "term"
  let startStreamingAt ← getLsn "start_streaming_at"
  let termHistory ← getTermHistory
  pure ⟨generation, term, startStreamingAt, termHistory⟩

/-- Reads the header of an append. -/
def getAppendHeader : Reader Error AppendRequestHeader := do
  let generation ← getU32 "generation"
  let term ← getU64 "term"
  let beginLsn ← getLsn "begin_lsn"
  let endLsn ← getLsn "end_lsn"
  let commitLsn ← getLsn "commit_lsn"
  let truncateLsn ← getLsn "truncate_lsn"
  pure ⟨generation, term, beginLsn, endLsn, commitLsn, truncateLsn⟩

/-- The WAL has the length that the header says. -/
def getAppend : Reader Error AppendRequest := do
  let h ← getAppendHeader
  require (h.beginLsn ≤ h.endLsn) (Error.protocol
    s!"AppendRequest begin_lsn {Lsn.display h.beginLsn} > end_lsn {Lsn.display h.endLsn}")
  let len := h.endLsn - h.beginLsn
  require (len ≤ maxSendSize) (Error.protocol s!"AppendRequest of {len} bytes > MAX_SEND_SIZE")
  let wal ← Reader.take len fun left =>
    .protocol s!"AppendRequest carries {left} WAL bytes, header says {len}"
  pure ⟨h, wal⟩

/-- Decodes one payload from a proposer. -/
def ProposerMessage.parse : Reader Error ProposerMessage := do
  let tag ← getU8 "tag"
  if tag = tagGreeting then
    let m ← getProposerGreeting
    pure (.greeting m)
  else if tag = tagVote then
    let m ← getVoteRequest
    pure (.voteRequest m)
  else if tag = tagElected then
    let m ← getElected
    pure (.elected m)
  else if tag = tagAppend then
    let m ← getAppend
    pure (.append m)
  else Program.fail (.protocol s!"unknown proposer message tag {debugTag tag}")

/-! ## Writing -/

/-- Text and a NUL. -/
def putCstr (s : String) : Bytes := utf8 s ++ [0]

/-- One member of a list. -/
def putMember (m : SafekeeperId) : Bytes := beBytes 8 m.id ++ (putCstr m.host ++ beBytes 2 m.pgPort)

/-- The count is cut to four bytes. -/
def putMembers (members : List SafekeeperId) : Bytes :=
  beBytes 4 (members.length % 2 ^ 32) ++ members.flatMap putMember

/-- No new members are an empty list. -/
def putMconf (mconf : Configuration) : Bytes :=
  beBytes 4 mconf.generation ++ (putMembers mconf.members ++ putMembers (mconf.newMembers.getD []))

/-- A term and where it starts. -/
def putTermLsn (e : TermLsn) : Bytes := beBytes 8 e.term ++ beBytes 8 e.lsn

/-- The count is cut to four bytes. -/
def putTermHistory (history : TermHistory) : Bytes :=
  beBytes 4 (history.length % 2 ^ 32) ++ history.flatMap putTermLsn

/-- Writes a greeting. -/
def putProposerGreeting (m : ProposerGreeting) : Bytes :=
  putCstr m.tenantId.display ++ (putCstr m.timelineId.display ++ (putMconf m.mconf ++
    (beBytes 4 m.pgVersion ++ (beBytes 8 m.systemId ++ beBytes 4 m.walSegSize))))

/-- Writes a vote request. -/
def putVoteRequest (m : VoteRequest) : Bytes := beBytes 4 m.generation ++ beBytes 8 m.term

/-- Writes an election. -/
def putElected (m : ProposerElected) : Bytes :=
  beBytes 4 m.generation ++ (beBytes 8 m.term ++
    (beBytes 8 m.startStreamingAt ++ putTermHistory m.termHistory))

/-- Writes the header of an append. -/
def putAppendHeader (h : AppendRequestHeader) : Bytes :=
  beBytes 4 h.generation ++ (beBytes 8 h.term ++ (beBytes 8 h.beginLsn ++ (beBytes 8 h.endLsn ++
    (beBytes 8 h.commitLsn ++ beBytes 8 h.truncateLsn))))

/-- The header, then the WAL. -/
def putAppend (m : AppendRequest) : Bytes := putAppendHeader m.h ++ m.wal

/-- Encodes as a proposer does. -/
def ProposerMessage.serialize : ProposerMessage → Bytes
  | .greeting m => beBytes 1 tagGreeting ++ putProposerGreeting m
  | .voteRequest m => beBytes 1 tagVote ++ putVoteRequest m
  | .elected m => beBytes 1 tagElected ++ putElected m
  | .append m => beBytes 1 tagAppend ++ putAppend m

/-! ## Pageserver feedback -/

namespace PageserverFeedback

/-- One key, the length of its value, and the value. -/
def putKey (key : String) (value : Bytes) : Bytes :=
  putCstr key ++ (beBytes 4 (toUnsigned 32 value.length) ++ value)

/-- The keys that are written, in order. -/
def fields (fb : PageserverFeedback) : List (String × Bytes) :=
  [("current_timeline_size", beBytes 8 fb.currentTimelineSize),
    ("ps_writelsn", beBytes 8 fb.lastReceivedLsn),
    ("ps_flushlsn", beBytes 8 fb.diskConsistentLsn),
    ("ps_applylsn", beBytes 8 fb.remoteConsistentLsn),
    ("ps_replytime", beBytes 8 (toUnsigned 64 fb.replytimeUs))] ++
  (if 0 < fb.shardNumber then [("shard_number", beBytes 4 fb.shardNumber)] else []) ++
  (if fb.corruptionDetected then [("corruption_detected", beBytes 1 1)] else [])

/-- The number of keys, then each of them. -/
def serialize (fb : PageserverFeedback) : Bytes :=
  beBytes 1 fb.fields.length ++ fb.fields.flatMap fun field => putKey field.1 field.2

/-- What one key sets; a key that is unknown, or whose value has another length than
it should, is skipped. -/
def set (fb : PageserverFeedback) (key : String) (v : Bytes) : PageserverFeedback :=
  let n := ofBeBytes v
  match key, v.length with
  | "current_timeline_size", 8 => { fb with currentTimelineSize := n }
  | "ps_writelsn", 8 => { fb with lastReceivedLsn := n }
  | "ps_flushlsn", 8 => { fb with diskConsistentLsn := n }
  | "ps_applylsn", 8 => { fb with remoteConsistentLsn := n }
  | "ps_replytime", 8 => { fb with replytimeUs := ofUnsigned 64 n }
  | "shard_number", 4 => { fb with shardNumber := n }
  | "corruption_detected", 1 => { fb with corruptionDetected := n != 0 }
  | _, _ => fb

/-- One key with its value. -/
def getKey : Reader Error (String × Bytes) := do
  let key ← getCstr "feedback key"
  let len ← getI32 "feedback value length"
  require (0 ≤ len) (Error.protocol s!"negative length for {key}")
  let v ← Reader.take len.toNat fun _ => short key
  pure (key, v)

/-- Decodes the keys and sets them one after the other. -/
def parse : Reader Error PageserverFeedback := do
  let n ← getU8 "feedback key count"
  foldTimes (fun fb field => fb.set field.1 field.2) n getKey {}

end PageserverFeedback

/-! ## Acceptor messages -/

/-- Writes a greeting. -/
def putAcceptorGreeting (m : AcceptorGreeting) : Bytes :=
  beBytes 8 m.nodeId ++ (putMconf m.mconf ++ beBytes 8 m.term)

/-- Writes a vote. -/
def putVoteResponse (m : VoteResponse) : Bytes :=
  beBytes 4 m.generation ++ (beBytes 8 m.term ++ (beBytes 1 m.voteGiven.toNat ++
    (beBytes 8 m.flushLsn ++ (beBytes 8 m.truncateLsn ++ putTermHistory m.termHistory))))

/-- Writes the feedback of a standby. -/
def putHsFeedback (fb : HotStandbyFeedback) : Bytes :=
  beBytes 8 (toUnsigned 64 fb.ts) ++ (beBytes 8 fb.xmin ++ beBytes 8 fb.catalogXmin)

/-- The feedback is written only if there is some. -/
def putAppendResponse (m : AppendResponse) : Bytes :=
  beBytes 4 m.generation ++ (beBytes 8 m.term ++ (beBytes 8 m.flushLsn ++ (beBytes 8 m.commitLsn ++
    (putHsFeedback m.hsFeedback ++
      (m.pageserverFeedback.map PageserverFeedback.serialize).getD []))))

/-- Encodes one payload for a proposer. -/
def AcceptorMessage.serialize : AcceptorMessage → Bytes
  | .greeting m => beBytes 1 tagGreeting ++ putAcceptorGreeting m
  | .voteResponse m => beBytes 1 tagVote ++ putVoteResponse m
  | .appendResponse m => beBytes 1 tagAppend ++ putAppendResponse m

/-- Reads a greeting. -/
def getAcceptorGreeting : Reader Error AcceptorGreeting := do
  let nodeId ← getU64 "node_id"
  let mconf ← getMconf
  let term ← getU64 "term"
  pure ⟨nodeId, mconf, term⟩

/-- Reads a vote. -/
def getVoteResponse : Reader Error VoteResponse := do
  let generation ← getU32 "generation"
  let term ← getU64 "term"
  let voteGiven ← getU8 "vote_given"
  let flushLsn ← getLsn "flush_lsn"
  let truncateLsn ← getLsn "truncate_lsn"
  let termHistory ← getTermHistory
  pure ⟨generation, term, voteGiven != 0, flushLsn, truncateLsn, termHistory⟩

/-- Reads the feedback of a standby. -/
def getHsFeedback : Reader Error HotStandbyFeedback := do
  let ts ← getI64 "hs ts"
  let xmin ← getU64 "hs xmin"
  let catalogXmin ← getU64 "hs catalog_xmin"
  pure ⟨ts, xmin, catalogXmin⟩

/-- The feedback is what is left of the payload, if anything is; the reader of it gets
all of it and what it does not read is dropped. -/
def getPageserverFeedback : Reader Error (Option PageserverFeedback) := do
  let buf ← Program.read
  if buf = [] then pure none
  else
    Program.update fun _ => []
    let fb ← (PageserverFeedback.parse.exec buf).1
    pure (some fb)

/-- Reads a response, with feedback if there is some. -/
def getAppendResponse : Reader Error AppendResponse := do
  let generation ← getU32 "generation"
  let term ← getU64 "term"
  let flushLsn ← getLsn "flush_lsn"
  let commitLsn ← getLsn "commit_lsn"
  let hsFeedback ← getHsFeedback
  let pageserverFeedback ← getPageserverFeedback
  pure ⟨generation, term, flushLsn, commitLsn, hsFeedback, pageserverFeedback⟩

/-- The message behind a tag. -/
def getAcceptorMessage (tag : ℕ) : Reader Error AcceptorMessage :=
  if tag = tagGreeting then do
    let m ← getAcceptorGreeting
    pure (.greeting m)
  else if tag = tagVote then do
    let m ← getVoteResponse
    pure (.voteResponse m)
  else if tag = tagAppend then do
    let m ← getAppendResponse
    pure (.appendResponse m)
  else Program.fail (.protocol s!"unknown acceptor message tag {debugTag tag}")

/-- Decodes as a proposer does. -/
def AcceptorMessage.parse : Reader Error AcceptorMessage := do
  let tag ← getU8 "tag"
  let msg ← getAcceptorMessage tag
  expectEnd "acceptor message"
  pure msg

end Loams.Safekeeper
