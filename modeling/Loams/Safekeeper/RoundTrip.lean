/-
# Reading back what was written
-/

import Loams.Safekeeper.Proto

namespace Loams.Safekeeper

open List Loams.Data Loams.Control Reader Program ProposerMessage

/-! ## Fields -/

section Fields

variable {what : String} {n : ℕ} {z : ℤ}

theorem reads_getU8 (h : n < 2 ^ 8) : Reads (getU8 what) (beBytes 1 n) n :=
  reads_unsigned (h.trans_eq (by norm_num))

theorem reads_getU16 (h : n < 2 ^ 16) : Reads (getU16 what) (beBytes 2 n) n :=
  reads_unsigned (h.trans_eq (by norm_num))

theorem reads_getU32 (h : n < 2 ^ 32) : Reads (getU32 what) (beBytes 4 n) n :=
  reads_unsigned (h.trans_eq (by norm_num))

theorem reads_getU64 (h : n < 2 ^ 64) : Reads (getU64 what) (beBytes 8 n) n :=
  reads_unsigned (h.trans_eq (by norm_num))

theorem reads_getLsn (h : n < 2 ^ 64) : Reads (getLsn what) (beBytes 8 n) n := reads_getU64 h

theorem reads_getI32 (hlo : -2 ^ 31 ≤ z) (hhi : z < 2 ^ 31) :
    Reads (getI32 what) (beBytes 4 (toUnsigned 32 z)) z :=
  reads_signed (by decide) hlo hhi

theorem reads_getI64 (hlo : -2 ^ 63 ≤ z) (hhi : z < 2 ^ 63) :
    Reads (getI64 what) (beBytes 8 (toUnsigned 64 z)) z :=
  reads_signed (by decide) hlo hhi

theorem reads_getCstr {s : String} (h : 0 ∉ utf8 s) : Reads (getCstr what) (putCstr s) s := by
  intro rest
  have hbytes : Reads (terminated (Error.protocol s!"missing NUL after {what}")) (utf8 s ++ [0])
      (utf8 s) := reads_terminated h
  rw [getCstr, putCstr, hbytes.exec_bind, ofUtf8?_utf8]
  rfl

theorem reads_getId (id : Id) : Reads (getId what) (putCstr id.display) id := by
  intro rest
  have htext : Reads (getCstr what) (putCstr id.display) id.display :=
    reads_getCstr (zero_notMem_utf8_hexEncode id.bytes)
  rw [getId, htext.exec_bind, Id.parse_display, exec_liftM]

end Fields

/-! ## Lists -/

/-- A member that its fields can hold; a host name cannot hold the byte that ends it. -/
structure SafekeeperId.Fits (m : SafekeeperId) : Prop where
  id : m.id < 2 ^ 64
  host : 0 ∉ utf8 m.host
  pgPort : m.pgPort < 2 ^ 16

/-- A switch that its fields can hold. -/
structure TermLsn.Fits (e : TermLsn) : Prop where
  term : e.term < 2 ^ 64
  lsn : e.lsn < 2 ^ 64

section Lists

theorem ok_of_exec_pure {α : Type} {a b : α} {buf rest : Bytes}
    (h : (pure a : Reader Error α).exec buf = (.ok b, rest)) : a = b :=
  Except.ok.inj (congrArg Prod.fst h)

variable {what : String} {members members' : List SafekeeperId} {history history' : TermHistory}
  {rest rest' : Bytes}

theorem reads_getMember {m : SafekeeperId} (h : m.Fits) : Reads getMember (putMember m) m :=
  (reads_getU64 h.id).bind ((reads_getCstr h.host).bind (reads_getU16 h.pgPort).answer)

theorem reads_getTermLsn {e : TermLsn} (h : e.Fits) : Reads getTermLsn (putTermLsn e) e :=
  (reads_getU64 h.term).bind (reads_getLsn h.lsn).answer

/-- The count as it is read: what is left of the length. -/
theorem reads_count (n : ℕ) : Reads (getU32 what) (beBytes 4 (n % 2 ^ 32)) (n % 2 ^ 32) :=
  reads_getU32 (Nat.mod_lt _ (by positivity))

theorem reads_count_of_lt {n : ℕ} (h : n < 2 ^ 32) :
    Reads (getU32 what) (beBytes 4 (n % 2 ^ 32)) n := by
  have hcount : Reads (getU32 what) _ _ := reads_count n
  rwa [Nat.mod_eq_of_lt h] at hcount ⊢

theorem reads_getMembers (hfits : ∀ m ∈ members, m.Fits) (hlen : members.length < 2 ^ 32) :
    Reads (getMembers what) (putMembers members) members :=
  reads_counted (reads_count_of_lt hlen) fun m hm => reads_getMember (hfits m hm)

theorem reads_getTermHistory (hfits : ∀ e ∈ history, e.Fits) (hlen : history.length < 2 ^ 32) :
    Reads getTermHistory (putTermHistory history) history :=
  reads_counted (reads_count_of_lt hlen) fun e he => reads_getTermLsn (hfits e he)

theorem length_of_getMembers
    (h : (getMembers what).exec (putMembers members ++ rest) = (.ok members', rest')) :
    members'.length = members.length % 2 ^ 32 := by
  rw [putMembers, append_assoc] at h
  exact length_of_counted (reads_count members.length) h

theorem lt_of_eq_mod {n : ℕ} (h : n = n % 2 ^ 32) : n < 2 ^ 32 := by
  have hlt : n % 2 ^ 32 < 2 ^ 32 := Nat.mod_lt _ (by positivity)
  omega

/-- A message that ends in a history and is read back has one that can be counted. -/
theorem counted_of_answer {α : Type} {f : TermHistory → α} {g : α → TermHistory} {m : α}
    (hg : ∀ l, g (f l) = l)
    (h : (getTermHistory >>= fun l => pure (f l)).exec (putTermHistory (g m)) = (.ok m, rest)) :
    (g m).length < 2 ^ 32 := by
  obtain ⟨l, rest₁, hl, h⟩ := exec_bind_ok.mp h
  obtain rfl := ok_of_exec_pure h
  rw [hg] at hl ⊢
  rw [← append_nil (putTermHistory _), putTermHistory, append_assoc] at hl
  exact lt_of_eq_mod (length_of_counted (reads_count _) hl)

end Lists

/-! ## Configurations -/

namespace Configuration

variable {mconf : Configuration} {rest rest' : Bytes}

/-- A configuration as a reader accepts it: a numbered generation has members, and
new members are absent or there are some. -/
structure WellFormed (mconf : Configuration) : Prop where
  generation : mconf.generation < 2 ^ 32
  members : ∀ m ∈ mconf.members, m.Fits
  newMembers : ∀ m ∈ mconf.newMembers.getD [], m.Fits
  numbered : mconf.generation ≠ 0 → mconf.members ≠ []
  proposed : mconf.newMembers ≠ some []

/-- The lengths of both lists fit their counts. -/
def Counted (mconf : Configuration) : Prop :=
  mconf.members.length < 2 ^ 32 ∧ (mconf.newMembers.getD []).length < 2 ^ 32

/-- Leaving out an empty list of new members changes nothing that was written. -/
theorem WellFormed.newMembers_eq (h : mconf.WellFormed) :
    (if mconf.newMembers.getD [] = [] then none else some (mconf.newMembers.getD [])) =
      mconf.newMembers := by
  have hproposed := h.proposed
  cases hnew : mconf.newMembers with
  | none => rfl
  | some l =>
    rw [hnew] at hproposed
    have hne : l ≠ [] := fun heq => hproposed (heq ▸ rfl)
    rw [Option.getD_some, if_neg hne]

theorem reads_getMconf (h : mconf.WellFormed) (hcount : mconf.Counted) :
    Reads getMconf (putMconf mconf) mconf := by
  refine (reads_getU32 h.generation).bind ((reads_getMembers h.members hcount.1).bind
    (reads_require (or_iff_not_imp_left.mpr h.numbered) ?_))
  intro rest
  rw [(reads_getMembers h.newMembers hcount.2).exec_bind, h.newMembers_eq]
  rfl

/-- A configuration that is read back as it was has lists that can be counted. -/
theorem counted_of_getMconf (h : mconf.WellFormed)
    (hread : getMconf.exec (putMconf mconf ++ rest) = (.ok mconf, rest')) : mconf.Counted := by
  rw [getMconf, putMconf, append_assoc, (reads_getU32 h.generation).exec_bind] at hread
  obtain ⟨members, rest₁, hmembers, hread⟩ := exec_bind_ok.mp hread
  obtain ⟨-, -, hread⟩ := exec_check_bind_ok.mp hread
  obtain ⟨newMembers, rest₂, hnew, hread⟩ := exec_bind_ok.mp hread
  have heq := ok_of_exec_pure hread
  have hfirst : mconf.members.length < 2 ^ 32 := by
    rw [append_assoc] at hmembers
    have hlen := length_of_getMembers hmembers
    rw [show members = mconf.members from congrArg Configuration.members heq] at hlen
    exact lt_of_eq_mod hlen
  refine ⟨hfirst, ?_⟩
  -- The members took exactly their bytes, so the new members were read from their own.
  rw [append_assoc, reads_getMembers h.members hfirst] at hmembers
  obtain ⟨-, rfl⟩ := Prod.mk.inj hmembers
  have hlen := length_of_getMembers hnew
  have hnewEq : mconf.newMembers.getD [] = newMembers := by
    rw [← congrArg Configuration.newMembers heq]
    split_ifs with hempty
    · exact hempty.symm
    · rfl
  rw [← hnewEq] at hlen
  exact lt_of_eq_mod hlen

end Configuration

/-! ## Messages of a proposer -/

/-- The fields fit their widths. -/
structure ProposerGreeting.WellFormed (m : ProposerGreeting) : Prop where
  mconf : m.mconf.WellFormed
  pgVersion : m.pgVersion < 2 ^ 32
  systemId : m.systemId < 2 ^ 64
  walSegSize : m.walSegSize < 2 ^ 32

/-- The fields fit their widths. -/
structure VoteRequest.WellFormed (m : VoteRequest) : Prop where
  generation : m.generation < 2 ^ 32
  term : m.term < 2 ^ 64

/-- The fields fit their widths. -/
structure ProposerElected.WellFormed (m : ProposerElected) : Prop where
  generation : m.generation < 2 ^ 32
  term : m.term < 2 ^ 64
  startStreamingAt : m.startStreamingAt < 2 ^ 64
  termHistory : ∀ e ∈ m.termHistory, e.Fits

/-- The fields fit their widths. -/
structure AppendRequestHeader.WellFormed (h : AppendRequestHeader) : Prop where
  generation : h.generation < 2 ^ 32
  term : h.term < 2 ^ 64
  beginLsn : h.beginLsn < 2 ^ 64
  endLsn : h.endLsn < 2 ^ 64
  commitLsn : h.commitLsn < 2 ^ 64
  truncateLsn : h.truncateLsn < 2 ^ 64

/-- The payload is what the header announces, and not too long. -/
structure AppendRequest.WellFormed (m : AppendRequest) : Prop where
  h : m.h.WellFormed
  ends : m.h.beginLsn ≤ m.h.endLsn
  length_wal : m.wal.length = m.h.endLsn - m.h.beginLsn
  bounded : m.wal.length ≤ maxSendSize

/-- The fields are in the range of their types, and the message has the shape its
reader asks for. -/
def ProposerMessage.WellFormed : ProposerMessage → Prop
  | .greeting m => m.WellFormed
  | .voteRequest m => m.WellFormed
  | .elected m => m.WellFormed
  | .append m => m.WellFormed

/-- The lengths of the lists of a message fit their counts. -/
def ProposerMessage.Counted : ProposerMessage → Prop
  | .greeting m => m.mconf.Counted
  | .elected m => m.termHistory.length < 2 ^ 32
  | _ => True

theorem reads_getProposerGreeting {m : ProposerGreeting} (h : m.WellFormed)
    (hcount : m.mconf.Counted) : Reads getProposerGreeting (putProposerGreeting m) m :=
  (reads_getId m.tenantId).bind <| (reads_getId m.timelineId).bind <|
    (Configuration.reads_getMconf h.mconf hcount).bind <| (reads_getU32 h.pgVersion).bind <|
    (reads_getU64 h.systemId).bind (reads_getU32 h.walSegSize).answer

theorem reads_getVoteRequest {m : VoteRequest} (h : m.WellFormed) :
    Reads getVoteRequest (putVoteRequest m) m :=
  (reads_getU32 h.generation).bind (reads_getU64 h.term).answer

theorem reads_getElected {m : ProposerElected} (h : m.WellFormed)
    (hcount : m.termHistory.length < 2 ^ 32) : Reads getElected (putElected m) m :=
  (reads_getU32 h.generation).bind <| (reads_getU64 h.term).bind <|
    (reads_getLsn h.startStreamingAt).bind (reads_getTermHistory h.termHistory hcount).answer

theorem reads_getAppendHeader {h : AppendRequestHeader} (hwf : h.WellFormed) :
    Reads getAppendHeader (putAppendHeader h) h :=
  (reads_getU32 hwf.generation).bind <| (reads_getU64 hwf.term).bind <|
    (reads_getLsn hwf.beginLsn).bind <| (reads_getLsn hwf.endLsn).bind <|
    (reads_getLsn hwf.commitLsn).bind (reads_getLsn hwf.truncateLsn).answer

theorem reads_getAppend {m : AppendRequest} (h : m.WellFormed) :
    Reads getAppend (putAppend m) m := by
  refine (reads_getAppendHeader h.h).bind (reads_require h.ends (reads_require ?_ ?_))
  · rw [← h.length_wal]
    exact h.bounded
  · exact (reads_take h.length_wal).answer

/-- A greeting that is read back as it was has lists that can be counted. -/
theorem counted_of_getProposerGreeting {m : ProposerGreeting} {rest : Bytes} (h : m.WellFormed)
    (hread : getProposerGreeting.exec (putProposerGreeting m) = (.ok m, rest)) :
    m.mconf.Counted := by
  rw [getProposerGreeting, putProposerGreeting, (reads_getId m.tenantId).exec_bind,
    (reads_getId m.timelineId).exec_bind] at hread
  obtain ⟨mconf, rest₁, hmconf, hread⟩ := exec_bind_ok.mp hread
  obtain ⟨pgVersion, rest₂, -, hread⟩ := exec_bind_ok.mp hread
  obtain ⟨systemId, rest₃, -, hread⟩ := exec_bind_ok.mp hread
  obtain ⟨walSegSize, rest₄, -, hread⟩ := exec_bind_ok.mp hread
  obtain rfl : mconf = m.mconf := congrArg ProposerGreeting.mconf (ok_of_exec_pure hread)
  exact Configuration.counted_of_getMconf h.mconf hmconf

theorem counted_of_getElected {m : ProposerElected} {rest : Bytes} (h : m.WellFormed)
    (hread : getElected.exec (putElected m) = (.ok m, rest)) : m.termHistory.length < 2 ^ 32 := by
  rw [getElected, putElected, (reads_getU32 h.generation).exec_bind,
    (reads_getU64 h.term).exec_bind, (reads_getLsn h.startStreamingAt).exec_bind] at hread
  exact counted_of_answer (g := ProposerElected.termHistory) (fun _ => rfl) hread

/-! ## Pageserver feedback -/

namespace PageserverFeedback

/-- The fields fit their widths. -/
structure Fits (fb : PageserverFeedback) : Prop where
  currentTimelineSize : fb.currentTimelineSize < 2 ^ 64
  lastReceivedLsn : fb.lastReceivedLsn < 2 ^ 64
  diskConsistentLsn : fb.diskConsistentLsn < 2 ^ 64
  remoteConsistentLsn : fb.remoteConsistentLsn < 2 ^ 64
  le_replytimeUs : -2 ^ 63 ≤ fb.replytimeUs
  replytimeUs_lt : fb.replytimeUs < 2 ^ 63
  shardNumber : fb.shardNumber < 2 ^ 32

variable {fb : PageserverFeedback} {field : String × Bytes}

theorem reads_getKey (hkey : 0 ∉ utf8 field.1) (hlen : field.2.length < 2 ^ 31) :
    Reads getKey (putKey field.1 field.2) field := by
  have hsize : Reads (getI32 "feedback value length") _ (field.2.length : ℤ) :=
    reads_getI32 (by omega) (by exact_mod_cast hlen)
  refine (reads_getCstr hkey).bind (hsize.bind (reads_require (by omega) ?_))
  exact (reads_take (by omega)).answer

/-- The keys and the values that are written can be read one by one. -/
theorem reads_fields (h : field ∈ fb.fields) : Reads getKey (putKey field.1 field.2) field := by
  have hkeys : ∀ field ∈ fb.fields, 0 ∉ utf8 field.1 ∧ field.2.length < 2 ^ 31 := by
    unfold fields
    split_ifs <;> simp <;> decide
  exact reads_getKey (hkeys field h).1 (hkeys field h).2

/-- Setting the keys that were written gives back the feedback: what was left out has
its default. -/
theorem foldl_set_fields (h : fb.Fits) :
    fb.fields.foldl (fun fb field => fb.set field.1 field.2) {} = fb := by
  obtain ⟨size, received, disk, remote, replytime, shard, corruption⟩ := fb
  have hword : ∀ n, n < 2 ^ 64 → ofBeBytes (beBytes 8 n) = n := fun n hn =>
    ofBeBytes_beBytes (hn.trans_eq (by norm_num))
  have hshard : ofBeBytes (beBytes 4 shard) = shard :=
    ofBeBytes_beBytes (h.shardNumber.trans_eq (by norm_num))
  have hflag : ofBeBytes (beBytes 1 1) = 1 := ofBeBytes_beBytes (by norm_num)
  have htime : ofUnsigned 64 (ofBeBytes (beBytes 8 (toUnsigned 64 replytime))) = replytime := by
    rw [hword _ (toUnsigned_lt 64 replytime)]
    exact ofUnsigned_toUnsigned (by decide) h.le_replytimeUs h.replytimeUs_lt
  have hsize := hword size h.currentTimelineSize
  have hreceived := hword received h.lastReceivedLsn
  have hdisk := hword disk h.diskConsistentLsn
  have hremote := hword remote h.remoteConsistentLsn
  unfold fields
  -- The two keys that may be left out: a shard number of zero and a flag that is not set.
  rcases Nat.eq_zero_or_pos shard with rfl | hpos <;> cases corruption <;>
    simp [set, *]

theorem length_fields_lt (fb : PageserverFeedback) : fb.fields.length < 2 ^ 8 := by
  unfold fields
  split_ifs <;> simp

theorem reads_parse (h : fb.Fits) : Reads parse fb.serialize fb := by
  have hread : Reads parse fb.serialize
      (fb.fields.foldl (fun fb field => fb.set field.1 field.2) {}) :=
    (reads_getU8 fb.length_fields_lt).bind
      (reads_foldTimes fb.fields fun field hfield => reads_fields hfield)
  rwa [foldl_set_fields h] at hread

end PageserverFeedback

/-! ## Messages of an acceptor -/

/-- The fields fit their widths. -/
structure AcceptorGreeting.WellFormed (m : AcceptorGreeting) : Prop where
  nodeId : m.nodeId < 2 ^ 64
  mconf : m.mconf.WellFormed
  term : m.term < 2 ^ 64

/-- The fields fit their widths. -/
structure VoteResponse.WellFormed (m : VoteResponse) : Prop where
  generation : m.generation < 2 ^ 32
  term : m.term < 2 ^ 64
  flushLsn : m.flushLsn < 2 ^ 64
  truncateLsn : m.truncateLsn < 2 ^ 64
  termHistory : ∀ e ∈ m.termHistory, e.Fits

/-- The fields fit their widths. -/
structure HotStandbyFeedback.Fits (fb : HotStandbyFeedback) : Prop where
  le_ts : -2 ^ 63 ≤ fb.ts
  ts_lt : fb.ts < 2 ^ 63
  xmin : fb.xmin < 2 ^ 64
  catalogXmin : fb.catalogXmin < 2 ^ 64

/-- The fields fit their widths. -/
structure AppendResponse.WellFormed (m : AppendResponse) : Prop where
  generation : m.generation < 2 ^ 32
  term : m.term < 2 ^ 64
  flushLsn : m.flushLsn < 2 ^ 64
  commitLsn : m.commitLsn < 2 ^ 64
  hsFeedback : m.hsFeedback.Fits
  pageserverFeedback : ∀ fb ∈ m.pageserverFeedback, fb.Fits

/-- The fields are in the range of their types, and the message has the shape its
reader asks for. -/
def AcceptorMessage.WellFormed : AcceptorMessage → Prop
  | .greeting m => m.WellFormed
  | .voteResponse m => m.WellFormed
  | .appendResponse m => m.WellFormed

/-- The lengths of the lists of a message fit their counts. -/
def AcceptorMessage.Counted : AcceptorMessage → Prop
  | .greeting m => m.mconf.Counted
  | .voteResponse m => m.termHistory.length < 2 ^ 32
  | .appendResponse _ => True

theorem reads_getAcceptorGreeting {m : AcceptorGreeting} (h : m.WellFormed)
    (hcount : m.mconf.Counted) : Reads getAcceptorGreeting (putAcceptorGreeting m) m :=
  (reads_getU64 h.nodeId).bind <| (Configuration.reads_getMconf h.mconf hcount).bind
    (reads_getU64 h.term).answer

theorem reads_getVoteResponse {m : VoteResponse} (h : m.WellFormed)
    (hcount : m.termHistory.length < 2 ^ 32) : Reads getVoteResponse (putVoteResponse m) m := by
  have hgiven : (m.voteGiven.toNat != 0) = m.voteGiven := by cases m.voteGiven <;> rfl
  have hread : Reads getVoteResponse (putVoteResponse m)
      { m with voteGiven := m.voteGiven.toNat != 0 } :=
    (reads_getU32 h.generation).bind <| (reads_getU64 h.term).bind <|
      (reads_getU8 (m.voteGiven.toNat_lt.trans (by decide))).bind <|
      (reads_getLsn h.flushLsn).bind <| (reads_getLsn h.truncateLsn).bind
      (reads_getTermHistory h.termHistory hcount).answer
  rwa [hgiven] at hread

theorem reads_getHsFeedback {fb : HotStandbyFeedback} (h : fb.Fits) :
    Reads getHsFeedback (putHsFeedback fb) fb :=
  (reads_getI64 h.le_ts h.ts_lt).bind <| (reads_getU64 h.xmin).bind
    (reads_getU64 h.catalogXmin).answer

/-- The feedback is read to the end of the payload, so nothing may follow it. -/
theorem getPageserverFeedback_exec {feedback : Option PageserverFeedback}
    (h : ∀ fb ∈ feedback, fb.Fits) :
    getPageserverFeedback.exec ((feedback.map PageserverFeedback.serialize).getD []) =
      (.ok feedback, []) := by
  cases feedback with
  | none => rfl
  | some fb =>
    have hne : fb.serialize ≠ [] := by
      rw [PageserverFeedback.serialize, beBytes]
      exact cons_ne_nil _ _
    have hread := (PageserverFeedback.reads_parse (h fb rfl)).exec_eq
    rw [Option.map_some, Option.getD_some, getPageserverFeedback, exec_read_bind,
      if_neg hne, hread]
    rfl

theorem getAppendResponse_exec {m : AppendResponse} (h : m.WellFormed) :
    getAppendResponse.exec (putAppendResponse m) = (.ok m, []) := by
  rw [getAppendResponse, putAppendResponse, (reads_getU32 h.generation).exec_bind,
    (reads_getU64 h.term).exec_bind, (reads_getLsn h.flushLsn).exec_bind,
    (reads_getLsn h.commitLsn).exec_bind, (reads_getHsFeedback h.hsFeedback).exec_bind,
    exec_bind_of_ok (getPageserverFeedback_exec h.pageserverFeedback)]
  rfl

theorem counted_of_getAcceptorGreeting {m : AcceptorGreeting} {rest : Bytes} (h : m.WellFormed)
    (hread : getAcceptorGreeting.exec (putAcceptorGreeting m) = (.ok m, rest)) :
    m.mconf.Counted := by
  rw [getAcceptorGreeting, putAcceptorGreeting, (reads_getU64 h.nodeId).exec_bind] at hread
  obtain ⟨mconf, rest₁, hmconf, hread⟩ := exec_bind_ok.mp hread
  obtain ⟨term, rest₂, -, hread⟩ := exec_bind_ok.mp hread
  obtain rfl : mconf = m.mconf := congrArg AcceptorGreeting.mconf (ok_of_exec_pure hread)
  exact Configuration.counted_of_getMconf h.mconf hmconf

theorem counted_of_getVoteResponse {m : VoteResponse} {rest : Bytes} (h : m.WellFormed)
    (hread : getVoteResponse.exec (putVoteResponse m) = (.ok m, rest)) :
    m.termHistory.length < 2 ^ 32 := by
  have hgiven : m.voteGiven.toNat < 2 ^ 8 := m.voteGiven.toNat_lt.trans (by decide)
  rw [getVoteResponse, putVoteResponse, (reads_getU32 h.generation).exec_bind,
    (reads_getU64 h.term).exec_bind, (reads_getU8 hgiven).exec_bind,
    (reads_getLsn h.flushLsn).exec_bind, (reads_getLsn h.truncateLsn).exec_bind] at hread
  exact counted_of_answer (g := VoteResponse.termHistory) (fun _ => rfl) hread

/-! ## Payloads -/

namespace ProposerMessage

theorem parse_serialize_iff (m : ProposerMessage) (h : m.WellFormed) :
    parse.exec m.serialize = (.ok m, []) ↔ m.Counted := by
  cases m <;> rw [serialize, parse, (reads_getU8 (by decide)).exec_bind]
  case greeting m =>
    rw [if_pos rfl, exec_answer_eq_ok fun _ _ => greeting.inj]
    exact ⟨counted_of_getProposerGreeting h,
      fun hcount => (reads_getProposerGreeting h hcount).exec_eq⟩
  case voteRequest m =>
    rw [if_neg (by decide), if_pos rfl, exec_answer_eq_ok fun _ _ => voteRequest.inj]
    exact iff_of_true (reads_getVoteRequest h).exec_eq trivial
  case elected m =>
    rw [if_neg (by decide), if_neg (by decide), if_pos rfl,
      exec_answer_eq_ok fun _ _ => elected.inj]
    exact ⟨counted_of_getElected h, fun hcount => (reads_getElected h hcount).exec_eq⟩
  case append m =>
    rw [if_neg (by decide), if_neg (by decide), if_neg (by decide), if_pos rfl,
      exec_answer_eq_ok fun _ _ => append.inj]
    exact iff_of_true (reads_getAppend h).exec_eq trivial

end ProposerMessage

namespace AcceptorMessage

/-- A payload is read back when its message is and nothing follows. -/
theorem parse_exec_eq_ok {tag : ℕ} {body : Bytes} {m : AcceptorMessage} (htag : tag < 2 ^ 8) :
    parse.exec (beBytes 1 tag ++ body) = (.ok m, []) ↔
      (getAcceptorMessage tag).exec body = (.ok m, []) := by
  rw [parse, (reads_getU8 htag).exec_bind, exec_bind_ok]
  constructor
  · rintro ⟨m', rest, hm, hend⟩
    rw [expectEnd, exec_bind_ok] at hend
    obtain ⟨_, rest', hend, hpure⟩ := hend
    rw [exec_read_bind, exec_liftM] at hend
    obtain ⟨hempty, rfl⟩ := Prod.mk.inj hend
    obtain rfl := require_eq_ok.mp hempty
    obtain rfl := ok_of_exec_pure hpure
    exact hm
  · intro hm
    exact ⟨m, [], hm, rfl⟩

theorem parse_serialize_iff (m : AcceptorMessage) (h : m.WellFormed) :
    parse.exec m.serialize = (.ok m, []) ↔ m.Counted := by
  cases m <;> rw [serialize, parse_exec_eq_ok (by decide), getAcceptorMessage]
  case greeting m =>
    rw [if_pos rfl, exec_answer_eq_ok fun _ _ => greeting.inj]
    exact ⟨counted_of_getAcceptorGreeting h,
      fun hcount => (reads_getAcceptorGreeting h hcount).exec_eq⟩
  case voteResponse m =>
    rw [if_neg (by decide), if_pos rfl, exec_answer_eq_ok fun _ _ => voteResponse.inj]
    exact ⟨counted_of_getVoteResponse h, fun hcount => (reads_getVoteResponse h hcount).exec_eq⟩
  case appendResponse m =>
    rw [if_neg (by decide), if_neg (by decide), if_pos rfl,
      exec_answer_eq_ok fun _ _ => appendResponse.inj]
    exact iff_of_true (getAppendResponse_exec h) trivial

end AcceptorMessage

/-- A message of either side is read back from its bytes, and all of them are used up,
exactly when its member lists and its term history have fewer than `2 ^ 32` entries. -/
theorem wire_round_trip_iff :
    (∀ m : ProposerMessage, m.WellFormed →
      (ProposerMessage.parse.exec m.serialize = (.ok m, []) ↔ m.Counted)) ∧
    (∀ m : AcceptorMessage, m.WellFormed →
      (AcceptorMessage.parse.exec m.serialize = (.ok m, []) ↔ m.Counted)) :=
  ⟨parse_serialize_iff, AcceptorMessage.parse_serialize_iff⟩

/-- A greeting with a member, a new member and a numbered generation. -/
def sampleGreeting : AcceptorGreeting where
  nodeId := 7
  mconf := ⟨1, [⟨7, "sk-7.local", 5454⟩], some [⟨8, "sk-8.local", 5454⟩]⟩
  term := 3

theorem wire_round_trip_iff_greeting :
    AcceptorMessage.parse.exec (AcceptorMessage.greeting sampleGreeting).serialize =
      (.ok (.greeting sampleGreeting), []) := by
  refine (wire_round_trip_iff.2 (.greeting sampleGreeting) ?_).mpr ?_
  · refine ⟨by decide, ⟨by decide, ?_, ?_, by decide, by decide⟩, by decide⟩
    · simp only [sampleGreeting, mem_singleton, forall_eq]
      exact ⟨by decide, by decide, by decide⟩
    · simp only [sampleGreeting, Option.getD_some, mem_singleton, forall_eq]
      exact ⟨by decide, by decide, by decide⟩
  · exact ⟨by decide, by decide⟩

/-- A history whose length the count cannot hold: with `2 ^ 32` entries the count is
zero, and the reader stops at an empty history with every entry still unread. -/
theorem long_history_not_read_back :
    (ProposerMessage.elected ⟨0, 1, 0, List.replicate (2 ^ 32) ⟨1, 0⟩⟩).WellFormed ∧
    ProposerMessage.parse.exec
        (ProposerMessage.elected ⟨0, 1, 0, List.replicate (2 ^ 32) ⟨1, 0⟩⟩).serialize ≠
      (.ok (.elected ⟨0, 1, 0, List.replicate (2 ^ 32) ⟨1, 0⟩⟩), []) := by
  have hwf : (elected ⟨0, 1, 0, List.replicate (2 ^ 32) ⟨1, 0⟩⟩).WellFormed := by
    refine ⟨by decide, by decide, by decide, fun e he => ?_⟩
    obtain rfl := eq_of_mem_replicate he
    exact ⟨by decide, by decide⟩
  refine ⟨hwf, fun hread => ?_⟩
  have hcounted := (parse_serialize_iff _ hwf).mp hread
  rw [Counted, length_replicate] at hcounted
  exact absurd hcounted (lt_irrefl _)

end Loams.Safekeeper
