/-
# The acceptor's data
-/

import Loams.Control.Program
import Loams.Data.Codec
import Loams.Data.Text

namespace Loams.Safekeeper

open List Loams.Data Loams.Control

/-- A proposer term. -/
abbrev Term := ℕ

/-- A node id, as the proposer sees it. -/
abbrev NodeId := ℕ

/-- A WAL position. -/
abbrev Lsn := ℕ

/-- Upper-case hexadecimal. -/
def upperHex (n : ℕ) : String := String.ofList ((Nat.toDigits 16 n).map Char.toUpper)

/-- A position as messages print it. -/
def Lsn.display (lsn : Lsn) : String :=
  upperHex (lsn / 2 ^ 32) ++ "/" ++ upperHex (lsn % 2 ^ 32)

/-! ## Ids -/

/-- A tenant or timeline id. -/
structure Id where
  bytes : Bytes
  length_eq : bytes.length = 16
  deriving DecidableEq

/-- The id of zeros. -/
def Id.zero : Id := ⟨List.replicate 16 0, rfl⟩

/-- The lower-case digit of a number below 16. -/
def hexDigit (n : ℕ) : Char := Char.ofNat (if n < 10 then 48 + n else 87 + n)

/-- The value of a digit, in either case. -/
def hexValue (c : UInt8) : Option ℕ :=
  let n := c.toNat
  if 65 ≤ n ∧ n ≤ 70 then some (n - 65 + 10)
  else if 97 ≤ n ∧ n ≤ 102 then some (n - 97 + 10)
  else if 48 ≤ n ∧ n ≤ 57 then some (n - 48)
  else none

/-- Two digits for each byte. -/
def hexEncode (bytes : Bytes) : String :=
  String.ofList (bytes.flatMap fun b => [hexDigit (b.toNat / 16), hexDigit (b.toNat % 16)])

/-- Two digits a byte, and nothing left over. -/
def hexDecode : Bytes → Option Bytes
  | [] => some []
  | [_] => none
  | hi :: lo :: rest => do
    let hi ← hexValue hi
    let lo ← hexValue lo
    let rest ← hexDecode rest
    some (UInt8.ofNat (16 * hi + lo) :: rest)

/-- The id in hexadecimal. -/
def Id.display (id : Id) : String := hexEncode id.bytes

/-- A timeline: a tenant's id and the timeline's own. -/
structure TimelineId where
  tenant : Id
  timeline : Id
  deriving DecidableEq

/-! ## Errors -/

/-- What a safekeeper can fail with. -/
inductive Error
  /-- A malformed or out-of-order message. -/
  | protocol (message : String)
  /-- The timeline does not exist. -/
  | notFound (timeline : TimelineId)
  /-- The requested WAL was trimmed. -/
  | trimmed (start trimmed : Lsn)
  /-- The store failed; the operation may be retried. -/
  | store (message : String)
  /-- A connection failed. -/
  | io (message : String)
  deriving DecidableEq

/-- A position, unless it overflows. -/
def Lsn.checkedAdd (lsn : Lsn) (n : ℕ) : Except Error Lsn :=
  if lsn + n < 2 ^ 64 then .ok (lsn + n)
  else .error (.protocol s!"LSN overflow: {Lsn.display lsn} + {n}")

/-- Sixteen bytes in hexadecimal. -/
def Id.parse (s : String) : Except Error Id :=
  match hexDecode (utf8 s) with
  | some bytes =>
    if h : bytes.length = 16 then .ok ⟨bytes, h⟩
    else .error (.protocol s!"invalid id {debugStr s}: want 32 hex digits")
  | none => .error (.protocol s!"invalid id {debugStr s}: want 32 hex digits")

theorem utf8EncodeChar_hexDigit {n : ℕ} (h : n < 16) :
    ∃ c, String.utf8EncodeChar (hexDigit n) = [c] ∧ hexValue c = some n ∧ c ≠ 0 := by
  interval_cases n <;> exact ⟨_, rfl, by decide, by decide⟩

theorem hexDecode_utf8_hexEncode (bytes : Bytes) :
    hexDecode (utf8 (hexEncode bytes)) = some bytes := by
  rw [hexEncode, utf8_ofList]
  induction bytes with
  | nil => rfl
  | cons b bytes ih =>
    have hlt := b.toNat_lt
    obtain ⟨hi, hhi, hhival, -⟩ := utf8EncodeChar_hexDigit (show b.toNat / 16 < 16 by omega)
    obtain ⟨lo, hlo, hloval, -⟩ := utf8EncodeChar_hexDigit (show b.toNat % 16 < 16 by omega)
    have hbyte : UInt8.ofNat (16 * (b.toNat / 16) + b.toNat % 16) = b := by
      rw [Nat.div_add_mod, UInt8.ofNat_toNat]
    simp only [flatMap_cons, cons_append, nil_append, hhi, hlo]
    simp only [hexDecode, hhival, hloval, Option.bind_eq_bind, Option.bind_some, ih, hbyte]

/-- The digits of an id are none of them zero bytes. -/
theorem zero_notMem_utf8_hexEncode (bytes : Bytes) : 0 ∉ utf8 (hexEncode bytes) := by
  rw [hexEncode, utf8_ofList]
  induction bytes with
  | nil => simp
  | cons b bytes ih =>
    have hlt := b.toNat_lt
    obtain ⟨hi, hhi, -, hhizero⟩ := utf8EncodeChar_hexDigit (show b.toNat / 16 < 16 by omega)
    obtain ⟨lo, hlo, -, hlozero⟩ := utf8EncodeChar_hexDigit (show b.toNat % 16 < 16 by omega)
    simp only [flatMap_cons, cons_append, nil_append, hhi, hlo]
    simp only [mem_cons, not_or]
    exact ⟨Ne.symm hhizero, Ne.symm hlozero, ih⟩

/-- An id is read back from its digits. -/
theorem Id.parse_display (id : Id) : Id.parse id.display = .ok id := by
  rw [Id.parse, Id.display, hexDecode_utf8_hexEncode]
  dsimp only
  rw [dif_pos id.length_eq]

/-! ## Term histories -/

/-- The start of a term in the WAL. -/
structure TermLsn where
  term : Term
  lsn : Lsn
  deriving DecidableEq

/-- The entry as text. -/
def TermLsn.debug (e : TermLsn) : String :=
  s!"TermLsn \x7b term: {e.term}, lsn: {Lsn.display e.lsn} \x7d"

/-- The term switches of a WAL, ascending. -/
abbrev TermHistory := List TermLsn

namespace TermHistory

/-- The entries that start at or below a position. -/
def upTo (history : TermHistory) (lsn : Lsn) : TermHistory :=
  history.takeWhile fun e => e.lsn ≤ lsn

/-- The loop over two histories: how many entries they share. -/
def commonLength : TermHistory → TermHistory → Except Error ℕ
  | p :: prop, s :: sk =>
    if p.term ≠ s.term then .ok 0
    else if p.lsn ≠ s.lsn then
      .error (.protocol (s!"term {p.term} starts at {Lsn.display p.lsn} for the proposer and at " ++
        s!"{Lsn.display s.lsn} for the acceptor"))
    else do
      let n ← commonLength prop sk
      .ok (n + 1)
  | _, _ => .ok 0

/-- The point after the last of the common entries of two histories. -/
def pointOf (prop sk : TermHistory) (skWalEnd : Lsn) : ℕ → Option TermLsn
  | 0 => none
  | i + 1 =>
    match prop[i]? with
    | none => none -- `i` counts entries of `prop`, so this is never taken
    | some common =>
      let lsn :=
        match prop[i + 1]? with
        | none => skWalEnd
        | some next => min next.lsn ((sk[i + 1]?.map TermLsn.lsn).getD skWalEnd)
      some ⟨common.term, lsn⟩

/-- The point where the proposer's and the acceptor's histories diverge. -/
def findHighestCommonPoint (prop sk : TermHistory) (skWalEnd : Lsn) :
    Except Error (Option TermLsn) := do
  match sk.getLast? with
  | some last =>
    require (last.lsn ≤ skWalEnd) (.protocol
      (s!"acceptor term history ends at {TermLsn.debug last}, above its WAL end " ++
        Lsn.display skWalEnd))
  | none => pure ()
  let n ← commonLength prop sk
  .ok (pointOf prop sk skWalEnd n)

end TermHistory

/-! ## Configuration, server and feedback -/

/-- A member of a safekeeper configuration. -/
structure SafekeeperId where
  id : NodeId
  host : String
  pgPort : ℕ
  deriving DecidableEq

/-- The membership configuration. -/
structure Configuration where
  generation : ℕ := 0
  members : List SafekeeperId := []
  newMembers : Option (List SafekeeperId) := none
  deriving DecidableEq

/-- Whether the node is in either member set. -/
def Configuration.contains (mconf : Configuration) (node : NodeId) : Bool :=
  mconf.members.any (·.id == node) ||
    mconf.newMembers.any fun members => members.any (·.id == node)

/-- The database server a timeline belongs to; zero is unknown. -/
structure ServerInfo where
  pgVersion : ℕ := 0
  systemId : ℕ := 0
  walSegSize : ℕ := 0
  deriving DecidableEq

/-- The major version, if it is known. -/
def ServerInfo.pgMajor (server : ServerInfo) : Option ℕ :=
  if server.pgVersion ≠ 0 then some (server.pgVersion / 10000) else none

/-- Feedback of a hot standby, relayed to the proposer. -/
structure HotStandbyFeedback where
  ts : ℤ := 0
  xmin : ℕ := 0
  catalogXmin : ℕ := 0
  deriving DecidableEq

/-- The pageserver's progress. -/
structure PageserverFeedback where
  currentTimelineSize : ℕ := 0
  lastReceivedLsn : Lsn := 0
  diskConsistentLsn : Lsn := 0
  remoteConsistentLsn : Lsn := 0
  /-- Microseconds since the epoch of the database. -/
  replytimeUs : ℤ := 0
  shardNumber : ℕ := 0
  corruptionDetected : Bool := false
  deriving DecidableEq

/-! ## The durable state -/

/-- What an acceptor keeps of one timeline besides the WAL itself. -/
structure AcceptorState where
  /-- The highest term voted for. -/
  term : Term := 0
  /-- The term switches of the stored WAL. It may run past the WAL's end: the
  proposer's history is adopted before its WAL arrives. -/
  termHistory : TermHistory := []
  mconf : Configuration := {}
  server : ServerInfo := {}
  /-- End of the durable WAL. -/
  flushLsn : Lsn := 0
  /-- The highest position known committed. -/
  commitLsn : Lsn := 0
  /-- The lowest position the proposer may still need. -/
  peerHorizonLsn : Lsn := 0
  /-- End of the WAL copied to the bucket. -/
  backupLsn : Lsn := 0
  remoteConsistentLsn : Lsn := 0
  /-- Where the timeline's WAL begins. -/
  timelineStartLsn : Lsn := 0
  /-- Where this acceptor's WAL begins. -/
  localStartLsn : Lsn := 0
  /-- The lowest position still held. -/
  trimmedLsn : Lsn := 0
  deriving DecidableEq

namespace AcceptorState

/-- A fresh timeline. -/
def new (server : ServerInfo) (startLsn : Lsn) : AcceptorState where
  server := server
  timelineStartLsn := startLsn
  localStartLsn := startLsn
  flushLsn := startLsn
  commitLsn := startLsn
  peerHorizonLsn := startLsn
  backupLsn := startLsn
  remoteConsistentLsn := startLsn
  trimmedLsn := startLsn

/-- The WAL end, never below the timeline start. -/
def walEnd (st : AcceptorState) : Lsn := max st.flushLsn st.timelineStartLsn

/-- The term switches of the WAL actually stored. -/
def storedTermHistory (st : AcceptorState) : TermHistory := st.termHistory.upTo st.walEnd

end AcceptorState

end Loams.Safekeeper
