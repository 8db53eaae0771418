/-
# The index of a running store
-/

import Loams.Safekeeper.NvmeBatch

namespace Loams.Safekeeper

open Option Loams.Data Loams.Control

variable {cfg : JournalConfig} {id : TimelineId} {next : AcceptorState}

/-! ## The timeline -/

/-- The index of the timeline ends at a position, with records behind what is not
trimmed. -/
structure Tl.Kept (id : TimelineId) (log : List Logged) (wal : Lsn → UInt8) (t : Tl) (stop : Lsn) :
    Prop where
  head : HeadOk t.head
  within : t.Within
  indexed : Indexed id log wal t.head.trimmedLsn t.index stop

namespace Tl.Kept

variable {log log' : List Logged} {wal : Lsn → UInt8} {t : Tl} {stop : Lsn}

theorem settle (h : t.Kept id log wal stop) (durable : ℕ) :
    (t.settle durable).Kept id log wal stop :=
  ⟨h.head, h.within.settle durable, h.indexed⟩

theorem congr_log (h : t.Kept id log wal stop)
    (hlog : ∀ r ∈ log, r.header.tl = id → r.header.kind = .append →
      t.head.trimmedLsn < r.header.endLsn → r ∈ log') : t.Kept id log' wal stop :=
  ⟨h.head, h.within, h.indexed.congr
    (fun r hr hbacks => by
      obtain ⟨e, -, hlow, hbacked⟩ := hbacks
      exact hlog r hr hbacked.tl hbacked.kind (hlow.trans_le hbacked.stop_le))
    fun _ _ => rfl⟩

/-- The positions that are kept lazily move without the WAL. -/
theorem progress (h : t.Kept id log wal stop) (hnext : HeadOk next)
    (hflush : next.flushLsn = t.head.flushLsn) (htrimmed : next.trimmedLsn = t.head.trimmedLsn)
    (lastUnit : ℕ) (hlog : ∀ r ∈ log, r ∈ log') :
    { t with head := next, lastUnit := lastUnit }.Kept id log' wal stop := by
  have hkept := h.congr_log fun r hr _ _ _ => hlog r hr
  refine ⟨hnext, ?_, ?_⟩
  · unfold Tl.Within
    rw [hflush]
    exact h.within
  · rw [htrimmed]
    exact hkept.indexed

end Tl.Kept

/-! ## The lock's holder -/

/-- The head that the lock's holder will take over fits the timeline. -/
def After.Fits (t : Tl) (next : AcceptorState) : After → Prop
  | .vote _ | .updateMeta =>
    HeadOk next ∧ next.flushLsn = t.head.flushLsn ∧ next.trimmedLsn = t.head.trimmedLsn
  | .elected =>
    HeadOk next ∧ t.head.trimmedLsn ≤ next.trimmedLsn ∧
      (next.flushLsn ≤ t.head.flushLsn ∨ t.index = [])
  | .trim bound => t.head.trimmedLsn ≤ bound ∧ bound ≤ t.head.commitLsn
  | .persistProgress => True

/-- What the holder of the lock goes by still holds. -/
def Holder.Fits (t : Tl) : Holder → Prop
  | .none | .flushVote _ => True
  | .flushElected msg => t.head.flushLsn = 0 ∨ msg.startStreamingAt ≤ t.head.flushLsn
  | .truncate next _ =>
    HeadOk next ∧ t.head.trimmedLsn ≤ next.trimmedLsn ∧ next.flushLsn < t.head.flushLsn
  | .put next after | .stored next after => after.Fits t next

/-- Where the index ends: with the written WAL, or where the election that is being
stored cut it. -/
def Holder.indexEnd (head : AcceptorState) : Holder → Lsn
  | .put next .elected | .stored next .elected => next.flushLsn
  | _ => head.flushLsn

namespace Nvme

/-- What the steps between two restarts must meet: the journal works from the first record
of a batch on; a batch without WAL and an election do not move the head above
the written WAL; and an election that cut WAL has its head stored. -/
def KeepsIndex (sys : Nvme) : NvmeStep → Prop
  | .append batch slots =>
    (∀ slot ∈ slots.tail, slot.Works) ∧
      (batch.isEmpty = true → ∀ t ∈ sys.tl,
        t.head.flushLsn = 0 ∨ batch.beginLsn ≤ t.head.flushLsn)
  | .elected msg => ∀ t ∈ sys.tl, t.head.flushLsn = 0 ∨ msg.startStreamingAt ≤ t.head.flushLsn
  | .resume ok _ =>
    ∀ next, sys.holder = .put next .elected ∨ sys.holder = .stored next .elected → ok = true ∨
      ∀ t ∈ sys.tl, t.head.flushLsn ≤ next.flushLsn
  | .restart _ => False
  | _ => True

/-- What every step keeps. -/
structure IndexKept (id : TimelineId) (sys : Nvme) : Prop where
  ok : sys.journal.Ok
  laid : sys.journal.Laid
  creating : ∀ call head, sys.creating call = .put head ∨ sys.creating call = .stored head →
    HeadOk head
  absent : sys.tl = none → sys.trimmed = none ∧ sys.holder = .none
  bound : ∀ t, sys.tl = some t → ∃ bound, sys.trimmed = some bound ∧ bound ≤ t.head.trimmedLsn
  fits : ∀ t, sys.tl = some t → sys.holder.Fits t
  kept : ∀ t, sys.tl = some t →
    t.Kept id sys.journal.log sys.wal (sys.holder.indexEnd t.head)

namespace IndexKept

variable {sys sys' : Nvme} {t t' : Tl}

/-- With a timeline, there is one. -/
theorem of_some (hjournal : sys.journal.Ok ∧ sys.journal.Laid)
    (hcreating : ∀ call head, sys.creating call = .put head ∨ sys.creating call = .stored head →
      HeadOk head) (ht : sys.tl = some t)
    (hbound : ∃ bound, sys.trimmed = some bound ∧ bound ≤ t.head.trimmedLsn)
    (hfits : sys.holder.Fits t)
    (hkept : t.Kept id sys.journal.log sys.wal (sys.holder.indexEnd t.head)) :
    IndexKept id sys := by
  refine ⟨hjournal.1, hjournal.2, hcreating, fun hnone => (nomatch hnone.symm.trans ht),
    fun t' ht' => ?_, fun t' ht' => ?_, fun t' ht' => ?_⟩
  all_goals obtain rfl := some.inj (ht'.symm.trans ht)
  · exact hbound
  · exact hfits
  · exact hkept

/-- A step of the lock's holder, or of a call that needs the lock. -/
theorem of_tl {holder : Holder} (h : IndexKept id sys) (hholder : sys'.holder = holder)
    (ht : sys.tl = some t) (ht' : sys'.tl = some t')
    (hjournal : sys'.journal.Ok ∧ sys'.journal.Laid) (hle : t.head.trimmedLsn ≤ t'.head.trimmedLsn)
    (hfits : holder.Fits t')
    (hkept : t'.Kept id sys'.journal.log sys'.wal (holder.indexEnd t'.head))
    (hcreating : sys'.creating = sys.creating := by rfl)
    (htrimmed : sys'.trimmed = sys.trimmed := by rfl) : IndexKept id sys' := by
  obtain ⟨bound, hbound, hbelow⟩ := h.bound t ht
  exact of_some hjournal (hcreating ▸ h.creating) ht'
    ⟨bound, htrimmed.trans hbound, hbelow.trans hle⟩ (hholder ▸ hfits) (hholder ▸ hkept)

/-- A step of the journal that keeps the records above the bound. -/
theorem of_journal (h : IndexKept id sys) {journal : Journal} (hok : journal.Ok)
    (hlaid : journal.Laid)
    (hlog : ∀ t, sys.tl = some t → ∀ r ∈ sys.journal.log, r.header.tl = id →
      r.header.kind = .append → t.head.trimmedLsn < r.header.endLsn → r ∈ journal.log) :
    IndexKept id { sys with journal := journal } :=
  { h with
    ok := hok
    laid := hlaid
    kept := fun t ht => (h.kept t ht).congr_log (hlog t ht) }

/-! ## Calls that create the timeline -/

section

variable (h : IndexKept id sys)
include h

/-- Only the heads that a call will store or has stored matter. -/
theorem of_creating {creating : ℕ → Creating}
    (hheads : ∀ call head, creating call = .put head ∨ creating call = .stored head → HeadOk head) :
    IndexKept id { sys with creating := creating } :=
  { h with creating := hheads }

theorem heads_update {c : Creating} (call : ℕ)
    (hc : ∀ head, c = .put head ∨ c = .stored head → HeadOk head) :
    ∀ call' head, Function.update sys.creating call c call' = .put head ∨
      Function.update sys.creating call c call' = .stored head → HeadOk head := by
  intro call' head
  rw [Function.update_apply]
  split_ifs
  · exact hc head
  · exact h.creating call' head

theorem createCheck (call : ℕ) (server : ServerInfo) (startLsn : Lsn) :
    IndexKept id (step cfg id sys (.createCheck call server startLsn)) := by
  simp only [step]
  split
  · refine h.of_creating (h.heads_update call fun head hhead => ?_)
    rcases hhead with hhead | hhead
    · obtain rfl := Creating.put.inj hhead
      exact HeadOk.new server startLsn
    · cases hhead
  · exact h

theorem createPut (call : ℕ) (ok : Bool) : IndexKept id (step cfg id sys (.createPut call ok)) := by
  simp only [step]
  split
  · next head hput =>
    split_ifs
    · have hstored := h.of_creating (h.heads_update call (c := .stored head) fun head' hhead => by
        rcases hhead with hhead | hhead
        · cases hhead
        · exact Creating.stored.inj hhead ▸ h.creating call head (.inl hput))
      exact { hstored with }
    · exact h.of_creating (h.heads_update call fun head' hhead => by simp at hhead)
  · exact h

theorem createInsert (call : ℕ) (ok : Bool) :
    IndexKept id (step cfg id sys (.createInsert call ok)) := by
  simp only [step]
  split
  · next head hstored =>
    have hheads := h.heads_update call (c := .idle) fun head' hhead => by simp at hhead
    split_ifs
    swap
    · exact h.of_creating hheads
    cases ht : sys.tl with
    | none =>
      -- The timeline is new: it has no WAL, and nothing else refers to it.
      obtain ⟨htrimmed, hholder⟩ := h.absent ht
      rw [htrimmed, getD_none, getD_none]
      refine of_some ⟨h.ok, h.laid⟩ hheads rfl ⟨_, rfl, le_rfl⟩ ?_
        ⟨h.creating call head (.inr hstored), ⟨le_rfl, by rintro p ⟨⟩⟩, Indexed.nil _⟩
      dsimp only
      rw [hholder]
      trivial
    | some t =>
      obtain ⟨bound, hbound, -⟩ := h.bound t ht
      rw [getD_some, hbound, getD_some, ← ht, ← hbound]
      exact h.of_creating hheads
  · exact h

end

/-! ## Calls that hold the lock -/

section

variable (h : IndexKept id sys)
include h

/-- The call stores a head that does not move the WAL, or will wait for it. -/
theorem of_holder (ht : sys.tl = some t) {holder : Holder} (durable : ℕ) (hfits : holder.Fits t)
    (hend : holder.indexEnd t.head = sys.holder.indexEnd t.head) :
    IndexKept id { sys with tl := some (t.settle durable), holder := holder } := by
  refine h.of_tl rfl ht rfl ⟨h.ok, h.laid⟩ le_rfl hfits ?_
  have hkept := (h.kept t ht).settle durable
  rw [← hend] at hkept
  exact hkept

theorem at_holder {holder : Holder} (ht : sys.tl = some t) (hholder : sys.holder = holder) :
    holder.Fits t ∧ t.Kept id sys.journal.log sys.wal (holder.indexEnd t.head) :=
  hholder ▸ ⟨h.fits t ht, h.kept t ht⟩

theorem kept_of_free (ht : sys.tl = some t) (hholder : sys.holder = .none) :
    t.Kept id sys.journal.log sys.wal t.head.flushLsn :=
  (h.at_holder ht hholder).2

/-- A head of the same WAL is written to the journal. -/
theorem progressStep (ht : sys.tl = some t) (hholder : sys.holder = .none) (inline : Journal.Inline)
    (hnext : HeadOk next) (hflush : next.flushLsn = t.head.flushLsn)
    (htrimmed : next.trimmedLsn = t.head.trimmedLsn) :
    IndexKept id (Nvme.progressStep cfg id inline next sys t) := by
  have hkept := h.kept_of_free ht hholder
  obtain ⟨lastUnit, hmoved, hjournal⟩ : ∃ lastUnit,
      (progress cfg id inline next sys.journal t).2 =
        { t with head := next, lastUnit := lastUnit } ∧
      _ := progress_eq inline next sys.journal t
  unfold Nvme.progressStep
  dsimp only
  rw [hmoved, hjournal]
  refine h.of_tl hholder ht rfl ⟨h.ok.append _ _ _, h.laid.append h.ok _ _ _⟩
    htrimmed.ge trivial ?_
  simp only [Holder.indexEnd]
  rw [hflush]
  exact hkept.progress hnext hflush htrimmed lastUnit fun r hr => Journal.mem_append_log _ _ _ hr

theorem append (hcap : block ≤ cfg.unitCapacity) (ht : sys.tl = some t)
    (hholder : sys.holder = .none) {batch : AppendBatch} {slots : List Slot}
    (hkeeps : KeepsIndex sys (.append batch slots)) :
    IndexKept id (appendStep cfg id batch slots sys t) := by
  have hkept := h.kept_of_free ht hholder
  unfold appendStep
  split_ifs
  · exact h
  · split
    · next ticket journal t' heq =>
      have hindexed := indexed_write hcap hkept.indexed (fun hempty => hkeeps.2 hempty t ht) heq
      obtain ⟨next, plan, happend, hhead⟩ := write_head heq
      have hhead' : HeadOk t'.head := hhead ▸ hkept.head.append happend
      have htrimmed : t'.head.trimmedLsn = t.head.trimmedLsn := by
        obtain ⟨-, -, hnext⟩ := applyAppend_ok happend
        rw [hhead, hnext]
        rfl
      refine h.of_tl hholder ht rfl (write_journal ⟨h.ok, h.laid⟩ heq) htrimmed.ge trivial
        ⟨hhead', within_write hcap hkept.within heq, ?_⟩
      rw [htrimmed]
      exact hindexed
    · next journal t' hnot heq =>
      obtain ⟨hextends, rfl⟩ := write_refused hcap hkeeps.1 heq hnot
      exact h.of_tl hholder ht rfl (write_journal ⟨h.ok, h.laid⟩ heq) le_rfl trivial
        (hkept.congr_log fun r hr _ _ _ => hextends.mem r hr)

section

variable (ht : sys.tl = some t)
include ht

/-- An election after its flush. -/
theorem electStep {msg : ProposerElected} (hholder : sys.holder = .flushElected msg)
    (inline : Journal.Inline) (durable : ℕ) :
    IndexKept id (Nvme.electStep cfg id msg inline sys (t.settle durable)) := by
  obtain ⟨hstart, hkept⟩ : (t.head.flushLsn = 0 ∨ msg.startStreamingAt ≤ t.head.flushLsn) ∧
      t.Kept id sys.journal.log sys.wal t.head.flushLsn := h.at_holder ht hholder
  have hfree : IndexKept id { sys with tl := some (t.settle durable), holder := .none } :=
    h.of_holder ht durable trivial (by rw [hholder]; rfl)
  unfold Nvme.electStep
  split
  · next next stop helected =>
    have hnext : HeadOk next := hkept.head.elected helected
    obtain ⟨-, rfl, rfl, -⟩ := applyElected_ok helected
    have htrimmed : t.head.trimmedLsn ≤ (electedHead t.head msg).trimmedLsn := by
      simp only [electedHead]
      split_ifs <;> lia
    split_ifs with hcuts
    · obtain ⟨journal, hjournal⟩ : ∃ journal, journal = (sys.journal.append cfg inline
          ⟨.truncate, id, msg.term, msg.startStreamingAt, 0, 0, 0⟩ []).2 := ⟨_, rfl⟩
      have hok : journal.Ok ∧ journal.Laid :=
        hjournal ▸ ⟨h.ok.append _ _ _, h.laid.append h.ok _ _ _⟩
      have hlog : t.Kept id journal.log sys.wal t.head.flushLsn := hkept.congr_log fun r hr _ _ _ =>
        hjournal ▸ Journal.mem_append_log _ _ _ hr
      split
      · next heq =>
        rw [heq] at hjournal
        subst hjournal
        exact h.of_tl rfl ht rfl hok le_rfl trivial (hlog.settle durable)
      · next p _ heq =>
        rw [heq] at hjournal
        subst hjournal
        exact h.of_tl rfl ht rfl hok le_rfl ⟨hnext, htrimmed, hcuts⟩
          ⟨hkept.head, hkept.within.settle durable, hlog.indexed⟩
    · -- Nothing is cut: the head goes on from the written WAL, or there is none.
      have hsame : t.head.flushLsn ≤ msg.startStreamingAt := not_lt.mp hcuts
      have hcover :
          Indexed id sys.journal.log sys.wal t.head.trimmedLsn t.index msg.startStreamingAt ∧
          (msg.startStreamingAt ≤ t.head.flushLsn ∨ t.index = []) := by
        rcases hstart with hzero | hle
        · have hindexed := hkept.indexed
          rw [hzero] at hindexed
          rw [hindexed.eq_nil]
          exact ⟨Indexed.nil _, .inr rfl⟩
        · rw [le_antisymm hle hsame]
          exact ⟨hkept.indexed, .inl le_rfl⟩
      exact h.of_tl rfl ht rfl ⟨h.ok, h.laid⟩ le_rfl ⟨hnext, htrimmed, hcover.2⟩
        ⟨hkept.head, hkept.within.settle durable, hcover.1⟩
  · exact hfree

/-- The lock's holder takes over the head it stored. -/
theorem finish {after : After} (hholder : sys.holder = .stored next after) :
    IndexKept id (Nvme.finish next after sys t) := by
  obtain ⟨hfits, hkept⟩ := h.at_holder ht hholder
  cases after with
  | vote term | updateMeta =>
    obtain ⟨hnext, hflush, htrimmed⟩ := hfits
    refine h.of_tl rfl ht rfl ⟨h.ok, h.laid⟩ htrimmed.ge trivial ?_
    have hmoved := hkept.progress hnext hflush htrimmed t.lastUnit fun r hr => hr
    simp only [Holder.indexEnd, ← hflush] at hmoved ⊢
    exact hmoved
  | elected =>
    obtain ⟨hnext, htrimmed, -⟩ := hfits
    refine h.of_tl rfl ht rfl ⟨h.ok, h.laid⟩ htrimmed trivial ?_
    exact ⟨hnext, ⟨le_rfl, by rintro p ⟨⟩⟩, hkept.indexed.mono htrimmed⟩
  | trim bound =>
    obtain ⟨hle, hcommit⟩ := hfits
    exact of_some ⟨h.ok, h.laid⟩ h.creating rfl ⟨bound, rfl, le_rfl⟩ trivial
      ⟨hkept.head.trim hcommit hle, hkept.within, (Tl.indexed_trimIndex hkept.indexed).mono hle⟩
  | persistProgress =>
    refine h.of_tl rfl ht ht ⟨h.ok, h.laid⟩ le_rfl trivial hkept

/-- The store of a head failed, before or after it took effect: the head in memory stays. -/
theorem failed {after : After}
    (hholder : sys.holder = .put next after ∨ sys.holder = .stored next after)
    (hend : after = .elected → t.head.flushLsn ≤ next.flushLsn) :
    IndexKept id { sys with holder := .none } := by
  have hkept := h.kept t ht
  have hindexEnd : sys.holder.indexEnd t.head = (Holder.put next after).indexEnd t.head := by
    rcases hholder with hholder | hholder
    · rw [hholder]
    · rw [hholder]
      cases after <;> rfl
  have hfits : after.Fits t next := by
    rcases hholder with hholder | hholder
    · exact (h.at_holder ht hholder).1
    · exact (h.at_holder ht hholder).1
  rw [hindexEnd] at hkept
  refine h.of_tl rfl ht ht ⟨h.ok, h.laid⟩ le_rfl trivial ⟨hkept.head, hkept.within, ?_⟩
  cases after with
  | elected =>
    -- The head that is not taken over has the end of the written WAL.
    rcases hfits.2.2 with hle | hnil
    · rw [show Holder.indexEnd t.head .none = next.flushLsn from le_antisymm (hend rfl) hle]
      exact hkept.indexed
    · rw [hnil]
      exact Indexed.nil _
  | vote term | updateMeta | trim bound | persistProgress => exact hkept.indexed

/-- The lock's holder goes on from its wait. -/
theorem resume {ok : Bool} {inline : Journal.Inline} (hkeeps : KeepsIndex sys (.resume ok inline)) :
    IndexKept id (Nvme.resume cfg id ok inline sys t) := by
  have hdrop : ∀ {holder : Holder}, sys.holder = holder →
      holder.indexEnd t.head = t.head.flushLsn → IndexKept id { sys with holder := .none } := by
    intro holder hholder hend
    have hkept := (h.at_holder ht hholder).2
    rw [hend] at hkept
    exact h.of_tl rfl ht ht ⟨h.ok, h.laid⟩ le_rfl trivial hkept
  unfold Nvme.resume
  split
  · exact h
  · next term hholder =>
    split
    · exact h
    · exact hdrop hholder rfl
    · refine h.of_holder ht sys.journal.reported.unit ?_ ?_
      · split_ifs with hgranted
        · obtain ⟨-, hvote⟩ := applyVote_granted hgranted
          refine ⟨(h.kept t ht).head.vote term, ?_, ?_⟩
          · rw [hvote]
            rfl
          · rw [hvote]
            rfl
        · trivial
      · rw [hholder]
        split_ifs <;> rfl
  · next msg hholder =>
    split
    · exact h
    · exact hdrop hholder rfl
    · exact h.electStep ht hholder inline _
  · next next unit hholder =>
    split
    · exact h
    · exact hdrop hholder rfl
    · obtain ⟨⟨hnext, htrimmed, hlt⟩, hkept⟩ := h.at_holder ht hholder
      exact h.of_tl rfl ht rfl ⟨h.ok, h.laid⟩ le_rfl ⟨hnext, htrimmed, .inl hlt.le⟩
        ⟨hkept.head, hkept.within, Tl.indexed_truncate hkept.indexed hlt.le⟩
  · next next after hholder =>
    obtain ⟨hfits, hkept⟩ := h.at_holder ht hholder
    split_ifs with hok
    · refine h.of_tl rfl ht ht ⟨h.ok, h.laid⟩ le_rfl hfits ?_
      cases after <;> exact hkept
    · exact h.failed ht (.inl hholder) fun hafter =>
        (hkeeps next (.inl (hafter ▸ hholder))).resolve_left hok t ht
  · next next after hholder =>
    split_ifs with hok
    · exact h.finish ht hholder
    · exact h.failed ht (.inr hholder) fun hafter =>
        (hkeeps next (.inr (hafter ▸ hholder))).resolve_left hok t ht

theorem trimStep (hholder : sys.holder = .none) (lsn : Lsn) :
    IndexKept id (Nvme.trimStep lsn sys t) := by
  have hkept := h.kept_of_free ht hholder
  unfold Nvme.trimStep
  dsimp only
  split_ifs with hbound
  · exact h.of_holder ht sys.journal.reported.unit (h.fits t ht) rfl
  · refine h.of_holder ht sys.journal.reported.unit ⟨(not_le.mp hbound).le, ?_⟩
      (by rw [hholder]; rfl)
    have hle := hkept.head.trimmed_le
    simp only [trimBound, Tl.durableHead, Tl.settle]
    lia

end

end

/-! ## The journal's threads -/

theorem free (h : IndexKept id sys) (lag : Lsn) (others : TimelineId → Option Lsn)
    (retires : ℕ → Bool) : IndexKept id (step cfg id sys (.free lag others retires)) := by
  refine h.of_journal (h.ok.step _) (h.laid.step h.ok _) fun t ht r hr htl hkind hlt => ?_
  refine Journal.mem_log_free h.ok hr hkind fun bound hbound => ?_
  -- The bound that freeing goes by is at most the trimmed position.
  obtain ⟨bound', hbound', hle⟩ := h.bound t ht
  rw [if_pos htl, hbound'] at hbound
  obtain rfl := some.inj hbound
  exact (min_le_right _ _).trans_lt (hle.trans_lt hlt)

theorem journalStep (h : IndexKept id sys) (s : Journal.Step) :
    IndexKept id (step cfg id sys (.journal s)) := by
  simp only [step]
  split_ifs with hforeign
  · exact h.of_journal (h.ok.step _) (h.laid.step h.ok _) fun t ht r hr _ _ _ =>
      (Journal.Extends.of_foreign hforeign).mem r hr
  · exact h

/-! ## Every step -/

/-- A call that needs the lock. -/
theorem locked (h : IndexKept id sys) {f : Tl → Nvme}
    (hf : ∀ t, sys.tl = some t → sys.holder = .none → IndexKept id (f t)) :
    IndexKept id (sys.locked f) := by
  unfold Nvme.locked
  split
  · next hholder ht => exact hf _ ht hholder
  · exact h

/-- Every step that meets its condition keeps the index. -/
theorem step (h : IndexKept id sys) (hcap : block ≤ cfg.unitCapacity) {s : NvmeStep}
    (hkeeps : KeepsIndex sys s) : IndexKept id (Nvme.step cfg id sys s) := by
  cases s with
  | createCheck call server startLsn => exact h.createCheck call server startLsn
  | createPut call ok => exact h.createPut call ok
  | createInsert call ok => exact h.createInsert call ok
  | vote term =>
    refine h.locked fun t ht hholder => ?_
    exact h.of_tl rfl ht ht ⟨h.ok, h.laid⟩ le_rfl trivial (h.kept_of_free ht hholder)
  | elected msg =>
    refine h.locked fun t ht hholder => ?_
    exact h.of_tl rfl ht ht ⟨h.ok, h.laid⟩ le_rfl (hkeeps t ht) (h.kept_of_free ht hholder)
  | updateMeta update =>
    refine h.locked fun t ht hholder => ?_
    have hkept := h.kept_of_free ht hholder
    exact h.of_tl rfl ht ht ⟨h.ok, h.laid⟩ le_rfl ⟨hkept.head.updateMeta update, rfl, rfl⟩ hkept
  | trim lsn => exact h.locked fun t ht hholder => h.trimStep ht hholder lsn
  | persistProgress =>
    exact h.locked fun t ht hholder => h.of_holder ht _ trivial (by rw [hholder]; rfl)
  | resume ok inline =>
    simp only [Nvme.step]
    split
    · next t ht => exact h.resume ht hkeeps
    · exact h
  | append batch slots => exact h.locked fun t ht hholder => h.append hcap ht hholder hkeeps
  | settle =>
    refine h.locked fun t ht hholder => ?_
    have hsettled := h.of_holder ht sys.journal.reported.unit (h.fits t ht) rfl
    exact { hsettled with }
  | recordCommitLsn term lsn inline =>
    refine h.locked fun t ht hholder => ?_
    split
    · next next hcommit =>
      split_ifs
      · obtain ⟨-, hnext⟩ := applyCommitLsn_ok hcommit
        refine h.progressStep ht hholder inline ((h.kept t ht).head.commitLsn hcommit) ?_ ?_ <;>
          rw [hnext]
      · exact h
    · exact h
  | recordBackupLsn lsn inline | recordRemoteConsistentLsn lsn inline =>
    refine h.locked fun t ht hholder => ?_
    dsimp only
    split_ifs
    · exact h.progressStep ht hholder inline { (h.kept t ht).head with } rfl rfl
    · exact h
  | free lag others retires => exact h.free lag others retires
  | journal s => exact h.journalStep s
  | restart intact => exact False.elim hkeeps

end IndexKept

theorem indexKept_initial (cfg : JournalConfig) (id : TimelineId) : IndexKept id (initial cfg) where
  ok := Journal.ok_opened cfg {}
  laid := Journal.laid_opened List.Pairwise.nil
  creating call head h := by simp [initial] at h
  absent _ := ⟨rfl, rfl⟩
  bound t ht := by cases ht
  fits t ht := by cases ht
  kept t ht := by cases ht

theorem indexKept_run (hcap : block ≤ cfg.unitCapacity) {steps : List NvmeStep}
    (h : Along (step cfg id) KeepsIndex (initial cfg) steps) : IndexKept id (run cfg id steps) :=
  foldl_induction (indexKept_initial cfg id) (fun _ _ hkeeps hkept => hkept.step hcap hkeeps) h

/-- In every run whose steps keep the index, a batch that fails leaves the timeline as it
was, and when the lock is free the index covers the WAL from its first position to the
flush position. A read within it returns the bytes last written, as far as they are
durable; that is all of them once no pending write waits for a unit. -/
theorem nvme_index_covers (cfg : JournalConfig) (id : TimelineId) (steps : List NvmeStep)
    (hcap : block ≤ cfg.unitCapacity)
    (hkeeps : Along (step cfg id) KeepsIndex (initial cfg) steps) {t : Tl}
    (ht : (run cfg id steps).tl = some t) :
    let sys := run cfg id steps
    let settled := t.settle sys.journal.reported.unit
    (∀ batch slots e, (∀ slot ∈ slots.tail, slot.Works) →
      (write cfg id slots batch sys.journal t).1 = .error e →
      (write cfg id slots batch sys.journal t).2.2 = t) ∧
    (sys.holder = .none →
      ((∀ p ∈ t.pending, p.1 ≤ sys.journal.reported.unit) →
        settled.durableEnd = t.head.flushLsn) ∧
      ∃ first, Tiles IndexEntry.lsn IndexEntry.stop first t.index t.head.flushLsn ∧
        ∀ start maxBytes, first ≤ start → t.head.trimmedLsn ≤ start →
          ∃ out, settled.read sys.journal start maxBytes = .ok out ∧
            Spells sys.wal start out (max start (min (start + maxBytes) settled.durableEnd))) := by
  intro sys settled
  have hindex : IndexKept id sys := indexKept_run hcap hkeeps
  refine ⟨fun batch slots e hslots herror => ?_, fun hholder => ⟨fun hdurable => ?_, ?_⟩⟩
  · exact (write_refused hcap hslots (Prod.ext herror rfl) nofun).2
  · exact Tl.settle_durableEnd hdurable
  · have hkept := hindex.kept_of_free ht hholder
    obtain ⟨first, hfirst⟩ := hkept.indexed.tiles
    refine ⟨first, hfirst, fun start maxBytes hstart htrimmed => ?_⟩
    have hsettled := hkept.settle sys.journal.reported.unit
    exact Tl.read_spells (t := settled) hindex.ok hindex.laid hsettled.indexed hfirst
      hsettled.within.1 hstart htrimmed htrimmed maxBytes

/-- A timeline is created at a position. -/
def createdAt (lsn : Lsn) : List NvmeStep :=
  [.createCheck 0 {} lsn, .createPut 0 true, .createInsert 0 true]

/-- A batch of one byte more than a record holds. -/
def longBatch : AppendBatch := ⟨0, 100, [List.replicate 4009 1], 0, 0⟩

/-- No segment can be prepared for the batch's second record. -/
def fullDisk : List Slot := [{}, { inline := { result := .error "no space" } }]

/-- The batch is refused; a new term then starts where it started, and writes another
byte. -/
def afterRefusal : List NvmeStep :=
  createdAt 100 ++ [.append longBatch fullDisk, .journal .take, .journal (.complete [1] (.ok ())),
    .elected ⟨0, 1, 100, [⟨1, 100⟩]⟩, .resume true {}, .resume true {}, .resume true {},
    .append ⟨1, 100, [[2]], 0, 0⟩ [], .journal .take, .journal (.complete [2] (.ok ())), .settle]

/-- The refused batch leaves its first record in the index and among the pending writes,
and the byte written later at its position is not the one that is read. -/
theorem refused_batch_stays_indexed :
    ((run sampleConfig sampleId (createdAt 100)).tl.map fun t =>
      let after := write sampleConfig sampleId fullDisk longBatch
        (run sampleConfig sampleId (createdAt 100)).journal t
      (after.1.toBool, t.index.length, after.2.2.index.length, after.2.2.pending.length)) =
        some (false, 0, 1, 1) ∧
      ((run sampleConfig sampleId afterRefusal).tl.map fun t =>
        (t.head.flushLsn, t.index.map fun e => (e.lsn, e.len))) =
        some (101, [(100, 4008), (100, 1)]) ∧
      ((run sampleConfig sampleId afterRefusal).tl.bind fun t =>
        (t.read (run sampleConfig sampleId afterRefusal).journal 100 1).toOption) =
        some [(100, [1])] ∧
      (run sampleConfig sampleId afterRefusal).wal 100 = 2 := by
  decide +kernel

/-- Three bytes are appended, and a new term cuts the last one off. -/
def cutByNextTerm : List NvmeStep :=
  createdAt 100 ++ [.elected ⟨0, 1, 100, [⟨1, 100⟩]⟩, .resume true {}, .resume true {},
    .resume true {}, .append ⟨1, 100, [[7, 8, 9]], 0, 0⟩ [], .journal .take,
    .journal (.complete [1] (.ok ())), .elected ⟨0, 2, 102, [⟨1, 100⟩, ⟨2, 102⟩]⟩,
    .resume true {}, .journal .take, .journal (.complete [2] (.ok ())), .resume true {},
    .resume true {}, .resume true {}]

theorem nvme_index_covers_cut :
    ∃ t, (run sampleConfig sampleId cutByNextTerm).tl = some t ∧
      t.index.map (fun e => (e.lsn, e.len)) = [(100, 2)] ∧
      ∃ first, Tiles IndexEntry.lsn IndexEntry.stop first t.index t.head.flushLsn := by
  obtain ⟨t, ht⟩ : ∃ t, (run sampleConfig sampleId cutByNextTerm).tl = some t :=
    isSome_iff_exists.mp (by decide +kernel)
  have hindex : (run sampleConfig sampleId cutByNextTerm).tl.map
      (fun t => t.index.map fun e => (e.lsn, e.len)) = some [(100, 2)] := by decide +kernel
  rw [ht] at hindex
  have hkeeps : Along (step sampleConfig sampleId) KeepsIndex (initial sampleConfig)
      cutByNextTerm := by
    have hresume : ∀ sys inline, KeepsIndex sys (.resume true inline) := fun _ _ _ _ => .inl rfl
    refine ⟨trivial, trivial, trivial, ?_, hresume _ _, hresume _ _, hresume _ _,
      ⟨by simp, fun hempty => by cases hempty⟩, trivial, trivial, ?_, hresume _ _,
      trivial, trivial, hresume _ _, hresume _ _, hresume _ _, trivial⟩
    · simp only [KeepsIndex]
      decide +kernel
    · simp only [KeepsIndex]
      decide +kernel
  have hcovers := nvme_index_covers sampleConfig sampleId cutByNextTerm (by decide) hkeeps ht
  obtain ⟨-, first, hfirst, -⟩ := hcovers.2 (by decide +kernel)
  exact ⟨t, ht, some.inj hindex, first, hfirst⟩

end Nvme

end Loams.Safekeeper
