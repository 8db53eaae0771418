/-
# The journal's log
-/

import Loams.Safekeeper.JournalRuns
import Mathlib.Data.List.Pairwise

namespace Loams.Safekeeper

open List Loams.Data Loams.Control

/-- The end of a record's payload in its segment. -/
def Logged.stop (r : Logged) : ℕ := r.placed.payloadOff + r.payload.length

/-- A record lies before another: in an earlier segment, or before it in the same. -/
def Logged.Before (r r' : Logged) : Prop :=
  r.placed.seq < r'.placed.seq ∨ r.placed.seq = r'.placed.seq ∧ r.stop ≤ r'.placed.payloadOff

theorem le_alignUp (n : ℕ) {m : ℕ} (hm : 0 < m) : n ≤ alignUp n m := by
  have hmod := Nat.mod_lt (n + m - 1) hm
  have hdiv := Nat.div_add_mod (n + m - 1) m
  rw [Nat.mul_comm] at hdiv
  unfold alignUp
  omega

namespace Journal

variable {cfg : JournalConfig} {st : Journal} {r : Logged}

/-! ## What an append does -/

/-- An append that fails leaves the log; one that succeeds adds its record, in the open
unit. -/
theorem append_log {inline : Inline} {h : RecordHeader} {payload : List Bytes}
    {res : Except Error Placed} {st' : Journal}
    (happend : st.append cfg inline h payload = (res, st')) :
    (∃ e, res = .error e ∧ st'.log = st.log) ∨
      ∃ p, res = .ok p ∧ st.failed = none ∧ h.len = payload.flatten.length ∧ p.unit = st'.nextId ∧
        st'.log = st.log ++ [⟨p, h, payload.flatten⟩] := by
  obtain ⟨roomy, hroom, hcases⟩ := append_cases cfg st inline h payload
  have hlog : roomy.log = st.log := congrArg (·.2.1) (kept_roomy hroom)
  rw [happend] at hcases
  rcases hcases with ⟨e, heq⟩ | ⟨hcheck, heq⟩ <;> cases heq
  · exact .inl ⟨e, rfl, hlog⟩
  · obtain ⟨_, hlen, hcheck⟩ := except_bind_ok.mp hcheck
    obtain ⟨_, -, hcheck⟩ := except_bind_ok.mp hcheck
    refine .inr ⟨_, rfl, ?_, ?_, rfl, congrArg (· ++ _) hlog⟩
    · cases hfailed : st.failed with
      | none => rfl
      | some f =>
        rw [hfailed] at hcheck
        cases hcheck
    · rw [length_flatten]
      exact (require_eq_ok.mp hlen).symm

theorem mem_append_log (inline : Inline) (h : RecordHeader) (payload : List Bytes)
    (hr : r ∈ st.log) : r ∈ (st.append cfg inline h payload).2.log := by
  rcases append_log (rfl : st.append cfg inline h payload = _) with ⟨e, -, hlog⟩
    | ⟨p, -, -, -, -, hlog⟩
  · exact hlog ▸ hr
  · exact hlog ▸ mem_append_left _ hr

theorem append_failed (cfg : JournalConfig) (st : Journal) (inline : Inline) (h : RecordHeader)
    (payload : List Bytes) :
    (st.append cfg inline h payload).2.failed = st.failed := by
  obtain ⟨st', hroom, hcases⟩ := append_cases cfg st inline h payload
  have hfailed : st'.failed = st.failed := congrArg (·.2.2) (kept_roomy hroom)
  rcases hcases with ⟨e, heq⟩ | ⟨-, heq⟩ <;> rw [heq] <;> exact hfailed

/-- An append is refused only by its size, by a journal that failed, or by a segment that
could not be prepared. -/
theorem append_ok (inline : Inline) {h : RecordHeader} {payload : List Bytes}
    (hlen : h.len = payload.flatten.length) (hsize : recordSize h.len ≤ cfg.unitCapacity)
    (hfailed : st.failed = none) (hinline : inline.result = .ok ()) :
    ∃ p, (st.append cfg inline h payload).1 = .ok p := by
  rw [length_flatten] at hlen
  have hcheck : checkRecord cfg h payload st = .ok () := by
    rw [hlen] at hsize
    simp only [checkRecord, require, hlen, hsize, hfailed, if_true]
    rfl
  have hroll : ∀ st : Journal, (st.rollover inline).1 = .ok () := by
    intro st
    unfold rollover
    split
    · rfl
    · simp [hinline]
  have hroom : (st.makeRoom cfg inline (recordSize (payload.map List.length).sum)).1 = .ok () := by
    unfold makeRoom
    split_ifs
    · exact hroll _
    · rfl
    · rfl
  unfold append
  rw [hcheck]
  dsimp only
  split
  · next heq =>
    rw [heq] at hroom
    cases hroom
  · exact ⟨_, rfl⟩

/-! ## Places -/

/-- The records lie one after another, before where the writer is, and no record belongs
to a unit after the open one. -/
structure Laid (st : Journal) : Prop where
  before : st.log.Pairwise Logged.Before
  cursor : ∀ r ∈ st.log, r.placed.seq < st.cur ∨
    r.placed.seq = st.cur ∧ r.stop ≤ st.nextOff + st.openLen
  unit_le : ∀ r ∈ st.log, r.placed.unit ≤ st.nextId

theorem Laid.sealOpen (h : st.Laid) : st.sealOpen.Laid := by
  unfold Journal.sealOpen
  split
  · exact h
  · next len hopen =>
    refine ⟨h.before, fun r hr => ?_, fun r hr => (h.unit_le r hr).trans (Nat.le_succ _)⟩
    rcases h.cursor r hr with hlt | ⟨heq, hle⟩
    · exact .inl hlt
    · right
      have hpad : len ≤ alignUp len block := le_alignUp len (by decide)
      simp only [openLen, hopen, Option.getD_some, Option.getD_none] at hle ⊢
      exact ⟨heq, by omega⟩

theorem Laid.rollover (h : st.Laid) (hok : st.Ok) (inline : Inline) :
    (st.rollover inline).2.Laid := by
  have hlt : ∀ seq, st.cur < seq → ∀ r ∈ st.log, r.placed.seq < seq := by
    intro seq hseq r hr
    rcases h.cursor r hr with hlt | ⟨heq, -⟩
    · exact hlt.trans hseq
    · exact heq.trans_lt hseq
  unfold Journal.rollover
  split
  · next next ready hready =>
    have hnext := hok.cur_lt_ready next (by simp [hready])
    exact ⟨h.before, fun r hr => .inl (hlt next hnext r hr), h.unit_le⟩
  · dsimp only
    split
    · exact { h with }
    · exact ⟨h.before, fun r hr => .inl (hlt _ (Nat.lt_succ_of_le hok.cur_le) r hr), h.unit_le⟩

theorem Laid.put (h : st.Laid) (header : RecordHeader) (payload : List Bytes) :
    (st.put header payload).Laid := by
  have hsize : payload.flatten.length + recordHeader ≤
      recordSize (payload.map List.length).sum := by
    have hpad := le_alignUp (payload.map List.length).sum (show 0 < 8 by decide)
    rw [length_flatten, recordSize]
    omega
  refine ⟨?_, ?_, ?_⟩
  · refine pairwise_concat.mpr ⟨h.before, fun r hr => ?_⟩
    rcases h.cursor r hr with hlt | ⟨heq, hle⟩
    · exact .inl hlt
    · exact .inr ⟨heq, hle.trans (by simp only [place]; omega)⟩
  · intro r hr
    simp only [Journal.put, openLen, Option.getD_some]
    rcases mem_concat.mp hr with hr | rfl
    · rcases h.cursor r hr with hlt | ⟨heq, hle⟩
      · exact .inl hlt
      · right
        simp only [openLen] at hle
        exact ⟨heq, by omega⟩
    · right
      refine ⟨rfl, ?_⟩
      simp only [Logged.stop, place, openLen]
      omega
  · exact forall_mem_concat.mpr ⟨h.unit_le, le_rfl⟩

theorem Laid.roomy (h : st.Laid) (hok : st.Ok) {inline : Inline} {st' : Journal}
    (hroom : Roomy inline st st') : st'.Laid := by
  rcases hroom with rfl | rfl | rfl
  · exact h
  · exact h.sealOpen
  · exact h.sealOpen.rollover hok.sealOpen inline

theorem Laid.append (h : st.Laid) (hok : st.Ok) (inline : Inline) (header : RecordHeader)
    (payload : List Bytes) : (st.append cfg inline header payload).2.Laid := by
  obtain ⟨st', hroom, ⟨e, heq⟩ | ⟨-, heq⟩⟩ := append_cases cfg st inline header payload
  · exact heq ▸ h.roomy hok hroom
  · exact heq ▸ (h.roomy hok hroom).put header payload

theorem Laid.step (h : st.Laid) (hok : st.Ok) (s : Step) : (st.step cfg s).2.Laid := by
  rcases step_cases cfg st s with ⟨inline, header, payload, rfl⟩ | rfl | ⟨ids, res, rfl⟩ |
    ⟨trimmed, retires, rfl⟩ | ⟨ready, free, maxSeq, preparer, heq⟩
  · exact h.append hok inline header payload
  · obtain ⟨st', hroom, heq | ⟨u, sealed, -, heq⟩⟩ := take_cases st <;>
      simp only [Journal.step, heq]
    · exact h.roomy hok hroom
    · exact { h.roomy hok hroom with }
  · cases res <;> exact { h with }
  · exact ⟨h.before.filter _, fun r hr => h.cursor r (mem_of_mem_filter hr),
      fun r hr => h.unit_le r (mem_of_mem_filter hr)⟩
  · exact heq ▸ { h with }

/-- An opened journal writes above the segments that it replayed. -/
theorem laid_opened {disk : Disk} (h : (disk.replayed cfg).Pairwise Logged.Before) :
    (opened cfg disk).Laid := by
  have hmem : ∀ r ∈ (opened cfg disk).log, ∃ r' ∈ disk.replayed cfg,
      r = { r' with placed := { r'.placed with unit := 0 } } := by
    intro r hr
    obtain ⟨r', hr', rfl⟩ := mem_map.mp hr
    exact ⟨r', hr', rfl⟩
  refine ⟨pairwise_map.mpr h, fun r hr => .inl ?_, fun r hr => ?_⟩
  · obtain ⟨r', hr', rfl⟩ := hmem r hr
    have hfile : r'.placed.seq ∈ disk.files := mem_files_of_mem_replayed hr'
    exact lt_cur_opened hfile
  · obtain ⟨r', -, rfl⟩ := hmem r hr
    exact Nat.zero_le _

/-! ## Reading and freeing -/

/-- Bytes within the payload of a record of the log are read back. -/
theorem Laid.read_eq (h : st.Laid) (hok : st.Ok) (hr : r ∈ st.log) {seq off len : ℕ}
    (hholds : r.holds seq off len = true) (hlen : 0 < len) :
    st.read seq off len = .ok ((r.payload.drop (off - r.placed.payloadOff)).take len) := by
  have hfacts : ∀ r' : Logged, r'.holds seq off len = true ↔
      r'.placed.seq = seq ∧ r'.placed.payloadOff ≤ off ∧ off + len ≤ r'.stop := by
    intro r'
    simp [Logged.holds, Logged.stop, and_assoc]
  obtain ⟨rfl, hlo, hhi⟩ := (hfacts r).mp hholds
  have hfound : st.log.find? (·.holds r.placed.seq off len) = some r := by
    have hsome : (st.log.find? (·.holds r.placed.seq off len)).isSome :=
      find?_isSome.mpr ⟨r, hr, hholds⟩
    obtain ⟨r', hr'⟩ := Option.isSome_iff_exists.mp hsome
    have hholds' : r'.holds r.placed.seq off len = true := by
      have hp := find?_some hr'
      exact hp
    obtain ⟨hseq, hlo', hhi'⟩ := (hfacts r').mp hholds'
    -- Both payloads hold the bytes, and payloads do not overlap.
    rcases eq_or_ne r' r with rfl | hne
    · exact hr'
    · exfalso
      have hapart : r'.Before r ∨ r.Before r' := by
        have : Std.Symm fun a b : Logged => a.Before b ∨ b.Before a := ⟨fun _ _ => Or.symm⟩
        have heither : st.log.Pairwise fun a b => a.Before b ∨ b.Before a := h.before.imp .inl
        exact heither.forall (mem_of_find?_eq_some hr') hr hne
      unfold Logged.Before at hapart
      have hstop : r'.placed.payloadOff ≤ r'.stop := Nat.le_add_right _ _
      omega
  unfold Journal.read
  rw [if_pos (hok.log_live r hr), hfound]

/-- Only appends add records, and only freeing takes some away. -/
theorem log_step {s : Step} (happend : ∀ inline h payload, s ≠ .append inline h payload)
    (hfree : ∀ trimmed retires, s ≠ .free trimmed retires) : (st.step cfg s).2.log = st.log := by
  rcases step_cases cfg st s with ⟨inline, header, payload, rfl⟩ | rfl | ⟨ids, res, rfl⟩ |
    ⟨trimmed, retires, rfl⟩ | ⟨ready, free, maxSeq, preparer, heq⟩
  · exact absurd rfl (happend inline header payload)
  · exact congrArg (·.2.1) (kept_take st)
  · cases res <;> rfl
  · exact absurd rfl (hfree trimmed retires)
  · rw [heq]

/-- A journal fails only by a write that failed. -/
theorem failed_step {s : Step} (hs : ∀ ids e, s ≠ .complete ids (.error e)) :
    (st.step cfg s).2.failed = st.failed := by
  rcases step_cases cfg st s with ⟨inline, header, payload, rfl⟩ | rfl | ⟨ids, res, rfl⟩ |
    ⟨trimmed, retires, rfl⟩ | ⟨ready, free, maxSeq, preparer, heq⟩
  · exact append_failed cfg st inline header payload
  · exact congrArg (·.2.2) (kept_take st)
  · cases res with
    | error e => exact absurd rfl (hs ids e)
    | ok _ => rfl
  · rfl
  · rw [heq]

/-- A record above its timeline's bound stays. -/
theorem mem_log_free (hok : st.Ok) {trimmed : TimelineId → Option Lsn} {retires : ℕ → Bool}
    (hr : r ∈ st.log) (hkind : r.header.kind = .append)
    (hbound : ∀ bound ∈ trimmed r.header.tl, bound < r.header.endLsn) :
    r ∈ (st.step cfg (.free trimmed retires)).2.log := by
  apply mem_filter.mpr
  refine ⟨hr, ?_⟩
  simp only [decide_eq_true_eq]
  intro hfreed
  have hmem : r.placed.seq ∈ (st.freeOldest cfg (mayGo trimmed) retires).1 := hfreed
  obtain ⟨-, hreleased⟩ := hok.quiet_of_mem_freed hmem
  obtain ⟨bound, hmem, hle⟩ := hreleased r hr rfl hkind
  exact absurd hle (not_le.mpr (hbound bound hmem))

end Journal

end Loams.Safekeeper
