/-
# Batches in the local store

A batch is cut into groups, one record of the journal each.
-/

import Loams.Safekeeper.Heads
import Loams.Safekeeper.NvmeTl

namespace Loams.Safekeeper

open List Loams.Data Loams.Control

variable {cfg : JournalConfig} {id : TimelineId} {wal : Lsn → UInt8} {bytes : Bytes}

/-! ## Groups -/

theorem pack_flatten {max : ℕ} (hmax : 0 < max) {fuel : ℕ} (hfuel : bytes.length ≤ fuel) :
    (pack max fuel bytes).flatten = bytes := by
  induction fuel generalizing bytes with
  | zero => rw [length_eq_zero_iff.mp (Nat.le_zero.mp hfuel), pack, flatten_nil]
  | succ fuel ih =>
    unfold pack
    split_ifs with hempty
    · rw [hempty, flatten_nil]
    · have hpos := length_pos_iff.mpr hempty
      rw [flatten_cons, ih (by rw [length_drop]; omega), take_append_drop]

theorem of_mem_pack {max : ℕ} (hmax : 0 < max) {fuel : ℕ} {group : Bytes}
    (hgroup : group ∈ pack max fuel bytes) : group ≠ [] ∧ group.length ≤ max := by
  induction fuel generalizing bytes with
  | zero => cases hgroup
  | succ fuel ih =>
    unfold pack at hgroup
    split_ifs at hgroup with hempty
    · cases hgroup
    · rcases mem_cons.mp hgroup with rfl | hgroup
      · refine ⟨fun hnil => ?_, length_take_le _ _⟩
        have hlen := congrArg List.length hnil
        have hpos := length_pos_iff.mpr hempty
        rw [length_take, length_nil] at hlen
        omega
      · exact ih hgroup

/-- The index entry of an Append record. -/
def Logged.entry (r : Logged) : IndexEntry :=
  ⟨r.header.lsn, r.header.len, r.placed.seq, r.placed.payloadOff, r.placed.unit⟩

/-- The unit and the WAL end of an Append record. -/
def Logged.pending (r : Logged) : ℕ × Lsn := (r.placed.unit, r.header.endLsn)

/-- A record carries a group of WAL at a position. -/
structure Logged.Carries (id : TimelineId) (pos : Lsn) (group : Bytes) (r : Logged) : Prop where
  kind : r.header.kind = .append
  tl : r.header.tl = id
  lsn : r.header.lsn = pos
  len : r.header.len = group.length
  payload : r.payload = group

/-- The records carry the groups, from a position on. -/
inductive Carries (id : TimelineId) : Lsn → List Bytes → List Logged → Prop
  | nil (pos : Lsn) : Carries id pos [] []
  | cons {pos : Lsn} {group : Bytes} {groups : List Bytes} {r : Logged} {records : List Logged}
    (first : r.Carries id pos group) (rest : Carries id (pos + group.length) groups records) :
    Carries id pos (group :: groups) (r :: records)

theorem Carries.eq_nil_iff {pos : Lsn} {groups : List Bytes} {records : List Logged}
    (h : Carries id pos groups records) : records = [] ↔ groups = [] := by
  cases h with
  | nil pos => simp
  | cons first rest => simp

/-! ## Logs that others write to -/

/-- The log goes on, with records of the timeline among those of others. -/
structure Journal.Extends (id : TimelineId) (st st' : Journal) (records : List Logged) : Prop where
  mem : ∀ r ∈ st.log, r ∈ st'.log
  own : st'.log.filter (·.header.tl = id) = st.log.filter (·.header.tl = id) ++ records

namespace Journal.Extends

variable {st st' st'' : Journal} {records records' : List Logged}

theorem of_log_eq (h : st'.log = st.log) : Extends id st st' [] :=
  ⟨fun r hr => h ▸ hr, by rw [h, append_nil]⟩

theorem mem_new (h : Extends id st st' records) {r : Logged} (hr : r ∈ records) : r ∈ st'.log := by
  have hmem : r ∈ st'.log.filter (·.header.tl = id) := by
    rw [h.own]
    exact mem_append_right _ hr
  exact mem_of_mem_filter hmem

theorem trans (h : Extends id st st' records) (h' : Extends id st' st'' records') :
    Extends id st st'' (records ++ records') :=
  ⟨fun r hr => h'.mem r (h.mem r hr), by rw [h'.own, h.own, append_assoc]⟩

/-- An append of the timeline. -/
theorem append {inline : Inline} {h : RecordHeader} {payload : List Bytes}
    {res : Except Error Placed} (htl : h.tl = id)
    (happend : st.append cfg inline h payload = (res, st')) :
    (∃ e, res = .error e ∧ Extends id st st' []) ∨
      ∃ p, res = .ok p ∧ st.failed = none ∧ p.unit = st'.nextId ∧
        Extends id st st' [⟨p, h, payload.flatten⟩] := by
  rcases append_log happend with ⟨e, herror, hlog⟩ | ⟨p, hok, hfailed, -, hunit, hlog⟩
  · exact .inl ⟨e, herror, of_log_eq hlog⟩
  · refine .inr ⟨p, hok, hfailed, hunit, fun r hr => hlog ▸ mem_append_left _ hr, ?_⟩
    rw [hlog, filter_append, filter_singleton]
    simp [htl]

theorem of_foreign {s : Step} (hs : foreign id s = true) : Extends id st (st.step cfg s).2 [] := by
  cases s with
  | append inline h payload =>
    refine ⟨fun r hr => mem_append_log inline h payload hr, ?_⟩
    simp only [foreign, decide_eq_true_eq] at hs
    simp only [Journal.step]
    rcases append_log (Prod.eta (st.append cfg inline h payload)).symm with
      ⟨e, -, hlog⟩ | ⟨p, -, -, -, -, hlog⟩
    · rw [hlog, append_nil]
    · rw [hlog, filter_append, filter_singleton]
      simp [hs]
  | free trimmed retires => cases hs
  | _ => exact of_log_eq (log_step (by simp) (by simp))

end Journal.Extends

/-- The journal when a slot's turn comes. -/
def Slot.journal (cfg : JournalConfig) (id : TimelineId) (slot : Slot) (journal : Journal) :
    Journal :=
  Control.run (Journal.step cfg) journal (slot.meanwhile.filter (foreign id))

/-- Nothing fails before a record is put, nor for want of a segment. -/
def Slot.Works (slot : Slot) : Prop :=
  slot.inline.result = .ok () ∧ ∀ ids e, Journal.Step.complete ids (.error e) ∉ slot.meanwhile

namespace Slot

variable {slot : Slot} {journal : Journal}

theorem journal_induction {P : Journal → Prop} (base : P journal)
    (keep : ∀ st s, s ∈ slot.meanwhile → foreign id s = true → P st → P (st.step cfg s).2) :
    P (slot.journal cfg id journal) := by
  refine foldlRecOn _ _ base fun st hst s hs => ?_
  obtain ⟨hs, hforeign⟩ := mem_filter.mp hs
  exact keep st s hs hforeign hst

theorem journal_ok (h : journal.Ok ∧ journal.Laid) :
    (slot.journal cfg id journal).Ok ∧ (slot.journal cfg id journal).Laid := by
  apply journal_induction (P := fun st => st.Ok ∧ st.Laid)
  · exact h
  · exact fun st s _ _ hst => ⟨hst.1.step s, hst.2.step hst.1 s⟩

theorem journal_extends : journal.Extends id (slot.journal cfg id journal) [] := by
  apply journal_induction (P := fun st => journal.Extends id st [])
  · exact .of_log_eq rfl
  · exact fun st s _ hs hst => hst.trans (.of_foreign hs)

theorem Works.journal_failed (h : slot.Works) :
    (slot.journal cfg id journal).failed = journal.failed := by
  apply journal_induction (P := fun st => st.failed = journal.failed)
  · rfl
  · exact fun st s hs _ hst => (Journal.failed_step fun ids e heq => h.2 ids e (heq ▸ hs)).trans hst

end Slot

/-! ## Records of a batch in the journal -/

section Flush

variable {term : Term} {next : AcceptorState} {slot : Slot} {slots : List Slot} {pos : Lsn}
  {group : Bytes} {groups : List Bytes} {journal journal' : Journal} {t t' : Tl}
  {result : Except Error Unit}

/-- A group that is refused leaves the timeline as it was; one that is accepted is in the
log and in the index. -/
theorem flushGroup_cases
    (h : flushGroup cfg id term next slot pos group journal t = (result, journal', t')) :
    (journal.Ok ∧ journal.Laid → journal'.Ok ∧ journal'.Laid) ∧
      journal'.failed = (slot.journal cfg id journal).failed ∧
      ((∃ e, result = .error e ∧ journal.Extends id journal' [] ∧ t' = t ∧
          (recordSize group.length ≤ cfg.unitCapacity → journal'.failed = none →
            slot.inline.result ≠ .ok ())) ∨
        ∃ r, result = .ok () ∧ journal'.failed = none ∧ r.Carries id pos group ∧
          journal.Extends id journal' [r] ∧ t' = { t with
            index := t.index ++ [r.entry]
            pending := t.pending ++ [r.pending]
            lastUnit := journal'.nextId }) := by
  have hmeanwhile : journal.Extends id (slot.journal cfg id journal) [] := Slot.journal_extends
  have hkept {header : RecordHeader} {res : Except Error Placed} {st : Journal}
      (heq : (slot.journal cfg id journal).append cfg slot.inline header [group] = (res, st)) :
      (journal.Ok ∧ journal.Laid → st.Ok ∧ st.Laid) ∧
        st.failed = (slot.journal cfg id journal).failed := by
    obtain rfl := congrArg Prod.snd heq
    refine ⟨fun hok => ?_, Journal.append_failed cfg _ _ _ _⟩
    obtain ⟨hslot, hlaid⟩ : (slot.journal cfg id journal).Ok ∧ _ := Slot.journal_ok hok
    exact ⟨hslot.append _ _ _, hlaid.append hslot _ _ _⟩
  unfold flushGroup at h
  dsimp only at h
  rw [← Slot.journal] at h
  split at h
  · next e _ heq =>
    cases h
    obtain ⟨hjournal, hfailed⟩ := hkept heq
    rcases Journal.Extends.append rfl heq with ⟨_, -, hlog⟩ | ⟨p, hok, -⟩
    · refine ⟨hjournal, hfailed,
        .inl ⟨e, rfl, hmeanwhile.trans hlog, rfl, fun hsize hnone hinline => ?_⟩⟩
      obtain ⟨p, hp⟩ := Journal.append_ok
        (h := ⟨.append, id, term, pos, next.commitLsn, next.peerHorizonLsn, group.length⟩)
        slot.inline (by simp : group.length = [group].flatten.length) hsize
          (hfailed ▸ hnone) hinline
      cases (congrArg Prod.fst heq).symm.trans hp
    · cases hok
  · next p _ heq =>
    cases h
    obtain ⟨hjournal, hfailed⟩ := hkept heq
    rcases Journal.Extends.append rfl heq with ⟨_, herror, -⟩ | ⟨p', hok, hnone, hunit, hlog⟩
    · cases herror
    · obtain rfl := Except.ok.inj hok
      refine ⟨hjournal, hfailed, .inr ⟨_, rfl, hfailed.trans hnone, ⟨rfl, rfl, rfl, rfl, ?_⟩,
        hmeanwhile.trans hlog, ?_⟩⟩
      · simp
      · rw [← hunit]
        rfl

/-- What a batch leaves, whether the journal accepted all its records or not. -/
theorem flushGroups_spec
    (h : flushGroups cfg id term next slots pos groups journal t = (result, journal', t')) :
    (journal.Ok ∧ journal.Laid → journal'.Ok ∧ journal'.Laid) ∧ t'.head = t.head ∧
      (result = .ok () → ∃ records lastUnit, Carries id pos groups records ∧
        journal.Extends id journal' records ∧
        t' = { t with
          index := t.index ++ records.map Logged.entry
          pending := t.pending ++ records.map Logged.pending
          lastUnit := lastUnit } ∧
        (records = [] ∧ lastUnit = t.lastUnit ∨ lastUnit = journal'.nextId)) := by
  induction groups generalizing slots pos journal t with
  | nil =>
    cases h
    exact ⟨fun hok => hok, rfl, fun _ => ⟨[], _, .nil pos, .of_log_eq rfl, by simp,
      .inl ⟨rfl, rfl⟩⟩⟩
  | cons group groups ih =>
    unfold flushGroups at h
    split at h
    · next heq =>
      cases h
      obtain ⟨hkept, -, ⟨e, -, -, rfl, -⟩ | ⟨r, hok, -⟩⟩ := flushGroup_cases heq
      · exact ⟨hkept, rfl, nofun⟩
      · cases hok
    · next heq =>
      obtain ⟨hkept, -, ⟨e, herror, -⟩ | ⟨r, -, -, hcarries, hlog, rfl⟩⟩ := flushGroup_cases heq
      · cases herror
      · obtain ⟨hkept', hhead, hspec⟩ := ih h
        refine ⟨fun hok => hkept' (hkept hok), hhead, fun hresult => ?_⟩
        obtain ⟨records, lastUnit, hrest, hlog', rfl, hunit⟩ := hspec hresult
        refine ⟨r :: records, lastUnit, .cons hcarries hrest, hlog.trans hlog', by simp, ?_⟩
        rcases hunit with ⟨rfl, hunit⟩ | hunit
        · cases hrest
          obtain ⟨-, rfl, -⟩ := by simpa only [flushGroups, Prod.mk.injEq] using h
          exact .inr hunit
        · exact .inr hunit

/-- A journal that works accepts every record of a batch. -/
theorem flushGroups_accepts (hfailed : journal.failed = none)
    (hsize : ∀ group ∈ groups, recordSize group.length ≤ cfg.unitCapacity)
    (hslots : ∀ slot ∈ slots, slot.Works) :
    (flushGroups cfg id term next slots pos groups journal t).1 = .ok () := by
  induction groups generalizing slots pos journal t with
  | nil => rfl
  | cons group groups ih =>
    have hworks : (slots.headD {}).Works := by
      cases slots with
      | nil => exact ⟨rfl, by simp⟩
      | cons slot slots => exact hslots slot mem_cons_self
    have hturn : ((slots.headD {}).journal cfg id journal).failed = none :=
      hworks.journal_failed.trans hfailed
    unfold flushGroups
    split
    · next heq =>
      obtain ⟨-, hkept, ⟨-, -, -, -, hrefused⟩ | ⟨r, hok, -⟩⟩ := flushGroup_cases heq
      · exact absurd hworks.1 (hrefused (hsize group mem_cons_self) (hkept.trans hturn))
      · cases hok
    · next heq =>
      apply ih
      · exact (flushGroup_cases heq).2.1.trans hturn
      · exact fun group' hgroup' => hsize group' (mem_cons_of_mem _ hgroup')
      · exact fun slot hslot => hslots slot (mem_of_mem_tail hslot)

/-- If the journal works from a batch's first record on, it refuses that record or none. -/
theorem flushGroups_error {e : Error}
    (hsize : ∀ group ∈ groups, recordSize group.length ≤ cfg.unitCapacity)
    (hslots : ∀ slot ∈ slots.tail, slot.Works)
    (h : flushGroups cfg id term next slots pos groups journal t = (.error e, journal', t')) :
    journal.Extends id journal' [] ∧ t' = t := by
  cases groups with
  | nil => cases h
  | cons group groups =>
    unfold flushGroups at h
    split at h
    · next heq =>
      cases h
      obtain ⟨-, -, ⟨_, -, hlog, ht, -⟩ | ⟨r, hok, -⟩⟩ := flushGroup_cases heq
      · exact ⟨hlog, ht⟩
      · cases hok
    · next heq =>
      obtain ⟨-, -, ⟨_, herror, -⟩ | ⟨r, -, hfailed, -⟩⟩ := flushGroup_cases heq
      · cases herror
      · have haccepted := congrArg Prod.fst h
        rw [flushGroups_accepts hfailed
          (fun group' hgroup' => hsize group' (mem_cons_of_mem _ hgroup')) hslots] at haccepted
        cases haccepted

end Flush

/-! ## What the records of a batch carry -/

section Carries

variable {pos : Lsn} {groups : List Bytes} {records : List Logged}

theorem Logged.Carries.endLsn {group : Bytes} {r : Logged} (h : r.Carries id pos group) :
    r.header.endLsn = pos + group.length := by
  rw [RecordHeader.endLsn, h.lsn, h.len]

section

variable (h : Carries id pos groups records)
include h

theorem Carries.tiles (hne : ∀ group ∈ groups, group ≠ []) :
    Tiles IndexEntry.lsn IndexEntry.stop pos (records.map Logged.entry)
      (pos + groups.flatten.length) := by
  induction h with
  | nil pos => exact rfl
  | @cons pos group groups r records first rest ih =>
    have hstop : r.entry.stop = pos + group.length := first.endLsn
    have hpos := length_pos_iff.mpr (hne group mem_cons_self)
    refine ⟨first.lsn, by lia, ?_⟩
    rw [hstop, flatten_cons, length_append, ← Nat.add_assoc]
    exact ih fun group' hgroup' => hne group' (mem_cons_of_mem _ hgroup')

theorem Carries.backed
    (hwal : ∀ i < groups.flatten.length, groups.flatten[i]? = some (wal (pos + i))) :
    ∀ r ∈ records, r.entry.Backed id wal r := by
  induction h with
  | nil pos => exact fun r hr => absurd hr not_mem_nil
  | @cons pos group groups r records first rest ih =>
    rw [flatten_cons, length_append] at hwal
    intro r' hr'
    rcases mem_cons.mp hr' with rfl | hr'
    · refine ⟨first.tl, first.kind, by rw [first.len, first.payload], rfl, le_rfl, le_rfl, ?_,
        fun i hi => ?_⟩
      · simp [Logged.entry]
      · have hlt : i < group.length := first.len ▸ hi
        have hbyte := hwal i (by omega)
        rw [getElem?_append_left hlt] at hbyte
        simp only [Logged.entry, Nat.sub_self, Nat.zero_add, first.payload, first.lsn]
        exact hbyte
    · refine ih (fun i hi => ?_) r' hr'
      have hbyte := hwal (group.length + i) (by omega)
      rw [getElem?_append_right (by omega), Nat.add_sub_cancel_left, ← Nat.add_assoc] at hbyte
      exact hbyte

end

end Carries

/-! ## Writes -/

section Write

variable {slots : List Slot} {batch : AppendBatch} {journal journal' : Journal} {t t' : Tl}

section

variable (hcap : block ≤ cfg.unitCapacity)
include hcap

theorem recordSize_le {len : ℕ} (hlen : len ≤ cfg.maxPayload) :
    recordSize len ≤ cfg.unitCapacity := by
  unfold block at hcap
  unfold JournalConfig.maxPayload recordHeader at hlen
  unfold recordSize recordHeader alignUp
  omega

theorem maxPayload_pos : 0 < cfg.maxPayload := by
  unfold block at hcap
  unfold JournalConfig.maxPayload recordHeader
  omega

theorem batchGroups_flatten (batch : AppendBatch) (plan : AppendPlan) :
    (batchGroups cfg batch plan).flatten = (remainingChunks batch.wal plan.skip).flatten :=
  pack_flatten (maxPayload_pos hcap) le_rfl

end

variable {plan : AppendPlan} {ticket : Option ℕ}

theorem of_mem_batchGroups (hcap : block ≤ cfg.unitCapacity) {group : Bytes}
    (hgroup : group ∈ batchGroups cfg batch plan) :
    group ≠ [] ∧ recordSize group.length ≤ cfg.unitCapacity := by
  obtain ⟨hne, hlen⟩ := of_mem_pack (maxPayload_pos hcap) hgroup
  exact ⟨hne, recordSize_le hcap hlen⟩

theorem batchGroups_eq_nil (hcap : block ≤ cfg.unitCapacity)
    (h : (remainingChunks batch.wal plan.skip).flatten = []) : batchGroups cfg batch plan = [] := by
  have hgroups := (batchGroups_flatten hcap batch plan).trans h
  apply eq_nil_iff_forall_not_mem.mpr
  intro group hgroup
  exact (of_mem_batchGroups hcap hgroup).1 (flatten_eq_nil_iff.mp hgroups group hgroup)

theorem write_journal {result : Except Error (Except Deposed (Option ℕ))}
    (hok : journal.Ok ∧ journal.Laid)
    (h : write cfg id slots batch journal t = (result, journal', t')) :
    journal'.Ok ∧ journal'.Laid := by
  unfold write at h
  split at h
  · cases h
    exact hok
  · cases h
    exact hok
  · dsimp only at h
    split at h
    all_goals
      next heq =>
      cases h
      exact (flushGroups_spec heq).1 hok

/-- A write that is not carried out leaves the timeline as it was, if the journal works
from its first record on. -/
theorem write_refused {result : Except Error (Except Deposed (Option ℕ))}
    (hcap : block ≤ cfg.unitCapacity) (hslots : ∀ slot ∈ slots.tail, slot.Works)
    (h : write cfg id slots batch journal t = (result, journal', t'))
    (hresult : ∀ ticket, result ≠ .ok (.ok ticket)) : journal.Extends id journal' [] ∧ t' = t := by
  unfold write at h
  split at h
  · cases h
    exact ⟨.of_log_eq rfl, rfl⟩
  · cases h
    exact ⟨.of_log_eq rfl, rfl⟩
  · dsimp only at h
    split at h <;> cases h
    · next heq =>
      exact flushGroups_error (fun group hgroup => (of_mem_batchGroups hcap hgroup).2) hslots heq
    · exact absurd rfl (hresult _)

section

variable (h : write cfg id slots batch journal t = (.ok (.ok ticket), journal', t'))
include h

/-- What a write leaves: the records of its groups in the log, their entries in the index,
and the new head. -/
theorem write_ok : ∃ next plan records, applyAppend t.head batch = .ok (.ok (next, plan)) ∧
      Carries id plan.writeFrom (batchGroups cfg batch plan) records ∧
      journal.Extends id journal' records ∧
      (records = [] ∧ t' = { t.settle journal.reported.unit with head := next } ∨
        records ≠ [] ∧ t' =
          { t with
            head := next
            index := t.index ++ records.map Logged.entry
            pending := t.pending ++ records.map Logged.pending
            lastUnit := journal'.nextId }) := by
  unfold write at h
  split at h
  · cases h
  · cases h
  · next next plan happend =>
    dsimp only at h
    split at h
    · cases h
    · next heq =>
      obtain ⟨records, lastUnit, hcarries, hlog, ht', hunit⟩ := (flushGroups_spec heq).2.2 rfl
      cases h
      refine ⟨next, plan, records, happend, hcarries, hlog, ?_⟩
      dsimp only at ht' hunit ⊢
      by_cases hempty : batchGroups cfg batch plan = []
      · have hrecords := hcarries.eq_nil_iff.mpr hempty
        rw [hempty] at heq
        cases heq
        rw [if_pos hempty]
        exact .inl ⟨hrecords, rfl⟩
      · have hrecords := mt hcarries.eq_nil_iff.mp hempty
        rw [if_neg hempty, ht', hunit.resolve_left fun hnone => hrecords hnone.1]
        exact .inr ⟨hrecords, rfl⟩

theorem write_head :
    ∃ next plan, applyAppend t.head batch = .ok (.ok (next, plan)) ∧ t'.head = next := by
  obtain ⟨next, plan, records, happend, -, -, ⟨-, rfl⟩ | ⟨-, rfl⟩⟩ := write_ok h
  · exact ⟨next, plan, happend, rfl⟩
  · exact ⟨next, plan, happend, rfl⟩

end

theorem overwrite_nil (start pos : Lsn) : Nvme.overwrite wal start [] pos = wal pos := by
  unfold Nvme.overwrite
  split_ifs <;> rfl

/-- A write extends the index behind its end. -/
theorem indexed_write {low : Lsn} (hcap : block ≤ cfg.unitCapacity)
    (h : Indexed id journal.log wal low t.index t.head.flushLsn)
    (hempty : batch.isEmpty = true → t.head.flushLsn = 0 ∨ batch.beginLsn ≤ t.head.flushLsn)
    (hok : write cfg id slots batch journal t = (.ok (.ok ticket), journal', t')) :
    Indexed id journal'.log (Nvme.walAfter wal t.head batch) low t'.index t'.head.flushLsn := by
  obtain ⟨next, plan, records, happend, hcarries, hlog, ht'⟩ := write_ok hok
  simp only [Nvme.walAfter, Nvme.written, happend]
  have hbytes := batchGroups_flatten hcap batch plan
  have hhead : t'.head = next ∧ t'.index = t.index ++ records.map Logged.entry := by
    rcases ht' with ⟨rfl, rfl⟩ | ⟨-, rfl⟩
    · exact ⟨rfl, (append_nil _).symm⟩
    · exact ⟨rfl, rfl⟩
  rw [hhead.1, hhead.2]
  -- Without WAL the index is empty, and goes on anywhere.
  have hanywhere : t.head.flushLsn = 0 → ∀ stop, Indexed id journal.log wal low t.index stop := by
    intro hzero stop
    rw [hzero] at h
    rw [h.eq_nil]
    exact Indexed.nil stop
  rcases applyAppend_bytes happend with ⟨hnil, hflush⟩ | ⟨-, hflush, hfrom⟩
  · obtain rfl := hcarries.eq_nil_iff.mpr (batchGroups_eq_nil hcap hnil)
    rw [hnil, map_nil, append_nil]
    suffices hsame : Indexed id journal.log wal low t.index next.flushLsn from
      hsame.congr (fun r hr _ => hlog.mem r hr) fun pos _ => overwrite_nil _ pos
    rcases hflush with hflush | ⟨hbatch, hflush⟩
    · rw [hflush]
      exact h
    · rcases hempty hbatch with hzero | hle
      · exact hanywhere hzero _
      · rw [hflush, max_eq_left hle]
        exact h
  · have hbehind : Indexed id journal.log wal low t.index plan.writeFrom := by
      rcases hfrom with hfrom | ⟨hzero, -⟩
      · rw [hfrom]
        exact h
      · exact hanywhere hzero _
    have htiles := hcarries.tiles fun group hgroup => (of_mem_batchGroups hcap hgroup).1
    rw [hbytes, ← hflush] at htiles
    refine Indexed.append (hbehind.congr (fun r hr _ => hlog.mem r hr)
      fun pos hpos => if_neg (not_le.mpr hpos)) htiles fun e he => ?_
    obtain ⟨r, hr, rfl⟩ := mem_map.mp he
    refine ⟨r, hlog.mem_new hr, hcarries.backed (fun i hi => ?_) r hr⟩
    rw [hbytes] at hi ⊢
    rw [Nvme.overwrite, if_pos (Nat.le_add_right _ _), Nat.add_sub_cancel_left,
      getElem?_eq_getElem hi, Option.getD_some]

/-- A write moves the ends of the WAL with the head. -/
theorem within_write (hcap : block ≤ cfg.unitCapacity) (h : t.Within)
    (hok : write cfg id slots batch journal t = (.ok (.ok ticket), journal', t')) : t'.Within := by
  obtain ⟨next, plan, records, happend, hcarries, -, ht'⟩ := write_ok hok
  have hflush : t.head.flushLsn ≤ next.flushLsn := by
    obtain ⟨-, -, rfl⟩ := applyAppend_ok happend
    exact le_max_left _ _
  rcases ht' with ⟨-, rfl⟩ | ⟨hrecords, rfl⟩
  · have hsettled := h.settle journal.reported.unit
    exact ⟨hsettled.1.trans hflush, fun p hp => (hsettled.2 p hp).trans hflush⟩
  · refine ⟨h.1.trans hflush, fun p hp => ?_⟩
    rcases mem_append.mp hp with hp | hp
    · exact (h.2 p hp).trans hflush
    · obtain ⟨r, hr, rfl⟩ := mem_map.mp hp
      have htiles := hcarries.tiles fun group hgroup => (of_mem_batchGroups hcap hgroup).1
      have hend := (htiles.bounds_of_mem (mem_map_of_mem hr)).2.2
      rw [batchGroups_flatten hcap] at hend
      rcases applyAppend_bytes happend with ⟨hnil, -⟩ | ⟨-, hnext, -⟩
      · exact absurd (hcarries.eq_nil_iff.mpr (batchGroups_eq_nil hcap hnil)) hrecords
      · rw [hnext]
        exact hend

/-- A head goes to the journal, if the journal takes it. -/
theorem progress_eq (inline : Journal.Inline) (next : AcceptorState) (journal : Journal) (t : Tl) :
    ∃ lastUnit, (progress cfg id inline next journal t).2 =
        { t with head := next, lastUnit := lastUnit } ∧
      (progress cfg id inline next journal t).1 = (journal.append cfg inline
        ⟨.progress, id, next.term, next.commitLsn, next.backupLsn, next.remoteConsistentLsn, 0⟩
        []).2 := by
  unfold progress
  dsimp only
  split
  · next heq => exact ⟨t.lastUnit, rfl, by rw [heq]⟩
  · next p journal' heq => exact ⟨p.unit, rfl, by rw [heq]⟩

end Write

end Loams.Safekeeper
