/-
# Runs of the journal

The writer, the engines, the preparer and the owner take their steps in any order.
-/

import Loams.Safekeeper.Journal
import Mathlib.Data.List.MinMax
import Mathlib.Data.List.TakeWhile

namespace Loams.Safekeeper.Journal

open Loams.Data Loams.Control List

variable {cfg : JournalConfig} {st st' : Journal} {inline : Inline}

/-! ## What a step touches -/

/-- The journal once there is room for a record: as it was, with the open unit sealed, or
rolled over after that. -/
def Roomy (inline : Inline) (st st' : Journal) : Prop :=
  st' = st ∨ st' = st.sealOpen ∨ st' = (st.sealOpen.rollover inline).2

/-- An append makes room and puts its record there, or fails. -/
theorem append_cases (cfg : JournalConfig) (st : Journal) (inline : Inline)
    (header : RecordHeader) (payload : List Bytes) : ∃ st', Roomy inline st st' ∧
      ((∃ e, st.append cfg inline header payload = (.error e, st')) ∨
        checkRecord cfg header payload st = .ok () ∧
          st.append cfg inline header payload = (.ok st'.place, st'.put header payload)) := by
  unfold append
  split
  · exact ⟨st, .inl rfl, .inl ⟨_, rfl⟩⟩
  · next hcheck =>
    have hroom : Roomy inline st
        (st.makeRoom cfg inline (recordSize (payload.map List.length).sum)).2 := by
      unfold Roomy makeRoom
      split_ifs <;> simp
    split
    · next heq =>
      rw [heq] at hroom
      exact ⟨_, hroom, .inl ⟨_, rfl⟩⟩
    · next heq =>
      rw [heq] at hroom
      exact ⟨_, hroom, .inr ⟨hcheck, rfl⟩⟩

/-- An engine takes a unit, if need be after the open one was sealed. -/
theorem take_cases (st : Journal) :
    ∃ st', Roomy {} st st' ∧ (st.take = st' ∨
      ∃ u sealed, st'.sealed = u :: sealed ∧ st.take =
        { st' with
          sealed := sealed
          inflight := st'.inflight ++ [u]
          engines := st'.engines ++ [u] }) := by
  refine ⟨if st.sealed = [] ∧ 0 < st.openLen then st.sealOpen else st, ?_, ?_⟩
  · unfold Roomy
    split_ifs <;> simp
  · unfold take
    dsimp only
    split
    · exact .inl rfl
    · next hsealed => exact .inr ⟨_, _, hsealed, rfl⟩

/-- The preparer keeps to the segments that nothing was written to. -/
theorem step_cases (cfg : JournalConfig) (st : Journal) (s : Step) :
    (∃ inline header payload, s = .append inline header payload) ∨ s = .take ∨
      (∃ ids res, s = .complete ids res) ∨ (∃ trimmed retires, s = .free trimmed retires) ∨
      ∃ ready free maxSeq preparer, (st.step cfg s).2 =
        { st with ready := ready, free := free, maxSeq := maxSeq, preparer := preparer } := by
  have hoffer : ∀ seq retires, ∃ ready free maxSeq preparer, (st.offer seq retires).2 =
      { st with ready := ready, free := free, maxSeq := maxSeq, preparer := preparer } := by
    intro seq retires
    unfold offer
    dsimp only
    split_ifs <;> exact ⟨_, _, _, _, rfl⟩
  cases s with
  | append inline header payload => exact .inl ⟨_, _, _, rfl⟩
  | take => simp
  | complete ids res => simp
  | free trimmed retires => simp
  | prepare recycle =>
    iterate 4 right
    simp only [step, prepare]
    split
    · split_ifs <;> exact ⟨_, _, _, _, rfl⟩
    · exact ⟨_, _, _, _, rfl⟩
  | zero i =>
    iterate 4 right
    simp only [step, zero]
    split
    · split_ifs <;> exact ⟨_, _, _, _, rfl⟩
    · exact ⟨_, _, _, _, rfl⟩
  | prepared res retires =>
    iterate 4 right
    simp only [step, prepared]
    split
    · exact ⟨_, _, _, _, rfl⟩
    · exact hoffer _ _
    · exact ⟨_, _, _, _, rfl⟩
    · exact hoffer _ _

/-! ## Segments, units and records -/

/-- An Append record ends at or below the noted end of its timeline in its segment. -/
def Covers (ends : List SegmentEnd) (r : Logged) : Prop :=
  r.header.kind = .append →
    ∃ e ∈ ends, e.seq = r.placed.seq ∧ e.tl = r.header.tl ∧ r.header.endLsn ≤ e.lsn

/-- The numbers of segments and units are in order, and everything lies in a live
segment. -/
structure Ok (st : Journal) : Prop where
  ready_sorted : st.ready.Pairwise (· < ·)
  cur_lt_ready : ∀ seq ∈ st.ready, st.cur < seq
  ready_le : ∀ seq ∈ st.ready, seq ≤ st.maxSeq
  cur_live : st.cur ∈ st.live
  live_le : ∀ seq ∈ st.live, seq ≤ st.cur
  cur_le : st.cur ≤ st.maxSeq
  held : ∀ seq ∈ st.preparer.seq, seq ≤ st.maxSeq ∧ seq ∉ st.ready ∧ seq ∉ st.live
  sealed_live : ∀ u ∈ st.sealed, u.seq ∈ st.live
  inflight_live : ∀ u ∈ st.inflight, u.seq ∈ st.live
  engines_inflight : ∀ u ∈ st.engines, u ∈ st.inflight
  ids_lt : ∀ u ∈ st.engines ++ st.sealed, u.id < st.nextId
  ids_nodup : ((st.engines ++ st.sealed).map FlushUnit.id).Nodup
  log_live : ∀ r ∈ st.log, r.placed.seq ∈ st.live
  log_ends : ∀ r ∈ st.log, Covers st.ends r

theorem Ok.sealOpen (h : st.Ok) : st.sealOpen.Ok := by
  unfold Journal.sealOpen
  split
  · exact h
  · refine { h with sealed_live := ?_, ids_lt := ?_, ids_nodup := ?_ }
    · exact forall_mem_concat.mpr ⟨h.sealed_live, h.cur_live⟩
    · rw [← append_assoc]
      exact forall_mem_concat.mpr
        ⟨fun u hu => Nat.lt_succ_of_lt (h.ids_lt u hu), Nat.lt_succ_self _⟩
    · -- The new id is above those in use.
      rw [← append_assoc, map_append, nodup_append]
      refine ⟨h.ids_nodup, nodup_singleton _, ?_⟩
      intro i hi j hj
      obtain ⟨u, hu, rfl⟩ := mem_map.mp hi
      obtain rfl := mem_singleton.mp hj
      exact (h.ids_lt u hu).ne

theorem Ok.enter (h : st.Ok) {seq : ℕ} (hcur : st.cur < seq) (hmax : seq ≤ st.maxSeq)
    (hready : ∀ r ∈ st.ready, seq < r) (hheld : ∀ r ∈ st.preparer.seq, r ≠ seq) :
    (st.enter seq).Ok := by
  have hlive : ∀ r, r ∈ st.live.orderedInsert (· ≤ ·) seq ↔ r = seq ∨ r ∈ st.live := fun r =>
    mem_orderedInsert _
  exact
    { h with
      cur_lt_ready := hready
      cur_live := (hlive seq).mpr (.inl rfl)
      live_le := fun r hr => by
        rcases (hlive r).mp hr with rfl | hr
        · exact le_rfl
        · exact (h.live_le r hr).trans hcur.le
      cur_le := hmax
      held := fun r hr => by
        obtain ⟨hle, hnotReady, hnotLive⟩ := h.held r hr
        refine ⟨hle, hnotReady, fun hmem => ?_⟩
        rcases (hlive r).mp hmem with heq | hmem
        · exact hheld r hr heq
        · exact hnotLive hmem
      sealed_live := fun u hu => (hlive _).mpr (.inr (h.sealed_live u hu))
      inflight_live := fun u hu => (hlive _).mpr (.inr (h.inflight_live u hu))
      log_live := fun r hr => (hlive _).mpr (.inr (h.log_live r hr)) }

/-- A number that nobody used, whatever becomes of the retired files. -/
theorem Ok.fresh (h : st.Ok) (free : List ℕ) :
    Ok { st with maxSeq := st.maxSeq + 1, free := free } :=
  { h with
    ready_le := fun seq hseq => (h.ready_le seq hseq).trans (Nat.le_succ _)
    cur_le := h.cur_le.trans (Nat.le_succ _)
    held := fun seq hseq =>
      ⟨(h.held seq hseq).1.trans (Nat.le_succ _), (h.held seq hseq).2⟩ }

theorem Ok.of_sublist_ready (h : st.Ok) {ready : List ℕ} (hsub : ready.Sublist st.ready) :
    Ok { st with ready := ready } :=
  { h with
    ready_sorted := h.ready_sorted.sublist hsub
    cur_lt_ready := fun seq hseq => h.cur_lt_ready seq (hsub.subset hseq)
    ready_le := fun seq hseq => h.ready_le seq (hsub.subset hseq)
    held := fun seq hseq => by
      obtain ⟨hle, hnotReady, hnotLive⟩ := h.held seq hseq
      exact ⟨hle, fun hmem => hnotReady (hsub.subset hmem), hnotLive⟩ }

/-- The writer's next segment keeps the order. -/
theorem Ok.rollover (h : st.Ok) (inline : Inline) : (st.rollover inline).2.Ok := by
  unfold Journal.rollover
  split
  · next next ready hready =>
    have hmem : next ∈ st.ready := by simp [hready]
    have hsorted := h.ready_sorted
    rw [hready, pairwise_cons] at hsorted
    apply (h.of_sublist_ready (hready ▸ sublist_cons_self next ready)).enter
    · exact h.cur_lt_ready next hmem
    · exact h.ready_le next hmem
    · exact hsorted.1
    · rintro r hr rfl
      exact (h.held r hr).2.1 hmem
  · next hready =>
    dsimp only
    split
    · exact h.fresh _
    · apply (h.fresh _).enter
      · exact Nat.lt_succ_of_le h.cur_le
      · exact le_rfl
      · simp [hready]
      · rintro r hr rfl
        exact absurd (h.held _ hr).1 (Nat.not_succ_le_self _)

theorem Ok.roomy (h : st.Ok) (hroom : Roomy inline st st') : st'.Ok := by
  rcases hroom with rfl | rfl | rfl
  · exact h
  · exact h.sealOpen
  · exact h.sealOpen.rollover inline

variable {ends : List SegmentEnd} {r : Logged} {disk : Disk}

theorem exists_mem_raiseEnd {seq : ℕ} {tl : TimelineId} {lsn : Lsn} {seq' : ℕ} {tl' : TimelineId}
    {lsn' : Lsn} (h : (seq' = seq ∧ tl' = tl ∧ lsn' ≤ lsn) ∨
      ∃ e ∈ ends, e.seq = seq' ∧ e.tl = tl' ∧ lsn' ≤ e.lsn) :
    ∃ e ∈ raiseEnd seq tl lsn ends, e.seq = seq' ∧ e.tl = tl' ∧ lsn' ≤ e.lsn := by
  induction ends with
  | nil =>
    rcases h with ⟨rfl, rfl, hle⟩ | ⟨e, he, -⟩
    · exact ⟨_, mem_singleton.mpr rfl, rfl, rfl, hle⟩
    · cases he
  | cons e ends ih =>
    unfold raiseEnd
    split_ifs with hsame
    · rcases h with ⟨rfl, rfl, hle⟩ | ⟨e', he', hseq, htl, hle⟩
      · exact ⟨_, mem_cons_self, hsame.1, hsame.2, hle.trans (le_max_right _ _)⟩
      · rcases mem_cons.mp he' with rfl | he'
        · exact ⟨_, mem_cons_self, hseq, htl, hle.trans (le_max_left _ _)⟩
        · exact ⟨e', mem_cons_of_mem _ he', hseq, htl, hle⟩
    · rcases h with hnew | ⟨e', he', hfacts⟩
      · obtain ⟨e', he', hfacts⟩ := ih (.inl hnew)
        exact ⟨e', mem_cons_of_mem _ he', hfacts⟩
      · rcases mem_cons.mp he' with rfl | he'
        · exact ⟨e', mem_cons_self, hfacts⟩
        · obtain ⟨e'', he'', hfacts⟩ := ih (.inr ⟨e', he', hfacts⟩)
          exact ⟨e'', mem_cons_of_mem _ he'', hfacts⟩

theorem covers_noteEnd {seq : ℕ} {h : RecordHeader}
    (hr : (r.placed.seq = seq ∧ r.header = h) ∨ Covers ends r) : Covers (noteEnd seq h ends) r := by
  intro hkind
  unfold noteEnd
  rcases hr with ⟨rfl, rfl⟩ | hr
  · rw [if_pos hkind]
    exact exists_mem_raiseEnd (.inl ⟨rfl, rfl, le_rfl⟩)
  · split_ifs
    · exact exists_mem_raiseEnd (.inr (hr hkind))
    · exact hr hkind

theorem Ok.put (h : st.Ok) (header : RecordHeader) (payload : List Bytes) :
    (st.put header payload).Ok := by
  refine { h with log_live := ?_, log_ends := ?_ }
  · exact forall_mem_concat.mpr ⟨h.log_live, h.cur_live⟩
  · exact forall_mem_concat.mpr
      ⟨fun r hr => covers_noteEnd (.inr (h.log_ends r hr)), covers_noteEnd (.inl ⟨rfl, rfl⟩)⟩

theorem Ok.append (h : st.Ok) (inline : Inline) (header : RecordHeader) (payload : List Bytes) :
    (st.append cfg inline header payload).2.Ok := by
  obtain ⟨st', hroom, ⟨e, heq⟩ | ⟨-, heq⟩⟩ := append_cases cfg st inline header payload
  · rw [heq]
    exact h.roomy hroom
  · rw [heq]
    exact (h.roomy hroom).put header payload

/-- An engine takes the first sealed unit. -/
theorem Ok.take_sealed (h : st.Ok) {u : FlushUnit} {sealed : List FlushUnit}
    (hsealed : st.sealed = u :: sealed) :
    Ok { st with
      sealed := sealed
      inflight := st.inflight ++ [u]
      engines := st.engines ++ [u] } := by
  have hids : st.engines ++ [u] ++ sealed = st.engines ++ st.sealed := by simp [hsealed]
  have hu : u ∈ st.sealed := by simp [hsealed]
  refine { h with
    sealed_live := ?_, inflight_live := ?_, engines_inflight := ?_, ids_lt := ?_, ids_nodup := ?_ }
  · intro v hv
    exact h.sealed_live v (by simp [hsealed, hv])
  · exact forall_mem_concat.mpr ⟨h.inflight_live, h.sealed_live _ hu⟩
  · exact forall_mem_concat.mpr
      ⟨fun v hv => mem_append_left _ (h.engines_inflight v hv), mem_concat_self⟩
  · dsimp only
    rw [hids]
    exact h.ids_lt
  · dsimp only
    rw [hids]
    exact h.ids_nodup

theorem Ok.take (h : st.Ok) : st.take.Ok := by
  obtain ⟨st', hroom, heq | ⟨u, sealed, hsealed, heq⟩⟩ := take_cases st
  · exact heq ▸ h.roomy hroom
  · exact heq ▸ (h.roomy hroom).take_sealed hsealed

/-- The completion of units keeps the order. -/
theorem Ok.complete (h : st.Ok) (ids : List ℕ) (res : IoResult) :
    Ok ({ st with engines := st.engines.filter (·.id ∉ ids) }.complete
      (st.engines.filter (·.id ∈ ids)) res) := by
  have hsub : (st.engines.filter (·.id ∉ ids) ++ st.sealed).Sublist (st.engines ++ st.sealed) :=
    filter_sublist.append_right _
  have hengines : Ok { st with engines := st.engines.filter (·.id ∉ ids) } :=
    { h with
      engines_inflight := fun u hu => h.engines_inflight u (mem_of_mem_filter hu)
      ids_lt := fun u hu => h.ids_lt u (hsub.subset hu)
      ids_nodup := h.ids_nodup.sublist (hsub.map _) }
  cases res with
  | error e => exact { hengines with }
  | ok _ =>
    refine { hengines with inflight_live := ?_, engines_inflight := ?_ }
    · intro u hu
      exact h.inflight_live u (mem_of_mem_filter hu)
    · -- The engines keep units whose ids are none of those that completed.
      intro u hu
      obtain ⟨hmem, hnot⟩ := mem_filter.mp hu
      simp only [decide_eq_true_eq] at hnot
      refine mem_filter.mpr ⟨h.engines_inflight u hmem, ?_⟩
      simp only [mem_map, mem_filter, decide_eq_true_eq, not_exists, not_and]
      rintro v ⟨-, hv⟩ hid
      exact hnot (hid ▸ hv)

/-! ## Freed segments -/

section Free

variable {trimmed : TimelineId → Lsn → Bool} {retires : ℕ → Bool} {seq : ℕ}

theorem freeable_of_mem_freed (hseq : seq ∈ (st.freeOldest cfg trimmed retires).1) :
    st.freeable trimmed seq = true := by
  have h := mem_takeWhile_imp hseq
  simp only [Bool.and_eq_true] at h
  exact h.1

/-- What a freeable segment does not hold. -/
theorem freeable_iff : st.freeable trimmed seq = true ↔
    seq < st.cur ∧ (∀ u ∈ st.sealed, u.seq ≠ seq) ∧ (∀ u ∈ st.inflight, u.seq ≠ seq) ∧
      ∀ e ∈ st.ends, e.seq = seq → trimmed e.tl e.lsn = true := by
  simp [freeable, and_assoc, imp_iff_not_or]

theorem mem_live_freeOldest (hlive : seq ∈ st.live)
    (hseq : seq ∉ (st.freeOldest cfg trimmed retires).1) :
    seq ∈ (st.freeOldest cfg trimmed retires).2.live := by
  have hsplit : seq ∈ (st.freeOldest cfg trimmed retires).1 ++
      st.live.drop (st.freeOldest cfg trimmed retires).1.length := by
    rw [freeOldest, prefix_iff_eq_append.mp (List.takeWhile_prefix _)]
    exact hlive
  exact (mem_append.mp hsplit).resolve_left hseq

/-- Freeing the oldest segments keeps the order. -/
theorem Ok.freeOldest (h : st.Ok) (trimmed : TimelineId → Lsn → Bool) (retires : ℕ → Bool) :
    (st.freeOldest cfg trimmed retires).2.Ok := by
  have hfacts := fun seq (hseq : seq ∈ (st.freeOldest cfg trimmed retires).1) =>
    freeable_iff.mp (freeable_of_mem_freed hseq)
  refine { h with
    cur_live := ?_, live_le := ?_, held := ?_, sealed_live := ?_, inflight_live := ?_,
    log_live := ?_, log_ends := ?_ }
  · exact mem_live_freeOldest h.cur_live fun hseq => lt_irrefl _ (hfacts _ hseq).1
  · intro seq hseq
    exact h.live_le seq (mem_of_mem_drop hseq)
  · intro seq hseq
    obtain ⟨hle, hnotReady, hnotLive⟩ := h.held seq hseq
    exact ⟨hle, hnotReady, fun hmem => hnotLive (mem_of_mem_drop hmem)⟩
  · intro u hu
    exact mem_live_freeOldest (h.sealed_live u hu) fun hseq => (hfacts _ hseq).2.1 u hu rfl
  · intro u hu
    exact mem_live_freeOldest (h.inflight_live u hu) fun hseq => (hfacts _ hseq).2.2.1 u hu rfl
  · intro r hr
    obtain ⟨hmem, hnot⟩ := mem_filter.mp hr
    simp only [decide_eq_true_eq] at hnot
    exact mem_live_freeOldest (h.log_live r hmem) hnot
  · intro r hr hkind
    obtain ⟨hmem, hnot⟩ := mem_filter.mp hr
    obtain ⟨e, he, hseq, hrest⟩ := h.log_ends r hmem hkind
    refine ⟨e, mem_filter.mpr ⟨he, ?_⟩, hseq, hrest⟩
    rw [hseq]
    exact hnot

end Free

/-! ## Prepared segments -/

theorem Ok.prepare (h : st.Ok) (recycle : Option ℕ) : (st.prepare cfg recycle).Ok := by
  unfold Journal.prepare
  split
  · split_ifs
    · refine { h.fresh (takeRecyclable recycle st.free) with held := ?_ }
      rintro seq ⟨⟩
      refine ⟨le_rfl, fun hmem => ?_, fun hmem => ?_⟩
      · exact absurd (h.ready_le _ hmem) (Nat.not_succ_le_self _)
      · exact absurd ((h.live_le _ hmem).trans h.cur_le) (Nat.not_succ_le_self _)
    · exact h
  · exact h

theorem Ok.zero (h : st.Ok) (i : ℕ) : (st.zero cfg i).Ok := by
  unfold Journal.zero
  split
  · next seq _ hseq =>
    obtain ⟨hi, hget⟩ := List.getElem?_eq_some_iff.mp hseq
    have hmem : seq ∈ st.ready := hget ▸ getElem_mem hi
    split_ifs
    · refine { h.of_sublist_ready (eraseIdx_sublist _ i) with held := ?_ }
      rintro r ⟨⟩
      refine ⟨h.ready_le seq hmem, ?_, ?_⟩
      · -- The numbers in the list are distinct, so the one taken out is gone.
        have hnodup : st.ready.Nodup := h.ready_sorted.imp fun hlt => hlt.ne
        rw [← hget, ← hnodup.erase_getElem i hi]
        exact hnodup.not_mem_erase
      · intro hlive
        exact absurd (h.live_le seq hlive) (h.cur_lt_ready seq hmem).not_ge
    · exact h
  · exact h

/-- What is in the preparer's hands is offered: it is retired or made ready. -/
theorem Ok.offer (h : st.Ok) {seq : ℕ} (hheld : seq ∈ st.preparer.seq) (retires : Bool) :
    (st.offer seq retires).2.Ok := by
  obtain ⟨hle, hnotReady, hnotLive⟩ := h.held seq hheld
  have hidle : Ok { st with preparer := .idle } := { h with held := by rintro r ⟨⟩ }
  unfold Journal.offer
  dsimp only
  split_ifs with hlt hretires
  · exact { hidle with }
  · exact hidle
  · have hcur : st.cur < seq :=
      lt_of_le_of_ne (not_lt.mp hlt) fun heq => hnotLive (heq ▸ h.cur_live)
    have hmem : ∀ r, r ∈ st.ready.orderedInsert (· ≤ ·) seq ↔ r = seq ∨ r ∈ st.ready := fun r =>
      mem_orderedInsert _
    refine { hidle with
      ready_sorted := ?_
      cur_lt_ready := fun r hr => ?_
      ready_le := fun r hr => ?_
      held := by rintro r ⟨⟩ }
    · have hle := (h.ready_sorted.imp fun hlt => le_of_lt hlt).orderedInsert seq
      have hnodup : (st.ready.orderedInsert (· ≤ ·) seq).Nodup :=
        (perm_orderedInsert (· ≤ ·) seq st.ready).nodup_iff.mpr
          (nodup_cons.mpr ⟨hnotReady, h.ready_sorted.imp fun hlt => hlt.ne⟩)
      exact (hle.and hnodup).imp fun hboth => lt_of_le_of_ne hboth.1 hboth.2
    · rcases (hmem r).mp hr with rfl | hr
      · exact hcur
      · exact h.cur_lt_ready r hr
    · rcases (hmem r).mp hr with rfl | hr
      · exact hle
      · exact h.ready_le r hr

theorem Ok.prepared (h : st.Ok) (res : IoResult) (retires : Bool) :
    (st.prepared res retires).2.Ok := by
  unfold Journal.prepared
  split
  · exact h
  · next hprep => exact h.offer (by simp [hprep, Preparer.seq]) retires
  · exact { h with held := by rintro r ⟨⟩ }
  · next hprep => exact h.offer (by simp [hprep, Preparer.seq]) retires

/-! ## Every reachable journal -/

theorem mem_files_of_mem_replayed (hr : r ∈ disk.replayed cfg) : r.placed.seq ∈ disk.files := by
  obtain ⟨seq, hseq, hmem⟩ := mem_flatMap.mp hr
  have hfilter := (List.takeWhile_prefix _).subset hmem
  obtain rfl : r.placed.seq = seq := by simpa using (mem_filter.mp hfilter).2
  exact hseq

theorem covers_foldl_noteEnd (records : List Logged) (hr : r ∈ records ∨ Covers ends r) :
    Covers (records.foldl (fun ends r => noteEnd r.placed.seq r.header ends) ends) r := by
  induction records generalizing ends with
  | nil => exact hr.resolve_left (by simp)
  | cons r' records ih =>
    apply ih
    rcases hr with hr | hr
    · rcases mem_cons.mp hr with rfl | hr
      · exact .inr (covers_noteEnd (.inl ⟨rfl, rfl⟩))
      · exact .inl hr
    · exact .inr (covers_noteEnd (.inr hr))

/-- The writer of an opened journal starts above the numbers in the directory. -/
theorem lt_cur_opened {seq : ℕ} (hseq : seq ∈ disk.files) : seq < (opened cfg disk).cur :=
  Nat.lt_succ_of_le (le_max_of_le' 0 (mem_append_left _ hseq) le_rfl)

/-- A journal that was opened is in order. -/
theorem ok_opened (cfg : JournalConfig) (disk : Disk) : (opened cfg disk).Ok where
  ready_sorted := by
    rw [opened, pairwise_map]
    exact pairwise_lt_range.imp fun hlt => Nat.add_lt_add_left hlt _
  cur_lt_ready := by
    simp only [opened, mem_map]
    rintro _ ⟨i, -, rfl⟩
    omega
  ready_le := by
    simp only [opened, mem_map, List.mem_range]
    rintro _ ⟨i, hi, rfl⟩
    omega
  cur_live := mem_append_right _ (mem_singleton.mpr rfl)
  live_le := forall_mem_concat.mpr
    ⟨fun _ hseq => (lt_cur_opened (mem_of_mem_filter hseq)).le, le_rfl⟩
  cur_le := by
    simp only [opened]
    omega
  held := by rintro seq ⟨⟩
  sealed_live := by rintro u ⟨⟩
  inflight_live := by rintro u ⟨⟩
  engines_inflight := by rintro u ⟨⟩
  ids_lt := by rintro u ⟨⟩
  ids_nodup := nodup_nil
  log_live := by
    intro r hr
    obtain ⟨r, hmem, rfl⟩ := mem_map.mp hr
    apply mem_append_left
    apply mem_filter.mpr
    have hfile : r.placed.seq ∈ disk.files := mem_files_of_mem_replayed hmem
    exact ⟨hfile, any_eq_true.mpr ⟨r, hmem, by simp⟩⟩
  log_ends := by
    intro r hr
    obtain ⟨r, hmem, rfl⟩ := mem_map.mp hr
    have hcovers : Covers (opened cfg disk).ends r :=
      covers_foldl_noteEnd (disk.replayed cfg) (.inl hmem)
    exact hcovers

theorem Ok.step (h : st.Ok) (s : Step) : (st.step cfg s).2.Ok := by
  cases s with
  | append inline header payload => exact h.append inline header payload
  | take => exact h.take
  | complete ids res => exact h.complete ids res
  | free trimmed retires => exact h.freeOldest (mayGo trimmed) retires
  | prepare recycle => exact h.prepare recycle
  | zero i => exact h.zero i
  | prepared res retires => exact h.prepared res retires

theorem ok_run (cfg : JournalConfig) (disk : Disk) (steps : List Step) :
    (run (step cfg) (opened cfg disk) steps).Ok :=
  run_induction (ok_opened cfg disk) fun _ s _ h => h.step s

/-! ## The durable position -/

/-- What the journal keeps about completed units. -/
def tracker (st : Journal) : ℕ × List ℕ × Durable := (st.durable, st.done, st.reported)

/-- What making room for a record and taking units leave alone: the completed units, the
log and the failure. -/
def kept (st : Journal) : (ℕ × List ℕ × Durable) × List Logged × Option String :=
  (st.tracker, st.log, st.failed)

theorem kept_sealOpen (st : Journal) : st.sealOpen.kept = st.kept := by
  unfold sealOpen
  split <;> rfl

theorem kept_roomy (hroom : Roomy inline st st') : st'.kept = st.kept := by
  rcases hroom with rfl | rfl | rfl
  · rfl
  · exact kept_sealOpen st
  · rw [← kept_sealOpen st]
    unfold rollover
    split
    · rfl
    · dsimp only
      split <;> rfl

theorem kept_take (st : Journal) : st.take.kept = st.kept := by
  obtain ⟨st', hroom, heq | ⟨u, sealed, -, heq⟩⟩ := take_cases st <;> rw [heq]
  · exact kept_roomy hroom
  · exact (kept_roomy hroom :)

/-- Only a completion moves what the journal keeps about completed units. -/
theorem tracker_step (cfg : JournalConfig) (st : Journal) (s : Step) :
    (st.step cfg s).2.tracker = st.tracker ∨ ∃ ids res, s = .complete ids res := by
  rcases step_cases cfg st s with ⟨inline, header, payload, rfl⟩ | rfl | ⟨ids, res, rfl⟩ |
    ⟨trimmed, retires, rfl⟩ | ⟨ready, free, maxSeq, preparer, heq⟩
  · obtain ⟨st', hroom, ⟨e, heq⟩ | ⟨-, heq⟩⟩ := append_cases cfg st inline header payload <;>
      simp only [step, heq]
    · exact .inl (congrArg Prod.fst (kept_roomy hroom))
    · exact .inl (congrArg Prod.fst (kept_roomy hroom))
  · exact .inl (congrArg Prod.fst (kept_take st))
  · exact .inr ⟨ids, res, rfl⟩
  · exact .inl rfl
  · rw [heq]
    exact .inl rfl

/-- The loop moves the position over finished units only. -/
theorem advance_spec (fuel : ℕ) (done : List ℕ) (durable : ℕ) :
    durable ≤ (advance fuel done durable).1 ∧
      (∀ i, i ≤ (advance fuel done durable).1 → i ≤ durable ∨ i ∈ done) ∧
      ∀ i ∈ (advance fuel done durable).2, i ∈ done := by
  induction fuel generalizing done durable with
  | zero => exact ⟨le_rfl, fun i hi => .inl hi, fun i hi => hi⟩
  | succ fuel ih =>
    unfold advance
    split_ifs with hnext
    · obtain ⟨hle, hdurable, hdone⟩ := ih (done.filter (· ≠ durable + 1)) (durable + 1)
      refine ⟨(Nat.le_succ _).trans hle, fun i hi => ?_, fun i hi => ?_⟩
      · rcases hdurable i hi with hi | hi
        · rcases Nat.le_succ_iff.mp hi with hi | rfl
          · exact .inl hi
          · exact .inr hnext
        · exact .inr (mem_of_mem_filter hi)
      · exact mem_of_mem_filter (hdone i hi)
    · exact ⟨le_rfl, fun i hi => .inl hi, fun i hi => hi⟩

/-- A unit was written: an engine that held it reported success. -/
def Written (cfg : JournalConfig) (disk : Disk) (steps : List Step) (i : ℕ) : Prop :=
  ∃ pre ids post, steps = pre ++ .complete ids (.ok ()) :: post ∧ i ∈ ids ∧
    ∃ u ∈ (run (step cfg) (opened cfg disk) pre).engines, u.id = i

theorem Written.append {steps : List Step} {i : ℕ} (h : Written cfg disk steps i) (s : Step) :
    Written cfg disk (steps ++ [s]) i := by
  obtain ⟨pre, ids, post, rfl, hi, hu⟩ := h
  exact ⟨pre, ids, post ++ [s], by simp, hi, hu⟩

/-- The units that count as finished were written, and the report stays behind. -/
structure Tracked (cfg : JournalConfig) (disk : Disk) (steps : List Step)
    (t : ℕ × List ℕ × Durable) : Prop where
  written : ∀ i, 1 ≤ i → i ≤ t.1 ∨ i ∈ t.2.1 → Written cfg disk steps i
  reported_le : t.2.2.unit ≤ t.1

/-- The tracker knows the units that were submitted and completed. -/
theorem tracked_run (cfg : JournalConfig) (disk : Disk) (steps : List Step) :
    Tracked cfg disk steps (run (step cfg) (opened cfg disk) steps).tracker := by
  induction steps using List.reverseRecOn with
  | nil =>
    refine ⟨fun i hi hfinished => ?_, le_rfl⟩
    rcases hfinished with hle | hmem
    · exact absurd (hi.trans hle) (Nat.not_succ_le_zero 0)
    · cases hmem
  | append_singleton steps s ih =>
    rw [run_concat]
    generalize hst : run (step cfg) (opened cfg disk) steps = st at ih ⊢
    rcases tracker_step cfg st s with hsame | ⟨ids, res, rfl⟩
    · rw [hsame]
      exact ⟨fun i hi hfinished => (ih.written i hi hfinished).append s, ih.reported_le⟩
    · cases res with
      | error e => exact ⟨fun i hi hfinished => (ih.written i hi hfinished).append _, le_rfl⟩
      | ok _ =>
        refine ⟨fun i hi hfinished => ?_, ?_⟩
        · have hold : i ≤ st.durable ∨ i ∈ st.done ++
              (st.engines.filter (·.id ∈ ids)).map FlushUnit.id := by
            obtain ⟨-, hdurable, hdone⟩ := advance_spec _ (st.done ++
              (st.engines.filter (·.id ∈ ids)).map FlushUnit.id) st.durable
            rcases hfinished with hle | hmem
            · exact hdurable i hle
            · exact .inr (hdone i hmem)
          rcases hold with hle | hmem
          · exact (ih.written i hi (.inl hle)).append _
          · rcases mem_append.mp hmem with hmem | hmem
            · exact (ih.written i hi (.inr hmem)).append _
            · obtain ⟨u, hu, rfl⟩ := mem_map.mp hmem
              obtain ⟨hheld, hids⟩ := mem_filter.mp hu
              exact ⟨steps, ids, [], rfl, by simpa using hids, u, hst ▸ hheld, rfl⟩
        · simp only [tracker, step, complete]
          split_ifs
          · exact le_rfl
          · exact ih.reported_le.trans (advance_spec _ _ _).1

/-- A completion does not lower the report, since it never runs ahead of the durable units. -/
theorem reported_le_step (hreported : st.reported.unit ≤ st.durable) (s : Step) :
    st.reported.unit ≤ (st.step cfg s).2.reported.unit := by
  rcases tracker_step cfg st s with hsame | ⟨ids, res, rfl⟩
  · exact (congrArg (fun t => t.2.2.unit) hsame).ge
  · cases res with
    | error e => exact hreported
    | ok _ =>
      simp only [step, complete]
      split_ifs
      · exact hreported.trans (advance_spec _ _ _).1
      · exact le_rfl

/-! ## The writer's segments -/

/-- The writer stays in its segment, at or after where it was, or goes on in a higher one. -/
def Advances (st st' : Journal) : Prop :=
  (st'.cur = st.cur ∧ st.nextOff ≤ st'.nextOff) ∨ st.cur < st'.cur

theorem advances_sealOpen (st : Journal) : Advances st st.sealOpen := by
  unfold sealOpen
  split
  · exact .inl ⟨rfl, le_rfl⟩
  · exact .inl ⟨rfl, Nat.le_add_right _ _⟩

theorem advances_rollover (h : st.Ok) (inline : Inline) : Advances st (st.rollover inline).2 := by
  unfold rollover
  split
  · next next ready hready => exact .inr (h.cur_lt_ready next (by simp [hready]))
  · dsimp only
    split
    · exact .inl ⟨rfl, le_rfl⟩
    · exact .inr (Nat.lt_succ_of_le h.cur_le)

theorem Advances.trans {st st'' : Journal} (h : Advances st st') (h' : Advances st' st'') :
    Advances st st'' := by
  unfold Advances at *
  omega

theorem advances_roomy (h : st.Ok) (hroom : Roomy inline st st') : Advances st st' := by
  rcases hroom with rfl | rfl | rfl
  · exact .inl ⟨rfl, le_rfl⟩
  · exact advances_sealOpen st
  · exact (advances_sealOpen st).trans (advances_rollover h.sealOpen inline)

theorem advances_step (h : st.Ok) (s : Step) : Advances st (st.step cfg s).2 := by
  have hstay : Advances st st := .inl ⟨rfl, le_rfl⟩
  rcases step_cases cfg st s with ⟨inline, header, payload, rfl⟩ | rfl | ⟨ids, res, rfl⟩ |
    ⟨trimmed, retires, rfl⟩ | ⟨ready, free, maxSeq, preparer, heq⟩
  · obtain ⟨st', hroom, ⟨e, heq⟩ | ⟨-, heq⟩⟩ := append_cases cfg st inline header payload <;>
      simp only [step, heq]
    · exact advances_roomy h hroom
    · exact (advances_roomy h hroom :)
  · obtain ⟨st', hroom, heq | ⟨u, sealed, -, heq⟩⟩ := take_cases st <;> simp only [step, heq]
    · exact advances_roomy h hroom
    · exact (advances_roomy h hroom :)
  · cases res <;> exact hstay
  · exact hstay
  · rw [heq]
    exact hstay

/-! ## What the journal guarantees -/

/-- Nothing that is still to be written lies in the segment: no unit that an engine holds or
that waits for one, and not the open unit. -/
def Quiet (st : Journal) (seq : ℕ) : Prop :=
  (∀ u ∈ st.sealed ++ st.engines, u.seq ≠ seq) ∧ st.cur ≠ seq

/-- Every Append record of the segment ends at or below its timeline's bound. -/
def Released (st : Journal) (trimmed : TimelineId → Option Lsn) (seq : ℕ) : Prop :=
  ∀ r ∈ st.log, r.placed.seq = seq → r.header.kind = .append →
    ∃ bound ∈ trimmed r.header.tl, r.header.endLsn ≤ bound

/-- The bounds that the owner gives with a step; none, but for a step that frees. -/
def Step.bounds : Step → TimelineId → Option Lsn
  | .free trimmed _ => trimmed
  | _ => fun _ => none

theorem Ok.quiet (h : st.Ok) {seq : ℕ} (hseq : seq ∉ st.live) : st.Quiet seq := by
  refine ⟨fun u hu heq => hseq ?_, fun heq => hseq (heq ▸ h.cur_live)⟩
  rw [← heq]
  rcases mem_append.mp hu with hu | hu
  · exact h.sealed_live u hu
  · exact h.inflight_live u (h.engines_inflight u hu)

theorem Ok.quiet_of_mem_freed (h : st.Ok) {trimmed : TimelineId → Option Lsn}
    {retires : ℕ → Bool} {seq : ℕ} (hseq : seq ∈ (st.freeOldest cfg (mayGo trimmed) retires).1) :
    st.Quiet seq ∧ st.Released trimmed seq := by
  obtain ⟨hlt, hsealed, hinflight, hends⟩ := freeable_iff.mp (freeable_of_mem_freed hseq)
  refine ⟨⟨fun u hu => ?_, hlt.ne'⟩, fun r hr hrseq hkind => ?_⟩
  · rcases mem_append.mp hu with hu | hu
    · exact hsealed u hu
    · exact hinflight u (h.engines_inflight u hu)
  · obtain ⟨e, he, heseq, htl, hle⟩ := h.log_ends r hr hkind
    obtain ⟨bound, hbound, hstop⟩ := mayGo_iff.mp (hends e he (heseq.trans hrseq))
    rw [htl] at hbound
    exact ⟨bound, hbound, hle.trans hstop⟩

/-- A segment that a step hands over was in the preparer's hands, or is freed. -/
theorem Ok.quiet_of_mem_step (h : st.Ok) (s : Step) {seq : ℕ} (hseq : seq ∈ (st.step cfg s).1) :
    st.Quiet seq ∧ st.Released s.bounds seq := by
  have hoffer : ∀ seq', seq' ∈ st.preparer.seq → ∀ retires, seq ∈ (st.offer seq' retires).1 →
      st.Quiet seq ∧ st.Released s.bounds seq := by
    intro seq' hheld retires hmem
    have heq : seq = seq' := by
      unfold Journal.offer at hmem
      dsimp only at hmem
      split_ifs at hmem
      · exact mem_singleton.mp hmem
      · cases hmem
      · cases hmem
    subst heq
    have hnotLive := (h.held seq hheld).2.2
    exact ⟨h.quiet hnotLive, fun r hr hrseq => absurd (hrseq ▸ h.log_live r hr) hnotLive⟩
  cases s with
  | free trimmed retires => exact h.quiet_of_mem_freed hseq
  | prepared res retires =>
    simp only [Journal.step, Journal.prepared] at hseq
    split at hseq
    · cases hseq
    · next hprep => exact hoffer _ (by simp [hprep, Preparer.seq]) retires hseq
    · cases hseq
    · next hprep => exact hoffer _ (by simp [hprep, Preparer.seq]) retires hseq
  | append inline header payload => cases hseq
  | take => cases hseq
  | complete ids res => cases hseq
  | prepare recycle => cases hseq
  | zero i => cases hseq

/-- In every run of an opened journal, whatever order the units complete in: the reported
position covers only units that were written, and no step lowers it; the writer's
segments ascend; and a segment goes to the free list only when nothing in it is
still to be written and none of its records is above its timeline's bound. -/
theorem journal_reports_prefix (cfg : JournalConfig) (disk : Disk) (steps : List Step) :
    (∀ i, 1 ≤ i → i ≤ (run (step cfg) (opened cfg disk) steps).reported.unit →
      Written cfg disk steps i) ∧
    ∀ s, let st := run (step cfg) (opened cfg disk) steps
      st.reported.unit ≤ (st.step cfg s).2.reported.unit ∧
      Advances st (st.step cfg s).2 ∧
      ∀ seq ∈ (st.step cfg s).1, st.Quiet seq ∧ st.Released s.bounds seq := by
  have hok := ok_run cfg disk steps
  have htracked := tracked_run cfg disk steps
  refine ⟨fun i hi hle => ?_, fun s => ⟨?_, ?_, fun seq hseq => ?_⟩⟩
  · exact htracked.written i hi (.inl (hle.trans htracked.reported_le))
  · exact reported_le_step htracked.reported_le s
  · exact advances_step hok s
  · exact hok.quiet_of_mem_step s hseq

end Loams.Safekeeper.Journal
