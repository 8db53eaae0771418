/-
# Gathered batches cover what they apply
-/

import Loams.Link.Accounts
import Mathlib.Data.Nat.ModEq

namespace Loams.Link

open List Loams.Control Loams.Data Std Std.ExtTreeMap ApplyBatch

/-! ## Stretches of a log -/

section Read

variable {log : PartitionLog} {offset count : ℕ}

@[simp] theorem PartitionLog.read_zero : log.read offset 0 = [] := by
  simp [PartitionLog.read]

theorem PartitionLog.read_succ : log.read offset (count + 1) =
    match log.records[offset]? with
    | none => []
    | some record => ⟨offset, record⟩ :: log.read (offset + 1) count := by
  unfold PartitionLog.read
  cases hget : log.records[offset]? with
  | none =>
    rw [drop_eq_nil_of_le (getElem?_eq_none_iff.mp hget)]
    rfl
  | some record =>
    obtain ⟨hlt, rfl⟩ := List.getElem?_eq_some_iff.mp hget
    rw [drop_eq_getElem_cons hlt, take_succ_cons, zipIdx_cons, map_cons]

theorem PartitionLog.map_offset_read (offset count : ℕ) :
    (log.read offset count).map (·.offset) = List.range' offset (log.read offset count).length := by
  rw [PartitionLog.read, List.map_map, length_map, length_zipIdx]
  exact zipIdx_map_snd _ _

/-- The records of a stretch are those of the log, one after the other. -/
theorem PartitionLog.mem_read {x : Fetched} (h : x ∈ log.read offset count) :
    log.records[x.offset]? = some x.record ∧ offset ≤ x.offset ∧
      x.offset < offset + (log.read offset count).length := by
  have hrange := mem_map_of_mem (f := Fetched.offset) h
  rw [PartitionLog.map_offset_read, mem_range'_1] at hrange
  refine ⟨?_, hrange⟩
  obtain ⟨y, hy, rfl⟩ := mem_map.mp h
  obtain ⟨hle, hget⟩ := mem_zipIdx_iff_le_and_getElem?_sub.mp hy
  rw [getElem?_take] at hget
  split_ifs at hget
  rwa [getElem?_drop, Nat.add_sub_cancel' hle] at hget

end Read

/-! ## Coverage -/

section Covers

variable {log : ℕ → PartitionLog} {parent : Manifest} {batch : ApplyBatch} {p stop : ℕ}

theorem ApplyBatch.reached_insert (q : ℕ) (records : List (ℕ × Fetched)) :
    (ApplyBatch.mk records (batch.appliedAfter.insert p stop)).reached parent q =
      if p = q then stop else batch.reached parent q := by
  rw [reached, getD_insert]
  by_cases hpq : p = q
  · simp [hpq]
  · simp [hpq, reached]

theorem covers_empty : Covers log parent {} where
  stored _ h := nomatch h
  within _ h := nomatch h
  once := nodup_nil
  rest p o hlo hhi _ := by
    simp only [reached, getD_empty] at hhi
    exact absurd hlo (Nat.not_le.mpr hhi)

/-- A batch that covers goes on covering when its partition advances over records and
trimmed offsets. -/
theorem Covers.extend (h : Covers log parent batch)
    (hforward : parent.appliedAt p ≤ batch.reached parent p) {count : ℕ} {xs : List Fetched}
    (hxs : xs = (log p).read (batch.reached parent p) count)
    (hstop : batch.reached parent p + xs.length ≤ stop)
    (hrest : ∀ o, batch.reached parent p + xs.length ≤ o → o < stop → o < (log p).logStart) :
    Covers log parent ⟨batch.records ++ xs.map (p, ·), batch.appliedAfter.insert p stop⟩ := by
  have hnew : ∀ x ∈ xs, (log p).records[x.offset]? = some x.record ∧
      batch.reached parent p ≤ x.offset ∧ x.offset < batch.reached parent p + xs.length := by
    subst hxs
    exact fun x hx => PartitionLog.mem_read hx
  have hoffsets : xs.map (·.offset) = List.range' (batch.reached parent p) xs.length := by
    subst hxs
    exact PartitionLog.map_offset_read _ _
  have hpositions : (xs.map (p, ·)).map position = (xs.map (·.offset)).map (p, ·) := by
    rw [List.map_map, List.map_map]
    rfl
  refine ⟨fun x hx => ?_, fun x hx => ?_, ?_, fun q o hlo hhi hnot => ?_⟩
  · rcases mem_append.mp hx with hx | hx
    · exact h.stored x hx
    · obtain ⟨y, hy, rfl⟩ := mem_map.mp hx
      exact (hnew y hy).1
  · rw [reached_insert]
    rcases mem_append.mp hx with hx | hx
    · obtain ⟨hlo, hhi⟩ := h.within x hx
      refine ⟨hlo, ?_⟩
      split_ifs with hq
      · rw [← hq] at hhi
        omega
      · exact hhi
    · obtain ⟨y, hy, rfl⟩ := mem_map.mp hx
      obtain ⟨-, hlo, hhi⟩ := hnew y hy
      rw [if_pos rfl]
      exact ⟨hforward.trans hlo, hhi.trans_le hstop⟩
  · rw [map_append, hpositions, hoffsets, nodup_append]
    refine ⟨h.once, (nodup_range' _ Nat.one_pos).map fun a b hab => (Prod.mk.inj hab).2, ?_⟩
    rintro a ha b hb rfl
    obtain ⟨x, hx, rfl⟩ := mem_map.mp ha
    obtain ⟨o, ho, heq⟩ := mem_map.mp hb
    obtain ⟨rfl, rfl⟩ := Prod.mk.inj heq
    exact absurd (h.within x hx).2 (Nat.not_lt.mpr (mem_range'_1.mp ho).1)
  · rw [map_append, mem_append, not_or] at hnot
    rw [reached_insert] at hhi
    split_ifs at hhi with hq
    · subst hq
      rcases Nat.lt_or_ge o (batch.reached parent p) with hold | hge
      · exact h.rest p o hlo hold hnot.1
      · refine hrest o ?_ hhi
        by_contra hlt
        refine hnot.2 ?_
        rw [hpositions, hoffsets]
        exact mem_map.mpr ⟨o, mem_range'_1.mpr ⟨hge, by omega⟩, rfl⟩
    · exact h.rest q o hlo hhi hnot.1

end Covers

/-! ## Gathering -/

/-- A gathering on a manifest: its batch covers, and the partition whose turn it is has
been fetched up to the offset. -/
structure Gathers (log : ℕ → PartitionLog) (parent : Manifest) (g : Gathering) : Prop where
  state : g.state = parent.state
  covers : Covers log parent g.batch
  forward : ∀ p, parent.appliedAt p ≤ g.batch.reached parent p
  offset : g.turn < g.partitions → g.offset = g.batch.reached parent g.partition
  visited : ∀ p ∈ g.batch.appliedAfter,
    ∃ turn ≤ g.turn, turn < g.partitions ∧ p = Gathering.partitionAt g.state g.partitions turn

section Gathers

variable {log : ℕ → PartitionLog} {parent : Manifest} {g : Gathering} {config : LinkConfig}

theorem ApplyBatch.reached_of_not_mem {batch : ApplyBatch} {p : ℕ} (h : p ∉ batch.appliedAfter) :
    batch.reached parent p = parent.appliedAt p := by
  rw [reached, getD_eq_fallback h]

theorem gathers_start (parent : Manifest) (partitions : ℕ) :
    Gathers log parent (.start parent.state partitions) where
  state := rfl
  covers := covers_empty
  forward p := by
    rw [reached_of_not_mem (not_mem_empty)]
  offset _ := by
    rw [reached_of_not_mem (not_mem_empty)]
    rfl
  visited p hp := absurd hp not_mem_empty

theorem Gathers.pass (h : Gathers log parent g) : Gathers log parent g.pass where
  state := h.state
  covers := h.covers
  forward := h.forward
  offset hturn := by
    have hfresh : g.pass.partition ∉ g.batch.appliedAfter := by
      intro hin
      obtain ⟨turn, hle, hlt, heq⟩ := h.visited _ hin
      -- No partition has two turns.
      have hsame : g.turn + 1 = turn :=
        (Nat.ModEq.add_left_cancel' _ heq).eq_of_lt_of_lt hturn hlt
      omega
    have hreached : g.pass.batch.reached parent g.pass.partition =
        parent.appliedAt g.pass.partition := reached_of_not_mem hfresh
    rw [hreached, Manifest.appliedAt]
    exact congrArg (fun s : TargetState => s.applied.getD g.pass.partition 0) h.state
  visited p hp := by
    obtain ⟨turn, hle, hlt, heq⟩ := h.visited p hp
    exact ⟨turn, hle.trans (Nat.le_succ _), hlt, heq⟩

/-- A partition advances over fetched records and trimmed offsets. -/
theorem Gathers.advance (h : Gathers log parent g) (hturn : g.turn < g.partitions) {count : ℕ}
    {xs : List Fetched} (hxs : xs = (log g.partition).read g.offset count) {stop bytes : ℕ}
    {full : Bool} (hstop : g.offset + xs.length ≤ stop)
    (hrest : ∀ o, g.offset + xs.length ≤ o → o < stop → o < (log g.partition).logStart) :
    Gathers log parent
      { g with
        offset := stop
        bytes := bytes
        full := full
        batch := ⟨g.batch.records ++ xs.map (g.partition, ·),
          g.batch.appliedAfter.insert g.partition stop⟩ } := by
  have hoffset := h.offset hturn
  rw [hoffset] at hxs hstop hrest
  refine ⟨h.state, h.covers.extend (h.forward _) hxs hstop hrest, fun p => ?_, fun _ => ?_,
    fun p hp => ?_⟩
  · rw [reached_insert]
    split_ifs with hp
    · subst hp
      exact (h.forward _).trans (by omega)
    · exact h.forward p
  · exact ((reached_insert _ _).trans (if_pos rfl)).symm
  · rcases mem_insert.mp hp with heq | hp
    · exact ⟨g.turn, le_rfl, hturn, (LawfulEqOrd.eq_of_compare heq).symm⟩
    · exact h.visited p hp

/-- Taking the records of a stretch takes a first part of it. -/
theorem Gathering.take_read (config : LinkConfig) (g : Gathering) (log : PartitionLog) (count : ℕ) :
    ∃ n bytes full, g.take config (log.read g.offset count) =
      { g with
        offset := g.offset + (log.read g.offset n).length
        bytes := bytes
        full := full
        batch := { g.batch with
          records := g.batch.records ++ (log.read g.offset n).map (g.partition, ·) } } := by
  induction count generalizing g with
  | zero =>
    refine ⟨0, g.bytes, g.full, ?_⟩
    simp [Gathering.take]
  | succ count ih =>
    rw [PartitionLog.read_succ]
    cases hget : log.records[g.offset]? with
    | none =>
      refine ⟨0, g.bytes, g.full, ?_⟩
      simp [Gathering.take]
    | some record =>
      dsimp only
      rw [Gathering.take]
      split_ifs with hfull
      · refine ⟨0, g.bytes, true, ?_⟩
        simp
      · obtain ⟨n, bytes, full, htake⟩ := ih
          { g with
            offset := g.offset + 1
            bytes := g.bytes + recordBytes record
            batch := { g.batch with
              records := g.batch.records ++ [(g.partition, ⟨g.offset, record⟩)] } }
        refine ⟨n + 1, bytes, full, ?_⟩
        rw [htake, PartitionLog.read_succ, hget]
        simp only [map_cons, length_cons, append_assoc, cons_append,
          nil_append, Gathering.partition]
        rw [Nat.add_assoc, Nat.add_comm 1]

/-- An answer extends the stretch of its partition. -/
theorem Gathers.answer (h : Gathers log parent g) (hturn : g.turn < g.partitions)
    {response : Response}
    (hresponse : match response with
      | .records xs _ => ∃ count, xs = (log g.partition).read g.offset count
      | .outOfRange logStart _ => logStart ≤ (log g.partition).logStart) :
    Gathers log parent (g.answer config response) := by
  cases response with
  | outOfRange logStart highWatermark =>
    dsimp only [Gathering.answer]
    split_ifs with hbehind
    · have hnone : ([] : List Fetched) = (log g.partition).read g.offset 0 :=
        PartitionLog.read_zero.symm
      have hadvance : Gathers log parent
          { g with
            offset := logStart
            batch := ⟨g.batch.records ++ [], g.batch.appliedAfter.insert g.partition logStart⟩ } :=
        h.advance hturn hnone hbehind.le fun o _ ho => ho.trans_le hresponse
      rw [append_nil] at hadvance
      exact hadvance
    · exact h.pass
  | records xs highWatermark =>
    obtain ⟨count, hxs⟩ := hresponse
    cases xs with
    | nil => exact h.pass
    | cons x rest =>
      obtain ⟨n, bytes, full, htake⟩ := g.take_read config (log g.partition) count
      rw [← hxs] at htake
      have hreach : Gathers log parent
          ((g.take config (x :: rest)).reach (g.take config (x :: rest)).offset) := by
        rw [htake]
        exact h.advance hturn rfl le_rfl fun o hlo hhi => absurd hlo (Nat.not_le.mpr hhi)
      dsimp only [Gathering.answer]
      split_ifs
      · exact hreach.pass
      · exact hreach

end Gathers

end Loams.Link
