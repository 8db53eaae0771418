/-
# What a manifest of a counter table accounts for
-/

import Loams.Link.Apply
import Mathlib.Algebra.BigOperators.Group.Finset.Basic

namespace Loams.Link

open List hiding beq_eq_decide
open Loams.Control Loams.Data Loams.Log Loams.Meta Std Std.ExtTreeMap Manifest

/-! ## Sums by key -/

/-- The sum of the deltas of one counter. -/
def sumOf (key : String) : List (String × Int64) → Option Int64
  | [] => none
  | e :: rest => if e.1 = key then some (e.2 + (sumOf key rest).getD 0) else sumOf key rest

section Sums

variable {counters : BTreeMap String Int64} {entries : List (String × Int64)} {key : String}

theorem get_foldl_addDelta : (entries.foldl addDelta counters)[key]? =
    match sumOf key entries with
    | none => counters[key]?
    | some s => some (counters.getD key 0 + s) := by
  induction entries generalizing counters with
  | nil => rfl
  | cons e entries ih =>
    rw [foldl_cons, ih, addDelta, sumOf]
    by_cases he : e.1 = key
    · subst he
      rw [if_pos rfl]
      cases sumOf e.1 entries with
      | none => simp
      | some s => simp [getD_insert_self, Int64.add_assoc]
    · rw [if_neg he]
      cases sumOf key entries with
      | none => simp [get_insert, he]
      | some s => simp [getD_insert, he]

theorem get_tally : (tally entries)[key]? = sumOf key entries := by
  rw [tally, get_foldl_addDelta]
  cases sumOf key entries with
  | none => rfl
  | some s => simp

/-- Of a map with one entry for each key, the sum is the entry. -/
theorem sumOf_toList (m : BTreeMap String Int64) : sumOf key m.toList = m[key]? := by
  have hsum : ∀ l : List (String × Int64), (l.Pairwise fun a b => a.1 ≠ b.1) →
      ∀ v, sumOf key l = some v ↔ (key, v) ∈ l := by
    intro l hl
    induction l with
    | nil => simp [sumOf]
    | cons e l ih =>
      rw [pairwise_cons] at hl
      intro v
      by_cases he : e.1 = key
      · subst he
        have hnot : ∀ v, (e.1, v) ∉ l := fun v hin => hl.1 _ hin rfl
        have hnone : sumOf e.1 l = none :=
          Option.eq_none_iff_forall_ne_some.mpr fun v hv => hnot v ((ih hl.2 v).mp hv)
        simp [sumOf, hnone, hnot, Prod.ext_iff, eq_comm]
      · simp [sumOf, he, ih hl.2, Prod.ext_iff, Ne.symm he]
  ext v : 1
  rw [hsum _ (pairwise_fst_toList m), mem_toList_iff_getElem?_eq_some]

/-- The sums are those of the deltas of each counter, in wrapping arithmetic. -/
theorem getD_tally : (tally entries).getD key 0 = ((entries.filter (·.1 = key)).map (·.2)).sum := by
  have hsum : (sumOf key entries).getD 0 = ((entries.filter (·.1 = key)).map (·.2)).sum := by
    induction entries with
    | nil => rfl
    | cons e entries ih =>
      by_cases he : e.1 = key
      · simp [sumOf, he, ih]
      · simp [sumOf, he, ih]
  rw [getD_eq_getD_getElem?, get_tally, hsum]

end Sums

/-! ## Offsets below the applied ones -/

/-- The partition and the offset. -/
def position (x : ℕ × Fetched) : ℕ × ℕ := (x.1, x.2.offset)

/-- The offsets that a manifest has applied or skipped. -/
def Manifest.below (m : Manifest) : List (ℕ × ℕ) :=
  m.applied.toList.flatMap fun e => (List.range e.2).map (e.1, ·)

section Below

variable {m : Manifest}

theorem Manifest.mem_below {p o : ℕ} : (p, o) ∈ m.below ↔ o < m.appliedAt p := by
  rw [below, mem_flatMap, appliedAt, getD_eq_getD_getElem?]
  constructor
  · rintro ⟨e, he, hin⟩
    obtain ⟨o', ho', heq⟩ := mem_map.mp hin
    obtain ⟨rfl, rfl⟩ := Prod.mk.inj heq
    rw [mem_toList_iff_getElem?_eq_some.mp he]
    exact mem_range.mp ho'
  · intro h
    cases hget : m.applied[p]? with
    | none =>
      rw [hget] at h
      exact absurd h (Nat.not_lt_zero o)
    | some stop =>
      rw [hget] at h
      exact ⟨(p, stop), mem_toList_iff_getElem?_eq_some.mpr hget,
        mem_map.mpr ⟨o, mem_range.mpr h, rfl⟩⟩

theorem Manifest.map_position_subset {l : List (ℕ × Fetched)}
    (h : ∀ x ∈ l, x.2.offset < m.appliedAt x.1) : l.map position ⊆ m.below := by
  intro a ha
  obtain ⟨x, hx, rfl⟩ := mem_map.mp ha
  exact mem_below.mpr (h x hx)

theorem Manifest.nodup_below (m : Manifest) : m.below.Nodup := by
  rw [below, nodup_flatMap]
  constructor
  · intro e _
    exact nodup_range.map fun a b h => (Prod.mk.inj h).2
  · refine (pairwise_fst_toList m.applied).imp fun hne => ?_
    intro x hx hy
    obtain ⟨o, -, rfl⟩ := mem_map.mp hx
    obtain ⟨o', -, heq⟩ := mem_map.mp hy
    exact hne (Prod.mk.inj heq).1.symm

theorem Manifest.length_below (m : Manifest) : m.below.length = m.applied.total fun _ o => o := by
  rw [below, length_flatMap, total]
  simp

end Below

/-- Removing some members of a list without repetitions leaves the rest. -/
theorem length_filter_not_mem {α : Type*} [BEq α] [LawfulBEq α] {l s : List α} (hl : l.Nodup)
    (hs : s.Nodup) (hsub : s ⊆ l) : (l.filter (· ∉ s)).length + s.length = l.length := by
  have hperm : (l.filter (· ∈ s)).Perm s := by
    refine (perm_ext_iff_of_nodup (hl.filter _) hs).mpr fun a => ?_
    rw [mem_filter, decide_eq_true_iff]
    exact ⟨fun h => h.2, fun h => ⟨hsub h, h⟩⟩
  have hlength := length_eq_length_filter_add (l := l) fun a => decide (a ∈ s)
  rw [hperm.length_eq] at hlength
  simp only [decide_not]
  omega

/-- Counting by class, over all classes, counts everything. -/
theorem sum_map_countP {α β : Type*} [DecidableEq β] {f : α → β} {ks : List β} (hks : ks.Nodup)
    {xs : List α} (h : ∀ x ∈ xs, f x ∈ ks) :
    (ks.map fun k => xs.countP fun x => f x = k).sum = xs.length := by
  have hclasses : ∀ k ∈ (↑(xs.map f) : Multiset β), k ∈ ks.toFinset := by simpa using h
  have hsum := Multiset.sum_count_eq_card hclasses
  rw [sum_toFinset _ hks, Multiset.coe_card, length_map] at hsum
  simpa [count_eq_countP, countP_map, Function.comp_def, beq_eq_decide] using hsum

/-! ## What a commit computes of its batch -/

variable {ends : List (ℕ × ℕ)}

section Deltas

variable {ps : Parsers} {parent : Manifest} {batch : ApplyBatch}

/-- Where a partition stands after the batch. -/
def ApplyBatch.reached (batch : ApplyBatch) (parent : Manifest) (partition : ℕ) : ℕ :=
  batch.appliedAfter.getD partition (parent.appliedAt partition)

theorem ApplyBatch.reached_of_mem {e : ℕ × ℕ} (he : e ∈ batch.appliedAfter.toList) :
    batch.reached parent e.1 = e.2 := by
  rw [ApplyBatch.reached, getD_eq_getD_getElem?,
    mem_toList_iff_getElem?_eq_some.mp he]
  rfl

/-- What the records of a batch add to the counters. -/
def entriesOf (ps : Parsers) (records : List (ℕ × Fetched)) : List (String × Int64) :=
  records.filterMap fun x => ps.delta x.2.record

theorem entriesOf_cons (x : ℕ × Fetched) (records : List (ℕ × Fetched)) :
    entriesOf ps (x :: records) = (ps.delta x.2.record).toList ++ entriesOf ps records := by
  rw [entriesOf, filterMap_cons]
  cases ps.delta x.2.record with
  | none => rfl
  | some entry => rfl

/-- A step adds the delta of its record, or skips it, and counts the record. -/
theorem deltaStep_ok {x : ℕ × Fetched} {acc acc' : BTreeMap String Int64 × ℕ × BTreeMap ℕ ℕ}
    (h : deltaStep ps parent batch acc x = .ok acc') :
    (parent.appliedAt x.1 ≤ x.2.offset ∧ x.2.offset < batch.reached parent x.1) ∧
      acc'.1 = (ps.delta x.2.record).toList.foldl addDelta acc.1 ∧
      acc'.2.1 + (ps.delta x.2.record).toList.length = acc.2.1 + 1 ∧
      ∀ p, acc'.2.2.getD p 0 = acc.2.2.getD p 0 + if x.1 = p then 1 else 0 := by
  obtain ⟨⟨⟩, hx, h⟩ := except_bind_ok.mp h
  refine ⟨require_eq_ok.mp hx, ?_⟩
  have hcount : ∀ p, (acc.2.2.insert x.1 (acc.2.2.getD x.1 0 + 1)).getD p 0 =
      acc.2.2.getD p 0 + if x.1 = p then 1 else 0 := by
    intro p
    rw [getD_insert]
    by_cases hp : x.1 = p
    · simp [hp]
    · simp [hp]
  cases hdelta : ps.delta x.2.record with
  | some entry | none =>
    rw [hdelta] at h
    cases h
    exact ⟨rfl, rfl, hcount⟩

theorem foldlM_deltaStep {records : List (ℕ × Fetched)}
    {acc acc' : BTreeMap String Int64 × ℕ × BTreeMap ℕ ℕ}
    (h : records.foldlM (deltaStep ps parent batch) acc = .ok acc') :
    acc'.1 = (entriesOf ps records).foldl addDelta acc.1 ∧
      acc'.2.1 + (entriesOf ps records).length = acc.2.1 + records.length ∧
      (∀ p, acc'.2.2.getD p 0 = acc.2.2.getD p 0 + records.countP (·.1 = p)) ∧
      ∀ x ∈ records, parent.appliedAt x.1 ≤ x.2.offset ∧ x.2.offset < batch.reached parent x.1 := by
  induction records generalizing acc with
  | nil =>
    cases h
    exact ⟨rfl, rfl, fun _ => rfl, fun _ h => nomatch h⟩
  | cons x records ih =>
    rw [foldlM_cons] at h
    obtain ⟨mid, hstep, hrest⟩ := except_bind_ok.mp h
    obtain ⟨hin, hsum, hskip, hcount⟩ := deltaStep_ok hstep
    obtain ⟨hsums, hskipped, hcounts, hrange⟩ := ih hrest
    rw [entriesOf_cons]
    refine ⟨?_, ?_, fun p => ?_, forall_mem_cons.mpr ⟨hin, hrange⟩⟩
    · rw [hsums, hsum, foldl_append]
    · rw [length_append, length_cons]
      omega
    · rw [hcounts, hcount, countP_cons]
      simp only [decide_eq_true_eq]
      omega

theorem foldlM_gapStep {counts : BTreeMap ℕ ℕ} {skipped skipped' : ℕ}
    (h : ends.foldlM (gapStep parent counts) skipped = .ok skipped') :
    (∀ e ∈ ends, parent.appliedAt e.1 ≤ e.2) ∧
      skipped' = skipped +
        (ends.map fun e => e.2 - parent.appliedAt e.1 - counts.getD e.1 0).sum := by
  induction ends generalizing skipped with
  | nil =>
    cases h
    exact ⟨(fun _ h => nomatch h), rfl⟩
  | cons e ends ih =>
    rw [foldlM_cons] at h
    obtain ⟨skipped₁, hstep, hrest⟩ := except_bind_ok.mp h
    obtain ⟨⟨⟩, he, hstep⟩ := except_bind_ok.mp hstep
    obtain ⟨hends, hsum⟩ := ih hrest
    cases hstep
    refine ⟨forall_mem_cons.mpr ⟨require_eq_ok.mp he, hends⟩, ?_⟩
    rw [hsum, map_cons, sum_cons]
    omega

/-- The sums of a batch are those of its records, and it skips the rest of what it covers. -/
theorem deltas_ok {sums : BTreeMap String Int64} {skipped : ℕ}
    (h : deltas ps parent batch = .ok (sums, skipped))
    (honce : (batch.records.map position).Nodup) : sums = tally (entriesOf ps batch.records) ∧
      (∀ p, parent.appliedAt p ≤ batch.reached parent p) ∧
      skipped + (entriesOf ps batch.records).length =
        (batch.appliedAfter.toList.map fun e => e.2 - parent.appliedAt e.1).sum := by
  obtain ⟨⟨sums₁, skipped₁, counts⟩, hrecords, h⟩ := except_bind_ok.mp h
  obtain ⟨skipped₂, hgaps, h⟩ := except_bind_ok.mp h
  cases h
  obtain ⟨hsums, hlength, hcounts, hrange⟩ := foldlM_deltaStep hrecords
  obtain ⟨hends, hsum⟩ := foldlM_gapStep hgaps
  have hforward : ∀ p, parent.appliedAt p ≤ batch.reached parent p := by
    intro p
    rw [ApplyBatch.reached, getD_eq_getD_getElem?]
    cases hget : batch.appliedAfter[p]? with
    | none => exact le_rfl
    | some stop => exact hends (p, stop) (mem_toList_iff_getElem?_eq_some.mpr hget)
  refine ⟨hsums, hforward, ?_⟩
  have hcount : ∀ e ∈ batch.appliedAfter.toList,
      batch.records.countP (·.1 = e.1) ≤ e.2 - parent.appliedAt e.1 := by
    intro e he
    -- the offsets of the partition's records are different and in its stretch
    have hsub : ((batch.records.filter (·.1 = e.1)).map position) ⊆
        (List.range' (parent.appliedAt e.1) (e.2 - parent.appliedAt e.1)).map (e.1, ·) := by
      intro y hy
      obtain ⟨x, hx, rfl⟩ := mem_map.mp hy
      obtain ⟨hx, hp⟩ := mem_filter.mp hx
      have hp : x.1 = e.1 := of_decide_eq_true hp
      obtain ⟨hlo, hhi⟩ := hrange x hx
      rw [hp] at hlo
      rw [hp, ApplyBatch.reached_of_mem he] at hhi
      refine mem_map.mpr ⟨x.2.offset, mem_range'_1.mpr ⟨hlo, by omega⟩, ?_⟩
      rw [position, hp]
    have hnodup : ((batch.records.filter (·.1 = e.1)).map position).Nodup :=
      honce.sublist (filter_sublist.map position)
    have hle := (subperm_of_subset hnodup hsub).length_le
    rw [length_map, length_map, length_range', ← countP_eq_length_filter] at hle
    exact hle
  have hkeys : (batch.appliedAfter.toList.map Prod.fst).Nodup :=
    pairwise_map.mpr (pairwise_fst_toList _)
  have hmem : ∀ x ∈ batch.records, x.1 ∈ batch.appliedAfter.toList.map Prod.fst := by
    intro x hx
    obtain ⟨hlo, hhi⟩ := hrange x hx
    cases hget : batch.appliedAfter[x.1]? with
    | none =>
      rw [ApplyBatch.reached, getD_eq_getD_getElem?, hget] at hhi
      exact absurd hlo (Nat.not_le.mpr hhi)
    | some stop =>
      exact mem_map.mpr ⟨(x.1, stop), mem_toList_iff_getElem?_eq_some.mpr hget, rfl⟩
  have hrecords : (batch.appliedAfter.toList.map fun e => batch.records.countP (·.1 = e.1)).sum =
      batch.records.length := by
    have hsum := sum_map_countP hkeys hmem
    rw [List.map_map] at hsum
    exact hsum
  have htotal : (batch.appliedAfter.toList.map fun e =>
        e.2 - parent.appliedAt e.1 - counts.getD e.1 0).sum + batch.records.length =
      (batch.appliedAfter.toList.map fun e => e.2 - parent.appliedAt e.1).sum := by
    rw [← hrecords, ← sum_map_add]
    refine congrArg sum (map_congr_left fun e he => ?_)
    rw [hcounts, getD_empty, zero_add, Nat.sub_add_cancel (hcount e he)]
  rw [hsum]
  dsimp only at hlength
  omega

end Deltas

/-! ## Accounts -/

/-- What a manifest has applied: the records in the list, each once, with their sums in
the counters. Every other offset below the applied ones is skipped: its record is no
delta, or it was trimmed. -/
structure Accounts (ps : Parsers) (log : ℕ → PartitionLog) (m : Manifest)
    (counters : BTreeMap String Int64) (applied : List (ℕ × Fetched)) : Prop where
  stored : ∀ x ∈ applied, (log x.1).records[x.2.offset]? = some x.2.record
  delta : ∀ x ∈ applied, (ps.delta x.2.record).isSome
  below : ∀ x ∈ applied, x.2.offset < m.appliedAt x.1
  once : (applied.map position).Nodup
  /-- A trimmed offset was below the start of the log that its fetch reported; a start never
  goes back, so it is below the start of now. -/
  rest : ∀ p o, o < m.appliedAt p → (p, o) ∉ applied.map position →
    (∃ record, (log p).records[o]? = some record ∧ ps.delta record = none) ∨ o < (log p).logStart
  skipped : m.skipped = min (m.below.filter (· ∉ applied.map position)).length u64Max
  counters : counters = tally (entriesOf ps applied)

/-- A batch covers a stretch of each partition: every offset of it has its record in the
batch, once, or was trimmed. -/
structure Covers (log : ℕ → PartitionLog) (parent : Manifest) (batch : ApplyBatch) : Prop where
  stored : ∀ x ∈ batch.records, (log x.1).records[x.2.offset]? = some x.2.record
  within : ∀ x ∈ batch.records, parent.appliedAt x.1 ≤ x.2.offset ∧
    x.2.offset < batch.reached parent x.1
  once : (batch.records.map position).Nodup
  rest : ∀ p o, parent.appliedAt p ≤ o → o < batch.reached parent p →
    (p, o) ∉ batch.records.map position → o < (log p).logStart

section Next

variable {ps : Parsers} {log : ℕ → PartitionLog} {parent : Manifest} {batch : ApplyBatch}
variable {counters sums : BTreeMap String Int64} {applied : List (ℕ × Fetched)} {skipped : ℕ}
variable {data : List LinkPath}

theorem appliedAt_nextManifest (p : ℕ) :
    (nextManifest parent batch data skipped).appliedAt p = batch.reached parent p := by
  rw [appliedAt, nextManifest, ApplyBatch.reached, getD_eq_getD_getElem?,
    getD_eq_getD_getElem?]
  rw [get_foldl_toList (fun o => o), appliedAt, getD_eq_getD_getElem?]
  cases batch.appliedAfter[p]? <;> rfl

theorem total_foldl_insert (hends : ends.Pairwise fun a b => a.1 ≠ b.1)
    (m : BTreeMap ℕ ℕ) (hle : ∀ e ∈ ends, m.getD e.1 0 ≤ e.2) :
    (ends.foldl (fun m e => m.insert e.1 e.2) m).total (fun _ o => o) =
      m.total (fun _ o => o) + (ends.map fun e => e.2 - m.getD e.1 0).sum := by
  induction ends generalizing m with
  | nil => rfl
  | cons e ends ih =>
    rw [pairwise_cons] at hends
    have hsame : ∀ e' ∈ ends, (m.insert e.1 e.2).getD e'.1 0 = m.getD e'.1 0 := by
      intro e' he'
      rw [getD_insert, if_neg]
      exact fun heq => hends.1 e' he' (LawfulEqOrd.eq_of_compare heq)
    have hinsert : (m.insert e.1 e.2).total (fun _ o => o) =
        m.total (fun _ o => o) + (e.2 - m.getD e.1 0) := by
      have he := hle e mem_cons_self
      rw [getD_eq_getD_getElem?] at he ⊢
      cases hget : m[e.1]? with
      | none =>
        rw [total_insert_of_none hget]
        simp [add_comm]
      | some old =>
        rw [hget] at he
        have htotal := total_insert_of_some (f := fun _ o => o) hget e.2
        simp only [Option.getD_some] at he ⊢
        omega
    have hmap : (ends.map fun e' => e'.2 - (m.insert e.1 e.2).getD e'.1 0) =
        ends.map fun e' => e'.2 - m.getD e'.1 0 :=
      map_congr_left fun e' he' => by rw [hsame e' he']
    rw [foldl_cons, ih hends.2 _ fun e' he' => ?_, hinsert, hmap, map_cons,
      sum_cons]
    · omega
    · rw [hsame e' he']
      exact hle e' (mem_cons_of_mem e he')

/-- The records of a batch that are applied. -/
def appliedOf (ps : Parsers) (records : List (ℕ × Fetched)) : List (ℕ × Fetched) :=
  records.filter fun x => (ps.delta x.2.record).isSome

theorem entriesOf_appliedOf (records : List (ℕ × Fetched)) :
    entriesOf ps (appliedOf ps records) = entriesOf ps records := by
  rw [entriesOf, appliedOf, filterMap_filter, entriesOf]
  congr 1
  funext x
  cases ps.delta x.2.record with
  | none => rfl
  | some entry => rfl

/-- The account of a manifest goes over to the manifest of a commit on it. -/
theorem Accounts.next (h : Accounts ps log parent counters applied)
    (hcovers : Covers log parent batch) (hdeltas : deltas ps parent batch = .ok (sums, skipped)) :
    Accounts ps log (nextManifest parent batch data skipped)
      (sums.toList.foldl addDelta counters) (applied ++ appliedOf ps batch.records) := by
  obtain ⟨hsums, hforward, hskipped⟩ := deltas_ok hdeltas hcovers.once
  have hmem : ∀ x, x ∈ appliedOf ps batch.records ↔
      x ∈ batch.records ∧ (ps.delta x.2.record).isSome := fun x => mem_filter
  set new := appliedOf ps batch.records
  have happlied : ∀ p, (nextManifest parent batch data skipped).appliedAt p = _ :=
    appliedAt_nextManifest
  set next := nextManifest parent batch data skipped
  have hdelta : ∀ x ∈ applied ++ new, (ps.delta x.2.record).isSome :=
    forall_mem_append.mpr ⟨h.delta, fun x hx => ((hmem x).mp hx).2⟩
  have hbelow : ∀ x ∈ applied ++ new, x.2.offset < next.appliedAt x.1 := by
    simp only [happlied]
    exact forall_mem_append.mpr ⟨fun x hx => (h.below x hx).trans_le (hforward x.1),
      fun x hx => (hcovers.within x ((hmem x).mp hx).1).2⟩
  have honce : ((applied ++ new).map position).Nodup := by
    rw [map_append, nodup_append]
    refine ⟨h.once, hcovers.once.sublist (filter_sublist.map position), ?_⟩
    -- what the parent applied is below its offsets, what the batch applies is not
    rintro a ha b hb rfl
    obtain ⟨x, hx, rfl⟩ := mem_map.mp ha
    obtain ⟨y, hy, heq⟩ := mem_map.mp hb
    obtain ⟨hp, ho⟩ := Prod.mk.inj heq
    have hlo := (hcovers.within y ((hmem y).mp hy).1).1
    rw [hp, ho] at hlo
    exact absurd (h.below x hx) (Nat.not_lt.mpr hlo)
  refine ⟨?_, hdelta, hbelow, honce, ?_, ?_, ?_⟩
  · exact forall_mem_append.mpr ⟨h.stored, fun x hx => hcovers.stored x ((hmem x).mp hx).1⟩
  · intro p o ho hnot
    rw [happlied] at ho
    rw [map_append, mem_append, not_or] at hnot
    rcases Nat.lt_or_ge o (parent.appliedAt p) with hold | hnew
    · exact h.rest p o hold hnot.1
    · by_cases hrecord : (p, o) ∈ batch.records.map position
      · obtain ⟨x, hx, heq⟩ := mem_map.mp hrecord
        obtain ⟨rfl, rfl⟩ := Prod.mk.inj heq
        refine .inl ⟨x.2.record, hcovers.stored x hx, ?_⟩
        by_contra hsome
        exact hnot.2 (mem_map.mpr ⟨x, (hmem x).mpr ⟨hx, Option.ne_none_iff_isSome.mp hsome⟩, rfl⟩)
      · exact .inr (hcovers.rest p o hnew ho hrecord)
  · have hnew := length_filter_not_mem (nodup_below _) honce (map_position_subset hbelow)
    have hold := length_filter_not_mem (nodup_below parent) h.once (map_position_subset h.below)
    have htotal : next.below.length = parent.below.length +
        (batch.appliedAfter.toList.map fun e => e.2 - parent.appliedAt e.1).sum := by
      rw [length_below, length_below]
      refine total_foldl_insert (pairwise_fst_toList _) parent.applied fun e he => ?_
      exact ApplyBatch.reached_of_mem he ▸ hforward e.1
    have hentries : (entriesOf ps batch.records).length = new.length := by
      rw [← entriesOf_appliedOf, entriesOf]
      exact filterMap_length_eq_length.mpr fun x hx => ((hmem x).mp hx).2
    rw [map_append, length_append, length_map, length_map] at hnew
    rw [length_map] at hold
    have hcount : (next.below.filter (· ∉ applied.map position ++ new.map position)).length =
        (parent.below.filter (· ∉ applied.map position)).length + skipped := by
      omega
    have hstored : next.skipped = min (parent.skipped + skipped) u64Max := rfl
    have hparent := h.skipped
    rw [map_append, hcount, hstored]
    omega
  · have hall : entriesOf ps (applied ++ new) =
        entriesOf ps applied ++ entriesOf ps batch.records := by
      rw [entriesOf, filterMap_append]
      exact congrArg (entriesOf ps applied ++ ·) (entriesOf_appliedOf batch.records)
    rw [hall, tally, foldl_append, ← tally, hsums, h.counters]
    -- Adding the sums of some entries is adding the entries.
    ext key : 1
    rw [get_foldl_addDelta, get_foldl_addDelta, sumOf_toList, get_tally]

end Next

end Loams.Link
