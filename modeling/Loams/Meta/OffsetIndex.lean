/-
# The offset index as a list of entries
-/

import Loams.Data.Tiling
import Loams.Meta.Log

namespace Loams.Meta.PartitionState

open Loams.Data Std.ExtTreeMap List IndexEntry

/-- The index holds the entries in this order, each under its base offset, and
the byte count covers them. -/
structure Indexes (p : PartitionState) (es : List IndexEntry) : Prop where
  toList : p.index.toList = es.map fun e => (e.baseOffset, e)
  bytes : p.bytes = (es.map entryBytes).sum

/-- The entries tile the offsets from `first` to the next one. -/
abbrev Tiled : ℕ → List IndexEntry → ℕ → Prop :=
  Tiles baseOffset endOffset

/-- The partition's log is this list of entries, from offset `first` on. -/
structure Log (p : PartitionState) (first : ℕ) (es : List IndexEntry) : Prop
    extends p.Indexes es where
  tiles : Tiled first es p.nextOffset
  first_le : first ≤ p.logStartOffset
  start_le : p.logStartOffset ≤ p.nextOffset
  -- Only the first entry can start below the log start.
  readable : ∀ e ∈ es, p.logStartOffset < e.endOffset

variable {p q : PartitionState} {first base records : ℕ} {e : IndexEntry}
  {replaces : List (ℕ × String)} {mismatch : ApplyError}
variable {es pre run post : List IndexEntry}

/-! ## Reading the index -/

namespace Indexes

theorem entries_eq (h : p.Indexes es) : p.entries = es := by
  rw [entries, h.toList, List.map_map]
  exact map_id _

theorem get_iff (h : p.Indexes es) : p.index[base]? = some e ↔ e ∈ es ∧ e.baseOffset = base := by
  rw [← mem_toList_iff_getElem?_eq_some, h.toList, mem_map]
  constructor
  · rintro ⟨x, hx, heq⟩
    obtain ⟨rfl, rfl⟩ := Prod.mk.inj heq
    exact ⟨hx, rfl⟩
  · rintro ⟨he, rfl⟩
    exact ⟨e, he, rfl⟩

theorem eq_of_base_eq (h : p.Indexes es) {e' : IndexEntry} (he : e ∈ es) (he' : e' ∈ es)
    (hbase : e.baseOffset = e'.baseOffset) : e = e' := by
  have hget := h.get_iff.mpr ⟨he, hbase⟩
  rw [h.get_iff.mpr ⟨he', rfl⟩] at hget
  exact (Option.some.inj hget).symm

theorem pairwise_base (h : p.Indexes es) : es.Pairwise fun a b => a.baseOffset < b.baseOffset := by
  have hord := p.index.ordered_keys_toList
  rw [h.toList, pairwise_map] at hord
  exact hord.imp fun hab => Nat.compare_eq_lt.mp hab

section

variable (h : p.Indexes (pre ++ (run ++ post)))
include h

/-- The entries beside a run are those at other base offsets. -/
theorem mem_beside :
    e ∈ pre ++ post ↔ e.baseOffset ∉ run.map baseOffset ∧ e ∈ pre ++ (run ++ post) := by
  have hord := h.pairwise_base
  rw [pairwise_append, pairwise_append] at hord
  obtain ⟨-, ⟨-, -, hpost⟩, hpre⟩ := hord
  constructor
  · intro he
    refine ⟨fun hrun => ?_, by rcases mem_append.mp he with he | he <;> simp [he]⟩
    obtain ⟨x, hx, heq⟩ := mem_map.mp hrun
    rcases mem_append.mp he with he | he
    · exact (hpre e he x (by simp [hx])).ne' heq
    · exact (hpost x hx e he).ne heq
  · rintro ⟨hrun, he⟩
    have hnot : e ∉ run := fun he => hrun (mem_map_of_mem he)
    simpa [hnot] using he

theorem beside_get_iff :
    e ∈ pre ++ post ∧ e.baseOffset = base ↔
      (if base ∈ run.map baseOffset then none else p.index[base]?) = some e := by
  rw [h.mem_beside]
  split_ifs with hrun
  · simp only [iff_false]
    rintro ⟨⟨hnot, -⟩, rfl⟩
    exact hnot hrun
  · rw [h.get_iff, and_assoc, and_iff_right_iff_imp]
    rintro ⟨-, rfl⟩
    exact hrun

/-- Without a run of its entries an index has the others. -/
theorem get_without (hq : q.Indexes (pre ++ post)) (base : ℕ) :
    q.index[base]? = if base ∈ run.map baseOffset then none else p.index[base]? :=
  Option.ext fun _ => hq.get_iff.trans h.beside_get_iff

/-- With an entry in the place of a run an index has it and the others. -/
theorem get_replaced (hq : q.Indexes (pre ++ e :: post))
    (base : ℕ) : q.index[base]? =
      if base = e.baseOffset then some e
      else if base ∈ run.map baseOffset then none else p.index[base]? := by
  by_cases hbase : base = e.baseOffset
  · rw [if_pos hbase, hq.get_iff]
    exact ⟨by simp, hbase.symm⟩
  · have hother : ∀ x : IndexEntry, x.baseOffset = base →
        (x ∈ pre ++ e :: post ↔ x ∈ pre ++ post) := by
      rintro x rfl
      have hne : x ≠ e := fun heq => hbase (heq ▸ rfl)
      simp [hne]
    rw [if_neg hbase]
    exact Option.ext fun x =>
      (hq.get_iff.trans (and_congr_left (hother x))).trans h.beside_get_iff

end

theorem size_eq (h : p.Indexes es) : p.index.size = es.length := by
  rw [← length_toList, h.toList, length_map]

/-! ## Writing the index -/

/-- An entry goes where its base offset puts it. -/
theorem insertEntry (h : p.Indexes (pre ++ post))
    (hord : (pre ++ e :: post).Pairwise fun a b => a.baseOffset < b.baseOffset) :
    (p.insertEntry e).Indexes (pre ++ e :: post) ∧ (p.insertEntry e).nextOffset = p.nextOffset ∧
      (p.insertEntry e).logStartOffset = p.logStartOffset := by
  have hlist := h.toList
  rw [map_append] at hlist
  have hinsert : (p.index.insert e.baseOffset e).toList =
      (pre ++ e :: post).map fun e => (e.baseOffset, e) := by
    rw [map_append, map_cons]
    refine toList_insert_of_append hlist ?_
    rw [← map_cons (f := fun e : IndexEntry => (e.baseOffset, e)), ← map_append,
      pairwise_map]
    exact hord.imp fun hab => Nat.compare_eq_lt.mpr hab
  have hfresh : p.index[e.baseOffset]? = none := by
    refine Option.eq_none_iff_forall_ne_some.mpr fun x hx => ?_
    obtain ⟨hx, hbase⟩ := h.get_iff.mp hx
    have hne : (pre ++ e :: post).Pairwise fun a b => a.baseOffset ≠ b.baseOffset :=
      hord.imp fun hab => hab.ne
    have hfront := (pairwise_middle Ne.symm).mp hne
    exact rel_of_pairwise_cons hfront hx hbase.symm
  rw [PartitionState.insertEntry, hfresh]
  refine ⟨⟨hinsert, ?_⟩, rfl, rfl⟩
  simp only [h.bytes, map_append, map_cons, sum_append, sum_cons]
  omega

/-- An entry of the list is removed by its base offset. -/
theorem removeEntry (h : p.Indexes (pre ++ e :: post)) :
    ∃ q, p.removeEntry e.baseOffset = (some e, q) ∧ q.Indexes (pre ++ post) ∧
      q.nextOffset = p.nextOffset ∧ q.logStartOffset = p.logStartOffset := by
  have hget : p.index[e.baseOffset]? = some e := h.get_iff.mpr ⟨by simp, rfl⟩
  refine ⟨{ p with index := p.index.erase e.baseOffset, bytes := p.bytes - entryBytes e },
    by rw [PartitionState.removeEntry, hget], ⟨?_, ?_⟩, rfl, rfl⟩
  · have hlist := h.toList
    rw [map_append, map_cons] at hlist
    rw [map_append]
    exact toList_erase_of_append hlist
  · simp only [h.bytes, map_append, map_cons, sum_append, sum_cons]
    omega

/-- A run of entries is removed by its base offsets, in order. -/
theorem removeEntries (h : p.Indexes (pre ++ (run ++ post))) :
    ∃ q, p.removeEntries (run.map baseOffset) = (run, q) ∧ q.Indexes (pre ++ post) ∧
      q.nextOffset = p.nextOffset ∧ q.logStartOffset = p.logStartOffset := by
  induction run generalizing p with
  | nil => exact ⟨p, rfl, h, rfl, rfl⟩
  | cons e rest ih =>
    obtain ⟨p', hremove, hp', hnext, hstart⟩ := h.removeEntry
    obtain ⟨q, hrest, hq, hnext', hstart'⟩ := ih hp'
    refine ⟨q, ?_, hq, hnext'.trans hnext, hstart'.trans hstart⟩
    rw [map_cons, PartitionState.removeEntries, hremove]
    simp only [hrest]

/-- Popping takes the entries that end by the offset off the front, when there are
rounds for all of them. -/
theorem popAllBefore (h : p.Indexes es) (offset : ℕ) {fuel : ℕ} (hfuel : es.length ≤ fuel) :
    ∃ q, p.popAllBefore offset fuel = (es.takeWhile fun e => e.endOffset ≤ offset, q) ∧
      q.Indexes (es.dropWhile fun e => e.endOffset ≤ offset) ∧
      q.nextOffset = p.nextOffset ∧ q.logStartOffset = p.logStartOffset := by
  induction fuel generalizing p es with
  | zero =>
    obtain rfl := length_eq_zero_iff.mp (Nat.le_zero.mp hfuel)
    exact ⟨p, rfl, h, rfl, rfl⟩
  | succ fuel ih =>
    cases es with
    | nil =>
      have hempty : p.index.first? = none := by rw [first?, h.toList]; rfl
      refine ⟨p, ?_, h, rfl, rfl⟩
      rw [PartitionState.popAllBefore, popFirstBefore, hempty]
      rfl
    | cons e rest =>
      have hfirst : p.index.first? = some (e.baseOffset, e) := by rw [first?, h.toList]; rfl
      by_cases hend : e.endOffset ≤ offset
      · have hcons : p.Indexes ([] ++ e :: rest) := h
        obtain ⟨p', hremove, hp', hnext, hstart⟩ := hcons.removeEntry
        obtain ⟨q, hrest, hq, hnext', hstart'⟩ := ih hp' (Nat.le_of_succ_le_succ hfuel)
        refine ⟨q, ?_, ?_, hnext'.trans hnext, hstart'.trans hstart⟩
        · rw [PartitionState.popAllBefore, popFirstBefore, hfirst]
          simp only [hend, if_true, hremove, hrest, nil_append]
          rw [takeWhile_cons_of_pos (by simpa using hend)]
        · rw [dropWhile_cons_of_pos (by simpa using hend)]
          exact hq
      · refine ⟨p, ?_, ?_, rfl, rfl⟩
        · rw [PartitionState.popAllBefore, popFirstBefore, hfirst]
          simp only [hend, if_false]
          rw [takeWhile_cons_of_neg (by simpa using hend)]
        · rw [dropWhile_cons_of_neg (by simpa using hend)]
          exact h

end Indexes

/-! ## The operations of the log engine -/

/-- The head of a log that starts at the base offset of an entry is that entry. -/
theorem Indexes.head_of_base (h : p.Indexes (pre ++ es)) (htiles : Tiled first pre base)
    (htiles' : Tiled base es p.nextOffset) (hget : p.index[base]? = some e)
    (hend : e.baseOffset < p.nextOffset) : ∃ rest, es = e :: rest := by
  obtain ⟨hmem, rfl⟩ := h.get_iff.mp hget
  cases es with
  | nil =>
    have hnext : e.baseOffset = p.nextOffset := htiles'
    omega
  | cons x rest =>
    obtain rfl : e = x := h.eq_of_base_eq hmem (by simp) htiles'.1.symm
    exact ⟨rest, rfl⟩

/-- The entries a swap names are a run of the log from the expected base offset on,
all of them WAL entries, and their records add up to its length. -/
theorem Indexes.checkReplaced_ok
    {expected n : ℕ} (h : p.Indexes (pre ++ es)) (hpre : Tiled first pre expected)
    (hes : Tiled expected es p.nextOffset)
    (hok : p.checkReplaced mismatch replaces expected n = .ok records) :
    ∃ run post stop, es = run ++ post ∧ Tiled expected run stop ∧ Tiled stop post p.nextOffset ∧
      run.map (fun e => (e.baseOffset, e.object)) = replaces ∧ (∀ e ∈ run, e.kind = .wal) ∧
      records + expected = n + stop := by
  induction replaces generalizing pre es expected n with
  | nil =>
    obtain rfl : n = records := by simpa [checkReplaced] using hok
    exact ⟨[], es, expected, rfl, rfl, hes, rfl, by simp, rfl⟩
  | cons next rest ih =>
    obtain ⟨base, object⟩ := next
    rw [checkReplaced] at hok
    cases hget : p.index[base]? with
    | none => simp [hget] at hok
    | some e =>
      simp only [hget] at hok
      split_ifs at hok with hmatch hrecords
      push Not at hmatch
      obtain ⟨rfl, hkind, rfl⟩ := hmatch
      have hlog : Tiled first (pre ++ es) p.nextOffset := hpre.append hes
      obtain ⟨hmem, hbase⟩ := h.get_iff.mp hget
      have hbounds := hlog.bounds_of_mem hmem
      obtain ⟨es, rfl⟩ := h.head_of_base hpre hes hget (by omega)
      obtain ⟨-, hlt, hes⟩ := hes
      have hpre' : Tiled first (pre ++ [e]) e.endOffset := hpre.append ⟨hbase, hlt, rfl⟩
      have h' : p.Indexes (pre ++ [e] ++ es) := by simpa using h
      obtain ⟨run, post, stop, rfl, hrun, hpost, hmap, hwal, hsum⟩ := ih h' hpre' hes hok
      refine ⟨e :: run, post, stop, rfl, ⟨hbase, hlt, hrun⟩, hpost, ?_, ?_, ?_⟩
      · rw [map_cons, hmap, hbase]
      · simpa [hkind] using hwal
      · rw [endOffset, hbase] at hsum
        omega

/-- A swap that passes the checks starts at an entry of the index. -/
theorem exists_get_of_checkReplaced (hfirst : replaces.head?.map Prod.fst = some base)
    (hok : p.checkReplaced mismatch replaces base 0 = .ok records) :
    ∃ e, p.index[base]? = some e ∧ e.kind = .wal := by
  cases replaces with
  | nil => simp at hfirst
  | cons next rest =>
    obtain ⟨base', object⟩ := next
    obtain rfl : base' = base := by simpa using hfirst
    rw [checkReplaced] at hok
    cases hget : p.index[base']? with
    | none => simp [hget] at hok
    | some e =>
      refine ⟨e, rfl, ?_⟩
      by_contra hkind
      simp [hget, hkind] at hok

namespace Log

/-- The log splits at the base offset of an entry. -/
theorem split_at (h : p.Log first es) (hget : p.index[base]? = some e) :
    ∃ pre es', es = pre ++ es' ∧ Tiled first pre base ∧ Tiled base es' p.nextOffset := by
  obtain ⟨hmem, rfl⟩ := h.get_iff.mp hget
  obtain ⟨pre, post, rfl⟩ := append_of_mem hmem
  obtain ⟨mid, hpre, hpost⟩ := Tiles.append_iff.mp h.tiles
  obtain rfl : e.baseOffset = mid := hpost.1
  exact ⟨pre, e :: post, rfl, hpre, hpost⟩

/-- A new partition has an empty log. -/
theorem empty : Log {} 0 [] where
  toList := rfl
  bytes := rfl
  tiles := rfl
  first_le := le_rfl
  start_le := le_rfl
  readable := by simp

/-- A commit appends. -/
theorem appendChunk (h : p.Log first es) (object : String) {chunk : WalChunk}
    (hrecords : chunk.records ≠ 0) :
    (p.appendChunk object chunk).Log first (es ++ [chunk.entryAt object p.nextOffset]) ∧
      (p.appendChunk object chunk).nextOffset = p.nextOffset + chunk.records := by
  have hend : (chunk.entryAt object p.nextOffset).endOffset = p.nextOffset + chunk.records := rfl
  have htiles : Tiled first (es ++ [chunk.entryAt object p.nextOffset])
      (p.nextOffset + chunk.records) := by
    refine h.tiles.append ⟨rfl, ?_, rfl⟩
    rw [hend]
    omega
  have hindexes : Indexes { p with nextOffset := p.nextOffset + chunk.records } (es ++ []) :=
    ⟨by rw [append_nil]; exact h.toList, by rw [append_nil]; exact h.bytes⟩
  obtain ⟨hinsert, hnext, hstart⟩ := hindexes.insertEntry htiles.pairwise_base
  have hle := h.start_le
  refine ⟨⟨hinsert, ?_, ?_, ?_, ?_⟩, hnext⟩
  · rw [PartitionState.appendChunk, hnext]
    exact htiles
  · rw [PartitionState.appendChunk, hstart]
    exact h.first_le
  · rw [PartitionState.appendChunk, hstart, hnext]
    exact hle.trans (Nat.le_add_right _ _)
  · intro e he
    rw [PartitionState.appendChunk, hstart]
    rcases mem_append.mp he with he | he
    · exact h.readable e he
    · rw [mem_singleton.mp he, hend]
      exact lt_of_le_of_lt hle (by omega)

/-- A swap replaces a run of WAL entries by one entry over the same offsets. -/
theorem replaceRun (h : p.Log first es) (hfirst : replaces.head?.map Prod.fst = some base)
    (hok : p.checkReplaced mismatch replaces base 0 = .ok records) :
    ∃ pre run post q, es = pre ++ (run ++ post) ∧ run ≠ [] ∧
      run.map (fun e => (e.baseOffset, e.object)) = replaces ∧ (∀ e ∈ run, e.kind = .wal) ∧
      p.removeEntries (replaces.map Prod.fst) = (run, q) ∧
      ∀ segment : IndexEntry, segment.baseOffset = base → segment.records = records →
        (q.insertEntry segment).Log first (pre ++ segment :: post) ∧
        (q.insertEntry segment).nextOffset = p.nextOffset ∧
        (q.insertEntry segment).logStartOffset = p.logStartOffset := by
  obtain ⟨e, hget, -⟩ := exists_get_of_checkReplaced hfirst hok
  obtain ⟨pre, es', rfl, hpre, hes⟩ := h.split_at hget
  obtain ⟨run, post, stop, rfl, hrun, hpost, hmap, hwal, hsum⟩ :=
    h.checkReplaced_ok hpre hes hok
  have hbases : replaces.map Prod.fst = run.map baseOffset := by
    rw [← hmap, List.map_map]
    rfl
  have hne : run ≠ [] := by
    rintro rfl
    simp [← hmap] at hfirst
  obtain ⟨q, hremove, hq, hnext, hstart⟩ := h.removeEntries
  refine ⟨pre, run, post, q, rfl, hne, hmap, hwal, by rw [hbases, hremove], ?_⟩
  intro segment hbase hrecords
  have hend : segment.endOffset = stop := by
    rw [endOffset, hbase, hrecords]
    omega
  have hlt : base < stop := hrun.lt hne
  have htiles : Tiled first (pre ++ segment :: post) p.nextOffset :=
    hpre.append ⟨hbase, hend ▸ hlt, hend ▸ hpost⟩
  obtain ⟨hinsert, hnext', hstart'⟩ := hq.insertEntry htiles.pairwise_base
  have hnext'' := hnext'.trans hnext
  have hstart'' := hstart'.trans hstart
  refine ⟨⟨hinsert, hnext'' ▸ htiles, hstart'' ▸ h.first_le, ?_, ?_⟩, hnext'', hstart''⟩
  · rw [hstart'', hnext'']
    exact h.start_le
  · intro e he
    rw [hstart'']
    rcases mem_append.mp he with he | he
    · exact h.readable e (by simp [he])
    rcases mem_cons.mp he with rfl | he
    · -- The segment ends where the last replaced entry ended.
      obtain ⟨x, hx⟩ := exists_mem_of_ne_nil run hne
      have hread := h.readable x (by simp [hx])
      have hbound := hrun.bounds_of_mem hx
      omega
    · exact h.readable e (by simp [he])

/-- A trim drops the entries that end by the offset. -/
theorem trimmed (h : p.Log first es) (beforeOffset : ℕ) :
    ∃ q first', MetaState.trimmedPartition p beforeOffset =
        (es.takeWhile fun e => e.endOffset ≤ min beforeOffset p.nextOffset, q) ∧
      q.Log first' (es.dropWhile fun e => e.endOffset ≤ min beforeOffset p.nextOffset) ∧
      q.nextOffset = p.nextOffset ∧
      q.logStartOffset = max p.logStartOffset (min beforeOffset p.nextOffset) := by
  obtain ⟨q, hpop, hq, hnext, hstart⟩ := h.popAllBefore
    (min beforeOffset p.nextOffset) h.size_eq.ge
  have hsplit := h.tiles
  rw [← takeWhile_append_dropWhile (p := fun e : IndexEntry =>
    decide (e.endOffset ≤ min beforeOffset p.nextOffset)) (l := es)] at hsplit
  obtain ⟨first', hfront, hrest⟩ := Tiles.append_iff.mp hsplit
  have hfirst := hfront.le_max (o := min beforeOffset p.nextOffset) fun e he => by
    simpa using mem_takeWhile_imp he
  have hfirst_le := h.first_le
  have hstart_le := h.start_le
  refine ⟨{ q with logStartOffset := max p.logStartOffset (min beforeOffset p.nextOffset) },
    first', ?_, ⟨⟨hq.toList, hq.bytes⟩, hnext ▸ hrest, ?_, ?_, ?_⟩, hnext, rfl⟩
  · rw [MetaState.trimmedPartition]
    simp only [hpop, hstart]
  · show first' ≤ max _ _
    omega
  · show max _ _ ≤ q.nextOffset
    omega
  · intro e he
    have hmem := (dropWhile_suffix _).subset he
    exact max_lt (h.readable e hmem) (h.tiles.lt_stop_of_mem_dropWhile he)

/-! ## Looking up offsets -/

variable {o : ℕ}

theorem lookup_eq (h : p.Log first es) (ho : p.logStartOffset ≤ o) :
    p.lookup o =
      (es.filter fun e => e.baseOffset ≤ o).getLast?.filter fun e => o < e.endOffset := by
  rw [lookup, if_neg (Nat.not_lt.mpr ho), h.toList, filter_map, List.getLast?_map,
    Option.map_map]
  exact congrArg _ (congrFun Option.map_id _)

/-- A lookup finds the entry that holds the offset, unless the offset is trimmed. -/
theorem lookup_eq_some_iff (h : p.Log first es) : p.lookup o = some e ↔
    p.logStartOffset ≤ o ∧ e ∈ es ∧ e.baseOffset ≤ o ∧ o < e.endOffset := by
  by_cases ho : p.logStartOffset ≤ o
  · rw [h.lookup_eq ho, Option.filter_eq_some_iff]
    constructor
    · rintro ⟨hlast, hend⟩
      have hmem := mem_filter.mp (mem_of_getLast? hlast)
      exact ⟨ho, hmem.1, by simpa using hmem.2, by simpa using hend⟩
    · rintro ⟨-, he, hbase, hend⟩
      exact ⟨h.tiles.getLast?_filter_base he hbase hend, by simpa using hend⟩
  · rw [lookup, if_pos (Nat.not_le.mp ho)]
    simp [ho]

/-- Reading from an offset skips the entries that end by it. -/
theorem entriesFrom_eq (h : p.Log first es) :
    p.entriesFrom o = es.dropWhile fun e => e.endOffset ≤ max o p.logStartOffset := by
  rw [entriesFrom, h.lookup_eq (le_max_right _ _), h.toList, List.filter_map, List.map_map]
  exact (map_id _).trans (h.tiles.filter_floorBase _)

end Log

end Loams.Meta.PartitionState
