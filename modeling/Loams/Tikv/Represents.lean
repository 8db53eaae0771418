/-
# What the TiKV store stands for

A store represents a state when its keys hold what the state holds.
-/

import Loams.Meta.LogEffects
import Loams.Tikv.Log

namespace Loams.Tikv

open List hiding range
open Loams.Data Loams.Meta Loams.Control Program Std.ExtTreeMap

/-- The head of a partition. -/
def headOf (p : PartitionState) : Head := ⟨p.nextOffset, p.logStartOffset, p.bytes⟩

section Relations

variable (F : Format)

/-- The value under a partition's head key stands for the head. -/
def IsHead (value : Option Bytes) (head : Head) : Prop :=
  value = some (encode F.head head) ∨ value = none ∧ head = {}

/-- What looks like a key of the index is one. -/
def WellKeyed (store : Store) : Prop :=
  ∀ key ∈ store, key.head? = some 105 → ∃ id partition base,
    (Key.indexEntry id partition base).Fits ∧ key = (Key.indexEntry id partition base).bytes F

/-- The store holds the partitions' index entries. -/
structure HoldsEntries (store : Store) (m : Partitions) : Prop where
  get : ∀ id partition base, (Key.indexEntry id partition base).Fits →
    store[(Key.indexEntry id partition base).bytes F]? =
      ((m[(id, partition)]?).bind fun p => p.index[base]?).map (encode F.entry)
  keys : WellKeyed F store

/-- The store holds the partitions' heads. -/
def HoldsHeads (store : Store) (m : Partitions) : Prop :=
  ∀ id partition, (Key.head id partition).Fits →
    match m[(id, partition)]? with
    | some p => IsHead F store[(Key.head id partition).bytes F]? (headOf p)
    | none => store[(Key.head id partition).bytes F]? = none

/-- The store holds a commit record as the records of the object's groups. -/
def HoldsRecord (store : Store) (object : String) (record : Option WalCommitRecord) : Prop :=
  match record with
  | none => ∀ group ≤ u32Max, store[(Key.walGroup object group).bytes F]? = none
  | some record => ∃ groups : List WalGroup, groups ≠ [] ∧
    (∀ group ≤ u32Max, store[(Key.walGroup object group).bytes F]? =
      (groups[group]?).map (encode F.group)) ∧
    (∀ g ∈ groups, g.groups = groups.length ∧ g.createdAtMs = record.createdAtMs) ∧
    inCallOrder (groups.flatMap WalGroup.offsets) = record.baseOffsets

/-- The offsets of the partitions are machine numbers. -/
def OffsetsFit (m : Partitions) : Prop :=
  ∀ (k : StreamId × ℕ) (p : PartitionState), m[k]? = some p → p.nextOffset ≤ u64Max

/-- The store represents the log engine's part of the state. -/
structure Represents (store : Store) (s : MetaState) : Prop where
  streams : ∀ id ≤ u64Max, store[(Key.stream id).bytes F]? =
    (s.streams[id]?).map (encode F.stream)
  streamIds : ∀ (id : StreamId) (stream : Meta.Stream), s.streams[id]? = some stream →
    stream.id = id
  partitions : ∀ id partition, (id, partition) ∈ s.partitions ↔
    ∃ stream : Meta.Stream, s.streams[id]? = some stream ∧ partition < stream.partitions
  offsets : OffsetsFit s.partitions
  leases : ∀ key, store[(Key.lease key).bytes F]? = (s.leases[key]?).map (encode F.lease)
  entries : HoldsEntries F store s.partitions
  heads : HoldsHeads F store s.partitions
  live : ∀ o : String, store[(Key.walLive o).bytes F]? = (s.walLiveChunks[o]?).map (beBytes 4)
  liveFits : ∀ (o : String) (n : ℕ), s.walLiveChunks[o]? = some n → n ≤ u32Max
  retired : ∀ o : String, store[(Key.retired o).bytes F]? = (s.retired[o]?).map (beBytes 8)
  commits : ∀ o : String, HoldsRecord F store o s.walCommits[o]?
  objects : ∀ path v, store[(Key.objectRef path).bytes F]? = some v → ∃ r, v = encode F.object r

/-- Only keys of the kind `P` change between the stores. -/
structure Keeps (P : Key → Prop) (store store' : Store) : Prop where
  get : ∀ k : Key, k.Fits → ¬P k → store'[k.bytes F]? = store[k.bytes F]?
  keys : ∀ key ∈ store', key ∈ store ∨ ∃ k : Key, k.Fits ∧ P k ∧ key = k.bytes F

end Relations

variable {F : Format} {store store' store'' : Store} {m m' : Partitions} {s : MetaState}
variable {P Q : Key → Prop}

/-! ## Writes and the keys they leave alone -/

namespace Keeps

theorem refl (P : Key → Prop) (store : Store) : Keeps F P store store :=
  ⟨fun _ _ _ => rfl, fun _ h => .inl h⟩

theorem mono (h : Keeps F P store store') (hPQ : ∀ k, P k → Q k) : Keeps F Q store store' :=
  ⟨fun k hk hQ => h.get k hk fun hP => hQ (hPQ k hP), fun key hkey =>
    (h.keys key hkey).imp_right fun ⟨k, hk, hP, heq⟩ => ⟨k, hk, hPQ k hP, heq⟩⟩

theorem trans (h : Keeps F P store store') (h' : Keeps F P store' store'') :
    Keeps F P store store'' where
  get k hk hP := (h'.get k hk hP).trans (h.get k hk hP)
  keys key hkey := (h'.keys key hkey).elim (h.keys key) .inr

theorem insert {k : Key} (hk : k.Fits) (hP : P k) (v : Bytes) :
    Keeps F P store (store.insert (k.bytes F) v) where
  get l hl hl' := by
    rw [get_insert_bytes hk hl, if_neg]
    rintro rfl
    exact hl' hP
  keys key hkey := by
    rcases mem_insert.mp hkey with heq | hkey
    · exact .inr ⟨k, hk, hP, (Std.LawfulEqCmp.compare_eq_iff_eq.mp heq).symm⟩
    · exact .inl hkey

theorem erase {k : Key} (hk : k.Fits) (hP : P k) : Keeps F P store (store.erase (k.bytes F)) where
  get l hl hl' := by
    rw [get_erase_bytes hk hl, if_neg]
    rintro rfl
    exact hl' hP
  keys key hkey := .inl (mem_of_mem_erase hkey)

theorem foldl {γ : Type} {f : Store → γ → Store} {l : List γ}
    (h : ∀ c ∈ l, ∀ store, Keeps F P store (f store c)) : Keeps F P store (l.foldl f store) :=
  List.foldlRecOn l f (.refl P store) fun store' hstore c hc => hstore.trans (h c hc store')

/-- The index keys stay well formed. -/
theorem wellKeyed (h : Keeps F P store store') (hstore : WellKeyed F store) :
    WellKeyed F store' := by
  intro key hkey htag
  rcases h.keys key hkey with hold | ⟨k, hk, -, rfl⟩
  · exact hstore key hold htag
  · cases k with
    | indexEntry id partition base => exact ⟨id, partition, base, hk, rfl⟩
    | _ => simp [Key.bytes, tagged] at htag

end Keeps

/-- The keys of the log engine's own records. -/
def IsLog : Key → Prop
  | .head .. | .indexEntry .. | .walGroup .. | .walLive _ | .retired _ => True
  | .stream _ | .objectRef _ | .lease _ => False

/-- A write of the log engine's records goes on to represent the state if it does so
for those records; the streams, leases and object references are as they were. -/
theorem Represents.of_keeps {s' : MetaState} (h : Represents F store s)
    (hkeeps : Keeps F IsLog store store') (hstreams : s'.streams = s.streams)
    (hleases : s'.leases = s.leases)
    (hmem : ∀ k : StreamId × ℕ, k ∈ s'.partitions ↔ k ∈ s.partitions)
    (hoffsets : OffsetsFit s'.partitions)
    (hentries : ∀ id partition base, (Key.indexEntry id partition base).Fits →
      store'[(Key.indexEntry id partition base).bytes F]? =
        ((s'.partitions[(id, partition)]?).bind fun p => p.index[base]?).map (encode F.entry))
    (hheads : HoldsHeads F store' s'.partitions)
    (hlive : ∀ o : String, store'[(Key.walLive o).bytes F]? =
      (s'.walLiveChunks[o]?).map (beBytes 4))
    (hliveFits : ∀ (o : String) (n : ℕ), s'.walLiveChunks[o]? = some n → n ≤ u32Max)
    (hretired : ∀ o : String, store'[(Key.retired o).bytes F]? =
      (s'.retired[o]?).map (beBytes 8))
    (hcommits : ∀ o : String, HoldsRecord F store' o s'.walCommits[o]?) :
    Represents F store' s' where
  streams id hid := by
    rw [hkeeps.get (.stream id) hid (by simp [IsLog]), hstreams]
    exact h.streams id hid
  streamIds := hstreams ▸ h.streamIds
  partitions id partition := by
    rw [hmem, hstreams]
    exact h.partitions id partition
  offsets := hoffsets
  leases key := by
    rw [hkeeps.get (.lease key) trivial (by simp [IsLog]), hleases]
    exact h.leases key
  entries := ⟨hentries, hkeeps.wellKeyed h.entries.keys⟩
  heads := hheads
  live := hlive
  liveFits := hliveFits
  retired := hretired
  commits := hcommits
  objects path v hv := by
    rw [hkeeps.get (.objectRef path) trivial (by simp [IsLog])] at hv
    exact h.objects path v hv

theorem HoldsRecord.of_eq {o : String} {record : Option WalCommitRecord}
    (h : HoldsRecord F store o record)
    (hsame : ∀ group ≤ u32Max, store'[(Key.walGroup o group).bytes F]? =
      store[(Key.walGroup o group).bytes F]?) : HoldsRecord F store' o record := by
  cases record with
  | none => exact fun group hgroup => (hsame group hgroup).trans (h group hgroup)
  | some record =>
    obtain ⟨groups, hne, hget, hrest⟩ := h
    exact ⟨groups, hne, fun group hgroup => (hsame group hgroup).trans (hget group hgroup), hrest⟩

/-! ## Scans of a partition's index -/

section Scans

variable {id partition first offset : ℕ} {p : PartitionState} {es : List IndexEntry}
variable {lo : Bytes} {hi : Option Bytes}

/-- An index entry with its key. -/
def keyed (F : Format) (id partition : ℕ) (e : IndexEntry) : Bytes × IndexEntry :=
  ((Key.indexEntry id partition e.baseOffset).bytes F, e)

/-- A pair of the store for a key and an entry. -/
def stored (F : Format) (pair : Bytes × IndexEntry) : Bytes × Bytes :=
  (pair.1, encode F.entry pair.2)

/-- What a scan takes from a list of entries: all up to the first that is not
wanted. -/
def wanted (keepGoing : List (Bytes × IndexEntry) → IndexEntry → Bool) :
    List (Bytes × IndexEntry) → List (Bytes × IndexEntry) → List (Bytes × IndexEntry)
  | out, [] => out
  | out, pair :: rest =>
    if keepGoing out pair.2 then wanted keepGoing (out ++ [pair]) rest else out

/-- A page is taken whole, and the next one starts behind its last key, or the
scan ends in it. -/
theorem takePage_eq (F : Format) (keepGoing : List (Bytes × IndexEntry) → IndexEntry → Bool)
    (l out : List (Bytes × IndexEntry)) (start : Bytes) : ∃ goOn start',
    takePage F keepGoing (l.map (stored F)) out start =
      .ok (goOn, wanted keepGoing out l, start') ∧
    (goOn = true → (∀ rest, wanted keepGoing out (l ++ rest) = wanted keepGoing (out ++ l) rest) ∧
      start' = (l.getLast?).elim start fun last => after last.1) ∧
    (goOn = false → ∀ rest, wanted keepGoing out (l ++ rest) = wanted keepGoing out l) := by
  induction l generalizing out start with
  | nil => exact ⟨true, start, rfl, fun _ => ⟨fun rest => by simp, rfl⟩, nofun⟩
  | cons pair l ih =>
    by_cases hkeep : keepGoing out pair.2 = true
    · obtain ⟨goOn, start', hpage, hall, hsome⟩ := ih (out ++ [pair]) (after pair.1)
      refine ⟨goOn, start', ?_, fun hgo => ⟨fun rest => ?_, ?_⟩, fun hgo rest => ?_⟩
      · simp [takePage, stored, hkeep, wanted, bind, Except.bind] at hpage ⊢
        exact hpage
      · simp [wanted, hkeep, (hall hgo).1]
      · rw [(hall hgo).2, getLast?_cons]
        cases l.getLast? <;> rfl
      · simp [wanted, hkeep, hsome hgo]
    · refine ⟨false, start, ?_, nofun, fun _ rest => ?_⟩
      · simp [takePage, stored, hkeep, wanted, bind, Except.bind]
      · simp [wanted, hkeep]

variable {keepGoing : List (Bytes × IndexEntry) → IndexEntry → Bool}
variable {l out : List (Bytes × IndexEntry)}

/-- The pages of a scan take what is wanted of the range. -/
theorem takePages_eq {fuel : ℕ} {start : Bytes}
    (hrange : range store start hi = l.map (stored F)) (hfuel : l.length < fuel) :
    takePages F store hi keepGoing fuel out start = .ok (wanted keepGoing out l) := by
  induction fuel generalizing l out start with
  | zero => omega
  | succ fuel ih =>
    -- the page is the front of the range
    obtain ⟨page, rest, rfl, hpage, hshort⟩ : ∃ page rest, l = page ++ rest ∧
        scan store start hi entryPage = page.map (stored F) ∧
        (page.length ≠ entryPage → rest = []) := by
      refine ⟨l.take entryPage, l.drop entryPage, (take_append_drop _ _).symm, ?_, ?_⟩
      · rw [scan, hrange, map_take]
      · rw [length_take]
        exact fun hlt => drop_eq_nil_of_le (by omega)
    obtain ⟨goOn, start', htake, hall, hsome⟩ :=
      takePage_eq F keepGoing page out start
    simp only [takePages, hpage, htake, length_map, bind, Except.bind]
    cases goOn with
    | false => simp [hsome rfl rest]
    | true =>
      obtain ⟨hrest, hstart⟩ := hall rfl
      have htaken : wanted keepGoing out page = out ++ page := by
        simpa [wanted] using hrest []
      rw [hrest, htaken]
      by_cases hfull : page.length = entryPage
      · -- a full page: the next one starts behind its last key
        rw [if_pos ⟨rfl, hfull⟩]
        rcases eq_nil_or_concat page with rfl | ⟨front, last, rfl⟩
        · simp [entryPage] at hfull
        · have hbehind : range store start' hi = rest.map (stored F) := by
            rw [hstart]
            simp only [concat_eq_append, getLast?_append, getLast?_singleton,
              Option.some_or, Option.elim_some]
            have hlist : range store start hi = front.map (stored F) ++
                (last.1, encode F.entry last.2) :: rest.map (stored F) := by
              rw [hrange]
              simp [stored]
            exact range_after hlist
          refine ih hbehind ?_
          simp only [length_append, concat_eq_append, length_singleton] at hfuel
          omega
      · rw [if_neg (fun h => hfull h.2), hshort hfull, wanted]

theorem partitionEntries_isPrefix (F : Format) (id partition base : ℕ) :
    partitionEntries id partition <+: (Key.indexEntry id partition base).bytes F := by
  rw [indexEntry_bytes]
  exact prefix_append _ _

section Entries

variable (h : HoldsEntries F store m) (hid : id ≤ u64Max) (hpartition : partition ≤ u32Max)
  (hp : m[(id, partition)]? = some p) (hlog : p.Log first es) (hnext : p.nextOffset ≤ u64Max)
  (hoffset : offset ≤ u64Max)
include h hid hpartition hp hlog hnext

/-- A range inside a partition's prefix lists entries of the partition's log. -/
theorem HoldsEntries.range_eq {Q : ℕ → Bool}
    (hbase : ∀ base ≤ u64Max, inRange lo hi ((Key.indexEntry id partition base).bytes F) = Q base)
    (hbefore : ∀ key, inRange lo hi key = true → partitionEntries id partition <+: key) :
    range store lo hi =
      ((es.filter fun e => Q e.baseOffset).map (keyed F id partition)).map (stored F) := by
  have hfits : ∀ e ∈ es, e.baseOffset ≤ u64Max := fun e he => by
    have hbounds := hlog.tiles.bounds_of_mem he
    omega
  refine range_eq_of_mem_iff ?_ fun key v => ?_
  · rw [pairwise_map, pairwise_map, pairwise_filter]
    refine hlog.tiles.pairwise_base.imp_of_mem fun {a b} ha hb hlt _ _ => ?_
    exact (compare_indexEntry (F := F) (hfits a ha) (hfits b hb)).trans
      (Nat.compare_eq_lt.mpr hlt)
  · simp only [mem_map, mem_filter, keyed, stored, Prod.mk.injEq]
    constructor
    · rintro ⟨_, ⟨e, ⟨he, hQ⟩, rfl⟩, rfl, rfl⟩
      have hget := h.get id partition e.baseOffset ⟨hid, hpartition, hfits e he⟩
      rw [hp, Option.bind_some, hlog.get_iff.mpr ⟨he, rfl⟩] at hget
      exact ⟨hget, (hbase _ (hfits e he)).trans hQ⟩
    · rintro ⟨hget, hrange⟩
      have hunder := hbefore key hrange
      have htag : key.head? = some 105 := by
        obtain ⟨rest, rfl⟩ := hunder
        rfl
      obtain ⟨id', partition', base, hkey, rfl⟩ :=
        h.keys key (mem_of_get hget) htag
      obtain ⟨rfl, rfl⟩ :=
        (partitionEntries_prefix_iff ⟨hid, hpartition⟩ ⟨hkey.1, hkey.2.1⟩).mp hunder
      rw [h.get _ _ _ hkey, hp, Option.bind_some] at hget
      obtain ⟨e, hentry, rfl⟩ := Option.map_eq_some_iff.mp hget
      obtain ⟨hmem, rfl⟩ := hlog.get_iff.mp hentry
      exact ⟨_, ⟨e, ⟨hmem, (hbase _ hkey.2.2).symm.trans hrange⟩, rfl⟩, rfl, rfl⟩

include hoffset

/-- The entries of a partition from an offset on. -/
theorem HoldsEntries.range_from : range store ((Key.indexEntry id partition offset).bytes F)
        (prefixRange (partitionEntries id partition)).2 =
      ((es.filter fun e => offset ≤ e.baseOffset).map (keyed F id partition)).map (stored F) := by
  obtain ⟨hi, hrange, hunder⟩ := prefixRange_partitionEntries id partition
  have hkey := partitionEntries_isPrefix F id partition
  rw [hrange]
  refine h.range_eq hid hpartition hp hlog hnext (Q := fun base => offset ≤ base) ?_ ?_
  · intro base hbase
    have hbelow := ((hunder _).mp (hkey base)).2
    rw [inRange, compare_indexEntry hoffset hbase, Option.all_some, hbelow, Bool.eq_iff_iff,
      decide_eq_true_iff, ← Nat.isLE_compare]
    simp
  · intro key hkeyRange
    simp only [inRange, Option.all_some, beq_iff_eq, Bool.and_eq_true] at hkeyRange
    exact (hunder key).mpr
      ⟨Std.TransCmp.isLE_trans ((hunder _).mp (hkey offset)).1 hkeyRange.1, hkeyRange.2⟩

/-- The entries of a partition that start at or before an offset. -/
theorem HoldsEntries.range_upto :
    range store (prefixRange (partitionEntries id partition)).1
        (some (after ((Key.indexEntry id partition offset).bytes F))) =
      ((es.filter fun e => e.baseOffset ≤ offset).map (keyed F id partition)).map (stored F) := by
  obtain ⟨hi, hrange, hunder⟩ := prefixRange_partitionEntries id partition
  have hkey := partitionEntries_isPrefix F id partition
  rw [hrange]
  refine h.range_eq hid hpartition hp hlog hnext (Q := fun base => base ≤ offset) ?_ ?_
  · intro base hbase
    have habove := ((hunder _).mp (hkey base)).1
    rw [inRange, habove, Option.all_some, Bool.true_and, Bool.eq_iff_iff, beq_iff_eq, lt_after,
      compare_indexEntry hbase hoffset, decide_eq_true_iff, Nat.isLE_compare]
  · intro key hkeyRange
    simp only [inRange, Option.all_some, beq_iff_eq, Bool.and_eq_true, lt_after] at hkeyRange
    exact (hunder key).mpr ⟨hkeyRange.1,
      Std.TransCmp.lt_of_isLE_of_lt hkeyRange.2 ((hunder _).mp (hkey offset)).2⟩

/-- A scan starts at the last entry at or before the offset if that entry holds the
offset. -/
theorem HoldsEntries.scanStart_eq :
    scanStart F store id partition offset = .ok ((Key.indexEntry id partition
      (Tiles.floorBase IndexEntry.baseOffset IndexEntry.endOffset es offset)).bytes F) := by
  rw [scanStart, scanReverse, h.range_upto hid hpartition hp hlog hnext hoffset, ← map_reverse,
    ← map_reverse]
  rcases eq_nil_or_concat (es.filter fun e => e.baseOffset ≤ offset) with
    hnil | ⟨front, last, hlast⟩
  · simp [Tiles.floorBase, hnil]
  · by_cases hholds : offset < last.endOffset <;>
      simp [Tiles.floorBase, Option.filter, hlast, keyed, stored, hholds, bind, Except.bind, pure,
        Except.pure]

/-- A scan of a partition's index takes what is wanted of the entries that reach
past the offset. -/
theorem HoldsEntries.entriesFrom_eq :
    entriesFrom F store id partition offset keepGoing =
      .ok (wanted keepGoing []
        ((es.dropWhile fun e => e.endOffset ≤ offset).map (keyed F id partition))) := by
  -- the scan starts at the first entry that reaches past the offset
  obtain ⟨start, hstart, hrange⟩ : ∃ start,
      scanStart F store id partition offset = .ok start ∧
      range store start (prefixRange (partitionEntries id partition)).2 =
        ((es.dropWhile fun e => e.endOffset ≤ offset).map (keyed F id partition)).map
          (stored F) := by
    refine ⟨_, h.scanStart_eq hid hpartition hp hlog hnext hoffset, ?_⟩
    rw [h.range_from hid hpartition hp hlog hnext ((Tiles.floorBase_le es offset).trans hoffset),
      hlog.tiles.filter_floorBase offset]
  have hsize : (((es.dropWhile fun e => e.endOffset ≤ offset).map
      (keyed F id partition)).map (stored F)).length ≤ store.size := by
    rw [← hrange, range, ← length_toList]
    exact length_filter_le _ _
  rw [length_map] at hsize
  rw [entriesFrom, hstart]
  exact takePages_eq hrange (Nat.lt_succ_of_le hsize)

end Entries

end Scans

end Loams.Tikv
