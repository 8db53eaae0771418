/-
# Commits on TiKV simulate those of the state machine
-/

import Loams.Meta.CatalogInvariant
import Loams.Meta.Snapshot
import Loams.Tikv.Groups
import Loams.Tikv.Simulation

namespace Loams.Tikv

open List hiding partition mem_insert_iff mem_iff_get
open Loams.Data Loams.Meta Loams.Control Program MetaState Std.ExtTreeMap

variable {F : Format} {store store' : Store} {s : MetaState} {m m' : Partitions} {α : Type}
variable {object : String} {chunks : List WalChunk} {p : PartitionState}

/-! ## Reading the streams -/

/-- The streams that a commit loads are those of the state. -/
theorem Represents.loadStreams_eq (h : Represents F store s)
    (hids : ∀ c ∈ chunks, c.stream ≤ u64Max) : ∃ streams, loadStreams F store chunks = .ok streams ∧
      ∀ c ∈ chunks, streams[c.stream]? = s.streams[c.stream]? := by
  set pairs :=
    (batchGet store (chunks.map fun c => (Key.stream c.stream).bytes F)).toList with hpairs
  have hmem : ∀ pair, pair ∈ pairs ↔
      pair.1 ∈ chunks.map (fun c => (Key.stream c.stream).bytes F) ∧
        store[pair.1]? = some pair.2 := by
    intro pair
    rw [hpairs, mem_toList_iff_getElem?_eq_some, batchGet_eq]
    split_ifs with hin <;> simp [hin]
  -- every pair read holds a stream of the state under its id
  have hread : ∀ pair ∈ pairs, ∃ stream : Meta.Stream, pair.2 = encode F.stream stream ∧
      pair.1 = (Key.stream stream.id).bytes F ∧ s.streams[stream.id]? = some stream := by
    intro pair hpair
    obtain ⟨hin, hget⟩ := (hmem pair).mp hpair
    obtain ⟨c, hc, hkey⟩ := mem_map.mp hin
    rw [← hkey, h.streams c.stream (hids c hc)] at hget
    obtain ⟨stream, hstream, hvalue⟩ := Option.map_eq_some_iff.mp hget
    have hid := h.streamIds _ _ hstream
    exact ⟨stream, hvalue.symm, by rw [hid, hkey], hid.symm ▸ hstream⟩
  have hstored : ∀ c ∈ chunks, ∀ stream : Meta.Stream, s.streams[c.stream]? = some stream →
      ((Key.stream c.stream).bytes F, encode F.stream stream) ∈ pairs := by
    intro c hc stream hstream
    refine (hmem _).mpr ⟨mem_map.mpr ⟨c, hc, rfl⟩, ?_⟩
    rw [h.streams c.stream (hids c hc), hstream, Option.map_some]
  have : Nonempty Meta.Stream := ⟨⟨0, 0, "", 0, .express, {}⟩⟩
  choose! f hvalue hkey hstream using hread
  have hdistinct : pairs.Pairwise fun a b => (f a).id ≠ (f b).id := by
    refine ordered_keys_toList.imp_of_mem fun {a b} ha hb hab heq => ?_
    rw [hkey a ha, hkey b hb, heq] at hab
    simp at hab
  refine ⟨(pairs.map f).foldl (fun m stream => m.insert stream.id stream) ∅, ?_, fun c hc => ?_⟩
  · have hdecode :
        (pairs.mapM fun pair => decode F.stream "stream" pair.2) = .ok (pairs.map f) := by
      rw [mapM_eq_ok, forall₂_map_right_iff, forall₂_same]
      intro pair hpair
      rw [hvalue pair hpair, decode_encode]
    rw [loadStreams, ← hpairs, hdecode]
    rfl
  · rw [foldl_map]
    cases hget : s.streams[c.stream]? with
    | some stream =>
      have hpair := hstored c hc stream hget
      have heq := (encode_inj F.stream).mp (hvalue _ hpair)
      rw [← h.streamIds _ _ hget, heq]
      exact get_foldl_insert_of_mem hdistinct ∅ hpair
    | none =>
      refine (get_foldl_insert_of_forall_ne ∅ fun pair hpair hid => ?_).trans
        getElem?_empty
      cases (hstream pair hpair).symm.trans (hid ▸ hget)

variable {chunk : WalChunk} {es : List IndexEntry} {heads : BTreeMap Bytes Head}
variable {bases members : List ℕ} {picked : List (ℕ × WalChunk)} {commit : WalCommit}

/-- A chunk is checked as the state machine checks it. -/
theorem Represents.validateChunk_eq (h : Represents F store s)
    {streams : BTreeMap StreamId Meta.Stream}
    (hstreams : streams[chunk.stream]? = s.streams[chunk.stream]?) :
    validateChunk streams chunk = s.validateChunk chunk := by
  rw [validateChunk, MetaState.validateChunk, hstreams]
  cases hstream : s.streams[chunk.stream]? with
  | none =>
    have hnot : chunk.stream ∉ s.streams := not_mem_iff_get.mpr hstream
    simp [require, hnot, bind, Except.bind]
  | some stream =>
    have hin : chunk.stream ∈ s.streams := mem_of_get hstream
    have hpartitions := h.partitions chunk.stream chunk.partition
    simp only [hstream, Option.some.injEq, exists_eq_left'] at hpartitions
    simp only [require, hin, if_true, hpartitions, bind, Except.bind]

theorem forM_congr {ε : Type} {f g : α → Except ε Unit} {l : List α} (h : ∀ a ∈ l, f a = g a) :
    l.forM f = l.forM g := by
  induction l with
  | nil => rfl
  | cons a l ih =>
    rw [forall_mem_cons] at h
    rw [List.forM_eq_forM] at ih ⊢
    rw [forM_cons, forM_cons, h.1, ih h.2]

/-! ## Placing the chunks -/

/-- The heads held by the transaction are those of the partitions. -/
def Tracks (F : Format) (heads : BTreeMap Bytes Head) (m : Partitions) : Prop :=
  ∀ id partition, (Key.head id partition).Fits → ∀ head,
    heads[(Key.head id partition).bytes F]? = some head →
      ∃ p : PartitionState, m[(id, partition)]? = some p ∧ head = headOf p

/-- The keys of the index. -/
def IsEntry : Key → Prop
  | .indexEntry .. => True
  | _ => False

theorem insertEntry_index (p : PartitionState) (e : IndexEntry) :
    (p.insertEntry e).index = p.index.insert e.baseOffset e := by
  unfold PartitionState.insertEntry
  split <;> rfl

/-- The head of a partition after a chunk. -/
theorem headOf_appendChunk {first : ℕ} (h : p.Log first es) (chunk : WalChunk) :
    headOf (p.appendChunk object chunk) =
      { headOf p with
        next := (headOf p).next + chunk.records
        bytes := (headOf p).bytes + entryBytes (chunk.entryAt object (headOf p).next) } := by
  have hfresh : p.index[p.nextOffset]? = none := by
    refine Option.eq_none_iff_forall_ne_some.mpr fun e he => ?_
    obtain ⟨hmem, hbase⟩ := h.get_iff.mp he
    have hbounds := h.tiles.bounds_of_mem hmem
    omega
  rw [PartitionState.appendChunk, PartitionState.insertEntry]
  simp only [WalChunk.entryAt, hfresh, headOf]

/-- The entry of a placed chunk joins the index. -/
theorem HoldsEntries.appendChunk (h : HoldsEntries F store m)
    (hp : m[(chunk.stream, chunk.partition)]? = some p)
    (hkey : (Key.indexEntry chunk.stream chunk.partition p.nextOffset).Fits) :
    HoldsEntries F
      (store.insert ((Key.indexEntry chunk.stream chunk.partition p.nextOffset).bytes F)
        (encode F.entry (chunk.entryAt object p.nextOffset)))
      (m.insert (chunk.stream, chunk.partition) (p.appendChunk object chunk)) where
  get id partition base hbase := by
    rw [get_insert_bytes hkey hbase, get_insert, h.get _ _ _ hbase]
    by_cases hk : (chunk.stream, chunk.partition) = (id, partition)
    · obtain ⟨rfl, rfl⟩ := Prod.mk.inj hk
      rw [if_pos rfl, hp, Option.bind_some, Option.bind_some, PartitionState.appendChunk,
        insertEntry_index, get_insert]
      by_cases hb : p.nextOffset = base <;> simp [hb, WalChunk.entryAt]
    · have hne : Key.indexEntry chunk.stream chunk.partition p.nextOffset ≠
          Key.indexEntry id partition base := by
        intro heq
        injection heq with hid hpartition
        exact hk (by rw [hid, hpartition])
      rw [if_neg hk, if_neg hne]
  keys := (Keeps.insert (P := IsEntry) hkey trivial _).wellKeyed h.keys

theorem Tracks.appendChunk {first : ℕ} (h : Tracks F heads m) (hlog : p.Log first es)
    (hkey : (Key.head chunk.stream chunk.partition).Fits) :
    Tracks F
      (heads.insert ((Key.head chunk.stream chunk.partition).bytes F)
        { headOf p with
          next := (headOf p).next + chunk.records
          bytes := (headOf p).bytes + entryBytes (chunk.entryAt object (headOf p).next) })
      (m.insert (chunk.stream, chunk.partition) (p.appendChunk object chunk)) := by
  intro id partition hfits head hget
  rw [get_insert] at hget
  rw [get_insert]
  split_ifs at hget with heq
  · obtain ⟨rfl, rfl⟩ : chunk.stream = id ∧ chunk.partition = partition := by
      simpa using Key.bytes_inj hkey hfits heq
    exact ⟨_, if_pos rfl, (Option.some.inj hget).symm.trans (headOf_appendChunk hlog chunk).symm⟩
  · obtain ⟨q, hq, rfl⟩ := h id partition hfits head hget
    refine ⟨q, ?_, rfl⟩
    rw [if_neg, hq]
    intro hk
    obtain ⟨rfl, rfl⟩ := Prod.mk.inj hk
    exact heq rfl

/-- The loop of a commit on TiKV runs with that of the state machine: the heads it
holds and the index entries it writes are those of the partitions. -/
theorem placeMembers_exec (hplaced : Placed object (picked.map Prod.snd) m bases m')
    (hlogged : Logged m) (hrecords : ∀ c ∈ picked.map Prod.snd, c.records ≠ 0)
    (hkeys : ∀ c ∈ picked.map Prod.snd, (Key.head c.stream c.partition).Fits ∧
      (Key.head c.stream c.partition).bytes F ∈ heads) (hpositions : ∀ x ∈ picked, x.1 ≤ u32Max)
    (hnext : OffsetsFit m') (htracks : Tracks F heads m) (hentries : HoldsEntries F store m) :
    ∃ heads' store', (placeMembers F object picked heads).exec store =
        (.ok ((picked.map Prod.fst).zip bases, heads'), store') ∧
      Tracks F heads' m' ∧ (∀ key, key ∈ heads' ↔ key ∈ heads) ∧ HoldsEntries F store' m' ∧
      Keeps F IsEntry store store' := by
  induction picked generalizing m bases heads store with
  | nil =>
    cases hplaced
    exact ⟨heads, store, rfl, htracks, fun _ => Iff.rfl, hentries, .refl _ _⟩
  | cons next rest ih =>
    obtain ⟨position, chunk⟩ := next
    rw [map_cons, forall_mem_cons] at hrecords hkeys
    rw [forall_mem_cons] at hpositions
    have hwhole := hplaced
    cases hplaced with
    | @cons _ _ p bases _ _ found placed =>
      obtain ⟨⟨hfits, hin⟩, hkeys⟩ := hkeys
      obtain ⟨head, hhead⟩ := mem_iff_get.mp hin
      obtain ⟨p', hp', rfl⟩ := htracks _ _ hfits head hhead
      obtain rfl : p = p' := Option.some.inj (found.symm.trans hp')
      obtain ⟨first, es, hlog⟩ := hlogged _ p found
      -- the base offset of the chunk is below the partition's last next offset
      obtain ⟨q, hq⟩ := mem_iff_get.mp (hwhole.mem_iff.mpr (mem_of_get found))
      have hle := (hwhole.tiles_extents hlogged (by simpa using hrecords) found hq).le
      have hbase : (Key.indexEntry chunk.stream chunk.partition p.nextOffset).Fits :=
        ⟨hfits.1, hfits.2, hle.trans (hnext _ q hq)⟩
      obtain ⟨heads', store', hexec, htracks', hmem, hentries', hkeeps⟩ := ih placed
        (logged_appendChunk hlogged found hrecords.1) hrecords.2
        (fun c hc => ⟨(hkeys c hc).1, mem_insert.mpr (.inr (hkeys c hc).2)⟩)
        hpositions.2 (htracks.appendChunk hlog hfits) (hentries.appendChunk found hbase)
      refine ⟨heads', store', ?_, htracks', fun key => ?_, hentries',
        (Keeps.insert hbase trivial _).trans hkeeps⟩
      · simp only [placeMembers, hhead]
        rw [exec_update_bind, if_neg (Nat.not_lt.mpr hpositions.1)]
        exact (exec_bind_of_ok hexec).trans rfl
      · rw [hmem, mem_insert_iff_of_get hhead]

/-! ## Heads, live count and record -/

theorem lockedHeads_eq (locked : Store) (keys : List Bytes)
    (h : ∀ key ∈ keys, ∃ head, decodeHead F locked[key]? = .ok head) :
    ∃ heads, lockedHeads F locked keys = .ok heads ∧ (∀ key, key ∈ heads ↔ key ∈ keys) ∧
      ∀ (key : Bytes) (head : Head), heads[key]? = some head →
        decodeHead F locked[key]? = .ok head := by
  induction keys with
  | nil => exact ⟨∅, rfl, by simp, by simp⟩
  | cons key rest ih =>
    rw [forall_mem_cons] at h
    obtain ⟨⟨head, hhead⟩, hrest⟩ := h
    obtain ⟨heads, hheads, hmem, hget⟩ := ih hrest
    refine ⟨heads.insert key head, ?_, fun key' => ?_, fun key' head' hkey' => ?_⟩
    · rw [lockedHeads, hhead, hheads]
      rfl
    · rw [mem_insert_iff, hmem, mem_cons,
        eq_comm]
    · rcases get_insert_eq_some.mp hkey' with ⟨rfl, rfl⟩ | ⟨-, hkey'⟩
      · exact hhead
      · exact hget key' head' hkey'

/-- The keys that a commit writes behind its loop. -/
def IsHeadOrCount (object : String) : Key → Prop
  | .head .. => True
  | .walLive o => o = object
  | .walGroup o group => o = object ∧ group = 0
  | _ => False

/-- What the loop of a commit leaves, with the heads, the live count and the record
written, represents the state after the commit. -/
theorem Represents.committed (h : Represents F store s) {offsets : List (ℕ × ℕ)} (createdAtMs : ℕ)
    (hplaced : Placed object chunks s.partitions bases m') (hnext : OffsetsFit m')
    (hkeys : ∀ c ∈ chunks, (Key.head c.stream c.partition).Fits) (hheads : ∀ key, key ∈ heads ↔
      key ∈ chunks.map fun c => (Key.head c.stream c.partition).bytes F)
    (htracks : Tracks F heads m') (hentries : HoldsEntries F store' m')
    (hkeeps : Keeps F IsEntry store store') (hrecord : s.walCommits[object]? = none)
    (hlen : chunks.length ≤ u32Max) (hoffsets : inCallOrder offsets = bases) :
    Represents F
      (((putHeads F store' heads.toList).insert ((Key.walLive object).bytes F)
        (beBytes 4 chunks.length)).insert ((Key.walGroup object 0).bytes F)
          (encode F.group ⟨1, createdAtMs, offsets⟩))
      { s with
        partitions := m'
        walLiveChunks := s.walLiveChunks.insert object chunks.length
        walCommits := s.walCommits.insert object ⟨bases, createdAtMs⟩ } := by
  have hgroup : (Key.walGroup object 0).Fits := Nat.zero_le _
  have hlive : (Key.walLive object).Fits := trivial
  have hput : Keeps F (IsHeadOrCount object) store' (putHeads F store' heads.toList) := by
    refine Keeps.foldl fun pair hpair store => ?_
    have hin := mem_of_get (mem_toList_iff_getElem?_eq_some.mp hpair)
    obtain ⟨c, hc, hkey⟩ := mem_map.mp ((hheads _).mp hin)
    rw [← hkey]
    exact Keeps.insert (hkeys c hc) trivial _
  have hliveWritten : IsHeadOrCount object (.walLive object) := rfl
  have hgroupWritten : IsHeadOrCount object (.walGroup object 0) := ⟨rfl, rfl⟩
  have hwrites := (hput.trans (Keeps.insert hlive hliveWritten (beBytes 4 chunks.length))).trans
    (Keeps.insert hgroup hgroupWritten (encode F.group ⟨1, createdAtMs, offsets⟩))
  generalize hfinal : ((putHeads F store' heads.toList).insert ((Key.walLive object).bytes F)
    (beBytes 4 chunks.length)).insert ((Key.walGroup object 0).bytes F)
      (encode F.group ⟨1, createdAtMs, offsets⟩) = final at hwrites ⊢
  -- keys that neither the loop nor the writes touch
  have hboth : ∀ k : Key, k.Fits → ¬IsEntry k → ¬IsHeadOrCount object k →
      final[k.bytes F]? = store[k.bytes F]? := fun k hk hnot hnot' =>
    (hwrites.get k hk hnot').trans (hkeeps.get k hk hnot)
  have hkeepsLog : Keeps F IsLog store final :=
    (hkeeps.mono fun k hk => by cases k <;> simp_all [IsEntry, IsLog]).trans
      (hwrites.mono fun k hk => by cases k <;> simp_all [IsHeadOrCount, IsLog])
  refine h.of_keeps hkeepsLog rfl rfl (fun k => hplaced.mem_iff) hnext ?_ ?_ ?_ ?_ ?_ ?_
  · intro id partition base hkey
    rw [hwrites.get _ hkey (by simp [IsHeadOrCount])]
    exact hentries.get id partition base hkey
  · -- a head is written with a chunk of its partition, or neither is there
    intro id partition hkey
    have hget : final[(Key.head id partition).bytes F]? =
        ((heads[(Key.head id partition).bytes F]?).map (encode F.head)).or
          store[(Key.head id partition).bytes F]? := by
      rw [← hfinal, get_insert_bytes hgroup hkey, if_neg (by simp), get_insert_bytes hlive hkey,
        if_neg (by simp), putHeads, get_foldl_toList, hkeeps.get _ hkey (by simp [IsEntry])]
    dsimp only
    cases hhead : heads[(Key.head id partition).bytes F]? with
    | some head =>
      obtain ⟨p, hp, rfl⟩ := htracks id partition hkey head hhead
      rw [hp, hget, hhead]
      exact .inl rfl
    | none =>
      have hnone : m'[(id, partition)]? = s.partitions[(id, partition)]? := by
        refine hplaced.get_of_forall_ne fun c hc hk => ?_
        obtain ⟨rfl, rfl⟩ := Prod.mk.inj hk
        exact not_mem_iff_get.mpr hhead
          ((hheads _).mpr (mem_map.mpr ⟨c, hc, rfl⟩))
      rw [hget, hhead, hnone]
      exact h.heads id partition hkey
  · intro o
    show final[_]? = ((s.walLiveChunks.insert object chunks.length)[o]?).map _
    rw [get_insert]
    split_ifs with ho
    · subst ho
      rw [← hfinal, get_insert_bytes hgroup hlive, if_neg (by simp), get_insert_bytes hlive hlive,
        if_pos rfl, Option.map_some]
    · rw [hboth (.walLive o) trivial (by simp [IsEntry]) (by simp [IsHeadOrCount, Ne.symm ho])]
      exact h.live o
  · intro o n hn
    rcases get_insert_eq_some.mp hn with ⟨-, rfl⟩ | ⟨-, hn⟩
    · exact hlen
    · exact h.liveFits o n hn
  · intro o
    rw [hboth (.retired o) trivial (by simp [IsEntry]) (by simp [IsHeadOrCount])]
    exact h.retired o
  · intro o
    rw [get_insert]
    split_ifs with ho
    · subst ho
      have hnone := h.commits object
      rw [hrecord] at hnone
      refine ⟨[⟨1, createdAtMs, offsets⟩], by simp, fun group hfits => ?_, by simp, by simpa⟩
      cases group with
      | zero => rw [← hfinal, get_insert_bytes hgroup hgroup, if_pos rfl]; rfl
      | succ group =>
        rw [hboth (.walGroup object (group + 1)) hfits (by simp [IsEntry])
          (by simp [IsHeadOrCount])]
        exact hnone (group + 1) hfits
    · exact (h.commits o).of_eq fun group hfits => hboth (.walGroup o group) hfits
        (by simp [IsEntry]) (by simp [IsHeadOrCount, Ne.symm ho])

/-! ## A commit of one group -/

/-- The chunks of a group with their positions. -/
theorem picked_range (chunks : List WalChunk) :
    ((List.range chunks.length).filterMap fun i => (chunks[i]?).map fun c => (i, c)) =
      (List.range chunks.length).zip chunks := by
  induction chunks using reverseRecOn with
  | nil => rfl
  | append_singleton front c ih =>
    have hfront : ((List.range front.length).filterMap fun i =>
        ((front ++ [c])[i]?).map fun c => (i, c)) = (List.range front.length).zip front := by
      refine (filterMap_congr fun i hi => ?_).trans ih
      rw [getElem?_append_left (mem_range.mp hi)]
    rw [length_append, length_singleton, range_succ, filterMap_append, hfront, zip_append (by simp)]
    simp

theorem inCallOrder_range (bases : List ℕ) :
    inCallOrder ((List.range bases.length).zip bases) = bases := by
  have hsorted : ((List.range bases.length).zip bases).Pairwise fun a b => a.1 ≤ b.1 := by
    have hfst : (((List.range bases.length).zip bases).map Prod.fst).Pairwise (· ≤ ·) := by
      rw [map_fst_zip (by simp)]
      exact pairwise_lt_range.imp fun hlt => hlt.le
    exact pairwise_map.mp hfst
  rw [inCallOrder, hsorted.insertionSort_eq, map_snd_zip (by simp)]

/-- The writes of a commit, once every check has passed. -/
theorem Represents.place_agrees (h : Represents F store s) (hlogged : Logged s.partitions)
    {locked : Store} (hchunks : picked.map Prod.snd = commit.chunks)
    (hpositions : picked.map Prod.fst = List.range commit.chunks.length)
    (hids : ∀ c ∈ commit.chunks, c.stream ≤ u64Max ∧ c.partition ≤ u32Max)
    (hin : ∀ c ∈ commit.chunks, (c.stream, c.partition) ∈ s.partitions)
    (hrecords : ∀ c ∈ commit.chunks, c.records ≠ 0) (hlen : commit.chunks.length ≤ u32Max)
    (hlocked : ∀ c ∈ commit.chunks, locked[(Key.head c.stream c.partition).bytes F]? =
      store[(Key.head c.stream c.partition).bytes F]?)
    (hlive : locked[(Key.walLive commit.object).bytes F]? = none)
    (hrecord : s.walCommits[commit.object]? = none)
    (hplaced : Placed commit.object commit.chunks s.partitions bases m') (hnext : OffsetsFit m') :
    ∃ final offsets, (do
        let headValues ← lockedHeads F locked
          (commit.chunks.map fun c => (Key.head c.stream c.partition).bytes F)
        let (offsets, headValues) ← placeMembers F commit.object picked headValues
        update fun store => putHeads F store headValues.toList
        let live ← liveCount locked[(Key.walLive commit.object).bytes F]?
        update fun store => store.insert ((Key.walLive commit.object).bytes F)
          (beBytes 4 (min (live + min (List.range commit.chunks.length).length u32Max) u32Max))
        update fun store => store.insert ((Key.walGroup commit.object 0).bytes F)
          (encode F.group ⟨1, commit.createdAtMs, offsets⟩)
        return offsets : Txn (List (ℕ × ℕ))).exec store = (.ok offsets, final) ∧
      inCallOrder offsets = bases ∧ Represents F final { s with
        partitions := m'
        walLiveChunks := s.walLiveChunks.insert commit.object commit.chunks.length
        walCommits := s.walCommits.insert commit.object ⟨bases, commit.createdAtMs⟩ } := by
  -- the heads read are those of the state's partitions
  obtain ⟨heads, hheads, hmem, hget⟩ := lockedHeads_eq (F := F) locked
    (commit.chunks.map fun c => (Key.head c.stream c.partition).bytes F) fun key hkey => by
      obtain ⟨c, hc, rfl⟩ := mem_map.mp hkey
      obtain ⟨head, hhead, -⟩ := h.decodeHead_eq (hids c hc).1 (hids c hc).2
      exact ⟨head, by rw [hlocked c hc, hhead]⟩
  have htracks : Tracks F heads s.partitions := by
    intro id partition hfits head hhead
    obtain ⟨c, hc, hkey⟩ := mem_map.mp ((hmem _).mp (mem_of_get hhead))
    have hchunk : (Key.head c.stream c.partition).Fits := hids c hc
    obtain ⟨rfl, rfl⟩ : c.stream = id ∧ c.partition = partition := by
      simpa using Key.bytes_inj hchunk hfits hkey
    obtain ⟨p, hp⟩ := mem_iff_get.mp (hin c hc)
    obtain ⟨head', hread, hheadOf⟩ := h.decodeHead_eq (hids c hc).1 (hids c hc).2
    have hsame := hget _ _ hhead
    rw [hlocked c hc, hread, Except.ok.injEq] at hsame
    exact ⟨p, hp, hsame.symm.trans (hheadOf p hp)⟩
  have hbound : ∀ x ∈ picked, x.1 ≤ u32Max := by
    intro x hx
    have hposition : x.1 ∈ List.range commit.chunks.length := hpositions ▸ mem_map_of_mem hx
    exact (mem_range.mp hposition).le.trans hlen
  obtain ⟨heads', store', hexec, htracks', hmem', hentries, hkeeps⟩ :=
    placeMembers_exec (F := F) (hchunks ▸ hplaced) hlogged (hchunks ▸ hrecords)
      (fun c hc => ⟨hids c (hchunks ▸ hc), (hmem _).mpr
        (mem_map.mpr ⟨c, hchunks ▸ hc, rfl⟩)⟩)
      hbound hnext htracks h.entries
  rw [hpositions] at hexec
  have horder : inCallOrder ((List.range commit.chunks.length).zip bases) = bases := by
    rw [← hplaced.length_eq]
    exact inCallOrder_range bases
  have hfinal := h.committed commit.createdAtMs hplaced hnext hids
    (fun key => (hmem' key).trans (hmem key)) htracks' hentries hkeeps hrecord hlen horder
  refine ⟨_, _, ?_, horder, hfinal⟩
  rw [hheads, exec_ok_bind, exec_bind_of_ok hexec]
  dsimp only
  rw [exec_update_bind, hlive, liveCount, exec_ok_bind, exec_update_bind, exec_update_bind,
    exec_pure, Nat.zero_add, length_range, min_eq_left hlen, min_eq_left hlen]

/-- A commit of one group answers what the state machine answers, or it is refused
because the object is retired or claimed. -/
theorem Represents.commit_agrees (h : Represents F store s) (hlogged : Logged s.partitions)
    (hkey : validateKey "WAL object path" commit.object = .ok ())
    (hplan : planGroups commit.object commit.chunks maxGroupChunks maxGroupBytes = .ok [members])
    (hids : ∀ c ∈ commit.chunks, c.stream ≤ u64Max ∧ c.partition ≤ u32Max)
    (hretry : ∀ w, store[(Key.walGroup commit.object 0).bytes F]? = some (encode F.group w) →
      w.groups = 1) (hlive : s.walCommits[commit.object]? = none →
      s.clockMs ≤ satAdd commit.createdAtMs walCommitWindowMs →
      s.walLiveChunks[commit.object]? = none)
    (hoffsets : OffsetsFit
      ((commitWal commit.object commit.createdAtMs commit.chunks).exec s).2.partitions) :
    ((Claimed F store commit.object ∨ commit.object ∈ s.retired) ∧
      (commitGroup F commit 0 1 members s.clockMs).exec store =
        (.error (.rejected (.staleCommit commit.object)), store)) ∨
    Agrees F (fun offsets r => r = .walCommitted (inCallOrder offsets))
      ((commitGroup F commit 0 1 members s.clockMs).exec store)
      ((commitWal commit.object commit.createdAtMs commit.chunks).exec s) := by
  obtain ⟨rfl, hlen⟩ := planGroups_singleton hplan
  have hu32 : commit.chunks.length ≤ u32Max := hlen.trans (by decide)
  set picked := (List.range commit.chunks.length).filterMap fun i =>
    (commit.chunks[i]?).map fun c => (i, c) with hpicked
  have hchunks : picked.map Prod.snd = commit.chunks := by
    rw [hpicked, picked_range, map_snd_zip (by simp)]
  have hrecordGet := h.commits commit.object
  rw [commitGroup, exec_read_bind, commitWal, hkey, exec_ok_bind, exec_read_bind]
  simp only [← hpicked, hchunks]
  -- what is locked is read as the store has it
  generalize hlocked : batchGet store _ = locked
  have hread : ∀ key ∈ (commit.chunks.map fun c => (Key.head c.stream c.partition).bytes F) ++
      [(Key.walGroup commit.object 0).bytes F, (Key.walLive commit.object).bytes F,
        (Key.retired commit.object).bytes F, (Key.objectRef commit.object).bytes F],
      locked[key]? = store[key]? := fun key hmem => hlocked ▸ batchGet_get hmem
  have hretired : (Key.retired commit.object).bytes F ∈ locked ↔ commit.object ∈ s.retired := by
    rw [mem_iff_isSome_getElem?, hread _ (by simp), h.retired, Option.isSome_map,
      ← mem_iff_isSome_getElem?]
  rw [hread ((Key.walGroup commit.object 0).bytes F) (by simp),
    hread ((Key.objectRef commit.object).bytes F) (by simp)]
  cases hrecord : s.walCommits[commit.object]? with
  | some record =>
    right
    rw [hrecord] at hrecordGet
    obtain ⟨groups, hne, hget, hall, hcall⟩ := hrecordGet
    obtain ⟨w, rest, rfl⟩ := exists_cons_of_ne_nil hne
    have hfirst := hget 0 (Nat.zero_le _)
    -- one group was recorded, so its offsets are all there are
    have hone : w.groups = 1 := hretry w hfirst
    obtain rfl : rest = [] := by
      have hlength := (hall w (by simp)).1
      rw [hone, length_cons] at hlength
      exact eq_nil_of_length_eq_zero (by omega)
    rw [hfirst]
    simp only [getElem?_cons_zero, Option.map_some, decode_encode, exec_ok_bind, hone, require]
    refine ⟨h, ?_⟩
    show Reply.walCommitted record.baseOffsets = .walCommitted (inCallOrder w.offsets)
    rw [← hcall]
    simp
  | none =>
    rw [hrecord] at hrecordGet
    rw [hrecordGet 0 (Nat.zero_le _)]
    simp only
    refine check_bind_or_corresponds h (require_alike _ _) ?_
    intro _ _ hwindow
    have hempty : requireArg (List.range commit.chunks.length ≠ [])
        "a WAL commit needs at least one chunk" =
          requireArg (commit.chunks ≠ []) "a WAL commit needs at least one chunk" := by
      by_cases hnil : commit.chunks = [] <;> simp [hnil, requireArg]
    rw [hempty]
    refine check_bind_or_corresponds h checked_alike ?_
    rintro _ _ ⟨hnonempty, -⟩
    have hne : commit.chunks ≠ [] := requireArg_eq_ok.mp hnonempty
    obtain ⟨claimed, hclaimed, hiff⟩ := h.isClaimed_eq commit.object
    have hcount : requireArg (commit.chunks.length ≤ u32Max)
        s!"too many chunks: {commit.chunks.length}" = .ok () := requireArg_eq_ok.mpr hu32
    rw [hclaimed, exec_ok_bind, hcount, exec_ok_bind]
    by_cases hrefused : claimed = true ∨ commit.object ∈ s.retired
    · left
      refine ⟨hrefused.imp_left hiff.mp, ?_⟩
      rw [require, if_neg, exec_error_bind]
      rintro ⟨rfl, hnot⟩
      simp [hretired.not.mp hnot] at hrefused
    · right
      push Not at hrefused
      rw [require, if_pos ⟨by simpa using hrefused.1, hretired.not.mpr hrefused.2⟩, exec_ok_bind]
      obtain ⟨streams, hload, hstreams⟩ := h.loadStreams_eq fun c hc => (hids c hc).1
      rw [hload, exec_ok_bind, forM_congr fun c hc => h.validateChunk_eq (hstreams c hc)]
      refine corresponds_check_bind h checked_alike ?_
      rintro _ _ ⟨hvalid, -⟩
      have hchecked := fun c hc => validateChunk_eq_ok.mp (validateChunks_eq_ok.mp hvalid c hc)
      obtain ⟨bases, m', hplaced, hexec⟩ := placeChunks_exec (s := s) commit.object
        fun c hc => (hchecked c hc).2.1
      rw [commitWal_exec hkey hrecord hwindow hne hu32 hvalid hexec] at hoffsets
      obtain ⟨final, offsets, htikv, horder, hfinal⟩ := h.place_agrees hlogged hchunks
        (by rw [hpicked, picked_range, map_fst_zip (by simp)]) hids
          (fun c hc => (hchecked c hc).2.1)
        (fun c hc => (hchecked c hc).2.2.1) hu32
        (fun c hc => hread _ (mem_append_left _ (mem_map.mpr ⟨c, hc, rfl⟩)))
        (by rw [hread _ (by simp), h.live, hlive hrecord hwindow]; rfl) hrecord hplaced hoffsets
      rw [exec_bind_of_ok hexec, exec_update_bind, exec_update_bind, exec_pure]
      refine (congrArg (fun outcome => Corresponds _ _ _ outcome _) htikv).mpr ⟨hfinal, ?_⟩
      exact congrArg Reply.walCommitted horder.symm

/-! ## Requests to the log engine -/

/-- A request to the log engine: the commit of a WAL object in one group of chunks, a
swap, or a trim. -/
inductive LogRequest
  | commitWal (commit : WalCommit) (members : List ℕ)
  | swapSegment (swap : SegmentSwap) (nowMs : ℕ)
  | trimPartition (stream : StreamId) (partition beforeOffset : ℕ) (fence : Option Fence)
      (nowMs : ℕ)

namespace LogRequest

/-- The request as a command of the state machine. -/
def command : LogRequest → Command
  | .commitWal commit _ => .commitWal commit.object commit.createdAtMs commit.chunks
  | .swapSegment swap nowMs => .swapSegment swap.stream swap.partition swap.replaces swap.segment
      swap.byteRange swap.maxTimestampMs swap.fence nowMs swap.fresh
  | .trimPartition stream partition beforeOffset fence nowMs =>
      .trimPartition stream partition beforeOffset fence nowMs

/-- The metastore clock at the request. -/
def clock (s : MetaState) : LogRequest → ℕ
  | .commitWal .. => s.clockMs
  | .swapSegment _ nowMs | .trimPartition _ _ _ _ nowMs => (s.advance nowMs).clockMs

/-- The request as a transaction on TiKV. -/
def body (F : Format) (clockMs : ℕ) : LogRequest → Txn Reply
  | .commitWal commit members => do
    let offsets ← commitGroup F commit 0 1 members clockMs
    return .walCommitted (inCallOrder offsets)
  | .swapSegment swap _ => do
    swapBody F swap clockMs
    return .segmentSwapped
  | .trimPartition stream partition beforeOffset fence _ => do
    let logStart ← Tikv.trimPartition F stream partition beforeOffset fence clockMs
    return .trimmed logStart

/-- What holds of a request when its transaction starts: its numbers are machine
numbers, its path was checked, and a commit's chunks are one group. -/
def Ready : LogRequest → Prop
  | .commitWal commit members => validateKey "WAL object path" commit.object = .ok () ∧
      planGroups commit.object commit.chunks maxGroupChunks maxGroupBytes = .ok [members] ∧
      ∀ c ∈ commit.chunks, c.stream ≤ u64Max ∧ c.partition ≤ u32Max
  | .swapSegment swap _ => validateKey "segment path" swap.segment = .ok () ∧
      swap.stream ≤ u64Max ∧ swap.partition ≤ u32Max ∧ ∀ r ∈ swap.replaces, r.1 ≤ u64Max
  | .trimPartition stream partition _ _ _ => stream ≤ u64Max ∧ partition ≤ u32Max

/-- What is stored of a commit's object: a record is of one group, and without a record a
commit inside its window finds no live chunks. -/
def Consistent (F : Format) (store : Store) (s : MetaState) : LogRequest → Prop
  | .commitWal commit _ =>
    (∀ w, store[(Key.walGroup commit.object 0).bytes F]? = some (encode F.group w) →
      w.groups = 1) ∧
    (s.walCommits[commit.object]? = none →
      s.clockMs ≤ satAdd commit.createdAtMs walCommitWindowMs →
      s.walLiveChunks[commit.object]? = none)
  | .swapSegment .. | .trimPartition .. => True

/-- TiKV refuses the request because its object is retired or claimed by garbage
collection, and changes nothing. -/
def Refused (F : Format) (store : Store) (s : MetaState) (outcome : Except Stop Reply × Store) :
    LogRequest → Prop
  | .commitWal commit _ => (Claimed F store commit.object ∨ commit.object ∈ s.retired) ∧
      outcome = (.error (.rejected (.staleCommit commit.object)), store)
  | .swapSegment swap nowMs => Claimed F store swap.segment ∧
      outcome = (.error (.rejected (.staleObject swap.segment swap.fresh.createdAtMs
        swap.fresh.maxAgeMs (s.advance nowMs).clockMs)), store)
  | .trimPartition .. => False

/-- TiKV answers the request as the state machine does and then represents its state, or it
refuses the request's object. -/
def Simulated (F : Format) (store : Store) (s : MetaState) (request : LogRequest) : Prop :=
  let outcome := runTxn (request.body F (request.clock s)) store
  request.Refused F store s outcome ∨ Agrees F Eq outcome (s.apply request.command)

end LogRequest

/-- The answer of a transaction, made a reply. -/
theorem agrees_reply {same : α → Reply → Prop} {reply : α → Reply} {body : Txn α}
    {raft : Except ApplyError Reply × MetaState} (hsame : ∀ a r, same a r → r = reply a)
    (h : Agrees F same (body.exec store) raft) :
    Agrees F Eq ((do let a ← body; return reply a : Txn Reply).exec store) raft := by
  obtain ⟨answer, state⟩ := raft
  rw [exec_bind]
  rcases hbody : body.exec store with ⟨_ | a, final⟩ <;> rw [hbody] at h <;> cases answer
  · exact h
  · exact h.2.elim
  · exact h.2.elim
  · exact ⟨h.1, (hsame _ _ h.2).symm⟩

theorem runTxn_of_rejected {β : Type} {body : Txn α} {f : α → Txn β} {e : ApplyError}
    (h : body.exec store = (.error (.rejected e), store)) :
    runTxn (body >>= f) store = (.error (.rejected e), store) := by
  rw [runTxn, exec_bind, h]

/-- **TiKV simulates the state machine on the log engine.** After every history, a store
that represents the state answers a commit of one group, a swap or a trim as the state
machine does and then represents the state after it, unless it refuses the request's
object as retired or claimed by garbage collection. A commit finds its object's record in
one group, or neither a record nor live chunks. -/
theorem tikv_simulates_log_engine {commands : List Command} {request : LogRequest}
    (hstore : Represents F store (after commands)) (hready : request.Ready)
    (hconsistent : request.Consistent F store (after commands))
    (hoffsets : OffsetsFit ((after commands).apply request.command).2.partitions) :
    request.Simulated F store (after commands) := by
  have hlogged := logged_after commands
  generalize after commands = s at *
  cases request with
  | commitWal commit members =>
    obtain ⟨hkey, hplan, hids⟩ := hready
    obtain ⟨hretry, hlive⟩ := hconsistent
    rcases hstore.commit_agrees hlogged hkey hplan hids hretry hlive hoffsets with
      ⟨hobject, hrefused⟩ | hagrees
    · exact .inl ⟨hobject, runTxn_of_rejected hrefused⟩
    · exact .inr (agrees_runTxn (agrees_reply (fun _ _ h => h) hagrees))
  | swapSegment swap nowMs =>
    obtain ⟨hkey, hid, hpartition, hbases⟩ := hready
    rcases hstore.swap_agrees hlogged hkey hid hpartition hbases nowMs with
      ⟨hclaimed, hrefused⟩ | hagrees
    · exact .inl ⟨hclaimed, runTxn_of_rejected hrefused⟩
    · exact .inr (agrees_runTxn (agrees_reply (fun _ _ h => h) hagrees))
  | trimPartition stream partition beforeOffset fence nowMs =>
    exact .inr (agrees_runTxn (agrees_reply (fun _ _ h => h)
      (hstore.trim_agrees hlogged hready.1 hready.2 beforeOffset nowMs fence)))

/-! ## A store for every state -/

deriving instance Countable for Head, WalGroup, ObjectRef

/-- Formats exist. -/
theorem nonempty_format : Nonempty Format := by
  obtain ⟨head⟩ := Codec.nonempty_of_countable Head
  obtain ⟨entry⟩ := Codec.nonempty_of_countable IndexEntry
  obtain ⟨group⟩ := Codec.nonempty_of_countable WalGroup
  obtain ⟨object⟩ := Codec.nonempty_of_countable ObjectRef
  obtain ⟨stream⟩ := Codec.nonempty_of_countable Meta.Stream
  obtain ⟨lease⟩ := Codec.nonempty_of_countable Lease
  exact ⟨⟨fun _ => 0, head, entry, group, object, stream, lease⟩⟩

/-- The groups in which a commit record is stored. -/
structure Grouping (record : WalCommitRecord) where
  groups : List WalGroup
  ne_nil : groups ≠ []
  eq : ∀ g ∈ groups, g.groups = groups.length ∧ g.createdAtMs = record.createdAtMs
  order : inCallOrder (groups.flatMap WalGroup.offsets) = record.baseOffsets

/-- A record in one group. -/
def Grouping.one (record : WalCommitRecord) : Grouping record where
  groups := [⟨1, record.createdAtMs, (List.range record.baseOffsets.length).zip record.baseOffsets⟩]
  ne_nil := by simp
  eq := by simp
  order := by simpa using inCallOrder_range record.baseOffsets

section Exists

variable (F) (s) (grouping : ∀ record, Grouping record)

/-- What a store holds under a key. -/
def valueAt : Key → Option Bytes
  | .stream id => (s.streams[id]?).map (encode F.stream)
  | .head id partition => (s.partitions[(id, partition)]?).map fun p => encode F.head (headOf p)
  | .indexEntry id partition base =>
    ((s.partitions[(id, partition)]?).bind fun p => p.index[base]?).map (encode F.entry)
  | .walGroup o group =>
    ((s.walCommits[o]?).bind fun record => (grouping record).groups[group]?).map (encode F.group)
  | .walLive o => (s.walLiveChunks[o]?).map (beBytes 4)
  | .retired o => (s.retired[o]?).map (beBytes 8)
  | .objectRef _ => none
  | .lease key => (s.leases[key]?).map (encode F.lease)

/-- The keys that hold something. -/
def keysOf : List Key :=
  s.streams.keys.map .stream ++ s.partitions.keys.map (fun k => .head k.1 k.2) ++
    s.partitions.toList.flatMap (fun kp => kp.2.index.keys.map (.indexEntry kp.1.1 kp.1.2)) ++
    s.walCommits.toList.flatMap (fun kr =>
      (List.range (grouping kr.2).groups.length).map (.walGroup kr.1)) ++
    s.walLiveChunks.keys.map .walLive ++ s.retired.keys.map .retired ++ s.leases.keys.map .lease

/-- The keys of a state are all that hold something. -/
theorem mem_keysOf {k : Key} (h : valueAt F s grouping k ≠ none) : k ∈ keysOf s grouping := by
  simp only [keysOf, mem_append, mem_flatMap, mem_map, Std.ExtTreeMap.mem_keys,
    List.mem_range]
  cases k with
  | objectRef => exact absurd rfl h
  | indexEntry id partition base =>
    obtain ⟨e, he⟩ := Option.ne_none_iff_exists'.mp (mt Option.map_eq_none_iff.mpr h)
    obtain ⟨p, hp, he⟩ := Option.bind_eq_some_iff.mp he
    have hentry : ∃ kp ∈ s.partitions.toList, ∃ base' ∈ kp.2.index,
        Key.indexEntry kp.1.1 kp.1.2 base' = .indexEntry id partition base :=
      ⟨((id, partition), p), mem_toList_iff_getElem?_eq_some.mpr hp, base, mem_of_get he, rfl⟩
    simp only [hentry, true_or, or_true]
  | walGroup o group =>
    obtain ⟨g, hg⟩ := Option.ne_none_iff_exists'.mp (mt Option.map_eq_none_iff.mpr h)
    obtain ⟨record, hrecord, hg⟩ := Option.bind_eq_some_iff.mp hg
    have hgroup : ∃ kr ∈ s.walCommits.toList, ∃ i < (grouping kr.2).groups.length,
        Key.walGroup kr.1 i = .walGroup o group :=
      ⟨(o, record), mem_toList_iff_getElem?_eq_some.mpr hrecord, group,
        (List.getElem?_eq_some_iff.mp hg).1, rfl⟩
    simp only [hgroup, true_or, or_true]
  | _ =>
    obtain ⟨v, hv⟩ := Option.ne_none_iff_exists'.mp (mt Option.map_eq_none_iff.mpr h)
    simp [mem_of_get hv]

/-- A store can be built key by key. -/
theorem exists_store (want : Key → Option Bytes) (keys : List Key) : ∃ store : Store,
    Keeps F (fun _ => True) ∅ store ∧
      ∀ k : Key, k.Fits → store[k.bytes F]? = if k ∈ keys then want k else none := by
  induction keys with
  | nil => exact ⟨∅, .refl _ _, fun k _ => by simp⟩
  | cons k keys ih =>
    obtain ⟨store, hkeeps, hget⟩ := ih
    cases hv : want k with
    | none =>
      refine ⟨store, hkeeps, fun l hl => ?_⟩
      rw [hget l hl]
      by_cases hkl : l = k <;> simp [hkl, hv]
    | some v =>
      by_cases hk : k.Fits
      · refine ⟨store.insert (k.bytes F) v, hkeeps.trans (.insert hk trivial v), fun l hl => ?_⟩
        rw [get_insert_bytes hk hl, hget l hl]
        by_cases hkl : k = l
        · simp [← hkl, hv]
        · simp [hkl, Ne.symm hkl]
      · refine ⟨store, hkeeps, fun l hl => ?_⟩
        have hne : l ≠ k := fun h => hk (h ▸ hl)
        simp [hget l hl, hne]

/-- Every state of the log engine is represented, with its records in any groups. -/
theorem exists_represents {commands : List Command}
    (hoffsets : ∀ e ∈ (after commands).partitions.toList, e.2.nextOffset ≤ u64Max)
    (hlive : ∀ e ∈ (after commands).walLiveChunks.toList, e.2 ≤ u32Max) :
    ∃ store, Represents F store (after commands) ∧
      ∀ k : Key, k.Fits → store[k.bytes F]? = valueAt F (after commands) grouping k := by
  have hcatalog := catalogInv_after commands
  generalize after commands = s at *
  obtain ⟨store, hkeeps, hstore⟩ := exists_store F (valueAt F s grouping) (keysOf s grouping)
  have hget : ∀ k : Key, k.Fits → store[k.bytes F]? = valueAt F s grouping k := fun k hk => by
    rw [hstore k hk]
    split_ifs with hmem
    · rfl
    · exact (not_not.mp (mt (mem_keysOf F s grouping) hmem)).symm
  refine ⟨store, ?_, hget⟩
  exact {
    streams := fun id hid => hget (.stream id) hid
    streamIds := fun id stream h => (hcatalog.streams.record id stream h).1
    partitions := fun id partition => hcatalog.partitions (id, partition)
    offsets := forall_get hoffsets
    leases := fun key => hget (.lease key) trivial
    entries := ⟨fun id partition base hk => hget _ hk, hkeeps.wellKeyed (by simp [WellKeyed])⟩
    heads := fun id partition hk => by
      rw [hget _ hk, valueAt]
      cases s.partitions[(id, partition)]? with
      | none => rfl
      | some p => exact .inl rfl
    live := fun o => hget (.walLive o) trivial
    liveFits := forall_get hlive
    retired := fun o => hget (.retired o) trivial
    commits := fun o => by
      cases hrecord : s.walCommits[o]? with
      | none =>
        exact fun group hk => (hget (.walGroup o group) hk).trans (by simp [valueAt, hrecord])
      | some record =>
        exact ⟨(grouping record).groups, (grouping record).ne_nil, fun group hk =>
          (hget (.walGroup o group) hk).trans (by simp [valueAt, hrecord]), (grouping record).eq,
          (grouping record).order⟩
    objects := fun path v hv => by
      rw [hget (.objectRef path) trivial] at hv
      cases hv }

end Exists

namespace Sample

/-- Three records for a partition of the stream. -/
def records (partition : ℕ) : WalChunk := ⟨1, partition, 3, ⟨0, 9⟩, 0⟩

/-- A new stream, and a first commit to it. -/
def commands (chunks : List WalChunk) : List Command :=
  [.createNamespace "n", .createStream 1 "s" 2 .standard {}, .commitWal "wal/1" 5 chunks]

/-- A commit of one object. -/
def commitOf (object : String) (createdAtMs : ℕ) : LogRequest :=
  .commitWal ⟨object, createdAtMs, [records 1]⟩ [0]


end Sample

open Sample in
/-- A commit to a partition that already holds one. -/
theorem tikv_simulates_log_engine_commit :
    let s := after (commands [records 1])
    (s.apply (commitOf "wal/2" 6).command).1 = .ok (.walCommitted [3]) ∧
      ∃ F store, Represents F store s ∧ (commitOf "wal/2" 6).Simulated F store s := by
  intro s
  obtain ⟨F⟩ := nonempty_format
  obtain ⟨store, hstore, hget⟩ : ∃ store, Represents F store s ∧ _ :=
    exists_represents F .one (by decide +kernel) (by decide +kernel)
  have hrecord : (after (commands [records 1])).walCommits["wal/2"]? = none := by decide +kernel
  refine ⟨by decide +kernel, F, store, hstore, tikv_simulates_log_engine hstore
    ⟨by decide +kernel, by decide +kernel, by decide +kernel⟩ ⟨fun w hw => ?_, fun _ _ => ?_⟩
    (forall_get (by decide +kernel))⟩
  · rw [hget (.walGroup "wal/2" 0) (Nat.zero_le _), valueAt, hrecord] at hw
    cases hw
  · decide +kernel

/-! ## Where TiKV differs -/

section Divergence

variable {group groups clockMs : ℕ}

/-- A first commit adds its chunks to the live count that it finds. -/
theorem live_of_commitGroup {offsets : List (ℕ × ℕ)} {final : Store} (hgroup : group ≤ u32Max)
    (hrecord : store[(Key.walGroup commit.object group).bytes F]? = none)
    (h : (commitGroup F commit group groups members clockMs).exec store = (.ok offsets, final)) :
    ∃ live, liveCount store[(Key.walLive commit.object).bytes F]? = .ok live ∧
      final[(Key.walLive commit.object).bytes F]? =
        some (beBytes 4 (min (live + min members.length u32Max) u32Max)) := by
  rw [commitGroup, exec_read_bind] at h
  dsimp only at h
  rw [batchGet_get (by simp), hrecord] at h
  -- the checks leave the store alone
  obtain ⟨_, -, h⟩ := exec_check_bind_ok.mp h
  obtain ⟨_, -, h⟩ := exec_check_bind_ok.mp h
  obtain ⟨_, -, h⟩ := exec_check_bind_ok.mp h
  obtain ⟨_, -, h⟩ := exec_check_bind_ok.mp h
  obtain ⟨_, -, h⟩ := exec_check_bind_ok.mp h
  obtain ⟨_, -, h⟩ := exec_check_bind_ok.mp h
  obtain ⟨_, -, h⟩ := exec_check_bind_ok.mp h
  obtain ⟨_, placed, -, h⟩ := exec_bind_ok.mp h
  rw [exec_update_bind] at h
  obtain ⟨live, hlive, h⟩ := exec_check_bind_ok.mp h
  rw [batchGet_get (by simp)] at hlive
  rw [exec_update_bind, exec_update_bind, exec_pure, Prod.mk.injEq] at h
  have hkey : (Key.walGroup commit.object group).Fits := hgroup
  have hliveKey : (Key.walLive commit.object).Fits := trivial
  refine ⟨live, hlive, ?_⟩
  rw [← h.2, get_insert_bytes hkey hliveKey, if_neg (by simp), getElem?_insert_self]

/-- A transaction that committed ran its body to the end. -/
theorem exec_of_runTxn {body : Txn α} {a : α} {final : Store}
    (h : runTxn body store = (.ok a, final)) : body.exec store = (.ok a, final) := by
  unfold runTxn at h
  split at h
  · cases h
  · exact h

variable {raft : Except ApplyError Reply × MetaState} {r : Reply}

/-- Without a record, TiKV adds to the live chunks that the object has. -/
theorem Represents.live_of_agrees (h : Represents F store s) {n : ℕ}
    (hagrees : Agrees F Eq
      (runTxn ((LogRequest.commitWal commit members).body F clockMs) store) raft)
    (hok : raft.1 = .ok r) (hrecord : s.walCommits[commit.object]? = none)
    (hlive : s.walLiveChunks[commit.object]? = some n) :
    (raft.2.walLiveChunks[commit.object]?).map (beBytes 4) =
      some (beBytes 4 (min (n + min members.length u32Max) u32Max)) := by
  obtain ⟨hafter, halike⟩ := hagrees
  rw [hok] at halike
  rcases hrun : runTxn ((LogRequest.commitWal commit members).body F clockMs) store with
    ⟨_ | reply, final⟩
  · rw [hrun] at halike
    exact halike.elim
  obtain ⟨offsets, final', hcommit, hanswer⟩ := exec_bind_ok.mp (exec_of_runTxn hrun)
  obtain rfl : final' = final := (Prod.mk.inj hanswer).2
  have hnone := h.commits commit.object
  rw [hrecord] at hnone
  obtain ⟨live, hcount, hfinal⟩ :=
    live_of_commitGroup (Nat.zero_le _) (hnone 0 (Nat.zero_le _)) hcommit
  have hn : liveCount ((some n).map (beBytes 4)) = .ok n :=
    decodeU32_beBytes (h.liveFits _ _ hlive)
  rw [h.live, hlive, hn] at hcount
  cases hcount
  rw [hrun] at hafter
  rw [← hafter.live, hfinal]

/-- TiKV refuses a commit in one group whose record is of more. -/
theorem groups_of_agrees {w : WalGroup}
    (hagrees : Agrees F Eq
      (runTxn ((LogRequest.commitWal commit members).body F clockMs) store) raft)
    (hok : raft.1 = .ok r)
    (hrecord : store[(Key.walGroup commit.object 0).bytes F]? = some (encode F.group w)) :
    w.groups = 1 := by
  by_contra hgroups
  have hcommit : (commitGroup F commit 0 1 members clockMs).exec store =
      (.error (.rejected (regrouped commit.object w.groups 1)), store) := by
    rw [commitGroup, exec_read_bind]
    dsimp only
    rw [batchGet_get (by simp), hrecord]
    simp [require, hgroups]
  have halike := hagrees.2
  rw [LogRequest.body, runTxn_of_rejected hcommit, hok] at halike
  exact halike

end Divergence

namespace Sample

/-- The object is committed, and much later its record is pruned. -/
def pruned : List Command := commands [records 1] ++ [.pruneWalCommits none 1800006]

/-- A record of two chunks in two groups. -/
def twoGroups (record : WalCommitRecord) : Grouping record :=
  if h : record.baseOffsets = [0, 0] then
    ⟨[⟨2, record.createdAtMs, [(0, 0)]⟩, ⟨2, record.createdAtMs, [(1, 0)]⟩], by simp, by simp,
      h ▸ rfl⟩
  else .one record

theorem not_refused {grouping : ∀ record, Grouping record} {createdAtMs : ℕ}
    {outcome : Except Stop Reply × Store}
    (hget : ∀ k : Key, k.Fits → store[k.bytes F]? = valueAt F s grouping k)
    (hretired : object ∉ s.retired) :
    ¬ (commitOf object createdAtMs).Refused F store s outcome := by
  rintro ⟨⟨r, hr, -⟩ | hmem, -⟩
  · rw [hget (.objectRef object) trivial] at hr
    cases hr
  · exact hretired hmem

end Sample

open Sample in
/-- The record of a commit is pruned, and its object is committed again with a later
creation time: the state machine has one live chunk, and TiKV two. And an object that was
committed in two groups is committed again in one: the state machine answers with the
offsets that it recorded, and TiKV refuses. -/
theorem commit_again_differs :
    (∃ F store, Represents F store (after pruned) ∧ (commitOf "wal/1" 1800006).Ready ∧
      ¬ (commitOf "wal/1" 1800006).Simulated F store (after pruned)) ∧
    ∃ F store, Represents F store (after (commands [records 0, records 1])) ∧
      (commitOf "wal/1" 5).Ready ∧
      ¬ (commitOf "wal/1" 5).Simulated F store (after (commands [records 0, records 1])) := by
  obtain ⟨F⟩ := nonempty_format
  constructor
  · obtain ⟨store, hstore, hget⟩ : ∃ store, Represents F store (after pruned) ∧ _ :=
      exists_represents F .one (by decide +kernel) (by decide +kernel)
    refine ⟨F, store, hstore,
      ⟨by decide +kernel, by decide +kernel, by decide +kernel⟩, ?_⟩
    rintro (hrefused | hagrees)
    · exact not_refused hget (by decide +kernel) hrefused
    have hone :
        ((after pruned).apply (commitOf "wal/1" 1800006).command).2.walLiveChunks["wal/1"]? =
      some 1 := by decide +kernel
    have hok : ((after pruned).apply (commitOf "wal/1" 1800006).command).1 =
      .ok (.walCommitted [3]) := by decide +kernel
    have htwo := hstore.live_of_agrees hagrees hok (by decide +kernel)
      (show (after pruned).walLiveChunks["wal/1"]? = some 1 by decide +kernel)
    exact absurd ((congrArg _ hone).symm.trans htwo) (by decide +kernel)
  · obtain ⟨store, hstore, hget⟩ :
        ∃ store, Represents F store (after (commands [records 0, records 1])) ∧ _ :=
      exists_represents F twoGroups (by decide +kernel) (by decide +kernel)
    refine ⟨F, store, hstore,
      ⟨by decide +kernel, by decide +kernel, by decide +kernel⟩, ?_⟩
    rintro (hrefused | hagrees)
    · exact not_refused hget (by decide +kernel) hrefused
    have hrecord := hget (.walGroup "wal/1" 0) (Nat.zero_le _)
    rw [valueAt, show (after (commands [records 0, records 1])).walCommits["wal/1"]? =
      some ⟨[0, 0], 5⟩ by decide +kernel] at hrecord
    have hok : ((after (commands [records 0, records 1])).apply (commitOf "wal/1" 5).command).1 =
      .ok (.walCommitted [0, 0]) := by decide +kernel
    exact absurd (groups_of_agrees hagrees hok hrecord) (by decide)

end Loams.Tikv
