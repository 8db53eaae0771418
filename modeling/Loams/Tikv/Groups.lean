/-
# Partition groups

A WAL commit is split into groups that each fit one transaction.
-/

import Mathlib.Data.List.NodupEquivFin
import Loams.Tikv.Log

namespace Loams.Tikv

open Loams.Data Loams.Meta Loams.Control List

/-- Most chunks of a group. -/
def maxGroupChunks : ℕ := 1024

/-- Most bytes of metastore writes of a group. -/
def maxGroupBytes : ℕ := 4 * 1024 * 1024

/-- The metastore bytes that a chunk of the object costs its group. -/
def chunkCost (object : String) : ℕ := satAdd object.utf8ByteSize 128

/-- The streams of the chunks, in the order of their first chunk. -/
def streamOrder (chunks : List WalChunk) : List StreamId :=
  chunks.foldl (fun order c => if c.stream ∈ order then order else order ++ [c.stream]) []

/-- The positions of a stream's chunks. -/
def positionsOf (chunks : List WalChunk) (stream : StreamId) : List ℕ :=
  (List.range chunks.length).filter fun i => (chunks[i]?).map WalChunk.stream = some stream

/-- The chunks of a stream do not fit one transaction. -/
def streamTooLarge (object : String) (stream chunks maxChunks maxBytes : ℕ) : ApplyError :=
  .invalidArgument
    (s!"stream {stream} has {chunks} chunks in WAL object {debugStr object}, and one stream's " ++
      s!"chunks must fit one partition group ({maxChunks} chunks, {maxBytes} bytes of " ++
      "metastore writes): split the object")

/-- The loop over the streams: a stream that does not fit closes the current group. -/
def fillGroups (object : String) (maxChunks maxBytes : ℕ) :
    List (StreamId × List ℕ) → List ℕ → ℕ → Except ApplyError (List (List ℕ))
  | [], current, _ => .ok [current]
  | (stream, positions) :: rest, current, currentBytes =>
    let bytes := min (chunkCost object * positions.length) u64Max
    if maxChunks < positions.length ∨ maxBytes < bytes then
      .error (streamTooLarge object stream positions.length maxChunks maxBytes)
    else if current ≠ [] ∧ (maxChunks < current.length + positions.length ∨
        maxBytes < satAdd currentBytes bytes) then do
      let groups ← fillGroups object maxChunks maxBytes rest positions bytes
      return current :: groups
    else fillGroups object maxChunks maxBytes rest (current ++ positions)
      (satAdd currentBytes bytes)

/-- Which chunks go into which transaction. -/
def planGroups (object : String) (chunks : List WalChunk) (maxChunks maxBytes : ℕ) :
    Except ApplyError (List (List ℕ)) := do
  let groups ← fillGroups object maxChunks maxBytes
    ((streamOrder chunks).map fun stream => (stream, positionsOf chunks stream)) [] 0
  return groups.map fun group => group.insertionSort (· ≤ ·)

variable {object : String} {chunks : List WalChunk} {maxChunks maxBytes : ℕ}
  {streams : List (StreamId × List ℕ)} {groups : List (List ℕ)}

/-- The metastore bytes of so many chunks, in the planner's saturating arithmetic. -/
def groupBytes (object : String) (n : ℕ) : ℕ := min (chunkCost object * n) u64Max

/-- So many chunks are within the limits of a group. -/
structure FitsGroup (object : String) (maxChunks maxBytes n : ℕ) : Prop where
  chunks : n ≤ maxChunks
  bytes : groupBytes object n ≤ maxBytes

@[simp] theorem fitsGroup_zero : FitsGroup object maxChunks maxBytes 0 :=
  ⟨Nat.zero_le _, by simp [groupBytes]⟩

/-! ## The groups partition the positions -/

/-- The order so far holds each stream once. -/
theorem streamOrder_spec (chunks : List WalChunk) (order : List StreamId) (h : order.Nodup) :
    let all := chunks.foldl
      (fun order c => if c.stream ∈ order then order else order ++ [c.stream]) order
    all.Nodup ∧ ∀ stream, stream ∈ all ↔ stream ∈ order ∨ stream ∈ chunks.map WalChunk.stream := by
  induction chunks generalizing order with
  | nil => simpa using h
  | cons c rest ih =>
    rw [foldl_cons]
    split_ifs with hc
    · obtain ⟨hnodup, hmem⟩ := ih order h
      refine ⟨hnodup, fun stream => (hmem stream).trans ?_⟩
      rw [map_cons, mem_cons]
      refine or_congr_right' fun hnot => (or_iff_right ?_).symm
      rintro rfl
      exact hnot hc
    · have hlonger : (order ++ [c.stream]).Nodup := by
        rw [← concat_eq_append]
        exact h.concat hc
      obtain ⟨hnodup, hmem⟩ := ih _ hlonger
      exact ⟨hnodup, fun stream => (hmem stream).trans (by simp [or_assoc])⟩

theorem nodup_streamOrder (chunks : List WalChunk) : (streamOrder chunks).Nodup :=
  (streamOrder_spec chunks [] nodup_nil).1

theorem mem_streamOrder {stream : StreamId} :
    stream ∈ streamOrder chunks ↔ stream ∈ chunks.map WalChunk.stream := by
  rw [streamOrder, (streamOrder_spec chunks [] nodup_nil).2]
  simp

theorem mem_positionsOf {stream : StreamId} {i : ℕ} :
    i ∈ positionsOf chunks stream ↔ (chunks[i]?).map WalChunk.stream = some stream := by
  rw [positionsOf, List.mem_filter, List.mem_range, decide_eq_true_eq]
  refine and_iff_right_of_imp fun h => ?_
  obtain ⟨c, hc, -⟩ := Option.map_eq_some_iff.mp h
  exact (List.getElem?_eq_some_iff.mp hc).1

theorem length_positionsOf (chunks : List WalChunk) (stream : StreamId) :
    (positionsOf chunks stream).length = chunks.countP (·.stream = stream) := by
  have hall : (List.range chunks.length).map (chunks[·]?) = chunks.map some :=
    ext_getElem (by simp) fun i hi hi' => by simp
  calc (positionsOf chunks stream).length
      = ((List.range chunks.length).map (chunks[·]?)).countP
          fun c => c.map WalChunk.stream = some stream := by
        rw [countP_map, countP_eq_length_filter]
        rfl
    _ = chunks.countP (·.stream = stream) := by
        rw [hall, countP_map]
        simp [Function.comp_def]

/-- The streams' positions are all the positions, each once. -/
theorem positions_perm (chunks : List WalChunk) :
    ((streamOrder chunks).flatMap (positionsOf chunks)).Perm (List.range chunks.length) := by
  refine (perm_ext_iff_of_nodup ?_ nodup_range).mpr fun i => ?_
  · refine nodup_flatMap.mpr ⟨fun stream _ => nodup_range.filter _, ?_⟩
    refine (nodup_streamOrder chunks).imp fun hne i hi hi' => hne ?_
    rw [mem_positionsOf] at hi hi'
    exact Option.some.inj (hi.symm.trans hi')
  · simp only [List.mem_flatMap, mem_streamOrder, mem_positionsOf, List.mem_range]
    constructor
    · rintro ⟨stream, -, h⟩
      obtain ⟨c, hc, -⟩ := Option.map_eq_some_iff.mp h
      exact (List.getElem?_eq_some_iff.mp hc).1
    · intro hi
      exact ⟨chunks[i].stream, List.mem_map_of_mem (List.getElem_mem hi), by simp [hi]⟩

/-- The groups hold the current one and the streams' positions, in order; none is over the
limits, and a stream is whole in one of them. -/
theorem fillGroups_ok {current : List ℕ}
    (hcurrent : FitsGroup object maxChunks maxBytes current.length)
    (h : fillGroups object maxChunks maxBytes streams current
      (groupBytes object current.length) = .ok groups) :
    groups.flatten = current ++ streams.flatMap Prod.snd ∧
      (∀ group ∈ groups, FitsGroup object maxChunks maxBytes group.length) ∧
      (∃ group ∈ groups, current ⊆ group) ∧ ∀ s ∈ streams, ∃ group ∈ groups, s.2 ⊆ group := by
  induction streams generalizing current groups with
  | nil =>
    obtain rfl := Except.ok.inj h
    simpa using hcurrent
  | cons next rest ih =>
    obtain ⟨stream, positions⟩ := next
    simp only [fillGroups] at h
    split_ifs at h with hlarge hclose
    · -- the stream opens a group of its own
      obtain ⟨groups', hrest, hok⟩ := except_bind_ok.mp h
      obtain rfl : current :: groups' = groups := Except.ok.inj hok
      obtain ⟨hflat, hall, hpositions, hstreams⟩ :=
        ih ⟨by omega, not_lt.mp (not_or.mp hlarge).2⟩ hrest
      refine ⟨by simp [hflat], by simpa [hcurrent] using hall, ⟨current, by simp, by simp⟩, ?_⟩
      exact forall_mem_cons.mpr ⟨exists_mem_cons_of_exists hpositions,
        fun s hs => exists_mem_cons_of_exists (hstreams s hs)⟩
    · have hbytes : satAdd (groupBytes object current.length) (groupBytes object positions.length) =
          groupBytes object (current ++ positions).length := by
        unfold satAdd groupBytes
        rw [length_append, Nat.mul_add]
        omega
      have hfits : FitsGroup object maxChunks maxBytes (current ++ positions).length := by
        rcases eq_or_ne current [] with rfl | hne
        · exact ⟨by simpa using (not_or.mp hlarge).1, not_lt.mp (not_or.mp hlarge).2⟩
        · obtain ⟨hlength, hsum⟩ := not_or.mp (not_and.mp hclose hne)
          exact ⟨by simpa using hlength, hbytes ▸ not_lt.mp hsum⟩
      obtain ⟨hflat, hall, ⟨group, hgroup, hsub⟩, hstreams⟩ := ih hfits (hbytes ▸ h)
      obtain ⟨hleft, hright⟩ := append_subset.mp hsub
      exact ⟨by simp [hflat], hall, ⟨group, hgroup, hleft⟩,
        forall_mem_cons.mpr ⟨⟨group, hgroup, hright⟩, hstreams⟩⟩

/-- Only a stream that no group can hold is refused. -/
theorem fillGroups_error_iff {current : List ℕ} {bytes : ℕ} :
    (∃ e, fillGroups object maxChunks maxBytes streams current bytes = .error e) ↔
      ∃ s ∈ streams, ¬FitsGroup object maxChunks maxBytes s.2.length := by
  induction streams generalizing current bytes with
  | nil => simp [fillGroups]
  | cons next rest ih =>
    obtain ⟨stream, positions⟩ := next
    rw [exists_mem_cons_iff]
    simp only [fillGroups]
    split_ifs with hlarge hclose
    · exact iff_of_true ⟨_, rfl⟩
        (.inl fun hfits => hlarge.elim hfits.chunks.not_gt hfits.bytes.not_gt)
    all_goals
      have hfits : FitsGroup object maxChunks maxBytes positions.length :=
        ⟨not_lt.mp (not_or.mp hlarge).1, not_lt.mp (not_or.mp hlarge).2⟩
      rw [or_iff_right (not_not_intro hfits)]
    · simpa only [except_map_error] using ih
    · exact ih

/-- The groups of a call partition the positions of its chunks; each is in call order
and fits, and a stream is whole in one of them. -/
theorem planGroups_ok (h : planGroups object chunks maxChunks maxBytes = .ok groups) :
    groups.flatten.Perm (List.range chunks.length) ∧
      (∀ group ∈ groups, group.Pairwise (· < ·) ∧
        FitsGroup object maxChunks maxBytes group.length) ∧
      ∀ stream, ∃ group ∈ groups, positionsOf chunks stream ⊆ group := by
  obtain ⟨plain, hfill, hok⟩ := except_bind_ok.mp h
  obtain rfl := Except.ok.inj hok
  obtain ⟨hflat, hall, ⟨group, hgroup, -⟩, hstreams⟩ := fillGroups_ok fitsGroup_zero hfill
  have hperm : (plain.map fun group => group.insertionSort (· ≤ ·)).flatten.Perm
      (List.range chunks.length) := by
    rw [← flatMap_def]
    refine (Perm.flatMap_left plain fun group _ => perm_insertionSort _ group).trans ?_
    rw [flatMap_id', hflat, nil_append, flatMap_map]
    exact positions_perm chunks
  refine ⟨hperm, fun group hgroup => ?_, fun stream => ?_⟩
  · have hnodup := (nodup_flatten.mp (hperm.nodup_iff.mpr nodup_range)).1 group hgroup
    obtain ⟨g, hg, rfl⟩ := mem_map.mp hgroup
    refine ⟨(pairwise_insertionSort _ g).imp₂ (fun _ _ => lt_of_le_of_ne) hnodup, ?_⟩
    rw [length_insertionSort]
    exact hall g hg
  · obtain ⟨g, hg, hsub⟩ : ∃ g ∈ plain, positionsOf chunks stream ⊆ g := by
      by_cases hmem : stream ∈ streamOrder chunks
      · exact hstreams _ (mem_map_of_mem hmem)
      · refine ⟨group, hgroup, fun i hi => absurd (mem_streamOrder.mpr ?_) hmem⟩
        obtain ⟨c, hc, hstream⟩ := Option.map_eq_some_iff.mp (mem_positionsOf.mp hi)
        exact mem_map.mpr ⟨c, mem_of_getElem? hc, hstream⟩
    exact ⟨_, mem_map_of_mem hg, fun i hi => (mem_insertionSort _).mpr (hsub hi)⟩

/-- Results by position, in the order of any arrangement of the positions. -/
theorem inCallOrder_of_perm {positions : List ℕ} {n : ℕ} (h : positions.Perm (List.range n))
    (bases : ℕ → ℕ) :
    inCallOrder (positions.map fun i => (i, bases i)) = (List.range n).map bases := by
  have hsorted : ((List.range n).map fun i => (i, bases i)).Pairwise fun a b => a.1 ≤ b.1 :=
    pairwise_map.mpr (pairwise_lt_range.imp fun hlt => hlt.le)
  have heq : (positions.map fun i => (i, bases i)).insertionSort (fun a b => a.1 ≤ b.1) =
      (List.range n).map fun i => (i, bases i) := by
    refine List.Perm.eq_of_pairwise (fun a b ha hb hab hba => ?_)
      (pairwise_insertionSort _ _) hsorted ((perm_insertionSort _ _).trans (h.map _))
    obtain ⟨i, -, rfl⟩ := mem_map.mp ((mem_insertionSort _).mp ha)
    obtain ⟨j, -, rfl⟩ := mem_map.mp hb
    obtain rfl : i = j := le_antisymm hab hba
    rfl
  rw [inCallOrder, heq, map_map]
  rfl

/-- **The groups of a call cover it exactly.** Planning fails only for a stream whose chunks
alone are over the limits. Otherwise the groups hold each position once, in ascending order,
within the limits and with no stream split, and the results of the groups, sorted by
position, are in the order of the call. -/
theorem planGroups_covers (object : String) (chunks : List WalChunk) (maxChunks maxBytes : ℕ) :
    ((∃ e, planGroups object chunks maxChunks maxBytes = .error e) ↔
      ∃ stream, ¬FitsGroup object maxChunks maxBytes (chunks.countP (·.stream = stream))) ∧
    ∀ groups, planGroups object chunks maxChunks maxBytes = .ok groups →
      groups.flatten.Perm (List.range chunks.length) ∧
      (∀ group ∈ groups, group.Pairwise (· < ·) ∧
        FitsGroup object maxChunks maxBytes group.length) ∧
      (∀ stream, ∃ group ∈ groups, ∀ i, (chunks[i]?).map WalChunk.stream = some stream →
        i ∈ group) ∧
      ∀ bases : ℕ → ℕ, inCallOrder (groups.flatMap fun group => group.map fun i => (i, bases i)) =
        (List.range chunks.length).map bases := by
  refine ⟨?_, fun groups h => ?_⟩
  · simp only [planGroups, except_map_error, fillGroups_error_iff, mem_map,
      exists_exists_and_eq_and, length_positionsOf]
    constructor
    · rintro ⟨stream, -, hlarge⟩
      exact ⟨stream, hlarge⟩
    · rintro ⟨stream, hlarge⟩
      refine ⟨stream, mem_streamOrder.mpr ?_, hlarge⟩
      by_contra hnone
      have hzero : chunks.countP (·.stream = stream) = 0 :=
        countP_eq_zero.mpr fun c hc heq =>
          hnone (mem_map.mpr ⟨c, hc, of_decide_eq_true heq⟩)
      exact hlarge (hzero ▸ fitsGroup_zero)
  · obtain ⟨hperm, hall, hstreams⟩ := planGroups_ok h
    refine ⟨hperm, hall, fun stream => ?_, fun bases => ?_⟩
    · exact (hstreams stream).imp fun _ hg => ⟨hg.1, fun i hi => hg.2 (mem_positionsOf.mpr hi)⟩
    · rw [← map_flatMap, flatMap_id']
      exact inCallOrder_of_perm hperm bases

/-- Two streams with their chunks interleaved, in groups of two. -/
theorem planGroups_covers_interleaved :
    inCallOrder ([[0, 2], [1]].flatMap fun group => group.map fun i => (i, i + 7)) = [7, 8, 9] :=
  ((planGroups_covers "wal/1" [⟨1, 0, 3, ⟨0, 9⟩, 0⟩, ⟨2, 0, 1, ⟨9, 12⟩, 0⟩, ⟨1, 0, 2, ⟨12, 20⟩, 0⟩]
    2 1000).2 [[0, 2], [1]] (by decide)).2.2.2 (· + 7)

/-- One group holds every position in call order. -/
theorem planGroups_singleton {members : List ℕ}
    (h : planGroups object chunks maxChunks maxBytes = .ok [members]) :
    members = List.range chunks.length ∧ chunks.length ≤ maxChunks := by
  obtain ⟨hperm, hall, -⟩ := planGroups_ok h
  obtain ⟨hsorted, hfits⟩ := hall members (by simp)
  rw [flatten_singleton] at hperm
  have hrange := hperm.length_eq
  rw [length_range] at hrange
  exact ⟨hperm.eq_of_pairwise' hsorted pairwise_lt_range, hrange ▸ hfits.chunks⟩

end Loams.Tikv
