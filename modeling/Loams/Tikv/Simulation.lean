/-
# The TiKV log engine simulates the state machine
-/

import Loams.Tikv.Releases

namespace Loams.Tikv

open List hiding mem_insert_iff
open Loams.Data Loams.Meta Loams.Control Program MetaState Std.ExtTreeMap Key

variable {F : Format} {store store' : Store} {s : MetaState} {α : Type}
  {replaces : List (ℕ × String)}
variable {id partition : ℕ} {p q : PartitionState}

/-- A transaction and a command agree: the store represents the state after the
command, and the answers are the same. -/
abbrev Agrees (F : Format) {α : Type} (same : α → Reply → Prop) :
    Except Stop α × Store → Except ApplyError Reply × MetaState → Prop :=
  Corresponds (Represents F) (fun stop e => stop = .rejected e) same

/-- A transaction that agrees did not fail, so its writes stay. -/
theorem agrees_runTxn {same : α → Reply → Prop} {body : Txn α}
    {raft : Except ApplyError Reply × MetaState} (h : Agrees F same (body.exec store) raft) :
    Agrees F same (runTxn body store) raft := by
  rcases hbody : body.exec store with ⟨result, final⟩
  rw [hbody] at h
  rw [runTxn, hbody]
  match result with
  | .ok _ | .error (.rejected _) => exact h
  | .error (.fatal _) =>
    obtain ⟨_ | _, state⟩ := raft
    · exact nomatch h.2
    · exact h.2.elim

theorem checked_map_alike {β : Type} {x : Except ApplyError α} (f : α → β) :
    AnswersAlike (fun stop e => stop = Stop.rejected e) (fun _ a => x = .ok a)
      (checked (x.map f)) x := by
  cases x <;> rfl

theorem checked_alike {x : Except ApplyError α} :
    AnswersAlike (fun stop e => stop = Stop.rejected e) (fun a b => x = .ok b ∧ a = b)
      (checked x) x := by
  cases x with
  | error e => exact rfl
  | ok a => exact ⟨rfl, rfl⟩

theorem alike_checked {β : Type} {V : α → β → Prop} {x : Except ApplyError α}
    {y : Except ApplyError β} (h : AnswersAlike Eq V x y) :
    AnswersAlike (fun stop e => stop = Stop.rejected e) V (checked x) y := by
  cases x <;> cases y
  · exact congrArg Stop.rejected h
  all_goals exact h

theorem require_alike (ok : Prop) [Decidable ok] (e : ApplyError) :
    AnswersAlike (fun stop e => stop = Stop.rejected e) (fun _ _ => ok)
      (require ok (Stop.rejected e)) (require ok e) := by
  unfold require
  split_ifs with h
  · exact h
  · rfl

/-! ## Shared checks -/

/-- Both sides find the same partitions. -/
theorem Represents.checkPartition_eq (h : Represents F store s) (hid : id ≤ u64Max) :
    checkPartition F store id partition =
      checked ((s.partitionState id partition).map fun _ => ()) := by
  rw [checkPartition, load_eq F.stream (h.streams id hid), partitionState]
  cases hstream : s.streams[id]? with
  | none =>
    have hnot : id ∉ s.streams := not_mem_iff_get.mpr hstream
    simp [require, hnot, checked, Except.map, Except.mapError, bind, Except.bind]
  | some stream =>
    have hin : id ∈ s.streams := mem_of_get hstream
    have hpartitions := h.partitions id partition
    simp only [hstream, Option.some.injEq, exists_eq_left'] at hpartitions
    simp only [require, hin, if_true, bind, Except.bind]
    by_cases hlt : partition < stream.partitions
    · obtain ⟨p, hp⟩ := mem_iff_get.mp (hpartitions.mpr hlt)
      simp [hp, Nat.not_le.mpr hlt, checked, Except.map, Except.mapError]
    · have hp := not_mem_iff_get.mp fun hmem => hlt (hpartitions.mp hmem)
      simp [hp, Nat.le_of_not_lt hlt, checked, Except.map, Except.mapError]

theorem Represents.checkFence?_eq (h : Represents F store s) (fence : Option Fence) :
    checkFence? F store fence = checked (s.checkFence? fence) := by
  cases fence with
  | none => rfl
  | some fence =>
    rw [checkFence?, checkFence, load_eq F.lease (h.leases fence.lease), MetaState.checkFence?,
      MetaState.checkFence]
    cases hlease : s.leases[fence.lease]? with
    | none => simp [fenceHolds, hlease, require, checked, Except.mapError, bind, Except.bind]
    | some lease =>
      simp only [fenceHolds, hlease, require, checked, bind, Except.bind, Bool.and_eq_true,
        decide_eq_true_eq]
      split_ifs <;> rfl

/-- The head of an existing partition is read as it is. -/
theorem Represents.decodeHead_eq (h : Represents F store s) (hid : id ≤ u64Max)
    (hpartition : partition ≤ u32Max) : ∃ head,
    decodeHead F store[(Key.head id partition).bytes F]? = .ok head ∧
      ∀ p, s.partitions[(id, partition)]? = some p → head = headOf p := by
  have hhead := h.heads id partition ⟨hid, hpartition⟩
  cases hp : s.partitions[(id, partition)]? with
  | none =>
    simp only [hp] at hhead
    exact ⟨{}, by rw [hhead]; rfl, nofun⟩
  | some p =>
    simp only [hp] at hhead
    refine ⟨headOf p, ?_, fun q hq => by rw [Option.some.inj hq]⟩
    rcases hhead with hhead | ⟨hhead, hempty⟩
    · rw [hhead]
      exact decode_encode _ _ _
    · rw [hhead, hempty]
      rfl

/-! ## One partition is rewritten -/

/-- The keys of a partition. -/
def IsPartition (id partition : ℕ) : Key → Prop
  | .head id' partition' | .indexEntry id' partition' _ => id' = id ∧ partition' = partition
  | _ => False

/-- Entries that are all readable are found under their keys. -/
theorem decodeEntries_eq {l : List (Bytes × Bytes)}
    (hl : ∀ pair ∈ l, ∃ e, pair.2 = encode F.entry e) (hkeys : l.Pairwise fun a b => a.1 ≠ b.1) :
    ∃ found, decodeEntries F l = .ok found ∧
      ∀ key e, found[key]? = some e ↔ (key, encode F.entry e) ∈ l := by
  induction l with
  | nil => exact ⟨∅, rfl, by simp⟩
  | cons pair l ih =>
    obtain ⟨key, value⟩ := pair
    rw [forall_mem_cons] at hl
    rw [pairwise_cons] at hkeys
    obtain ⟨⟨e, rfl⟩, hl⟩ := hl
    obtain ⟨found, hfound, hget⟩ := ih hl hkeys.2
    refine ⟨found.insert key e, ?_, fun key' e' => ?_⟩
    · rw [decodeEntries, decode_encode, hfound]
      rfl
    · rw [get_insert]
      split_ifs with hkey
      · subst hkey
        have hfresh : (key, encode F.entry e') ∉ l := fun hin => hkeys.1 _ hin rfl
        simp [hfresh, encode_inj, eq_comm]
      · rw [hget]
        simp [Ne.symm hkey]

section

variable (h : Represents F store s) (hid : id ≤ u64Max) (hpartition : partition ≤ u32Max)
  (hp : s.partitions[(id, partition)]? = some p)
include h hid hpartition hp

/-- A partition is rewritten and the entries it lost are released: the store goes on
to represent the state. -/
theorem Represents.rewritten {left : Store} (hnext : q.nextOffset = p.nextOffset)
    (hkeeps : Keeps F (IsPartition id partition) store left)
    (hindex : ∀ base, (indexEntry id partition base).Fits →
      left[(indexEntry id partition base).bytes F]? = (q.index[base]?).map (encode F.entry))
    (clockMs : ℕ) (removed : List IndexEntry) :
    ∃ final, (do
        update fun store => store.insert ((Key.head id partition).bytes F)
          (encode F.head (headOf q))
        releaseEntries F removed clockMs : Txn Unit).exec left = (.ok (), final) ∧
      Represents F final (MetaState.releaseEntries { s with
        clockMs
        partitions := s.partitions.insert (id, partition) q } removed) := by
  have hhead : (Key.head id partition).Fits := ⟨hid, hpartition⟩
  replace hkeeps := hkeeps.trans (Keeps.insert hhead ⟨rfl, rfl⟩ (encode F.head (headOf q)))
  rw [exec_update_bind]
  set t : MetaState := { s with
    clockMs
    partitions := s.partitions.insert (id, partition) q }
  obtain ⟨final, hexec, hrelease, hlive, hretired⟩ := releaseEntries_spec (s := t)
    (fun o => (hkeeps.get (.walLive o) trivial (by simp [IsPartition])).trans (h.live o))
    h.liveFits
    (fun o => (hkeeps.get (.retired o) trivial (by simp [IsPartition])).trans (h.retired o)) removed
  refine ⟨final, hexec, ?_⟩
  obtain ⟨live, retired, heq⟩ := releaseEntries_eq (s := t) removed
  have hboth : ∀ k : Key, k.Fits → ¬IsPartition id partition k → ¬IsRelease k →
      final[k.bytes F]? = store[k.bytes F]? := fun k hk hnot hnot' =>
    (hrelease.get k hk hnot').trans (hkeeps.get k hk hnot)
  have hkeepsLog : Keeps F IsLog store final :=
    (hkeeps.mono fun k hk => by cases k <;> simp_all [IsPartition, IsLog]).trans
      (hrelease.mono fun k hk => by cases k <;> simp_all [IsRelease, IsLog])
  have hfits : ∀ (o : String) (n : ℕ),
      (t.releaseEntries removed).walLiveChunks[o]? = some n → n ≤ u32Max := by
    intro o n hn
    rw [(releaseEntries_get (s := t) removed o).1] at hn
    have hle : n ≤ (t.walLiveChunks[o]?).getD 0 := by
      have hgetD := getD_liveAfter t.walLiveChunks[o]? (removed.countP (namesWal o))
      rw [hn, Option.getD_some] at hgetD
      exact hgetD ▸ Nat.sub_le _ _
    cases hold : t.walLiveChunks[o]? with
    | none => simp [hold] at hle; omega
    | some m =>
      have hm := h.liveFits o m hold
      simp [hold] at hle
      omega
  have hpartitions : (t.releaseEntries removed).partitions =
      s.partitions.insert (id, partition) q := releaseEntries_partitions removed
  refine h.of_keeps hkeepsLog (by rw [heq]) (by rw [heq]) ?_ ?_ ?_ ?_ hlive hfits hretired ?_
  · intro k
    rw [hpartitions, mem_insert_iff_of_get hp]
  · intro k r hr
    rw [hpartitions] at hr
    rcases get_insert_eq_some.mp hr with ⟨-, rfl⟩ | ⟨-, hr⟩
    · exact hnext ▸ h.offsets _ p hp
    · exact h.offsets k r hr
  · intro i j base hkey
    rw [hpartitions, get_insert, hrelease.get _ hkey (by simp [IsRelease])]
    split_ifs with hij
    · obtain ⟨rfl, rfl⟩ := Prod.mk.inj hij
      rw [get_insert_bytes hhead hkey, if_neg (by simp)]
      exact hindex base hkey
    · rw [hkeeps.get _ hkey (by rintro ⟨rfl, rfl⟩; exact hij rfl)]
      exact h.entries.get i j base hkey
  · intro i j hkey
    rw [hpartitions, get_insert, hrelease.get _ hkey (by simp [IsRelease])]
    split_ifs with hij
    · obtain ⟨rfl, rfl⟩ := Prod.mk.inj hij
      exact .inl (by simp)
    · rw [hkeeps.get _ hkey (by rintro ⟨rfl, rfl⟩; exact hij rfl)]
      exact h.heads i j hkey
  · intro o
    rw [heq]
    exact (h.commits o).of_eq fun group hgroup =>
      hboth (.walGroup o group) hgroup (by simp [IsPartition]) (by simp [IsRelease])

/-- Entries of a partition's log that are erased from the store, and what is left of it. -/
theorem Represents.erased {first : ℕ} {es : List IndexEntry} (hlog : p.Log first es)
    {run : List IndexEntry} (hrun : run ⊆ es) :
    ∃ left, run.foldl (fun store e =>
        store.erase ((indexEntry id partition e.baseOffset).bytes F)) store = left ∧
      Keeps F (IsPartition id partition) store left ∧ ∀ base, (indexEntry id partition base).Fits →
        left[(indexEntry id partition base).bytes F]? =
          if base ∈ run.map IndexEntry.baseOffset then none
          else (p.index[base]?).map (encode F.entry) := by
  have hfits : ∀ e ∈ run, (indexEntry id partition e.baseOffset).Fits := fun e he => by
    have hbounds := hlog.tiles.bounds_of_mem (hrun he)
    have hoffset := h.offsets _ p hp
    exact ⟨hid, hpartition, by omega⟩
  refine ⟨_, rfl, Keeps.foldl fun e he _ => Keeps.erase (hfits e he) ⟨rfl, rfl⟩,
    fun base hkey => ?_⟩
  have hmem : (indexEntry id partition base).bytes F ∈
        run.map (fun e => (indexEntry id partition e.baseOffset).bytes F) ↔
      base ∈ run.map IndexEntry.baseOffset := by
    simp only [mem_map]
    refine exists_congr fun e => and_congr_right fun he => ⟨fun heq => ?_, fun heq => heq ▸ rfl⟩
    simpa using bytes_inj (hfits e he) hkey heq
  simp only [get_foldl_erase, hmem, h.entries.get _ _ _ hkey, hp, Option.bind_some]

/-- The partition whose entries up to an offset go, in the store. -/
theorem Represents.trimmed {first first' : ℕ} {run post : List IndexEntry}
    (hlog : p.Log first (run ++ post))
    (hq : q.Log first' post) (hnext : q.nextOffset = p.nextOffset) (clockMs : ℕ) :
    ∃ final, (do
        update fun store => (run.map (keyed F id partition)).foldl
          (fun store r => store.erase r.1) store
        update fun store => store.insert ((Key.head id partition).bytes F)
          (encode F.head (headOf q))
        releaseEntries F run clockMs : Txn Unit).exec store = (.ok (), final) ∧
      Represents F final (MetaState.releaseEntries { s with
        clockMs
        partitions := s.partitions.insert (id, partition) q } run) := by
  obtain ⟨left, hleft, herase, hget⟩ :=
    h.erased hid hpartition hp hlog (subset_append_left run post)
  rw [exec_update_bind]
  simp only [foldl_map, keyed, hleft]
  refine h.rewritten hid hpartition hp hnext herase ?_ clockMs run
  intro base hkey
  have hall : p.Indexes ([] ++ (run ++ post)) := hlog.toIndexes
  rw [hget base hkey, hall.get_without hq.toIndexes base]
  split_ifs <;> rfl

/-- The segment takes the place of the run in the store. -/
theorem Represents.replaced {first : ℕ} {pre run post : List IndexEntry} {segment : IndexEntry}
    (hlog : p.Log first (pre ++ (run ++ post))) (hq : q.Log first (pre ++ segment :: post))
    (hnext : q.nextOffset = p.nextOffset) (hstart : q.logStartOffset = p.logStartOffset)
    (clockMs : ℕ) :
    ∃ final, (do
        update fun _ => ((run.filter fun e => e.baseOffset ≠ segment.baseOffset).foldl
          (fun store e => store.erase ((indexEntry id partition e.baseOffset).bytes F))
          store).insert ((indexEntry id partition segment.baseOffset).bytes F)
            (encode F.entry segment)
        update fun store => store.insert ((Key.head id partition).bytes F)
          (encode F.head { headOf p with
            bytes := p.bytes - (run.map entryBytes).sum + entryBytes segment })
        releaseEntries F run clockMs : Txn Unit).exec store = (.ok (), final) ∧
      Represents F final (MetaState.releaseEntries { s with
        clockMs
        partitions := s.partitions.insert (id, partition) q } run) := by
  obtain ⟨left, hleft, herase, hget⟩ := h.erased hid hpartition hp hlog
    (fun e he => by simp [(mem_filter.mp he).1] :
      (run.filter fun e => e.baseOffset ≠ segment.baseOffset) ⊆ _)
  have hfirst : (indexEntry id partition segment.baseOffset).Fits := by
    have hbounds := hq.tiles.bounds_of_mem (e := segment) (by simp)
    have hoffset := h.offsets _ p hp
    exact ⟨hid, hpartition, by omega⟩
  have hheadOf : { headOf p with
      bytes := p.bytes - (run.map entryBytes).sum + entryBytes segment } = headOf q := by
    have hold := hlog.bytes
    have hnew := hq.bytes
    simp only [map_append, map_cons, sum_append, sum_cons] at hold hnew
    simp only [headOf, hnext, hstart, Head.mk.injEq, true_and]
    omega
  rw [exec_update_bind, hheadOf, hleft]
  refine h.rewritten hid hpartition hp hnext (herase.trans (Keeps.insert hfirst ⟨rfl, rfl⟩ _)) ?_
    clockMs run
  intro base hkey
  rw [get_insert_bytes hfirst hkey, hget base hkey, hlog.get_replaced hq.toIndexes base]
  simp only [indexEntry.injEq, true_and, eq_comm (a := segment.baseOffset)]
  by_cases hseg : base = segment.baseOffset
  · simp [hseg]
  · have hmem : base ∈ (run.filter fun e => decide (e.baseOffset ≠ segment.baseOffset)).map
        IndexEntry.baseOffset ↔ base ∈ run.map IndexEntry.baseOffset := by
      simp only [mem_map, mem_filter, decide_eq_true_eq, and_assoc]
      refine exists_congr fun e => and_congr_right fun _ => and_iff_right_of_imp ?_
      rintro rfl
      exact hseg
    rw [if_neg hseg, if_neg hseg]
    simp only [hmem]
    split_ifs <;> rfl

/-- A swap finds the entries of the partition under the keys it looks up. -/
theorem Represents.found_eq (hbases : ∀ r ∈ replaces, r.1 ≤ u64Max) :
    ∃ found, decodeEntries F (batchGet store
        (replaces.map fun r => (indexEntry id partition r.1).bytes F)).toList = .ok found ∧
      ∀ r ∈ replaces, found[(indexEntry id partition r.1).bytes F]? = p.index[r.1]? := by
  set keys := replaces.map fun r => (indexEntry id partition r.1).bytes F with hkeys
  have hstored : ∀ r ∈ replaces, store[(indexEntry id partition r.1).bytes F]? =
      (p.index[r.1]?).map (encode F.entry) := fun r hr => by
    rw [h.entries.get id partition r.1 ⟨hid, hpartition, hbases r hr⟩, hp, Option.bind_some]
  obtain ⟨found, hfound, hget⟩ := decodeEntries_eq (F := F) (l := (batchGet store keys).toList)
    (fun pair hpair => by
      have hpair := mem_toList_iff_getElem?_eq_some.mp hpair
      rw [batchGet_eq] at hpair
      split_ifs at hpair with hkey
      obtain ⟨r, hr, heq⟩ := mem_map.mp hkey
      rw [← heq, hstored r hr] at hpair
      obtain ⟨e, -, he⟩ := Option.map_eq_some_iff.mp hpair
      exact ⟨e, he.symm⟩)
    (pairwise_fst_toList _)
  refine ⟨found, hfound, fun r hr => Option.ext fun e => ?_⟩
  have hin : (indexEntry id partition r.1).bytes F ∈ keys := mem_map.mpr ⟨r, hr, rfl⟩
  rw [hget, mem_toList_iff_getElem?_eq_some, batchGet_get hin, hstored r hr]
  simp [encode_inj]

end

/-! ## Trims -/

theorem wanted_takeWhile (P : IndexEntry → Bool) (l : List (Bytes × IndexEntry))
    (out : List (Bytes × IndexEntry)) :
    wanted (fun _ e => P e) out l = out ++ l.takeWhile fun pair => P pair.2 := by
  induction l generalizing out with
  | nil => simp [wanted]
  | cons pair l ih =>
    by_cases hP : P pair.2 = true <;> simp [wanted, hP, ih]

theorem foldl_sub {γ : Type} (f : γ → ℕ) (l : List γ) (n : ℕ) :
    l.foldl (fun n c => n - f c) n = n - (l.map f).sum := by
  induction l generalizing n with
  | nil => simp
  | cons c l ih => rw [foldl_cons, ih, map_cons, sum_cons, Nat.sub_sub]

theorem map_snd_keyed (es : List IndexEntry) :
    (es.map (keyed F id partition)).map Prod.snd = es := by
  simp [Function.comp_def, keyed]

/-- A partition that is replaced by an equal one needs no write. -/
theorem Represents.untouched (h : Represents F store s)
    (hp : s.partitions[(id, partition)]? = some p)
    {es : List IndexEntry} (hpes : p.Indexes es) (hqes : q.Indexes es) (hhead : headOf q = headOf p)
    (clockMs : ℕ) : Represents F store { s with
      clockMs
      partitions := s.partitions.insert (id, partition) q } := by
  have hindex : q.index = p.index := toList_inj.mp (hqes.toList.trans hpes.toList.symm)
  obtain rfl : p = q := by
    cases p
    cases q
    simp_all [headOf]
  rw [insert_eq_self hp]
  exact { h with }

/-- A trim answers and leaves what the state machine's does. -/
theorem Represents.trim_agrees (h : Represents F store s) (hlogged : Logged s.partitions)
    (hid : id ≤ u64Max) (hpartition : partition ≤ u32Max) (beforeOffset nowMs : ℕ)
    (fence : Option Fence) : Agrees F (fun start r => r = .trimmed start)
      ((trimPartition F id partition beforeOffset fence (s.advance nowMs).clockMs).exec store)
      ((MetaState.trimPartition id partition beforeOffset fence nowMs).exec s) := by
  obtain ⟨head, hhead, hheadOf⟩ := h.decodeHead_eq hid hpartition
  rw [trimPartition, exec_read_bind, hhead, exec_ok_bind, MetaState.trimPartition, exec_read_bind,
    h.checkPartition_eq hid, h.checkFence?_eq fence]
  refine corresponds_check_bind h (checked_map_alike _) ?_
  intro _ p hp
  obtain ⟨-, hp⟩ := partitionState_eq_ok.mp hp
  refine corresponds_check_bind h checked_alike ?_
  rintro _ _ -
  obtain rfl := hheadOf p hp
  obtain ⟨first, es, hlog⟩ := hlogged _ p hp
  have hmut : (s.advance nowMs).partitionStateMut id partition = .ok p := by
    simp [partitionStateMut, advance, hp]
  rw [exec_update_bind, exec_read_bind, hmut, exec_ok_bind]
  obtain ⟨q, first', htrim, hq, hnext, hstart⟩ := hlog.trimmed beforeOffset
  -- the scan from the start takes what the state machine pops
  have hscan : entriesFrom F store id partition 0
      (fun _ e => e.endOffset ≤ min beforeOffset (headOf p).next) =
        .ok ((es.takeWhile fun e => e.endOffset ≤ min beforeOffset p.nextOffset).map
          (keyed F id partition)) := by
    have hall : (es.dropWhile fun e => decide (e.endOffset ≤ 0)) = es := by
      refine dropWhile_eq_self_iff.mpr fun hpos => ?_
      have hbounds := hlog.tiles.bounds_of_mem (getElem_mem hpos)
      simp
      omega
    rw [h.entries.entriesFrom_eq hid hpartition hp hlog (h.offsets _ p hp) (Nat.zero_le _), hall,
      wanted_takeWhile, nil_append, takeWhile_map]
    rfl
  have hsplit := takeWhile_append_dropWhile
    (p := fun e : IndexEntry => decide (e.endOffset ≤ min beforeOffset p.nextOffset)) (l := es)
  rw [← hsplit] at hlog
  show Corresponds _ _ _ _
    (Except.ok (Reply.trimmed (trimmedPartition p beforeOffset).2.logStartOffset),
    MetaState.releaseEntries { s with
      clockMs := (s.advance nowMs).clockMs
      partitions := s.partitions.insert (id, partition) (trimmedPartition p beforeOffset).2 }
      (trimmedPartition p beforeOffset).1)
  rw [htrim]
  dsimp only
  rw [hscan, exec_ok_bind]
  have hhead : headOf q = { headOf p with
      logStart := max (headOf p).logStart (min beforeOffset (headOf p).next)
      bytes := ((es.takeWhile fun e => e.endOffset ≤ min beforeOffset p.nextOffset).map
        (keyed F id partition)).foldl (fun bytes r => bytes - entryBytes r.2)
          (headOf p).bytes } := by
    have hbytes := hlog.bytes
    rw [map_append, sum_append] at hbytes
    rw [foldl_map, foldl_sub]
    simp only [headOf, keyed, hnext, hstart, hq.bytes]
    rw [hbytes, Nat.add_sub_cancel_left]
  split_ifs with hsame
  · -- nothing to remove and nothing to move: the store stays as it is
    obtain ⟨hnone, hmax⟩ := hsame
    rw [hmax, hnone] at hhead
    rw [map_eq_nil_iff] at hnone
    rw [hnone] at hlog ⊢
    exact ⟨h.untouched hp hlog.toIndexes hq.toIndexes hhead _,
      congrArg Reply.trimmed hstart⟩
  · obtain ⟨final, hexec, hfinal⟩ := h.trimmed hid hpartition hp hlog hq hnext
      (s.advance nowMs).clockMs
    rw [exec_update_bind, exec_update_bind] at hexec ⊢
    rw [← hhead, map_snd_keyed, exec_bind_of_ok hexec]
    exact ⟨hfinal, congrArg Reply.trimmed hstart⟩

/-! ## Swaps -/

/-- Garbage collection has claimed the object. -/
def Claimed (F : Format) (store : Store) (path : String) : Prop :=
  ∃ r : ObjectRef, store[(objectRef path).bytes F]? = some (encode F.object r) ∧
    r.gcClaim = true

theorem Represents.isClaimed_eq (h : Represents F store s) (path : String) : ∃ claimed,
    isClaimed F store[(objectRef path).bytes F]? = .ok claimed ∧
      (claimed = true ↔ Claimed F store path) := by
  rw [Claimed]
  cases hv : store[(objectRef path).bytes F]? with
  | none => exact ⟨false, rfl, by simp⟩
  | some v =>
    obtain ⟨r, rfl⟩ := h.objects path v hv
    refine ⟨r.gcClaim, by rw [isClaimed, decode_encode]; rfl, fun hr => ⟨r, rfl, hr⟩, ?_⟩
    rintro ⟨r', heq, hr'⟩
    rwa [(encode_inj F.object).mp (Option.some.inj heq)]

/-- The run of entries a swap names is checked as the state machine checks it. -/
theorem checkRun_alike {found : BTreeMap Bytes IndexEntry} (mismatch : ApplyError) (key : ℕ → Bytes)
    (hfound : ∀ r ∈ replaces, found[key r.1]? = p.index[r.1]?) (expected records : ℕ) :
    AnswersAlike Eq
      (fun x total => x.1 = total ∧ p.checkReplaced mismatch replaces expected records = .ok total ∧
        x.2.map some = replaces.map fun r => p.index[r.1]?)
      (checkRun found mismatch (replaces.zip (replaces.map fun r => key r.1)) expected records)
      (p.checkReplaced mismatch replaces expected records) := by
  induction replaces generalizing expected records with
  | nil => exact ⟨rfl, rfl, rfl⟩
  | cons next rest ih =>
    obtain ⟨base, object⟩ := next
    rw [forall_mem_cons] at hfound
    obtain ⟨hfirst, hrest⟩ := hfound
    simp only [map_cons, zip_cons_cons, checkRun, PartitionState.checkReplaced, hfirst]
    cases hget : p.index[base]? with
    | none => exact rfl
    | some e =>
      simp only
      split_ifs with hmatch hsum
      · exact rfl
      · have hih := ih hrest e.endOffset (records + e.records)
        revert hih
        rcases checkRun found mismatch (rest.zip (rest.map fun r => key r.1)) e.endOffset
          (records + e.records) with err | ⟨total, removed⟩ <;>
        rcases p.checkReplaced mismatch rest e.endOffset (records + e.records) with
          err' | total' <;>
        intro hih
        · exact hih
        · exact hih.elim
        · exact hih.elim
        · exact ⟨hih.1, rfl, by simp [hih.2.2]⟩
      · exact rfl

theorem dropRun_eq (firstBase : ℕ) (key : IndexEntry → Bytes) (run : List IndexEntry) (head : Head)
    (store : Store) : dropRun firstBase (run.zip (run.map key)) head store =
      ({ head with bytes := head.bytes - (run.map entryBytes).sum },
        (run.filter fun e => e.baseOffset ≠ firstBase).foldl (fun store e => store.erase (key e))
          store) := by
  induction run generalizing head store with
  | nil => rfl
  | cons e run ih =>
    simp only [map_cons, zip_cons_cons, dropRun, ih, sum_cons, Nat.sub_sub]
    by_cases hbase : e.baseOffset = firstBase <;> simp [hbase]

/-- A swap answers what the state machine answers, or garbage collection has claimed
the segment and the swap is refused. -/
theorem Represents.swap_agrees (h : Represents F store s) (hlogged : Logged s.partitions)
    {swap : SegmentSwap} (hkey : validateKey "segment path" swap.segment = .ok ())
    (hid : swap.stream ≤ u64Max) (hpartition : swap.partition ≤ u32Max)
    (hbases : ∀ r ∈ swap.replaces, r.1 ≤ u64Max) (nowMs : ℕ) :
    (Claimed F store swap.segment ∧ (swapBody F swap (s.advance nowMs).clockMs).exec store =
      (.error (.rejected (.staleObject swap.segment swap.fresh.createdAtMs swap.fresh.maxAgeMs
        (s.advance nowMs).clockMs)), store)) ∨
    Agrees F (fun _ r => r = .segmentSwapped)
      ((swapBody F swap (s.advance nowMs).clockMs).exec store)
      ((swapSegment swap.stream swap.partition swap.replaces swap.segment swap.byteRange
        swap.maxTimestampMs swap.fence nowMs swap.fresh).exec s) := by
  obtain ⟨head, hhead, hheadOf⟩ := h.decodeHead_eq hid hpartition
  rw [swapBody, exec_read_bind, hhead, exec_ok_bind, swapSegment, hkey, exec_ok_bind,
    exec_read_bind, h.checkPartition_eq hid, h.checkFence?_eq swap.fence]
  refine check_bind_or_corresponds h (checked_map_alike _) ?_
  intro _ p hp
  obtain ⟨-, hp⟩ := partitionState_eq_ok.mp hp
  obtain rfl := hheadOf p hp
  cases hreplaces : swap.replaces with
  | nil => exact .inr ⟨h, rfl⟩
  | cons r rest =>
    obtain ⟨firstBase, object⟩ := r
    obtain ⟨found, hfound, hget⟩ := h.found_eq hid hpartition hp hbases
    rw [hreplaces] at hfound hget
    dsimp only
    rw [hfound, exec_ok_bind]
    have hswapped : (found[(indexEntry swap.stream swap.partition firstBase).bytes F]?).any
        (fun e => e.kind = .segment ∧ e.object = swap.segment) =
          isSwapped p firstBase swap.segment := by
      rw [hget (firstBase, object) (by simp), isSwapped]
      cases p.index[firstBase]? <;> simp
    rw [hswapped]
    split_ifs with happlied
    · exact .inr ⟨h, rfl⟩
    refine check_bind_or_corresponds h checked_alike ?_
    rintro _ _ -
    refine check_bind_or_corresponds h checked_alike ?_
    rintro _ _ -
    refine check_bind_or_corresponds h (require_alike _ _) ?_
    rintro _ _ -
    obtain ⟨claimed, hclaimed, hiff⟩ := h.isClaimed_eq swap.segment
    rw [hclaimed, exec_ok_bind]
    cases claimed with
    | true => exact .inl ⟨hiff.mp rfl, rfl⟩
    | false =>
      right
      rw [require, if_pos rfl, exec_ok_bind]
      refine corresponds_check_bind h (alike_checked (checkRun_alike _
        (fun base => (indexEntry swap.stream swap.partition base).bytes F) hget firstBase 0)) ?_
      rintro ⟨records, removed⟩ _ ⟨rfl, hok, hremoved⟩
      obtain ⟨first, es, hlog⟩ := hlogged _ p hp
      obtain ⟨pre, run, post, q, rfl, -, hmap, -, hremove, hrun⟩ := hlog.replaceRun rfl hok
      -- the entries found under the keys are the run of the log
      obtain rfl : removed = run := by
        refine map_injective_iff.mpr (Option.some_injective _) (hremoved.trans ?_)
        rw [← hmap, List.map_map]
        refine map_congr_left fun e he => ?_
        exact hlog.get_iff.mpr ⟨by simp [he], rfl⟩
      have hkeys : (((firstBase, object) :: rest).map fun r =>
          (indexEntry swap.stream swap.partition r.1).bytes F) =
          removed.map fun e => (indexEntry swap.stream swap.partition e.baseOffset).bytes F := by
        rw [← hmap, List.map_map]
        rfl
      set segment : IndexEntry :=
        { kind := .segment, baseOffset := firstBase, records, object := swap.segment,
          byteRange := swap.byteRange, maxTimestampMs := swap.maxTimestampMs }
      obtain ⟨hq, hnext, hstart⟩ := hrun segment rfl rfl
      obtain ⟨final, hexec, hfinal⟩ := h.replaced hid hpartition hp hlog hq hnext hstart
        (s.advance nowMs).clockMs
      have hraft : (do
          update fun s => s.advance nowMs
          replaceRun swap.stream swap.partition (((firstBase, object) :: rest).map Prod.fst)
            segment : Handler Reply).exec s = (.ok .segmentSwapped,
          (s.advance nowMs).withRun swap.stream swap.partition p
            (((firstBase, object) :: rest).map Prod.fst) segment) :=
        (exec_update_bind _ _).trans (replaceRun_exec (s := s.advance nowMs) hp)
      have hagree : Agrees F (fun (_ : Unit) r => r = .segmentSwapped) (.ok (), final)
          (.ok .segmentSwapped, _) := ⟨hfinal, rfl⟩
      rw [hraft, withRun, hremove, hkeys, dropRun_eq]
      rw [← hexec] at hagree
      exact hagree

end Loams.Tikv
