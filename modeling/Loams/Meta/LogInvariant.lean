/-
# The invariants of the log engine
-/

import Loams.Meta.ExactlyOnce

namespace Loams.Meta

open List hiding partition mem_insert_iff
open Loams.Data Loams.Control Std.ExtTreeMap Command

/-! ## What is claimed of the log engine -/

/-- A partition whose index tiles its offsets and whose totals agree with it. -/
structure PartitionState.Valid (p : PartitionState) : Prop where
  keyed : ∀ (base : ℕ) (e : IndexEntry), p.index[base]? = some e → e.baseOffset = base
  tiles : ∃ first, Tiles IndexEntry.baseOffset IndexEntry.endOffset first p.entries p.nextOffset
  start : (∀ e ∈ p.entries.head?, e.baseOffset ≤ p.logStartOffset ∧
    p.logStartOffset < e.endOffset) ∧ (p.entries = [] → p.logStartOffset = p.nextOffset)
  bytes : p.bytes = (p.entries.map entryBytes).sum

/-- A count of live chunks as the map of live chunks keeps it. -/
def liveCount (n : ℕ) : Option ℕ := if n = 0 then none else some n

/-- The log engine's invariants. -/
structure MetaState.LogValid (s : MetaState) : Prop where
  partitions : ∀ (k : StreamId × ℕ) (p : PartitionState), s.partitions[k]? = some p → p.Valid
  live : ∀ o : String, s.walLiveChunks[o]? = liveCount (MetaState.walCount s.partitions o)
  retired : ∀ o ∈ s.retired, ∀ k e, MetaState.EntryAt s.partitions k e → e.object ≠ o

theorem PartitionState.Log.valid {p : PartitionState} {first : ℕ} {es : List IndexEntry}
    (h : p.Log first es) : p.Valid where
  keyed base e hget := (h.get_iff.mp hget).2
  tiles := ⟨first, h.entries_eq.symm ▸ h.tiles⟩
  start := by
    rw [h.entries_eq]
    constructor
    · intro e he
      obtain ⟨rest, rfl⟩ := head?_eq_some_iff.mp he
      have hbase : e.baseOffset = first := h.tiles.1
      exact ⟨hbase ▸ h.first_le, h.readable e mem_cons_self⟩
    · rintro rfl
      have hempty : first = p.nextOffset := h.tiles
      have hfirst := h.first_le
      have hstart := h.start_le
      omega
  bytes := by
    rw [h.entries_eq]
    exact h.bytes

/-! ## The callers' part -/

/-- The object a command commits and its creation time. -/
def Command.commit? : Command → Option (String × ℕ)
  | .commitWal object createdAtMs _ => some (object, createdAtMs)
  | _ => none

/-- The segment a command swaps in, and where. -/
def Command.swap? : Command → Option (String × (StreamId × ℕ) × List (ℕ × String))
  | .swapSegment stream partition replaces segment _ _ _ _ _ =>
    some (segment, (stream, partition), replaces)
  | _ => none

/-- What the callers promise: a WAL object has one creation time, no path is both a
WAL object and a segment, a segment path is used by one swap, which may be retried,
and no path ends in a slash. -/
structure CallerContract (commands : List Command) : Prop where
  oneTime : ∀ x ∈ commands.filterMap commit?, ∀ y ∈ commands.filterMap commit?,
    x.1 = y.1 → x = y
  apart : ∀ x ∈ commands.filterMap commit?, ∀ y ∈ commands.filterMap swap?,
    x.1 ≠ y.1
  oneSwap : ∀ x ∈ commands.filterMap swap?, ∀ y ∈ commands.filterMap swap?,
    x.1 = y.1 → x = y
  noSlash : (∀ x ∈ commands.filterMap commit?, endsWithChar x.1 '/' = false) ∧
    ∀ x ∈ commands.filterMap swap?, endsWithChar x.1 '/' = false

/-- An assignment of roles to paths that the callers keep to. -/
structure Callers where
  createdAt : String → ℕ
  isWal : String → Prop
  place : String → (StreamId × ℕ) × ℕ

/-- The segment may be swapped in at this place. -/
def Callers.MaySwap (A : Callers) (segment : String) (k : StreamId × ℕ) (base : ℕ) : Prop :=
  ¬A.isWal segment ∧ endsWithChar segment '/' = false ∧ A.place segment = (k, base)

/-- The command keeps to the roles. -/
structure Callers.Allows (A : Callers) (command : Command) : Prop where
  commit : ∀ o t, command.commit? = some (o, t) →
    t = A.createdAt o ∧ A.isWal o ∧ endsWithChar o '/' = false
  swap : command.Swaps A.MaySwap

variable {commands : List Command}

/-- Callers that keep the contract keep to some assignment of roles. -/
theorem CallerContract.exists_callers (h : CallerContract commands) :
    ∃ A : Callers, ∀ command ∈ commands, A.Allows command := by
  let time (o : String) : ℕ :=
    Classical.epsilon fun t => (o, t) ∈ commands.filterMap commit?
  let site (o : String) : (StreamId × ℕ) × List (ℕ × String) :=
    Classical.epsilon fun x => (o, x) ∈ commands.filterMap swap?
  refine ⟨⟨time, fun o => ∃ t, (o, t) ∈ commands.filterMap commit?,
    fun o => ((site o).1, (((site o).2.head?).map Prod.fst).getD 0)⟩, fun command hmem => ⟨?_, ?_⟩⟩
  · intro o t ht
    have hin : (o, t) ∈ commands.filterMap commit? :=
      mem_filterMap.mpr ⟨command, hmem, ht⟩
    have hchoice : (o, time o) ∈ commands.filterMap commit? :=
      Classical.epsilon_spec (p := fun t => (o, t) ∈ commands.filterMap commit?) ⟨t, hin⟩
    exact ⟨congrArg Prod.snd (h.oneTime _ hin _ hchoice rfl), ⟨t, hin⟩, h.noSlash.1 _ hin⟩
  · cases command with
    | swapSegment stream partition replaces segment =>
      intro base hbase
      have hin : (segment, (stream, partition), replaces) ∈ commands.filterMap swap? :=
        mem_filterMap.mpr ⟨_, hmem, rfl⟩
      have hchoice : (segment, site segment) ∈ commands.filterMap swap? :=
        Classical.epsilon_spec (p := fun x => (segment, x) ∈ commands.filterMap swap?)
          ⟨_, hin⟩
      have hsite : ((stream, partition), replaces) = site segment :=
        congrArg Prod.snd (h.oneSwap _ hin _ hchoice rfl)
      refine ⟨fun ⟨t, ht⟩ => h.apart _ ht _ hin rfl, h.noSlash.2 _ hin, ?_⟩
      simp only [← hsite, hbase, Option.getD_some]
    | _ => trivial

namespace MetaState

variable {s s' : MetaState} {m m' : Partitions} {removed : List IndexEntry}
variable {A : Callers} {k : StreamId × ℕ} {o object : String} {e : IndexEntry}

/-! ## Counts and releases -/

theorem walCount_eq_zero : walCount m o = 0 ↔ ∀ k e, EntryAt m k e → namesWal o e = false := by
  rw [walCount, total_eq_zero_iff]
  constructor
  · rintro h k e ⟨p, hp, he⟩
    simpa using countP_eq_zero.mp (h k p hp) e he
  · intro h k p hp
    refine countP_eq_zero.mpr fun e he => ?_
    simp [h k e ⟨p, hp, he⟩]

theorem walCount_addPartitions {id : StreamId} (hfree : ∀ n : ℕ, m[(id, n)]? = none) (count : ℕ)
    (o : String) : walCount (addPartitions m id count) o = walCount m o := by
  induction count with
  | zero => rfl
  | succ count ih =>
    have hnew : (addPartitions m id count)[(id, count)]? = none := by
      rw [addPartitions_get]
      simp [hfree count]
    have hsucc : addPartitions m id (count + 1) =
        (addPartitions m id count).insert (id, count) {} := by
      rw [addPartitions, range_succ, foldl_append]
      rfl
    rw [hsucc, walCount, total_insert_of_none hnew]
    exact (Nat.zero_add _).trans ih

/-- Releasing one entry takes one from the count of its object; an object retires
with its last entry, a segment at once. -/
theorem releaseEntry_spec {e : IndexEntry} {c : String → ℕ}
    (hlive : ∀ o : String, s.walLiveChunks[o]? =
      liveCount (c o + if namesWal o e = true then 1 else 0)) :
    (∀ o : String, (s.releaseEntry e).walLiveChunks[o]? = liveCount (c o)) ∧
      ∀ o, o ∈ (s.releaseEntry e).retired → o ∈ s.retired ∨
        e.object = o ∧ (e.kind = .segment ∨ c o = 0) := by
  have hnames : ∀ o, namesWal o e = true ↔ e.kind = .wal ∧ e.object = o :=
    fun o => namesWal_eq_true
  unfold releaseEntry
  cases hkind : e.kind with
  | segment =>
    simp only [hnames, hkind, reduceCtorEq, false_and, if_false, Nat.add_zero] at hlive
    refine ⟨hlive, fun o ho => ?_⟩
    simp only [mem_insert_iff] at ho
    exact ho.symm.imp_right fun heq => ⟨heq, .inl rfl⟩
  | wal =>
    simp only [hnames, hkind, true_and] at hlive
    have hobject : s.walLiveChunks[e.object]? = some (c e.object + 1) := by
      rw [hlive, if_pos rfl, liveCount, if_neg (Nat.succ_ne_zero _)]
    have hother : ∀ o, e.object ≠ o → s.walLiveChunks[o]? = liveCount (c o) := fun o hne => by
      rw [hlive, if_neg hne, Nat.add_zero]
    simp only [hobject, Option.getD_some, Nat.add_sub_cancel]
    split_ifs with hzero
    · refine ⟨fun o => ?_, fun o ho => ?_⟩
      · rw [get_erase]
        split_ifs with heq
        · rw [← heq, liveCount, if_pos hzero]
        · exact hother o heq
      · simp only [mem_insert_iff] at ho
        exact ho.symm.imp_right fun heq => ⟨heq, .inr (heq ▸ hzero)⟩
    · refine ⟨fun o => ?_, fun o ho => .inl ho⟩
      rw [get_insert]
      split_ifs with heq
      · rw [← heq, liveCount, if_neg hzero]
      · exact hother o heq

/-- The live counts sink by the entries removed, and what is retired had none left. -/
theorem releaseEntries_spec {c : String → ℕ}
    (hlive : ∀ o : String, s.walLiveChunks[o]? =
      liveCount (c o + removed.countP (namesWal o))) :
    (∀ o : String, (s.releaseEntries removed).walLiveChunks[o]? = liveCount (c o)) ∧
      ∀ o, o ∈ (s.releaseEntries removed).retired → o ∈ s.retired ∨
        ∃ e ∈ removed, e.object = o ∧ (e.kind = .segment ∨ c o = 0) := by
  induction removed generalizing s with
  | nil => exact ⟨hlive, fun o ho => .inl ho⟩
  | cons e rest ih =>
    have hone : ∀ o : String, s.walLiveChunks[o]? =
        liveCount (c o + rest.countP (namesWal o) + if namesWal o e = true then 1 else 0) := by
      intro o
      rw [hlive o, countP_cons, Nat.add_assoc]
    obtain ⟨hlive', hretired⟩ := releaseEntry_spec hone
    obtain ⟨hrest, hretired'⟩ := ih hlive'
    refine ⟨hrest, fun o ho => ?_⟩
    rcases hretired' o ho with ho | ⟨x, hx, hobject, hwhy⟩
    · refine (hretired o ho).imp_right fun ⟨hobject, hwhy⟩ => ?_
      exact ⟨e, mem_cons_self, hobject, hwhy.imp_right fun hzero => by omega⟩
    · exact .inr ⟨x, mem_cons_of_mem _ hx, hobject, hwhy⟩

/-! ## The invariant -/

/-- Below the next offset of the partition, no WAL entry starts at the base offset,
nor will one: a segment is there, or the place was trimmed or dropped. -/
def SwappedAt (s : MetaState) (k : StreamId × ℕ) (base : ℕ) : Prop :=
  k.1 ≤ s.lastStreamId ∧ ∀ p : PartitionState, s.partitions[k]? = some p →
    base < p.nextOffset ∧ ∀ e ∈ p.entries, e.baseOffset = base → e.kind = .segment

/-- The log engine's invariants with what they rest on. -/
structure LogInv (A : Callers) (s : MetaState) : Prop where
  logged : Logged s.partitions
  ids : ∀ k : StreamId × ℕ, k ∈ s.partitions → k.1 ≤ s.lastStreamId
  stamped : s.Stamped A.createdAt
  live : ∀ o : String, s.walLiveChunks[o]? = liveCount (walCount s.partitions o)
  wal : ∀ k e, EntryAt s.partitions k e → e.kind = .wal →
    A.isWal e.object ∧ s.Committed A.createdAt e.object
  segment : ∀ k e, EntryAt s.partitions k e → e.kind = .segment →
    ¬A.isWal e.object ∧ A.place e.object = (k, e.baseOffset)
  paths : ∀ k e, EntryAt s.partitions k e → endsWithChar e.object '/' = false
  unnamed : ∀ o ∈ s.retired, ∀ k e, EntryAt s.partitions k e → e.object ≠ o
  -- Why a retired object is not named again.
  spent : ∀ o ∈ s.retired, endsWithChar o '/' = true ∨
    A.isWal o ∧ s.Committed A.createdAt o ∨
    ¬A.isWal o ∧ s.SwappedAt (A.place o).1 (A.place o).2

theorem LogInv.logValid (h : LogInv A s) : s.LogValid where
  partitions k p hp := by
    obtain ⟨first, es, hlog⟩ := h.logged k p hp
    exact hlog.valid
  live := h.live
  retired := h.unnamed

/-- A segment entry holds its place. -/
theorem LogInv.swappedAt_of_segment (h : LogInv A s) (he : EntryAt s.partitions k e)
    (hkind : e.kind = .segment) : s.SwappedAt k e.baseOffset := by
  obtain ⟨p, hp, he⟩ := he
  obtain ⟨first, es, hlog⟩ := h.logged k p hp
  refine ⟨h.ids k (mem_of_get hp), fun q hq => ?_⟩
  obtain rfl := Option.some.inj (hp.symm.trans hq)
  rw [hlog.entries_eq] at he ⊢
  refine ⟨?_, fun x hx hbase => ?_⟩
  · have hbounds := hlog.tiles.bounds_of_mem he
    omega
  · rw [hlog.eq_of_base_eq hx he hbase]
    exact hkind

/-! ## Every command keeps it -/

/-- Partitions of old streams keep their offsets, and WAL entries are old or start
at an offset that was free. -/
structure Follows (s s' : MetaState) : Prop where
  last : s.lastStreamId ≤ s'.lastStreamId
  old : ∀ (k : StreamId × ℕ) (q : PartitionState), s'.partitions[k]? = some q →
    k.1 ≤ s.lastStreamId → ∃ p : PartitionState, s.partitions[k]? = some p ∧
      p.nextOffset ≤ q.nextOffset
  entry : ∀ k e, EntryAt s'.partitions k e → e.kind = .wal → EntryAt s.partitions k e ∨
    ∃ p : PartitionState, s.partitions[k]? = some p ∧ p.nextOffset ≤ e.baseOffset

theorem SwappedAt.follows {base : ℕ} (h : s.SwappedAt k base) (hstep : Follows s s') :
    s'.SwappedAt k base := by
  obtain ⟨hlast, hplace⟩ := h
  refine ⟨hlast.trans hstep.last, fun q hq => ?_⟩
  obtain ⟨p, hp, hle⟩ := hstep.old k q hq hlast
  obtain ⟨hbelow, hsegment⟩ := hplace p hp
  refine ⟨hbelow.trans_le hle, fun e he hbase => ?_⟩
  cases hkind : e.kind with
  | segment => rfl
  | wal =>
    rcases hstep.entry k e ⟨q, hq, he⟩ hkind with ⟨p', hp', he'⟩ | ⟨p', hp', hle'⟩
    · obtain rfl := Option.some.inj (hp.symm.trans hp')
      exact absurd (hsegment e he' hbase) (by simp [hkind])
    · obtain rfl := Option.some.inj (hp.symm.trans hp')
      omega

/-- Why a retired object is not named again still holds later. -/
theorem LogInv.spent_of_follows (h : LogInv A s) (hstep : Follows s s')
    (hcommitted : ∀ o, s.Committed A.createdAt o → s'.Committed A.createdAt o)
    (ho : o ∈ s.retired) : endsWithChar o '/' = true ∨ A.isWal o ∧ s'.Committed A.createdAt o ∨
      ¬A.isWal o ∧ s'.SwappedAt (A.place o).1 (A.place o).2 :=
  (h.spent o ho).imp_right fun hspent =>
    hspent.imp (fun ⟨hwal, hdone⟩ => ⟨hwal, hcommitted o hdone⟩)
      (fun ⟨hwal, hplace⟩ => ⟨hwal, hplace.follows hstep⟩)

/-- A quiet command keeps the invariants. -/
theorem LogInv.quiet (h : LogInv A s) (hquiet : Quiet s s') : LogInv A s' := by
  have hkept := hquiet.recordsKept
  have hcommitted : ∀ o, s.Committed A.createdAt o → s'.Committed A.createdAt o :=
    fun o => hkept.committed h.stamped
  have hfollows : Follows s s' := by
    refine ⟨hquiet.last.ge, fun k q hq _ => ⟨q, hquiet.partitions ▸ hq, le_rfl⟩, fun k e he _ => ?_⟩
    exact .inl (hquiet.partitions ▸ he)
  have hsame := hquiet.partitions
  refine ⟨hsame ▸ h.logged, ?_, hkept.stamped h.stamped, ?_, ?_, hsame ▸ h.segment,
    hsame ▸ h.paths, ?_, ?_⟩
  · rw [hsame, hquiet.last]
    exact h.ids
  · rw [hsame, hquiet.live]
    exact h.live
  · rw [hsame]
    exact fun k e he hkind => (h.wal k e he hkind).imp_right (hcommitted _)
  · rw [hsame]
    intro o ho k e he
    rcases hquiet.retired o ho with ho | hslash
    · exact h.unnamed o ho k e he
    · -- A prefix ends in a slash; the path of an entry does not.
      rintro rfl
      rw [h.paths k e he] at hslash
      cases hslash
  · intro o ho
    rcases hquiet.retired o ho with ho | hslash
    · exact h.spent_of_follows hfollows hcommitted ho
    · exact .inl hslash

/-- So does a new stream. -/
theorem LogInv.create (h : LogInv A s) {count : ℕ}
    (hpartitions : s'.partitions = addPartitions s.partitions (s.lastStreamId + 1) count)
    (hlast : s'.lastStreamId = s.lastStreamId + 1)
    (hrest : (s'.clockMs, s'.walCommits, s'.walLiveChunks, s'.retired) =
      (s.clockMs, s.walCommits, s.walLiveChunks, s.retired)) : LogInv A s' := by
  simp only [Prod.mk.injEq] at hrest
  obtain ⟨hclock, hcommits, hlive, hretired⟩ := hrest
  have hnext := nextKept_create h.logged hpartitions hlast
  have hfree : ∀ n : ℕ, s.partitions[(s.lastStreamId + 1, n)]? = none := fun n => by
    refine not_mem_iff_get.mp fun hmem => ?_
    exact absurd (h.ids _ hmem) (Nat.not_succ_le_self _)
  have hkept := recordsKept_of_eq hclock.ge hcommits
  have hcommitted : ∀ o, s.Committed A.createdAt o → s'.Committed A.createdAt o :=
    fun o => hkept.committed h.stamped
  -- The new partitions are empty: the entries are those there were.
  have hentry : ∀ k e, EntryAt s'.partitions k e → EntryAt s.partitions k e := by
    rintro k e ⟨q, hq, he⟩
    rw [hpartitions, addPartitions_get] at hq
    split_ifs at hq
    · obtain rfl := Option.some.inj hq
      simp [PartitionState.entries] at he
    · exact ⟨q, hq, he⟩
  have hfollows : Follows s s' := by
    refine ⟨hnext.last, fun k q hq hk => ?_, fun k e he _ => .inl (hentry k e he)⟩
    rcases hnext.next k q hq with ⟨p, hp, heq⟩ | ⟨hlt, -⟩
    · exact ⟨p, hp, heq.ge⟩
    · exact absurd hk (Nat.not_le.mpr hlt)
  refine ⟨hnext.logged, hnext.ids h.ids, hkept.stamped h.stamped, ?_, ?_, ?_, ?_, ?_, ?_⟩
  · intro o
    rw [hlive, hpartitions, walCount_addPartitions hfree]
    exact h.live o
  · exact fun k e he hkind => (h.wal k e (hentry k e he) hkind).imp_right (hcommitted _)
  · exact fun k e he => h.segment k e (hentry k e he)
  · exact fun k e he => h.paths k e (hentry k e he)
  · exact fun o ho k e he => h.unnamed o (hretired ▸ ho) k e (hentry k e he)
  · exact fun o ho => h.spent_of_follows hfollows hcommitted (hretired ▸ ho)

theorem Exchange.follows (h : Exchange A.MaySwap s.partitions m' removed) :
    Follows s (releaseEntries { s with partitions := m' } removed) := by
  refine ⟨by rw [releaseEntries_lastStreamId], ?_, ?_⟩
  · intro k q hq _
    rw [releaseEntries_partitions] at hq
    obtain ⟨p, hp, hnext⟩ := h.next k q hq
    exact ⟨p, hp, hnext.ge⟩
  · intro k e he hkind
    rw [releaseEntries_partitions] at he
    exact .inl (h.entry_wal he hkind)

section

variable (h : LogInv A s) (hx : Exchange A.MaySwap s.partitions m' removed)
include h hx

/-- An object that retired before names no entry of the new partitions: a segment
that comes in takes the place of WAL entries, where no segment was before. -/
theorem LogInv.unnamed_exchange (ho : o ∈ s.retired) (he : EntryAt m' k e) : e.object ≠ o := by
  rcases hx.entry k e he with he | ⟨-, ⟨hnotWal, hpath, hplace⟩, w, ⟨p, hp, hw⟩, hwal, hbase⟩
  · exact h.unnamed o ho k e he
  · rintro rfl
    rcases h.spent _ ho with hslash | ⟨hisWal, -⟩ | ⟨-, -, hswapped⟩
    · rw [hpath] at hslash
      cases hslash
    · exact hnotWal hisWal
    · rw [hplace] at hswapped
      have hsegment := (hswapped p hp).2 w hw hbase
      rw [hwal] at hsegment
      cases hsegment

theorem LogInv.segment_exchange (he : EntryAt m' k e) (hkind : e.kind = .segment) :
    ¬A.isWal e.object ∧ A.place e.object = (k, e.baseOffset) := by
  rcases hx.entry k e he with he | ⟨-, ⟨hnotWal, -, hplace⟩, -⟩
  · exact h.segment k e he hkind
  · exact ⟨hnotWal, hplace⟩

/-- An object that retires now names no entry of the new partitions. -/
theorem LogInv.unnamed_removed {x : IndexEntry} (hin : x ∈ removed)
    (hwhy : x.kind = .segment ∨ walCount m' x.object = 0) (he : EntryAt m' k e) :
    e.object ≠ x.object := by
  obtain ⟨k', hold, hgone⟩ := hx.removed x hin
  intro hobject
  cases hxkind : x.kind with
  | segment =>
    obtain ⟨hnotWal, hxplace⟩ := h.segment k' x hold hxkind
    cases hkind : e.kind with
    | wal => exact hnotWal (hobject ▸ (h.wal k e (hx.entry_wal he hkind) hkind).1)
    | segment =>
      -- Both are the segment's one swap, so they are at one place, which is free now.
      have heplace := (h.segment_exchange hx he hkind).2
      rw [hobject, hxplace, Prod.mk.injEq] at heplace
      exact hgone hxkind e (heplace.1 ▸ he) heplace.2.symm
  | wal =>
    have hzero : walCount m' x.object = 0 := hwhy.resolve_left (by simp [hxkind])
    have hisWal := (h.wal k' x hold hxkind).1
    cases hkind : e.kind with
    | wal =>
      have hnot := walCount_eq_zero.mp hzero k e he
      rw [namesWal_eq_true.mpr ⟨hkind, hobject⟩] at hnot
      cases hnot
    | segment => exact (h.segment_exchange hx he hkind).1 (hobject ▸ hisWal)

/-- So does an exchange of entries whose removed ones are released. -/
theorem LogInv.exchange : LogInv A (releaseEntries { s with partitions := m' } removed) := by
  have hkept : RecordsKept s (releaseEntries { s with partitions := m' } removed) :=
    recordsKept_release rfl rfl
  have hcommitted := fun o => hkept.committed h.stamped (o := o)
  have hfollows := hx.follows
  have hlive : ∀ o : String, s.walLiveChunks[o]? =
      liveCount (walCount m' o + removed.countP (namesWal o)) := fun o => by
    rw [h.live, hx.count]
  obtain ⟨hcounts, hretired⟩ := releaseEntries_spec (s := { s with partitions := m' }) hlive
  refine ⟨hx.nextKept.logged, hx.nextKept.ids h.ids, hkept.stamped h.stamped, ?_, ?_, ?_, ?_,
    ?_, ?_⟩
  · rw [releaseEntries_partitions]
    exact hcounts
  · rw [releaseEntries_partitions]
    intro k e he hkind
    exact (h.wal k e (hx.entry_wal he hkind) hkind).imp_right (hcommitted _)
  · rw [releaseEntries_partitions]
    exact fun k e => h.segment_exchange hx
  · rw [releaseEntries_partitions]
    intro k e he
    rcases hx.entry k e he with he | ⟨-, ⟨-, hpath, -⟩, -⟩
    · exact h.paths k e he
    · exact hpath
  · rw [releaseEntries_partitions]
    intro o ho k e he
    rcases hretired o ho with ho | ⟨x, hin, rfl, hwhy⟩
    · exact h.unnamed_exchange hx ho he
    · exact h.unnamed_removed hx hin hwhy he
  · intro o ho
    rcases hretired o ho with ho | ⟨x, hin, rfl, -⟩
    · exact h.spent_of_follows hfollows hcommitted ho
    · obtain ⟨k, hold, -⟩ := hx.removed x hin
      cases hkind : x.kind with
      | wal =>
        obtain ⟨hisWal, hdone⟩ := h.wal k x hold hkind
        exact .inr (.inl ⟨hisWal, hcommitted _ hdone⟩)
      | segment =>
        obtain ⟨hnotWal, hplace⟩ := h.segment k x hold hkind
        refine .inr (.inr ⟨hnotWal, ?_⟩)
        rw [hplace]
        exact (h.swappedAt_of_segment hold hkind).follows hfollows

end

theorem LogInv.effect (h : LogInv A s) (heffect : Effect A.MaySwap s s') : LogInv A s' := by
  induction heffect with
  | quiet hquiet => exact h.quiet hquiet
  | create count partitions last rest => exact h.create partitions last rest
  | remove found => exact h.exchange (exchange_erase h.logged found)
  | trim beforeOffset found => exact h.exchange (exchange_trim h.logged found beforeOffset)
  | swap segment found kind first checked may =>
    exact h.exchange (exchange_swap h.logged found kind first checked may)
  | trans first second ih₁ ih₂ => exact ih₂ (ih₁ h)

/-- A first commit keeps the invariants. -/
theorem LogInv.commit (h : LogInv A s) {createdAtMs : ℕ} {chunks : List WalChunk}
    {bases : List ℕ} (hfirst : FirstCommit s s' object createdAtMs chunks bases)
    (hcreated : createdAtMs = A.createdAt object) (hisWal : A.isWal object)
    (hpath : endsWithChar object '/' = false) : LogInv A s' := by
  have hnew := hfirst.not_committed hcreated
  have hrecords := hfirst.records_ne_zero
  have hcommitted : ∀ o, s.Committed A.createdAt o → s'.Committed A.createdAt o :=
    fun o hdone => hfirst.committed (.inl hdone)
  have hlast : s'.lastStreamId = s.lastStreamId := by rw [hfirst.state]
  have hretired : s'.retired = s.retired := by rw [hfirst.state]
  have hentry := fun k e => hfirst.placed.entryAt (k := k) (e := e) h.logged hrecords
  have hfollows : Follows s s' := by
    refine ⟨hlast.ge, fun k q hq _ => ?_, fun k e he _ => ?_⟩
    · obtain ⟨p, hp⟩ := mem_iff_get.mp
        (hfirst.placed.mem_iff.mp (mem_of_get hq))
      exact ⟨p, hp, (hfirst.placed.tiles_extents h.logged hrecords hp hq).le⟩
    · exact (hentry k e he).imp_right fun hadded => hadded.2.2
  -- The object was never committed, so no entry names it yet.
  have hzero : walCount s.partitions object = 0 := by
    refine walCount_eq_zero.mpr fun k e he => ?_
    by_contra hnames
    obtain ⟨hkind, rfl⟩ := namesWal_eq_true.mp (by simpa using hnames)
    exact hnew (h.wal k e he hkind).2
  refine ⟨hfirst.placed.logged h.logged hrecords, ?_, hfirst.stamped hcreated h.stamped, ?_, ?_,
    ?_, ?_, ?_, ?_⟩
  · intro k hk
    rw [hlast]
    exact h.ids k (hfirst.placed.mem_iff.mp hk)
  · intro o
    have hlive : s'.walLiveChunks = s.walLiveChunks.insert object chunks.length := by
      rw [hfirst.state]
    rw [hlive, hfirst.placed.walCount_eq h.logged hrecords, get_insert]
    split_ifs with ho
    · have hlength : chunks.length ≠ 0 := by simpa using hfirst.nonempty
      rw [← ho, hzero, Nat.zero_add, liveCount, if_neg hlength]
    · exact h.live o
  · intro k e he hkind
    rcases hentry k e he with he | ⟨-, rfl, -⟩
    · exact (h.wal k e he hkind).imp_right (hcommitted _)
    · exact ⟨hisWal, hfirst.committed (.inr rfl)⟩
  · intro k e he hkind
    rcases hentry k e he with he | ⟨hwal, -⟩
    · exact h.segment k e he hkind
    · rw [hwal] at hkind
      cases hkind
  · intro k e he
    rcases hentry k e he with he | ⟨-, rfl, -⟩
    · exact h.paths k e he
    · exact hpath
  · intro o ho k e he
    rw [hretired] at ho
    rcases hentry k e he with he | ⟨-, rfl, -⟩
    · exact h.unnamed o ho k e he
    · rintro rfl
      rcases h.spent _ ho with hslash | ⟨-, hdone⟩ | ⟨hnotWal, -⟩
      · rw [hpath] at hslash
        cases hslash
      · exact hnew hdone
      · exact hnotWal hisWal
  · exact fun o ho => h.spent_of_follows hfollows hcommitted (hretired ▸ ho)

theorem logInv_empty : LogInv A {} where
  logged k p h := by simp at h
  ids k h := by simp at h
  stamped o record h := by simp at h
  live o := by simp [walCount, liveCount]
  wal k e h := by simp [EntryAt] at h
  segment k e h := by simp [EntryAt] at h
  paths k e h := by simp [EntryAt] at h
  unnamed o h := by simp at h
  spent o h := by simp at h

theorem LogInv.handler {command : Command} {r : Reply} (h : LogInv A s) (hallows : A.Allows command)
    (hok : (handler command).exec s = (.ok r, s')) : LogInv A s' := by
  rcases handler_effect hallows.swap hok with heffect | ⟨o, c, chunks, bases, rfl, -, hfirst⟩
  · exact h.effect heffect
  · obtain ⟨hcreated, hisWal, hpath⟩ := hallows.commit o c rfl
    exact h.commit hfirst hcreated hisWal hpath

theorem logInv_after (hallows : ∀ c ∈ commands, A.Allows c) : LogInv A (after commands) :=
  after_induction logInv_empty fun _ c hc _ _ h hok => h.handler (hallows c hc) hok

/-- **The log engine's invariants hold after every command** of every history whose
callers keep their part: indexes are keyed by base offset and tile the offsets up to
the next one, log starts lie in the first entry, byte totals and live counts are
exact, and no retired object is named by an index entry. -/
theorem log_invariants_hold {commands before : List Command} (h : CallerContract commands)
    (hbefore : before <+: commands) : (after before).LogValid := by
  obtain ⟨A, hallows⟩ := h.exists_callers
  exact (logInv_after fun c hc => hallows c (hbefore.subset hc)).logValid

/-- Two objects are committed, a segment replaces the entries of the first, and a
trim then drops it: both retire, and the live counts are those of the second. -/
theorem log_invariants_hold_swap :
    let commands : List Command := [.createNamespace "n", .createStream 1 "s" 2 .standard {},
      .commitWal "wal/1" 5 [⟨1, 0, 3, ⟨0, 9⟩, 0⟩, ⟨1, 0, 2, ⟨9, 12⟩, 0⟩],
      .commitWal "wal/2" 7 [⟨1, 0, 4, ⟨0, 8⟩, 0⟩, ⟨1, 1, 1, ⟨8, 9⟩, 0⟩],
      .swapSegment 1 0 [(0, "wal/1"), (3, "wal/1")] "seg/1" ⟨0, 20⟩ 0 none 10 ⟨10, 100⟩,
      .trimPartition 1 0 6 none 20]
    CallerContract commands ∧ (after commands).LogValid ∧
      (after commands).retired.keys = ["seg/1", "wal/1"] ∧
      (after commands).walLiveChunks.toList = [("wal/2", 2)] := by
  intro commands
  have hcontract : CallerContract commands := by constructor <;> decide +kernel
  exact ⟨hcontract, log_invariants_hold hcontract prefix_rfl, by decide +kernel,
    by decide +kernel⟩

end MetaState

end Loams.Meta
