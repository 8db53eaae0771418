/-
# What commands do to the log engine
-/

import Loams.Meta.Frame
import Loams.Meta.OffsetIndex

namespace Loams.Meta

open List hiding mem_insert_iff partition
open Loams.Data Loams.Control Program Std.ExtTreeMap

/-- The partitions of all streams. -/
abbrev Partitions := BTreeMap (StreamId × ℕ) PartitionState

/-- Every swap the command may make is allowed: of this segment, in this
partition, from this base offset on. -/
def Command.Swaps (allowed : String → StreamId × ℕ → ℕ → Prop) : Command → Prop
  | .swapSegment stream partition replaces segment _ _ _ _ _ =>
    ∀ base, replaces.head?.map Prod.fst = some base → allowed segment (stream, partition) base
  | _ => True

namespace MetaState

variable {s s' t : MetaState} {r : Reply} {command : Command}
variable {allowed : String → StreamId × ℕ → ℕ → Prop}

/-- Nothing of the log engine changes but the clock, what is left of the commit
records, and the retired objects: some may go, and prefixes may come. -/
structure Quiet (s s' : MetaState) : Prop where
  partitions : s'.partitions = s.partitions
  live : s'.walLiveChunks = s.walLiveChunks
  retired : ∀ o, o ∈ s'.retired → o ∈ s.retired ∨ endsWithChar o '/' = true
  commits : s'.walCommits = s.walCommits ∨
    s'.walCommits = s.walCommits.filter fun _ record => keepsRecord s'.clockMs record
  clock : s.clockMs ≤ s'.clockMs
  last : s'.lastStreamId = s.lastStreamId

/-- The elementary effects on the log engine, and sequences of them. -/
inductive Effect (allowed : String → StreamId × ℕ → ℕ → Prop) : MetaState → MetaState → Prop
  | quiet {s s' : MetaState} (h : Quiet s s') : Effect allowed s s'
  | create {s s' : MetaState} (count : ℕ)
      (partitions : s'.partitions = addPartitions s.partitions (s.lastStreamId + 1) count)
      (last : s'.lastStreamId = s.lastStreamId + 1)
      (rest : (s'.clockMs, s'.walCommits, s'.walLiveChunks, s'.retired) =
        (s.clockMs, s.walCommits, s.walLiveChunks, s.retired)) : Effect allowed s s'
  | remove {s : MetaState} {k : StreamId × ℕ} {p : PartitionState}
      (found : s.partitions[k]? = some p) :
      Effect allowed s
        (releaseEntries { s with partitions := s.partitions.erase k } p.entries)
  | trim {s : MetaState} {k : StreamId × ℕ} {p : PartitionState} (beforeOffset : ℕ)
      (found : s.partitions[k]? = some p) :
      Effect allowed s (releaseEntries { s with
        partitions := s.partitions.insert k (trimmedPartition p beforeOffset).2 }
        (trimmedPartition p beforeOffset).1)
  | swap {s : MetaState} {k : StreamId × ℕ} {p : PartitionState}
      {replaces : List (ℕ × String)} {mismatch : ApplyError}
      (segment : IndexEntry) (found : s.partitions[k]? = some p)
      (kind : segment.kind = .segment)
      (first : replaces.head?.map Prod.fst = some segment.baseOffset)
      (checked : p.checkReplaced mismatch replaces segment.baseOffset 0 = .ok segment.records)
      (may : allowed segment.object k segment.baseOffset) :
      Effect allowed s (s.withRun k.1 k.2 p (replaces.map Prod.fst) segment)
  | trans {s t s' : MetaState} (first : Effect allowed s t) (second : Effect allowed t s') :
      Effect allowed s s'

/-- The first commit of an object: every chunk is checked and placed, and the
commit is recorded. -/
structure FirstCommit (s s' : MetaState) (object : String) (createdAtMs : ℕ)
    (chunks : List WalChunk) (bases : List ℕ) : Prop where
  unrecorded : s.walCommits[object]? = none
  inWindow : s.clockMs ≤ satAdd createdAtMs walCommitWindowMs
  nonempty : chunks ≠ []
  valid : ∀ c ∈ chunks, s.validateChunk c = .ok ()
  placed : Placed object chunks s.partitions bases s'.partitions
  state : s' = { s with
    partitions := s'.partitions
    walLiveChunks := s.walLiveChunks.insert object chunks.length
    walCommits := s.walCommits.insert object ⟨bases, createdAtMs⟩ }

theorem FirstCommit.records_ne_zero {object : String} {createdAtMs : ℕ} {chunks : List WalChunk}
    {bases : List ℕ} (h : FirstCommit s s' object createdAtMs chunks bases) :
    ∀ c ∈ chunks, c.records ≠ 0 :=
  fun c hc => (validateChunk_eq_ok.mp (h.valid c hc)).2.2.1

/-! ## Every command has such effects -/

theorem quiet_refl (s : MetaState) : Quiet s s :=
  ⟨rfl, rfl, fun _ => .inl, .inl rfl, le_rfl, rfl⟩

theorem quiet_of_logPart (hclock : s.clockMs ≤ s'.clockMs) (hlog : s'.logPart = s.logPart) :
    Quiet s s' := by
  simp only [logPart, Prod.mk.injEq] at hlog
  obtain ⟨hlast, -, hpartitions, hcommits, hlive, hretired⟩ := hlog
  exact ⟨hpartitions, hlive, fun o ho => .inl (hretired ▸ ho), .inl hcommits, hclock, hlast⟩

theorem quiet_advance (s : MetaState) (nowMs : ℕ) : Quiet s (s.advance nowMs) :=
  quiet_of_logPart (le_max_left _ _) rfl

theorem mem_of_mem_forgetAll {retired : BTreeMap String ℕ} {objects : List String} {n : ℕ}
    {o : String} (h : o ∈ (forgetAll retired objects n).2) : o ∈ retired := by
  induction objects generalizing retired n with
  | nil => exact h
  | cons object rest ih =>
    rw [forgetAll] at h
    exact mem_of_mem_erase (ih h)

theorem effect_removePartition (id : StreamId) (partition : ℕ) :
    Effect allowed s (removePartition id s partition) := by
  unfold removePartition
  cases hp : s.partitions[(id, partition)]? with
  | none => exact .quiet (quiet_refl s)
  | some p => exact .remove hp

theorem effect_removePartitions (id : StreamId) (partitions : List ℕ) :
    Effect allowed s (partitions.foldl (removePartition id) s) :=
  partitions.foldlRecOn _ (.quiet (quiet_refl s)) fun _ hs partition _ =>
    hs.trans (effect_removePartition id partition)

theorem effect_removeStream (id : StreamId) : Effect allowed s (s.removeStream id) := by
  unfold removeStream
  split
  · exact .quiet (quiet_refl s)
  · -- The name, the entry and the ledger part go first; then one partition after the other.
    refine Effect.trans (.quiet ?_) (effect_removePartitions id _)
    exact ⟨rfl, rfl, fun _ => .inl, .inl rfl, le_rfl, rfl⟩

section

variable (ns : NamespaceId)

theorem effect_dropFound (name : String) (id : CollectionId) (c : Collection) :
    Effect allowed s (s.dropFound ns name id c) := by
  obtain ⟨_, _, _, _, t, _, ht, rfl, hdrop⟩ := dropFound_eq (s := s) ns name id c
  have hfirst : Effect allowed s t := by
    rw [ht]
    exact .quiet (quiet_of_logPart le_rfl rfl)
  refine hfirst.trans ((effect_removeStream c.stream).trans ?_)
  rw [hdrop]
  refine .quiet ⟨rfl, rfl, fun o ho => ?_, .inl rfl, le_rfl, rfl⟩
  simp only [mem_insert_iff] at ho
  rcases ho with rfl | rfl | ho
  · exact .inr (endsWithChar_append rfl)
  · exact .inr (endsWithChar_append rfl)
  · exact .inl ho

end

/-- A command that is applied has such an effect or is a first commit. -/
theorem handler_effect (hswaps : command.Swaps allowed)
    (h : (handler command).exec s = (.ok r, s')) :
    Effect allowed s s' ∨ ∃ object createdAtMs chunks bases,
      command = .commitWal object createdAtMs chunks ∧ r = .walCommitted bases ∧
        FirstCommit s s' object createdAtMs chunks bases := by
  have hframe := handler_frame h
  cases hwrites : command.writesLog with
  | false => exact .inl (.quiet (quiet_of_logPart hframe.clock (hframe.log hwrites)))
  | true =>
    cases command with
    | createStream =>
      obtain ⟨-, -, -, rfl⟩ := createStream_ok h
      exact .inl (.create _ rfl rfl rfl)
    | commitWal =>
      rcases commitWal_ok h with
        ⟨_, -, -, rfl⟩ | ⟨hnone, hclock, hne, -, hvalid, bases, m', hplaced, hr, rfl⟩
      · exact .inl (.quiet (quiet_refl _))
      · exact .inr ⟨_, _, _, bases, rfl, hr, hnone, hclock, hne, hvalid, hplaced, rfl⟩
    | setRetention =>
      obtain ⟨_, -, -, rfl⟩ := setRetention_ok h
      exact .inl (.quiet ⟨rfl, rfl, fun _ => .inl, .inl rfl, le_rfl, rfl⟩)
    | swapSegment stream partition _ _ _ _ _ nowMs =>
      obtain ⟨-, p, base, -, hp, hfirst, ⟨-, rfl⟩ | ⟨-, -, -, records, hok, rfl⟩⟩ :=
        swapSegment_ok h
      · exact .inl (.quiet (quiet_refl _))
      · refine .inl (.trans (t := s.advance nowMs) (.quiet (quiet_advance s nowMs)) ?_)
        exact .swap (k := (stream, partition)) _ hp rfl hfirst hok (hswaps base hfirst)
    | trimPartition _ _ beforeOffset _ nowMs =>
      obtain ⟨p, -, hp, -, -, rfl⟩ := trimPartition_ok h
      refine .inl (.trans (t := s.advance nowMs) (.quiet (quiet_advance s nowMs)) ?_)
      exact .trim beforeOffset hp
    | pruneWalCommits =>
      obtain ⟨-, rfl⟩ := pruneWalCommits_ok h
      exact .inl (.quiet ⟨rfl, rfl, fun _ => .inl, .inr rfl, le_max_left _ _, rfl⟩)
    | forgetObjects =>
      obtain ⟨-, rfl⟩ := forgetObjects_ok h
      exact .inl (.quiet ⟨rfl, rfl, fun o ho => .inl (mem_of_mem_forgetAll ho), .inl rfl,
        le_rfl, rfl⟩)
    | createCollection =>
      obtain ⟨-, -, -, -, -, -, rfl⟩ := createCollection_ok h
      exact .inl (.create _ rfl rfl rfl)
    | dropCollection =>
      rcases dropCollection_ok h with rfl | ⟨_, -, ⟨-, rfl⟩ | ⟨_, -, rfl⟩⟩
      · exact .inl (.quiet (quiet_advance s _))
      · exact .inl (.quiet (quiet_of_logPart (le_max_left _ _) rfl))
      · exact .inl (Effect.trans (.quiet (quiet_advance s _)) (effect_dropFound _ _ _ _))
    | _ => cases hwrites

/-! ## Partitions as logs -/

/-- Every partition holds a log. -/
def Logged (m : Partitions) : Prop :=
  ∀ (k : StreamId × ℕ) (p : PartitionState), m[k]? = some p → ∃ first es, p.Log first es

/-- The index of the partition holds the entry. -/
def EntryAt (m : Partitions) (k : StreamId × ℕ) (e : IndexEntry) : Prop :=
  ∃ p : PartitionState, m[k]? = some p ∧ e ∈ p.entries

/-- Whether the entry names the WAL object. -/
def namesWal (o : String) (e : IndexEntry) : Bool := e.kind = .wal && e.object = o

theorem namesWal_eq_true {o : String} {e : IndexEntry} :
    namesWal o e = true ↔ e.kind = .wal ∧ e.object = o := by
  rw [namesWal, Bool.and_eq_true, decide_eq_true_iff, decide_eq_true_iff]

/-- How many WAL entries, over all partitions, name the object. -/
def walCount (m : Partitions) (o : String) : ℕ :=
  m.total fun _ p => p.entries.countP (namesWal o)

variable {m m' : Partitions} {k k' : StreamId × ℕ} {p q : PartitionState} {e : IndexEntry}
variable {removed es es' : List IndexEntry} {first first' : ℕ}

/-- Entries of the partitions are taken out, and a segment may come in over the
offsets of WAL entries. -/
structure Exchange (allowed : String → StreamId × ℕ → ℕ → Prop) (m m' : Partitions)
    (removed : List IndexEntry) : Prop where
  logged : Logged m'
  count : ∀ o, walCount m' o + removed.countP (namesWal o) = walCount m o
  next : ∀ (k : StreamId × ℕ) (q : PartitionState), m'[k]? = some q →
    ∃ p : PartitionState, m[k]? = some p ∧ q.nextOffset = p.nextOffset
  entry : ∀ k e, EntryAt m' k e → EntryAt m k e ∨
    e.kind = .segment ∧ allowed e.object k e.baseOffset ∧
      ∃ w, EntryAt m k w ∧ w.kind = .wal ∧ w.baseOffset = e.baseOffset
  removed : ∀ e ∈ removed, ∃ k, EntryAt m k e ∧
    (e.kind = .segment → ∀ e', EntryAt m' k e' → e'.baseOffset ≠ e.baseOffset)

/-- WAL entries are old ones. -/
theorem Exchange.entry_wal {removed : List IndexEntry} {e : IndexEntry}
    (h : Exchange allowed m m' removed) (he : EntryAt m' k e) (hkind : e.kind = .wal) :
    EntryAt m k e :=
  (h.entry k e he).resolve_right fun hnew => by
    rw [hkind] at hnew
    cases hnew.1

section

variable (hm : Logged m) (found : m[k]? = some p)
include hm found

theorem exchange_erase : Exchange allowed m (m.erase k) p.entries where
  logged k' q hq := hm k' q (get_erase_eq_some.mp hq).2
  count o := by
    rw [walCount, walCount, ← total_erase_add found, Nat.add_comm]
  next k' q hq := ⟨q, (get_erase_eq_some.mp hq).2, rfl⟩
  entry k' e he := by
    obtain ⟨q, hq, he⟩ := he
    exact .inl ⟨q, (get_erase_eq_some.mp hq).2, he⟩
  removed e he := by
    refine ⟨k, ⟨p, found, he⟩, fun _ e' he' => ?_⟩
    obtain ⟨q, hq, -⟩ := he'
    simp at hq

/-- One partition's log is rewritten, its next offset kept. -/
theorem exchange_insert (hp : p.Log first es) (hq : q.Log first' es')
    (hnext : q.nextOffset = p.nextOffset)
    (hcount : ∀ o, es'.countP (namesWal o) + removed.countP (namesWal o) = es.countP (namesWal o))
    (hentry : ∀ e ∈ es', e ∈ es ∨ e.kind = .segment ∧ allowed e.object k e.baseOffset ∧
      ∃ w ∈ es, w.kind = .wal ∧ w.baseOffset = e.baseOffset)
    (hremoved : ∀ e ∈ removed, e ∈ es ∧
      (e.kind = .segment → ∀ e' ∈ es', e'.baseOffset ≠ e.baseOffset)) :
    Exchange allowed m (m.insert k q) removed where
  logged k' q' hq' := by
    rcases get_insert_eq_some.mp hq' with ⟨rfl, rfl⟩ | ⟨-, hq'⟩
    · exact ⟨_, _, hq⟩
    · exact hm k' q' hq'
  count o := by
    have htotal := total_insert_of_some
      (f := fun _ p => p.entries.countP (namesWal o)) found q
    have hlists := hcount o
    rw [hp.entries_eq, hq.entries_eq] at htotal
    rw [walCount, walCount]
    omega
  next k' q' hq' := by
    rcases get_insert_eq_some.mp hq' with ⟨rfl, rfl⟩ | ⟨-, hq'⟩
    · exact ⟨p, found, hnext⟩
    · exact ⟨q', hq', rfl⟩
  entry k' e he := by
    obtain ⟨q', hq', he⟩ := he
    rcases get_insert_eq_some.mp hq' with ⟨rfl, rfl⟩ | ⟨-, hq'⟩
    · rw [hq.entries_eq] at he
      rcases hentry e he with he | ⟨hkind, hmay, w, hw, hwal, hbase⟩
      · exact .inl ⟨p, found, hp.entries_eq.symm ▸ he⟩
      · exact .inr ⟨hkind, hmay, w, ⟨p, found, hp.entries_eq.symm ▸ hw⟩, hwal, hbase⟩
    · exact .inl ⟨q', hq', he⟩
  removed e he := by
    obtain ⟨hin, hgone⟩ := hremoved e he
    refine ⟨k, ⟨p, found, hp.entries_eq.symm ▸ hin⟩, fun hkind e' he' => ?_⟩
    obtain ⟨q', hq', he'⟩ := he'
    rw [getElem?_insert_self] at hq'
    obtain rfl := Option.some.inj hq'
    exact hgone hkind e' (hq.entries_eq ▸ he')

theorem exchange_trim (beforeOffset : ℕ) :
    Exchange allowed m (m.insert k (trimmedPartition p beforeOffset).2)
      (trimmedPartition p beforeOffset).1 := by
  obtain ⟨first, es, hp⟩ := hm k p found
  obtain ⟨q, first', htrim, hq, hnext, -⟩ := hp.trimmed beforeOffset
  rw [htrim]
  have hsplit := takeWhile_append_dropWhile
    (p := fun e : IndexEntry => decide (e.endOffset ≤ min beforeOffset p.nextOffset)) (l := es)
  refine exchange_insert hm found hp hq hnext (fun o => ?_) (fun e he => ?_) (fun e he => ?_)
  · rw [Nat.add_comm, ← countP_append, hsplit]
  · exact .inl ((dropWhile_suffix _).subset he)
  · refine ⟨(List.takeWhile_prefix _).subset he, fun _ e' he' => ?_⟩
    have hord := hp.tiles.pairwise_base
    rw [← hsplit] at hord
    exact ((pairwise_append.mp hord).2.2 e he e' he').ne'

/-- A swap exchanges the entries it replaces for the segment. -/
theorem exchange_swap {replaces : List (ℕ × String)} {mismatch : ApplyError} {segment : IndexEntry}
    (hkind : segment.kind = .segment)
    (hfirst : replaces.head?.map Prod.fst = some segment.baseOffset)
    (hok : p.checkReplaced mismatch replaces segment.baseOffset 0 = .ok segment.records)
    (hmay : allowed segment.object k segment.baseOffset) :
    Exchange allowed m
      (m.insert k ((p.removeEntries (replaces.map Prod.fst)).2.insertEntry segment))
      (p.removeEntries (replaces.map Prod.fst)).1 := by
  obtain ⟨first, es, hp⟩ := hm k p found
  obtain ⟨pre, run, post, q, rfl, hne, hmap, hwal, hremove, hlog⟩ := hp.replaceRun hfirst hok
  obtain ⟨hq, hnext, -⟩ := hlog segment rfl rfl
  rw [hremove]
  have hnames : ∀ o, namesWal o segment = false := fun o => by simp [namesWal, hkind]
  refine exchange_insert hm found hp hq hnext (fun o => ?_) (fun e he => ?_) (fun e he => ?_)
  · simp only [countP_append, countP_cons, hnames, Bool.false_eq_true, if_false]
    omega
  · rcases mem_append.mp he with he | he
    · exact .inl (by simp [he])
    rcases mem_cons.mp he with rfl | he
    · -- The segment starts where the first replaced entry did.
      obtain ⟨w, hw, hwkind⟩ := PartitionState.exists_get_of_checkReplaced hfirst hok
      obtain ⟨hmem, hbase⟩ := hp.get_iff.mp hw
      exact .inr ⟨hkind, hmay, w, hmem, hwkind, hbase⟩
    · exact .inl (by simp [he])
  · refine ⟨by simp [he], fun hsegment => ?_⟩
    rw [hwal e he] at hsegment
    cases hsegment

end

/-! ## New partitions and new entries -/

/-- What a step writes for each partition below a count, the steps write for all of them. -/
theorem get_foldl_range {σ β : Type} (look : σ → StreamId × ℕ → Option β) {f : σ → ℕ → σ}
    {id : StreamId} {v : Option β}
    (hf : ∀ s partition k, look (f s partition) k = if (id, partition) = k then v else look s k)
    (s : σ) (count : ℕ) (k : StreamId × ℕ) :
    look ((List.range count).foldl f s) k = if k.1 = id ∧ k.2 < count then v else look s k := by
  induction count with
  | zero => simp
  | succ count ih =>
    rw [range_succ, foldl_append, foldl_cons, foldl_nil, hf, ih]
    obtain ⟨stream, partition⟩ := k
    by_cases hid : stream = id
    · subst hid
      by_cases hlast : partition = count
      · simp [hlast]
      · have hiff : partition < count + 1 ↔ partition < count := by omega
        simp [hiff, Ne.symm hlast]
    · simp [hid, Ne.symm hid]

theorem addPartitions_get (m : Partitions) (id : StreamId) (count : ℕ) (k : StreamId × ℕ) :
    (addPartitions m id count)[k]? = if k.1 = id ∧ k.2 < count then some {} else m[k]? :=
  get_foldl_range (fun (m : Partitions) k => m[k]?)
    (fun _ _ _ => get_insert _ _ _ _) m count k

section

variable {chunk : WalChunk} (hm : Logged m) (found : m[k]? = some p) (hrecords : chunk.records ≠ 0)
include hm found hrecords

/-- Placing a chunk appends to the log of its partition. -/
theorem logged_appendChunk {object : String} :
    Logged (m.insert k (p.appendChunk object chunk)) := by
  obtain ⟨first, es, hp⟩ := hm k p found
  intro k' q hq
  rcases get_insert_eq_some.mp hq with ⟨rfl, rfl⟩ | ⟨-, hq⟩
  · exact ⟨_, _, (hp.appendChunk _ hrecords).1⟩
  · exact hm k' q hq

theorem entryAt_appendChunk {object : String} :
    EntryAt (m.insert k (p.appendChunk object chunk)) k' e ↔
      EntryAt m k' e ∨ k' = k ∧ e = chunk.entryAt object p.nextOffset := by
  obtain ⟨first, es, hp⟩ := hm k p found
  have hentries := (hp.appendChunk object hrecords).1.entries_eq
  simp only [EntryAt, get_insert]
  by_cases hk : k = k'
  · subst hk
    simp [found, hentries, hp.entries_eq]
  · simp [hk, Ne.symm hk]

theorem walCount_appendChunk {object : String} (o : String) :
    walCount (m.insert k (p.appendChunk object chunk)) o =
      walCount m o + if object = o then 1 else 0 := by
  obtain ⟨first, es, hp⟩ := hm k p found
  have hentries := (hp.appendChunk object hrecords).1.entries_eq
  have htotal := total_insert_of_some
    (f := fun _ p => p.entries.countP (namesWal o)) found (p.appendChunk object chunk)
  have hnames : namesWal o (chunk.entryAt object p.nextOffset) = true ↔ object = o :=
    namesWal_eq_true.trans (and_iff_right rfl)
  rw [hentries, hp.entries_eq, countP_append, countP_singleton] at htotal
  simp only [hnames] at htotal
  rw [walCount, walCount]
  omega

end

/-! ## A commit as a whole -/

namespace Placed

variable {object : String} {chunks : List WalChunk} {bases : List ℕ}

section

variable (h : Placed object chunks m bases m')
include h

theorem logged (hm : Logged m) (hrecords : ∀ c ∈ chunks, c.records ≠ 0) : Logged m' := by
  induction h with
  | nil m => exact hm
  | cons found placed ih =>
    rw [forall_mem_cons] at hrecords
    exact ih (logged_appendChunk hm found hrecords.1) hrecords.2

theorem mem_iff : k ∈ m' ↔ k ∈ m := by
  induction h with
  | nil m => rfl
  | cons found placed ih =>
    rw [ih, mem_insert_iff_of_get found]

/-- Partitions without a chunk stay as they are. -/
theorem get_of_forall_ne (hne : ∀ c ∈ chunks, (c.stream, c.partition) ≠ k) : m'[k]? = m[k]? := by
  induction h with
  | nil m => rfl
  | cons found placed ih =>
    rw [forall_mem_cons] at hne
    rw [ih hne.2, get_insert, if_neg hne.1]

theorem length_eq : bases.length = chunks.length := by
  induction h with
  | nil => rfl
  | cons found placed ih => rw [length_cons, length_cons, ih]

theorem walCount_eq (hm : Logged m) (hrecords : ∀ c ∈ chunks, c.records ≠ 0) (o : String) :
    walCount m' o = walCount m o + if object = o then chunks.length else 0 := by
  induction h with
  | nil m => simp
  | cons found placed ih =>
    rw [forall_mem_cons] at hrecords
    rw [ih (logged_appendChunk hm found hrecords.1) hrecords.2,
      walCount_appendChunk hm found hrecords.1, length_cons]
    split_ifs <;> omega

/-- The new entries are WAL entries of the object behind what was there. -/
theorem entryAt (hm : Logged m) (hrecords : ∀ c ∈ chunks, c.records ≠ 0) (he : EntryAt m' k e) :
    EntryAt m k e ∨ e.kind = .wal ∧ e.object = object ∧
      ∃ p : PartitionState, m[k]? = some p ∧ p.nextOffset ≤ e.baseOffset := by
  induction h with
  | nil m => exact .inl he
  | @cons chunk rest p bases m m' found placed ih =>
    rw [forall_mem_cons] at hrecords
    obtain ⟨first, es, hp⟩ := hm _ p found
    have hnext := (hp.appendChunk object hrecords.1).2
    rcases ih (logged_appendChunk hm found hrecords.1) hrecords.2 he with
      he | ⟨hkind, hobject, q, hq, hle⟩
    · rcases (entryAt_appendChunk hm found hrecords.1).mp he with he | ⟨rfl, rfl⟩
      · exact .inl he
      · exact .inr ⟨rfl, rfl, p, found, le_rfl⟩
    · refine .inr ⟨hkind, hobject, ?_⟩
      rcases get_insert_eq_some.mp hq with ⟨rfl, rfl⟩ | ⟨-, hq⟩
      · exact ⟨p, found, by omega⟩
      · exact ⟨q, hq, hle⟩

end

end Placed

/-! ## Logs and next offsets along the effects -/

@[simp] theorem releaseEntries_partitions (removed : List IndexEntry) :
    (s.releaseEntries removed).partitions = s.partitions := by
  obtain ⟨live, retired, hrel⟩ := releaseEntries_eq (s := s) removed
  rw [hrel]

@[simp] theorem releaseEntries_lastStreamId (removed : List IndexEntry) :
    (s.releaseEntries removed).lastStreamId = s.lastStreamId := by
  obtain ⟨live, retired, hrel⟩ := releaseEntries_eq (s := s) removed
  rw [hrel]

/-- Partitions hold logs; a partition that was there keeps its next offset, and a
new one belongs to a new stream and starts at zero. -/
structure NextKept (s s' : MetaState) : Prop where
  logged : Logged s'.partitions
  last : s.lastStreamId ≤ s'.lastStreamId
  next : ∀ (k : StreamId × ℕ) (q : PartitionState), s'.partitions[k]? = some q →
    (∃ p : PartitionState, s.partitions[k]? = some p ∧ q.nextOffset = p.nextOffset) ∨
      s.lastStreamId < k.1 ∧ k.1 ≤ s'.lastStreamId ∧ q.nextOffset = 0

/-- The ids of partitions stay below the last one. -/
theorem NextKept.ids (h : NextKept s s') (hs : ∀ k : StreamId × ℕ, k ∈ s.partitions →
    k.1 ≤ s.lastStreamId) (k : StreamId × ℕ) (hk : k ∈ s'.partitions) : k.1 ≤ s'.lastStreamId := by
  obtain ⟨q, hq⟩ := mem_iff_get.mp hk
  rcases h.next k q hq with ⟨p, hp, -⟩ | ⟨-, hle, -⟩
  · exact (hs k (mem_of_get hp)).trans h.last
  · exact hle

theorem Exchange.nextKept {m' : Partitions} {removed : List IndexEntry}
    (h : Exchange allowed s.partitions m' removed) :
    NextKept s (releaseEntries { s with partitions := m' } removed) where
  logged := by
    rw [releaseEntries_partitions]
    exact h.logged
  last := by rw [releaseEntries_lastStreamId]
  next k q hq := by
    rw [releaseEntries_partitions] at hq
    exact .inl (h.next k q hq)

theorem nextKept_create (hm : Logged s.partitions) {count : ℕ}
    (hpartitions : s'.partitions = addPartitions s.partitions (s.lastStreamId + 1) count)
    (hlast : s'.lastStreamId = s.lastStreamId + 1) : NextKept s s' where
  logged k q hq := by
    rw [hpartitions, addPartitions_get] at hq
    split_ifs at hq
    · obtain rfl := Option.some.inj hq
      exact ⟨0, [], .empty⟩
    · exact hm k q hq
  last := hlast ▸ Nat.le_succ _
  next k q hq := by
    rw [hpartitions, addPartitions_get] at hq
    split_ifs at hq with hk
    · obtain rfl := Option.some.inj hq
      exact .inr ⟨hk.1 ▸ Nat.lt_succ_self _, hk.1 ▸ hlast.ge, rfl⟩
    · exact .inl ⟨q, hq, rfl⟩

theorem Effect.nextKept (h : Effect allowed s s') (hm : Logged s.partitions) : NextKept s s' := by
  induction h with
  | quiet h =>
    refine ⟨h.partitions ▸ hm, h.last.ge, fun k q hq => ?_⟩
    rw [h.partitions] at hq
    exact .inl ⟨q, hq, rfl⟩
  | create count partitions last rest => exact nextKept_create hm partitions last
  | remove found =>
    have hexchange : Exchange allowed _ _ _ := exchange_erase hm found
    exact hexchange.nextKept
  | trim beforeOffset found =>
    have hexchange : Exchange allowed _ _ _ := exchange_trim hm found beforeOffset
    exact hexchange.nextKept
  | swap segment found kind first checked may =>
    exact Exchange.nextKept (exchange_swap hm found kind first checked may)
  | trans first second ih₁ ih₂ =>
    have h₁ := ih₁ hm
    have h₂ := ih₂ h₁.logged
    refine ⟨h₂.logged, h₁.last.trans h₂.last, fun k q hq => ?_⟩
    rcases h₂.next k q hq with ⟨p, hp, hnext⟩ | ⟨hlt, hle, hzero⟩
    · rcases h₁.next k p hp with ⟨p', hp', hnext'⟩ | ⟨hlt, hle, hzero⟩
      · exact .inl ⟨p', hp', hnext.trans hnext'⟩
      · exact .inr ⟨hlt, hle.trans h₂.last, hnext.trans hzero⟩
    · exact .inr ⟨h₁.last.trans_lt hlt, hle, hzero⟩

/-! ## Reading a partition -/

theorem logged_after (commands : List Command) : Logged (after commands).partitions := by
  have hempty : Logged ({} : MetaState).partitions := fun k p h => by simp at h
  refine after_induction (P := fun s => Logged s.partitions) hempty
    fun s command _ r s' hs hok => ?_
  have hswaps : command.Swaps fun _ _ _ => True := by cases command <;> simp [Command.Swaps]
  rcases handler_effect hswaps hok with heffect | ⟨_, _, _, _, -, -, hfirst⟩
  · exact (heffect.nextKept hs).logged
  · exact hfirst.placed.logged hs hfirst.records_ne_zero

/-- In every partition that commands lead to, a lookup finds an entry for exactly the
offsets from the log start to the next offset, the one that holds the offset; and the
entries from an offset on are the last ones of the index, one after another to the next
offset, from the entry that holds the first readable offset asked for. -/
theorem partition_reads_exact (commands : List Command) {k : StreamId × ℕ} {p : PartitionState}
    (hp : (after commands).partitions[k]? = some p) (o : ℕ) :
    ((p.lookup o).isSome ↔ p.logStartOffset ≤ o ∧ o < p.nextOffset) ∧
    (∀ e ∈ p.lookup o, e ∈ p.entries ∧ e.baseOffset ≤ o ∧ o < e.endOffset) ∧
    p.entriesFrom o <:+ p.entries ∧
    (∃ lo ≤ max o p.logStartOffset, PartitionState.Tiled lo (p.entriesFrom o) p.nextOffset) ∧
    (max o p.logStartOffset < p.nextOffset → ∃ e rest, p.entriesFrom o = e :: rest ∧
      e.baseOffset ≤ max o p.logStartOffset ∧ max o p.logStartOffset < e.endOffset) := by
  obtain ⟨first, es, h⟩ := logged_after commands k p hp
  have hstart := h.first_le
  obtain ⟨lo, hlo, htiles⟩ := h.tiles.dropWhile (hstart.trans (le_max_right o _))
  rw [h.entries_eq, h.entriesFrom_eq]
  refine ⟨?_, fun e he => (h.lookup_eq_some_iff.mp he).2, dropWhile_suffix _,
    ⟨lo, hlo, htiles⟩, fun hlt => ?_⟩
  · simp only [Option.isSome_iff_exists, h.lookup_eq_some_iff, exists_and_left,
      h.tiles.exists_mem_iff]
    omega
  · cases hes : es.dropWhile fun e => e.endOffset ≤ max o p.logStartOffset with
    | nil =>
      rw [hes] at htiles
      exact absurd (htiles ▸ hlo) (Nat.not_le.mpr hlt)
    | cons e rest =>
      have hend := h.tiles.lt_stop_of_mem_dropWhile (hes ▸ mem_cons_self)
      rw [hes] at htiles
      exact ⟨e, rest, rfl, htiles.1.trans_le hlo, hend⟩

/-- A trim into the middle of an entry. -/
theorem partition_reads_exact_trimmed :
    let commands : List Command := [.createNamespace "n", .createStream 1 "s" 1 .standard {},
      .commitWal "wal/1" 5 [⟨1, 0, 3, ⟨0, 9⟩, 0⟩, ⟨1, 0, 4, ⟨9, 12⟩, 0⟩],
      .trimPartition 1 0 5 none 20]
    ∃ p, (after commands).partitions[((1 : StreamId), 0)]? = some p ∧
      ((p.lookup 5).isSome ↔ p.logStartOffset ≤ 5 ∧ 5 < p.nextOffset) := by
  intro commands
  have hsome : ((after commands).partitions[((1 : StreamId), 0)]?).isSome := by decide +kernel
  obtain ⟨p, hp⟩ := Option.isSome_iff_exists.mp hsome
  exact ⟨p, hp, (partition_reads_exact commands hp 5).1⟩

end MetaState

end Loams.Meta
