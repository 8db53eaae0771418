/-
# Keys and records of the TiKV metastore
-/

import Loams.Data.KeyRanges
import Loams.Meta.State

namespace Loams.Tikv

open List Loams.Data Loams.Meta

/-- The pairs of the store. -/
abbrev Store := BTreeMap Bytes Bytes

/-! ## Records -/

/-- A partition head: the next offset, the log start, and the bytes its index
entries cover. -/
structure Head where
  next : ℕ := 0
  logStart : ℕ := 0
  bytes : ℕ := 0
  deriving DecidableEq

/-- The commit record of one partition group of a WAL object: how many groups the
call had, the object's creation time, and the base offset of each chunk of the
group with the chunk's position in the call. -/
structure WalGroup where
  groups : ℕ
  createdAtMs : ℕ
  offsets : List (ℕ × ℕ)
  deriving DecidableEq

/-- An object's reference record. -/
structure ObjectRef where
  refs : ℕ
  gcClaim : Bool
  deriving DecidableEq

/-- The parts of the format that come from elsewhere: the path hash and the
encodings of the records. -/
structure Format where
  xxh3 : Bytes → UInt64
  head : Codec Head
  entry : Codec IndexEntry
  group : Codec WalGroup
  object : Codec ObjectRef
  stream : Codec Meta.Stream
  lease : Codec Lease

/-! ## Keys -/

/-- Parts with a slash between them. -/
def joined : List Bytes → Bytes
  | [] => []
  | [part] => part
  | part :: rest => part ++ 47 :: joined rest

/-- A tag, a slash and the parts. -/
def tagged (tag : UInt8) (parts : List Bytes) : Bytes := tag :: 47 :: joined parts

/-- The keys the log engine reads and writes. -/
inductive Key
  | stream (id : StreamId)
  | head (stream : StreamId) (partition : ℕ)
  | indexEntry (stream : StreamId) (partition base : ℕ)
  | walGroup (object : String) (group : ℕ)
  | walLive (object : String)
  | retired (path : String)
  | objectRef (path : String)
  | lease (key : String)
  deriving DecidableEq

/-- The retired set is spread over this many shards. -/
def retiredShards : ℕ := 64

section Bytes

variable (F : Format)

/-- The first bytes of a path's hash; they spread time-ordered names. -/
def hash8 (path : String) : Bytes := beBytes 8 (F.xxh3 (utf8 path)).toNat

/-- The bytes of a key; the tags are letters of the ASCII alphabet. -/
def Key.bytes : Key → Bytes
  | .stream id => tagged 83 [beBytes 8 id]
  | .head id partition => tagged 104 [beBytes 8 id, beBytes 4 partition]
  | .indexEntry id partition base =>
    tagged 105 [beBytes 8 id, beBytes 4 partition, beBytes 8 base]
  | .walGroup object group => tagged 119 [hash8 F object, utf8 object, beBytes 4 group]
  | .walLive object => tagged 87 [hash8 F object, utf8 object]
  | .retired path =>
    tagged 114 [[UInt8.ofNat ((F.xxh3 (utf8 path)).toNat % retiredShards)], utf8 path]
  | .objectRef path => tagged 111 [hash8 F path, utf8 path]
  | .lease key => [101, 47, 109, 47] ++ utf8 key

/-- The prefix of the index entries of one partition. -/
def partitionEntries (stream : StreamId) (partition : ℕ) : Bytes :=
  tagged 105 [beBytes 8 stream, beBytes 4 partition, []]

end Bytes

/-- The integers of a key fit their widths. -/
def Key.Fits : Key → Prop
  | .stream id => id ≤ u64Max
  | .head id partition => id ≤ u64Max ∧ partition ≤ u32Max
  | .indexEntry id partition base => id ≤ u64Max ∧ partition ≤ u32Max ∧ base ≤ u64Max
  | .walGroup _ group => group ≤ u32Max
  | .walLive _ | .retired _ | .objectRef _ | .lease _ => True

theorem lt_pow_eight {n : ℕ} (h : n ≤ u64Max) : n < 256 ^ 8 := by
  unfold u64Max at h
  omega

theorem lt_pow_four {n : ℕ} (h : n ≤ u32Max) : n < 256 ^ 4 := by
  unfold u32Max at h
  omega

variable {F : Format}

@[simp] theorem length_hash8 (path : String) : (hash8 F path).length = 8 := length_beBytes _ _

/-- Fixed-width fields in front of a key are told apart. -/
theorem beBytes_append_inj {width a b : ℕ} {k l : Bytes} (ha : a < 256 ^ width)
    (hb : b < 256 ^ width) (h : beBytes width a ++ k = beBytes width b ++ l) : a = b ∧ k = l := by
  obtain ⟨hfront, hrest⟩ := append_inj h (by simp)
  exact ⟨(beBytes_inj ha hb).mp hfront, hrest⟩

/-- A path behind its hash is told apart. -/
theorem hash8_append_inj {a b : String} {k l : Bytes}
    (h : hash8 F a ++ k = hash8 F b ++ l) : k = l :=
  (append_inj h (by simp)).2

/-- Keys are told apart by their bytes. -/
theorem Key.bytes_inj {k l : Key} (hk : k.Fits) (hl : l.Fits) (h : k.bytes F = l.bytes F) :
    k = l := by
  -- the tags tell the kinds of keys apart
  have htag : (k.bytes F).head? = (l.bytes F).head? := by rw [h]
  cases k <;> cases l <;> simp [Key.bytes, tagged] at htag <;>
    simp only [Key.bytes, tagged, joined, cons.injEq, true_and] at h
  case stream.stream => rw [(beBytes_inj (lt_pow_eight hk) (lt_pow_eight hl)).mp h]
  case head.head =>
    obtain ⟨hstream, hrest⟩ := beBytes_append_inj (lt_pow_eight hk.1) (lt_pow_eight hl.1) h
    rw [hstream, (beBytes_inj (lt_pow_four hk.2) (lt_pow_four hl.2)).mp (cons.inj hrest).2]
  case indexEntry.indexEntry =>
    obtain ⟨hstream, hrest⟩ := beBytes_append_inj (lt_pow_eight hk.1) (lt_pow_eight hl.1) h
    obtain ⟨hpartition, hbase⟩ := beBytes_append_inj (lt_pow_four hk.2.1) (lt_pow_four hl.2.1)
      (cons.inj hrest).2
    rw [hstream, hpartition,
      (beBytes_inj (lt_pow_eight hk.2.2) (lt_pow_eight hl.2.2)).mp (cons.inj hbase).2]
  case walGroup.walGroup =>
    obtain ⟨hobject, hgroup⟩ := append_inj' (cons.inj (hash8_append_inj h)).2 (by simp)
    rw [utf8_inj.mp hobject,
      (beBytes_inj (lt_pow_four hk) (lt_pow_four hl)).mp (cons.inj hgroup).2]
  case walLive.walLive => rw [utf8_inj.mp (cons.inj (hash8_append_inj h)).2]
  case retired.retired => rw [utf8_inj.mp (cons.inj (append_inj h rfl).2).2]
  case objectRef.objectRef => rw [utf8_inj.mp (cons.inj (hash8_append_inj h)).2]
  case lease.lease => rw [utf8_inj.mp (append_cancel_left h)]

section Lookups

variable {store : Store} {k l : Key} {v : Bytes}

/-- A write is seen under its key only. -/
theorem get_insert_bytes (hk : k.Fits) (hl : l.Fits) :
    (store.insert (k.bytes F) v)[l.bytes F]? = if k = l then some v else store[l.bytes F]? := by
  rw [Std.ExtTreeMap.get_insert]
  exact if_congr ⟨Key.bytes_inj hk hl, fun h => by rw [h]⟩ rfl rfl

theorem get_erase_bytes (hk : k.Fits) (hl : l.Fits) :
    (store.erase (k.bytes F))[l.bytes F]? = if k = l then none else store[l.bytes F]? := by
  rw [Std.ExtTreeMap.get_erase]
  exact if_congr ⟨Key.bytes_inj hk hl, fun h => by rw [h]⟩ rfl rfl

end Lookups

/-! ## The keys of a partition's index -/

section IndexKeys

variable {id id' partition partition' base base' : ℕ}

theorem indexEntry_bytes (id partition base : ℕ) : (Key.indexEntry id partition base).bytes F =
    partitionEntries id partition ++ beBytes 8 base := by
  simp [Key.bytes, partitionEntries, tagged, joined]

/-- Offset order is key order. -/
theorem compare_indexEntry (hbase : base ≤ u64Max) (hbase' : base' ≤ u64Max) :
    compare ((Key.indexEntry id partition base).bytes F)
      ((Key.indexEntry id partition base').bytes F) = compare base base' := by
  rw [indexEntry_bytes, indexEntry_bytes, compare_append_left,
    compare_beBytes (lt_pow_eight hbase) (lt_pow_eight hbase')]

/-- An index key starts with the prefix of its own partition only. -/
theorem partitionEntries_prefix_iff (h : id ≤ u64Max ∧ partition ≤ u32Max)
    (h' : id' ≤ u64Max ∧ partition' ≤ u32Max) :
    partitionEntries id partition <+: (Key.indexEntry id' partition' base).bytes F ↔
      id = id' ∧ partition = partition' := by
  constructor
  · rintro ⟨rest, hrest⟩
    rw [indexEntry_bytes] at hrest
    simp only [partitionEntries, tagged, joined, cons_append, append_assoc,
      cons.injEq, true_and] at hrest
    obtain ⟨hid, hrest⟩ := beBytes_append_inj (lt_pow_eight h.1) (lt_pow_eight h'.1) hrest
    exact ⟨hid, (beBytes_append_inj (lt_pow_four h.2) (lt_pow_four h'.2) (cons.inj hrest).2).1⟩
  · rintro ⟨rfl, rfl⟩
    rw [indexEntry_bytes]
    exact prefix_append _ _

/-- The range of a partition's index entries. -/
theorem prefixRange_partitionEntries (id partition : ℕ) :
    ∃ hi, prefixRange (partitionEntries id partition) = (partitionEntries id partition, some hi) ∧
      ∀ k, partitionEntries id partition <+: k ↔
        (compare (partitionEntries id partition) k).isLE ∧ compare k hi = .lt := by
  have hsucc : successor (partitionEntries id partition) ≠ [] :=
    successor_append_ne_nil (p := [105]) (by decide) _
  refine ⟨_, by rw [prefixRange, if_neg hsucc], fun k => ?_⟩
  simpa [inRange] using (inRange_successor hsucc).symm

end IndexKeys

end Loams.Tikv
