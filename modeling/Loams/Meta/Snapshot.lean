/-
# Metastore snapshots
-/

import Loams.Data.Codec
import Loams.Meta.State
import Mathlib.Data.Countable.Basic
import Mathlib.Data.Vector.Defs
import Mathlib.Logic.Equiv.List
import Mathlib.Tactic.DeriveCountable

namespace Loams.Meta

open List hiding Vector
open Loams.Data Loams.Control Std

/-! ## The derived encoding -/

namespace MetaState

variable (s : MetaState)

/-- The state without the maps its derived encoding skips. -/
def withoutSkipped : MetaState :=
  { s with
    collectionHot := ∅
    aliasTargets := ∅
    idempotency := ∅ }

/-- What the derived decoding can yield: the skipped maps take their defaults. -/
def Derived : Type := { s : MetaState // s.withoutSkipped = s }

/-- The part of the state that the derived encoding writes. -/
def derived : Derived := ⟨s.withoutSkipped, rfl⟩

/-- The hot settings are replaced. -/
def setCollectionHotMap (hot : BTreeMap CollectionId HotConfig) : MetaState :=
  { s with collectionHot := hot }

/-- The targets are replaced. -/
def setAliasTargetsMap (targets : BTreeMap (NamespaceId × String) AliasTargets) : MetaState :=
  { s with aliasTargets := targets }

/-- The ledger is replaced. -/
def setIdempotencyMap
    (ledger : BTreeMap (StreamId × IdempotencyKey) IdempotencyEntry) : MetaState :=
  { s with idempotency := ledger }

/-- Setting the skipped maps again restores the state. -/
theorem set_skipped_derived : ((s.derived.1.setCollectionHotMap s.collectionHot).setAliasTargetsMap
      s.aliasTargets).setIdempotencyMap s.idempotency = s := by
  cases s
  rfl

end MetaState

/-- The encodings of a snapshot's parts, for a type of snapshot metadata. -/
structure Postcard (Meta : Type) where
  snapshotMeta : Codec Meta
  state : Codec MetaState.Derived
  hot : Codec (BTreeMap CollectionId HotConfig)
  aliasTargets : Codec (BTreeMap (NamespaceId × String) AliasTargets)
  idempotency : Codec (BTreeMap (StreamId × IdempotencyKey) IdempotencyEntry)

/-! ## The envelope -/

/-- `OPNMETA` and a zero byte. -/
def snapshotMagic : Bytes := [79, 80, 78, 77, 69, 84, 65, 0]

/-- With the ledger. -/
def snapshotFormatVersion : ℕ := 8
/-- With alias targets. -/
def aliasFormatVersion : ℕ := 7
/-- With hot settings. -/
def hotFormatVersion : ℕ := 6
/-- The oldest that is read. -/
def baseFormatVersion : ℕ := 5

/-- The magic and the format version. -/
def headerLen : ℕ := 12

/-- The checksum. -/
def trailerLen : ℕ := 4

/-- The kinds of failures. -/
inductive IoErrorKind
  | invalidData
  | unsupported
  deriving DecidableEq

/-- A failure with its message. -/
structure IoError where
  kind : IoErrorKind
  message : String
  deriving DecidableEq

/-- Bytes that are no snapshot. -/
def invalidData (message : String) : IoError := ⟨.invalidData, message⟩

section Snapshot

variable {Meta : Type} (postcard : Postcard Meta) (crc32c : Bytes → UInt32)

namespace Postcard

/-- The snapshot's metadata, then the state. -/
def body : Codec (Meta × MetaState.Derived) := postcard.snapshotMeta.prod postcard.state

end Postcard

/-- The oldest format that carries every map with something in it. -/
def snapshotVersion (s : MetaState) : ℕ :=
  match s.collectionHot.isEmpty, s.aliasTargets.isEmpty, s.idempotency.isEmpty with
  | _, _, false => snapshotFormatVersion
  | true, true, true => baseFormatVersion
  | false, true, true => hotFormatVersion
  | _, false, true => aliasFormatVersion

/-- What stands between a snapshot's header and its checksum: the derived encoding,
then the maps that the format version adds. -/
def snapshotSections (version : ℕ) (m : Meta) (s : MetaState) : Bytes :=
  postcard.body.encode (m, s.derived) ++
    ((if hotFormatVersion ≤ version then postcard.hot.encode s.collectionHot else []) ++
      ((if aliasFormatVersion ≤ version then postcard.aliasTargets.encode s.aliasTargets else []) ++
        (if snapshotFormatVersion ≤ version then postcard.idempotency.encode s.idempotency
          else [])))

/-- The header, the sections and a checksum. -/
def encodeSnapshot (m : Meta) (s : MetaState) : Bytes :=
  let version := snapshotVersion s
  let out := snapshotMagic ++ leBytes 4 version ++ snapshotSections postcard version m s
  out ++ leBytes 4 (crc32c out).toNat

/-- Reads a body written in a format version. -/
def decodeFormat (version : ℕ) (body : Bytes) : Except IoError (Meta × MetaState) := do
  if version = baseFormatVersion then
    let (m, s) ← (postcard.body.decode body).mapError invalidData
    .ok (m, s.1)
  else if version = hotFormatVersion then
    let ((m, s), rest) ← (postcard.body.take body).mapError invalidData
    let hot ← (postcard.hot.decode rest).mapError invalidData
    require (hot.isEmpty = false) (invalidData "a version 6 snapshot without hot configuration")
    .ok (m, s.1.setCollectionHotMap hot)
  else if version = aliasFormatVersion then
    let ((m, s), rest) ← (postcard.body.take body).mapError invalidData
    let (hot, rest) ← (postcard.hot.take rest).mapError invalidData
    let targets ← (postcard.aliasTargets.decode rest).mapError invalidData
    require (targets.isEmpty = false)
      (invalidData "a version 7 snapshot without multi-target aliases")
    .ok (m, (s.1.setCollectionHotMap hot).setAliasTargetsMap targets)
  else if version = snapshotFormatVersion then
    let ((m, s), rest) ← (postcard.body.take body).mapError invalidData
    let (hot, rest) ← (postcard.hot.take rest).mapError invalidData
    let (targets, rest) ← (postcard.aliasTargets.take rest).mapError invalidData
    let ledger ← (postcard.idempotency.decode rest).mapError invalidData
    require (ledger.isEmpty = false) (invalidData "a version 8 snapshot without a ledger")
    .ok (m, ((s.1.setCollectionHotMap hot).setAliasTargetsMap targets).setIdempotencyMap ledger)
  else .error ⟨.unsupported, s!"unsupported snapshot format version {version}"⟩

/-- Reads every version that is known. -/
def decodeSnapshot (bytes : Bytes) : Except IoError (Meta × MetaState) := do
  require (headerLen + trailerLen ≤ bytes.length ∧ bytes.take 8 = snapshotMagic)
    (invalidData "not a metastore snapshot")
  let covered := bytes.take (bytes.length - trailerLen)
  let trailer := bytes.drop (bytes.length - trailerLen)
  require ((crc32c covered).toNat = ofLeBytes trailer) (invalidData "snapshot checksum mismatch")
  let version := ofLeBytes ((covered.drop 8).take 4)
  decodeFormat postcard version (covered.drop headerLen)

/-! ## The round trip -/

theorem snapshotVersion_lt (s : MetaState) : snapshotVersion s < 256 ^ 4 := by
  unfold snapshotVersion
  split <;> decide

/-- The decoder finds the version and the sections of any envelope. -/
theorem decodeSnapshot_envelope {version : ℕ} (hversion : version < 256 ^ 4) (sections : Bytes) :
    decodeSnapshot postcard crc32c
      (snapshotMagic ++ leBytes 4 version ++ sections ++
        leBytes 4 (crc32c (snapshotMagic ++ leBytes 4 version ++ sections)).toNat) =
      decodeFormat postcard version sections := by
  set out := snapshotMagic ++ leBytes 4 version ++ sections with hout
  have hmagic : snapshotMagic.length = 8 := rfl
  have hlength : out.length = 12 + sections.length := by simp [hout, hmagic]; omega
  have hcrc : ofLeBytes (leBytes 4 (crc32c out).toNat) = (crc32c out).toNat :=
    ofLeBytes_leBytes (crc32c out).toNat_lt
  have hcovered : (out ++ leBytes 4 (crc32c out).toNat).length - trailerLen = out.length := by
    simp [trailerLen]
  have hstart : (out ++ leBytes 4 (crc32c out).toNat).take 8 = snapshotMagic := by
    simp [hout, append_assoc, take_append, snapshotMagic]
  have hlong : headerLen + trailerLen ≤ (out ++ leBytes 4 (crc32c out).toNat).length := by
    simp only [headerLen, trailerLen, length_append, length_leBytes, hlength]
    omega
  have hformat : ofLeBytes ((out.drop 8).take 4) = version := by
    have hdrop : out.drop 8 = leBytes 4 version ++ sections := by
      rw [hout, append_assoc, ← hmagic, drop_left]
    rw [hdrop, take_left' (length_leBytes 4 version), ofLeBytes_leBytes hversion]
  have hbody : out.drop headerLen = sections := by
    rw [hout]
    exact drop_left' (by simp [hmagic, headerLen])
  simp only [decodeSnapshot, hcovered, take_left, drop_left, hstart, hlong, hcrc,
    hformat, hbody, and_self, require, if_true, bind, Except.bind]

/-- Every format's decoder restores what the encoder writes in it. -/
theorem decodeFormat_snapshotSections (m : Meta) (s : MetaState) :
    decodeFormat postcard (snapshotVersion s) (snapshotSections postcard (snapshotVersion s) m s) =
      .ok (m, s) := by
  have hall := s.set_skipped_derived
  have hbody := postcard.body.take_encode (m, s.derived)
  have hhot := postcard.hot.take_encode s.collectionHot
  have htargets := postcard.aliasTargets.take_encode s.aliasTargets
  -- the version is chosen by which of the skipped maps are empty
  unfold snapshotVersion
  split <;> simp only [decodeFormat, snapshotSections, snapshotFormatVersion, aliasFormatVersion,
    hotFormatVersion, baseFormatVersion, require, bind, Except.bind, Except.mapError]
  case h_1 hledger => simp [hbody, hhot, htargets, hledger, hall]
  case h_2 hhotEmpty htargetsEmpty hledgerEmpty =>
    rw [ExtTreeMap.isEmpty_iff.mp hhotEmpty, ExtTreeMap.isEmpty_iff.mp htargetsEmpty,
      ExtTreeMap.isEmpty_iff.mp hledgerEmpty] at hall
    have hsame : s.derived.1 = s := hall
    simp [hsame]
  case h_3 hhotFull htargetsEmpty hledgerEmpty =>
    rw [ExtTreeMap.isEmpty_iff.mp htargetsEmpty, ExtTreeMap.isEmpty_iff.mp hledgerEmpty] at hall
    have hsame : s.derived.1.setCollectionHotMap s.collectionHot = s := hall
    simp [hbody, hhotFull, hsame]
  case h_4 htargetsFull hledgerEmpty =>
    -- An empty ledger need not be set again.
    rw [ExtTreeMap.isEmpty_iff.mp hledgerEmpty] at hall
    have hsame : (s.derived.1.setCollectionHotMap s.collectionHot).setAliasTargetsMap
      s.aliasTargets = s := hall
    simp [hbody, hhot, htargetsFull, hsame]

/-- A snapshot is read back exactly, in whichever format it was written, and no two
snapshots have the same bytes. -/
theorem snapshot_round_trips :
    (∀ m s, decodeSnapshot postcard crc32c (encodeSnapshot postcard crc32c m s) = .ok (m, s)) ∧
      Function.Injective fun p : Meta × MetaState =>
        encodeSnapshot postcard crc32c p.1 p.2 := by
  have hround : ∀ m s,
      decodeSnapshot postcard crc32c (encodeSnapshot postcard crc32c m s) = .ok (m, s) := by
    intro m s
    rw [encodeSnapshot, decodeSnapshot_envelope postcard crc32c (snapshotVersion_lt s),
      decodeFormat_snapshotSections]
  refine ⟨hround, fun p q hbytes => ?_⟩
  have hdecoded := hround p.1 p.2
  rw [show encodeSnapshot postcard crc32c p.1 p.2 = encodeSnapshot postcard crc32c q.1 q.2
    from hbytes, hround] at hdecoded
  exact (Except.ok.inj hdecoded).symm

end Snapshot

/-! ## Encodings exist

The state is countable data, so encodings as the round trip assumes exist. -/

instance {α β : Type} [Ord α] [TransOrd α] [Countable α] [Countable β] :
    Countable (BTreeMap α β) :=
  Function.Injective.countable (f := ExtTreeMap.toList) fun _ _ => ExtTreeMap.toList_inj.mp

instance countableByte : Countable UInt8 :=
  Function.Injective.countable (f := UInt8.toNat) fun _ _ => UInt8.toNat_inj.mp

instance countableChar : Countable Char :=
  Function.Injective.countable (f := Char.toNat) fun _ _ => Char.toNat_inj.mp

instance countableString : Countable String :=
  Function.Injective.countable (f := String.toList) fun _ _ => String.toList_inj.mp

instance countableVector {α : Type} {n : ℕ} [Countable α] : Countable (Vector α n) :=
  Function.Injective.countable (f := Vector.toList) fun _ _ => Vector.toList_inj.mp

deriving instance Countable for Namespace, WalClass, Retention, TargetRef, Link, Meta.Stream,
  ByteRange, EntryKind, IndexEntry, WalCommitRecord, PartitionState, Lease, Pointer, FieldKind,
  FieldSpec, Distance, VectorElement, VectorIndexSpec, HnswParams, Quantization, VectorSpec,
  SparseModifier, SparseVectorSpec, DynamicMapping, CollectionSchema, Collection, HotConfig,
  AliasTargets, IdempotencyEntry

set_option synthInstance.maxSize 512 in
instance : Countable MetaState := by
  let fields (s : MetaState) :=
    ((s.clockMs, s.lastNamespaceId, s.lastStreamId, s.namespaces, s.namespaceNames, s.streams,
      s.streamNames, s.partitions, s.walCommits, s.walLiveChunks, s.retired),
      (s.leases, s.pointers, s.lastLinkId, s.links, s.linkNames, s.lastCollectionId, s.collections,
        s.collectionNames, s.aliases, s.collectionHot, s.aliasTargets, s.idempotency))
  refine Function.Injective.countable (f := fields) fun s t h => ?_
  cases s
  cases t
  simpa [fields, and_assoc] using h

instance : Countable MetaState.Derived :=
  inferInstanceAs (Countable { s : MetaState // s.withoutSkipped = s })

/-- A snapshot is read back with some encodings of its parts. -/
theorem snapshot_round_trips_clock : ∃ postcard : Postcard ℕ,
    decodeSnapshot postcard (fun _ => 0)
      (encodeSnapshot postcard (fun _ => 0) 7 { clockMs := 5 }) = .ok (7, { clockMs := 5 }) := by
  obtain ⟨snapshotMeta⟩ := Codec.nonempty_of_countable ℕ
  obtain ⟨state⟩ := Codec.nonempty_of_countable MetaState.Derived
  obtain ⟨hot⟩ := Codec.nonempty_of_countable (BTreeMap CollectionId HotConfig)
  obtain ⟨targets⟩ := Codec.nonempty_of_countable (BTreeMap (NamespaceId × String) AliasTargets)
  obtain ⟨ledger⟩ := Codec.nonempty_of_countable
    (BTreeMap (StreamId × IdempotencyKey) IdempotencyEntry)
  exact ⟨⟨snapshotMeta, state, hot, targets, ledger⟩, (snapshot_round_trips _ _).1 7 _⟩

end Loams.Meta
