/-
# Namespaces, streams and links
-/

import Loams.Meta.Ledger
import Loams.Meta.Log

namespace Loams.Meta

open Loams.Data Loams.Control Program

namespace MetaState

variable {s s' : MetaState} {r : Reply} {name : String} {ns : NamespaceId}

/-! ## Streams and links as the collections use them -/

/-- A stream's partitions, all empty. -/
def addPartitions (m : BTreeMap (StreamId × ℕ) PartitionState) (id : StreamId) (count : ℕ) :
    BTreeMap (StreamId × ℕ) PartitionState :=
  (List.range count).foldl (fun m partition => m.insert (id, partition) {}) m

/-- Adds a stream the caller validated and returns its id. -/
def insertStream (s : MetaState) (ns : NamespaceId) (name : String) (partitions : ℕ)
    («class» : WalClass) (retention : Retention) : StreamId × MetaState :=
  let id := s.lastStreamId + 1
  (id, { s with
    lastStreamId := id
    partitions := addPartitions s.partitions id partitions
    streamNames := s.streamNames.insert (ns, name) id
    streams := s.streams.insert id ⟨id, ns, name, partitions, «class», retention⟩ })

/-- Drops one partition and releases its entries. -/
def removePartition (id : StreamId) (s : MetaState) (partition : ℕ) : MetaState :=
  match s.partitions[(id, partition)]? with
  | none => s
  | some p =>
    releaseEntries { s with partitions := s.partitions.erase (id, partition) } p.entries

/-- Removes a stream, its name, its part of the ledger and its partitions. -/
def removeStream (s : MetaState) (id : StreamId) : MetaState :=
  match s.streams[id]? with
  | none => s
  | some stream =>
    let s := { s with
      streams := s.streams.erase id
      streamNames := s.streamNames.erase (stream.namespace, stream.name) }
    (List.range stream.partitions).foldl (removePartition id) (s.dropStreamIdempotency id)

theorem foldl_removePartition_eq (id : StreamId) (partitions : List ℕ) :
    ∃ kept live retired, partitions.foldl (removePartition id) s =
      { s with partitions := kept, walLiveChunks := live, retired := retired } := by
  induction partitions generalizing s with
  | nil => exact ⟨s.partitions, s.walLiveChunks, s.retired, rfl⟩
  | cons partition rest ih =>
    obtain ⟨kept, live, retired, hrest⟩ := ih (s := removePartition id s partition)
    refine ⟨kept, live, retired, ?_⟩
    rw [List.foldl_cons, hrest]
    unfold removePartition
    split
    · rfl
    · rename_i p _
      obtain ⟨live', retired', hrel⟩ := releaseEntries_eq
        (s := { s with partitions := s.partitions.erase (id, partition) }) p.entries
      rw [hrel]

/-- Removing a stream touches the streams, the log engine and the ledger only. -/
theorem removeStream_eq (id : StreamId) :
    ∃ streams streamNames kept live retired idempotency, s.removeStream id = { s with
      streams := streams, streamNames := streamNames, partitions := kept
      walLiveChunks := live, retired := retired, idempotency := idempotency } := by
  unfold removeStream
  split
  · exact ⟨_, _, _, _, _, _, rfl⟩
  · rename_i stream _
    obtain ⟨kept, live, retired, hfold⟩ := foldl_removePartition_eq
      (s := dropStreamIdempotency { s with
        streams := s.streams.erase id
        streamNames := s.streamNames.erase (stream.namespace, stream.name) } id)
      id (List.range stream.partitions)
    rw [hfold]
    exact ⟨_, _, _, _, _, _, rfl⟩

theorem removeStream_streams (id : StreamId) :
    (s.removeStream id).streams = s.streams.erase id := by
  unfold removeStream
  split
  · rename_i hnone
    exact (Std.ExtTreeMap.erase_eq_self hnone).symm
  · obtain ⟨kept, live, retired, hfold⟩ := foldl_removePartition_eq id (List.range _)
    rw [hfold]
    rfl

/-- The ledger keeps exactly the entries of the other streams. -/
theorem removeStream_idempotency {id : StreamId} (h : id ∈ s.streams) :
    (s.removeStream id).idempotency = s.idempotency.filter fun slot _ => slot.1 ≠ id := by
  obtain ⟨stream, hstream⟩ := Std.ExtTreeMap.mem_iff_get.mp h
  simp only [removeStream, hstream]
  obtain ⟨kept, live, retired, hfold⟩ := foldl_removePartition_eq id (List.range _)
  rw [hfold]
  rfl

/-- Adds a link the caller validated and returns its id. -/
def insertLink (s : MetaState) (ns : NamespaceId) (name : String) (source : StreamId)
    (target : TargetRef) (options : BTreeMap String String) : LinkId × MetaState :=
  let id := s.lastLinkId + 1
  (id, { s with
    lastLinkId := id
    linkNames := s.linkNames.insert (ns, name) id
    links := s.links.insert id ⟨id, ns, name, source, target, options⟩ })

/-- Removes a link and its name. -/
def removeLink (s : MetaState) (id : LinkId) : MetaState :=
  match s.links[id]? with
  | none => s
  | some link =>
    { s with
      links := s.links.erase id
      linkNames := s.linkNames.erase (link.namespace, link.name) }

/-! ## Commands -/

/-- A stream has 1 to 10000 partitions. -/
def checkPartitions (partitions : ℕ) : Except ApplyError Unit :=
  requireArg (1 ≤ partitions ∧ partitions ≤ maxPartitions)
    s!"partitions must be 1..={maxPartitions}, got {partitions}"

/-- Refuses with an error that carries the id a name already has. -/
def requireFree (existing : Option ℕ) (taken : ℕ → ApplyError) : Except ApplyError Unit :=
  match existing with
  | some id => .error (taken id)
  | none => .ok ()

@[simp] theorem requireFree_eq_ok {existing : Option ℕ} {taken : ℕ → ApplyError} {u : Unit} :
    requireFree existing taken = .ok u ↔ existing = none := by
  cases existing <;> simp [requireFree]

/-- A namespace under a free name. -/
def createNamespace (name : String) : Handler Reply := do
  validateName "namespace" name
  let s ← read
  requireFree s.namespaceNames[name]? .namespaceExists
  let id := s.lastNamespaceId + 1
  update fun s => { s with
    lastNamespaceId := id
    namespaceNames := s.namespaceNames.insert name id
    namespaces := s.namespaces.insert id ⟨id, name⟩ }
  return .namespaceCreated id

/-- A stream with its partitions. -/
def createStream (ns : NamespaceId) (name : String) (partitions : ℕ)
    («class» : WalClass) (retention : Retention) : Handler Reply := do
  validateName "stream" name
  refuseReserved name
  checkPartitions partitions
  let s ← read
  require (ns ∈ s.namespaces) (ApplyError.namespaceNotFound ns)
  requireFree s.streamNames[(ns, name)]? .streamExists
  let (id, s) := s.insertStream ns name partitions «class» retention
  update fun _ => s
  return .streamCreated id

/-- The source of a user's link: a stream of the namespace that no collection owns. -/
def checkLinkSource (s : MetaState) (ns : NamespaceId) (source : StreamId) :
    Except ApplyError Unit :=
  match s.streams[source]? with
  | none => .error (.streamNotFound source)
  | some stream => do
    requireArg (stream.namespace = ns)
      (s!"stream {source} is not in namespace " ++ toString ns)
    requireArg (startsWithChar stream.name '_' = false)
      s!"stream {source} belongs to a collection and cannot be a link source"

/-- The options of a link: at most 64, with short keys and values. -/
def checkLinkOptions (options : BTreeMap String String) : Except ApplyError Unit :=
  requireArg (¬(maxLinkOptions < options.size ∨ options.toList.any fun kv =>
      kv.1 = "" || maxKeyLen < kv.1.utf8ByteSize || maxKeyLen < kv.2.utf8ByteSize))
    (s!"a link takes at most {maxLinkOptions} options, with keys of 1..={maxKeyLen} bytes " ++
      s!"and values of at most {maxKeyLen} bytes")

/-- A link from a stream of the namespace. -/
def createLink (ns : NamespaceId) (name : String) (source : StreamId)
    (target : TargetRef) (options : BTreeMap String String) : Handler Reply := do
  validateName "link" name
  refuseReserved name
  let s ← read
  require (ns ∈ s.namespaces) (ApplyError.namespaceNotFound ns)
  requireFree s.linkNames[(ns, name)]? .linkExists
  s.checkLinkSource ns source
  validateName "link target kind" target.kind
  validateName "link target name" target.name
  requireArg (target.kind ≠ collectionKind) "a collection's link is created with the collection"
  checkLinkOptions options
  let (id, s) := s.insertLink ns name source target options
  update fun _ => s
  return .linkCreated id

/-- Sets a collection's hot configuration; one with nothing on is not stored. -/
def setCollectionHot (collection : CollectionId) (hot : HotConfig) : Handler Reply := do
  let s ← read
  require (collection ∈ s.collections) (ApplyError.collectionNotFound collection)
  update fun s => { s with
    collectionHot :=
      if hot.any then s.collectionHot.insert collection hot
      else s.collectionHot.erase collection }
  return .collectionHotSet

/-! ## What a successful command did -/

variable {partitions : ℕ} {«class» : WalClass} {retention : Retention} {source : StreamId}
  {target : TargetRef} {options : BTreeMap String String} {collection : CollectionId}
  {hot : HotConfig}

theorem createNamespace_ok
    (h : (createNamespace name).exec s = (.ok r, s')) :
    s.namespaceNames[name]? = none ∧ r = .namespaceCreated (s.lastNamespaceId + 1) ∧
      s' = { s with
        lastNamespaceId := s.lastNamespaceId + 1
        namespaceNames := s.namespaceNames.insert name (s.lastNamespaceId + 1)
        namespaces := s.namespaces.insert (s.lastNamespaceId + 1)
          ⟨s.lastNamespaceId + 1, name⟩ } := by
  simp only [createNamespace, exec_check_bind_ok, exec_read_bind, requireFree_eq_ok,
    exec_update_bind, exec_pure, Prod.mk.injEq, Except.ok.injEq] at h
  obtain ⟨_, -, _, hfree, hr, hs⟩ := h
  exact ⟨hfree, hr.symm, hs.symm⟩

theorem createStream_ok
    (h : (createStream ns name partitions «class» retention).exec s = (.ok r, s')) :
    startsWithChar name '_' = false ∧ s.streamNames[(ns, name)]? = none ∧
      r = .streamCreated (s.lastStreamId + 1) ∧
      s' = (s.insertStream ns name partitions «class» retention).2 := by
  simp only [createStream, refuseReserved, exec_check_bind_ok, exec_read_bind, requireArg_eq_ok,
    requireFree_eq_ok, exec_update_bind, exec_pure, Prod.mk.injEq, Except.ok.injEq] at h
  obtain ⟨_, -, _, hname, _, -, _, -, _, hfree, hr, hs⟩ := h
  exact ⟨hname, hfree, hr.symm, hs.symm⟩

theorem createLink_ok
    (h : (createLink ns name source target options).exec s = (.ok r, s')) :
    startsWithChar name '_' = false ∧ s.linkNames[(ns, name)]? = none ∧
      s.checkLinkSource ns source = .ok () ∧ target.kind ≠ collectionKind ∧
      s' = (s.insertLink ns name source target options).2 := by
  simp only [createLink, refuseReserved, exec_check_bind_ok, exec_read_bind, requireArg_eq_ok,
    requireFree_eq_ok, exec_update_bind, exec_pure, Prod.mk.injEq] at h
  obtain ⟨_, -, _, hname, _, -, _, hfree, _, hsource, _, -, _, -, _, hkind, _, -, -, hs⟩ := h
  exact ⟨hname, hfree, hsource, hkind, hs.symm⟩

theorem setCollectionHot_ok
    (h : (setCollectionHot collection hot).exec s = (.ok r, s')) :
    collection ∈ s.collections ∧ s' = { s with
      collectionHot :=
        if hot.any then s.collectionHot.insert collection hot
        else s.collectionHot.erase collection } := by
  simp only [setCollectionHot, exec_check_bind_ok, exec_read_bind, require_eq_ok,
    exec_update_bind, exec_pure, Prod.mk.injEq] at h
  obtain ⟨_, hmem, -, hs⟩ := h
  exact ⟨hmem, hs.symm⟩

/-! ## A refused command changed nothing -/

theorem createNamespace_failsClean : (createNamespace name).FailsClean s := by
  simp only [createNamespace, failsClean_check_bind, failsClean_read_bind]
  intro _ _ _ _
  exact failsClean_write

theorem createStream_failsClean :
    (createStream ns name partitions «class» retention).FailsClean s := by
  simp only [createStream, failsClean_check_bind, failsClean_read_bind]
  intro _ _ _ _ _ _ _ _ _ _
  exact failsClean_write

theorem createLink_failsClean : (createLink ns name source target options).FailsClean s := by
  simp only [createLink, failsClean_check_bind, failsClean_read_bind]
  intros
  exact failsClean_write

theorem setCollectionHot_failsClean : (setCollectionHot collection hot).FailsClean s := by
  simp only [setCollectionHot, failsClean_check_bind, failsClean_read_bind]
  intro _ _
  exact failsClean_write

end MetaState

end Loams.Meta
