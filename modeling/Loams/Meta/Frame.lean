/-
# What a command leaves alone
-/

import Loams.Meta.Aliases
import Loams.Meta.Apply

namespace Loams.Meta

open Loams.Data Loams.Control Program Std.ExtTreeMap

namespace Command

/-- Whether the command may write a lease. -/
def writesLeases : Command → Bool
  | .acquireLease .. | .renewLease .. | .reacquireLease .. | .releaseLease .. => true
  | _ => false

/-- Whether the command may write the ingest ledger. -/
def writesLedger : Command → Bool
  | .claimIdempotencyKeys .. | .completeIdempotencyKeys .. | .releaseIdempotencyKeys ..
  | .pruneIdempotencyKeys .. | .dropCollection .. => true
  | _ => false

/-- Whether the command may write streams, partitions, commit records, live counts
or retired objects. -/
def writesLog : Command → Bool
  | .createStream .. | .commitWal .. | .setRetention .. | .swapSegment .. | .trimPartition ..
  | .pruneWalCommits .. | .forgetObjects .. | .createCollection .. | .dropCollection .. => true
  | _ => false

/-- Whether the command may write namespaces, streams, links, collections, aliases,
hot configurations or pointers. -/
def writesCatalog : Command → Bool
  | .createNamespace .. | .createStream .. | .createLink .. | .setRetention .. | .casPointer ..
  | .createCollection .. | .dropCollection .. | .updateCollectionSchema .. | .updateAliases ..
  | .setCollectionHot .. | .updateAliasTargets .. => true
  | _ => false

/-- Whether the command may write a collection's record. -/
def writesCollections : Command → Bool
  | .createCollection .. | .dropCollection .. | .updateCollectionSchema .. => true
  | _ => false

end Command

namespace MetaState

variable {s s' : MetaState} {r : Reply} {command : Command}

/-- The part of the state the log engine works on. -/
def logPart (s : MetaState) :=
  (s.lastStreamId, s.streams, s.partitions, s.walCommits, s.walLiveChunks, s.retired)

/-- The part of the state that names things. -/
def catalogPart (s : MetaState) :=
  ((s.lastNamespaceId, s.namespaces, s.namespaceNames), (s.lastStreamId, s.streams, s.streamNames),
    (s.lastLinkId, s.links, s.linkNames),
    (s.lastCollectionId, s.collections, s.collectionNames),
    s.aliases, s.collectionHot, s.aliasTargets, s.pointers)

/-- The collections and the last id given to one. -/
def collectionPart (s : MetaState) := (s.lastCollectionId, s.collections)

/-- What an applied command leaves alone. -/
structure Frame (command : Command) (s s' : MetaState) : Prop where
  clock : s.clockMs ≤ s'.clockMs
  leases : command.writesLeases = false → s'.leases = s.leases
  ledger : command.writesLedger = false → s'.idempotency = s.idempotency
  log : command.writesLog = false → s'.logPart = s.logPart
  catalog : command.writesCatalog = false → s'.catalogPart = s.catalogPart
  collections : command.writesCollections = false → s'.collectionPart = s.collectionPart

theorem frame_refl (command : Command) (s : MetaState) : Frame command s s :=
  ⟨le_rfl, fun _ => rfl, fun _ => rfl, fun _ => rfl, fun _ => rfl, fun _ => rfl⟩

theorem frame_advance (command : Command) (s : MetaState) (nowMs : ℕ) :
    Frame command s (s.advance nowMs) :=
  { frame_refl command s with clock := le_max_left _ _ }

/-- An alias update writes aliases only. -/
theorem frame_of_aliases {aliases : BTreeMap (NamespaceId × String) CollectionId}
    {targets : BTreeMap (NamespaceId × String) AliasTargets}
    (hcatalog : command.writesCatalog = true)
    (h : s' = { s with aliases := aliases, aliasTargets := targets }) : Frame command s s' := by
  subst h
  exact ⟨le_rfl, fun _ => rfl, fun _ => rfl, fun _ => rfl, fun hc => by simp [hcatalog] at hc,
    fun _ => rfl⟩

/-- Replaced runs and trims release entries and move the clock. -/
theorem frame_of_releaseEntries {t : MetaState} {removed : List IndexEntry}
    (h : s' = t.releaseEntries removed) (hlog : command.writesLog = true)
    (hclock : s.clockMs ≤ t.clockMs) (hleases : t.leases = s.leases)
    (hledger : t.idempotency = s.idempotency) (hcatalog : t.catalogPart = s.catalogPart)
    (hcollections : t.collectionPart = s.collectionPart) : Frame command s s' := by
  obtain ⟨live, retired, hrel⟩ := releaseEntries_eq (s := t) removed
  rw [hrel] at h
  subst h
  exact ⟨hclock, fun _ => hleases, fun _ => hledger, fun hc => by simp [hlog] at hc,
    fun _ => hcatalog, fun _ => hcollections⟩

theorem dropFound_frame (ns : NamespaceId) (name : String) (id : CollectionId)
    (c : Collection) : (s.dropFound ns name id c).clockMs = s.clockMs ∧
      (s.dropFound ns name id c).leases = s.leases ∧
      (s.dropFound ns name id c).lastStreamId = s.lastStreamId ∧
      (s.dropFound ns name id c).streams = s.streams.erase c.stream ∧
      (s.dropFound ns name id c).collectionPart =
        (s.lastCollectionId, s.collections.erase id) := by
  obtain ⟨_, _, _, _, t, _, ht, rfl, hdrop⟩ := dropFound_eq (s := s) ns name id c
  have hstreams := removeStream_streams (s := t) c.stream
  obtain ⟨_, _, _, _, _, _, hstream⟩ := removeStream_eq (s := t) c.stream
  rw [hstream, ht] at hstreams
  rw [hdrop, hstream, ht]
  exact ⟨rfl, rfl, rfl, hstreams, rfl⟩

/-- A command that is applied leaves alone what it does not write. -/
theorem handler_frame (h : (handler command).exec s = (.ok r, s')) : Frame command s s' := by
  cases command with
  | createNamespace =>
    obtain ⟨-, -, rfl⟩ := createNamespace_ok h
    exact { frame_refl _ s with catalog := nofun }
  | createStream =>
    obtain ⟨-, -, -, rfl⟩ := createStream_ok h
    exact { frame_refl _ s with log := nofun, catalog := nofun }
  | createLink =>
    obtain ⟨-, -, -, -, rfl⟩ := createLink_ok h
    exact { frame_refl _ s with catalog := nofun }
  | commitWal =>
    rcases commitWal_ok h with ⟨_, -, -, rfl⟩ | ⟨-, -, -, -, -, _, _, -, -, rfl⟩
    · exact frame_refl _ _
    · exact { frame_refl _ s with log := nofun }
  | setRetention =>
    obtain ⟨_, -, -, rfl⟩ := setRetention_ok h
    exact { frame_refl _ s with log := nofun, catalog := nofun }
  | swapSegment =>
    obtain ⟨-, p, firstBase, -, -, -, ⟨-, rfl⟩ | ⟨-, -, -, records, -, hs⟩⟩ := swapSegment_ok h
    · exact frame_refl _ _
    · exact frame_of_releaseEntries hs rfl (le_max_left _ _) rfl rfl rfl rfl
  | trimPartition =>
    obtain ⟨p, -, -, -, -, hs⟩ := trimPartition_ok h
    exact frame_of_releaseEntries hs rfl (le_max_left _ _) rfl rfl rfl rfl
  | pruneWalCommits =>
    obtain ⟨-, rfl⟩ := pruneWalCommits_ok h
    exact { frame_advance _ s _ with log := nofun }
  | forgetObjects =>
    obtain ⟨-, rfl⟩ := forgetObjects_ok h
    exact { frame_refl _ s with log := nofun }
  | acquireLease =>
    obtain ⟨_, -, -, rfl⟩ := acquireLease_ok h
    exact { frame_advance _ s _ with leases := nofun }
  | renewLease =>
    obtain ⟨lease, -, -, -, -, hs⟩ := renewLease_ok h
    obtain rfl := (Prod.mk.inj (extendLease_exec.symm.trans hs)).2
    exact { frame_advance _ s _ with leases := nofun }
  | reacquireLease =>
    obtain ⟨lease, -, -, -, hs⟩ := reacquireLease_ok h
    obtain rfl := (Prod.mk.inj (extendLease_exec.symm.trans hs)).2
    exact { frame_advance _ s _ with leases := nofun }
  | releaseLease =>
    obtain ⟨-, lease, -, -, ⟨-, rfl⟩ | ⟨-, rfl⟩⟩ := releaseLease_ok h
    · exact frame_refl _ _
    · exact { frame_refl _ s with leases := nofun }
  | casPointer =>
    obtain ⟨-, -, _, -, rfl⟩ := casPointer_ok h
    exact { frame_refl _ s with catalog := nofun }
  | createCollection =>
    obtain ⟨-, -, -, -, -, -, rfl⟩ := createCollection_ok h
    exact { frame_refl _ s with log := nofun, catalog := nofun, collections := nofun }
  | dropCollection =>
    rcases dropCollection_ok h with rfl | ⟨_, -, ⟨-, rfl⟩ | ⟨c, -, rfl⟩⟩
    · exact frame_advance _ s _
    · exact { frame_advance _ s _ with catalog := nofun }
    · obtain ⟨hclock, hleases, -⟩ := dropFound_frame (s := s.advance _) _ _ _ c
      exact ⟨hclock ▸ le_max_left _ _, fun _ => hleases, nofun, nofun, nofun, nofun⟩
  | updateCollectionSchema =>
    obtain ⟨c, -, ⟨rfl, -⟩ | ⟨-, -, rfl⟩⟩ := updateCollectionSchema_ok h
    · exact frame_refl _ _
    · exact { frame_refl _ s with catalog := nofun, collections := nofun }
  | updateAliases =>
    obtain ⟨_, _, hrest⟩ := (updateAliases_ok.mp h).2.2.1.rest
    exact frame_of_aliases rfl hrest
  | setCollectionHot =>
    obtain ⟨-, rfl⟩ := setCollectionHot_ok h
    exact { frame_refl _ s with catalog := nofun }
  | updateAliasTargets =>
    obtain ⟨_, _, hrest⟩ := (updateAliasTargets_ok.mp h).2.2.1.rest
    exact frame_of_aliases rfl hrest
  | claimIdempotencyKeys =>
    obtain ⟨-, -, -, rfl⟩ := claimIdempotencyKeys_ok h
    exact { frame_advance _ s _ with ledger := nofun }
  | completeIdempotencyKeys =>
    obtain ⟨-, rfl⟩ := completeIdempotencyKeys_ok h
    exact { frame_advance _ s _ with ledger := nofun }
  | releaseIdempotencyKeys =>
    obtain rfl := releaseIdempotencyKeys_ok h
    exact { frame_refl _ s with ledger := nofun }
  | pruneIdempotencyKeys =>
    obtain ⟨-, rfl⟩ := pruneIdempotencyKeys_ok h
    exact { frame_advance _ s _ with ledger := nofun }

/-- The clock never goes backwards. -/
theorem clock_le_apply (s : MetaState) (command : Command) :
    s.clockMs ≤ (s.apply command).2.clockMs := by
  rcases apply_cases s command with ⟨e, -, hsame⟩ | ⟨r, hok, -⟩
  · rw [hsame]
  · exact (handler_frame hok).clock

/-! ## Streams come and go -/

/-- What a command does to the streams: nothing, one more with the next id, or one
less by a drop. -/
inductive StreamStep (s s' : MetaState) : Command → Prop
  | same {command : Command} (last : s'.lastStreamId = s.lastStreamId)
      (mem : ∀ id, id ∈ s'.streams ↔ id ∈ s.streams) : StreamStep s s' command
  | created {command : Command} (last : s'.lastStreamId = s.lastStreamId + 1)
      (mem : ∀ id, id ∈ s'.streams ↔ id = s.lastStreamId + 1 ∨ id ∈ s.streams) :
      StreamStep s s' command
  | dropped {ns : NamespaceId} {name : String} {nowMs : ℕ} (removed : StreamId)
      (last : s'.lastStreamId = s.lastStreamId)
      (mem : ∀ id, id ∈ s'.streams ↔ id ≠ removed ∧ id ∈ s.streams) :
      StreamStep s s' (.dropCollection ns name nowMs)

theorem streamStep_of_eq (last : s'.lastStreamId = s.lastStreamId)
    (hstreams : s'.streams = s.streams) : StreamStep s s' command :=
  .same last fun id => by rw [hstreams]

theorem streamStep_of_insert {stream : Stream} (last : s'.lastStreamId = s.lastStreamId + 1)
    (hstreams : s'.streams = s.streams.insert (s.lastStreamId + 1) stream) :
    StreamStep s s' command :=
  .created last fun id => by
    rw [hstreams, mem_insert_iff, eq_comm]

/-- Streams come with the next id and go with their collection. -/
theorem handler_streamStep (h : (handler command).exec s = (.ok r, s')) :
    StreamStep s s' command := by
  have hframe := handler_frame h
  cases hlog : command.writesLog with
  | false =>
    have hpart := hframe.log hlog
    exact streamStep_of_eq (congrArg (·.1) hpart) (congrArg (·.2.1) hpart)
  | true =>
    cases hcatalog : command.writesCatalog with
    | false =>
      have hpart := hframe.catalog hcatalog
      exact streamStep_of_eq (congrArg (·.2.1.1) hpart) (congrArg (·.2.1.2.1) hpart)
    | true =>
      -- the commands that write both the log and the catalog
      cases command with
      | createStream =>
        obtain ⟨-, -, -, rfl⟩ := createStream_ok h
        exact streamStep_of_insert rfl rfl
      | setRetention =>
        obtain ⟨st, hst, -, rfl⟩ := setRetention_ok h
        exact .same rfl fun id => mem_insert_iff_of_get hst
      | createCollection =>
        obtain ⟨-, -, -, -, -, -, rfl⟩ := createCollection_ok h
        exact streamStep_of_insert rfl rfl
      | dropCollection =>
        rcases dropCollection_ok h with rfl | ⟨_, -, ⟨-, rfl⟩ | ⟨c, -, rfl⟩⟩
        · exact streamStep_of_eq rfl rfl
        · exact streamStep_of_eq rfl rfl
        · obtain ⟨-, -, hlast, hstreams, -⟩ := dropFound_frame (s := s.advance _) _ _ _ c
          refine .dropped c.stream hlast fun id => ?_
          rw [hstreams, mem_erase_iff, ne_comm]
          rfl
      | _ => simp [Command.writesLog, Command.writesCatalog] at hlog hcatalog

/-- Every stream has an id that was handed out. -/
def StreamIdsBounded (s : MetaState) : Prop := ∀ id, id ∈ s.streams → id ≤ s.lastStreamId

theorem StreamIdsBounded.step (h : s.StreamIdsBounded) (hstep : StreamStep s s' command) :
    s'.StreamIdsBounded := by
  intro id hid
  cases hstep with
  | same last mem =>
    rw [last]
    exact h id ((mem id).mp hid)
  | created last mem =>
    rw [last]
    rcases (mem id).mp hid with rfl | hid
    · exact le_rfl
    · exact (h id hid).trans (Nat.le_succ _)
  | dropped removed last mem =>
    rw [last]
    exact h id ((mem id).mp hid).2

theorem streamIdsBounded_after (commands : List Command) : (after commands).StreamIdsBounded := by
  refine after_induction ?_ fun s command _ r s' hs h => hs.step (handler_streamStep h)
  intro id hid
  simp at hid

/-- A stream that was dropped never comes back: ids are not reused. -/
theorem StreamStep.mem_of_mem {id : ℕ} (hstep : StreamStep s s' command)
    (hid : id ≤ s.lastStreamId) (hmem : id ∈ s'.streams) :
    id ∈ s.streams ∧ id ≤ s'.lastStreamId := by
  cases hstep with
  | same last mem => exact ⟨(mem id).mp hmem, last ▸ hid⟩
  | created last mem =>
    have hne : id ≠ s.lastStreamId + 1 := by omega
    exact ⟨((mem id).mp hmem).resolve_left hne, by omega⟩
  | dropped removed last mem => exact ⟨((mem id).mp hmem).2, last ▸ hid⟩

theorem StreamStep.last_le (hstep : StreamStep s s' command) :
    s.lastStreamId ≤ s'.lastStreamId := by
  cases hstep with
  | same last => exact last.ge
  | created last => omega
  | dropped removed last => exact last.ge

end MetaState

end Loams.Meta
