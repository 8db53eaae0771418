/-
# The ingest ledger deduplicates
-/

import Loams.Meta.CatalogInvariant

namespace Loams.Meta

open Loams.Data Loams.Control Program Std.ExtTreeMap

/-! ## What one command does to one slot -/

/-- The owner a ledger command acts for. -/
def Command.ledgerOwner? : Command → Option String
  | .claimIdempotencyKeys _ owner _ _ _ => some owner
  | .completeIdempotencyKeys _ owner _ _ _ => some owner
  | .releaseIdempotencyKeys _ owner _ => some owner
  | _ => none

/-- Whether the command claims the slot for the owner. -/
def Command.claims (slot : StreamId × IdempotencyKey) (owner : String) : Command → Bool
  | .claimIdempotencyKeys stream owner' keys _ _ =>
    stream = slot.1 && owner' = owner && slot.2 ∈ keys
  | _ => false

namespace MetaState

variable {s s' : MetaState} {r : Reply} {command : Command}
variable {slot : StreamId × IdempotencyKey}

/-- The effect of an applied command on one slot of the ledger. -/
inductive SlotStep (slot : StreamId × IdempotencyKey) (s s' : MetaState) : Command → Prop
  | kept {command : Command} (same : s'.idempotency[slot]? = s.idempotency[slot]?)
      (alive : slot.1 ∈ s.streams → s.idempotency[slot]?.isSome → slot.1 ∈ s'.streams) :
      SlotStep slot s s' command
  | claimed {owner : String} {keys : List IdempotencyKey} {ttlMs nowMs untilMs : ℕ}
      (stream : slot.1 ∈ s.streams ∧ slot.1 ∈ s'.streams) (mem : slot.2 ∈ keys)
      (found : foundState s.idempotency[slot]? owner s'.clockMs = .claimed)
      (write : s'.idempotency[slot]? = some (.pending owner untilMs)) :
      SlotStep slot s s' (.claimIdempotencyKeys slot.1 owner keys ttlMs nowMs)
  | completed {owner : String} {done : List (IdempotencyKey × ℕ × ℕ)}
      {windowMs nowMs partition offset untilMs : ℕ}
      (streams : s'.streams = s.streams)
      (pending : isPendingOf owner s.idempotency[slot]? = true)
      (write : s'.idempotency[slot]? = some (.done partition offset untilMs)) :
      SlotStep slot s s' (.completeIdempotencyKeys slot.1 owner done windowMs nowMs)
  | released {owner : String} {keys : List IdempotencyKey}
      (pending : isPendingOf owner s.idempotency[slot]? = true)
      (write : s'.idempotency[slot]? = none) :
      SlotStep slot s s' (.releaseIdempotencyKeys slot.1 owner keys)
  | lapsed {fence : Option Fence} {nowMs : ℕ} {entry : IdempotencyEntry}
      (found : s.idempotency[slot]? = some entry) (late : entry.isLiveAt s'.clockMs = false)
      (write : s'.idempotency[slot]? = none) :
      SlotStep slot s s' (.pruneIdempotencyKeys fence nowMs)
  | dropped {ns : NamespaceId} {name : String} {nowMs : ℕ}
      (gone : slot.1 ∉ s'.streams) (write : s'.idempotency[slot]? = none) :
      SlotStep slot s s' (.dropCollection ns name nowMs)

theorem dropFound_ledger (ns : NamespaceId) (name : String) (id : CollectionId) (c : Collection) :
    (s.dropFound ns name id c).idempotency =
      if c.stream ∈ s.streams then s.idempotency.filter fun slot _ => slot.1 ≠ c.stream
      else s.idempotency := by
  obtain ⟨_, _, _, _, t, _, ht, rfl, hdrop⟩ := dropFound_eq (s := s) ns name id c
  rw [hdrop]
  change (t.removeStream c.stream).idempotency = _
  split_ifs with hmem
  · rw [removeStream_idempotency (by rw [ht]; exact hmem), ht]
  · have hnone : t.streams[c.stream]? = none := by
      rw [ht]
      exact not_mem_iff_get.mp hmem
    rw [removeStream, hnone, ht]

/-- A command that leaves the slot and the streams alone. -/
theorem slotStep_of_eq (hledger : s'.idempotency = s.idempotency)
    (hstreams : ∀ id, id ∈ s.streams → id ∈ s'.streams) : SlotStep slot s s' command :=
  .kept (by rw [hledger]) fun hmem _ => hstreams _ hmem

/-- Only a drop takes a stream away. -/
theorem StreamStep.mem (hstep : StreamStep s s' command)
    (hdrop : ∀ ns name nowMs, command ≠ .dropCollection ns name nowMs) {id : StreamId}
    (hid : id ∈ s.streams) : id ∈ s'.streams := by
  cases hstep with
  | same _ mem => exact (mem id).mpr hid
  | created _ mem => exact (mem id).mpr (.inr hid)
  | dropped => exact absurd rfl (hdrop _ _ _)

/-- A drop forgets the entries of its stream and no others. -/
theorem slotStep_of_dropFound {ns : NamespaceId} {name : String} {id : CollectionId}
    {c : Collection} (nowMs : ℕ) :
    SlotStep slot s ((s.advance nowMs).dropFound ns name id c) (.dropCollection ns name nowMs) := by
  have hledger := dropFound_ledger (s := s.advance nowMs) ns name id c
  have hstreams := (dropFound_frame (s := s.advance nowMs) ns name id c).2.2.2.1
  by_cases hslot : slot.1 = c.stream
  · have hgone : slot.1 ∉ ((s.advance nowMs).dropFound ns name id c).streams := by
      rw [hstreams, hslot]
      simp
    by_cases hmem : c.stream ∈ s.streams
    · refine .dropped hgone ?_
      rw [hledger, if_pos (show c.stream ∈ (s.advance nowMs).streams from hmem)]
      simp [hslot]
    · refine .kept ?_ fun hmem' => absurd (hslot ▸ hmem') hmem
      rw [hledger, if_neg (show c.stream ∉ (s.advance nowMs).streams from hmem)]
      rfl
  · refine .kept ?_ fun hmem _ => ?_
    · rw [hledger]
      split_ifs
      · cases hentry : s.idempotency[slot]? <;> simp [hslot, advance, hentry]
      · rfl
    · rw [hstreams, mem_erase]
      exact ⟨by simpa using fun h => hslot h.symm, hmem⟩

/-- What a command that is applied does to one slot of the ledger. -/
theorem handler_slotStep (slot : StreamId × IdempotencyKey)
    (h : (handler command).exec s = (.ok r, s')) : SlotStep slot s s' command := by
  cases hwrites : command.writesLedger with
  | false =>
    refine slotStep_of_eq ((handler_frame h).ledger hwrites) fun id hid => ?_
    refine (handler_streamStep h).mem (fun ns name nowMs hdrop => ?_) hid
    subst hdrop
    cases hwrites
  | true =>
    cases command with
    | claimIdempotencyKeys stream owner keys ttlMs nowMs =>
      obtain ⟨-, hstream, -, rfl⟩ := claimIdempotencyKeys_ok h
      have hget := Ledger.claimKeys_get s.idempotency stream owner (max s.clockMs nowMs)
        (satAdd (max s.clockMs nowMs) ttlMs) slot keys
      split_ifs at hget with hclaimed
      · obtain ⟨⟨rfl, hmem⟩, hfound⟩ := hclaimed
        exact .claimed ⟨hstream, hstream⟩ hmem hfound hget
      · exact .kept hget fun hmem _ => hmem
    | completeIdempotencyKeys stream owner done windowMs nowMs =>
      obtain ⟨-, rfl⟩ := completeIdempotencyKeys_ok h
      rcases Ledger.completeKeys_get s.idempotency stream owner
          (satAdd (max s.clockMs nowMs) windowMs) slot done with
        hsame | ⟨rfl, hpending, p, o, hdone⟩
      · exact .kept hsame fun hmem _ => hmem
      · exact .completed rfl hpending hdone
    | releaseIdempotencyKeys stream owner keys =>
      obtain rfl := releaseIdempotencyKeys_ok h
      rcases Ledger.releaseKeys_get s.idempotency stream owner slot keys with
        hsame | ⟨rfl, hpending, hnone⟩
      · exact .kept hsame fun hmem _ => hmem
      · exact .released hpending hnone
    | pruneIdempotencyKeys fence nowMs =>
      obtain ⟨-, rfl⟩ := pruneIdempotencyKeys_ok h
      have hget : (s.idempotency.filter fun _ entry =>
          entry.isLiveAt (s.advance nowMs).clockMs)[slot]? =
          s.idempotency[slot]?.filter fun entry => entry.isLiveAt (s.advance nowMs).clockMs :=
        getElem?_filter'
      cases hentry : s.idempotency[slot]? with
      | none => exact .kept (by rw [hentry, hget, hentry]; rfl) fun hmem _ => hmem
      | some entry =>
        cases hlive : entry.isLiveAt (s.advance nowMs).clockMs with
        | true =>
          refine .kept ?_ fun hmem _ => hmem
          rw [hget, hentry]
          simp [hlive]
        | false =>
          refine .lapsed hentry hlive ?_
          rw [hget, hentry]
          simp [hlive]
    | dropCollection ns name nowMs =>
      rcases dropCollection_ok h with rfl | ⟨_, -, ⟨-, rfl⟩ | ⟨_, -, rfl⟩⟩
      · exact slotStep_of_eq rfl fun _ hid => hid
      · exact slotStep_of_eq rfl fun _ hid => hid
      · exact slotStep_of_dropFound nowMs
    | _ => cases hwrites

theorem apply_slotStep (slot : StreamId × IdempotencyKey) (s : MetaState) (command : Command) :
    SlotStep slot s (s.apply command).2 command := by
  rcases apply_cases s command with ⟨e, -, hsame⟩ | ⟨r, hok, -⟩
  · rw [hsame]
    exact .kept rfl fun hmem _ => hmem
  · exact handler_slotStep slot hok

/-! ## Entries belong to streams -/

/-- Every ledger entry belongs to a stream that exists. -/
def LedgerOwned (s : MetaState) : Prop :=
  ∀ (slot : StreamId × IdempotencyKey) (entry : IdempotencyEntry),
    s.idempotency[slot]? = some entry → slot.1 ∈ s.streams

theorem LedgerOwned.step (h : s.LedgerOwned) (hok : (handler command).exec s = (.ok r, s')) :
    s'.LedgerOwned := by
  intro slot entry hentry
  cases handler_slotStep slot hok with
  | kept same alive =>
    rw [same] at hentry
    exact alive (h slot entry hentry) (by rw [hentry]; rfl)
  | claimed stream => exact stream.2
  | completed streams pending =>
    rw [streams]
    cases hbefore : s.idempotency[slot]? with
    | none =>
      rw [hbefore] at pending
      cases pending
    | some before => exact h slot before hbefore
  | released _ write | lapsed _ _ write | dropped _ write => simp [write] at hentry

theorem ledgerOwned_after (commands : List Command) : (after commands).LedgerOwned := by
  refine after_induction ?_ fun s command _ r s' hs hok => hs.step hok
  intro slot entry hentry
  simp at hentry

/-! ## Done keys answer until they lapse -/

/-- While the stream exists and the clock has not reached the end of the window,
the slot holds the done entry. -/
def DoneKept (slot : StreamId × IdempotencyKey) (partition offset untilMs : ℕ)
    (s : MetaState) : Prop :=
  slot.1 ≤ s.lastStreamId ∧ (slot.1 ∈ s.streams → s.clockMs < untilMs →
    s.idempotency[slot]? = some (.done partition offset untilMs))

variable {untilMs partition offset : ℕ} {commands : List Command} {owner : String}
  {stream : StreamId}

/-- A completion stays until its window ends. -/
theorem DoneKept.step (h : DoneKept slot partition offset untilMs s)
    (hok : (handler command).exec s = (.ok r, s')) : DoneKept slot partition offset untilMs s' := by
  have hstream := handler_streamStep hok
  have hclock := (handler_frame hok).clock
  refine ⟨h.1.trans hstream.last_le, fun hmem hlt => ?_⟩
  have hbefore := h.2 (hstream.mem_of_mem h.1 hmem).1 (by omega)
  cases handler_slotStep slot hok with
  | kept same => exact same.trans hbefore
  | claimed _ _ found =>
    rw [hbefore] at found
    simp [foundState, hlt] at found
  | completed _ pending | released pending =>
    rw [hbefore] at pending
    cases pending
  | lapsed found late =>
    obtain rfl := Option.some_inj.mp (hbefore.symm.trans found)
    simp [IdempotencyEntry.isLiveAt, IdempotencyEntry.untilMs, hlt] at late
  | dropped gone => exact absurd hmem gone

/-- A claim of a done key answers where the event was appended. -/
theorem claim_answers_done {ttlMs nowMs : ℕ} {key : IdempotencyKey} {keys : List IdempotencyKey}
    (hdone : s.idempotency[(stream, key)]? = some (.done partition offset untilMs))
    (hok : (handler (.claimIdempotencyKeys stream owner keys ttlMs nowMs)).exec s = (.ok r, s'))
    (hlt : s'.clockMs < untilMs) : ∃ states, r = .idempotencyClaimed states ∧
      ∀ i : ℕ, keys[i]? = some key → states[i]? = some (.done partition offset) := by
  obtain ⟨-, -, rfl, rfl⟩ := claimIdempotencyKeys_ok hok
  refine ⟨_, rfl, fun i hi => ?_⟩
  have hnow : max s.clockMs nowMs < untilMs := hlt
  rw [Ledger.claimKeys_states, List.getElem?_map, hi, Option.map_some, hdone]
  simp [foundState, hnow]

/-! ## Claims of other owners -/

/-- A ledger command of one owner leaves the unlapsed claim of another alone. -/
theorem pending_kept_of_other {other : String}
    (hpending : s.idempotency[slot]? = some (.pending owner untilMs))
    (hother : command.ledgerOwner? = some other) (hne : other ≠ owner)
    (hstep : SlotStep slot s s' command) (hlt : s'.clockMs < untilMs) :
    s'.idempotency[slot]? = some (.pending owner untilMs) := by
  cases hstep with
  | kept same => exact same.trans hpending
  | claimed _ _ found =>
    obtain rfl := Option.some_inj.mp hother
    rw [hpending] at found
    simp [foundState, hlt, hne.symm] at found
  | completed _ pending | released pending =>
    obtain rfl := Option.some_inj.mp hother
    simp [hpending, isPendingOf, hne.symm] at pending
  | lapsed => cases hother
  | dropped => cases hother

/-- An owner without a claim on the slot gets one only by claiming it. -/
theorem not_pendingOf_step (h : isPendingOf owner s.idempotency[slot]? = false)
    (hclaims : command.claims slot owner = false) (hstep : SlotStep slot s s' command) :
    isPendingOf owner s'.idempotency[slot]? = false := by
  cases hstep with
  | kept same => rwa [same]
  | @claimed owner' _ _ _ _ _ mem _ write =>
    have hne : owner' ≠ owner := by
      rintro rfl
      simp [Command.claims, mem] at hclaims
    simp [write, isPendingOf, hne]
  | completed _ _ write | released _ write | lapsed _ _ write => simp [write, isPendingOf]
  | dropped _ write => simp [write, isPendingOf]

/-! ## Whole histories -/

theorem doneKept_after
    (hdone : (after commands).idempotency[slot]? = some (.done partition offset untilMs))
    (rest : List Command) : DoneKept slot partition offset untilMs (after (commands ++ rest)) := by
  have hmem := ledgerOwned_after commands slot _ hdone
  exact after_append_induction commands ⟨streamIdsBounded_after commands _ hmem, fun _ _ => hdone⟩
    fun _ _ _ _ _ h hok => h.step hok

theorem not_pendingOf_after {rest : List Command}
    (h : isPendingOf owner (after commands).idempotency[slot]? = false)
    (hclaims : ∀ command ∈ rest, command.claims slot owner = false) :
    isPendingOf owner (after (commands ++ rest)).idempotency[slot]? = false := by
  rw [after, run_append]
  exact run_induction (P := fun s => isPendingOf owner s.idempotency[slot]? = false) h
    fun s command hmem hs => not_pendingOf_step hs (hclaims command hmem)
      (apply_slotStep slot s command)

/-- **The ledger deduplicates.** Take any history. A key its next command completes
keeps its entry, as long as the stream exists and the clock is below the end of
its window, and every claim applied before that end answers the completion. An
unlapsed claim survives every ledger command of another owner. Once another owner
has the claim, a completion by the former one leaves the key alone, until it
claims the key again. Every entry belongs to a stream that exists. -/
theorem ledger_deduplicates (commands : List Command) :
    (∀ (stream : StreamId) (key : IdempotencyKey) (owner : String)
        (done : List (IdempotencyKey × ℕ × ℕ)) (windowMs nowMs partition offset untilMs : ℕ)
        (rest : List Command) (completed : List Command),
      completed = commands ++ [.completeIdempotencyKeys stream owner done windowMs nowMs] →
      isPendingOf owner (after commands).idempotency[(stream, key)]? = true →
      (after completed).idempotency[(stream, key)]? = some (.done partition offset untilMs) →
      (stream ∈ (after (completed ++ rest)).streams →
        (after (completed ++ rest)).clockMs < untilMs →
        (after (completed ++ rest)).idempotency[(stream, key)]? =
          some (.done partition offset untilMs)) ∧
      ∀ claimer keys ttlMs nowMs r s', apply (after (completed ++ rest))
          (.claimIdempotencyKeys stream claimer keys ttlMs nowMs) = (.ok r, s') →
        s'.clockMs < untilMs → ∃ states, r = .idempotencyClaimed states ∧
          ∀ i : ℕ, keys[i]? = some key → states[i]? = some (.done partition offset)) ∧
    (∀ (slot : StreamId × IdempotencyKey) (owner other : String) (untilMs : ℕ)
        (command : Command),
      (after commands).idempotency[slot]? = some (.pending owner untilMs) →
      command.ledgerOwner? = some other → other ≠ owner →
      ((after commands).apply command).2.clockMs < untilMs →
      ((after commands).apply command).2.idempotency[slot]? = some (.pending owner untilMs)) ∧
    (∀ (slot : StreamId × IdempotencyKey) (former owner : String) (untilMs : ℕ)
        (rest : List Command) (stream : StreamId) (done : List (IdempotencyKey × ℕ × ℕ))
        (windowMs nowMs : ℕ),
      (after commands).idempotency[slot]? = some (.pending owner untilMs) → owner ≠ former →
      (∀ command ∈ rest, command.claims slot former = false) →
      (apply (after (commands ++ rest))
          (.completeIdempotencyKeys stream former done windowMs nowMs)).2.idempotency[slot]? =
        (after (commands ++ rest)).idempotency[slot]?) ∧
    (after commands).LedgerOwned := by
  refine ⟨?_, ?_, ?_, ledgerOwned_after commands⟩
  · intro stream key owner done windowMs nowMs partition offset untilMs rest completed _ _ hdone
    have hkept := doneKept_after hdone rest
    refine ⟨hkept.2, fun claimer keys ttlMs nowMs r s' hok hlt => ?_⟩
    have hstream := (claimIdempotencyKeys_ok hok).2.1
    have hclock := (handler_frame hok).clock
    exact claim_answers_done (hkept.2 hstream (by omega)) hok hlt
  · intro slot owner other untilMs command hpending hother hne hlt
    exact pending_kept_of_other hpending hother hne (apply_slotStep slot _ command) hlt
  · intro slot former owner untilMs rest stream done windowMs nowMs hpending hne hclaims
    have hother : isPendingOf former (after commands).idempotency[slot]? = false := by
      simp [hpending, isPendingOf, hne]
    cases apply_slotStep slot _ (.completeIdempotencyKeys stream former done windowMs nowMs) with
    | kept same => exact same
    | completed _ pending => cases (not_pendingOf_after hother hclaims).symm.trans pending

/-- A stream that was dropped stays dropped: whatever commands follow, no stream, partition or
ledger entry has an id that was handed out before and that no stream has. -/
theorem dropped_stream_stays_dropped (commands rest : List Command) (id : StreamId) :
    (after commands).lastStreamId < id ∨ id ∈ (after commands).streams ∨
      id ∉ (after (commands ++ rest)).streams ∧
      (∀ n : ℕ, (id, n) ∉ (after (commands ++ rest)).partitions) ∧
      ∀ key, (id, key) ∉ (after (commands ++ rest)).idempotency := by
  by_contra! h
  obtain ⟨hold, hdropped, hback⟩ := h
  -- Every command keeps that the id was handed out and that no stream has it.
  have hgone : id ≤ (after (commands ++ rest)).lastStreamId ∧
      id ∉ (after (commands ++ rest)).streams := by
    refine after_append_induction (P := fun s => id ≤ s.lastStreamId ∧ id ∉ s.streams)
      commands ⟨hold, hdropped⟩ fun s command _ r s' hs hok => ?_
    have hstep := handler_streamStep hok
    exact ⟨hs.1.trans hstep.last_le, fun hmem => hs.2 (hstep.mem_of_mem hs.1 hmem).1⟩
  obtain ⟨key, hkey⟩ := hback hgone.2 fun n hn => by
    obtain ⟨st, hst, -⟩ := ((catalogInv_after _).partitions (id, n)).mp hn
    exact hgone.2 (mem_of_get hst)
  exact hgone.2 (ledgerOwned_after _ (id, key) _ (getElem?_eq_some_getElem hkey))

end MetaState

end Loams.Meta
