/-
# The stream ingest ledger

An owner claims keys of a stream, appends the events and completes the keys with their
offsets.
-/

import Loams.Meta.Leases

namespace Loams.Meta

open Loams.Data Loams.Control Program Std.ExtTreeMap

/-- The ledger: one entry per stream and key. -/
abbrev Ledger := BTreeMap (StreamId × IdempotencyKey) IdempotencyEntry

/-! ## One key -/

/-- What a claim finds at the time `now`. -/
def foundState (entry : Option IdempotencyEntry) (owner : String) (now : ℕ) : IdempotencyState :=
  match entry with
  | some (.done partition offset untilMs) =>
    if now < untilMs then .done partition offset else .claimed
  | some (.pending holder untilMs) =>
    if now < untilMs ∧ holder ≠ owner then .inFlight untilMs else .claimed
  | none => .claimed

/-- Whether the entry is a claim of the owner, lapsed or not. -/
def isPendingOf (owner : String) : Option IdempotencyEntry → Bool
  | some (.pending holder _) => holder = owner
  | _ => false

namespace Ledger

/-- Claims one key unless it is done or in flight elsewhere. -/
def claimKey (l : Ledger) (stream : StreamId) (owner : String) (now untilMs : ℕ)
    (key : IdempotencyKey) : IdempotencyState × Ledger :=
  match foundState l[(stream, key)]? owner now with
  | .claimed => (.claimed, l.insert (stream, key) (.pending owner untilMs))
  | found => (found, l)

/-- One key after the other. -/
def claimKeys (stream : StreamId) (owner : String) (now untilMs : ℕ) :
    Ledger → List IdempotencyKey → List IdempotencyState × Ledger
  | l, [] => ([], l)
  | l, key :: keys =>
    let first := claimKey l stream owner now untilMs key
    let rest := claimKeys stream owner now untilMs first.2 keys
    (first.1 :: rest.1, rest.2)

/-- Marks one key done if the owner's claim is still there. -/
def completeKey (l : Ledger) (stream : StreamId) (owner : String) (untilMs : ℕ)
    (done : IdempotencyKey × ℕ × ℕ) : Ledger :=
  if isPendingOf owner l[(stream, done.1)]? then
    l.insert (stream, done.1) (.done done.2.1 done.2.2 untilMs)
  else l

/-- Drops one key if the owner's claim is still there. -/
def releaseKey (l : Ledger) (stream : StreamId) (owner : String) (key : IdempotencyKey) : Ledger :=
  if isPendingOf owner l[(stream, key)]? then l.erase (stream, key) else l

/-! ## Lookups after a request -/

variable {l : Ledger} {stream : StreamId} {owner : String} {now untilMs : ℕ}
variable {slot : StreamId × IdempotencyKey}

theorem claimKey_get (key : IdempotencyKey) :
    (claimKey l stream owner now untilMs key).2[slot]? =
      if slot = (stream, key) ∧ foundState l[slot]? owner now = .claimed then
        some (.pending owner untilMs) else l[slot]? := by
  by_cases hslot : slot = (stream, key)
  · subst hslot
    unfold claimKey
    cases foundState l[(stream, key)]? owner now <;> simp
  · rw [if_neg fun h => hslot h.1]
    unfold claimKey
    cases foundState l[(stream, key)]? owner now with
    | claimed => exact get_insert_ne fun h => hslot h.symm
    | inFlight | done => rfl

/-- An entry the owner just claimed is found claimable by the owner again. -/
theorem foundState_claimKey (key : IdempotencyKey) :
    foundState (claimKey l stream owner now untilMs key).2[slot]? owner now =
      foundState l[slot]? owner now := by
  rw [claimKey_get]
  split_ifs with h
  · rw [h.2]
    simp [foundState]
  · rfl

/-- A claim answers each key by what the ledger held before the request. -/
theorem claimKeys_states (keys : List IdempotencyKey) :
    (claimKeys stream owner now untilMs l keys).1 =
      keys.map fun key => foundState l[(stream, key)]? owner now := by
  induction keys generalizing l with
  | nil => rfl
  | cons key keys ih =>
    rw [claimKeys, List.map_cons]
    simp only [ih, foundState_claimKey]
    congr 1
    unfold claimKey
    cases foundState l[(stream, key)]? owner now <;> rfl

/-- The entry stays, or it was a claim of the owner and the new one has a property. -/
def MovesClaim (stream : StreamId) (owner : String) (slot : StreamId × IdempotencyKey)
    (P : Option IdempotencyEntry → Prop) (l l' : Ledger) : Prop :=
  l'[slot]? = l[slot]? ∨ slot.1 = stream ∧ isPendingOf owner l[slot]? = true ∧ P l'[slot]?

theorem foldl_movesClaim {γ : Type} {f : Ledger → γ → Ledger} {P : Option IdempotencyEntry → Prop}
    (hstep : ∀ m c, MovesClaim stream owner slot P m (f m c)) (cs : List γ) :
    MovesClaim stream owner slot P l (cs.foldl f l) := by
  refine List.foldlRecOn cs f (.inl rfl) fun m hm c _ => ?_
  rcases hstep m c with hsame | ⟨hstream, hpending, hnew⟩
  · rwa [MovesClaim, hsame]
  · rcases hm with hm | ⟨-, hclaim, -⟩
    · exact .inr ⟨hstream, hm ▸ hpending, hnew⟩
    · exact .inr ⟨hstream, hclaim, hnew⟩

variable (l stream owner)

theorem claimKeys_get (now untilMs : ℕ) (slot : StreamId × IdempotencyKey)
    (keys : List IdempotencyKey) :
    (claimKeys stream owner now untilMs l keys).2[slot]? =
      if (slot.1 = stream ∧ slot.2 ∈ keys) ∧ foundState l[slot]? owner now = .claimed then
        some (.pending owner untilMs) else l[slot]? := by
  induction keys generalizing l with
  | nil => simp [claimKeys]
  | cons key keys ih =>
    rw [claimKeys]
    simp only [ih, claimKey_get]
    have hslot : slot = (stream, key) ↔ slot.1 = stream ∧ slot.2 = key := Prod.ext_iff
    by_cases hclaimed : foundState l[slot]? owner now = .claimed
    · by_cases hstream : slot.1 = stream
      · by_cases hkey : slot.2 = key <;> simp [hclaimed, hslot, hstream, hkey]
      · simp [hslot, hstream]
    · simp [hclaimed]

/-- A completion turns claims of the owner into done entries and keeps the rest. -/
theorem completeKeys_get (untilMs : ℕ) (slot : StreamId × IdempotencyKey)
    (done : List (IdempotencyKey × ℕ × ℕ)) :
    MovesClaim stream owner slot
      (fun v => ∃ partition offset, v = some (.done partition offset untilMs)) l
      (done.foldl (fun l d => completeKey l stream owner untilMs d) l) := by
  refine foldl_movesClaim (fun m d => ?_) done
  unfold completeKey
  split_ifs with hpending
  · by_cases hslot : (stream, d.1) = slot
    · subst hslot
      exact .inr ⟨rfl, hpending, d.2.1, d.2.2, by simp⟩
    · exact .inl (get_insert_ne hslot)
  · exact .inl rfl

/-- A release drops claims of the owner and keeps the rest. -/
theorem releaseKeys_get (slot : StreamId × IdempotencyKey) (keys : List IdempotencyKey) :
    MovesClaim stream owner slot (· = none) l
      (keys.foldl (fun l key => releaseKey l stream owner key) l) := by
  refine foldl_movesClaim (fun m key => ?_) keys
  unfold releaseKey
  split_ifs with hpending
  · by_cases hslot : (stream, key) = slot
    · subst hslot
      exact .inr ⟨rfl, hpending, by simp⟩
    · exact .inl (get_erase_ne hslot)
  · exact .inl rfl

end Ledger

/-! ## Commands -/

/-- The checks every ledger write shares. -/
def validateIdempotencyArgs (owner : String) (keys : ℕ) (ttlMs : Option ℕ) :
    Except ApplyError Unit := do
  validateKey "idempotency owner" owner
  requireArg (¬(keys = 0 ∨ maxIdempotencyKeys < keys))
    s!"an idempotency request carries 1..={maxIdempotencyKeys} keys, got {keys}"
  match ttlMs with
  | some ttlMs =>
    requireArg (¬(ttlMs = 0 ∨ maxIdempotencyTtlMs < ttlMs))
      s!"an idempotency TTL is 1..={maxIdempotencyTtlMs} ms, got {ttlMs}"
  | none => pure ()

/-- Refuses a key that appears twice in one request. -/
def refuseRepeats (keys : List IdempotencyKey) : Except ApplyError Unit :=
  requireArg keys.Nodup "an idempotency request repeats a key"

namespace MetaState

variable {s s' : MetaState} {r : Reply} {keys : List IdempotencyKey} {nowMs : ℕ}

/-- An owner claims keys of a stream. -/
def claimIdempotencyKeys (stream : StreamId) (owner : String) (keys : List IdempotencyKey)
    (ttlMs nowMs : ℕ) : Handler Reply := do
  validateIdempotencyArgs owner keys.length (some ttlMs)
  refuseRepeats keys
  let s ← read
  require (stream ∈ s.streams) (ApplyError.streamNotFound stream)
  let now := max s.clockMs nowMs
  update fun s => { s with clockMs := now }
  let claimed := Ledger.claimKeys stream owner now (satAdd now ttlMs) s.idempotency keys
  update fun s => { s with idempotency := claimed.2 }
  return .idempotencyClaimed claimed.1

/-- The owner's keys get their offsets. -/
def completeIdempotencyKeys (stream : StreamId) (owner : String)
    (done : List (IdempotencyKey × ℕ × ℕ)) (windowMs nowMs : ℕ) : Handler Reply := do
  validateIdempotencyArgs owner done.length (some windowMs)
  refuseRepeats (done.map Prod.fst)
  let s ← read
  let now := max s.clockMs nowMs
  update fun s => { s with clockMs := now }
  update fun s => { s with
    idempotency := done.foldl
      (fun l d => Ledger.completeKey l stream owner (satAdd now windowMs) d) s.idempotency }
  return .idempotencyKeysUpdated

/-- Unlike the other two, a release neither moves the clock nor refuses repeated
keys. -/
def releaseIdempotencyKeys (stream : StreamId) (owner : String) (keys : List IdempotencyKey) :
    Handler Reply := do
  validateIdempotencyArgs owner keys.length none
  update fun s => { s with
    idempotency := keys.foldl (fun l key => Ledger.releaseKey l stream owner key) s.idempotency }
  return .idempotencyKeysUpdated

/-- The expired entries go. -/
def pruneIdempotencyKeys (fence : Option Fence) (nowMs : ℕ) : Handler Reply := do
  let s ← read
  s.checkFence? fence
  update fun s => s.advance nowMs
  let s ← read
  let kept := s.idempotency.filter fun _ entry => entry.isLiveAt s.clockMs
  update fun s => { s with idempotency := kept }
  return .pruned (min (s.idempotency.size - kept.size) u32Max)

/-- Forgets every ledger entry of a dropped stream. -/
def dropStreamIdempotency (s : MetaState) (stream : StreamId) : MetaState :=
  { s with idempotency := s.idempotency.filter fun slot _ => slot.1 ≠ stream }

/-! ## What a successful command did -/

variable {stream : StreamId} {owner : String} {ttlMs windowMs : ℕ}
  {done : List (IdempotencyKey × ℕ × ℕ)} {fence : Option Fence}

theorem claimIdempotencyKeys_ok
    (h : (claimIdempotencyKeys stream owner keys ttlMs nowMs).exec s = (.ok r, s')) :
    keys.Nodup ∧ stream ∈ s.streams ∧
      r = .idempotencyClaimed (Ledger.claimKeys stream owner (max s.clockMs nowMs)
        (satAdd (max s.clockMs nowMs) ttlMs) s.idempotency keys).1 ∧
      s' = { s with
        clockMs := max s.clockMs nowMs
        idempotency := (Ledger.claimKeys stream owner (max s.clockMs nowMs)
          (satAdd (max s.clockMs nowMs) ttlMs) s.idempotency keys).2 } := by
  simp only [claimIdempotencyKeys, exec_check_bind_ok, exec_read_bind] at h
  obtain ⟨_, -, _, hnodup, _, hstream, h⟩ := h
  rw [exec_update_bind, exec_update_bind, exec_pure, Prod.mk.injEq, Except.ok.injEq] at h
  exact ⟨requireArg_eq_ok.mp hnodup, require_eq_ok.mp hstream, h.1.symm, h.2.symm⟩

theorem completeIdempotencyKeys_ok
    (h : (completeIdempotencyKeys stream owner done windowMs nowMs).exec s = (.ok r, s')) :
    (done.map Prod.fst).Nodup ∧
      s' = { s with
        clockMs := max s.clockMs nowMs
        idempotency := done.foldl (fun l d => Ledger.completeKey l stream owner
          (satAdd (max s.clockMs nowMs) windowMs) d) s.idempotency } := by
  simp only [completeIdempotencyKeys, refuseRepeats, exec_check_bind_ok, exec_read_bind,
    requireArg_eq_ok, exec_update_bind, exec_pure, Prod.mk.injEq] at h
  obtain ⟨_, -, _, hnodup, -, hs⟩ := h
  exact ⟨hnodup, hs.symm⟩

theorem releaseIdempotencyKeys_ok
    (h : (releaseIdempotencyKeys stream owner keys).exec s = (.ok r, s')) :
    s' = { s with
      idempotency :=
        keys.foldl (fun l key => Ledger.releaseKey l stream owner key) s.idempotency } := by
  simp only [releaseIdempotencyKeys, exec_check_bind_ok, exec_update_bind, exec_pure,
    Prod.mk.injEq] at h
  obtain ⟨_, -, -, hs⟩ := h
  exact hs.symm

theorem pruneIdempotencyKeys_ok
    (h : (pruneIdempotencyKeys fence nowMs).exec s = (.ok r, s')) :
    (∀ f ∈ fence, s.fenceHolds f = true) ∧
      s' = { s.advance nowMs with
        idempotency := s.idempotency.filter fun _ entry =>
          entry.isLiveAt (s.advance nowMs).clockMs } := by
  simp only [pruneIdempotencyKeys, exec_check_bind_ok, exec_read_bind, checkFence?_eq_ok,
    exec_update_bind, exec_pure, Prod.mk.injEq] at h
  obtain ⟨_, hfence, -, hs⟩ := h
  exact ⟨hfence, hs.symm⟩

/-! ## A refused command changed nothing -/

theorem claimIdempotencyKeys_failsClean :
    (claimIdempotencyKeys stream owner keys ttlMs nowMs).FailsClean s := by
  simp only [claimIdempotencyKeys, failsClean_check_bind, failsClean_read_bind]
  intro _ _ _ _ _ _
  exact Succeeds.failsClean (succeeds_update_bind (succeeds_update_bind succeeds_pure))

theorem completeIdempotencyKeys_failsClean :
    (completeIdempotencyKeys stream owner done windowMs nowMs).FailsClean s := by
  simp only [completeIdempotencyKeys, failsClean_check_bind, failsClean_read_bind]
  intro _ _ _ _
  exact Succeeds.failsClean (succeeds_update_bind (succeeds_update_bind succeeds_pure))

theorem releaseIdempotencyKeys_failsClean :
    (releaseIdempotencyKeys stream owner keys).FailsClean s := by
  simp only [releaseIdempotencyKeys, failsClean_check_bind]
  intro _ _
  exact failsClean_write

theorem pruneIdempotencyKeys_failsClean : (pruneIdempotencyKeys fence nowMs).FailsClean s := by
  simp only [pruneIdempotencyKeys, failsClean_check_bind, failsClean_read_bind]
  intro _ _ e s' hs
  simp at hs

end MetaState

end Loams.Meta
