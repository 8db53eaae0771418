/-
# Leases, fences and pointers

A lease carries an epoch that grows each time a different holder takes it.
-/

import Loams.Meta.State

namespace Loams.Meta

open Loams.Data Loams.Control Program

namespace MetaState

variable {s s' : MetaState} {r : Reply} {key owner : String} {epoch ttlMs nowMs : ℕ}

/-! ## Fences -/

/-- Whether the fence's lease is still at the fence's epoch and not released. -/
def fenceHolds (s : MetaState) (fence : Fence) : Bool :=
  match s.leases[fence.lease]? with
  | some lease => lease.epoch = fence.epoch && lease.owner.isSome
  | none => false

/-- The fence holds. -/
def checkFence (s : MetaState) (fence : Fence) : Except ApplyError Unit :=
  require (s.fenceHolds fence) (.fenced fence.lease)

/-- The check of a command that may carry a fence. -/
def checkFence? (s : MetaState) : Option Fence → Except ApplyError Unit
  | some fence => s.checkFence fence
  | none => .ok ()

theorem checkFence?_eq_ok {fence : Option Fence} {u : Unit} :
    s.checkFence? fence = .ok u ↔ ∀ f ∈ fence, s.fenceHolds f = true := by
  cases fence <;> simp [checkFence?, checkFence]

/-! ## Lease commands -/

/-- Valid names and a lifetime within bounds. -/
def validateLeaseArgs (key owner : String) (ttlMs : ℕ) : Except ApplyError Unit := do
  validateKey "lease key" key
  validateKey "lease owner" owner
  requireArg (1 ≤ ttlMs ∧ ttlMs ≤ maxLeaseTtlMs)
    s!"lease ttl must be 1..={maxLeaseTtlMs} ms, got {ttlMs}"

/-- The lease after an acquire at the time `now`, unless another owner holds it. -/
def acquired (current : Option Lease) (owner : String) (now deadlineMs : ℕ) :
    Except ApplyError Lease :=
  match current with
  | none => .ok ⟨1, some owner, deadlineMs⟩
  | some current =>
    if current.isHeldAt now then
      if current.owner = some owner then .ok ⟨current.epoch, some owner, deadlineMs⟩
      else .error (.leaseHeld (current.owner.getD "") current.deadlineMs)
    else .ok ⟨current.epoch + 1, some owner, deadlineMs⟩

/-- A free or expired lease gets the next epoch. -/
def acquireLease (key owner : String) (ttlMs nowMs : ℕ) : Handler Reply := do
  validateLeaseArgs key owner ttlMs
  let s ← read
  let now := max s.clockMs nowMs
  let deadlineMs := satAdd now ttlMs
  let lease ← acquired s.leases[key]? owner now deadlineMs
  update fun s => { s with clockMs := now }
  update fun s => { s with leases := s.leases.insert key lease }
  return .lease ⟨lease.epoch, deadlineMs⟩

/-- The lease on the key, when the owner holds it at the epoch. -/
def heldLease (s : MetaState) (key owner : String) (epoch : ℕ) : Except ApplyError Lease :=
  match s.leases[key]? with
  | none => .error (.leaseLost key)
  | some lease =>
    if lease.epoch ≠ epoch ∨ lease.owner ≠ some owner then .error (.leaseLost key)
    else .ok lease

/-- Moves the deadline of a lease and the clock. -/
def extendLease (key : String) (lease : Lease) (epoch ttlMs now : ℕ) : Handler Reply := do
  let deadlineMs := satAdd now ttlMs
  update fun s => { s with leases := s.leases.insert key { lease with deadlineMs } }
  update fun s => { s with clockMs := now }
  return .lease ⟨epoch, deadlineMs⟩

/-- The holder keeps the lease longer. -/
def renewLease (key owner : String) (epoch ttlMs nowMs : ℕ) : Handler Reply := do
  validateLeaseArgs key owner ttlMs
  let s ← read
  let now := max s.clockMs nowMs
  let lease ← s.heldLease key owner epoch
  require (lease.isHeldAt now) (ApplyError.leaseLost key)
  extendLease key lease epoch ttlMs now

/-- Unlike a renewal, this takes a lease back after it expired, as long as nobody
else took it. -/
def reacquireLease (key owner : String) (epoch ttlMs nowMs : ℕ) : Handler Reply := do
  validateLeaseArgs key owner ttlMs
  let s ← read
  let now := max s.clockMs nowMs
  let lease ← s.heldLease key owner epoch
  extendLease key lease epoch ttlMs now

/-- The holder gives the lease up. -/
def releaseLease (key owner : String) (epoch : ℕ) : Handler Reply := do
  let s ← read
  match s.leases[key]? with
  | none => fail (.leaseLost key)
  | some lease =>
    if lease.epoch ≠ epoch then fail (.leaseLost key)
    else
      match lease.owner with
      -- Already released: a retry succeeds and changes nothing.
      | none => return .leaseReleased
      | some current =>
        if current = owner then do
          update fun s => { s with leases := s.leases.insert key { lease with owner := none } }
          return .leaseReleased
        else fail (.leaseLost key)

/-! ## Pointers -/

/-- A collection's pointer may only be set while that collection exists in the
namespace. -/
def checkCollectionPointer (s : MetaState) (ns : NamespaceId) (key : String) :
    Except ApplyError Unit :=
  match stripPrefix? collectionPointerPrefix key with
  | none => .ok ()
  | some id =>
    match parseCanonical? (u64Max + 1) id with
    | none => .error (.invalidArgument s!"invalid collection pointer key {debugStr key}")
    | some id =>
      match s.collections[id]? with
      | some collection =>
        require (collection.namespace = ns) (.collectionNotFound id)
      | none => .error (.collectionNotFound id)

/-- The version a compare-and-swap writes. -/
def nextVersion (expected : Option ℕ) (current : Option Pointer) : Except ApplyError ℕ :=
  match expected, current with
  | none, none => .ok 1
  | some expected, some pointer =>
    if pointer.version = expected then .ok (expected + 1)
    else .error (.versionMismatch (some pointer))
  | _, current => .error (.versionMismatch current)

/-- Refuses an object that is no longer fresh at the clock. -/
def checkFresh (object : String) (fresh : Freshness) (clockMs : ℕ) : Except ApplyError Unit :=
  require (fresh.expiredAt clockMs = false)
    (.staleObject object fresh.createdAtMs fresh.maxAgeMs clockMs)

/-- The pointer moves from the expected version. -/
def casPointer (ns : NamespaceId) (key : String) (expected : Option ℕ)
    (value : String) (fence : Option Fence) (fresh : Option Freshness) : Handler Reply := do
  validateKey "pointer key" key
  validateKey "pointer value" value
  let s ← read
  s.checkCollectionPointer ns key
  require (ns ∈ s.namespaces) (ApplyError.namespaceNotFound ns)
  s.checkFence? fence
  let version ← nextVersion expected s.pointers[(ns, key)]?
  -- After the version check, so a retry of an applied swap still sees its own value.
  match fresh with
  | some fresh => checkFresh value fresh s.clockMs
  | none => pure ()
  update fun s => { s with pointers := s.pointers.insert (ns, key) ⟨version, value⟩ }
  return .pointerSet version

/-! ## What a successful command did -/

variable {ns : NamespaceId} {value : String} {expected : Option ℕ} {fence : Option Fence}
  {fresh : Option Freshness} {lease : Lease}

theorem acquireLease_ok
    (h : (acquireLease key owner ttlMs nowMs).exec s = (.ok r, s')) :
    ∃ lease, acquired s.leases[key]? owner (max s.clockMs nowMs)
        (satAdd (max s.clockMs nowMs) ttlMs) = .ok lease ∧
      r = .lease ⟨lease.epoch, satAdd (max s.clockMs nowMs) ttlMs⟩ ∧
      s' = { s with clockMs := max s.clockMs nowMs, leases := s.leases.insert key lease } := by
  simp only [acquireLease, exec_check_bind_ok, exec_read_bind, exec_update_bind, exec_pure,
    Prod.mk.injEq, Except.ok.injEq] at h
  obtain ⟨_, -, lease, hlease, rfl, rfl⟩ := h
  exact ⟨lease, hlease, rfl, rfl⟩

theorem heldLease_eq_ok :
    s.heldLease key owner epoch = .ok lease ↔
      s.leases[key]? = some lease ∧ lease.epoch = epoch ∧ lease.owner = some owner := by
  unfold heldLease
  cases h : s.leases[key]? with
  | none => simp
  | some current =>
    simp only [Option.some_inj]
    split_ifs with hc
    · simp only [false_iff]
      rintro ⟨rfl, rfl, howner⟩
      simp [howner] at hc
    · push Not at hc
      rw [Except.ok.injEq]
      exact ⟨fun h => h ▸ ⟨rfl, hc⟩, fun h => h.1⟩

theorem extendLease_exec {now : ℕ} :
    (extendLease key lease epoch ttlMs now).exec s = (.ok (.lease ⟨epoch, satAdd now ttlMs⟩),
      { s with
        clockMs := now
        leases := s.leases.insert key { lease with deadlineMs := satAdd now ttlMs } }) := rfl

theorem renewLease_ok
    (h : (renewLease key owner epoch ttlMs nowMs).exec s = (.ok r, s')) :
    ∃ lease, s.leases[key]? = some lease ∧ lease.epoch = epoch ∧ lease.owner = some owner ∧
      lease.isHeldAt (max s.clockMs nowMs) = true ∧
      (extendLease key lease epoch ttlMs (max s.clockMs nowMs)).exec s = (.ok r, s') := by
  simp only [renewLease, exec_check_bind_ok, exec_read_bind, heldLease_eq_ok, require_eq_ok] at h
  obtain ⟨_, -, lease, ⟨hl, he, ho⟩, _, hheld, h⟩ := h
  exact ⟨lease, hl, he, ho, hheld, h⟩

theorem reacquireLease_ok
    (h : (reacquireLease key owner epoch ttlMs nowMs).exec s = (.ok r, s')) :
    ∃ lease, s.leases[key]? = some lease ∧ lease.epoch = epoch ∧ lease.owner = some owner ∧
      (extendLease key lease epoch ttlMs (max s.clockMs nowMs)).exec s = (.ok r, s') := by
  simp only [reacquireLease, exec_check_bind_ok, exec_read_bind, heldLease_eq_ok] at h
  obtain ⟨_, -, lease, ⟨hl, he, ho⟩, h⟩ := h
  exact ⟨lease, hl, he, ho, h⟩

/-- A release either finds the lease released already or clears its owner. -/
theorem releaseLease_ok
    (h : (releaseLease key owner epoch).exec s = (.ok r, s')) :
    r = .leaseReleased ∧ ∃ lease, s.leases[key]? = some lease ∧ lease.epoch = epoch ∧
      (lease.owner = none ∧ s' = s ∨ lease.owner = some owner ∧
        s' = { s with leases := s.leases.insert key { lease with owner := none } }) := by
  rw [releaseLease, exec_read_bind] at h
  cases hl : s.leases[key]? with
  | none => simp [hl] at h
  | some lease =>
    simp only [hl] at h
    split_ifs at h with he
    · simp at h
    · cases howner : lease.owner with
      | none =>
        simp only [howner, exec_pure, Prod.mk.injEq, Except.ok.injEq] at h
        exact ⟨h.1.symm, lease, rfl, not_not.mp he, .inl ⟨howner, h.2.symm⟩⟩
      | some current =>
        simp only [howner] at h
        split_ifs at h with hc
        · simp only [exec_update_bind, exec_pure, Prod.mk.injEq, Except.ok.injEq] at h
          exact ⟨h.1.symm, lease, rfl, not_not.mp he, .inr ⟨hc ▸ howner, h.2.symm⟩⟩
        · simp at h

theorem casPointer_ok
    (h : (casPointer ns key expected value fence fresh).exec s = (.ok r, s')) :
    s.checkCollectionPointer ns key = .ok () ∧ (∀ f ∈ fence, s.fenceHolds f = true) ∧
      ∃ version, r = .pointerSet version ∧
        s' = { s with pointers := s.pointers.insert (ns, key) ⟨version, value⟩ } := by
  simp only [casPointer, exec_check_bind_ok, exec_read_bind, checkFence?_eq_ok] at h
  obtain ⟨_, -, _, -, _, hptr, _, -, _, hfence, version, -, h⟩ := h
  refine ⟨hptr, hfence, version, ?_⟩
  cases fresh with
  | none =>
    simp only [exec_update_bind, exec_pure, Prod.mk.injEq, Except.ok.injEq] at h
    exact ⟨h.1.symm, h.2.symm⟩
  | some fresh =>
    simp only [exec_check_bind_ok, exec_update_bind, exec_pure, Prod.mk.injEq,
      Except.ok.injEq] at h
    obtain ⟨_, -, hr, hs⟩ := h
    exact ⟨hr.symm, hs.symm⟩

/-! ## A refused command changed nothing -/

theorem acquireLease_failsClean : (acquireLease key owner ttlMs nowMs).FailsClean s := by
  simp only [acquireLease, failsClean_check_bind, failsClean_read_bind]
  intro _ _ lease _
  exact Succeeds.failsClean (succeeds_update_bind (succeeds_update_bind succeeds_pure))

theorem extendLease_succeeds {now : ℕ} : (extendLease key lease epoch ttlMs now).Succeeds :=
  succeeds_update_bind (succeeds_update_bind succeeds_pure)

theorem renewLease_failsClean : (renewLease key owner epoch ttlMs nowMs).FailsClean s := by
  simp only [renewLease, failsClean_check_bind, failsClean_read_bind]
  intro _ _ lease _ _ _
  exact extendLease_succeeds.failsClean

theorem reacquireLease_failsClean : (reacquireLease key owner epoch ttlMs nowMs).FailsClean s := by
  simp only [reacquireLease, failsClean_check_bind, failsClean_read_bind]
  intro _ _ lease _
  exact extendLease_succeeds.failsClean

theorem releaseLease_failsClean : (releaseLease key owner epoch).FailsClean s := by
  rw [releaseLease, failsClean_read_bind]
  split
  · exact failsClean_fail
  · split_ifs
    · exact failsClean_fail
    · split
      · exact failsClean_pure
      · split_ifs
        · exact failsClean_write
        · exact failsClean_fail

theorem casPointer_failsClean : (casPointer ns key expected value fence fresh).FailsClean s := by
  simp only [casPointer, failsClean_check_bind, failsClean_read_bind]
  intro _ _ _ _ _ _ _ _ _ _ version _
  have hwrite : (do
      update fun s : MetaState =>
        { s with pointers := s.pointers.insert (ns, key) ⟨version, value⟩ }
      return Reply.pointerSet version : Handler Reply).Succeeds :=
    succeeds_update_bind succeeds_pure
  cases fresh with
  | none => exact hwrite.failsClean
  | some fresh => exact failsClean_check_bind.mpr fun _ _ => hwrite.failsClean

end MetaState

end Loams.Meta
