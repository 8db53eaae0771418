/-
# Lease fencing is safe
-/

import Loams.Meta.Frame

namespace Loams.Meta

open Option Loams.Data Loams.Control Program Std.ExtTreeMap

/-! ## What the history says about leases -/

/-- What a command and its outcome mean for leases. -/
inductive LeaseLabel
  | granted (key owner : String) (grant : LeaseGrant)
  | released (key owner : String) (epoch : ℕ)
  | other

/-- The fence a command carries. -/
def Command.fence? : Command → Option Fence
  | .swapSegment _ _ _ _ _ _ fence _ _ => fence
  | .trimPartition _ _ _ fence _ => fence
  | .pruneWalCommits fence _ => fence
  | .forgetObjects _ fence => fence
  | .casPointer _ _ _ _ fence _ => fence
  | .pruneIdempotencyKeys fence _ => fence
  | _ => none

/-- What a command does to leases. -/
def leaseLabel : Command → Except ApplyError Reply → LeaseLabel
  | .acquireLease key owner _ _, .ok (.lease grant) => .granted key owner grant
  | .renewLease key owner _ _ _, .ok (.lease grant) => .granted key owner grant
  | .reacquireLease key owner _ _ _, .ok (.lease grant) => .granted key owner grant
  | .releaseLease key owner epoch, .ok _ => .released key owner epoch
  | _, _ => .other

/-- The labels of a history. -/
def leaseLabels (evs : List (Event MetaState Command (Except ApplyError Reply))) :
    List LeaseLabel :=
  evs.map fun ev => leaseLabel ev.input ev.output

/-- The grant an owner holds after one more label: its latest grant of the key,
until it releases it. -/
def holdStep (key owner : String) (held : Option LeaseGrant) : LeaseLabel → Option LeaseGrant
  | .granted key' owner' grant => if key' = key ∧ owner' = owner then some grant else held
  | .released key' owner' epoch =>
    if key' = key ∧ owner' = owner then held.filter fun g => g.epoch ≠ epoch else held
  | .other => held

/-- The grant an owner holds after a history. -/
def heldGrant (key owner : String) (labels : List LeaseLabel) : Option LeaseGrant :=
  labels.foldl (holdStep key owner) none

namespace MetaState

variable {s s' : MetaState} {r : Reply} {command : Command}

/-! ## What one command does to the leases -/

/-- Why a lease may be granted: nobody ever took it, the owner has it, or it is
free at the clock and the epoch moves on. -/
inductive GrantBasis (clockMs : ℕ) (owner : String) : Option Lease → ℕ → Prop
  | fresh : GrantBasis clockMs owner none 1
  | kept {current : Lease} (owned : current.owner = some owner) :
      GrantBasis clockMs owner (some current) current.epoch
  | taken {current : Lease} (free : current.isHeldAt clockMs = false) :
      GrantBasis clockMs owner (some current) (current.epoch + 1)

/-- The effect of an applied command on the leases, by its label. -/
inductive LeaseStep (s s' : MetaState) : LeaseLabel → Prop
  | granted {key owner : String} {lease : Lease}
      (write : s'.leases = s.leases.insert key lease) (owned : lease.owner = some owner)
      (basis : GrantBasis s'.clockMs owner s.leases[key]? lease.epoch) :
      LeaseStep s s' (.granted key owner ⟨lease.epoch, lease.deadlineMs⟩)
  | released {key owner : String} {lease : Lease} (found : s.leases[key]? = some lease)
      (owned : lease.owner = some owner)
      (write : s'.leases = s.leases.insert key { lease with owner := none }) :
      LeaseStep s s' (.released key owner lease.epoch)
  | unchanged {label : LeaseLabel} (same : s'.leases = s.leases)
      (ungranted : ∀ key owner grant, label ≠ .granted key owner grant)
      (free : ∀ key owner epoch, label = .released key owner epoch →
        ∃ lease, s.leases[key]? = some lease ∧ lease.epoch = epoch ∧ lease.owner = none) :
      LeaseStep s s' label

theorem grantBasis_of_acquired {current : Option Lease} {owner : String} {now deadlineMs : ℕ}
    {lease : Lease} (h : acquired current owner now deadlineMs = .ok lease) :
    GrantBasis now owner current lease.epoch ∧ lease.owner = some owner ∧
      lease.deadlineMs = deadlineMs := by
  cases current with
  | none =>
    obtain rfl := Except.ok.inj h
    exact ⟨.fresh, rfl, rfl⟩
  | some current =>
    simp only [acquired] at h
    split_ifs at h with hheld howner
    · obtain rfl := Except.ok.inj h
      exact ⟨.kept howner, rfl, rfl⟩
    · obtain rfl := Except.ok.inj h
      exact ⟨.taken (by simpa using hheld), rfl, rfl⟩

variable {key owner : String} {current : Lease} {label : LeaseLabel} {fence : Fence}

/-- A moved deadline is a grant at the same epoch to the owner who has the lease. -/
theorem leaseStep_of_extendLease {lease : Lease} {epoch ttlMs now : ℕ}
    (hfound : s.leases[key]? = some lease) (hepoch : lease.epoch = epoch)
    (howner : lease.owner = some owner)
    (h : (extendLease key lease epoch ttlMs now).exec s = (.ok r, s')) :
    ∃ grant, r = .lease grant ∧ LeaseStep s s' (.granted key owner grant) := by
  rw [extendLease_exec, Prod.mk.injEq, Except.ok.injEq] at h
  obtain ⟨rfl, rfl⟩ := h
  refine ⟨_, rfl, ?_⟩
  have hbasis : GrantBasis now owner s.leases[key]? lease.epoch := hfound ▸ .kept howner
  subst hepoch
  exact @LeaseStep.granted s _ key owner { lease with deadlineMs := satAdd now ttlMs } rfl howner
    hbasis

/-- What a command that is applied does to the leases. -/
theorem handler_leaseStep (h : (handler command).exec s = (.ok r, s')) :
    LeaseStep s s' (leaseLabel command (.ok r)) := by
  cases hwrites : command.writesLeases with
  | false =>
    have hother : leaseLabel command (.ok r) = .other := by
      cases command <;> first | rfl | cases hwrites
    rw [hother]
    exact .unchanged ((handler_frame h).leases hwrites) (by simp) (by simp)
  | true =>
    cases command with
    | acquireLease key owner ttlMs nowMs =>
      obtain ⟨lease, hlease, rfl, rfl⟩ := acquireLease_ok h
      obtain ⟨hbasis, howner, hdeadline⟩ := grantBasis_of_acquired hlease
      rw [← hdeadline]
      exact .granted rfl howner hbasis
    | renewLease key owner epoch ttlMs nowMs =>
      obtain ⟨lease, hfound, hepoch, howner, -, hs⟩ := renewLease_ok h
      obtain ⟨grant, rfl, hstep⟩ := leaseStep_of_extendLease hfound hepoch howner hs
      exact hstep
    | reacquireLease key owner epoch ttlMs nowMs =>
      obtain ⟨lease, hfound, hepoch, howner, hs⟩ := reacquireLease_ok h
      obtain ⟨grant, rfl, hstep⟩ := leaseStep_of_extendLease hfound hepoch howner hs
      exact hstep
    | releaseLease key owner epoch =>
      obtain ⟨-, lease, hfound, rfl, ⟨hnone, rfl⟩ | ⟨howner, rfl⟩⟩ := releaseLease_ok h
      · refine .unchanged rfl (by simp [leaseLabel]) fun key' owner' epoch' hlabel => ?_
        obtain ⟨rfl, -, rfl⟩ := LeaseLabel.released.inj hlabel
        exact ⟨lease, hfound, rfl, hnone⟩
      · exact .released hfound howner rfl
    | _ => cases hwrites

/-! ## Epochs only grow -/

theorem GrantBasis.epoch_le {clockMs epoch : ℕ} {owner : String}
    (h : GrantBasis clockMs owner (some current) epoch) : current.epoch ≤ epoch := by
  cases h with
  | kept => exact le_rfl
  | taken => exact Nat.le_succ _

/-- What a step can do to the stored lease of a key: nothing, a grant or a
release. -/
theorem LeaseStep.lookup {key : String} (hstep : LeaseStep s s' label)
    (hcurrent : s.leases[key]? = some current) : s'.leases[key]? = some current ∨
    (∃ owner lease, label = .granted key owner ⟨lease.epoch, lease.deadlineMs⟩ ∧
      s'.leases[key]? = some lease ∧ lease.owner = some owner ∧
      GrantBasis s'.clockMs owner (some current) lease.epoch) ∨
    ∃ owner, label = .released key owner current.epoch ∧ current.owner = some owner ∧
      s'.leases[key]? = some { current with owner := none } := by
  cases hstep with
  | @granted key' owner lease write owned basis =>
    by_cases hkey : key' = key
    · subst hkey
      rw [hcurrent] at basis
      exact .inr (.inl ⟨owner, lease, rfl,
        by rw [write, getElem?_insert_self], owned, basis⟩)
    · exact .inl (by rw [write, get_insert_ne hkey, hcurrent])
  | @released key' owner lease found owned write =>
    by_cases hkey : key' = key
    · subst hkey
      obtain rfl : current = lease := some_inj.mp (hcurrent.symm.trans found)
      exact .inr (.inr ⟨owner, rfl, owned,
        by rw [write, getElem?_insert_self]⟩)
    · exact .inl (by rw [write, get_insert_ne hkey, hcurrent])
  | unchanged same => exact .inl (by rw [same, hcurrent])

/-- The lease was taken before and its epoch is at least the given one. -/
def EpochAtLeast (key : String) (epoch : ℕ) (s : MetaState) : Prop :=
  ∃ lease, s.leases[key]? = some lease ∧ epoch ≤ lease.epoch

theorem EpochAtLeast.step {key : String} {epoch : ℕ} (h : EpochAtLeast key epoch s)
    (hstep : LeaseStep s s' label) : EpochAtLeast key epoch s' := by
  obtain ⟨current, hcurrent, hle⟩ := h
  rcases hstep.lookup hcurrent with hsame | ⟨owner, lease, -, hlease, -, basis⟩
    | ⟨owner, -, -, hrel⟩
  · exact ⟨current, hsame, hle⟩
  · exact ⟨lease, hlease, hle.trans basis.epoch_le⟩
  · exact ⟨_, hrel, hle⟩

/-! ## A broken fence stays broken -/

/-- The fence's epoch was released, or a larger epoch superseded it. -/
def FenceBroken (s : MetaState) (fence : Fence) : Prop :=
  ∃ lease, s.leases[fence.lease]? = some lease ∧
    (lease.epoch = fence.epoch ∧ lease.owner = none ∨ fence.epoch < lease.epoch)

theorem FenceBroken.not_fenceHolds (h : s.FenceBroken fence) : s.fenceHolds fence = false := by
  obtain ⟨lease, hlease, ⟨-, hnone⟩ | hlt⟩ := h
  · simp [fenceHolds, hlease, hnone]
  · have hne : lease.epoch ≠ fence.epoch := by omega
    simp [fenceHolds, hlease, hne]

/-- Nobody takes a lease back at an epoch that is gone: a released lease is free,
so the next holder gets the next epoch. -/
theorem FenceBroken.step (h : s.FenceBroken fence) (hstep : LeaseStep s s' label) :
    s'.FenceBroken fence := by
  obtain ⟨current, hcurrent, hbroken⟩ := h
  rcases hstep.lookup hcurrent with hsame | ⟨owner, lease, -, hlease, -, basis⟩
    | ⟨owner, -, -, hrel⟩
  · exact ⟨current, hsame, hbroken⟩
  · refine ⟨lease, hlease, .inr ?_⟩
    generalize lease.epoch = epoch at basis ⊢
    cases basis with
    | kept howner =>
      rcases hbroken with ⟨-, hnone⟩ | hlt
      · rw [hnone] at howner
        simp at howner
      · exact hlt
    | taken free => omega
  · exact ⟨_, hrel, hbroken.imp (fun h => ⟨h.1, rfl⟩) id⟩

/-- A command whose fence does not hold changes nothing. Only the retry of a swap
succeeds at all, and it finds its segment in place. -/
theorem apply_unchanged_of_not_fenceHolds (hfence : command.fence? = some fence)
    (hbroken : s.fenceHolds fence = false) : (s.apply command).2 = s := by
  rcases apply_cases s command with ⟨e, -, hsame⟩ | ⟨r, h, -⟩
  · exact hsame
  · have refused : ∀ {P : Prop}, (∀ f ∈ command.fence?, s.fenceHolds f = true) → P := by
      intro P hall
      have hholds := hall fence hfence
      rw [hbroken] at hholds
      cases hholds
    cases command with
    | swapSegment =>
      obtain ⟨-, p, firstBase, -, -, -, ⟨-, hsame⟩ | ⟨hall, -⟩⟩ := swapSegment_ok h
      · exact hsame
      · exact refused hall
    | trimPartition =>
      obtain ⟨p, -, -, hall, -, -⟩ := trimPartition_ok h
      exact refused hall
    | pruneWalCommits => exact refused (pruneWalCommits_ok h).1
    | forgetObjects => exact refused (forgetObjects_ok h).1
    | casPointer => exact refused (casPointer_ok h).2.1
    | pruneIdempotencyKeys => exact refused (pruneIdempotencyKeys_ok h).1
    | _ => cases hfence

/-! ## Grants handed out and the stored lease -/

/-- A grant of the history against the stored lease: its epoch is at most the
stored one, and at the same epoch the stored owner is the grant's or nobody. -/
def GrantTied (s : MetaState) (key owner : String) (grant : LeaseGrant) : Prop :=
  ∃ lease, s.leases[key]? = some lease ∧ grant.epoch ≤ lease.epoch ∧
    (grant.epoch = lease.epoch → lease.owner = none ∨ lease.owner = some owner)

/-- A later grant at the epoch of a tied one goes to the same owner. -/
theorem GrantBasis.owner_eq {clockMs epoch : ℕ} {owner owner' : String}
    (basis : GrantBasis clockMs owner' (some current) epoch) (hle : epoch ≤ current.epoch)
    (htied : current.owner = none ∨ current.owner = some owner) : owner = owner' := by
  cases basis with
  | kept howner =>
    rcases htied with hnone | hsome
    · rw [hnone] at howner
      simp at howner
    · exact some_inj.mp (hsome.symm.trans howner)
  | taken free => omega

theorem GrantTied.step {grant : LeaseGrant} (h : GrantTied s key owner grant)
    (hstep : LeaseStep s s' label) : GrantTied s' key owner grant := by
  obtain ⟨current, hcurrent, hle, htied⟩ := h
  rcases hstep.lookup hcurrent with hsame | ⟨owner', lease, -, hlease, howner, basis⟩ |
    ⟨owner', -, -, hrel⟩
  · exact ⟨current, hsame, hle, htied⟩
  · have hgrow := basis.epoch_le
    refine ⟨lease, hlease, hle.trans hgrow, fun heq => .inr ?_⟩
    have hepoch : grant.epoch = current.epoch := by omega
    rw [basis.owner_eq (by omega) (htied hepoch), howner]
  · exact ⟨_, hrel, hle, fun _ => .inl rfl⟩

/-- The lease a grant writes. -/
theorem LeaseStep.of_granted {grant : LeaseGrant}
    (hstep : LeaseStep s s' (.granted key owner grant)) :
    s'.leases[key]? = some ⟨grant.epoch, some owner, grant.deadlineMs⟩ ∧
      GrantBasis s'.clockMs owner s.leases[key]? grant.epoch := by
  generalize hlabel : LeaseLabel.granted key owner grant = label at hstep
  cases hstep with
  | @granted _ _ lease write owned basis =>
    obtain ⟨rfl, rfl, rfl⟩ := LeaseLabel.granted.inj hlabel
    refine ⟨?_, basis⟩
    rw [write, getElem?_insert_self, ← owned]
  | released => cases hlabel
  | unchanged _ ungranted => exact absurd hlabel.symm (ungranted _ _ _)

/-- A held grant whose deadline lies ahead is the stored lease. -/
def HoldTied (s : MetaState) (key owner : String) (held : Option LeaseGrant) : Prop :=
  ∀ grant, held = some grant → s.clockMs < grant.deadlineMs →
    s.leases[key]? = some ⟨grant.epoch, some owner, grant.deadlineMs⟩

/-- Every command keeps a hold tied to the stored lease. -/
theorem HoldTied.step {held : Option LeaseGrant} (h : HoldTied s key owner held)
    (hclock : s.clockMs ≤ s'.clockMs) (hstep : LeaseStep s s' label) :
    HoldTied s' key owner (holdStep key owner held label) := by
  intro grant hheld hlt
  -- Unless the label is the owner's own grant, the grant was held before.
  by_cases hown : label = .granted key owner grant
  · subst hown
    exact hstep.of_granted.1
  have hbefore : held = some grant := by
    cases label with
    | granted key' owner' grant' =>
      simp only [holdStep] at hheld
      split_ifs at hheld with hsame
      · obtain ⟨rfl, rfl⟩ := hsame
        exact absurd (by rw [some_inj.mp hheld]) hown
      · exact hheld
    | released key' owner' epoch =>
      simp only [holdStep] at hheld
      split_ifs at hheld with hsame
      · exact (filter_eq_some_iff.mp hheld).1
      · exact hheld
    | other => exact hheld
  have hcurrent := h grant hbefore (by omega)
  rcases hstep.lookup hcurrent with hsame | ⟨owner', lease, hlabel, hlease, howner, basis⟩ |
    ⟨owner', hlabel, howner, -⟩
  · exact hsame
  · -- Another owner could only have taken the lease after its deadline.
    generalize lease.epoch = epoch at basis hlabel
    cases basis with
    | kept howner' =>
      obtain rfl : owner = owner' := some_inj.mp howner'
      rw [hlabel] at hheld
      simp only [holdStep, and_self, if_true, some_inj] at hheld
      exact absurd (hlabel.trans (congrArg _ hheld)) hown
    | taken free => simp [Lease.isHeldAt, hlt] at free
  · obtain rfl : owner = owner' := some_inj.mp howner
    rw [hlabel] at hheld
    simp [holdStep, hbefore] at hheld

/-! ## Whole histories -/

/-- Every command, refused or applied, is a step of the leases. -/
theorem apply_leaseStep (s : MetaState) (command : Command) :
    LeaseStep s (s.apply command).2 (leaseLabel command (s.apply command).1) := by
  rcases apply_cases s command with ⟨e, herror, hsame⟩ | ⟨r, hok, hr⟩
  · rw [herror, hsame]
    have hother : leaseLabel command (.error e) = .other := by cases command <;> rfl
    rw [hother]
    exact .unchanged rfl (by simp) (by simp)
  · rw [hr]
    exact handler_leaseStep hok

/-- What every lease step keeps, every continuation of a history keeps. -/
theorem keep_after_append {P : MetaState → Prop}
    (keep : ∀ s s' label, P s → LeaseStep s s' label → P s') {commands : List Command}
    (h : P (after commands)) (rest : List Command) : P (after (commands ++ rest)) :=
  after_append_induction commands h fun _ _ _ _ _ hs hok =>
    keep _ _ _ hs (handler_leaseStep hok)

/-- The grants of a history against the state it reaches: all are tied to the
stored lease, and those of one key and epoch have one owner. -/
structure GrantsTied (labels : List LeaseLabel) (s : MetaState) : Prop where
  tied : ∀ key owner grant, .granted key owner grant ∈ labels → GrantTied s key owner grant
  unique : ∀ key owner owner' grant grant', .granted key owner grant ∈ labels →
    .granted key owner' grant' ∈ labels → grant.epoch = grant'.epoch → owner = owner'
  held : ∀ key owner, HoldTied s key owner (heldGrant key owner labels)

/-- Every command keeps the grants tied to the stored leases. -/
theorem GrantsTied.step {labels : List LeaseLabel} (h : GrantsTied labels s)
    (hclock : s.clockMs ≤ s'.clockMs) (hstep : LeaseStep s s' label) :
    GrantsTied (labels ++ [label]) s' := by
  have clash : ∀ {key owner owner' : String} {grant grant' : LeaseGrant},
      .granted key owner grant ∈ labels → label = .granted key owner' grant' →
      grant.epoch = grant'.epoch → owner = owner' := by
    intro key owner owner' grant grant' hmem hlabel hepoch
    obtain ⟨current, hcurrent, hle, htied⟩ := h.tied key owner grant hmem
    subst hlabel
    have basis := hstep.of_granted.2
    rw [hcurrent] at basis
    have hgrow := basis.epoch_le
    exact basis.owner_eq (by omega) (htied (by omega))
  refine ⟨?_, ?_, ?_⟩
  · intro key owner grant hmem
    rcases mem_concat.mp hmem with hmem | rfl
    · exact (h.tied key owner grant hmem).step hstep
    · exact ⟨_, hstep.of_granted.1, le_rfl, fun _ => .inr rfl⟩
  · intro key owner owner' grant grant' hmem hmem' hepoch
    rcases mem_concat.mp hmem with hmem | hnew <;> rcases mem_concat.mp hmem' with hmem' | hnew'
    · exact h.unique key owner owner' grant grant' hmem hmem' hepoch
    · exact clash hmem hnew'.symm hepoch
    · exact (clash hmem' hnew.symm hepoch.symm).symm
    · exact (LeaseLabel.granted.inj (hnew.trans hnew'.symm)).2.1
  · intro key owner
    rw [heldGrant, List.foldl_append]
    exact (h.held key owner).step hclock hstep

theorem grantsTied_after (commands : List Command) :
    GrantsTied (leaseLabels (history commands)) (after commands) := by
  refine history_induction (H := fun _ => True) (fun _ _ _ => trivial)
    (P := fun _ evs s => GrantsTied (leaseLabels evs) s) ?_ ?_ commands trivial
  · exact ⟨by simp [leaseLabels], by simp [leaseLabels], by
      intro key owner grant hheld
      simp [heldGrant, leaseLabels] at hheld⟩
  · intro is command _ ih
    rw [leaseLabels, List.map_append]
    exact ih.step (clock_le_apply _ _) (apply_leaseStep _ _)

/-- **Lease fencing is safe.** After every history the stored epochs only grow;
each key and epoch was granted to one owner; two owners never both hold a grant
that the clock has not passed; and once an epoch was released or superseded, no
later command that carries its fence changes the state. -/
theorem lease_fencing_safe (commands : List Command) :
    (∀ (rest : List Command) (key : String) (lease : Lease),
      (after commands).leases[key]? = some lease →
      ∃ later : Lease, (after (commands ++ rest)).leases[key]? = some later ∧
        lease.epoch ≤ later.epoch) ∧
    (∀ key owner owner' grant grant',
      .granted key owner grant ∈ leaseLabels (history commands) →
      .granted key owner' grant' ∈ leaseLabels (history commands) →
      grant.epoch = grant'.epoch → owner = owner') ∧
    (∀ key owner owner' grant grant',
      heldGrant key owner (leaseLabels (history commands)) = some grant →
      heldGrant key owner' (leaseLabels (history commands)) = some grant' →
      (after commands).clockMs < grant.deadlineMs →
      (after commands).clockMs < grant'.deadlineMs → owner = owner') ∧
    ∀ rest fence command, (after commands).FenceBroken fence →
      command.fence? = some fence →
      ((after (commands ++ rest)).apply command).2 = after (commands ++ rest) := by
  have htied := grantsTied_after commands
  refine ⟨?_, htied.unique, ?_, ?_⟩
  · intro rest key lease hlease
    exact keep_after_append (P := EpochAtLeast key lease.epoch)
      (fun _ _ _ h hstep => h.step hstep) ⟨lease, hlease, le_rfl⟩ rest
  · intro key owner owner' grant grant' hheld hheld' hlt hlt'
    have hlease := htied.held key owner grant hheld hlt
    rw [htied.held key owner' grant' hheld' hlt', some_inj, Lease.mk.injEq] at hlease
    exact (some_inj.mp hlease.2.1).symm
  · intro rest fence command hbroken hfence
    have hlater := keep_after_append (P := fun s => s.FenceBroken fence)
      (fun _ _ _ h hstep => h.step hstep) hbroken rest
    exact apply_unchanged_of_not_fenceHolds hfence hlater.not_fenceHolds

end MetaState

end Loams.Meta
