/-
# Budgets of the hot tier
-/

import Loams.Meta.Types
import Mathlib.Algebra.Order.BigOperators.Group.List
import Mathlib.Data.Fintype.Card

namespace Loams.Hot

open List Loams.Meta

/-- Why a structure is hot: a promoted one is evicted before any pinned one. -/
inductive HotClass
  | promoted
  | pinned
  deriving Ord

/-- What is kept resident. -/
inductive StructureKind
  | hnsw
  | split
  | delta
  deriving DecidableEq, Ord

/-- A structure that is resident or asks to be. -/
structure Resident where
  «namespace» : NamespaceId
  collection : CollectionId
  kind : StructureKind
  id : String
  nvmeBytes : ℕ
  ramBytes : ℕ
  «class» : HotClass
  heat : ℕ

/-- What a node may hold. -/
structure Budget where
  nvmeBytes : ℕ
  ramBytes : ℕ
  maxArtifacts : ℕ

/-- What a budget limits. -/
inductive Dim
  | nvme
  | ram
  | artifacts
  deriving DecidableEq

instance : Fintype Dim := ⟨{.nvme, .ram, .artifacts}, fun d => by cases d <;> decide⟩

/-- The limit of one dimension. -/
def Budget.limit (budget : Budget) : Dim → ℕ
  | .nvme => budget.nvmeBytes
  | .ram => budget.ramBytes
  | .artifacts => budget.maxArtifacts

namespace Resident

/-- Its size on disk and in memory. -/
def bytes (r : Resident) : ℕ := r.nvmeBytes + r.ramBytes

/-- What it takes of one dimension. -/
def uses (r : Resident) : Dim → ℕ
  | .nvme => r.nvmeBytes
  | .ram => r.ramBytes
  | .artifacts => if r.kind = .hnsw then 1 else 0

/-- The order of the keys of structures. -/
def keyCmp (a b : Resident) : Ordering :=
  (compare a.namespace b.namespace).then ((compare a.collection b.collection).then
    ((compare a.kind b.kind).then (compare a.id b.id)))

/-- Heat per byte, compared by cross-multiplication. -/
def hpbCmp (a b : Resident) : Ordering :=
  compare (a.heat * max b.bytes 1) (b.heat * max a.bytes 1)

end Resident

/-- What is taken of each dimension. -/
abbrev Totals := Dim → ℕ

namespace Totals

/-- The sum over the items. -/
def of (items : List Resident) : Totals := fun d => (items.map (·.uses d)).sum

/-- Without one item. -/
def sub (t : Totals) (item : Resident) : Totals := fun d => t d - item.uses d

/-- Within the budget in every dimension. -/
abbrev Fits (t : Totals) (budget : Budget) : Prop := ∀ d, t d ≤ budget.limit d

/-- Evicting the item frees something that is still short. -/
abbrev Helps (t : Totals) (item : Resident) (budget : Budget) : Prop :=
  ∃ d, budget.limit d < t d ∧ 0 < item.uses d

end Totals

/-- Indexes into a list of residents. -/
abbrev Indexes (resident : List Resident) := List (Fin resident.length)

section Plans

variable {resident : List Resident} (budget : Budget)

/-- The loop over the eviction order: what is evicted and the totals that are left. -/
def evict : Indexes resident → Totals → Indexes resident × Totals
  | [], totals => ([], totals)
  | i :: order, totals =>
    if totals.Fits budget then ([], totals)
    else if totals.Helps resident[i] budget then
      let (evicted, left) := evict order (totals.sub resident[i])
      (i :: evicted, left)
    else evict order totals

/-- What goes first. -/
def evictionOrder (candidates : Indexes resident) («over» : Finset NamespaceId) :
    Indexes resident :=
  candidates.mergeSort fun a b =>
    let (ya, yb) := (resident[a], resident[b])
    ((compare ya.class yb.class).then
      ((compare (decide (yb.namespace ∈ «over»)) (decide (ya.namespace ∈ «over»))).then
        ((ya.hpbCmp yb).then (ya.keyCmp yb)))).isLE

variable (resident) (candidate : Resident)

/-- The namespaces over their fair share of NVMe or of RAM. -/
def overShare (extra : Option Resident) : Finset NamespaceId :=
  let n := max ((resident ++ extra.toList).map (·.namespace)).toFinset.card 1
  (resident.map (·.namespace)).toFinset.filter fun ns =>
    let totals := Totals.of (resident.filter (·.namespace = ns))
    budget.nvmeBytes / n < totals .nvme ∨ budget.ramBytes / n < totals .ram

/-- Whether the candidate may displace the victim. -/
def mayEvict (victim candidate : Resident) («over» : Finset NamespaceId) : Bool :=
  match compare victim.class candidate.class with
  | .lt => true
  | .gt => false
  | .eq => (victim.namespace ∈ «over» ∨ victim.namespace = candidate.namespace) ∧
      victim.hpbCmp candidate = .lt

/-- The residents that the candidate may evict. -/
def evictable : Indexes resident :=
  (finRange resident.length).filter fun i =>
    mayEvict resident[i] candidate (overShare resident budget (some candidate))

/-- The message about a candidate that does not fit. -/
def overBudget : String :=
  let kind := match candidate.kind with
    | .hnsw => "artifact"
    | .split => "split"
    | .delta => "delta"
  s!"{kind} {candidate.namespace}/{candidate.collection} {candidate.id} (" ++
    s!"{candidate.nvmeBytes} NVMe bytes, {candidate.ramBytes} RAM bytes) does not fit"

/-- The residents to evict, or the message of `OverBudget`. -/
def planAdmission : Except String (Indexes resident) :=
  let totals := Totals.of (candidate :: resident)
  if totals.Fits budget then .ok []
  else if ¬ (Totals.of [candidate]).Fits budget then .error (overBudget candidate)
  else
    let (evicted, left) := evict budget (evictionOrder (evictable resident budget candidate)
      (overShare resident budget (some candidate))) totals
    if left.Fits budget then .ok evicted else .error (overBudget candidate)

/-- What to evict until the rest fits the budget. -/
def planShrink : Indexes resident :=
  let totals := Totals.of resident
  if totals.Fits budget then []
  else
    (evict budget (evictionOrder (finRange resident.length) (overShare resident budget none))
      totals).1

end Plans

variable {resident : List Resident} {budget : Budget} {order evicted : Indexes resident}
  {totals left : Totals} {«over» : Finset NamespaceId}

/-- The residents that stay. -/
def remaining (evicted : Indexes resident) : List Resident :=
  ((finRange resident.length).filter (· ∉ evicted)).map resident.get

/-! ## The loop -/

/-- What is evicted accounts for what the totals lose, and the loop ends over a limit only
when the whole order could not meet it. -/
theorem evict_spec (h : evict budget order totals = (evicted, left))
    (hle : ∀ d, Totals.of (order.map resident.get) d ≤ totals d) :
    evicted <+ order ∧ ∀ d, left d + Totals.of (evicted.map resident.get) d = totals d ∧
      (left d ≤ budget.limit d ↔
        totals d ≤ budget.limit d + Totals.of (order.map resident.get) d) := by
  induction order generalizing totals evicted with
  | nil =>
    obtain ⟨rfl, rfl⟩ := Prod.mk.inj h
    exact ⟨.refl _, fun d => ⟨rfl, .rfl⟩⟩
  | cons i order ih =>
    have hcons : ∀ (is : Indexes resident) d, Totals.of ((i :: is).map resident.get) d =
        resident[i].uses d + Totals.of (is.map resident.get) d := fun _ _ => rfl
    simp only [hcons] at hle ⊢
    rw [evict] at h
    split_ifs at h with hfits hhelps
    · obtain ⟨rfl, rfl⟩ := Prod.mk.inj h
      exact ⟨nil_sublist _, fun d =>
        ⟨rfl, iff_of_true (hfits d) ((hfits d).trans (Nat.le_add_right _ _))⟩⟩
    · rcases hrest : evict budget order (totals.sub resident[i]) with ⟨rest, _⟩
      rw [hrest] at h
      obtain ⟨rfl, rfl⟩ := Prod.mk.inj h
      have hsub : ∀ d, totals.sub resident[i] d = totals d - resident[i].uses d := fun _ => rfl
      obtain ⟨hrest, hsum⟩ := ih hrest fun d => by
        have := hle d
        rw [hsub]
        omega
      refine ⟨hrest.cons_cons i, fun d => ?_⟩
      rw [hcons]
      have := hsub d ▸ hsum d
      have := hle d
      omega
    · obtain ⟨hrest, hsum⟩ := ih h fun d => (Nat.le_add_left _ _).trans (hle d)
      refine ⟨hrest.cons i, fun d => ⟨(hsum d).1, ?_⟩⟩
      -- a resident that was skipped uses nothing of what is short
      have := not_and.mp (not_exists.mp hhelps d)
      have := (hsum d).2
      omega

theorem of_remaining (extra : List Resident) (h : order.Nodup) (d : Dim) :
    Totals.of (extra ++ remaining order) d + Totals.of (order.map resident.get) d =
      Totals.of (extra ++ resident) d := by
  have hperm : (finRange resident.length).filter (· ∉ order) ++ order ~
      finRange resident.length := by
    refine (perm_ext_iff_of_nodup ?_ (nodup_finRange _)).mpr (by simp [em'])
    exact ((nodup_finRange _).filter _).append h (by simp [List.Disjoint])
  have hall := (hperm.map resident.get).append_left extra
  rw [map_append, ← append_assoc, map_get_finRange] at hall
  have hsum := (hall.map (·.uses d)).sum_eq
  rwa [map_append, sum_append] at hsum

/-- The evictions make room exactly when those of the whole order would. -/
theorem evict_remaining (extra : List Resident) (hnodup : order.Nodup)
    (h : evict budget order (Totals.of (extra ++ resident)) = (evicted, left)) :
    evicted <+ order ∧ left = Totals.of (extra ++ remaining evicted) ∧
      (left.Fits budget ↔ (Totals.of (extra ++ remaining order)).Fits budget) := by
  have horder := of_remaining extra hnodup
  obtain ⟨hsub, hsum⟩ := evict_spec h fun d => horder d ▸ Nat.le_add_left _ _
  have hevicted := of_remaining extra (hnodup.sublist hsub)
  refine ⟨hsub, funext fun d => ?_, forall_congr' fun d => ?_⟩
  · exact Nat.add_right_cancel ((hsum d).1.trans (hevicted d).symm)
  · rw [(hsum d).2, ← horder d, Nat.add_le_add_iff_right]

theorem remaining_nil : remaining ([] : Indexes resident) = resident := by
  simp [remaining]

theorem mem_evictionOrder {i : Fin resident.length} : i ∈ evictionOrder order «over» ↔ i ∈ order :=
  mem_mergeSort

theorem nodup_evictionOrder (h : order.Nodup) : (evictionOrder order «over»).Nodup :=
  (mergeSort_perm ..).nodup_iff.mpr h

/-- An admission succeeds exactly when the candidate fits once all residents that it may
evict are gone. Its victims are distinct residents that it may evict, and with them gone
the candidate fits. A budget that shrinks is met by the evictions of the plan. -/
theorem budget_plans_are_complete_and_safe (resident : List Resident) (budget : Budget)
    (candidate : Resident) :
    ((∃ evicted, planAdmission resident budget candidate = .ok evicted) ↔
      (Totals.of (candidate :: remaining (evictable resident budget candidate))).Fits budget ∨
        (Totals.of (candidate :: resident)).Fits budget) ∧
    (∀ evicted, planAdmission resident budget candidate = .ok evicted →
      evicted.Nodup ∧ evicted ⊆ evictable resident budget candidate ∧
        (Totals.of (candidate :: remaining evicted)).Fits budget) ∧
    (Totals.of (remaining (planShrink resident budget))).Fits budget := by
  rw [← and_assoc]
  constructor
  · have hnodup : (evictable resident budget candidate).Nodup := (nodup_finRange _).filter _
    simp only [planAdmission]
    rcases hevict : evict budget _ (Totals.of (candidate :: resident)) with ⟨victims, left⟩
    obtain ⟨hsub, rfl, hfits⟩ := evict_remaining [candidate] (nodup_evictionOrder hnodup) hevict
    simp only [remaining, mem_evictionOrder] at hfits
    split_ifs with hall hone hroom
    · refine ⟨⟨fun _ => .inr hall, fun _ => ⟨[], rfl⟩⟩, ?_⟩
      rintro _ ⟨⟩
      exact ⟨nodup_nil, nil_subset _, remaining_nil.symm ▸ hall⟩
    · refine ⟨⟨fun _ => .inl (hfits.mp hroom), fun _ => ⟨victims, rfl⟩⟩, ?_⟩
      rintro _ ⟨⟩
      exact ⟨(nodup_evictionOrder hnodup).sublist hsub,
        fun i hi => mem_evictionOrder.mp (hsub.subset hi), hroom⟩
    · exact ⟨⟨nofun, fun h => absurd (hfits.mpr (h.resolve_right hall)) hroom⟩, nofun⟩
    · refine ⟨⟨nofun, fun h => absurd (fun d => ?_) hone⟩, nofun⟩
      exact (Nat.add_le_add_left (Nat.zero_le _) _).trans (h.resolve_right hall d)
  · rw [planShrink]
    split_ifs with hall
    · rwa [remaining_nil]
    · rcases hevict : evict budget _ (Totals.of resident) with ⟨victims, left⟩
      obtain ⟨-, rfl, hfits⟩ :=
        evict_remaining [] (nodup_evictionOrder (nodup_finRange _)) hevict
      -- the order holds every resident, so with all of it gone nothing is left
      exact hfits.mpr fun d => by simp [remaining, mem_evictionOrder, Totals.of]

end Loams.Hot
