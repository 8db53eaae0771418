/-
# The manifest chain
-/

import Loams.Collection.Manifest

namespace Loams.Collection

open List Loams.Control Loams.Meta

/-- How a manifest is read: its object may be gone. -/
abbrev Load := ObjectPath → Except CollectionError CollectionManifest

/-- The manifest that the pointer of collection `cid` names, which must be that
collection's manifest at the pointer's version. -/
def loadPointed (load : Load) (ns cid : ℕ) (pointer : Pointer) :
    Except CollectionError CollectionManifest := do
  let manifest ← load pointer.value
  require (manifest.version = pointer.version ∧ manifest.collectionId = cid)
    (.corrupt (s!"{pointer.value.text ns cid} is version {manifest.version} of collection " ++
      s!"{manifest.collectionId}, but the pointer of collection {cid} is at version " ++
      s!"{pointer.version}"))
  pure manifest

/-- How long superseded manifests stay readable. -/
structure Retention where
  keepManifests : ℕ
  timeTravelMs : ℕ

/-- Whether a manifest was created less than the retention before the clock. -/
def CollectionManifest.isYoung (m : CollectionManifest) (r : Retention) (clockMs : ℕ) : Bool :=
  clockMs < satAdd m.createdAtMs r.timeTravelMs

section Walk

variable (load : Load) (ns : ℕ) (r : Retention) (clockMs : ℕ)

/-- The retained ancestors of a manifest, whose own ancestors start at `distance` from the
live one. The number of rounds bounds the walk; it does not run out on a chain whose
versions decrease. -/
def retainedAncestors : (rounds distance : ℕ) → ObjectPath × CollectionManifest →
    Except CollectionError (List (ObjectPath × CollectionManifest))
  | 0, _, child =>
    .error (.internal s!"the ancestors of {child.1.text ns child.2.collectionId} do not end")
  | rounds + 1, distance, child =>
    match child.2.parentManifest with
    | none => .ok []
    | some parentPath =>
      if r.keepManifests < distance ∧ child.2.isYoung r clockMs = false then .ok []
      else
        match load parentPath with
        | .error (.storeNotFound _) => .ok []
        | .error err => .error err
        | .ok parent =>
          if parent.version ≠ child.2.parentVersion ∨
              parent.collectionId ≠ child.2.collectionId then
            .error (.corrupt (s!"{child.1.text ns child.2.collectionId} names parent " ++
              s!"{parentPath.text ns child.2.collectionId}, which is version {parent.version} " ++
              s!"of collection {parent.collectionId}, not version {child.2.parentVersion} of " ++
              s!"collection {child.2.collectionId}"))
          else do
            let older ← retainedAncestors rounds (distance + 1) (parentPath, parent)
            pure ((parentPath, parent) :: older)

/-- The live manifest and its retained ancestors, newest first. -/
def retainedChain (live : ObjectPath × CollectionManifest) :
    Except CollectionError (List (ObjectPath × CollectionManifest)) := do
  let ancestors ← retainedAncestors load ns r clockMs (live.2.version + 1) 1 live
  pure (live :: ancestors)

end Walk

/-! ## Histories -/

/-- The manifests that were committed to a collection, newest first. -/
abbrev History := List (ObjectPath × CollectionManifest)

/-- The version and the path of the newest manifest. -/
def History.pointer : History → Option Pointer
  | [] => none
  | (path, _) :: older => some ⟨older.length + 1, path⟩

/-- A manifest of collection `cid` that is built on the newest of `older` and does not
take back what that one applied. -/
structure Extends (cid : ℕ) (older : History) (m : CollectionManifest) : Prop where
  version : m.version = older.length + 1
  parentVersion : m.parentVersion = older.length
  parentManifest : m.parentManifest = older.head?.map Prod.fst
  collectionId : m.collectionId = cid
  applied : ∀ parent ∈ older.head?, ∀ p, parent.2.appliedAt p ≤ m.appliedAt p

/-- Each manifest extends those before it. -/
def Chained (cid : ℕ) : History → Prop
  | [] => True
  | x :: older => Extends cid older x.2 ∧ Chained cid older

section Chained

variable {cid : ℕ} {new older : History} {x y : ObjectPath × CollectionManifest}

theorem Chained.of_append (h : Chained cid (new ++ older)) : Chained cid older := by
  induction new with
  | nil => exact h
  | cons x new ih => exact ih h.2

theorem Chained.version_le (h : Chained cid older) (hy : y ∈ older) :
    y.2.version ≤ older.length := by
  induction older with
  | nil => cases hy
  | cons x older ih =>
    rw [length_cons]
    rcases mem_cons.mp hy with rfl | hy
    · exact h.1.version.le
    · exact (ih h.2 hy).trans (Nat.le_succ _)

theorem Chained.lt_version (h : Chained cid (new ++ older)) (hy : y ∈ new) :
    older.length < y.2.version := by
  induction new with
  | nil => cases hy
  | cons x new ih =>
    rcases mem_cons.mp hy with rfl | hy
    · have hversion : y.2.version = (new ++ older).length + 1 := h.1.version
      rw [hversion, length_append]
      omega
    · exact ih h.2 hy

/-- A manifest of the older part is not one of the newer. -/
theorem Chained.not_mem_new (h : Chained cid (new ++ older)) (hy : y ∈ older) : y ∉ new :=
  fun hnew => absurd (h.of_append.version_le hy) (Nat.not_le.mpr (h.lt_version hnew))

/-- What a manifest has applied, every later one has. -/
theorem Chained.appliedAt_le (h : Chained cid (x :: older)) (hy : y ∈ older) (p : ℕ) :
    y.2.appliedAt p ≤ x.2.appliedAt p := by
  induction older generalizing x with
  | nil => cases hy
  | cons z older ih =>
    have hz : z.2.appliedAt p ≤ x.2.appliedAt p := h.1.applied z rfl p
    rcases mem_cons.mp hy with rfl | hy
    · exact hz
    · exact (ih h.2 hy).trans hz

theorem Chained.pairwise_appliedAt (h : Chained cid older) (p : ℕ) :
    older.Pairwise fun x y => y.2.appliedAt p ≤ x.2.appliedAt p := by
  induction older with
  | nil => exact Pairwise.nil
  | cons x older ih => exact List.Pairwise.cons (fun y hy => h.appliedAt_le hy p) (ih h.2)

end Chained

/-! ## What the walk returns -/

variable {m : CollectionManifest}

section Retained

variable (r : Retention) (clockMs : ℕ) (stored : ObjectPath → Bool)

/-- The manifests that a walk returns after `child`, from those before it. -/
def retainedOlder : (distance : ℕ) → CollectionManifest → History → History
  | _, _, [] => []
  | distance, child, y :: older =>
    if (distance ≤ r.keepManifests ∨ child.isYoung r clockMs) ∧ stored y.1 then
      y :: retainedOlder (distance + 1) y.2 older
    else []

/-- The retained part of a history of which only the stored manifests can be read. -/
def retained : History → History
  | [] => []
  | x :: older => x :: retainedOlder r clockMs stored 1 x.2 older

variable {r clockMs stored} {clockMs' : ℕ} {stored' : ObjectPath → Bool}

section

variable (hclock : clockMs ≤ clockMs') (hstored : ∀ p, stored' p → stored p)
include hclock hstored

/-- A walk farther from the live manifest, at a later time or with fewer manifests left
returns no more. -/
theorem retainedOlder_subset
    {d d' : ℕ} (hd : d ≤ d') (child : CollectionManifest) (older : History) :
    retainedOlder r clockMs' stored' d' child older ⊆
      retainedOlder r clockMs stored d child older := by
  induction older generalizing d d' child with
  | nil => exact fun _ h => h
  | cons y older ih =>
    unfold retainedOlder
    split_ifs with hlater hnow
    · exact cons_subset_cons y (ih (Nat.succ_le_succ hd) y.2)
    · -- the earlier walk goes on wherever the later one does
      refine absurd ⟨?_, hstored _ hlater.2⟩ hnow
      exact hlater.1.imp hd.trans fun hyoung =>
        decide_eq_true (hclock.trans_lt (of_decide_eq_true hyoung))
    · exact nil_subset _
    · exact nil_subset _

theorem retainedOlder_subset_retained (d : ℕ) (child : CollectionManifest) (older : History) :
    retainedOlder r clockMs' stored' d child older ⊆ retained r clockMs stored older := by
  cases older with
  | nil => exact fun _ h => h
  | cons y older =>
    unfold retainedOlder retained
    split_ifs
    · exact cons_subset_cons y (retainedOlder_subset hclock hstored (Nat.le_add_left 1 d) y.2 older)
    · exact nil_subset _

/-- What is retained later is new or was retained before. -/
theorem mem_retained_append {new older : History} {y : ObjectPath × CollectionManifest}
    (h : y ∈ retained r clockMs' stored' (new ++ older)) :
    y ∈ new ∨ y ∈ retained r clockMs stored older := by
  induction new generalizing clockMs' stored' with
  | nil =>
    refine .inr ?_
    cases older with
    | nil => exact h
    | cons x older =>
      exact cons_subset_cons x (retainedOlder_subset hclock hstored le_rfl x.2 older) h
  | cons x new ih =>
    rcases mem_cons.mp h with rfl | h
    · exact .inl mem_cons_self
    · refine (ih hclock hstored
        (retainedOlder_subset_retained le_rfl (fun _ h => h) 1 x.2 _ h)).imp_left ?_
      exact mem_cons_of_mem x

end

theorem retainedOlder_sublist (d : ℕ) (child : CollectionManifest) (older : History) :
    (retainedOlder r clockMs stored d child older).Sublist older := by
  induction older generalizing d child with
  | nil => exact Sublist.slnil
  | cons y older ih =>
    unfold retainedOlder
    split_ifs
    · exact (ih (d + 1) y.2).cons_cons y
    · exact nil_sublist _

theorem retained_sublist (h : History) : (retained r clockMs stored h).Sublist h := by
  cases h with
  | nil => exact Sublist.slnil
  | cons x older => exact (retainedOlder_sublist 1 x.2 older).cons_cons x

end Retained

section Spec

variable {load : Load} {ns cid : ℕ} {r : Retention} {clockMs : ℕ} {stored : ObjectPath → Bool}

/-- Reading the manifests of a history: those stored are as they were committed, the
others are not found. -/
def Reads (load : Load) (stored : ObjectPath → Bool) (h : History) : Prop :=
  ∀ y ∈ h, (stored y.1 = true ∧ load y.1 = .ok y.2) ∨
    (stored y.1 = false ∧ ∃ what, load y.1 = .error (.storeNotFound what))

/-- The walk over the parents returns the retained ancestors. -/
theorem retainedAncestors_eq {x : ObjectPath × CollectionManifest} {older : History}
    (h : Chained cid (x :: older)) (hreads : Reads load stored older) {rounds distance : ℕ}
    (hrounds : older.length < rounds) :
    retainedAncestors load ns r clockMs rounds distance x =
      .ok (retainedOlder r clockMs stored distance x.2 older) := by
  induction older generalizing x rounds distance with
  | nil =>
    obtain ⟨rounds, rfl⟩ := Nat.exists_eq_add_of_lt hrounds
    simp only [retainedAncestors, h.1.parentManifest]
    rfl
  | cons y older ih =>
    obtain ⟨rounds, rfl⟩ := Nat.exists_eq_succ_of_ne_zero (Nat.ne_zero_of_lt hrounds)
    have hparent : x.2.parentManifest = some y.1 := h.1.parentManifest
    have htail : retainedAncestors load ns r clockMs rounds (distance + 1) y =
        .ok (retainedOlder r clockMs stored (distance + 1) y.2 older) :=
      ih h.2 (fun z hz => hreads z (mem_cons_of_mem y hz)) (Nat.lt_of_succ_lt_succ hrounds)
    unfold retainedAncestors retainedOlder
    rw [hparent]
    dsimp only
    have hstop : (r.keepManifests < distance ∧ x.2.isYoung r clockMs = false) ↔
        ¬(distance ≤ r.keepManifests ∨ x.2.isYoung r clockMs) := by
      rw [not_or, Nat.not_le, Bool.not_eq_true]
    simp only [hstop, ite_not]
    by_cases hkeep : distance ≤ r.keepManifests ∨ x.2.isYoung r clockMs
    · rw [if_pos hkeep]
      rcases hreads y mem_cons_self with ⟨hstored, hload⟩ | ⟨hgone, what, hload⟩
      · have hsame : ¬(y.2.version ≠ x.2.parentVersion ∨ y.2.collectionId ≠ x.2.collectionId) := by
          rw [h.1.parentVersion, h.2.1.version, h.1.collectionId, h.2.1.collectionId]
          simp
        rw [hload, if_pos ⟨hkeep, hstored⟩]
        dsimp only
        rw [if_neg hsame, htail]
        rfl
      · rw [hload, if_neg (by simp [hgone])]
    · rw [if_neg hkeep, if_neg fun h => hkeep h.1]

/-- On a committed history the walk from the newest manifest returns the retained part. -/
theorem retainedChain_eq {x : ObjectPath × CollectionManifest} {older : History}
    (h : Chained cid (x :: older)) (hreads : Reads load stored older) :
    retainedChain load ns r clockMs x = .ok (retained r clockMs stored (x :: older)) := by
  have hrounds : older.length < x.2.version + 1 := by
    rw [h.1.version]
    omega
  rw [retainedChain, retainedAncestors_eq h hreads hrounds]
  rfl

theorem loadPointed_eq {path : ObjectPath} {older : History} (h : Chained cid ((path, m) :: older))
    (hload : load path = .ok m) : loadPointed load ns cid ⟨older.length + 1, path⟩ = .ok m := by
  refine except_bind_ok.mpr ⟨m, hload, ?_⟩
  exact except_bind_ok.mpr ⟨(), require_eq_ok.mpr ⟨h.1.version, h.1.collectionId⟩, rfl⟩

end Spec

end Loams.Collection
