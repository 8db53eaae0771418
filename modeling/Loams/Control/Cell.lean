/-
# One key of a multi-version store

A cell holds the committed versions of one key, the largest timestamp it was read at and the
writes whose fate nobody knows.
-/

import Mathlib.Data.List.Basic

namespace Loams.Control

open List

variable {β : Type*}

/-- A write of a key by a transaction that started at `start`. -/
structure Write (β : Type*) where
  start : ℕ
  value : β
  deriving DecidableEq

/-- The versions of one value and the writes to it that are under way. -/
structure Cell (β : Type*) where
  /-- Newest first, with their commit timestamps. -/
  versions : List (ℕ × β) := []
  maxRead : ℕ := 0
  inflight : List (Write β) := []

namespace Cell

variable (c : Cell β)

/-- Whether a transaction that started at `start` may commit a write of the key at `ts`. -/
def admits (start ts : ℕ) : Bool :=
  start < ts && c.maxRead < ts && c.versions.all fun v => v.1 ≤ start

/-- A write lands. -/
def put (ts : ℕ) (value : β) : Cell β :=
  { c with versions := (ts, value) :: c.versions }

/-- A write whose outcome is not known to its sender. -/
def send (w : Write β) : Cell β := { c with inflight := w :: c.inflight }

/-- The value that a read at `ts` sees. -/
def get (ts : ℕ) : Option β := (c.versions.find? fun v => v.1 ≤ ts).map (·.2)

/-- No write commits at or below a timestamp the key was read at. -/
def readAt (ts : ℕ) : Cell β := { c with maxRead := max c.maxRead ts }

variable {c : Cell β} {start ts : ℕ} {value : β} {w : Write β}

@[simp] theorem put_versions : (c.put ts value).versions = (ts, value) :: c.versions := rfl
@[simp] theorem put_maxRead : (c.put ts value).maxRead = c.maxRead := rfl
@[simp] theorem put_inflight : (c.put ts value).inflight = c.inflight := rfl
@[simp] theorem send_versions : (c.send w).versions = c.versions := rfl
@[simp] theorem send_maxRead : (c.send w).maxRead = c.maxRead := rfl
@[simp] theorem send_inflight : (c.send w).inflight = w :: c.inflight := rfl
@[simp] theorem readAt_versions : (c.readAt ts).versions = c.versions := rfl
@[simp] theorem readAt_inflight : (c.readAt ts).inflight = c.inflight := rfl
@[simp] theorem readAt_maxRead : (c.readAt ts).maxRead = max c.maxRead ts := rfl

theorem admits_iff : c.admits start ts = true ↔
    start < ts ∧ c.maxRead < ts ∧ ∀ v ∈ c.versions, v.1 ≤ start := by
  simp [admits, and_assoc]

theorem get_eq_none : c.get ts = none ↔ ∀ v ∈ c.versions, ts < v.1 := by
  simp [get]

theorem mem_of_get (h : c.get ts = some value) : ∃ v ∈ c.versions, v.2 = value := by
  obtain ⟨v, hv, rfl⟩ := Option.map_eq_some_iff.mp h
  exact ⟨v, mem_of_find?_eq_some hv, rfl⟩

/-! ## Guarded cells -/

/-- Every version is newer than the start of every write in flight, and so will be a
version that one of these writes makes. -/
structure Guarded (c : Cell β) : Prop where
  newer : ∀ w ∈ c.inflight, ∀ v ∈ c.versions, w.start < v.1
  reach : ∀ w ∈ c.inflight, ∀ w' ∈ c.inflight, w' = w ∨ w'.start ≤ c.maxRead

/-- Nothing was ever written to the cell. -/
def Fresh : Prop := c.versions = [] ∧ c.inflight = []

theorem Fresh.guarded (h : c.Fresh) : c.Guarded where
  newer w hw := by simp [h.2] at hw
  reach w hw := by simp [h.2] at hw

theorem Fresh.admits_iff (h : c.Fresh) :
    c.admits start ts = true ↔ start < ts ∧ c.maxRead < ts := by
  simp [Cell.admits_iff, h.1]

namespace Guarded

/-- A write in flight lands only where nothing has landed. -/
theorem versions_eq_nil (h : c.Guarded) (hw : w ∈ c.inflight)
    (hadmits : c.admits w.start ts = true) : c.versions = [] := by
  obtain ⟨-, -, hold⟩ := admits_iff.mp hadmits
  rw [eq_nil_iff_forall_not_mem]
  intro v hv
  exact absurd (h.newer w hw v hv) (Nat.not_lt.mpr (hold v hv))

theorem land (h : c.Guarded) (hw : w ∈ c.inflight) (hadmits : c.admits w.start ts = true) :
    (c.put ts value).Guarded where
  newer w' hw' v hv := by
    obtain ⟨hstart, hread, -⟩ := admits_iff.mp hadmits
    rw [put_versions, h.versions_eq_nil hw hadmits, mem_singleton] at hv
    subst hv
    -- another write in flight started before the last read, which the new version is above
    rcases h.reach w hw w' hw' with rfl | hle
    · exact hstart
    · exact Nat.lt_of_le_of_lt hle hread
  reach := h.reach

/-- A write that is acknowledged at once, by a transaction that has seen all writes in
flight start. -/
theorem put (h : c.Guarded) (hseen : ∀ w ∈ c.inflight, w.start ≤ c.maxRead)
    (hread : c.maxRead < ts) : (c.put ts value).Guarded where
  newer w hw v hv := by
    rcases mem_cons.mp hv with rfl | hv
    · exact Nat.lt_of_le_of_lt (hseen w hw) hread
    · exact h.newer w hw v hv
  reach := h.reach

theorem send (h : c.Guarded) (hseen : ∀ w ∈ c.inflight, w.start ≤ c.maxRead)
    (hnewer : ∀ v ∈ c.versions, w.start < v.1) (hread : w.start ≤ c.maxRead) :
    (c.send w).Guarded where
  newer w' hw' v hv := by
    rcases mem_cons.mp hw' with rfl | hw'
    · exact hnewer v hv
    · exact h.newer w' hw' v hv
  reach _ _ w' hw' := by
    rcases mem_cons.mp hw' with rfl | hw'
    · exact .inr hread
    · exact .inr (hseen w' hw')

theorem readAt (h : c.Guarded) : (c.readAt ts).Guarded where
  newer := h.newer
  reach w hw w' hw' :=
    (h.reach w hw w' hw').imp_right fun hle => Nat.le_trans hle (Nat.le_max_left _ _)

end Guarded

theorem Fresh.send_guarded (h : c.Fresh) : (c.send w).Guarded where
  newer _ _ v hv := by simp [h.1] at hv
  reach a ha b hb := by
    simp only [send_inflight, h.2, mem_singleton] at ha hb
    exact .inl (hb.trans ha.symm)

end Cell

end Loams.Control
