/-
# Maps in insertion order
-/

import Mathlib.Data.List.Nodup

namespace Loams.Data.IndexMap

open List

variable {κ α : Type} [DecidableEq κ] {m : List (κ × α)} {k k' : κ} {v : α}

/-- A new key goes to the end, a known one keeps its place. -/
def insert (k : κ) (v : α) : List (κ × α) → List (κ × α)
  | [] => [(k, v)]
  | entry :: rest => if entry.1 = k then (k, v) :: rest else entry :: insert k v rest

/-- The others keep their order. -/
def remove (k : κ) (m : List (κ × α)) : List (κ × α) := m.filter (·.1 ≠ k)

/-- The keys are distinct. -/
def Unique (m : List (κ × α)) : Prop := (m.map Prod.fst).Nodup

instance : Decidable (Unique m) := inferInstanceAs (Decidable (m.map Prod.fst).Nodup)

theorem lookup_insert : (insert k v m).lookup k' = if k' = k then some v else m.lookup k' := by
  induction m with
  | nil => simp [insert, lookup_cons]; grind
  | cons entry rest ih =>
    obtain ⟨k₁, v₁⟩ := entry
    grind [insert]

theorem lookup_remove : (remove k m).lookup k' = if k' = k then none else m.lookup k' := by
  induction m with
  | nil => simp [remove]
  | cons entry rest ih =>
    obtain ⟨k₁, v₁⟩ := entry
    grind [remove]

theorem mem_of_lookup (h : m.lookup k = some v) : (k, v) ∈ m := by
  induction m with
  | nil => simp at h
  | cons entry rest ih =>
    obtain ⟨k₁, v₁⟩ := entry
    grind

theorem mem_insert {entry : κ × α} (h : entry ∈ insert k v m) : entry = (k, v) ∨ entry ∈ m := by
  induction m with
  | nil => simpa [insert] using h
  | cons entry' rest ih =>
    rw [insert] at h
    split_ifs at h <;> grind

theorem keys_insert : ∀ k₁ ∈ (insert k v m).map Prod.fst, k₁ = k ∨ k₁ ∈ m.map Prod.fst := by
  intro k₁ h
  obtain ⟨entry, hentry, rfl⟩ := mem_map.mp h
  rcases mem_insert hentry with rfl | hmem
  · exact .inl rfl
  · exact .inr (mem_map_of_mem hmem)

theorem Unique.insert (h : Unique m) : Unique (insert k v m) := by
  induction m with
  | nil => simp [IndexMap.insert, Unique]
  | cons entry rest ih =>
    have hcons := nodup_cons.mp h
    rw [IndexMap.insert]
    split_ifs with hk
    · subst hk
      exact h
    · refine nodup_cons.mpr ⟨fun hmem => ?_, ih hcons.2⟩
      rcases keys_insert _ hmem with heq | hmem
      · exact hk heq
      · exact hcons.1 hmem

theorem Unique.remove (h : Unique m) : Unique (remove k m) :=
  h.sublist (filter_sublist.map _)

end Loams.Data.IndexMap
