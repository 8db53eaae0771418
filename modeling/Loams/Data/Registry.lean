/-
# Registries

A registry keeps records by id, with a second map from their keys to their ids.
-/

import Loams.Data.OrderedMap

namespace Loams.Data

open Std Std.ExtTreeMap

variable {α κ : Type*} [Ord κ] [TransOrd κ]

/-- Ids and keys are in bijection, and every id is at most the last one. -/
structure Consistent (idOf : α → ℕ) (keyOf : α → κ) (last : ℕ) (byId : BTreeMap ℕ α)
    (byKey : BTreeMap κ ℕ) : Prop where
  record : ∀ (id : ℕ) (a : α), byId[id]? = some a → idOf a = id ∧ byKey[keyOf a]? = some id
  key : ∀ (k : κ) (id : ℕ), byKey[k]? = some id → ∃ a, byId[id]? = some a ∧ keyOf a = k
  bound : ∀ id : ℕ, id ∈ byId → id ≤ last

namespace Consistent

variable {idOf : α → ℕ} {keyOf : α → κ} {last : ℕ} {byId : BTreeMap ℕ α} {byKey : BTreeMap κ ℕ}
variable {a b : α} {id id' : ℕ} {k : κ}

theorem empty : Consistent idOf keyOf 0 ∅ ∅ where
  record id a h := by simp at h
  key k id h := by simp at h
  bound id h := by simp at h

section

variable (h : Consistent idOf keyOf last byId byKey)
include h

/-- Records with the same key are the same record. -/
theorem id_eq_of_key_eq (ha : byId[id]? = some a) (hb : byId[id']? = some b)
    (hkey : keyOf a = keyOf b) : id = id' := by
  have hid := (h.record id a ha).2
  rw [hkey, (h.record id' b hb).2] at hid
  exact (Option.some.inj hid).symm

theorem get_succ_last : byId[last + 1]? = none :=
  not_mem_iff_get.mp fun hmem => absurd (h.bound _ hmem) (Nat.not_succ_le_self _)

/-- A record is replaced by one with the same id and key. -/
theorem replace (ha : byId[id]? = some a) (hid : idOf b = idOf a) (hkey : keyOf b = keyOf a) :
    Consistent idOf keyOf last (byId.insert id b) byKey where
  record id' c hc := by
    rcases get_insert_eq_some.mp hc with ⟨rfl, rfl⟩ | ⟨-, hc⟩
    · rw [hid, hkey]
      exact h.record id a ha
    · exact h.record id' c hc
  key k id' hk := by
    obtain ⟨c, hc, hkeyc⟩ := h.key k id' hk
    by_cases heq : id = id'
    · subst heq
      obtain rfl := Option.some.inj (ha.symm.trans hc)
      exact ⟨b, getElem?_insert_self, hkey.trans hkeyc⟩
    · exact ⟨c, (get_insert_ne heq).trans hc, hkeyc⟩
  bound id' hid' := by
    rcases mem_insert_iff.mp hid' with rfl | hmem
    · exact h.bound id (mem_of_get ha)
    · exact h.bound id' hmem

end

variable [LawfulEqOrd κ]

/-- A new record takes the next id and a free key. -/
theorem insert (h : Consistent idOf keyOf last byId byKey)
    (hfree : byKey[keyOf a]? = none) (hid : idOf a = last + 1) :
    Consistent idOf keyOf (last + 1) (byId.insert (last + 1) a)
      (byKey.insert (keyOf a) (last + 1)) where
  record id b hb := by
    rcases get_insert_eq_some.mp hb with ⟨rfl, rfl⟩ | ⟨-, hb⟩
    · exact ⟨hid, getElem?_insert_self⟩
    · obtain ⟨hidb, hkeyb⟩ := h.record id b hb
      refine ⟨hidb, ?_⟩
      have hne : keyOf a ≠ keyOf b := fun hkey => by
        rw [hkey, hkeyb] at hfree
        cases hfree
      rw [get_insert_ne hne, hkeyb]
  key k id hk := by
    rcases get_insert_eq_some.mp hk with ⟨rfl, rfl⟩ | ⟨-, hk⟩
    · exact ⟨a, getElem?_insert_self, rfl⟩
    · obtain ⟨b, hb, hkeyb⟩ := h.key k id hk
      have hne : last + 1 ≠ id := fun hlast => by
        have hbound := h.bound id (mem_of_get hb)
        omega
      exact ⟨b, (get_insert_ne hne).trans hb, hkeyb⟩
  bound id hid' := by
    rcases mem_insert_iff.mp hid' with heq | hmem
    · exact heq.ge
    · exact (h.bound id hmem).trans (Nat.le_succ _)

/-- A record is removed with its key. -/
theorem erase (h : Consistent idOf keyOf last byId byKey) (ha : byId[id]? = some a) :
    Consistent idOf keyOf last (byId.erase id) (byKey.erase (keyOf a)) where
  record id' b hb := by
    obtain ⟨heq, hb⟩ := get_erase_eq_some.mp hb
    obtain ⟨hidb, hkeyb⟩ := h.record id' b hb
    refine ⟨hidb, ?_⟩
    have hne : keyOf a ≠ keyOf b := fun hkey => heq (h.id_eq_of_key_eq ha hb hkey)
    rw [get_erase_ne hne, hkeyb]
  key k id' hk := by
    obtain ⟨heq, hk⟩ := get_erase_eq_some.mp hk
    obtain ⟨b, hb, hkeyb⟩ := h.key k id' hk
    have hne : id ≠ id' := fun hid => by
      obtain rfl := Option.some.inj ((hid ▸ ha).symm.trans hb)
      exact heq hkeyb
    exact ⟨b, (get_erase_ne hne).trans hb, hkeyb⟩
  bound id' hid' := h.bound id' (mem_of_mem_erase hid')

end Consistent

end Loams.Data
