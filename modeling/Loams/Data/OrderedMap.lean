/-
# Ordered finite maps

Ordered maps are the standard library's extensional tree maps.
-/

import Mathlib.Data.List.Sort
import Mathlib.Algebra.BigOperators.Group.List.Basic
import Mathlib.Tactic.Linarith

namespace Loams.Data

open Std

variable {α β γ : Type*}

/-! ## Pairs as keys -/

instance instOrdPair [Ord α] [Ord β] : Ord (α × β) where
  compare := compareLex (compareOn Prod.fst) (compareOn Prod.snd)

section PairKeys

variable [Ord α] [Ord β]

theorem compare_pair (x y : α × β) : compare x y = (compare x.1 y.1).then (compare x.2 y.2) := rfl

instance instTransOrdPair [TransOrd α] [TransOrd β] : TransOrd (α × β) :=
  inferInstanceAs (TransCmp (compareLex (compareOn Prod.fst) (compareOn Prod.snd)))

instance instLawfulEqOrdPair [LawfulEqOrd α] [LawfulEqOrd β] : LawfulEqOrd (α × β) where
  compare_self {x} := by simp
  eq_of_compare {x y} h := by
    rw [compare_pair, Ordering.then_eq_eq] at h
    exact Prod.ext (LawfulEqOrd.eq_of_compare h.1) (LawfulEqOrd.eq_of_compare h.2)

end PairKeys

/-- An ordered map: one value per key, iterated in key order. -/
abbrev BTreeMap (α β : Type*) [Ord α] := ExtTreeMap α β compare

end Loams.Data

namespace Std.ExtTreeMap

variable {α β : Type*} {cmp : α → α → Ordering} [TransCmp cmp]
variable {m m' : ExtTreeMap α β cmp} {k k' : α} {v v' : β}

/-! ## Lookups -/

theorem mem_iff_get : k ∈ m ↔ ∃ v, m[k]? = some v := by
  rw [mem_iff_isSome_getElem?, Option.isSome_iff_exists]

theorem not_mem_iff_get : k ∉ m ↔ m[k]? = none := by
  rw [mem_iff_isSome_getElem?, Option.not_isSome_iff_eq_none]

theorem mem_of_get (h : m[k]? = some v) : k ∈ m := mem_iff_get.mpr ⟨v, h⟩

theorem nodup_toList (m : ExtTreeMap α β cmp) : m.toList.Nodup := by
  refine List.Nodup.of_map Prod.fst ?_
  rw [map_fst_toList_eq_keys]
  exact nodup_keys

theorem pairwise_fst_toList (m : ExtTreeMap α β cmp) : m.toList.Pairwise fun a b => a.1 ≠ b.1 :=
  m.distinct_keys_toList.imp fun {a b} h (heq : a.1 = b.1) => h (heq ▸ ReflCmp.compare_self)

variable [LawfulEqCmp cmp]

section DecidableKeys

/-- What holds of all entries holds of every lookup. -/
theorem forall_get {P : α → β → Prop} (h : ∀ e ∈ m.toList, P e.1 e.2) :
    ∀ k v, m[k]? = some v → P k v :=
  fun k v hv => h (k, v) (mem_toList_iff_getElem?_eq_some.mpr hv)

variable [DecidableEq α]

theorem get_insert (m : ExtTreeMap α β cmp) (k k' : α) (v : β) :
    (m.insert k v)[k']? = if k = k' then some v else m[k']? := by
  simp [getElem?_insert]

theorem get_erase (m : ExtTreeMap α β cmp) (k k' : α) :
    (m.erase k)[k']? = if k = k' then none else m[k']? := by
  simp [getElem?_erase]

theorem get_foldl_erase {γ : Type*} (f : γ → α) (l : List γ) (m : ExtTreeMap α β cmp) (k : α) :
    (l.foldl (fun m c => m.erase (f c)) m)[k]? = if k ∈ l.map f then none else m[k]? := by
  induction l generalizing m with
  | nil => simp
  | cons c l ih =>
    rw [List.foldl_cons, ih, get_erase]
    by_cases hc : k = f c
    · simp [hc]
    · simp [hc, Ne.symm hc]

theorem get_foldl_insert_of_forall_ne {γ : Type*} {key : γ → α} {val : γ → β} {l : List γ}
    (m : ExtTreeMap α β cmp) (h : ∀ c ∈ l, key c ≠ k) :
    (l.foldl (fun m c => m.insert (key c) (val c)) m)[k]? = m[k]? := by
  induction l generalizing m with
  | nil => rfl
  | cons c l ih =>
    rw [List.foldl_cons, ih _ fun d hd => h d (List.mem_cons_of_mem c hd), get_insert,
      if_neg (h c List.mem_cons_self)]

theorem get_foldl_insert_of_mem {γ : Type*} {key : γ → α} {val : γ → β} {l : List γ}
    (hl : l.Pairwise fun a b => key a ≠ key b) (m : ExtTreeMap α β cmp) {c : γ} (hc : c ∈ l) :
    (l.foldl (fun m c => m.insert (key c) (val c)) m)[key c]? = some (val c) := by
  obtain ⟨front, back, rfl⟩ := List.append_of_mem hc
  have hback := (List.pairwise_cons.mp (List.pairwise_append.mp hl).2.1).1
  rw [List.foldl_append, List.foldl_cons,
    get_foldl_insert_of_forall_ne _ fun d hd => (hback d hd).symm, get_insert, if_pos rfl]

/-- The entries of a map put into another one, over what was there. -/
theorem get_foldl_toList {γ : Type*} (f : γ → β) (m' : ExtTreeMap α γ cmp)
    (m : ExtTreeMap α β cmp) (k : α) :
    (m'.toList.foldl (fun m e => m.insert e.1 (f e.2)) m)[k]? = ((m'[k]?).map f).or m[k]? := by
  cases hget : m'[k]? with
  | some v =>
    exact get_foldl_insert_of_mem (pairwise_fst_toList m') m
      (mem_toList_iff_getElem?_eq_some.mpr hget)
  | none =>
    refine get_foldl_insert_of_forall_ne m fun e he heq => ?_
    cases (mem_toList_iff_getElem?_eq_some.mp he).symm.trans (heq ▸ hget)

end DecidableKeys

theorem mem_insert_iff : k' ∈ m.insert k v ↔ k = k' ∨ k' ∈ m := by
  rw [mem_insert, LawfulEqCmp.compare_eq_iff_eq]

theorem mem_insert_iff_of_get (h : m[k]? = some v) : k' ∈ m.insert k v' ↔ k' ∈ m := by
  rw [mem_insert_iff]
  exact or_iff_right_of_imp fun hk => hk ▸ mem_of_get h

theorem mem_erase_iff : k' ∈ m.erase k ↔ k ≠ k' ∧ k' ∈ m := by
  rw [mem_erase, ne_eq, LawfulEqCmp.compare_eq_iff_eq]

theorem get_insert_ne (h : k ≠ k') : (m.insert k v)[k']? = m[k']? := by
  simp [getElem?_insert, h]

theorem get_erase_ne (h : k ≠ k') : (m.erase k)[k']? = m[k']? := by
  simp [getElem?_erase, h]

theorem get_insert_eq_some : (m.insert k v)[k']? = some v' ↔
    k = k' ∧ v = v' ∨ k ≠ k' ∧ m[k']? = some v' := by
  by_cases hk : k = k' <;> simp [getElem?_insert, hk]

theorem get_erase_eq_some : (m.erase k)[k']? = some v ↔ k ≠ k' ∧ m[k']? = some v := by
  simp [getElem?_erase]

/-- An entry under a new key leaves the others in place. -/
theorem get_insert_of_get (hnone : m[k]? = none) (h : m[k']? = some v') :
    (m.insert k v)[k']? = some v' := by
  have hne : k ≠ k' := fun heq => by
    rw [heq, h] at hnone
    cases hnone
  rw [get_insert_ne hne, h]

theorem insert_eq_self (h : m[k]? = some v) : m.insert k v = m := by
  classical
  refine ext_getElem? fun k' => ?_
  rw [get_insert]
  split_ifs with hk
  · rw [← hk, h]
  · rfl

theorem erase_eq_self (h : m[k]? = none) : m.erase k = m := by
  classical
  refine ext_getElem? fun k' => ?_
  rw [get_erase]
  split_ifs with hk
  · rw [← hk, h]
  · rfl

/-- Replacing the value of a key splits off that key's entry. -/
theorem toList_insert_perm (m : ExtTreeMap α β cmp) (k : α) (v : β) :
    (m.insert k v).toList.Perm ((k, v) :: (m.erase k).toList) := by
  classical
  have hfresh : (k, v) ∉ (m.erase k).toList := by
    rw [mem_toList_iff_getElem?_eq_some, get_erase, if_pos rfl]
    simp
  refine (List.perm_ext_iff_of_nodup (nodup_toList _)
    ((nodup_toList _).cons hfresh)).mpr fun ⟨k', v'⟩ => ?_
  rw [List.mem_cons, mem_toList_iff_getElem?_eq_some, mem_toList_iff_getElem?_eq_some,
    get_insert, get_erase]
  by_cases h : k = k'
  · subst h
    simp [eq_comm]
  · simp [h, Ne.symm h]

/-- The entry of a present key splits off the rest of the map. -/
theorem toList_perm_of_get (h : m[k]? = some v) : m.toList.Perm ((k, v) :: (m.erase k).toList) := by
  have hperm := toList_insert_perm m k v
  rwa [insert_eq_self h] at hperm

/-! ## Maps as sorted lists -/

omit [LawfulEqCmp cmp] in
/-- A permutation of the entries that is in key order is the list of entries. -/
theorem toList_eq_of_perm {l : List (α × β)} (h : m.toList.Perm l)
    (hord : l.Pairwise fun a b => cmp a.1 b.1 = .lt) : m.toList = l := by
  refine h.eq_of_pairwise (fun a b _ _ hab hba => ?_) m.ordered_keys_toList hord
  have hswap : cmp a.1 b.1 = (cmp b.1 a.1).swap := OrientedCmp.eq_swap
  rw [hab, hba] at hswap
  cases hswap

theorem toList_erase_of_append {pre post : List (α × β)}
    (h : m.toList = pre ++ (k, v) :: post) : (m.erase k).toList = pre ++ post := by
  have hmem : (k, v) ∈ m.toList := h ▸ List.mem_append_right _ List.mem_cons_self
  have hperm := toList_perm_of_get (mem_toList_iff_getElem?_eq_some.mp hmem)
  have hord := m.ordered_keys_toList
  rw [h] at hperm hord
  refine toList_eq_of_perm ?_ (hord.sublist ?_)
  · exact ((List.perm_cons _).mp (hperm.symm.trans List.perm_middle))
  · exact List.Sublist.append_left (List.sublist_cons_self _ _) _

theorem toList_insert_of_append {pre post : List (α × β)} (h : m.toList = pre ++ post)
    (hord : (pre ++ (k, v) :: post).Pairwise fun a b => cmp a.1 b.1 = .lt) :
    (m.insert k v).toList = pre ++ (k, v) :: post := by
  have hfresh : m[k]? = none := by
    refine not_mem_iff_get.mp fun hk => ?_
    obtain ⟨w, hw⟩ := mem_iff_get.mp hk
    have hin := mem_toList_iff_getElem?_eq_some.mpr hw
    rw [h] at hin
    have hne : (pre ++ (k, v) :: post).Pairwise fun a b => a.1 ≠ b.1 :=
      hord.imp fun {a b} hab heq => by
        have hself : cmp b.1 b.1 = .eq := ReflCmp.compare_self
        rw [heq, hself] at hab
        cases hab
    have hfront := (List.pairwise_middle Ne.symm).mp hne
    exact List.rel_of_pairwise_cons hfront hin rfl
  refine toList_eq_of_perm ?_ hord
  have hperm := toList_insert_perm m k v
  rw [erase_eq_self hfresh, h] at hperm
  exact hperm.trans List.perm_middle.symm

/-! ## The entry with the least key -/

/-- The entry with the least key. -/
def first? (m : ExtTreeMap α β cmp) : Option (α × β) := m.toList.head?

/-! ## Weights of maps -/

/-- The sum of a weight over the entries of a map. -/
def total (m : ExtTreeMap α β cmp) (f : α → β → ℕ) : ℕ := (m.toList.map fun p => f p.1 p.2).sum

variable {f : α → β → ℕ}

omit [LawfulEqCmp cmp] in
@[simp] theorem total_empty : total (∅ : ExtTreeMap α β cmp) f = 0 := rfl

theorem total_erase_add (h : m[k]? = some v) : f k v + (m.erase k).total f = m.total f := by
  have hperm := (toList_perm_of_get h).map fun p => f p.1 p.2
  rw [total, total, hperm.sum_eq, List.map_cons, List.sum_cons]

theorem total_insert (m : ExtTreeMap α β cmp) (k : α) (v : β) :
    (m.insert k v).total f = f k v + (m.erase k).total f := by
  have hperm := (toList_insert_perm m k v).map fun p => f p.1 p.2
  rw [total, total, hperm.sum_eq, List.map_cons, List.sum_cons]

theorem total_insert_of_none (h : m[k]? = none) (v : β) :
    (m.insert k v).total f = f k v + m.total f := by
  rw [total_insert, erase_eq_self h]

theorem total_insert_of_some (h : m[k]? = some v') (v : β) :
    (m.insert k v).total f + f k v' = m.total f + f k v := by
  rw [total_insert, ← total_erase_add h]
  omega

theorem le_total (h : m[k]? = some v) : f k v ≤ m.total f := by
  rw [← total_erase_add h]
  omega

theorem total_eq_zero_iff : m.total f = 0 ↔ ∀ k v, m[k]? = some v → f k v = 0 := by
  constructor
  · intro h k v hkv
    have hle := le_total (f := f) hkv
    omega
  · intro h
    rw [total, List.sum_eq_zero]
    intro n hn
    obtain ⟨p, hp, rfl⟩ := List.mem_map.mp hn
    exact h _ _ (mem_toList_iff_getElem?_eq_some.mp hp)

end Std.ExtTreeMap
