/-
# The least elements in order

The `k` least elements of a multiset are found part by part.
-/

import Mathlib.Data.Multiset.Sort

namespace Loams.Data

open List

variable {α : Type*}

theorem take_merge_take (le : α → α → Bool) (k : ℕ) (l r : List α) :
    ((l.take k).merge r le).take k = (l.merge r le).take k := by
  induction k generalizing l r with
  | zero => simp
  | succ k ih =>
    cases l with
    | nil => rfl
    | cons a l =>
      cases r with
      | nil => simp
      | cons b r =>
        rw [take_succ_cons, cons_merge_cons, cons_merge_cons]
        split_ifs
        · rw [take_succ_cons, take_succ_cons, ih]
        · -- the first list has lost nothing, and one element fewer is wanted of it
          have htake : (a :: l.take k).take k = (a :: l).take k := by
            rw [← take_succ_cons, take_take, Nat.min_eq_left k.le_succ]
          rw [take_succ_cons, take_succ_cons, ← ih (a :: l), ← htake, ih]

variable [LinearOrder α] {k : ℕ} {a : α} {l : List α} {s t : Multiset α}

/-- The `k` least elements, in order. -/
def least (k : ℕ) (s : Multiset α) : List α := s.sort.take k

theorem sort_coe_eq (h : l.Pairwise (· ≤ ·)) : (l : Multiset α).sort = l :=
  mergeSort_eq_self _ h

theorem sort_add (s t : Multiset α) : (s + t).sort = s.sort.merge t.sort (· ≤ ·) := by
  refine Perm.eq_of_pairwise' ((s + t).pairwise_sort _)
    ((s.pairwise_sort _).merge (t.pairwise_sort _)) ?_
  refine (Multiset.coe_eq_coe.mp ?_).trans (merge_perm_append _).symm
  rw [← Multiset.coe_add, Multiset.sort_eq, Multiset.sort_eq, Multiset.sort_eq]

theorem pairwise_least : (least k s).Pairwise (· ≤ ·) := (s.pairwise_sort _).take

/-- Only the least elements of a part matter. -/
theorem least_least_add (k : ℕ) (s t : Multiset α) :
    least k ((least k s : Multiset α) + t) = least k (s + t) := by
  rw [least, sort_add, sort_coe_eq pairwise_least, least, take_merge_take, ← sort_add, least]

theorem least_cons : least k (a ::ₘ s) = ((least k s).orderedInsert (· ≤ ·) a).take k := by
  rw [← Multiset.singleton_add, Multiset.add_comm, ← least_least_add, least]
  congr 1
  refine Perm.eq_of_pairwise' (Multiset.pairwise_sort _ _) (pairwise_least.orderedInsert a _) ?_
  refine (Multiset.coe_eq_coe.mp ?_).trans (perm_orderedInsert _ a _).symm
  rw [Multiset.sort_eq, Multiset.add_comm]
  rfl

end Loams.Data
