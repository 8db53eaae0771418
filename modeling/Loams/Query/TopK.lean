/-
# The best hits of a view

Each unit of a view keeps its best hits in a heap, and the same heap merges the units.
-/

import Loams.Data.Least
import Mathlib.Data.Prod.Lex

namespace Loams.Query

open List Loams.Data

variable {Score Key : Type} [LinearOrder Score] [LinearOrder Key]

/-- A scored row of the view. -/
structure Scored (Score Key : Type) where
  rowId : ℕ
  pk : Key
  score : Score

/-- The output order: score descending, then key ascending. -/
def rank (a b : Scored Score Key) : Ordering :=
  (compare b.score a.score).then ((compare a.pk b.pk).then (compare a.rowId b.rowId))

/-- Hits in the output order: of two of them the better one is the lesser. -/
instance : LinearOrder (Scored Score Key) :=
  LinearOrder.lift' (fun a => toLex (OrderDual.toDual a.score, toLex (a.pk, a.rowId)))
    fun a b h => by
    cases a
    cases b
    simp_all

variable {a b hit : Scored Score Key} {k : ℕ}
  {seen : Multiset (Scored Score Key)}

theorem rank_eq_lt : rank a b = .lt ↔ a < b := by
  have hlt : a < b ↔ b.score < a.score ∨ a.score = b.score ∧
      (a.pk < b.pk ∨ a.pk = b.pk ∧ a.rowId < b.rowId) := by
    refine (Prod.Lex.lt_iff ..).trans (or_congr Iff.rfl (and_congr Iff.rfl (Prod.Lex.lt_iff ..)))
  simp only [hlt, rank, Ordering.then_eq_lt, compare_lt_iff_lt, compare_eq_iff_eq,
    eq_comm (a := b.score)]

/-- The best `k` hits seen. A `BinaryHeap` is the list of its elements in order, so its
greatest element is the last one. -/
structure TopK (Score Key : Type) where
  k : ℕ
  heap : List (Scored Score Key)

variable {top : TopK Score Key}

namespace TopK

/-- No hits yet. -/
def new (k : ℕ) : TopK Score Key := ⟨k, []⟩

/-- Whether a hit with the score may enter: not when it is certainly worse than the worst
one of a full heap, while keys break ties. -/
def mayAdmit (top : TopK Score Key) (score : Score) : Bool :=
  if top.k = 0 then false
  else match top.heap.getLast? with
    | some worst => if top.heap.length = top.k then compare score worst.score ≠ .lt else true
    | none => true

/-- A hit enters unless it is worse than all of a full heap. -/
def push (top : TopK Score Key) (hit : Scored Score Key) : TopK Score Key :=
  if top.k = 0 then top
  else if top.heap.length = top.k ∧ ∃ worst ∈ top.heap.getLast?, rank hit worst ≠ .lt then top
  else
    let heap := top.heap.orderedInsert (· ≤ ·) hit
    { top with heap := if top.k < heap.length then heap.dropLast else heap }

/-- The hits, best first. -/
def intoSorted (top : TopK Score Key) : List (Scored Score Key) := top.heap

end TopK

/-- Merges hit lists into the best `k`. -/
def best (k : ℕ) (lists : List (List (Scored Score Key))) : List (Scored Score Key) :=
  (lists.foldl (foldl TopK.push) (TopK.new k)).intoSorted

/-- The best `k` of one unit, from its hits in the order they are found in. -/
def unitTop (k : ℕ) (hits : List (Scored Score Key)) : List (Scored Score Key) :=
  (hits.foldl (fun top hit => if top.mayAdmit hit.score then top.push hit else top)
    (TopK.new k)).intoSorted

/-- What the score alone refuses would not be kept. -/
theorem TopK.push_of_not_mayAdmit (h : top.mayAdmit hit.score = false) : top.push hit = top := by
  rw [push]
  split_ifs with hk hfull
  · rfl
  · rfl
  · refine absurd ?_ hfull
    rw [mayAdmit, if_neg hk] at h
    cases hworst : top.heap.getLast? with
    | none => simp [hworst] at h
    | some worst =>
      simp only [hworst] at h
      split_ifs at h with hlen
      have hscore : compare hit.score worst.score = .lt := by simpa using h
      refine ⟨hlen, worst, rfl, fun hlt => ?_⟩
      simp [rank, compare_gt_iff_gt.mpr (compare_lt_iff_lt.mp hscore)] at hlt

/-- The heap with the best `k` of the hits seen. -/
abbrev TopK.of (k : ℕ) (seen : Multiset (Scored Score Key)) : TopK Score Key := ⟨k, least k seen⟩

/-- A pushed hit is one of those seen. -/
theorem TopK.push_of : (of k seen).push hit = of k (hit ::ₘ seen) := by
  have hsorted : (least k seen).Pairwise (· ≤ ·) := pairwise_least
  have hlen : (least k seen).length ≤ k := length_take_le _ _
  rw [of, of, least_cons, push]
  generalize least k seen = heap at *
  dsimp only
  split_ifs with hk hfull hlong
  · subst hk
    rw [take_zero, eq_nil_of_length_eq_zero (Nat.le_zero.mp hlen)]
  · -- the hit comes after the worst one of a full heap
    obtain ⟨rfl, worst, hworst, hrank⟩ := hfull
    rw [Ne, rank_eq_lt, not_lt] at hrank
    obtain ⟨front, rfl⟩ := getLast?_eq_some_iff.mp hworst
    have hlast : (front ++ [worst] ++ [hit]).Pairwise (· ≤ ·) := by
      refine pairwise_append.mpr ⟨hsorted, pairwise_singleton _ _, fun a ha b hb => ?_⟩
      rw [mem_singleton.mp hb]
      rcases mem_append.mp ha with ha | ha
      · exact ((pairwise_append.mp hsorted).2.2 a ha worst mem_cons_self).trans hrank
      · exact (mem_singleton.mp ha).trans_le hrank
    rw [Perm.eq_of_pairwise' (hsorted.orderedInsert hit _) hlast
      ((perm_orderedInsert _ hit _).trans (perm_append_singleton _ _).symm), take_left]
  · rw [orderedInsert_length] at hlong
    rw [dropLast_eq_take, orderedInsert_length, Nat.add_sub_cancel,
      Nat.le_antisymm hlen (Nat.lt_succ_iff.mp hlong)]
  · rw [take_of_length_le (not_lt.mp hlong)]

/-- Hits that are pushed one after the other. -/
theorem TopK.foldl_push (hits : List (Scored Score Key)) (seen : Multiset (Scored Score Key)) :
    hits.foldl push (of k seen) = of k (.ofList hits + seen) := by
  induction hits generalizing seen with
  | nil => rw [foldl_nil, Multiset.coe_nil, Multiset.zero_add]
  | cons hit hits ih =>
    rw [foldl_cons, push_of, ih, ← Multiset.cons_coe, Multiset.cons_add, Multiset.add_cons]

theorem TopK.new_eq (k : ℕ) : (new k : TopK Score Key) = of k 0 := by simp [new, of, least]

theorem unitTop_eq (k : ℕ) (hits : List (Scored Score Key)) : unitTop k hits = least k hits := by
  have hstep : (fun (top : TopK Score Key) hit =>
      if top.mayAdmit hit.score then top.push hit else top) = TopK.push := by
    funext top hit
    split_ifs with hadmit
    · rfl
    · exact (TopK.push_of_not_mayAdmit (by simpa using hadmit)).symm
  rw [unitTop, hstep, TopK.new_eq, TopK.foldl_push, Multiset.add_zero, TopK.intoSorted]

/-- **The best hits do not depend on the layout.** However the hits of a view are spread over
units and in whichever order each unit finds its own, the lists of the units merge to the
first `k` of all hits in the output order. -/
theorem best_unitTop (k : ℕ) (units : List (List (Scored Score Key))) :
    best k (units.map (unitTop k)) = (units.flatten : Multiset (Scored Score Key)).sort.take k := by
  have hrun : ∀ seen, (units.map (unitTop k)).foldl (foldl TopK.push) (TopK.of k seen) =
      TopK.of k (.ofList units.flatten + seen) := by
    induction units with
    | nil => exact fun seen => by rw [flatten_nil, Multiset.coe_nil, Multiset.zero_add]; rfl
    | cons unit units ih =>
      intro seen
      rw [map_cons, foldl_cons, TopK.foldl_push, unitTop_eq, TopK.of, least_least_add, ih,
        flatten_cons, ← Multiset.coe_add, ← Multiset.add_assoc, Multiset.add_comm (.ofList unit)]
  rw [best, TopK.new_eq, hrun, Multiset.add_zero]
  rfl

end Loams.Query
