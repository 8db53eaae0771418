/-
# Consecutive extents

Extents tile an interval when each one starts where the one before stops.
-/

import Mathlib.Data.List.Sort
import Mathlib.Data.List.TakeWhile

namespace Loams.Data

open List

variable {α : Type*} {base stop : α → ℕ}

/-- The extents of the list, in order, tile `[lo, hi)`. -/
def Tiles (base stop : α → ℕ) : ℕ → List α → ℕ → Prop
  | lo, [], hi => lo = hi
  | lo, e :: es, hi => base e = lo ∧ lo < stop e ∧ Tiles base stop (stop e) es hi

namespace Tiles

variable {lo mid hi o : ℕ} {e e' : α} {es es' : List α}

@[simp] theorem nil_iff : Tiles base stop lo [] hi ↔ lo = hi := Iff.rfl

@[simp] theorem cons_iff : Tiles base stop lo (e :: es) hi ↔
    base e = lo ∧ lo < stop e ∧ Tiles base stop (stop e) es hi := Iff.rfl

theorem append_iff : Tiles base stop lo (es ++ es') hi ↔
    ∃ mid, Tiles base stop lo es mid ∧ Tiles base stop mid es' hi := by
  induction es generalizing lo with
  | nil => simp
  | cons e es ih =>
    simp only [cons_append, cons_iff, ih]
    constructor
    · rintro ⟨hb, hs, mid, h₁, h₂⟩
      exact ⟨mid, ⟨hb, hs, h₁⟩, h₂⟩
    · rintro ⟨mid, ⟨hb, hs, h₁⟩, h₂⟩
      exact ⟨hb, hs, mid, h₁, h₂⟩

theorem append (h : Tiles base stop lo es mid) (h' : Tiles base stop mid es' hi) :
    Tiles base stop lo (es ++ es') hi := append_iff.mpr ⟨mid, h, h'⟩

section

variable (h : Tiles base stop lo es hi)
include h

theorem le : lo ≤ hi := by
  induction es generalizing lo with
  | nil => exact h.le
  | cons e es ih =>
    have hrest := ih h.2.2
    have hstart := h.2.1
    omega

theorem lt (hne : es ≠ []) : lo < hi := by
  cases es with
  | nil => exact absurd rfl hne
  | cons e es => exact lt_of_lt_of_le h.2.1 h.2.2.le

/-- Every extent is non-empty and lies within the interval. -/
theorem bounds_of_mem (he : e ∈ es) : lo ≤ base e ∧ base e < stop e ∧ stop e ≤ hi := by
  induction es generalizing lo with
  | nil => simp at he
  | cons x xs ih =>
    obtain ⟨hb, hs, hrest⟩ := h
    rcases mem_cons.mp he with rfl | he
    · exact ⟨hb.ge, hb ▸ hs, hrest.le⟩
    · obtain ⟨h₁, h₂, h₃⟩ := ih hrest he
      exact ⟨by omega, h₂, h₃⟩

/-- No overlap: an extent stops before the later ones start. -/
theorem pairwise : es.Pairwise fun a b => stop a ≤ base b := by
  induction es generalizing lo with
  | nil => exact Pairwise.nil
  | cons x xs ih =>
    exact pairwise_cons.mpr ⟨fun e he => (bounds_of_mem h.2.2 he).1, ih h.2.2⟩

theorem pairwise_base : es.Pairwise fun a b => base a < base b := by
  refine h.pairwise.imp_of_mem fun {a b} ha _ hab => ?_
  exact lt_of_lt_of_le (h.bounds_of_mem ha).2.1 hab

/-- No gap: the points of the extents are those of the interval. -/
theorem exists_mem_iff : (∃ e ∈ es, base e ≤ o ∧ o < stop e) ↔ lo ≤ o ∧ o < hi := by
  induction es generalizing lo with
  | nil =>
    have hempty : lo = hi := h
    simp only [not_mem_nil, false_and, exists_false, false_iff]
    omega
  | cons x xs ih =>
    obtain ⟨hb, hs, hrest⟩ := h
    have hle := hrest.le
    rw [exists_mem_cons_iff, ih hrest]
    omega

/-- Where extents that all stop by a point end. -/
theorem le_max (hstop : ∀ e ∈ es, stop e ≤ o) : hi ≤ max lo o := by
  induction es generalizing lo with
  | nil => exact h ▸ le_max_left _ _
  | cons x xs ih =>
    have hrest := ih h.2.2 fun e he => hstop e (mem_cons_of_mem _ he)
    have hx := hstop x mem_cons_self
    omega

/-- Passing over the intervals that end at or below a position leaves a tiling that starts
at or below it. -/
theorem dropWhile (hle : lo ≤ o) : ∃ lo' ≤ o, Tiles base stop lo' (es.dropWhile fun x => stop x ≤ o)
    hi := by
  induction es generalizing lo with
  | nil => exact ⟨lo, hle, h⟩
  | cons x xs ih =>
    by_cases hx : stop x ≤ o
    · rw [dropWhile_cons_of_pos (by simpa using hx)]
      exact ih h.2.2 hx
    · rw [dropWhile_cons_of_neg (by simpa using hx)]
      exact ⟨lo, hle, h⟩

/-- Behind the extents that stop by a point, all others stop after it. -/
theorem filter_stop (o : ℕ) :
    es.filter (fun x => o < stop x) = es.dropWhile fun x => stop x ≤ o := by
  induction es generalizing lo with
  | nil => rfl
  | cons x xs ih =>
    by_cases hx : stop x ≤ o
    · rw [dropWhile_cons_of_pos (by simpa using hx), filter_cons_of_neg (by simpa using hx),
        ih h.2.2]
    · rw [dropWhile_cons_of_neg (by simpa using hx), filter_eq_self]
      refine forall_mem_cons.mpr ⟨by simpa using hx, fun e he => ?_⟩
      have hlater := h.2.2.bounds_of_mem he
      simp only [decide_eq_true_eq]
      omega

theorem lt_stop_of_mem_dropWhile (he : e ∈ es.dropWhile fun x => stop x ≤ o) : o < stop e := by
  rw [← h.filter_stop] at he
  simpa using (mem_filter.mp he).2

/-- The last extent that starts at or before a point is the one that holds it. -/
theorem getLast?_filter_base (he : e ∈ es) (hbase : base e ≤ o) (hstop : o < stop e) :
    (es.filter fun x => base x ≤ o).getLast? = some e := by
  obtain ⟨pre, post, rfl⟩ := append_of_mem he
  obtain ⟨mid, -, hpost⟩ := append_iff.mp h
  have hlater : post.filter (fun x => base x ≤ o) = [] :=
    filter_eq_nil_iff.mpr fun x hx => by
      have hbounds := hpost.2.2.bounds_of_mem hx
      simp only [decide_eq_true_eq]
      omega
  simp [hbase, hlater]

end

/-- Where a look at a point starts: at the base of the last extent at or before the
point if that extent holds it, and else at the point. -/
def floorBase (base stop : α → ℕ) (es : List α) (o : ℕ) : ℕ :=
  ((es.filter fun e => base e ≤ o).getLast?.filter fun e => o < stop e).elim o base

theorem floorBase_le (es : List α) (o : ℕ) : floorBase base stop es o ≤ o := by
  unfold floorBase
  cases hfound : (es.filter fun e => base e ≤ o).getLast?.filter fun e => o < stop e with
  | none => exact le_rfl
  | some e =>
    have hlast := (Option.eq_some_of_filter_eq_some hfound)
    simpa using (mem_filter.mp (mem_of_getLast? hlast)).2

/-- From there on, the extents are those that stop after the point. -/
theorem filter_floorBase (h : Tiles base stop lo es hi) (o : ℕ) :
    es.filter (fun e => floorBase base stop es o ≤ base e) = es.dropWhile fun e => stop e ≤ o := by
  rw [← h.filter_stop]
  refine filter_congr fun e he => decide_eq_decide.mpr ?_
  by_cases hholds : ∃ x ∈ es, base x ≤ o ∧ o < stop x
  · -- the extents before the one that holds the point stop at its base
    obtain ⟨x, hx, hbase, hstop⟩ := hholds
    have hfloor : floorBase base stop es o = base x := by
      rw [floorBase, h.getLast?_filter_base hx hbase hstop]
      simp [Option.filter, hstop]
    rw [hfloor]
    obtain ⟨pre, post, rfl⟩ := append_of_mem hx
    obtain ⟨mid, hpre, rfl, -, hpost⟩ := append_iff.mp h
    rcases mem_append.mp he with he | he
    · have hbounds := hpre.bounds_of_mem he
      omega
    · rcases mem_cons.mp he with rfl | he
      · omega
      · have hbounds := hpost.bounds_of_mem he
        omega
  · -- no extent holds the point
    have hfloor : floorBase base stop es o = o := by
      have hnone :
          ((es.filter fun e => base e ≤ o).getLast?.filter fun e => o < stop e) = none := by
        refine Option.filter_eq_none_iff.mpr fun x hx hstop => hholds ⟨x, ?_⟩
        simpa [and_assoc] using And.intro (mem_filter.mp (mem_of_getLast? hx)) hstop
      rw [floorBase, hnone, Option.elim_none]
    have hbounds := h.bounds_of_mem he
    have hnot : ¬(base e ≤ o ∧ o < stop e) := fun hin => hholds ⟨e, he, hin⟩
    rw [hfloor]
    omega

end Tiles

end Loams.Data
