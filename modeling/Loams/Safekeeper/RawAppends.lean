/-
# Completed appends of the raw store

Appends are in flight together and complete in any order.
-/

import Loams.Data.OrderedMap

namespace Loams.Safekeeper

open List hiding mem_insert_iff mem_iff_get
open Loams.Data Std.ExtTreeMap

/-! ## Completed appends -/

/-- Completed appends of the current writer term. -/
structure Tracker where
  /-- Every byte below is durable. -/
  contiguous : ℕ
  /-- The ends of completed ranges above, by their beginnings. -/
  done : BTreeMap ℕ ℕ

namespace Tracker

/-- Pops the first ranges, which are listed, as long as they leave no gap. -/
def absorb (contiguous : ℕ) (done : BTreeMap ℕ ℕ) : List (ℕ × ℕ) → Tracker
  | [] => ⟨contiguous, done⟩
  | (b, e) :: rest =>
    if contiguous < b then ⟨contiguous, done⟩
    else absorb (max contiguous e) (done.erase b) rest

/-- A write is complete: what follows is joined to it. -/
def complete (t : Tracker) (start stop : ℕ) : Tracker :=
  if stop ≤ t.contiguous then t
  else
    let done := t.done.insert start (max ((t.done[start]?).getD stop) stop)
    absorb t.contiguous done done.toList

/-- The tracker after appends completed in this order. -/
def completeAll (start : ℕ) (ranges : List (ℕ × ℕ)) : Tracker :=
  ranges.foldl (fun t r => t.complete r.1 r.2) ⟨start, ∅⟩

/-- The byte is in a range that waits for a gap to close. -/
def Remembers (t : Tracker) (pos : ℕ) : Prop :=
  ∃ b e : ℕ, t.done[b]? = some e ∧ b ≤ pos ∧ pos < e

/-- The position is complete. -/
def Holds (t : Tracker) (pos : ℕ) : Prop := pos < t.contiguous ∨ t.Remembers pos

/-- All ranges that wait are behind a gap. -/
def Apart (t : Tracker) : Prop := ∀ b e : ℕ, t.done[b]? = some e → t.contiguous < b

variable {c b e pos : ℕ} {done : BTreeMap ℕ ℕ} {l : List (ℕ × ℕ)} {t : Tracker}

/-- A range that leaves no gap is held by the position in its place. -/
theorem holds_erase (hget : done[b]? = some e) (hle : b ≤ c) :
    Holds ⟨max c e, done.erase b⟩ pos ↔ Holds ⟨c, done⟩ pos := by
  constructor
  · rintro (hlt | ⟨b', e', hget', hpos⟩)
    · rcases lt_or_ge pos c with hold | hnew
      · exact .inl hold
      · exact .inr ⟨b, e, hget, hle.trans hnew, (lt_max_iff.mp hlt).resolve_left (not_lt.mpr hnew)⟩
    · exact .inr ⟨b', e', (get_erase_eq_some.mp hget').2, hpos⟩
  · rintro (hlt | ⟨b', e', hget', hpos⟩)
    · exact .inl (lt_max_of_lt_left hlt)
    · by_cases hsame : b = b'
      · subst hsame
        rw [hget, Option.some_inj] at hget'
        exact .inl (lt_max_of_lt_right (hget' ▸ hpos.2))
      · exact .inr ⟨b', e', get_erase_eq_some.mpr ⟨hsame, hget'⟩, hpos⟩

/-- The loop holds the same bytes and ends at a gap. -/
theorem absorb_spec (hl : ∀ b e : ℕ, done[b]? = some e ↔ (b, e) ∈ l)
    (hsorted : l.Pairwise fun p q => p.1 < q.1) :
    (∀ pos, (absorb c done l).Holds pos ↔ Holds ⟨c, done⟩ pos) ∧ (absorb c done l).Apart := by
  induction l generalizing c done with
  | nil => exact ⟨fun _ => Iff.rfl, fun b e hget => absurd ((hl b e).mp hget) not_mem_nil⟩
  | cons p rest ih =>
    obtain ⟨b, e⟩ := p
    obtain ⟨hfirst, hrest⟩ := pairwise_cons.mp hsorted
    rw [absorb]
    split_ifs with hgap
    · refine ⟨fun _ => Iff.rfl, fun b' e' hget => ?_⟩
      rcases mem_cons.mp ((hl b' e').mp hget) with heq | hmem
      · exact (Prod.mk.inj heq).1 ▸ hgap
      · exact hgap.trans (hfirst _ hmem)
    · have hpopped : ∀ b' e' : ℕ, (done.erase b)[b']? = some e' ↔ (b', e') ∈ rest := by
        intro b' e'
        rw [get_erase_eq_some, hl, mem_cons]
        constructor
        · rintro ⟨hne, heq | hmem⟩
          · exact absurd (Prod.mk.inj heq).1.symm hne
          · exact hmem
        · exact fun hmem => ⟨(hfirst _ hmem).ne, .inr hmem⟩
      obtain ⟨hholds, hapart⟩ := ih (c := max c e) hpopped hrest
      refine ⟨fun pos => (hholds pos).trans ?_, hapart⟩
      exact holds_erase ((hl b e).mpr mem_cons_self) (not_lt.mp hgap)

/-- A completed range adds its bytes. -/
theorem complete_spec (h : t.Apart) (start stop : ℕ) : (t.complete start stop).Apart ∧
    ∀ pos, (t.complete start stop).Holds pos ↔ t.Holds pos ∨ start ≤ pos ∧ pos < stop := by
  unfold complete
  split_ifs with hold
  · refine ⟨h, fun pos => (or_iff_left_of_imp fun hpos => ?_).symm⟩
    exact .inl (hpos.2.trans_le hold)
  · generalize hlast : max ((t.done[start]?).getD stop) stop = last
    have hlist : ∀ b e : ℕ, (t.done.insert start last)[b]? = some e ↔
        (b, e) ∈ (t.done.insert start last).toList := fun _ _ =>
      mem_toList_iff_getElem?_eq_some.symm
    obtain ⟨hholds, hapart⟩ := absorb_spec (c := t.contiguous) hlist
      (ordered_keys_toList.imp fun hlt => Nat.compare_eq_lt.mp hlt)
    refine ⟨hapart, fun pos => (hholds pos).trans ?_⟩
    rw [Holds, Holds, or_assoc]
    refine or_congr_right ?_
    constructor
    · rintro ⟨b, e, hget, hpos⟩
      rcases get_insert_eq_some.mp hget with ⟨rfl, rfl⟩ | ⟨-, hget⟩
      · cases hsome : t.done[start]? with
        | none => exact .inr (by simpa [hsome, ← hlast] using hpos)
        | some e =>
          rw [hsome, Option.getD_some] at hlast
          rcases lt_max_iff.mp (hlast ▸ hpos.2) with hlt | hlt
          · exact .inl ⟨start, e, hsome, hpos.1, hlt⟩
          · exact .inr ⟨hpos.1, hlt⟩
      · exact .inl ⟨b, e, hget, hpos⟩
    · rintro (⟨b, e, hget, hpos⟩ | hpos)
      · by_cases hsame : start = b
        · subst hsame
          rw [hget, Option.getD_some] at hlast
          exact ⟨start, last, getElem?_insert_self, hpos.1,
            hpos.2.trans_le (hlast ▸ le_max_left e stop)⟩
        · exact ⟨b, e, (get_insert_ne hsame).trans hget, hpos⟩
      · exact ⟨start, last, getElem?_insert_self, hpos.1,
          hpos.2.trans_le (hlast ▸ le_max_right _ stop)⟩

theorem foldl_complete (h : t.Apart) (ranges : List (ℕ × ℕ)) :
    (ranges.foldl (fun t r => t.complete r.1 r.2) t).Apart ∧
      ∀ pos, (ranges.foldl (fun t r => t.complete r.1 r.2) t).Holds pos ↔
        t.Holds pos ∨ ∃ r ∈ ranges, r.1 ≤ pos ∧ pos < r.2 := by
  induction ranges generalizing t with
  | nil => exact ⟨h, by simp⟩
  | cons r ranges ih =>
    obtain ⟨hstep, hholds⟩ := complete_spec h r.1 r.2
    obtain ⟨hapart, hall⟩ := ih hstep
    refine ⟨hapart, fun pos => ?_⟩
    rw [foldl_cons, hall, hholds, exists_mem_cons_iff, or_assoc]

/-- Whatever the order in which ranges complete, the contiguous position is the largest up
to which every byte is in a completed range, and the bytes of the ranges beyond it are
remembered, all of them behind a gap. -/
theorem isGreatest_contiguous (start : ℕ) (ranges : List (ℕ × ℕ)) :
    let t := completeAll start ranges
    IsGreatest {stop | ∀ pos, start ≤ pos → pos < stop → ∃ r ∈ ranges, r.1 ≤ pos ∧ pos < r.2}
        t.contiguous ∧
      (∀ pos ≥ t.contiguous, t.Remembers pos ↔ ∃ r ∈ ranges, r.1 ≤ pos ∧ pos < r.2) ∧
      ∀ b e : ℕ, t.done[b]? = some e → t.contiguous < b := by
  intro t
  obtain ⟨hapart, hholds⟩ : t.Apart ∧ ∀ pos, t.Holds pos ↔ _ :=
    foldl_complete (t := ⟨start, ∅⟩) nofun ranges
  have hstart : ∀ pos, t.Holds pos ↔ pos < start ∨ ∃ r ∈ ranges, r.1 ≤ pos ∧ pos < r.2 := by
    simpa [Holds, Remembers] using hholds
  -- The first byte that is not contiguous is in no range.
  have hgap : ¬ t.Holds t.contiguous := by
    rintro (hlt | ⟨b, e, hget, hle, -⟩)
    · exact lt_irrefl _ hlt
    · exact absurd (hapart b e hget) (not_lt.mpr hle)
  have hle : start ≤ t.contiguous := by
    by_contra! hlt
    exact hgap ((hstart _).mpr (.inl hlt))
  refine ⟨⟨fun pos hlo hhi => ?_, fun stop hstop => ?_⟩, fun pos hpos => ?_, hapart⟩
  · exact ((hstart pos).mp (.inl hhi)).resolve_left (not_lt.mpr hlo)
  · by_contra! hlt
    exact hgap ((hstart _).mpr (.inr (hstop _ hle hlt)))
  · have hiff := hstart pos
    rwa [Holds, or_iff_right (not_lt.mpr hpos), or_iff_right (not_lt.mpr (hle.trans hpos))] at hiff

end Tracker

end Loams.Safekeeper
