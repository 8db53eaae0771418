/-
# Reads of the raw store

A segment's chunks are scanned page by page and stitched together.
-/

import Loams.Data.OrderedMap
import Loams.Safekeeper.Chunks

namespace Loams.Safekeeper

open List hiding mem_insert_iff mem_iff_get
open Loams.Data Std.ExtTreeMap

/-- The largest WAL value written. -/
def maxChunk : ℕ := 131072

/-- Stitches the chunks from `pos`, up to `stop` and `budget` bytes, to the first hole. -/
def stitch : List (ℕ × Bytes) → ℕ → ℕ → ℕ → List (ℕ × Bytes) × ℕ
  | [], pos, _, _ => ([], pos)
  | (b, c) :: rest, pos, stop, budget =>
    if stop ≤ pos ∨ budget = 0 then ([], pos)
    else
      let cEnd := min (b + c.length) stop
      if cEnd ≤ pos then stitch rest pos stop budget
      else if pos < b then ([], pos)
      else
        let lo := pos - b
        let hi := min (cEnd - b) (lo + budget)
        let tail := stitch rest (b + hi) stop (budget - (hi - lo))
        ((pos, (c.take hi).drop lo) :: tail.1, tail.2)

variable (store : BTreeMap ℕ Bytes)

/-- The chunks of a writer term whose keys are in the range, in order. -/
def segment (lo hi : ℕ) : List (ℕ × Bytes) :=
  store.toList.filter fun c => lo ≤ c.1 ∧ c.1 < hi

/-- One page of them. -/
def chunks (scanPage lo hi : ℕ) : List (ℕ × Bytes) :=
  (segment store lo hi).take scanPage

theorem of_mem_segment {store : BTreeMap ℕ Bytes} {lo hi : ℕ} {c : ℕ × Bytes}
    (h : c ∈ segment store lo hi) : c ∈ store.toList ∧ lo ≤ c.1 ∧ c.1 < hi := by
  simpa [segment] using h

/-- The length of all pieces. -/
def bytesOf (pieces : List (ℕ × Bytes)) : ℕ := (pieces.map fun p => p.2.length).sum

/-- A chunk of the page begins after the position where stitching stopped. -/
def hole (page : List (ℕ × Bytes)) (pos stop left : ℕ) : Bool :=
  pos < stop && 0 < left && page.any fun c => pos < c.1

/-- The loop of `read_segment` over pages. -/
def readPages (scanPage stop : ℕ) (keep : Bool) (cursor pos left : ℕ) : List (ℕ × Bytes) × ℕ :=
  if stop ≤ pos ∨ left = 0 then ([], pos)
  else
    let page := chunks store scanPage cursor stop
    match _hlast : page.getLast? with
    | none => ([], pos)
    | some last =>
      let (pieces, next) := stitch page pos stop left
      let left := left - bytesOf pieces
      let kept := if keep then pieces else []
      if hole page next stop left ∨ page.length < scanPage then (kept, next)
      else
        let rest := readPages scanPage stop keep (last.1 + 1) next left
        (kept ++ rest.1, rest.2)
termination_by stop - cursor
decreasing_by
  have hmem := of_mem_segment (mem_of_mem_take (mem_of_getLast? _hlast))
  omega

/-- The chunk that covers `pos` begins at most `maxChunk - 1` below it. -/
def readSegment (scanPage segStart pos stop budget : ℕ) (keep : Bool) : List (ℕ × Bytes) × ℕ :=
  readPages store scanPage stop keep (max (pos - (maxChunk - 1)) segStart) pos budget

section Stitch

variable {store : BTreeMap ℕ Bytes} {xs : List (ℕ × Bytes)} {scanPage pos stop budget : ℕ}

theorem stitch_done (ys : List (ℕ × Bytes)) (h : stop ≤ pos ∨ budget = 0) :
    stitch ys pos stop budget = ([], pos) := by
  cases ys with
  | nil => rfl
  | cons c ys => rw [stitch, if_pos h]

theorem le_stitch (xs : List (ℕ × Bytes)) (pos budget : ℕ) :
    pos ≤ (stitch xs pos stop budget).2 := by
  induction xs generalizing pos budget with
  | nil => exact le_rfl
  | cons c xs ih =>
    obtain ⟨b, c⟩ := c
    simp only [stitch]
    split_ifs with hdone hold hhole
    · exact le_rfl
    · exact ih pos budget
    · exact le_rfl
    · exact le_trans (by omega) (ih _ _)

/-- Stitching goes on behind a page unless it met a hole there. -/
theorem stitch_append (hxs : ∀ c ∈ xs, c.1 < stop) (ys : List (ℕ × Bytes)) :
    stitch (xs ++ ys) pos stop budget =
      let first := stitch xs pos stop budget
      let left := budget - bytesOf first.1
      if hole xs first.2 stop left then first
      else
        let rest := stitch ys first.2 stop left
        (first.1 ++ rest.1, rest.2) := by
  induction xs generalizing pos budget with
  | nil => simp [stitch, hole, bytesOf]
  | cons c xs ih =>
    obtain ⟨b, c⟩ := c
    obtain ⟨hb, hxs⟩ := forall_mem_cons.mp hxs
    by_cases hdone : stop ≤ pos ∨ budget = 0
    · have hnone : hole ((b, c) :: xs) pos stop budget = false := by
        rcases hdone with hge | hzero
        · simp [hole, not_lt.mpr hge]
        · simp [hole, hzero]
      simp [stitch_done _ hdone, hnone, bytesOf]
    -- A chunk that begins behind the position is no hole.
    have hbehind : ∀ next left : ℕ, b ≤ next →
        hole ((b, c) :: xs) next stop left = hole xs next stop left := by
      intro next left hle
      simp [hole, not_lt.mpr hle]
    simp only [cons_append, stitch, if_neg hdone]
    by_cases hold : min (b + c.length) stop ≤ pos
    · have hle : b ≤ pos := by omega
      simp only [if_pos hold, hbehind _ _ (hle.trans (le_stitch xs pos budget))]
      exact ih hxs
    simp only [if_neg hold]
    by_cases hhole : pos < b
    · obtain ⟨hlt, hpos⟩ := not_or.mp hdone
      simp [hhole, hole, bytesOf, not_le.mp hlt, Nat.pos_of_ne_zero hpos]
    · simp only [if_neg hhole, ih hxs]
      generalize hhi : min (min (b + c.length) stop - b) (pos - b + budget) = hi
      generalize htail : stitch xs (b + hi) stop (budget - (hi - (pos - b))) = tail
      have hle : b ≤ tail.2 := (Nat.le_add_right b hi).trans (htail ▸ le_stitch xs _ _)
      have hleft : budget - bytesOf ((pos, (c.take hi).drop (pos - b)) :: tail.1) =
          budget - (hi - (pos - b)) - bytesOf tail.1 := by
        have : min hi c.length = hi := by omega
        simp [bytesOf, Nat.sub_add_eq, this]
      rw [hbehind _ _ hle, hleft]
      split_ifs <;> rfl

/-- Chunks that end at or before the position may be left out. -/
theorem stitch_filter (p : ℕ × Bytes → Bool)
    (hxs : ∀ c ∈ xs, p c = false → c.1 + c.2.length ≤ pos) :
    stitch (xs.filter p) pos stop budget = stitch xs pos stop budget := by
  induction xs generalizing pos budget with
  | nil => rfl
  | cons c xs ih =>
    obtain ⟨hc, hxs⟩ := forall_mem_cons.mp hxs
    by_cases hdone : stop ≤ pos ∨ budget = 0
    · rw [stitch_done _ hdone, stitch_done _ hdone]
    cases hp : p c with
    | false =>
      rw [filter_cons_of_neg (by simp [hp]), ih hxs, stitch, if_neg hdone]
      exact (if_pos ((min_le_left _ _).trans (hc hp))).symm
    | true =>
      rw [filter_cons_of_pos hp]
      simp only [stitch, if_neg hdone]
      split_ifs with hold hhole
      · exact ih hxs
      · rfl
      · rw [ih fun c' hc' hp' => (hxs c' hc' hp').trans (by omega)]

theorem pairwise_segment {lo hi : ℕ} : (segment store lo hi).Pairwise fun p q => p.1 < q.1 :=
  (ordered_keys_toList.imp fun hlt => Nat.compare_eq_lt.mp hlt).filter _

theorem segment_eq_filter {lo mid : ℕ} (h : lo ≤ mid) :
    segment store mid stop = (segment store lo stop).filter fun c => mid ≤ c.1 := by
  rw [segment, segment, filter_filter]
  refine filter_congr fun c _ => ?_
  rw [← Bool.decide_and, decide_eq_decide]
  omega

/-- The chunks behind a page are those after its last key. -/
theorem segment_eq_append {lo : ℕ} {last : ℕ × Bytes}
    (hlast : (chunks store scanPage lo stop).getLast? = some last) :
    segment store lo stop = chunks store scanPage lo stop ++ segment store (last.1 + 1) stop := by
  have hlo := (of_mem_segment (mem_of_mem_take (mem_of_getLast? hlast))).2.1
  have hsorted : (segment store lo stop).Pairwise fun p q => p.1 < q.1 := pairwise_segment
  obtain ⟨init, hinit⟩ := getLast?_eq_some_iff.mp hlast
  rw [← take_append_drop scanPage (segment store lo stop), ← chunks, hinit] at hsorted
  obtain ⟨hpage, -, hafter⟩ := pairwise_append.mp hsorted
  rw [segment_eq_filter (hlo.trans (Nat.le_succ _)),
    ← take_append_drop scanPage (segment store lo stop), ← chunks, hinit, filter_append,
    filter_eq_nil_iff.mpr, filter_eq_self.mpr, nil_append]
  · exact fun c hc => decide_eq_true (hafter last (by simp) c hc)
  · intro c hc
    rcases mem_append.mp hc with hc | hc
    · simpa [Nat.lt_succ_iff] using ((pairwise_append.mp hpage).2.2 c hc last mem_cons_self).le
    · simp [mem_singleton.mp hc]

/-- Reading by pages is stitching the whole segment. -/
theorem readPages_eq_stitch (hpage : 0 < scanPage) (keep : Bool) (cursor pos left : ℕ) :
    readPages store scanPage stop keep cursor pos left =
      let whole := stitch (segment store cursor stop) pos stop left
      (if keep then whole.1 else [], whole.2) := by
  have hpaged : ∀ cursor, ∀ c ∈ chunks store scanPage cursor stop, c.1 < stop :=
    fun _ c hc => (of_mem_segment (mem_of_mem_take hc)).2.2
  -- Over the pages: what is behind one is stitched as the rest of the segment.
  fun_induction readPages store scanPage stop keep cursor pos left with
  | case1 cursor pos left hdone => simp [stitch_done _ hdone]
  | case2 cursor pos left hdone page hnone =>
    have hnil : segment store cursor stop = [] := by
      simpa [page, chunks, hpage.ne'] using hnone
    simp [hnil, stitch]
  | case3 cursor pos left hdone page last hlast pieces next hstitch left' kept hend =>
    rcases hend with hhole | hshort
    · rw [segment_eq_append hlast, stitch_append (hpaged cursor), hstitch]
      simp [hhole, left', page, kept]
    · have hall : page = segment store cursor stop :=
        take_of_length_le (by simp [page, chunks] at hshort; omega)
      simp [← hall, hstitch, kept]
  | case4 cursor pos left hdone page last hlast pieces next hstitch left' kept hend rest ih =>
    rw [segment_eq_append hlast, stitch_append (hpaged cursor), hstitch]
    have hnone : hole page next stop left' = false := by simpa using fun h => hend (.inl h)
    cases keep <;> simp_all [rest, kept, page, left']

/-- Reading a segment page by page returns what one stitch over all its chunks in key order
returns, whatever the chunks, as long as none is larger than the writer makes them. -/
theorem readSegment_eq_stitch (hpage : 0 < scanPage)
    (hsize : ∀ c ∈ store.toList, c.2.length ≤ maxChunk)
    (segStart pos stop budget : ℕ) (keep : Bool) :
    readSegment store scanPage segStart pos stop budget keep =
      let whole := stitch (segment store segStart stop) pos stop budget
      (if keep then whole.1 else [], whole.2) := by
  rw [readSegment, readPages_eq_stitch hpage]
  -- The chunks below the cursor end at or before the position.
  rw [segment_eq_filter (le_max_right _ segStart), stitch_filter]
  intro c hc hbelow
  have hlen := hsize c (of_mem_segment hc).1
  have hlt := not_le.mp (of_decide_eq_false hbelow)
  have hlo := (of_mem_segment hc).2.1
  omega

end Stitch

/-- Two overlapping chunks and a third behind a hole, a page for each. -/
theorem readSegment_overlap :
    let store : BTreeMap ℕ Bytes :=
      (((∅ : BTreeMap ℕ Bytes).insert 0 [1, 2, 3]).insert 2 [3, 4]).insert 5 [6]
    readSegment store 1 0 1 9 8 true = ([(1, [2, 3]), (3, [4])], 4) := by
  intro store
  have hlist : store.toList = [(0, [1, 2, 3]), (2, [3, 4]), (5, [6])] := rfl
  have hsize : ∀ c ∈ store.toList, c.2.length ≤ maxChunk := by
    rw [hlist]
    decide
  rw [readSegment_eq_stitch (by decide) hsize]
  simp [segment, hlist, stitch]

/-- A chunk that is larger covers positions further above its key than a reader looks. -/
theorem readSegment_large :
    let store : BTreeMap ℕ Bytes := (∅ : BTreeMap ℕ Bytes).insert 0 (replicate (maxChunk + 1) 0)
    (readSegment store 24 0 maxChunk (maxChunk + 1) 1 true).2 ≠
      (stitch (segment store 0 (maxChunk + 1)) maxChunk (maxChunk + 1) 1).2 := by
  generalize hc : (replicate (maxChunk + 1) 0 : Bytes) = c
  intro store
  have hlen : c.length = maxChunk + 1 := by simp [← hc]
  have hlist : store.toList = [(0, c)] := rfl
  rw [readSegment, readPages_eq_stitch (by decide)]
  simp [segment, hlist, stitch, hlen, maxChunk]

/-! ## What a read returns -/

/-- Consecutive slices of the chunks from a position on, within the end and the budget. -/
structure Slices (xs : List (ℕ × Bytes)) (pos stop budget : ℕ) (out : List (ℕ × Bytes) × ℕ) :
    Prop where
  tiles : Tiles Prod.fst runStop pos out.1 out.2
  slices : ∀ p ∈ out.1, ∃ c ∈ xs, c.1 ≤ p.1 ∧ p.2 <+: c.2.drop (p.1 - c.1)
  within : out.2 ≤ max pos stop ∧ out.2 ≤ pos + budget

theorem stitch_slices {xs ys : List (ℕ × Bytes)} (h : xs ⊆ ys) (pos stop budget : ℕ) :
    Slices ys pos stop budget (stitch xs pos stop budget) := by
  have hnone : ∀ pos budget, Slices ys pos stop budget ([], pos) :=
    fun pos _ => ⟨rfl, nofun, le_max_left pos stop, Nat.le_add_right _ _⟩
  induction xs generalizing pos budget with
  | nil => exact hnone _ _
  | cons c xs ih =>
    obtain ⟨b, c⟩ := c
    obtain ⟨hc, h⟩ := cons_subset.mp h
    simp only [stitch]
    split_ifs with hdone hold hhole
    · exact hnone _ _
    · exact ih h pos budget
    · exact hnone _ _
    · generalize hhi : min (min (b + c.length) stop - b) (pos - b + budget) = hi
      obtain ⟨htiles, hslices, hwithin⟩ := ih h (b + hi) (budget - (hi - (pos - b)))
      have hpiece : runStop (pos, (c.take hi).drop (pos - b)) = b + hi := by
        change pos + ((c.take hi).drop (pos - b)).length = b + hi
        rw [length_drop, length_take]
        omega
      refine ⟨⟨rfl, hpiece ▸ (by omega), hpiece ▸ htiles⟩, ?_, by omega, by omega⟩
      refine forall_mem_cons.mpr ⟨⟨(b, c), hc, by omega, ?_⟩, hslices⟩
      exact drop_take ▸ take_prefix _ _

/-- Stitching stops inside a chunk only at the end or when the budget is used up. -/
theorem stitch_stops {xs : List (ℕ × Bytes)} (hsorted : xs.Pairwise fun p q => p.1 < q.1)
    (pos stop budget : ℕ) : ∀ c ∈ xs, c.1 ≤ (stitch xs pos stop budget).2 →
      (stitch xs pos stop budget).2 < c.1 + c.2.length →
      stop ≤ (stitch xs pos stop budget).2 ∨ (stitch xs pos stop budget).2 = pos + budget := by
  induction xs generalizing pos budget with
  | nil => exact nofun
  | cons c xs ih =>
    obtain ⟨b, c⟩ := c
    obtain ⟨hbegin, hsorted⟩ := pairwise_cons.mp hsorted
    simp only [stitch]
    split_ifs with hdone hold hhole
    · exact fun _ _ _ _ => hdone.imp_right (by omega)
    · refine forall_mem_cons.mpr ⟨fun _ hlt => ?_, ih hsorted pos budget⟩
      have hle : pos ≤ (stitch xs pos stop budget).2 := le_stitch xs pos budget
      dsimp only at hlt
      omega
    · -- the chunks behind the first one begin after the hole too
      refine forall_mem_cons.mpr ⟨fun hle _ => absurd hhole (not_lt.mpr hle), ?_⟩
      exact fun c' hc' hle _ => absurd (hhole.trans (hbegin c' hc')) (not_lt.mpr hle)
    · generalize hhi : min (min (b + c.length) stop - b) (pos - b + budget) = hi
      have hnext : b + hi ≤ (stitch xs (b + hi) stop (budget - (hi - (pos - b)))).2 :=
        le_stitch xs _ _
      refine forall_mem_cons.mpr ⟨fun _ hlt => ?_, fun c' hc' hle hlt => ?_⟩
      · dsimp only at hlt
        by_cases hstop : stop ≤ b + hi
        · exact .inl (hstop.trans hnext)
        · rw [stitch_done _ (.inr (by omega))]
          exact .inr (by omega)
      · refine (ih hsorted _ _ c' hc' hle hlt).imp_right fun heq => heq.trans ?_
        omega

/-- A segment is read, by pages of `SCAN_PAGE` chunks, without a gap: what is returned are
slices of stored chunks at their own positions, one behind the other, up to the end. A
position that a chunk of the segment covers ends the read only as the end of the range or
of the budget. -/
theorem readSegment_slices (store : BTreeMap ℕ Bytes) (segStart pos stop budget : ℕ) :
    let out := readSegment store 24 segStart pos stop budget true
    Slices store.toList pos stop budget out ∧
      ∀ c ∈ store.toList, segStart ≤ c.1 → c.2.length ≤ maxChunk → c.1 ≤ out.2 →
        out.2 < c.1 + c.2.length → stop ≤ out.2 ∨ out.2 = pos + budget := by
  have hread : readSegment store 24 segStart pos stop budget true =
      stitch (segment store (max (pos - (maxChunk - 1)) segStart) stop) pos stop budget := by
    rw [readSegment, readPages_eq_stitch (by decide)]
    rfl
  rw [hread]
  refine ⟨stitch_slices (fun c hc => (of_mem_segment hc).1) pos stop budget, ?_⟩
  intro c hc hstart hsize hle hlt
  refine or_iff_not_imp_left.mpr fun hstop => ?_
  -- a chunk that covers the position is among those that the read looks at
  have hmem : c ∈ segment store (max (pos - (maxChunk - 1)) segStart) stop := by
    have hpos : pos < c.1 + c.2.length := (le_stitch _ pos budget).trans_lt hlt
    refine mem_filter.mpr ⟨hc, decide_eq_true ⟨?_, hle.trans_lt (not_le.mp hstop)⟩⟩
    omega
  have hstops := stitch_stops pairwise_segment pos stop budget c hmem hle hlt
  exact hstops.resolve_left hstop

end Loams.Safekeeper
