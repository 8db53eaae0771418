/-
# Heads that the rules keep
-/

import Loams.Safekeeper.Store
import Mathlib.Data.List.TakeWhile

namespace Loams.Safekeeper

open Option List Loams.Data Loams.Control

variable {st next : AcceptorState} {term : Term}

/-! ## What a rule that succeeds did -/

theorem applyVote_granted (h : (applyVote st term).1 = true) :
    st.term < term ∧ (applyVote st term).2 = { st with term := term } := by
  unfold applyVote at *
  split_ifs at * with hlt
  exact ⟨hlt, rfl⟩

variable {msg : ProposerElected} {batch : AppendBatch} {plan : AppendPlan} {stop : Lsn}

theorem applyElected_ok (h : applyElected st msg = .ok (.ok (next, stop))) :
    st.term ≤ msg.term ∧ next = electedHead st msg ∧ stop = msg.startStreamingAt ∧
      st.commitLsn ≤ stop ∧ ∃ lcp, commonPoint st msg = .ok lcp ∧ lcp.lsn = stop := by
  unfold applyElected at h
  split_ifs at h with hlt
  · cases h
  · obtain ⟨lcp, hlcp, h⟩ := except_bind_ok.mp h
    obtain ⟨_, hpoint, h⟩ := except_bind_ok.mp h
    obtain ⟨_, hcommit, h⟩ := except_bind_ok.mp h
    cases h
    exact ⟨not_lt.mp hlt, rfl, rfl, require_eq_ok.mp hcommit, lcp, hlcp, require_eq_ok.mp hpoint⟩

theorem applyAppend_ok (h : applyAppend st batch = .ok (.ok (next, plan))) :
    batch.term = st.term ∧ appendPlan st batch (batch.beginLsn + batch.len) = .ok plan ∧
      next = appendedHead st batch (batch.beginLsn + batch.len) := by
  unfold applyAppend at h
  split_ifs at h with hlt hgt
  · cases h
  · obtain ⟨stop, hstop, h⟩ := except_bind_ok.mp h
    obtain ⟨plan', hplan, h⟩ := except_bind_ok.mp h
    cases h
    obtain rfl : stop = batch.beginLsn + batch.len := by
      unfold AppendBatch.endLsn Lsn.checkedAdd at hstop
      split_ifs at hstop
      exact (Except.ok.inj hstop).symm
    exact ⟨by lia, hplan, rfl⟩

theorem applyCommitLsn_ok {lsn : Lsn} (h : applyCommitLsn st term lsn = .ok (.ok next)) :
    term = st.term ∧ next = { st with commitLsn := max st.commitLsn (min lsn st.walEnd) } := by
  unfold applyCommitLsn at h
  split_ifs at h with hlt hgt
  · cases h
  · cases h
    exact ⟨by lia, rfl⟩

/-- Where a batch is written: nowhere, behind the WAL, or anywhere if there is none. -/
theorem appendPlan_ok (h : appendPlan st batch stop = .ok plan) :
    ((batch.isEmpty = true ∨ stop ≤ st.flushLsn) ∧ plan = ⟨stop, batch.len⟩) ∨
      (batch.isEmpty = false ∧ st.flushLsn < stop ∧ batch.beginLsn ≤ plan.writeFrom ∧
        plan.skip = plan.writeFrom - batch.beginLsn ∧
        (plan.writeFrom = st.flushLsn ∨ st.flushLsn = 0 ∧ plan.writeFrom = batch.beginLsn)) := by
  unfold appendPlan at h
  split_ifs at h with hdone hbefore hgap
  · obtain rfl := Except.ok.inj h
    exact .inl ⟨hdone, rfl⟩
  · obtain rfl := Except.ok.inj h
    right
    simp only [not_or, not_le, Bool.not_eq_true] at hdone
    exact ⟨hdone.1, hdone.2, hbefore.le, rfl, .inl rfl⟩
  · obtain rfl := Except.ok.inj h
    right
    simp only [not_or, not_le, Bool.not_eq_true] at hdone
    refine ⟨hdone.1, hdone.2, le_rfl, (Nat.sub_self _).symm, ?_⟩
    dsimp only
    lia

theorem remainingChunks_flatten (wal : List Bytes) (skip : ℕ) :
    (remainingChunks wal skip).flatten = wal.flatten.drop skip := by
  induction wal generalizing skip with
  | nil => simp [remainingChunks]
  | cons c wal ih =>
    unfold remainingChunks
    rw [flatten_cons, drop_append]
    split_ifs with hskip
    · rw [ih, drop_eq_nil_of_le hskip, nil_append]
    · rw [flatten_cons, ih, Nat.sub_eq_zero_of_le (not_le.mp hskip).le, drop_zero]

theorem AppendBatch.len_eq (batch : AppendBatch) : batch.len = batch.wal.flatten.length :=
  length_flatten.symm

theorem AppendBatch.isEmpty_iff : batch.isEmpty = true ↔ batch.len = 0 := by
  rw [AppendBatch.len_eq, length_eq_zero_iff, flatten_eq_nil_iff]
  simp [AppendBatch.isEmpty]

/-- What an append writes: nothing, behind the WAL, or anywhere if there is none. An empty
batch may still move the end. -/
theorem applyAppend_bytes (h : applyAppend st batch = .ok (.ok (next, plan))) :
    ((remainingChunks batch.wal plan.skip).flatten = [] ∧
        (next.flushLsn = st.flushLsn ∨
          batch.isEmpty = true ∧ next.flushLsn = max st.flushLsn batch.beginLsn)) ∨
      ((remainingChunks batch.wal plan.skip).flatten ≠ [] ∧
        next.flushLsn = plan.writeFrom + (remainingChunks batch.wal plan.skip).flatten.length ∧
        (plan.writeFrom = st.flushLsn ∨ st.flushLsn = 0 ∧ plan.writeFrom = batch.beginLsn)) := by
  obtain ⟨-, hplan, rfl⟩ := applyAppend_ok h
  have hflush : (appendedHead st batch (batch.beginLsn + batch.len)).flushLsn =
      max st.flushLsn (batch.beginLsn + batch.len) := rfl
  rw [remainingChunks_flatten, hflush, AppendBatch.isEmpty_iff]
  rcases appendPlan_ok hplan with ⟨hdone, rfl⟩ | ⟨hempty, hlt, hbegin, hskip, hfrom⟩
  · left
    rw [AppendBatch.isEmpty_iff] at hdone
    refine ⟨drop_eq_nil_of_le batch.len_eq.ge, ?_⟩
    rcases hdone with hdone | hdone
    · exact .inr ⟨hdone, by rw [hdone, Nat.add_zero]⟩
    · exact .inl (max_eq_left hdone)
  · right
    have hlen : batch.len ≠ 0 := by
      rw [Ne, ← AppendBatch.isEmpty_iff, hempty]
      decide
    have hdrop : (batch.wal.flatten.drop plan.skip).length = batch.len - plan.skip := by
      rw [length_drop, batch.len_eq]
    have hpos : 0 < batch.len - plan.skip ∧ max st.flushLsn (batch.beginLsn + batch.len) =
        plan.writeFrom + (batch.len - plan.skip) := by lia
    rw [← length_pos_iff, hdrop]
    exact ⟨hpos.1, hpos.2, hfrom⟩

/-- The end of the WAL moves only over bytes of the batch: what remains of it runs from the
write position, at or below the old end, to the new one. Without bytes, the batch moves no
more than the commit position and the peers' horizon. -/
structure MovesOverBytes (st : AcceptorState) (batch : AppendBatch) (next : AcceptorState)
    (plan : AppendPlan) : Prop where
  run : st.flushLsn < next.flushLsn → plan.writeFrom ≤ st.flushLsn ∧
    (remainingChunks batch.wal plan.skip).flatten =
      batch.wal.flatten.drop (plan.writeFrom - batch.beginLsn) ∧
    plan.writeFrom + (remainingChunks batch.wal plan.skip).flatten.length = next.flushLsn
  quiet : batch.isEmpty = true → next =
    { st with commitLsn := next.commitLsn, peerHorizonLsn := next.peerHorizonLsn }

/-- An accepted batch moves the end over its bytes exactly if it starts within the WAL: an
empty batch further on moves the end over nothing, and a head without WAL takes one that
starts anywhere. -/
theorem append_moves_over_bytes_iff (h : applyAppend st batch = .ok (.ok (next, plan))) :
    MovesOverBytes st batch next plan ↔ batch.beginLsn ≤ st.flushLsn := by
  obtain ⟨-, hplan, hnext⟩ := applyAppend_ok h
  have hflush : next.flushLsn = max st.flushLsn (batch.beginLsn + batch.len) := by rw [hnext]; rfl
  constructor
  · intro hmoves
    by_contra hbegin
    have hmoved : st.flushLsn < next.flushLsn := by lia
    rcases appendPlan_ok hplan with ⟨hempty | hle, -⟩ | ⟨-, -, hle, -⟩
    · have hsame : next.flushLsn = st.flushLsn := by rw [hmoves.quiet hempty]
      exact hmoved.ne' hsame
    · lia
    · exact hbegin (hle.trans (hmoves.run hmoved).1)
  · intro hbegin
    refine ⟨fun hmoved => ?_, fun hempty => ?_⟩
    · rcases applyAppend_bytes h with ⟨-, hsame | ⟨-, hsame⟩⟩ | ⟨-, hstop, hfrom⟩
      · exact absurd hsame hmoved.ne'
      · exact absurd (hsame.trans (max_eq_left hbegin)) hmoved.ne'
      · rcases appendPlan_ok hplan with ⟨hdone, rfl⟩ | ⟨-, -, -, hskip, -⟩
        · rw [AppendBatch.isEmpty_iff] at hdone
          lia
        · refine ⟨by lia, ?_, hstop.symm⟩
          rw [remainingChunks_flatten, hskip]
    · rw [AppendBatch.isEmpty_iff] at hempty
      rw [hempty, Nat.add_zero, max_eq_left hbegin] at hflush
      rw [hnext] at hflush ⊢
      simp only [appendedHead] at hflush ⊢
      rw [hflush]

/-- A batch that overlaps the stored WAL, cut within its second chunk. -/
theorem append_moves_over_bytes_overlap :
    ∃ next plan, applyAppend { term := 1, flushLsn := 13 } ⟨1, 10, [[1, 2], [3, 4, 5]], 0, 0⟩ =
        .ok (.ok (next, plan)) ∧
      MovesOverBytes { term := 1, flushLsn := 13 } ⟨1, 10, [[1, 2], [3, 4, 5]], 0, 0⟩ next plan :=
  ⟨_, _, rfl, (append_moves_over_bytes_iff rfl).mpr (by decide)⟩

/-- An empty batch above the end of the WAL is accepted, and moves the end. -/
theorem empty_append_moves_flush :
    ∃ next plan, applyAppend { term := 1, flushLsn := 13 } ⟨1, 20, [], 0, 0⟩ =
        .ok (.ok (next, plan)) ∧ next.flushLsn = 20 ∧
      ¬ MovesOverBytes { term := 1, flushLsn := 13 } ⟨1, 20, [], 0, 0⟩ next plan := by
  refine ⟨_, _, rfl, rfl, fun h => ?_⟩
  have hsame := congrArg AcceptorState.flushLsn (h.quiet rfl)
  exact absurd hsame (by decide)

/-! ## The common point -/

namespace TermHistory

/-- The term that a history assigns to a position. -/
def termAt (history : TermHistory) (pos : Lsn) : Option Term :=
  (history.upTo pos).getLast?.map TermLsn.term

/-- The terms ascend, and their starts do not descend. -/
def Ascending (history : TermHistory) : Prop :=
  history.Pairwise fun a b => a.term < b.term ∧ a.lsn ≤ b.lsn

/-- Behind the same entries, a term starts at one position in the first history and at
another in the second. -/
def TwoStarts (prop sk : TermHistory) : Prop :=
  ∃ common a p b s, prop = common ++ a :: p ∧ sk = common ++ b :: s ∧ a.term = b.term ∧
    a.lsn ≠ b.lsn

/-- The histories are the common entries and what follows them, from different terms on. -/
structure Part (prop sk common p s : TermHistory) : Prop where
  prop_eq : prop = common ++ p
  sk_eq : sk = common ++ s
  term_ne : ∀ a ∈ p.head?, ∀ b ∈ s.head?, a.term ≠ b.term

/-- The first entries that differ start at one position, below the end of the WAL, and of
the entries that start there both histories have the same one last. -/
def Rejoins (prop sk : TermHistory) (walEnd : Lsn) : Prop :=
  ∃ common a p b s, Part prop sk common (a :: p) (b :: s) ∧ a.lsn = b.lsn ∧ a.lsn < walEnd ∧
    (upTo (a :: p) a.lsn).getLast? = (upTo (b :: s) a.lsn).getLast?

/-- Where two histories part, of which these entries follow the common ones. -/
def fork (prop sk : TermHistory) (walEnd : Lsn) : Lsn :=
  match prop.head? with
  | none => walEnd
  | some next => min next.lsn ((sk.head?.map TermLsn.lsn).getD walEnd)

variable {prop sk common tail : TermHistory} {walEnd pos : Lsn} {c : TermLsn}

/-- The loop stops behind the common entries, or fails at a term with two starts. -/
theorem commonLength_cases (prop sk : TermHistory) :
    (TwoStarts prop sk ∧ ∃ e, commonLength prop sk = .error e) ∨
      ∃ common p s, Part prop sk common p s ∧ commonLength prop sk = .ok common.length := by
  induction prop generalizing sk with
  | nil => exact .inr ⟨[], [], sk, ⟨rfl, rfl, by simp⟩, by simp [commonLength]⟩
  | cons a prop ih =>
    cases sk with
    | nil => exact .inr ⟨[], _, [], ⟨rfl, rfl, by simp⟩, rfl⟩
    | cons b sk =>
      rw [commonLength]
      split_ifs with hterm hlsn
      · exact .inr ⟨[], _, _, ⟨rfl, rfl, by simpa using hterm⟩, rfl⟩
      · exact .inl ⟨⟨[], a, prop, b, sk, rfl, rfl, not_not.mp hterm, hlsn⟩, _, rfl⟩
      · obtain rfl : a = b := by
          cases a
          cases b
          simp_all
        rcases ih sk with ⟨⟨common, x, p, y, s, rfl, rfl, hstarts⟩, e, he⟩ |
          ⟨common, p, s, ⟨rfl, rfl, hne⟩, hlen⟩
        · exact .inl ⟨⟨a :: common, x, p, y, s, rfl, rfl, hstarts⟩, e, by rw [he]; rfl⟩
        · exact .inr ⟨a :: common, p, s, ⟨rfl, rfl, hne⟩, by rw [hlen]; rfl⟩

theorem pointOf_append (common p s : TermHistory) (walEnd : Lsn) :
    pointOf (common ++ p) (common ++ s) walEnd common.length =
      common.getLast?.map fun c => ⟨c.term, fork p s walEnd⟩ := by
  induction common using reverseRecOn with
  | nil => rfl
  | append_singleton front c =>
    have hnext : ∀ tail : TermHistory, (front ++ c :: tail)[front.length + 1]? = tail.head? := by
      intro tail
      rw [getElem?_append_right (by omega), Nat.add_sub_cancel_left]
      cases tail <;> rfl
    simp only [append_assoc, singleton_append, length_append, length_singleton,
      pointOf, fork, hnext]
    cases p <;> simp

/-- The search fails at a term with two starts, or finds the end of the common entries. -/
theorem findHighestCommonPoint_cases (prop : TermHistory) (hend : ∀ e ∈ sk, e.lsn ≤ walEnd) :
    (TwoStarts prop sk ∧ ∃ e, findHighestCommonPoint prop sk walEnd = .error e) ∨
      ∃ common p s, Part prop sk common p s ∧ findHighestCommonPoint prop sk walEnd =
        .ok (common.getLast?.map fun c => ⟨c.term, fork p s walEnd⟩) := by
  have hfind : findHighestCommonPoint prop sk walEnd =
      (commonLength prop sk).map (pointOf prop sk walEnd) := by
    unfold findHighestCommonPoint
    split
    · next last hlast =>
      rw [require, if_pos (hend last (mem_of_getLast? hlast))]
      cases commonLength prop sk <;> rfl
    · cases commonLength prop sk <;> rfl
  rw [hfind]
  rcases commonLength_cases prop sk with ⟨htwo, e, he⟩ | ⟨common, p, s, hpart, hlen⟩
  · exact .inl ⟨htwo, e, by rw [he]; rfl⟩
  · refine .inr ⟨common, p, s, hpart, ?_⟩
    rw [hlen, hpart.prop_eq, hpart.sk_eq, ← pointOf_append]
    rfl

theorem fork_le {p s : TermHistory} (hend : ∀ e ∈ s, e.lsn ≤ walEnd) :
    fork p s walEnd ≤ walEnd := by
  cases p with
  | nil => exact le_rfl
  | cons a p =>
    cases s with
    | nil => exact min_le_right _ _
    | cons b s => exact (min_le_right _ _).trans (hend b mem_cons_self)

/-- The histories part at the end of the WAL or where one of them goes on. -/
theorem fork_cases {p s : TermHistory} (hs : p = [] → s = []) :
    (∀ a ∈ p.head?, fork p s walEnd ≤ a.lsn) ∧ (∀ b ∈ s.head?, fork p s walEnd ≤ b.lsn) ∧
      (fork p s walEnd = walEnd ∨ (∃ a ∈ p.head?, a.lsn = fork p s walEnd) ∨
        ∃ b ∈ s.head?, b.lsn = fork p s walEnd) := by
  cases p with
  | nil => simp [fork, hs rfl]
  | cons a p => cases s <;> simp [fork] <;> lia

theorem upTo_append (hpos : ∀ e ∈ tail.head?, pos < e.lsn) :
    upTo (common ++ tail) pos = upTo common pos := by
  have hnone : upTo tail pos = [] := by
    cases tail with
    | nil => rfl
    | cons a tail => exact takeWhile_cons_of_neg (by simpa using hpos a rfl)
  unfold upTo at hnone ⊢
  rw [takeWhile_append, hnone]
  split_ifs with hall
  · rw [append_nil, (List.takeWhile_prefix _).eq_of_length hall]
  · rfl

/-- The common entries of two histories are determined. -/
theorem Part.unique {common' p s p' s' : TermHistory} (h : Part prop sk common p s)
    (h' : Part prop sk common' p' s') : common = common' ∧ p = p' ∧ s = s' := by
  obtain ⟨rfl, rfl, hne⟩ := h
  obtain ⟨hprop, hsk, hne'⟩ := h'
  induction common generalizing common' with
  | nil =>
    cases common' with
    | nil => exact ⟨rfl, hprop, hsk⟩
    | cons x _ => exact absurd rfl (hne x (by simp_all) x (by simp_all))
  | cons x common ih =>
    cases common' with
    | nil => exact absurd rfl (hne' x (congrArg head? hprop).symm x (congrArg head? hsk).symm)
    | cons y common' =>
      obtain ⟨rfl, htail⟩ := cons.inj hprop
      exact (ih htail (cons.inj hsk).2).imp_left (congrArg (x :: ·))

/-- Behind the last common entry, a history has its term until it goes on. -/
theorem termAt_concat (h : Ascending (common ++ [c] ++ tail)) (hc : c.lsn ≤ pos) :
    termAt (common ++ [c] ++ tail) pos = some ((upTo tail pos).getLast?.getD c).term := by
  have hall : ∀ e ∈ common ++ [c], decide (e.lsn ≤ pos) = true := by
    intro e he
    rcases mem_append.mp he with he | he
    · have hle := ((pairwise_append.mp (pairwise_append.mp h).1).2.2 e he c mem_cons_self).2
      exact decide_eq_true (hle.trans hc)
    · exact decide_eq_true (mem_singleton.mp he ▸ hc)
  rw [termAt, upTo, takeWhile_append_of_pos hall]
  change Option.map _ (common ++ [c] ++ upTo tail pos).getLast? = _
  rw [getLast?_append, getLast?_concat]
  cases (upTo tail pos).getLast? <;> rfl

/-- What a history goes on with has later terms. -/
theorem lt_of_mem_upTo (h : Ascending (common ++ [c] ++ tail)) {e : TermLsn}
    (he : e ∈ (upTo tail pos).getLast?) : c.term < e.term ∧ e ∈ tail ∧ e.lsn ≤ pos := by
  have hmem := mem_of_getLast? he
  have htail := (takeWhile_sublist _).subset hmem
  exact ⟨((pairwise_append.mp h).2.2 c (by simp) e htail).1, htail,
    by simpa using mem_takeWhile_imp (p := fun e : TermLsn => decide (e.lsn ≤ pos)) hmem⟩

theorem lsn_le_of_mem {first e : TermLsn} (h : Ascending (common ++ first :: tail))
    (he : e ∈ first :: tail) : first.lsn ≤ e.lsn := by
  rcases mem_cons.mp he with rfl | he
  · exact le_rfl
  · exact (rel_of_pairwise_cons (pairwise_append.mp h).2.1 he).2

theorem getLast?_upTo {e : TermLsn} (he : e ∈ tail.head?) (hpos : e.lsn ≤ pos) :
    ∃ last, (upTo tail pos).getLast? = some last := by
  obtain ⟨tail, rfl⟩ := head?_eq_some_iff.mp he
  rw [upTo, takeWhile_cons_of_pos (by simpa using hpos)]
  exact ⟨_, getLast?_eq_some_getLast (cons_ne_nil _ _)⟩

/-- Two histories that have one term where one of them goes on both go on there. -/
theorem last_of_termAt_eq {p s : TermHistory} (hprop : Ascending (common ++ [c] ++ p))
    (hsk : Ascending (common ++ [c] ++ s)) (hc : c.lsn ≤ pos)
    (hsame : termAt (common ++ [c] ++ p) pos = termAt (common ++ [c] ++ s) pos)
    (hstart : (∃ a ∈ p.head?, a.lsn ≤ pos) ∨ ∃ b ∈ s.head?, b.lsn ≤ pos) :
    ∃ a ∈ (upTo p pos).getLast?, ∃ b ∈ (upTo s pos).getLast?, a.term = b.term := by
  rw [termAt_concat hprop hc, termAt_concat hsk hc] at hsame
  cases hP : (upTo p pos).getLast? with
  | none =>
    cases hS : (upTo s pos).getLast? with
    | none =>
      rcases hstart with ⟨a, ha, hle⟩ | ⟨b, hb, hle⟩
      · simpa [hP] using getLast?_upTo ha hle
      · simpa [hS] using getLast?_upTo hb hle
    | some b => exact absurd (by simpa [hP, hS] using hsame) (lt_of_mem_upTo hsk hS).1.ne
  | some a =>
    cases hS : (upTo s pos).getLast? with
    | none => exact absurd (by simpa [hP, hS] using hsame) (lt_of_mem_upTo hprop hP).1.ne'
    | some b => exact ⟨a, rfl, b, rfl, by simpa [hP, hS] using hsame⟩

/-- The greatest position below which two functions agree is the first at which they do
not, or the last one there is. -/
theorem isGreatest_agree_iff {α : Type} {f g : Lsn → α} {stop : Lsn} (hstop : stop ≤ walEnd)
    (hbelow : ∀ pos < stop, f pos = g pos) :
    IsGreatest {l : Lsn | l ≤ walEnd ∧ ∀ pos < l, f pos = g pos} stop ↔
      ¬ (stop < walEnd ∧ f stop = g stop) := by
  refine ⟨fun h ⟨hlt, hsame⟩ => ?_, fun h => ⟨⟨hstop, hbelow⟩, fun l hl => ?_⟩⟩
  · have hnext : stop + 1 ≤ stop := h.2 ⟨hlt, fun pos hpos => ?_⟩
    · exact absurd hnext (Nat.not_succ_le_self _)
    · rcases Nat.lt_succ_iff_lt_or_eq.mp hpos with hpos | rfl
      · exact hbelow pos hpos
      · exact hsame
  · by_contra hlt
    exact h ⟨(not_le.mp hlt).trans_le hl.1, hl.2 _ (not_le.mp hlt)⟩

/-- **The common point is the highest.** For histories whose terms ascend, the search fails
where the first entries that differ give one term two starts. Otherwise it finds a point
exactly if the histories share their first entry, and the point is the greatest position
of the WAL below which they assign the same terms, unless they rejoin there. -/
theorem findHighestCommonPoint_greatest (prop sk : TermHistory) (walEnd : Lsn)
    (hprop : prop.Ascending) (hsk : sk.Ascending)
    (hlast : ∀ last ∈ prop.getLast?, ∀ e ∈ sk, e.term ≤ last.term)
    (hend : ∀ e ∈ sk, e.lsn ≤ walEnd) :
    (TwoStarts prop sk ∧ ∃ e, findHighestCommonPoint prop sk walEnd = .error e) ∨
    ∃ found, findHighestCommonPoint prop sk walEnd = .ok found ∧
      (found = none ↔ ¬ ∃ first, prop.head? = some first ∧ sk.head? = some first) ∧
      ∀ point ∈ found, IsGreatest
          {l : Lsn | l ≤ walEnd ∧ ∀ pos < l, prop.termAt pos = sk.termAt pos} point.lsn ↔
        ¬ Rejoins prop sk walEnd := by
  rcases findHighestCommonPoint_cases prop hend with
    htwo | ⟨common, p, s, hpart, hfind⟩
  · exact .inl htwo
  obtain ⟨rfl, rfl, hne⟩ := id hpart
  refine .inr ⟨_, hfind, ?_, fun point hpoint => ?_⟩
  · cases common with
    | nil =>
      simp only [getLast?_nil, map_none, true_iff, nil_append]
      rintro ⟨first, hp, hs⟩
      exact hne first hp first hs rfl
    | cons first common => simp
  obtain ⟨c, hc, rfl⟩ := map_eq_some_iff.mp hpoint
  obtain ⟨front, rfl⟩ := getLast?_eq_some_iff.mp hc
  have hpc := fun a ha => (pairwise_append.mp hprop).2.2 c (by simp) a (mem_of_mem_head? ha)
  have hsc := fun b hb => (pairwise_append.mp hsk).2.2 c (by simp) b (mem_of_mem_head? hb)
  -- behind its last term, a proposer's history has none that the acceptor could add
  have hnil : p = [] → s = [] := by
    rintro rfl
    cases s with
    | nil => rfl
    | cons b s => exact absurd (hlast c (by simp) b (by simp)) (not_le.mpr (hsc b rfl).1)
  obtain ⟨hp, hs, hmin⟩ : _ ∧ _ ∧ (fork p s walEnd = walEnd ∨ _) := fork_cases hnil
  have hle : fork p s walEnd ≤ walEnd := fork_le fun e he => hend e (mem_append_right _ he)
  have hbelow : ∀ pos < fork p s walEnd,
      termAt (front ++ [c] ++ p) pos = termAt (front ++ [c] ++ s) pos := fun pos hpos => by
    rw [termAt, upTo_append fun a ha => hpos.trans_le (hp a ha), termAt,
      upTo_append fun b hb => hpos.trans_le (hs b hb)]
  have hstart : c.lsn ≤ fork p s walEnd := by
    rcases hmin with hw | ⟨a, ha, hal⟩ | ⟨b, hb, hbl⟩
    · exact (hend c (by simp)).trans hw.ge
    · exact hal ▸ (hpc a ha).2
    · exact hbl ▸ (hsc b hb).2
  refine (isGreatest_agree_iff hle hbelow).trans (not_congr ⟨fun ⟨hlt, hsame⟩ => ?_, ?_⟩)
  · -- both go on at the fork, and what they have last there is one entry
    obtain ⟨a, ha, b, hb, hterm⟩ := last_of_termAt_eq hprop hsk hstart hsame
      ((hmin.resolve_left hlt.ne).imp (.imp fun _ => .imp_right le_of_eq)
        (.imp fun _ => .imp_right le_of_eq))
    obtain ⟨-, hap, hafork⟩ := lt_of_mem_upTo hprop ha
    obtain ⟨-, hbs, hbfork⟩ := lt_of_mem_upTo hsk hb
    obtain ⟨x, p, rfl⟩ := exists_cons_of_ne_nil (ne_nil_of_mem hap)
    obtain ⟨y, s, rfl⟩ := exists_cons_of_ne_nil (ne_nil_of_mem hbs)
    have hx := lsn_le_of_mem hprop hap
    have hy := lsn_le_of_mem hsk hbs
    have hpx := hp x rfl
    have hsy := hs y rfl
    have hxf : x.lsn = fork (x :: p) (y :: s) walEnd := le_antisymm (hx.trans hafork) hpx
    have hyf : y.lsn = fork (x :: p) (y :: s) walEnd := le_antisymm (hy.trans hbfork) hsy
    have hab : a = b := by
      cases a
      cases b
      simp only [TermLsn.mk.injEq]
      exact ⟨hterm, (hafork.antisymm (hpx.trans hx)).trans (hbfork.antisymm (hsy.trans hy)).symm⟩
    exact ⟨_, x, p, y, s, hpart, hxf.trans hyf.symm, hxf ▸ hlt, by
      rw [hxf, Option.mem_def.mp ha, Option.mem_def.mp hb, hab]⟩
  · rintro ⟨common, a, p', b, s', hpart', hab, hlt, hsame⟩
    obtain ⟨-, rfl, rfl⟩ := hpart.unique hpart'
    have hfork : fork (a :: p') (b :: s') walEnd = a.lsn := by simp [fork, hab]
    rw [hfork] at hstart ⊢
    exact ⟨hlt, by rw [termAt_concat hprop hstart, termAt_concat hsk hstart, hsame]⟩

/-- Two terms of the proposer start at one position, where the acceptor has a third. -/
theorem findHighestCommonPoint_greatest_tie :
    findHighestCommonPoint [⟨1, 0⟩, ⟨2, 10⟩, ⟨4, 10⟩] [⟨1, 0⟩, ⟨3, 10⟩] 20 = .ok (some ⟨1, 10⟩) ∧
      IsGreatest {l : Lsn | l ≤ 20 ∧ ∀ pos < l, termAt [⟨1, 0⟩, ⟨2, 10⟩, ⟨4, 10⟩] pos =
        termAt [⟨1, 0⟩, ⟨3, 10⟩] pos} 10 := by
  have hfind : findHighestCommonPoint [⟨1, 0⟩, ⟨2, 10⟩, ⟨4, 10⟩] [⟨1, 0⟩, ⟨3, 10⟩] 20 =
      .ok (some ⟨1, 10⟩) := rfl
  have hpart : Part [⟨1, 0⟩, ⟨2, 10⟩, ⟨4, 10⟩] [⟨1, 0⟩, ⟨3, 10⟩] [⟨1, 0⟩]
      [⟨2, 10⟩, ⟨4, 10⟩] [⟨3, 10⟩] := ⟨rfl, rfl, by simp⟩
  refine ⟨hfind, ?_⟩
  rcases findHighestCommonPoint_greatest [⟨1, 0⟩, ⟨2, 10⟩, ⟨4, 10⟩] [⟨1, 0⟩, ⟨3, 10⟩] 20
    (by simp [Ascending]) (by simp [Ascending]) (by simp) (by simp) with
    ⟨-, e, he⟩ | ⟨found, hfound, -, hgreatest⟩
  · rw [hfind] at he
    cases he
  · rw [hfind] at hfound
    cases hfound
    refine (hgreatest _ rfl).mpr ?_
    rintro ⟨common, a, p, b, s, hrejoin, -, -, hlast⟩
    obtain ⟨-, hp, hs⟩ := hpart.unique hrejoin
    cases hp
    cases hs
    exact absurd hlast (by decide)

/-- A term with two starts is an error, though the histories agree below the first of them;
and of two histories in which a term starts where the one before it did, the search stops
at the first terms that differ, though those have no positions. -/
theorem findHighestCommonPoint_two_starts_or_empty_term :
    (∃ e, findHighestCommonPoint [⟨1, 0⟩, ⟨2, 10⟩] [⟨1, 0⟩, ⟨2, 20⟩] 30 = .error e) ∧
    findHighestCommonPoint [⟨1, 0⟩, ⟨2, 10⟩, ⟨5, 10⟩] [⟨1, 0⟩, ⟨3, 10⟩, ⟨5, 10⟩] 30 =
      .ok (some ⟨1, 10⟩) ∧
    ∀ pos < 30, termAt [⟨1, 0⟩, ⟨2, 10⟩, ⟨5, 10⟩] pos = termAt [⟨1, 0⟩, ⟨3, 10⟩, ⟨5, 10⟩] pos := by
  refine ⟨⟨_, rfl⟩, rfl, ?_⟩
  decide

end TermHistory

theorem commonPoint_ok {lcp : TermLsn} (h : commonPoint st msg = .ok lcp) :
    msg.termHistory.head? = some lcp ∨ (lcp.lsn ≤ st.walEnd ∧
      ∃ first, msg.termHistory.head? = some first ∧ st.termHistory.head? = some first) := by
  unfold commonPoint at h
  obtain ⟨found, hfound, h⟩ := except_bind_ok.mp h
  cases found with
  | none =>
    left
    dsimp only at h
    split at h
    · next hhead => rw [hhead, Except.ok.inj h]
    · cases h
  | some p =>
    right
    obtain rfl := Except.ok.inj h
    have hstored : ∀ e ∈ st.storedTermHistory, e.lsn ≤ st.walEnd := fun e he => by
      simpa using mem_takeWhile_imp he
    obtain ⟨rest, hrest⟩ : st.storedTermHistory <+: st.termHistory := takeWhile_prefix _
    rcases TermHistory.findHighestCommonPoint_cases msg.termHistory hstored with
      ⟨-, e, he⟩ | ⟨common, p, s, hpart, hok⟩
    · rw [he] at hfound
      cases hfound
    · rw [hok] at hfound
      obtain ⟨c, hc, rfl⟩ := map_eq_some_iff.mp (Except.ok.inj hfound)
      refine ⟨TermHistory.fork_le fun e he => hstored e ?_, ?_⟩
      · rw [hpart.sk_eq]
        exact mem_append_right _ he
      · cases common with
        | nil => cases hc
        | cons first common =>
          exact ⟨first, by rw [hpart.prop_eq]; rfl, by rw [← hrest, hpart.sk_eq]; rfl⟩

/-! ## The order of the positions -/

/-- The positions of a head are in order. A timeline whose start is not known has no
history, or one from the first position. -/
structure HeadOk (st : AcceptorState) : Prop where
  start_le : st.timelineStartLsn ≤ st.commitLsn
  commit_le : st.commitLsn ≤ st.flushLsn
  trimmed_le : st.trimmedLsn ≤ st.commitLsn
  local_le : st.localStartLsn ≤ st.trimmedLsn
  zero_start : st.timelineStartLsn = 0 → ∀ e ∈ st.termHistory.head?, e.lsn = 0

namespace HeadOk

theorem new (server : ServerInfo) (startLsn : Lsn) :
    HeadOk (AcceptorState.new server startLsn) where
  start_le := le_rfl
  commit_le := le_rfl
  trimmed_le := le_rfl
  local_le := le_rfl
  zero_start _ := by rintro e ⟨⟩

theorem walEnd_eq (h : HeadOk st) : st.walEnd = st.flushLsn :=
  max_eq_left (h.start_le.trans h.commit_le)

theorem vote (h : HeadOk st) (term : Term) : HeadOk (applyVote st term).2 := by
  unfold applyVote
  split_ifs
  · exact { h with }
  · exact h

theorem updateMeta (h : HeadOk st) (update : MetaUpdate) : HeadOk (updateMeta st update) :=
  { h with }

variable {msg : ProposerElected}

/-- The timeline's start after an election is not above the truncation point. -/
theorem electedHead_start_le (h : HeadOk st)
    (helected : applyElected st msg = .ok (.ok (next, stop))) :
    (electedHead st msg).timelineStartLsn ≤ stop := by
  obtain ⟨-, -, -, hcommit, lcp, hlcp, hstop⟩ := applyElected_ok helected
  unfold electedHead
  dsimp only
  split_ifs with hzero
  · rcases commonPoint_ok hlcp with hhead | ⟨-, first, hhead, hfirst⟩
    · rw [hhead]
      exact hstop.le
    · rw [hhead, map_some, getD_some, h.zero_start hzero first hfirst]
      exact Nat.zero_le _
  · exact h.start_le.trans hcommit

/-- An election keeps the order of the positions. -/
theorem elected (h : HeadOk st) (helected : applyElected st msg = .ok (.ok (next, stop))) :
    HeadOk next := by
  have hstart := h.electedHead_start_le helected
  obtain ⟨-, rfl, rfl, hcommit, lcp, hlcp, hstop⟩ := applyElected_ok helected
  -- Without WAL, every position is still zero, and becomes the truncation point.
  have hzero : st.flushLsn = 0 → st.timelineStartLsn = 0 ∧ st.commitLsn = 0 ∧ st.trimmedLsn = 0 ∧
      st.localStartLsn = 0 := by
    have := h.start_le
    have := h.commit_le
    have := h.trimmed_le
    have := h.local_le
    lia
  have hpoint : st.flushLsn = 0 → msg.startStreamingAt ≤ (electedHead st msg).timelineStartLsn := by
    intro hflush
    have hwal := h.walEnd_eq
    rcases commonPoint_ok hlcp with hhead | ⟨hle, -⟩
    · simp [electedHead, (hzero hflush).1, hhead, hstop]
    · lia
  have hkept := h.trimmed_le
  have hlocal := h.local_le
  refine ⟨le_max_right _ _, max_le hcommit hstart, ?_, ?_, ?_⟩
  · simp only [electedHead] at hpoint ⊢
    grind
  · simp only [electedHead]
    grind
  · intro hstart' e he
    simp only [electedHead] at hstart' he
    split_ifs at hstart' with hunknown
    · rw [he] at hstart'
      exact hstart'
    · exact absurd hstart' hunknown

theorem append (h : HeadOk st) {batch : AppendBatch} {plan : AppendPlan}
    (happend : applyAppend st batch = .ok (.ok (next, plan))) : HeadOk next := by
  obtain ⟨-, -, rfl⟩ := applyAppend_ok happend
  have hstart := h.start_le
  have hcommit := h.commit_le
  have hle : st.commitLsn ≤ (appendedHead st batch (batch.beginLsn + batch.len)).commitLsn := by
    simp only [appendedHead]
    split_ifs
    · exact le_max_left _ _
    · exact le_rfl
  refine ⟨hstart.trans hle, ?_, h.trimmed_le.trans hle, h.local_le, h.zero_start⟩
  simp only [appendedHead]
  split_ifs <;> lia

theorem commitLsn (h : HeadOk st) {lsn : Lsn}
    (hcommit : applyCommitLsn st term lsn = .ok (.ok next)) : HeadOk next := by
  obtain ⟨-, rfl⟩ := applyCommitLsn_ok hcommit
  have hwal := h.walEnd_eq
  have hle := h.commit_le
  refine ⟨h.start_le.trans (le_max_left _ _), ?_, h.trimmed_le.trans (le_max_left _ _), h.local_le,
    h.zero_start⟩
  exact max_le hle ((min_le_right _ _).trans hwal.le)

theorem trim (h : HeadOk st) {bound : Lsn} (hle : bound ≤ st.commitLsn)
    (hge : st.trimmedLsn ≤ bound) : HeadOk { st with trimmedLsn := bound } :=
  { h with
    trimmed_le := hle
    local_le := h.local_le.trans hge }

end HeadOk

end Loams.Safekeeper
