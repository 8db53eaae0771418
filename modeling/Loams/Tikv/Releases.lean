/-
# Releases on TiKV and in the state machine
-/

import Loams.Meta.LogInvariant
import Loams.Tikv.Represents

namespace Loams.Meta.MetaState

variable {s : MetaState}

/-- What is left of a live count once a number of entries is released. -/
def liveAfter (live : Option ℕ) (released : ℕ) : Option ℕ :=
  if released = 0 then live else Meta.liveCount (live.getD 0 - released)

/-- Whether releasing the entries retires the object. -/
def Retires (live : Option ℕ) (removed : List IndexEntry) (o : String) : Prop :=
  (∃ e ∈ removed, e.kind = .segment ∧ e.object = o) ∨
    removed.countP (namesWal o) ≠ 0 ∧ live.getD 0 - removed.countP (namesWal o) = 0

instance (live : Option ℕ) (removed : List IndexEntry) (o : String) :
    Decidable (Retires live removed o) :=
  inferInstanceAs (Decidable (_ ∨ _))

@[simp] theorem getD_liveAfter (live : Option ℕ) (released : ℕ) :
    (liveAfter live released).getD 0 = live.getD 0 - released := by
  unfold liveAfter Meta.liveCount
  split_ifs <;> simp_all

theorem liveAfter_add (live : Option ℕ) (a b : ℕ) :
    liveAfter (liveAfter live a) b = liveAfter live (a + b) := by
  by_cases hb : b = 0
  · simp [liveAfter, hb]
  · rw [liveAfter, if_neg hb, getD_liveAfter, liveAfter, if_neg (by omega), Nat.sub_sub]

theorem countP_cons_eq (e : IndexEntry) (removed : List IndexEntry) (o : String) :
    (e :: removed).countP (namesWal o) = [e].countP (namesWal o) + removed.countP (namesWal o) := by
  rw [← List.countP_append]
  rfl

theorem retires_cons {live : Option ℕ} {e : IndexEntry} {removed : List IndexEntry} {o : String} :
    Retires live (e :: removed) o ↔
      Retires live [e] o ∨ Retires (liveAfter live ([e].countP (namesWal o))) removed o := by
  have hsome : (∃ x ∈ e :: removed, x.kind = .segment ∧ x.object = o) ↔
      (∃ x ∈ [e], x.kind = .segment ∧ x.object = o) ∨
        ∃ x ∈ removed, x.kind = .segment ∧ x.object = o := by
    simp
  simp only [Retires, countP_cons_eq e removed, hsome, getD_liveAfter]
  have hsplit : ∀ l a n : ℕ, a + n ≠ 0 ∧ l - (a + n) = 0 ↔
      (a ≠ 0 ∧ l - a = 0) ∨ (n ≠ 0 ∧ l - a - n = 0) := by omega
  rw [hsplit]
  exact or_or_or_comm

/-- One release takes one entry off its object's count, or retires a segment. -/
theorem releaseEntry_get (e : IndexEntry) (o : String) :
    (s.releaseEntry e).walLiveChunks[o]? =
        liveAfter s.walLiveChunks[o]? ([e].countP (namesWal o)) ∧
      (s.releaseEntry e).retired[o]? =
        if Retires s.walLiveChunks[o]? [e] o then some s.clockMs else s.retired[o]? := by
  have hnames := namesWal_eq_true (o := o) (e := e)
  cases hkind : e.kind with
  | segment =>
    have hnot : namesWal o e = false := by simpa [hkind] using hnames
    have hretires : Retires s.walLiveChunks[o]? [e] o ↔ e.object = o := by
      simp [Retires, hkind, hnot]
    simp only [releaseEntry, hkind, hretires, Std.ExtTreeMap.get_insert, List.countP_cons, hnot,
      List.countP_nil]
    exact ⟨rfl, trivial⟩
  | wal =>
    have hretires : Retires s.walLiveChunks[o]? [e] o ↔
        e.object = o ∧ (s.walLiveChunks[o]?).getD 0 - 1 = 0 := by
      by_cases ho : e.object = o <;> simp_all [Retires]
    by_cases ho : e.object = o
    · subst ho
      have hone : [e].countP (namesWal e.object) = 1 := by simp [hnames, hkind]
      rw [hone]
      simp only [hretires, releaseEntry, hkind, true_and, liveAfter, Meta.liveCount]
      split_ifs <;> simp_all
    · have hzero : [e].countP (namesWal o) = 0 := by simp [hnames, ho]
      rw [hzero]
      simp only [hretires, releaseEntry, hkind, ho, false_and, liveAfter]
      split_ifs <;> simp_all [Std.ExtTreeMap.get_insert, Std.ExtTreeMap.get_erase]

/-- What a run of releases leaves of an object's count, and when it retires the
object. -/
theorem releaseEntries_get (removed : List IndexEntry) (o : String) :
    (s.releaseEntries removed).walLiveChunks[o]? =
        liveAfter s.walLiveChunks[o]? (removed.countP (namesWal o)) ∧
      (s.releaseEntries removed).retired[o]? =
        if Retires s.walLiveChunks[o]? removed o then some s.clockMs else s.retired[o]? := by
  induction removed generalizing s with
  | nil => exact ⟨rfl, by simp [Retires]; rfl⟩
  | cons e rest ih =>
    obtain ⟨hlive, hretired⟩ := releaseEntry_get (s := s) e o
    obtain ⟨hlive', hretired'⟩ := ih (s := s.releaseEntry e)
    have hclock : (s.releaseEntry e).clockMs = s.clockMs := by
      obtain ⟨live, retired, heq⟩ := releaseEntries_eq (s := s) [e]
      have hclock := congrArg MetaState.clockMs heq
      exact hclock
    have hrun : s.releaseEntries (e :: rest) = (s.releaseEntry e).releaseEntries rest := rfl
    rw [hrun, hretired', hclock, hretired, hlive', hlive, liveAfter_add, countP_cons_eq e rest]
    have hcons : Retires s.walLiveChunks[o]? (e :: rest) o ↔ _ := retires_cons
    simp only [hcons, or_comm (a := Retires _ [e] o), ite_or, true_and]

end Loams.Meta.MetaState

namespace Loams.Tikv

open List Loams.Data Loams.Meta Loams.Control Program MetaState Key

variable {F : Format} {store : Store}

/-- The keys that a release writes. -/
def IsRelease : Key → Prop
  | .walLive _ | .retired _ => True
  | _ => False

theorem releasedWal_get (entries : List IndexEntry) (o : String) :
    (releasedWal entries)[o]? =
      if entries.countP (namesWal o) = 0 then none else some (entries.countP (namesWal o)) := by
  induction entries using reverseRecOn with
  | nil => simp [releasedWal]
  | append_singleton entries e ih =>
    have hnames := namesWal_eq_true (o := o) (e := e)
    rw [countP_append]
    cases hkind : e.kind with
    | segment =>
      have hnot : namesWal o e = false := by simpa [hkind] using hnames
      have hstep : releasedWal (entries ++ [e]) = releasedWal entries := by
        simp [releasedWal, foldl_append, hkind]
      simpa [hnot, hstep] using ih
    | wal =>
      have hstep : releasedWal (entries ++ [e]) = (releasedWal entries).insert e.object
          (((releasedWal entries)[e.object]?).getD 0 + 1) := by
        simp [releasedWal, foldl_append, hkind]
      rw [hstep, Std.ExtTreeMap.get_insert]
      by_cases ho : e.object = o
      · subst ho
        have hone : [e].countP (namesWal e.object) = 1 := by simp [hnames, hkind]
        rw [if_pos rfl, ih, hone, if_neg (Nat.succ_ne_zero _)]
        split_ifs with hzero
        · rw [hzero]
          rfl
        · rfl
      · have hzero : [e].countP (namesWal o) = 0 := by simp [hnames, ho]
        rw [if_neg ho, ih, hzero]
        rfl

theorem retireSegments_spec (store : Store) (entries : List IndexEntry) (nowMs : ℕ) :
    Keeps F IsRelease store (retireSegments F store entries nowMs) ∧
      (∀ o : String, (retireSegments F store entries nowMs)[(walLive o).bytes F]? =
        store[(walLive o).bytes F]?) ∧
      ∀ o : String, (retireSegments F store entries nowMs)[(retired o).bytes F]? =
        if entries.any fun e => e.kind = .segment ∧ e.object = o then some (beBytes 8 nowMs)
        else store[(retired o).bytes F]? := by
  induction entries generalizing store with
  | nil => exact ⟨.refl _ _, fun _ => rfl, fun _ => rfl⟩
  | cons e rest ih =>
    cases hkind : e.kind with
    | wal =>
      have hstep :
          retireSegments F store (e :: rest) nowMs = retireSegments F store rest nowMs := by
        simp [retireSegments, hkind]
      rw [hstep]
      simpa [hkind] using ih store
    | segment =>
      have hstep : retireSegments F store (e :: rest) nowMs = retireSegments F
          (store.insert ((retired e.object).bytes F) (beBytes 8 nowMs)) rest nowMs := by
        simp [retireSegments, hkind]
      have hfits : (retired e.object).Fits := trivial
      obtain ⟨hkeeps, hlive, hretired⟩ :=
        ih (store.insert ((retired e.object).bytes F) (beBytes 8 nowMs))
      rw [hstep]
      refine ⟨(Keeps.insert hfits trivial _).trans hkeeps, fun o => ?_, fun o => ?_⟩
      · rw [hlive, get_insert_bytes hfits (l := .walLive o) trivial]
        simp
      · rw [hretired, get_insert_bytes hfits (l := .retired o) trivial]
        by_cases ho : e.object = o <;> simp [hkind, ho]

/-- Each object of the list has its live count rewritten once, and retires when
nothing is left. -/
theorem releaseWal_spec (nowMs : ℕ) {live : Store} (count released : String → ℕ)
    {l : List (String × ℕ)}
    (hcount : ∀ pair ∈ l, liveCount live[(walLive pair.1).bytes F]? = .ok (count pair.1))
    (hreleased : ∀ pair ∈ l, pair.2 = released pair.1) (store : Store) : ∃ store',
      (releaseWal F live nowMs l).exec store = (.ok (), store') ∧ Keeps F IsRelease store store' ∧
      (∀ o : String, store'[(walLive o).bytes F]? =
        if o ∈ l.map Prod.fst then (Meta.liveCount (count o - released o)).map (beBytes 4)
        else store[(walLive o).bytes F]?) ∧
      ∀ o : String, store'[(retired o).bytes F]? =
        if o ∈ l.map Prod.fst ∧ count o - released o = 0 then some (beBytes 8 nowMs)
        else store[(retired o).bytes F]? := by
  induction l generalizing store with
  | nil => exact ⟨store, rfl, .refl _ _, fun o => by simp, fun o => by simp⟩
  | cons pair rest ih =>
    obtain ⟨object, n⟩ := pair
    obtain rfl : n = released object := hreleased (object, n) mem_cons_self
    have hfirst := hcount (object, released object) mem_cons_self
    have hlive : (walLive object).Fits := trivial
    have hretired : (retired object).Fits := trivial
    -- the store after the first object
    obtain ⟨next, hnext, hkeeps, hlive', hretired'⟩ : ∃ next,
        (releaseWal F live nowMs ((object, released object) :: rest)).exec store =
          (releaseWal F live nowMs rest).exec next ∧ Keeps F IsRelease store next ∧
        (∀ o : String, next[(walLive o).bytes F]? =
          if o = object then (Meta.liveCount (count o - released o)).map (beBytes 4)
          else store[(walLive o).bytes F]?) ∧
        ∀ o : String, next[(retired o).bytes F]? =
          if o = object ∧ count o - released o = 0 then some (beBytes 8 nowMs)
          else store[(retired o).bytes F]? := by
      by_cases hzero : count object - released object = 0
      · refine ⟨(store.erase ((walLive object).bytes F)).insert
          ((retired object).bytes F) (beBytes 8 nowMs), ?_,
          (Keeps.erase hlive trivial).trans (Keeps.insert hretired trivial _),
          fun o => ?_, fun o => ?_⟩
        · rw [releaseWal, hfirst, exec_ok_bind, if_pos hzero]
          rfl
        all_goals
          rw [get_insert_bytes hretired (by trivial), get_erase_bytes hlive (by trivial)]
          by_cases ho : o = object
          · simp [ho, hzero, Meta.liveCount]
          · simp [ho, Ne.symm ho]
      · refine ⟨store.insert ((walLive object).bytes F)
          (beBytes 4 (count object - released object)), ?_, Keeps.insert hlive trivial _,
          fun o => ?_, fun o => ?_⟩
        · rw [releaseWal, hfirst, exec_ok_bind, if_neg hzero]
          rfl
        all_goals
          rw [get_insert_bytes hlive (by trivial)]
          by_cases ho : o = object
          · simp [ho, hzero, Meta.liveCount]
          · simp [ho, Ne.symm ho]
    obtain ⟨store', hrest, hkeeps', hlive'', hretired''⟩ := ih
      (fun p hp => hcount p (mem_cons_of_mem _ hp))
      (fun p hp => hreleased p (mem_cons_of_mem _ hp)) next
    refine ⟨store', hnext.trans hrest, hkeeps.trans hkeeps', fun o => ?_, fun o => ?_⟩
    · simp only [hlive'', hlive', map_cons, mem_cons, or_comm (a := o = object), ite_or]
    · simp only [hretired'', hretired', map_cons, mem_cons, or_comm (a := o = object),
        or_and_right, ite_or]

/-- A release on TiKV leaves the live counts and the retired objects that the state
machine's release leaves, and touches nothing else. -/
theorem releaseEntries_spec {s : MetaState}
    (hlive : ∀ o : String, store[(walLive o).bytes F]? =
      (s.walLiveChunks[o]?).map (beBytes 4))
    (hfits : ∀ (o : String) (n : ℕ), s.walLiveChunks[o]? = some n → n ≤ u32Max)
    (hretired : ∀ o : String, store[(retired o).bytes F]? =
      (s.retired[o]?).map (beBytes 8)) (entries : List IndexEntry) : ∃ store',
    (releaseEntries F entries s.clockMs).exec store = (.ok (), store') ∧
      Keeps F IsRelease store store' ∧
      (∀ o : String, store'[(walLive o).bytes F]? =
        ((s.releaseEntries entries).walLiveChunks[o]?).map (beBytes 4)) ∧
      ∀ o : String, store'[(retired o).bytes F]? =
        ((s.releaseEntries entries).retired[o]?).map (beBytes 8) := by
  obtain ⟨hkeeps, hlive', hretired'⟩ := retireSegments_spec (F := F) store entries s.clockMs
  set retiredStore := retireSegments F store entries s.clockMs
  set wal := (releasedWal entries).toList
  have hwal : ∀ o n, (o, n) ∈ wal ↔
      n = entries.countP (namesWal o) ∧ entries.countP (namesWal o) ≠ 0 := by
    intro o n
    rw [Std.ExtTreeMap.mem_toList_iff_getElem?_eq_some, releasedWal_get]
    split_ifs with hzero <;> simp [hzero, eq_comm]
  have hobjects : ∀ o, o ∈ wal.map Prod.fst ↔ entries.countP (namesWal o) ≠ 0 := by
    intro o
    simp [hwal]
  have hcount : ∀ pair ∈ wal, liveCount (batchGet retiredStore
      (wal.map fun pair => (walLive pair.1).bytes F))[(walLive pair.1).bytes F]? =
        .ok ((s.walLiveChunks[pair.1]?).getD 0) := by
    intro pair hpair
    rw [batchGet_get (mem_map.mpr ⟨pair, hpair, rfl⟩), hlive', hlive]
    cases hn : s.walLiveChunks[pair.1]? with
    | none => rfl
    | some n => exact decodeU32_beBytes (hfits _ n hn)
  obtain ⟨store', hexec, hkeeps', hlive'', hretired''⟩ := releaseWal_spec (F := F) s.clockMs
    (fun o => (s.walLiveChunks[o]?).getD 0) (fun o => entries.countP (namesWal o)) hcount
    (fun pair hpair => ((hwal pair.1 pair.2).mp hpair).1) retiredStore
  refine ⟨store', ?_, hkeeps.trans hkeeps', fun o => ?_, fun o => ?_⟩
  · rw [← hexec, releaseEntries, exec_update_bind]
    dsimp only
    split_ifs with hnone
    · rw [show wal = [] from isEmpty_iff.mp hnone]
      rfl
    · rfl
  · rw [hlive'', hlive', hlive, (releaseEntries_get (s := s) entries o).1, liveAfter]
    simp only [hobjects]
    split_ifs <;> simp_all
  · have hany : (entries.any fun e => e.kind = .segment ∧ e.object = o) = true ↔
        ∃ e ∈ entries, e.kind = .segment ∧ e.object = o := by
      simp
    rw [hretired'', hretired', hretired, (releaseEntries_get (s := s) entries o).2]
    simp only [hobjects, hany, Retires, or_comm (a := ∃ e ∈ entries, _), ite_or,
      apply_ite (Option.map _), Option.map_some]

end Loams.Tikv
