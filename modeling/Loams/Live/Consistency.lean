/-
# The data of an app stays consistent
-/

import Loams.Live.Acting

namespace Loams.Live

open List Loams.Data Loams.Control Loams.Tikv Program Store

/-! ## Commits -/

/-- The function of a committed mutation, if it ran, records what it writes. -/
def JournaledCommit (app : App) (snapshot : Store) (c : AppCommit) : Prop :=
  ∀ attempt result journal usage, c.tx = .mutate attempt →
    c.out = .mutated (.ran result journal usage) →
      (attempt.body attempt.args).Journaled app attempt.draws
        (.forMutation (.startAt c.start snapshot))

variable {app : App} {options : RunnerOptions} {shards : ℕ} {init : Store} {h : List AppCommit}

/-- What a commit writes of the data is a sequence of changes of its snapshot. -/
theorem exists_changes {c : AppCommit}
    (hran : Tx.run app options shards c.tx c.start (keyed.snapshot init h c.start) =
      some (c.out, c.effect))
    (hsnapshot : Consistent (keyed.snapshot init h c.start).data)
    (hjournaled : JournaledCommit app (keyed.snapshot init h c.start) c)
    (hfresh : ∀ key ∈ c.effect.inserts, (keyed.snapshot init h c.start).get key = none) :
    ∃ cs : List Change, Acts app.limits (keyed.snapshot init h c.start).data (cs.map .change) ∧
      Performs c.effect (cs.map .change) ∧ recordsOf app init h c = cs.map Change.record := by
  obtain ⟨as, has, -, honly, hperforms, hrecords⟩ := Tx.run_acts hran (not_not_intro trivial).elim
    (fun _ => hjournaled) hsnapshot hfresh
  obtain ⟨cs, rfl⟩ : as ∈ Set.range (map Act.change) := by
    rw [Set.range_list_map]
    exact honly trivial
  refine ⟨cs, has, hperforms, ?_⟩
  have hmap : (cs.map Act.change).flatMap Act.records = cs.map Change.record := by
    rw [flatMap_map, map_eq_flatMap]
    rfl
  unfold recordsOf
  obtain ⟨hcs, hnone⟩ | ⟨attempt, result, journal, usage, htx, hout, hrecords⟩ := hrecords
  · rw [map_eq_nil_iff.mp hcs]
    split
    · next hout => exact (hnone _ _ _ hout).elim
    · rfl
  · rw [htx, hout, ← hmap]
    exact hrecords

/-! ## Histories -/

/-- The data goes through changes with these records. -/
def Evolves (data data' : Data) (records : List WriteRecord) : Prop :=
  ∃ cs, Changes data cs ∧ data' = cs.foldl Change.apply data ∧ cs.map Change.record = records

theorem Evolves.trans {data data' data'' : Data} {records records' : List WriteRecord}
    (h : Evolves data data' records) (h' : Evolves data' data'' records') :
    Evolves data data'' (records ++ records') := by
  obtain ⟨cs, hcs, rfl, rfl⟩ := h
  obtain ⟨cs', hcs', rfl, rfl⟩ := h'
  exact ⟨cs ++ cs', along_append.mpr ⟨hcs, hcs'⟩, foldl_append.symm, map_append⟩

section Histories

variable {keys : Effect AppKey Record → List AppKey}

/-- Every mutation of the history that ran its function records what it writes. -/
def JournaledHistory (app : App) (init : Store) (h : List AppCommit) : Prop :=
  ∀ c ∈ h, JournaledCommit app (keyed.snapshot init h c.start) c

/-- From a consistent start, the data is consistent at every moment and goes from one moment
to a later one through the changes of the commits in between. -/
theorem evolves_of_isPrefix (hkeys : ∀ e : Effect AppKey Record, e.written ⊆ keys e)
    (hh : History keyed keys (Tx.run app options shards) init h)
    (hinit : Consistent init.data) (hjournaled : JournaledHistory app init h) {p : List AppCommit}
    (hp : p <+: h) : Consistent (keyed.state init p).data ∧
      ∀ q r, p = q ++ r → Evolves (keyed.state init q).data (keyed.state init p).data
        (r.flatMap (recordsOf app init h)) := by
  have hpre : History keyed keys (Tx.run app options shards) init p := hh.of_isPrefix hp
  revert hp
  refine History.induction ?_ ?_ hpre
  · refine fun _ => ⟨hinit, fun q r hqr => ?_⟩
    obtain ⟨rfl, rfl⟩ := append_eq_nil_iff.mp hqr.symm
    exact ⟨[], trivial, rfl, rfl⟩
  · intro p c hpre ih hadm hpc
    obtain ⟨post, hpost⟩ := hpc
    have heq : h = p ++ c :: post := by rw [← hpost, append_assoc]; rfl
    have hsnap : keyed.snapshot init h c.start = keyed.snapshot init p c.start := by
      subst heq
      exact hh.snapshot_eq_of_mem
    have hph : p <+: h := ⟨c :: post, heq.symm⟩
    obtain ⟨hdata, hchain⟩ := ih p prefix_rfl hph
    -- the snapshot is an earlier moment
    obtain ⟨q, r, hqr, -, -, hstate⟩ := hpre.snapshot_eq c.start
    have hq : q <+: p := ⟨r, hqr.symm⟩
    have hsnapshot : Consistent (keyed.snapshot init h c.start).data := by
      rw [hsnap, hstate]
      exact (ih q hq (hq.trans hph)).1
    have hfresh : ∀ key ∈ c.effect.inserts,
        (keyed.snapshot init h c.start).get key = none := by
      intro key hkey
      have hwritten := hkeys _ (Tx.inserts_subset_written hadm.ran hkey)
      rw [hsnap]
      exact (hadm.get_state_eq hkeys hpre hwritten).symm.trans (hadm.absent key hkey)
    obtain ⟨cs, hcs, hperforms, hrecords⟩ := exists_changes (by rw [hsnap]; exact hadm.ran)
      hsnapshot (hjournaled c (by rw [heq]; simp)) hfresh
    -- the changes fit the state as well
    have hfits : Acts app.limits (keyed.state init p).data (cs.map .change) := by
      refine hcs.congr hdata (by simp [Act.KeepsTables]) (fun a ha key hkey => ?_) ?_
      · rw [hsnap]
        exact hadm.get_state_eq hkeys hpre (hkeys _ (hperforms.mem_written ha hkey))
      · obtain ⟨between, hbetween, hend, -⟩ := hchain q r hqr
        rw [hsnap, hstate, hend]
        exact hbetween.tablesIn (ih q hq (hq.trans hph)).1
    have hlast : Evolves (keyed.state init p).data (keyed.state init (p ++ [c])).data
        (recordsOf app init h c) := by
      refine ⟨cs, hfits.changes, ?_, hrecords.symm⟩
      rw [Keyed.state_concat, hperforms.data_apply, foldl_map]
      rfl
    refine ⟨?_, fun q' r' hqr' => ?_⟩
    · obtain ⟨cs', hcs', hend, -⟩ := hlast
      rw [hend]
      exact hdata.foldl hcs'
    · rcases eq_nil_or_concat r' with rfl | ⟨r'', c', rfl⟩
      · rw [append_nil] at hqr'
        subst hqr'
        exact ⟨[], trivial, rfl, rfl⟩
      · rw [concat_eq_append, ← append_assoc] at hqr'
        obtain ⟨rfl, hcc⟩ := append_inj' hqr' rfl
        obtain rfl : c = c' := (cons.inj hcc).1
        rw [concat_eq_append, flatMap_append, flatMap_singleton]
        exact (hchain q' r'' rfl).trans hlast

end Histories

end Loams.Live
