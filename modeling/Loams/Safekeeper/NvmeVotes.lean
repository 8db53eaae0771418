/-
# Votes of the local store
-/

import Loams.Safekeeper.NvmeBatch

namespace Loams.Safekeeper

open Option Loams.Data Loams.Control

variable {cfg : JournalConfig} {id : TimelineId} {next : AcceptorState}
  {stored : Option AcceptorState}

/-! ## What the rules do to the term -/

theorem write_term (slots : List Slot) (batch : AppendBatch) (journal : Journal)
    (t : Tl) : (write cfg id slots batch journal t).2.2.head.term = t.head.term := by
  unfold write
  split
  · rfl
  · rfl
  · next next plan happend =>
    dsimp only
    split
    · next heq => exact congrArg AcceptorState.term (flushGroups_spec heq).2.1
    · obtain ⟨-, -, rfl⟩ := applyAppend_ok happend
      rfl

theorem Tl.replay_term (t : Tl) (r : Logged) : (t.replay r).head.term = t.head.term := by
  unfold Tl.replay Tl.replayAppend
  split
  · dsimp only
    split_ifs <;> rfl
  · split_ifs <;> rfl
  · rfl

/-- Recovery takes the term from the stored head. -/
theorem Tl.recover_term (records : List Logged) (head : AcceptorState) :
    (Tl.recover id records head).head.term = head.term := by
  have hfold : ∀ (rs : List Logged) (t : Tl), (rs.foldl Tl.replay t).head.term = t.head.term := by
    intro rs
    induction rs with
    | nil => exact fun t => rfl
    | cons r rs ih => exact fun t => (ih _).trans (t.replay_term r)
  exact hfold _ _

/-! ## The stored head follows the one in memory -/

/-- What the lock's holder will take over fits the head in memory. -/
def After.Takes (head next : AcceptorState) : After → Prop
  | .vote term => next.term = term ∧ head.term < term
  | .updateMeta => head.term ≤ next.term
  | .elected => head.term ≤ next.term
  | .trim _ => next.term = head.term
  | .persistProgress => next.term = head.term

theorem After.Takes.le {head : AcceptorState} {after : After} (h : after.Takes head next) :
    head.term ≤ next.term := by
  cases after with
  | vote term =>
    rw [h.1]
    exact h.2.le
  | updateMeta => exact h
  | elected => exact h
  | trim bound => exact h.ge
  | persistProgress => exact h.ge

/-- The stored head has the term in memory, or that of the head the lock's holder stored. -/
def Holder.Follows (st head : AcceptorState) : Holder → Prop
  | .stored next after => st.term = next.term ∧ after.Takes head next
  | .put next after => st.term = head.term ∧ after.Takes head next
  | .truncate next _ => st.term = head.term ∧ head.term ≤ next.term
  | _ => st.term = head.term

theorem Holder.Follows.le {st head : AcceptorState} {holder : Holder}
    (h : holder.Follows st head) : head.term ≤ st.term := by
  cases holder with
  | none => exact h.ge
  | flushVote term => exact h.ge
  | flushElected msg => exact h.ge
  | truncate next unit => exact h.1.ge
  | put next after => exact h.1.ge
  | stored next after =>
    rw [h.1]
    exact h.2.le

/-- A call that creates the timeline carries a head that never voted, and once it stored
it some head is stored. -/
def Creating.Fresh (stored : Option AcceptorState) : Creating → Prop
  | .idle => True
  | .put head => head.term = 0
  | .stored head => head.term = 0 ∧ stored.isSome

theorem Creating.Fresh.some {c : Creating} (h : c.Fresh stored) (st : AcceptorState) :
    c.Fresh (some st) := by
  cases c with
  | idle => trivial
  | put head => exact h
  | stored head => exact ⟨h.1, rfl⟩

namespace Nvme

variable {sys sys' : Nvme} {t t' : Tl}

/-- What every step keeps. -/
structure VotesKept (sys : Nvme) : Prop where
  absent : sys.tl = none →
    sys.holder = .none ∧ sys.granted = [] ∧ ∀ st ∈ sys.stored, st.term = 0
  follows : ∀ t ∈ sys.tl, ∃ st ∈ sys.stored, sys.holder.Follows st t.head
  granted_le : ∀ t ∈ sys.tl, ∀ term ∈ sys.granted, term ≤ t.head.term
  ascending : sys.granted.Pairwise (· < ·)
  fresh : ∀ call, (sys.creating call).Fresh sys.stored

theorem votesKept_initial : (initial cfg).VotesKept where
  absent _ := ⟨rfl, rfl, by rintro st ⟨⟩⟩
  follows := by rintro t ⟨⟩
  granted_le := by rintro t ⟨⟩
  ascending := List.Pairwise.nil
  fresh _ := trivial

/-- A step keeps the votes and does not lower the stored term. -/
structure Keeps (sys sys' : Nvme) : Prop where
  kept : sys'.VotesKept
  stored : ∀ st ∈ sys.stored, ∃ st' ∈ sys'.stored, st.term ≤ st'.term

theorem VotesKept.keeps (h : sys'.VotesKept) (hstored : sys'.stored = sys.stored) :
    sys.Keeps sys' :=
  ⟨h, fun st hst => ⟨st, hstored ▸ hst, le_rfl⟩⟩

/-- With a timeline in memory, there is one. -/
theorem VotesKept.of_some (ht : sys.tl = some t)
    (hfollows : ∃ st ∈ sys.stored, sys.holder.Follows st t.head)
    (hgranted : ∀ term ∈ sys.granted, term ≤ t.head.term)
    (hascending : sys.granted.Pairwise (· < ·))
    (hfresh : ∀ call, (sys.creating call).Fresh sys.stored) : sys.VotesKept := by
  refine ⟨fun hnone => (nomatch hnone.symm.trans ht), fun t' ht' => ?_, fun t' ht' => ?_,
    hascending, hfresh⟩
  all_goals obtain rfl : t = t' := some.inj (ht.symm.trans ht')
  · exact hfollows
  · exact hgranted

/-- A step that stores nothing and keeps the term in memory. -/
theorem VotesKept.of_stored_eq {holder : Holder} (h : sys.VotesKept) (hholder : sys.holder = holder)
    (ht : sys.tl = some t) (ht' : sys'.tl = some t') (hterm : t'.head.term = t.head.term)
    (hfollows : ∀ st, holder.Follows st t.head → sys'.holder.Follows st t'.head)
    (hstored : sys'.stored = sys.stored := by rfl) (hgranted : sys'.granted = sys.granted := by rfl)
    (hcreating : sys'.creating = sys.creating := by rfl) : sys.Keeps sys' := by
  obtain ⟨st, hst, hst'⟩ := h.follows t ht
  refine VotesKept.keeps (.of_some ht' ⟨st, hstored ▸ hst, hfollows st (hholder ▸ hst')⟩
    (fun term hmem => ?_) (hgranted ▸ h.ascending) fun call => ?_) hstored
  · rw [hterm]
    exact h.granted_le t ht term (hgranted ▸ hmem)
  · rw [hcreating, hstored]
    exact h.fresh call

/-- A step that touches neither heads nor calls. -/
theorem VotesKept.of_journal (h : sys.VotesKept) (journal : Journal) :
    sys.Keeps { sys with journal := journal } :=
  VotesKept.keeps { h with } rfl

theorem VotesKept.locked (h : sys.VotesKept) {f : Tl → Nvme}
    (hf : ∀ t, sys.holder = .none → sys.tl = some t → sys.Keeps (f t)) :
    sys.Keeps (sys.locked f) := by
  unfold Nvme.locked
  split
  · next hholder ht => exact hf _ hholder ht
  · exact h.keeps rfl

/-! ## Calls that create the timeline -/

theorem fresh_update {creating : ℕ → Creating} (h : ∀ call, (creating call).Fresh stored) (call : ℕ)
    {c : Creating} (hc : c.Fresh stored) :
    ∀ call', (Function.update creating call c call').Fresh stored :=
  (Function.forall_update_iff creating fun _ c => c.Fresh stored).mpr ⟨hc, fun call' _ => h call'⟩

theorem VotesKept.createCheck (h : sys.VotesKept) (call : ℕ) (server : ServerInfo)
    (startLsn : Lsn) : sys.Keeps (sys.step cfg id (.createCheck call server startLsn)) := by
  simp only [Nvme.step]
  split
  · have hfresh := fresh_update h.fresh call
      (show (Creating.put (AcceptorState.new server startLsn)).Fresh sys.stored from rfl)
    exact VotesKept.keeps { h with fresh := hfresh } rfl
  · exact h.keeps rfl

/-- A fresh head may be stored while the timeline is not in memory. -/
theorem VotesKept.createPut (h : sys.VotesKept) (call : ℕ) (ok : Bool)
    (habsent : ∀ head, ok = true → sys.creating call = .put head → sys.tl = none) :
    sys.Keeps (sys.step cfg id (.createPut call ok)) := by
  simp only [Nvme.step]
  split
  · next head hcreating =>
    have hhead : head.term = 0 := by
      have hfresh := h.fresh call
      rw [hcreating] at hfresh
      exact hfresh
    split_ifs with hok
    · have hnone := habsent head hok hcreating
      have hfresh := fresh_update (fun call => (h.fresh call).some head) call
        (show (Creating.stored head).Fresh (some head) from ⟨hhead, rfl⟩)
      obtain ⟨hholder, hgranted, hzero⟩ := h.absent hnone
      refine ⟨⟨fun _ => ⟨hholder, hgranted, ?_⟩, ?_, h.granted_le, h.ascending, hfresh⟩,
        fun st hst => ⟨head, rfl, ?_⟩⟩
      · rintro st ⟨⟩
        exact hhead
      · intro t ht
        rw [hnone] at ht
        cases ht
      · rw [hzero st hst]
        exact Nat.zero_le _
    · have hfresh := fresh_update h.fresh call (show Creating.idle.Fresh sys.stored from trivial)
      exact VotesKept.keeps { h with fresh := hfresh } rfl
  · exact h.keeps rfl

theorem VotesKept.createInsert (h : sys.VotesKept) (call : ℕ) (ok : Bool) :
    sys.Keeps (sys.step cfg id (.createInsert call ok)) := by
  simp only [Nvme.step]
  split
  · next head hcreating =>
    have hhead := h.fresh call
    rw [hcreating] at hhead
    have hfresh := fresh_update h.fresh call (show Creating.idle.Fresh sys.stored from trivial)
    split_ifs
    swap
    · exact VotesKept.keeps { h with fresh := hfresh } rfl
    cases ht : sys.tl with
    | none =>
      obtain ⟨hholder, hgranted, hzero⟩ := h.absent ht
      obtain ⟨st, hst⟩ := isSome_iff_exists.mp hhead.2
      refine VotesKept.keeps (.of_some rfl ⟨st, hst, ?_⟩ (fun term hterm => ?_) h.ascending
        hfresh) rfl
      · rw [hholder]
        exact (hzero st hst).trans hhead.1.symm
      · dsimp only at hterm
        rw [hgranted] at hterm
        cases hterm
    | some t =>
      exact VotesKept.keeps (.of_some rfl (h.follows t ht) (h.granted_le t ht) h.ascending hfresh)
        rfl
  · exact h.keeps rfl

/-! ## Calls that hold the lock -/

section

variable (h : sys.VotesKept)
include h

theorem VotesKept.finish {after : After} (hholder : sys.holder = .stored next after)
    (ht : sys.tl = some t) : sys.Keeps (sys.finish next after t) := by
  obtain ⟨st, hst, hfollows⟩ := h.follows t ht
  rw [hholder] at hfollows
  obtain ⟨hterm, htakes⟩ := hfollows
  have hgranted := h.granted_le t ht
  cases after with
  | vote term =>
    refine VotesKept.keeps (.of_some rfl ⟨st, hst, hterm⟩ ?_ ?_ h.fresh) rfl
    · exact forall_mem_concat.mpr
        ⟨fun term' hterm' => (hgranted term' hterm').trans htakes.le, htakes.1.ge⟩
    · -- The new vote is for a term above the one in memory.
      exact pairwise_concat.mpr
        ⟨h.ascending, fun term' hterm' => (hgranted term' hterm').trans_lt htakes.2⟩
  | updateMeta | elected =>
    exact VotesKept.keeps (.of_some rfl ⟨st, hst, hterm⟩
      (fun term' hterm' => (hgranted term' hterm').trans htakes) h.ascending h.fresh) rfl
  | trim bound =>
    exact VotesKept.keeps (.of_some rfl ⟨st, hst, hterm.trans htakes⟩ hgranted h.ascending
      h.fresh) rfl
  | persistProgress =>
    exact VotesKept.keeps (.of_some ht ⟨st, hst, hterm.trans htakes⟩ hgranted h.ascending
      h.fresh) rfl

theorem VotesKept.electStep {msg : ProposerElected} (hholder : sys.holder = .flushElected msg)
    (ht : sys.tl = some t) (hterm : t'.head = t.head) (inline : Journal.Inline) :
    sys.Keeps (sys.electStep cfg id msg inline t') := by
  have hterm' := congrArg AcceptorState.term hterm
  have hfollows : ∀ st : AcceptorState, st.term = t.head.term → st.term = t'.head.term :=
    fun st hst => hst.trans hterm'.symm
  unfold Nvme.electStep
  split
  · next next stop helected =>
    have hle : t'.head.term ≤ next.term := by
      obtain ⟨hle, rfl, -⟩ := applyElected_ok helected
      exact hle
    split_ifs
    · split
      · exact h.of_stored_eq hholder ht rfl hterm' hfollows
      · exact h.of_stored_eq hholder ht rfl hterm' fun st hst => ⟨hfollows st hst, hle⟩
    · exact h.of_stored_eq hholder ht rfl hterm' fun st hst => ⟨hfollows st hst, hle⟩
  · exact h.of_stored_eq hholder ht rfl hterm' hfollows

/-- The lock's holder goes on from its wait. -/
theorem VotesKept.resume {ok : Bool} (inline : Journal.Inline) (ht : sys.tl = some t)
    (hput : ∀ next after, sys.holder = .stored next after → ok = true ∨
      next.term = t.head.term) :
    sys.Keeps (sys.resume cfg id ok inline t) := by
  unfold Nvme.resume
  split
  · exact h.keeps rfl
  · next term hholder =>
    split
    · exact h.keeps rfl
    · exact h.of_stored_eq hholder ht ht rfl fun st hst => hst
    · refine h.of_stored_eq hholder ht rfl rfl fun st hst => ?_
      dsimp only
      split_ifs with hgiven
      · obtain ⟨hlt, hnext⟩ := applyVote_granted hgiven
        exact ⟨hst, congrArg AcceptorState.term hnext, hlt⟩
      · exact hst
  · next msg hholder =>
    split
    · exact h.keeps rfl
    · exact h.of_stored_eq hholder ht ht rfl fun st hst => hst
    · have hhead : (t.settle sys.journal.reported.unit).head = t.head := rfl
      exact h.electStep hholder ht hhead inline
  · next next unit hholder =>
    split
    · exact h.keeps rfl
    · exact h.of_stored_eq hholder ht ht rfl fun st hst => hst.1
    · exact h.of_stored_eq hholder ht rfl rfl fun st hst => hst
  · next next after hholder =>
    split_ifs
    · obtain ⟨st, hst, hfollows⟩ := h.follows t ht
      rw [hholder] at hfollows
      refine ⟨.of_some ht ⟨next, rfl, rfl, hfollows.2⟩ (h.granted_le t ht) h.ascending
        fun call => (h.fresh call).some next, fun st' hst' => ⟨next, rfl, ?_⟩⟩
      obtain rfl : st = st' := some.inj (hst.symm.trans hst')
      exact hfollows.1.trans_le hfollows.2.le
    · exact h.of_stored_eq hholder ht ht rfl fun st hst => hst.1
  · next next after hholder =>
    split_ifs with hok
    · exact h.finish hholder ht
    · -- The head that is stored has the term of the one in memory.
      have hterm := (hput next after hholder).resolve_left hok
      exact h.of_stored_eq hholder ht ht rfl fun st hst => hst.1.trans hterm

theorem VotesKept.progressStep (hholder : sys.holder = .none) (ht : sys.tl = some t)
    (hnext : next.term = t.head.term) (inline : Journal.Inline) :
    sys.Keeps (sys.progressStep cfg id inline next t) := by
  have hhead : (progress cfg id inline next sys.journal t).2.head = next := by
    unfold progress
    dsimp only
    split <;> rfl
  have hterm : (progress cfg id inline next sys.journal t).2.head.term = t.head.term := by
    rw [hhead, hnext]
  refine h.of_stored_eq hholder ht rfl hterm fun st hst => ?_
  simp only [Nvme.progressStep, hholder]
  exact hst.trans hterm.symm

theorem VotesKept.appendStep (hholder : sys.holder = .none) (ht : sys.tl = some t)
    (batch : AppendBatch) (slots : List Slot) :
    sys.Keeps (sys.appendStep cfg id batch slots t) := by
  have hterm : (write cfg id slots batch sys.journal t).2.2.head.term = t.head.term :=
    write_term slots batch sys.journal t
  have hfollows : ∀ st, sys.holder.Follows st t.head →
      sys.holder.Follows st (write cfg id slots batch sys.journal t).2.2.head := by
    intro st hst
    rw [hholder] at hst ⊢
    exact hst.trans hterm.symm
  unfold Nvme.appendStep
  split_ifs
  · exact h.keeps rfl
  · split <;> next heq =>
      rw [heq] at hterm hfollows
      exact h.of_stored_eq rfl ht rfl hterm hfollows

/-- Recovery puts the stored term in memory, which is at least the one that was there. -/
theorem VotesKept.restart (intact : Logged → Bool) : sys.Keeps (sys.restart cfg id intact) := by
  unfold Nvme.restart
  refine VotesKept.keeps ⟨fun hnone => ?_, ?_, ?_, h.ascending, fun _ => trivial⟩ rfl
  · have hstored : sys.stored = none := map_eq_none_iff.mp hnone
    refine ⟨rfl, ?_, ?_⟩
    · cases ht : sys.tl with
      | none => exact (h.absent ht).2.1
      | some t =>
        obtain ⟨st, hst, -⟩ := h.follows t ht
        rw [hstored] at hst
        cases hst
    · intro st hst
      dsimp only at hst
      rw [hstored] at hst
      cases hst
  · intro t ht
    obtain ⟨st, hst, rfl⟩ := map_eq_some_iff.mp ht
    exact ⟨st, hst, (Tl.recover_term _ st).symm⟩
  · intro t ht term hterm
    obtain ⟨st, hst, rfl⟩ := map_eq_some_iff.mp ht
    rw [Tl.recover_term]
    cases ht' : sys.tl with
    | none =>
      dsimp only at hterm
      rw [(h.absent ht').2.1] at hterm
      cases hterm
    | some t =>
      obtain ⟨st', hst', hfollows⟩ := h.follows t ht'
      obtain rfl : st = st' := some.inj (hst.symm.trans hst')
      exact (h.granted_le t ht' term hterm).trans hfollows.le

end

/-! ## Every run -/

/-- A call that stores a fresh head still does not find the timeline in memory, and no
store of a head with another term than the one in memory fails after it took effect. -/
def KeepsVotes (sys : Nvme) : NvmeStep → Prop
  | .createPut call ok => ∀ head, ok = true → sys.creating call = .put head → sys.tl = none
  | .resume ok _ =>
    ∀ next after, sys.holder = .stored next after → ok = true ∨
      ∀ t ∈ sys.tl, next.term = t.head.term
  | _ => True

/-- No step lowers the stored term or votes for a term again. -/
theorem VotesKept.step (h : sys.VotesKept) {s : NvmeStep} (hs : sys.KeepsVotes s) :
    sys.Keeps (sys.step cfg id s) := by
  cases s with
  | createCheck call server startLsn => exact h.createCheck call server startLsn
  | createPut call ok => exact h.createPut call ok hs
  | createInsert call ok => exact h.createInsert call ok
  | vote term | elected msg =>
    exact h.locked fun t hholder ht =>
      h.of_stored_eq hholder ht ht rfl fun st hst => hst
  | updateMeta update =>
    exact h.locked fun t hholder ht =>
      h.of_stored_eq hholder ht ht rfl fun st hst => ⟨hst, le_rfl⟩
  | trim lsn =>
    refine h.locked fun t hholder ht => ?_
    unfold Nvme.trimStep
    dsimp only
    split_ifs
    · exact h.of_stored_eq rfl ht rfl rfl fun st hst => hst
    · exact h.of_stored_eq hholder ht rfl rfl fun st hst => ⟨hst, rfl⟩
  | persistProgress =>
    exact h.locked fun t hholder ht =>
      h.of_stored_eq hholder ht rfl rfl fun st hst => ⟨hst, rfl⟩
  | resume ok inline =>
    simp only [Nvme.step]
    split
    · next t ht =>
      exact h.resume inline ht fun next after hholder => (hs next after hholder).imp_right (· t ht)
    · exact h.keeps rfl
  | append batch slots =>
    exact h.locked fun t hholder ht => h.appendStep hholder ht batch slots
  | settle =>
    exact h.locked fun t hholder ht => h.of_stored_eq rfl ht rfl rfl fun st hst => hst
  | recordCommitLsn term lsn inline =>
    refine h.locked fun t hholder ht => ?_
    split
    · next hcommit =>
      split_ifs
      · obtain ⟨-, rfl⟩ := applyCommitLsn_ok hcommit
        exact h.progressStep hholder ht (by rfl) inline
      · exact h.keeps rfl
    · exact h.keeps rfl
  | recordBackupLsn lsn inline | recordRemoteConsistentLsn lsn inline =>
    refine h.locked fun t hholder ht => ?_
    dsimp only
    split_ifs
    · exact h.progressStep hholder ht (by rfl) inline
    · exact h.keeps rfl
  | free lag others retires => exact h.of_journal _
  | journal s =>
    simp only [Nvme.step]
    split_ifs
    · exact h.of_journal _
    · exact h.keeps rfl
  | restart intact => exact h.restart intact

theorem run_concat (steps : List NvmeStep) (s : NvmeStep) :
    run cfg id (steps ++ [s]) = (run cfg id steps).step cfg id s := by
  rw [run, List.foldl_append]
  rfl

theorem votesKept_run {steps : List NvmeStep}
    (hsteps : Along (step cfg id) KeepsVotes (initial cfg) steps) :
    (run cfg id steps).VotesKept :=
  foldl_induction votesKept_initial (fun _ _ hs h => (h.step hs).kept) hsteps

/-- In every run in which each call that stores a fresh head still does not find the
timeline in memory, and no head of a new term is stored but reported as failed, whatever
else is interleaved, fails or crashes, no step lowers the stored term, and no term is
voted for twice. -/
theorem nvme_votes_kept (cfg : JournalConfig) (id : TimelineId) (steps : List NvmeStep)
    (hsteps : Along (step cfg id) KeepsVotes (initial cfg) steps) :
    (∀ pre s post, steps = pre ++ s :: post → ∀ st ∈ (run cfg id pre).stored,
      ∃ st' ∈ (run cfg id (pre ++ [s])).stored, st.term ≤ st'.term) ∧
    (run cfg id steps).granted.Nodup := by
  refine ⟨?_, (votesKept_run hsteps).ascending.imp fun hlt => hlt.ne⟩
  rintro pre s post rfl st hst
  obtain ⟨hpre, hs, -⟩ := along_append.mp hsteps
  rw [run_concat]
  exact ((votesKept_run hpre).step hs).stored st hst

/-- A vote from the call to the answer, with nothing in between. -/
def voteSteps (term : Term) : List NvmeStep :=
  [.vote term, .resume true {}, .resume true {}, .resume true {}]

/-- Two calls find no timeline; one creates it, and a vote is granted. -/
def racingCreates : List NvmeStep :=
  [.createCheck 0 {} 0, .createCheck 1 {} 0, .createPut 0 true, .createInsert 0 true] ++ voteSteps 5

/-- A vote is granted; that for a higher term is stored but fails; then a term between
them is voted for. -/
def failingVote : List NvmeStep :=
  [.createCheck 0 {} 0, .createPut 0 true, .createInsert 0 true] ++ voteSteps 3 ++
    [.vote 5, .resume true {}, .resume true {}, .resume false {}]

/-- The other call then stores its fresh head over the vote, and after a restart the same
term is voted for again. With one call, a vote that fails after it was stored is lost to a
vote for a lower term. -/
theorem racing_create_loses_vote :
    (run sampleConfig sampleId racingCreates).stored.map (·.term) = some 5 ∧
      (run sampleConfig sampleId (racingCreates ++ [.createPut 1 true])).stored.map (·.term) =
        some 0 ∧
      (run sampleConfig sampleId
        (racingCreates ++ [.createPut 1 true, .restart fun _ => true] ++ voteSteps 5)).granted =
        [5, 5] ∧
      (run sampleConfig sampleId failingVote).stored.map (·.term) = some 5 ∧
      (run sampleConfig sampleId (failingVote ++ voteSteps 4)).stored.map (·.term) = some 4 := by
  decide

/-- One call creates the timeline, and a term is voted for before and after a restart. -/
theorem nvme_votes_kept_one_create :
    ∃ steps : List NvmeStep,
      steps = [.createCheck 0 {} 0, .createPut 0 true, .createInsert 0 true] ++ voteSteps 5 ++
        [.restart fun _ => true] ++ voteSteps 5 ++ voteSteps 6 ∧
      (run sampleConfig sampleId steps).granted = [5, 6] ∧
      (run sampleConfig sampleId steps).granted.Nodup := by
  refine ⟨_, rfl, by decide, (nvme_votes_kept sampleConfig sampleId _ ?_).2⟩
  simp only [voteSteps, List.cons_append, List.nil_append, Along, KeepsVotes, and_true,
    true_and, true_or, implies_true]
  exact fun _ _ _ => rfl

end Nvme

end Loams.Safekeeper
