/-
# Token runs apply one attempt, or none
-/

import Loams.Tikv.Runner
import Mathlib.Tactic.IntervalCases

namespace Loams.Tikv.Runner

open List Loams.Data Loams.Control

variable {α : Type} {opts : Options} {s : Server} {n : ℕ} {key : Bytes}
  {c : Cell Payload} {r : Write Payload} {ts start : Timestamp}

/-! ## Cells -/

/-- No attempt's writes were applied with a write of the cell, and none will be. -/
structure Dead (c : Cell Payload) : Prop where
  fences : ∀ v ∈ c.versions, v.2.attempt = none
  closed : c.versions ≠ [] ∨ ∀ r ∈ c.inflight, r.value.attempt = none

theorem Dead.of_fresh (h : c.Fresh) : Dead c where
  fences v hv := by simp [h.1] at hv
  closed := .inr fun r hr => by simp [h.2] at hr

theorem Dead.attempt_eq_none (h : Dead c) (hguarded : c.Guarded) (hr : r ∈ c.inflight)
    (hadmits : c.admits r.start ts = true) : r.value.attempt = none :=
  h.closed.resolve_left (not_not_intro (hguarded.versions_eq_nil hr hadmits)) r hr

theorem Dead.put (h : Dead c) {p : Payload} (hp : p.attempt = none) : Dead (c.put ts p) where
  fences v hv := by
    rcases mem_cons.mp hv with rfl | hv
    · exact hp
    · exact h.fences v hv
  closed := .inl (cons_ne_nil _ _)

/-- A mark of the attempt, or a fence. -/
def OfAttempt (n : ℕ) (p : Payload) : Prop :=
  (p.attempt = none ∧ isFence p.value = true) ∨ (p.attempt = some n ∧ isFence p.value = false)

theorem ofAttempt_mark (n : ℕ) (start : Timestamp) : OfAttempt n (mark n start) :=
  .inr ⟨rfl, isFence_tokenValue _⟩

theorem ofAttempt_fence (n : ℕ) (start : Timestamp) : OfAttempt n (fence start) :=
  .inl ⟨rfl, isFence_fenceValue _⟩

/-- The cell of an attempt's token: at most one version, and only the attempt's mark or
fences. -/
structure Own (n : ℕ) (c : Cell Payload) : Prop where
  one : c.versions.length ≤ 1
  versions : ∀ v ∈ c.versions, OfAttempt n v.2
  inflight : ∀ r ∈ c.inflight, OfAttempt n r.value

namespace Own

theorem of_fresh (h : c.Fresh) : Own n c where
  one := by simp [h.1]
  versions v hv := by simp [h.1] at hv
  inflight r hr := by simp [h.2] at hr

theorem put (h : Own n c) (hnil : c.versions = []) {p : Payload} (hp : OfAttempt n p) :
    Own n (c.put ts p) where
  one := by simp [hnil]
  versions v hv := by
    rw [Cell.put_versions, hnil, mem_singleton] at hv
    rwa [hv]
  inflight := h.inflight

theorem send (h : Own n c) (hr : OfAttempt n r.value) : Own n (c.send r) where
  one := h.one
  versions := h.versions
  inflight r' hr' := by
    rcases mem_cons.mp hr' with rfl | hr'
    · exact hr
    · exact h.inflight r' hr'

theorem readAt (h : Own n c) : Own n (c.readAt ts) := { h with }

/-- What a read finds is the only version there is. -/
theorem versions_of_get (h : Own n c) {p : Payload} (hget : c.get ts = some p) :
    OfAttempt n p ∧ ∃ ts', c.versions = [(ts', p)] := by
  obtain ⟨v, hv, rfl⟩ := Cell.mem_of_get hget
  refine ⟨h.versions v hv, v.1, ?_⟩
  obtain ⟨v', hv'⟩ := length_eq_one_iff.mp
    (Nat.le_antisymm h.one (length_pos_of_mem hv))
  rw [hv', mem_singleton] at hv
  rw [hv', hv]

end Own

/-! ## The store -/

/-- Every cell is guarded, and requests in flight started before the last timestamp. -/
structure Server.Ok (s : Server) : Prop where
  guarded : ∀ key, (s.cells key).Guarded
  starts : ∀ key, ∀ r ∈ (s.cells key).inflight, r.start ≤ s.clock

/-- No attempt before `n` was or will be applied, and the later ones have sent nothing. -/
structure Before (opts : Options) (s : Server) (n : ℕ) : Prop where
  dead : ∀ key, Dead (s.cells key)
  fresh : ∀ b, n ≤ b → b ≤ opts.attempts → (s.cells (opts.key b)).Fresh
  applied : s.applied = []

/-- No attempt but `n` was or will be applied, and the later ones have sent nothing. -/
structure Around (opts : Options) (s : Server) (n : ℕ) : Prop where
  dead : ∀ key, key ≠ opts.key n → Dead (s.cells key)
  fresh : ∀ b, n < b → b ≤ opts.attempts → (s.cells (opts.key b)).Fresh
  own : Own n (s.cells (opts.key n))
  applied : s.applied = (s.cells (opts.key n)).versions.filterMap (·.2.attempt)

section Cells

variable {p : Payload}

@[simp] theorem setCell_self : (s.setCell key c).cells key = c := Function.update_self ..

theorem setCell_of_ne {k : Bytes} (h : k ≠ key) : (s.setCell key c).cells k = s.cells k :=
  Function.update_of_ne h ..

@[simp] theorem apply_self : (s.apply key ts p).cells key = (s.cells key).put ts p :=
  Function.update_self ..

theorem apply_of_ne {k : Bytes} (h : k ≠ key) : (s.apply key ts p).cells k = s.cells k :=
  Function.update_of_ne h ..

@[simp] theorem apply_applied : (s.apply key ts p).applied = s.applied ++ p.attempt.toList := rfl

/-- What holds of every cell: it holds of the one that was set, and did of the others. -/
theorem forall_setCell {P : Bytes → Cell Payload → Prop} (hself : P key c)
    (hother : ∀ k, k ≠ key → P k (s.cells k)) (k : Bytes) : P k ((s.setCell key c).cells k) :=
  (Function.forall_update_iff s.cells P).mpr ⟨hself, hother⟩ k

theorem Server.Ok.setCell (h : s.Ok) (hguarded : c.Guarded)
    (hstarts : ∀ r ∈ c.inflight, r.start ≤ s.clock) : (s.setCell key c).Ok where
  guarded := forall_setCell (P := fun _ => Cell.Guarded) hguarded fun k _ => h.guarded k
  starts := forall_setCell (P := fun _ c => ∀ r ∈ c.inflight, r.start ≤ s.clock) hstarts
    fun k _ => h.starts k

theorem Server.Ok.apply (h : s.Ok) (hguarded : ((s.cells key).put ts p).Guarded) :
    (s.apply key ts p).Ok := by
  have h' : (s.setCell key ((s.cells key).put ts p)).Ok := h.setCell hguarded (h.starts key)
  exact ⟨h'.guarded, h'.starts⟩

theorem Server.Ok.lose (h : s.Ok) (hstart : start ≤ s.clock)
    (hguarded : ((s.cells key).send ⟨start, p⟩).Guarded) : (s.lose key start p).Ok := by
  refine h.setCell hguarded fun r hr => ?_
  rcases mem_cons.mp hr with rfl | hr
  · exact hstart
  · exact h.starts key r hr

end Cells

/-- Whatever reaches the store later is one of the requests in flight, at a key where
nothing has landed. -/
@[elab_as_elim]
theorem land_induction {motive : Server → Prop} (i : ℕ) (stay : motive s)
    (landed : ∀ r ∈ (s.cells key).inflight, (s.cells key).admits r.start ts = true →
      motive (s.apply key ts r.value)) : motive (s.land key i ts) := by
  rw [Server.land]
  split
  next r hr =>
    split
    next hadmits => exact landed r (mem_of_getElem? hr) hadmits
    next => exact stay
  next => exact stay

theorem Server.Ok.land (h : s.Ok) (i : ℕ) : (s.land key i ts).Ok := by
  refine land_induction i h fun r hr hadmits => ?_
  exact h.apply ((h.guarded key).land hr hadmits)

/-- A key with a request in flight is no fresh attempt's. -/
theorem key_ne_of_fresh {b : ℕ} (hr : r ∈ (s.cells key).inflight)
    (h : (s.cells (opts.key b)).Fresh) : opts.key b ≠ key := by
  rintro rfl
  simp [h.2] at hr

theorem apply_fresh {b : ℕ} {p : Payload} (hr : r ∈ (s.cells key).inflight)
    (h : (s.cells (opts.key b)).Fresh) : ((s.apply key ts p).cells (opts.key b)).Fresh := by
  rwa [apply_of_ne (key_ne_of_fresh hr h)]

theorem Before.land (h : Before opts s n) (hs : s.Ok) (i : ℕ) :
    Before opts (s.land key i ts) n := by
  refine land_induction i h fun r hr hadmits => ?_
  have hnone := (h.dead key).attempt_eq_none (hs.guarded key) hr hadmits
  refine ⟨?_, fun b hn hb => apply_fresh hr (h.fresh b hn hb), ?_⟩
  · exact forall_setCell (P := fun _ => Dead) ((h.dead key).put hnone) fun k _ => h.dead k
  · rw [apply_applied, hnone, h.applied]
    rfl

theorem Around.apply (h : Around opts s n)
    (hkey : ∀ b, n < b → b ≤ opts.attempts → opts.key b ≠ opts.key n)
    (hnil : (s.cells (opts.key n)).versions = []) {p : Payload} (hp : OfAttempt n p) :
    Around opts (s.apply (opts.key n) ts p) n where
  dead key hkey := by
    rw [apply_of_ne hkey]
    exact h.dead key hkey
  fresh b hnb hb := by
    rw [apply_of_ne (hkey b hnb hb)]
    exact h.fresh b hnb hb
  own := by
    rw [apply_self]
    exact h.own.put hnil hp
  applied := by
    rw [apply_applied, h.applied, apply_self, Cell.put_versions, hnil]
    cases ha : p.attempt <;> simp [ha]

theorem Around.land (h : Around opts s n) (hs : s.Ok) (i : ℕ) :
    Around opts (s.land key i ts) n := by
  refine land_induction i h fun r hr hadmits => ?_
  rcases eq_or_ne key (opts.key n) with rfl | hkey
  · -- the attempt's own token: nothing has landed there yet
    exact h.apply (fun b hnb hb => key_ne_of_fresh hr (h.fresh b hnb hb))
      ((hs.guarded _).versions_eq_nil hr hadmits) (h.own.inflight r hr)
  · have hnone := (h.dead key hkey).attempt_eq_none (hs.guarded key) hr hadmits
    refine ⟨?_, fun b hnb hb => apply_fresh hr (h.fresh b hnb hb), ?_, ?_⟩
    · exact forall_setCell (P := fun k c => k ≠ opts.key n → Dead c)
        (fun _ => (h.dead key hkey).put hnone) fun k _ => h.dead k
    · rw [apply_of_ne (Ne.symm hkey)]
      exact h.own
    · rw [apply_applied, hnone, apply_of_ne (Ne.symm hkey), ← h.applied]
      exact append_nil _

theorem Around.land_applied (h : Around opts s n) (hs : s.Ok) (i : ℕ) (happlied : s.applied = [n]) :
    (s.land key i ts).applied = [n] := by
  refine land_induction i happlied fun r hr hadmits => ?_
  rcases eq_or_ne key (opts.key n) with rfl | hkey
  · have hnil := (hs.guarded (opts.key n)).versions_eq_nil hr hadmits
    rw [h.applied, hnil] at happlied
    cases happlied
  · rw [apply_applied, (h.dead key hkey).attempt_eq_none (hs.guarded key) hr hadmits, happlied]
    rfl

/-! ## From one attempt to the next -/

/-- Distinct attempts of a run have distinct tokens. -/
def Options.Distinct (opts : Options) : Prop := Set.InjOn opts.tokens (Set.Icc 1 opts.attempts)

theorem Options.Distinct.key_ne (h : opts.Distinct) {a b : ℕ} (ha : 1 ≤ a) (hab : a < b)
    (hb : b ≤ opts.attempts) : opts.key b ≠ opts.key a := by
  intro heq
  have hba : b = a :=
    h ⟨ha.trans hab.le, hb⟩ ⟨ha, hab.le.trans hb⟩ (tokenKey_inj.mp heq)
  exact hab.ne' hba

/-- Attempt `n` sends its first request. -/
theorem Before.around (h : Before opts s n) (hn : n ≤ opts.attempts) : Around opts s n where
  dead key _ := h.dead key
  fresh b hb := h.fresh b hb.le
  own := .of_fresh (h.fresh n le_rfl hn)
  applied := by rw [h.applied, (h.fresh n le_rfl hn).1, filterMap_nil]

theorem Before.succ (h : Before opts s n) : Before opts s (n + 1) :=
  ⟨h.dead, fun b hb => h.fresh b (Nat.le_of_succ_le hb), h.applied⟩

/-- Attempt `n` is over once its token is fenced. -/
theorem Around.before_succ (h : Around opts s n) (hdead : Dead (s.cells (opts.key n))) :
    Before opts s (n + 1) where
  dead key := by
    rcases eq_or_ne key (opts.key n) with rfl | hkey
    · exact hdead
    · exact h.dead key hkey
  fresh b hb := h.fresh b hb
  applied := by
    rw [h.applied, filterMap_eq_nil_iff]
    exact hdead.fences

theorem Around.setCell (h : Around opts s n) (hd : opts.Distinct) (hn : 1 ≤ n)
    (hown : Own n c) (hversions : c.versions = (s.cells (opts.key n)).versions) :
    Around opts (s.setCell (opts.key n) c) n where
  dead key hkey := by
    rw [setCell_of_ne hkey]
    exact h.dead key hkey
  fresh b hnb hb := by
    rw [setCell_of_ne (hd.key_ne hn hnb hb)]
    exact h.fresh b hnb hb
  own := by rwa [setCell_self]
  applied := by rw [setCell_self, hversions, ← h.applied]; rfl

/-! ## The phases -/

/-- What a resolving transaction that started at `start` and found no token knows. -/
structure Unseen (c : Cell Payload) (start : Timestamp) : Prop where
  newer : ∀ v ∈ c.versions, start < v.1
  read : start ≤ c.maxRead
  seen : ∀ r ∈ c.inflight, r.start ≤ c.maxRead

/-- What holds of the store in each phase. -/
def PhaseOk (opts : Options) (s : Server) (produced : ℕ → Option α) : Phase α → Prop
  | .starting n => n ∈ Set.Icc 1 opts.attempts ∧ Before opts s n
  | .running n start => n ∈ Set.Icc 1 opts.attempts ∧ Before opts s n ∧ start ≤ s.clock
  | .produced n start value | .committing n start value =>
    n ∈ Set.Icc 1 opts.attempts ∧ Before opts s n ∧ start ≤ s.clock ∧ produced n = some value
  | .acked n value _ =>
    n ∈ Set.Icc 1 opts.attempts ∧ Around opts s n ∧ s.applied = [n] ∧ produced n = some value
  | .unknown n value =>
    n ∈ Set.Icc 1 opts.attempts ∧ Around opts s n ∧ produced n = some value
  | .resolving n value start =>
    n ∈ Set.Icc 1 opts.attempts ∧ Around opts s n ∧ produced n = some value ∧
      start ≤ s.clock ∧ ∀ r ∈ (s.cells (opts.key n)).inflight, r.start ≤ start
  | .fencing n value start =>
    n ∈ Set.Icc 1 opts.attempts ∧ Around opts s n ∧ produced n = some value ∧
      start ≤ s.clock ∧ Unseen (s.cells (opts.key n)) start
  | .returned (.ok c) =>
    Around opts s c.attempts ∧ s.applied = [c.attempts] ∧ produced c.attempts = some c.value
  | .returned (.error e) => e.isUndetermined = true ∨ ∃ n, Before opts s n

/-- What every event keeps. -/
structure Inv (opts : Options) (w : World α) : Prop where
  server : w.server.Ok
  phase : PhaseOk opts w.server w.produced w.phase

variable {produced : ℕ → Option α} {value : α} {w : World α}
  {result : Except TxnError (Committed α)}

theorem PhaseOk.of_before (h : Before opts s n) (e : TxnError) :
    PhaseOk opts s produced (.returned (.error e)) := .inr ⟨n, h⟩

theorem PhaseOk.after_retry (h : Before opts s (n + 1)) (e : TxnError) :
    PhaseOk opts s produced (opts.after n (.retry e)) := by
  rw [Options.after]
  split
  next hlt => exact ⟨⟨Nat.succ_le_succ (Nat.zero_le n), hlt⟩, h⟩
  next => exact .of_before h e

theorem PhaseOk.failed (h : Before opts s n) (e : TxnError) :
    PhaseOk opts s produced (opts.failed n e) := by
  rw [Options.failed]
  split
  next => exact .after_retry h.succ e
  next => exact .of_before h e

theorem PhaseOk.preCommitFault (hn : n ∈ Set.Icc 1 opts.attempts) (h : Before opts s n)
    (hproduced : produced n = some value) {here : Phase α} (hhere : PhaseOk opts s produced here)
    (stage : String) (f : Fault) :
    PhaseOk opts s produced (preCommitFault opts n value here stage f) := by
  cases f with
  | delay => exact hhere
  | refuse | conflict => exact .after_retry h.succ _
  | loseAck => exact ⟨hn, h.around hn.2, hproduced⟩

theorem Unseen.land (h : Unseen (s.cells (opts.key n)) start) (i : ℕ) :
    Unseen ((s.land key i ts).cells (opts.key n)) start := by
  refine land_induction i h fun r hr hadmits => ?_
  rcases eq_or_ne (opts.key n) key with rfl | hkey
  · obtain ⟨-, hread, -⟩ := Cell.admits_iff.mp hadmits
    rw [apply_self]
    refine ⟨fun v hv => ?_, h.read, h.seen⟩
    rcases mem_cons.mp hv with rfl | hv
    · exact h.read.trans_lt hread
    · exact h.newer v hv
  · rwa [apply_of_ne hkey]

@[simp] theorem land_clock (s : Server) (key : Bytes) (i : ℕ) (ts : Timestamp) :
    (s.land key i ts).clock = s.clock :=
  land_induction i rfl fun _ _ _ => rfl

@[simp] theorem land_inflight (s : Server) (key k : Bytes) (i : ℕ) (ts : Timestamp) :
    ((s.land key i ts).cells k).inflight = (s.cells k).inflight := by
  refine land_induction i rfl fun r _ _ => ?_
  rcases eq_or_ne k key with rfl | hk
  · rw [apply_self, Cell.put_inflight]
  · rw [apply_of_ne hk]

/-- A late request changes nothing that a phase relies on. -/
theorem PhaseOk.land {phase : Phase α} (hs : s.Ok) (h : PhaseOk opts s produced phase) (i : ℕ) :
    PhaseOk opts (s.land key i ts) produced phase := by
  cases phase with
  | starting n => exact ⟨h.1, h.2.land hs i⟩
  | running n start | produced n start value | committing n start value | resolving n value start =>
    exact ⟨h.1, h.2.1.land hs i, by simpa using h.2.2⟩
  | acked n value ts' =>
    exact ⟨h.1, h.2.1.land hs i, h.2.1.land_applied hs i h.2.2.1, h.2.2.2⟩
  | unknown n value => exact ⟨h.1, h.2.1.land hs i, h.2.2⟩
  | fencing n value start =>
    exact ⟨h.1, h.2.1.land hs i, h.2.2.1, by simpa using h.2.2.2.1, h.2.2.2.2.land i⟩
  | returned result =>
    cases result with
    | ok c => exact ⟨h.1.land hs i, h.1.land_applied hs i h.2.1, h.2.2⟩
    | error e => exact h.imp_right fun ⟨n, hn⟩ => ⟨n, hn.land hs i⟩

/-! ## Steps of the runner -/

theorem Server.Ok.tick (h : s.Ok) (hclock : s.clock < start) : { s with clock := start }.Ok :=
  ⟨h.guarded, fun key r hr => (h.starts key r hr).trans hclock.le⟩

theorem Before.tick (h : Before opts s n) : Before opts { s with clock := start } n :=
  { h with }

theorem Around.tick (h : Around opts s n) : Around opts { s with clock := start } n :=
  { h with }

section

variable (h : Inv opts w)
include h

theorem Inv.of_phase {phase : Phase α} (hphase : w.phase = phase) :
    PhaseOk opts w.server w.produced phase := hphase ▸ h.phase

theorem Inv.beginStep {phase : Phase α} (hphase : w.server.clock < start →
      PhaseOk opts { w.server with clock := start } w.produced phase) :
    Inv opts (beginStep w start phase) := by
  rw [Runner.beginStep]
  split
  next hclock => exact ⟨h.server.tick hclock, hphase hclock⟩
  next => exact h

section

variable (hd : opts.Distinct)
include hd

/-- The answer to an attempt's commit is lost. -/
theorem Inv.lose_mark
    (hphase : w.phase = .committing n start value) :
    Inv opts { w with
      server := w.server.lose (opts.key n) start (mark n start)
      phase := .unknown n value } := by
  obtain ⟨hn, hbefore, hstart, hproduced⟩ := h.of_phase hphase
  have hfresh := hbefore.fresh n le_rfl hn.2
  have haround := hbefore.around hn.2
  refine ⟨h.server.lose hstart hfresh.send_guarded, hn, ?_, hproduced⟩
  exact haround.setCell hd hn.1 (haround.own.send (ofAttempt_mark n start)) rfl

/-- The answer to a commit keeps the invariant. -/
theorem Inv.commitStep (hphase : w.phase = .committing n start value)
    (answer : Except (Class × String) Timestamp) :
    Inv opts (commitStep opts w n start value answer) := by
  obtain ⟨hn, hbefore, hstart, hproduced⟩ := h.of_phase hphase
  have hfresh := hbefore.fresh n le_rfl hn.2
  cases answer with
  | error answer =>
    rw [Runner.commitStep]
    split
    next => exact h.lose_mark hd hphase
    next => exact ⟨h.server, .failed hbefore _⟩
  | ok ts =>
    rw [Runner.commitStep]
    split
    next hadmits =>
      obtain ⟨-, hread⟩ := hfresh.admits_iff.mp hadmits
      have hseen : ∀ r ∈ (w.server.cells (opts.key n)).inflight,
          r.start ≤ (w.server.cells (opts.key n)).maxRead := fun r hr => by simp [hfresh.2] at hr
      refine ⟨h.server.apply ((h.server.guarded _).put hseen hread), hn, ?_, ?_, hproduced⟩
      · exact (hbefore.around hn.2).apply (fun _ => hd.key_ne hn.1) hfresh.1
          (ofAttempt_mark n start)
      · rw [apply_applied, hbefore.applied]
        rfl
    next => exact h

/-- A resolver finds the mark of the attempt, a fence or nothing. -/
theorem Inv.readStep (hphase : w.phase = .resolving n value start) :
    Inv opts (readStep opts w n value start) := by
  obtain ⟨hn, haround, hproduced, hstart, hseen⟩ := h.of_phase hphase
  have hown : Own n ((w.server.cells (opts.key n)).readAt start) := haround.own.readAt
  have haround' := haround.setCell hd hn.1 hown rfl
  have hserver : (w.server.setCell (opts.key n)
      ((w.server.cells (opts.key n)).readAt start)).Ok :=
    h.server.setCell (h.server.guarded _).readAt (h.server.starts _)
  refine ⟨hserver, ?_⟩
  dsimp only [Runner.readStep]
  split
  next found hget =>
    obtain ⟨hfound, ts', hversions⟩ := haround.own.versions_of_get hget
    rcases hfound with ⟨hnone, hfence⟩ | ⟨hsome, hmark⟩
    · rw [if_pos hfence]
      refine .after_retry (haround'.before_succ ⟨?_, .inl ?_⟩) _
      · rw [setCell_self, Cell.readAt_versions, hversions]
        simpa using hnone
      · rw [setCell_self, Cell.readAt_versions, hversions]
        exact cons_ne_nil _ _
    · rw [hmark, if_neg Bool.false_ne_true]
      refine ⟨haround', ?_, hproduced⟩
      rw [haround'.applied, setCell_self, Cell.readAt_versions, hversions]
      simp [hsome]
  next hget =>
    refine ⟨hn, haround', hproduced, hstart, ?_⟩
    rw [setCell_self]
    exact ⟨Cell.get_eq_none.mp hget, Nat.le_max_right _ _,
      fun r hr => (hseen r hr).trans (Nat.le_max_right _ _)⟩

/-- The answer to a fence is lost. -/
theorem Inv.lose_fence
    (hphase : w.phase = .fencing n value start) :
    Inv opts { w with
      server := w.server.lose (opts.key n) start (fence start)
      phase := .unknown n value } := by
  obtain ⟨hn, haround, hproduced, hstart, hunseen⟩ := h.of_phase hphase
  refine ⟨h.server.lose hstart ?_, hn, ?_, hproduced⟩
  · exact (h.server.guarded _).send hunseen.seen hunseen.newer hunseen.read
  · exact haround.setCell hd hn.1 (haround.own.send (ofAttempt_fence n start)) rfl

/-- The answer to a fence keeps the invariant. -/
theorem Inv.fenceStep (hphase : w.phase = .fencing n value start)
    (answer : Except (Class × String) Timestamp) :
    Inv opts (fenceStep opts w n value start answer) := by
  obtain ⟨hn, haround, hproduced, hstart, hunseen⟩ := h.of_phase hphase
  cases answer with
  | error answer =>
    rw [Runner.fenceStep]
    split
    next => exact h.lose_fence hd hphase
    next => exact ⟨h.server, hn, haround, hproduced⟩
  | ok ts =>
    rw [Runner.fenceStep]
    split
    next hadmits =>
      obtain ⟨-, hread, hold⟩ := Cell.admits_iff.mp hadmits
      -- the read saw nothing at `start` and nothing newer is there, so the key is empty
      have hnil : (w.server.cells (opts.key n)).versions = [] := by
        rw [eq_nil_iff_forall_not_mem]
        intro v hv
        exact absurd (hunseen.newer v hv) (Nat.not_lt.mpr (hold v hv))
      have hserver : (w.server.apply (opts.key n) ts (fence start)).Ok :=
        h.server.apply ((h.server.guarded _).put hunseen.seen hread)
      refine ⟨hserver, .after_retry ?_ _⟩
      refine (haround.apply (fun _ => hd.key_ne hn.1) hnil (ofAttempt_fence n start)).before_succ
        ⟨?_, .inl ?_⟩
      · rw [apply_self, Cell.put_versions, hnil]
        simp [fence]
      · rw [apply_self, Cell.put_versions]
        exact cons_ne_nil _ _
    next => exact h

/-- Every answer of the environment keeps the invariant. -/
theorem Inv.next (e : Event α) : Inv opts (next opts w e) := by
  -- one case for each line of the machine, in its order
  unfold Runner.next
  split
  next key i ts => exact ⟨h.server.land i, h.phase.land h.server i⟩
  next attempt hphase =>
    exact ⟨h.server, .of_before (h.of_phase hphase).2 _⟩
  next attempt f hphase =>
    have hok := h.of_phase hphase
    refine ⟨h.server, ?_⟩
    cases f with
    | delay => exact hok
    | _ => exact .after_retry hok.2.succ _
  next attempt cls text hphase =>
    exact ⟨h.server, .failed (h.of_phase hphase).2 _⟩
  next attempt start hphase =>
    have hok := h.of_phase hphase
    exact h.beginStep fun _ => ⟨hok.1, hok.2.tick, le_rfl⟩
  next attempt start hphase =>
    exact ⟨h.server, .of_before (h.of_phase hphase).2.1 _⟩
  next attempt start e hphase =>
    exact ⟨h.server, .failed (h.of_phase hphase).2.1 _⟩
  next attempt start value hphase =>
    have hok := h.of_phase hphase
    exact ⟨h.server, hok.1, hok.2.1, hok.2.2, Function.update_self ..⟩
  next attempt start value f hphase =>
    have hok := h.of_phase hphase
    exact ⟨h.server, .preCommitFault hok.1 hok.2.1 hok.2.2.2 hok _ f⟩
  next attempt start value e hphase =>
    exact ⟨h.server, .of_before (h.of_phase hphase).2.1 _⟩
  next attempt start value hphase =>
    have hok := h.of_phase hphase
    exact ⟨h.server, hok⟩
  next attempt start value f hphase =>
    have hok := h.of_phase hphase
    exact ⟨h.server, .preCommitFault hok.1 hok.2.1 hok.2.2.2 hok _ f⟩
  next attempt start value hphase =>
    exact ⟨h.server, .of_before (h.of_phase hphase).2.1 _⟩
  next attempt start value hphase => exact h.lose_mark hd hphase
  next attempt start value answer hphase => exact h.commitStep hd hphase answer
  next attempt value ts f hphase =>
    have hok := h.of_phase hphase
    refine ⟨h.server, ?_⟩
    cases f with
    | delay => exact hok
    | _ => exact ⟨hok.1, hok.2.1, hok.2.2.2⟩
  next attempt value ts hphase =>
    exact ⟨h.server, (h.of_phase hphase).2⟩
  next attempt value hphase => exact ⟨h.server, .inl rfl⟩
  next attempt value start hphase =>
    have hok := h.of_phase hphase
    refine h.beginStep fun hclock => ⟨hok.1, hok.2.1.tick, hok.2.2, le_rfl, fun r hr => ?_⟩
    exact (h.server.starts _ r hr).trans hclock.le
  next attempt value start hphase =>
    have hok := h.of_phase hphase
    exact ⟨h.server, hok.1, hok.2.1, hok.2.2.1⟩
  next attempt value start cls hphase =>
    have hok := h.of_phase hphase
    exact ⟨h.server, hok.1, hok.2.1, hok.2.2.1⟩
  next attempt value start hphase => exact h.readStep hd hphase
  next attempt value start e hphase =>
    have hok := h.of_phase hphase
    exact ⟨h.server, hok.1, hok.2.1, hok.2.2.1⟩
  next attempt value start hphase => exact h.lose_fence hd hphase
  next attempt value start answer hphase => exact h.fenceStep hd hphase answer
  next => exact h

end

end

/-! ## Whole runs -/

theorem inv_init (opts : Options) : Inv opts ({} : World α) where
  server := ⟨fun _ => Cell.Fresh.guarded ⟨rfl, rfl⟩, fun _ r hr => by simp at hr⟩
  phase := ⟨⟨le_rfl, le_max_right _ _⟩, fun _ => .of_fresh ⟨rfl, rfl⟩, fun _ _ _ => ⟨rfl, rfl⟩, rfl⟩

theorem inv_run (hd : opts.Distinct) (events : List (Event α)) : Inv opts (run opts events) :=
  foldlRecOn events (next opts) (inv_init opts) fun _ h e _ => h.next hd e

/-- After the run has returned only the store changes. -/
theorem run_append_of_returned {events later : List (Event α)}
    (h : (run opts events).phase = .returned result) :
    (run opts (events ++ later)).phase = .returned result ∧
      (run opts (events ++ later)).produced = (run opts events).produced := by
  rw [run, foldl_append]
  apply foldlRecOn later (next opts)
    (motive := fun w => w.phase = .returned result ∧ w.produced = (run opts events).produced)
    ⟨h, rfl⟩
  intro w hw e _
  cases e <;> simpa [next, hw.1] using hw.2

/-- **A run with a commit token applies what it reports.** However its requests are
answered, lost or late: once it has returned a value, the writes of exactly one attempt
have been applied and none will be, and the value is what the body returned on that
attempt; once it has returned an error other than an undetermined outcome, the writes of
no attempt ever are. -/
theorem token_run_applies_reported (opts : Options) (hdistinct : opts.Distinct)
    (events later : List (Event α)) (result : Except TxnError (Committed α))
    (hreturned : (run opts events).phase = .returned result) :
    (run opts (events ++ later)).phase = .returned result ∧
    (∀ c, result = .ok c → (run opts (events ++ later)).server.applied = [c.attempts] ∧
      (run opts events).produced c.attempts = some c.value) ∧
    (∀ e, result = .error e → e.isUndetermined = false →
      (run opts (events ++ later)).server.applied = []) := by
  obtain ⟨hphase, hproduced⟩ : (run opts (events ++ later)).phase = .returned result ∧ _ :=
    run_append_of_returned hreturned
  have hok := (inv_run hdistinct (events ++ later)).phase
  rw [hphase, hproduced] at hok
  refine ⟨hphase, ?_, ?_⟩
  · rintro c rfl
    exact hok.2
  · rintro e rfl hdetermined
    rcases hok with hundetermined | ⟨n, hbefore⟩
    · rw [hundetermined] at hdetermined
      cases hdetermined
    · exact hbefore.applied

/-- Two attempts, whose tokens are all ones and all twos. -/
def sampleOptions : Options where
  maxAttempts := 2
  tokens n := Vector.replicate 16 (UInt8.ofNat n)

/-- The commit is lost, the resolver finds no token and its fence is lost too; the commit
lands, and the next resolver finds the token. -/
def sampleEvents : List (Event ℕ) :=
  [.begun (.ok 10), .body (.ok 7), .put (.ok ()), .dropped,
    .begun (.ok 20), .read (.ok ()), .commit (.error (.undetermined, "timeout")),
    .land (sampleOptions.key 1) 1 30, .begun (.ok 40), .read (.ok ())]

theorem sampleOptions_distinct : sampleOptions.Distinct := by
  rintro a ⟨ha, ha'⟩ b ⟨hb, hb'⟩ h
  change a ≤ 2 at ha'
  change b ≤ 2 at hb'
  interval_cases a <;> interval_cases b <;> first | rfl | exact absurd h (by decide)

theorem token_run_applies_reported_late :
    (run sampleOptions sampleEvents).phase = .returned (.ok ⟨7, 40, 1, true⟩) ∧
    (run sampleOptions (sampleEvents ++ [.land (sampleOptions.key 1) 0 50])).server.applied
      = [1] := by
  have hreturned : (run sampleOptions sampleEvents).phase = .returned (.ok ⟨7, 40, 1, true⟩) := by
    decide +kernel
  exact ⟨hreturned, ((token_run_applies_reported sampleOptions sampleOptions_distinct
    sampleEvents _ _ hreturned).2.1 _ rfl).1⟩

end Loams.Tikv.Runner
