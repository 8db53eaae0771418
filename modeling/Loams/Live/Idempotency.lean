/-
# Idempotent mutations

A mutation with an idempotency key that writes leaves a record of its result for a day.
-/

import Loams.Live.Effects

namespace Loams.Live

open List Loams.Data Loams.Control Loams.Tikv Program Store Sample

/-- What calls have in common that are to take effect once: the function, the key and the
arguments. -/
structure Call where
  function : String
  idem : IdemKey

namespace Call

/-- The commit is of an attempt of such a call. -/
def Of (call : Call) (c : AppCommit) : Prop :=
  ∃ attempt, c.tx = .mutate attempt ∧ attempt.idem = some call.idem ∧
    attempt.function = call.function

/-- The key is used for such calls only. -/
def Only (call : Call) (h : List AppCommit) : Prop :=
  ∀ c ∈ h, ∀ attempt idem, c.tx = .mutate attempt → attempt.idem = some idem →
    idem.hash = call.idem.hash → call.Of c

end Call

/-- The attempt wrote documents, with this result. -/
def Commit.Wrote (result : LiveValue) (c : AppCommit) : Prop :=
  ∃ position usage, c.out = .mutated (.ran result (some position) usage)

/-- When the record that the attempt leaves expires. -/
def Commit.expiryMs (c : AppCommit) : ℕ := physicalMs c.start + idempotencyTtlMs

/-! ## Who writes a record -/

variable {attempt : Attempt}

section Writers

variable {app : App} {options : RunnerOptions} {shards : ℕ} {start : Timestamp} {snapshot : Store}
  {answer : Answer} {effect : Effect AppKey Record} {hash : Bytes} {v : Option Record}

/-- The record that an attempt leaves. -/
def Leaves (attempt : Attempt) (start : Timestamp) (snapshot : Store) (answer : Answer)
    (hash : Bytes) (v : Option Record) : Prop :=
  ∃ idem result, attempt.idem = some idem ∧ idem.hash = hash ∧
    (∃ position usage, answer = .mutated (.ran result (some position) usage)) ∧
    attempt.replay snapshot (physicalMs start) = .ok none ∧
    v = some (.idempotency (attempt.recordOf idem start result))

/-- What a mutation leaves in an idempotency record. -/
theorem leaves_of_mem
    (h : (Tx.mutate attempt).run app options shards start snapshot = some (answer, effect))
    (hw : (.idempotency hash, v) ∈ effect.writes) :
    Leaves attempt start snapshot answer hash v := by
  obtain ⟨result, -, -, rfl⟩ | ⟨result, live, hran, hcommit⟩ := Tx.mutate_eq_some h
  · cases hw
  · have hnot : (.idempotency hash, v) ∉ live.txn.writes := fun hmem => hran.data _ hmem
    obtain ⟨-, -, rfl⟩ | ⟨stored, position, -, rfl, happended⟩ := hcommit
    · exact absurd hw hnot
    · rcases happended.writes_key hw with hw | hw | hkey | ⟨seq, hkey⟩
      · exact absurd hw hnot
      · obtain ⟨idem, hidem, heq⟩ := Attempt.recordWrites_key hw
        obtain ⟨hkey, rfl⟩ := Prod.mk.inj heq
        rw [hran.start_eq]
        exact ⟨idem, result, hidem, (AppKey.idempotency.inj hkey).symm, ⟨position, _, rfl⟩,
          hran.replay, rfl⟩
      · cases hkey
      · cases hkey

/-- A record is written by an attempt that found no live one, and deleted by a sweep that
found it expired. -/
theorem written_idempotency {tx : Tx}
    (h : tx.run app options shards start snapshot = some (answer, effect))
    (hw : (.idempotency hash, v) ∈ effect.writes) :
    (∃ attempt, tx = .mutate attempt ∧ Leaves attempt start snapshot answer hash v) ∨
      ((∃ low, tx = .sweep low) ∧ ∃ record,
        snapshot.idempotency[hash]? = some (.idempotency record) ∧
          record.expiresMs ≤ physicalMs start) := by
  cases tx with
  | mutate attempt => exact .inl ⟨attempt, rfl, leaves_of_mem h hw⟩
  | trim shard retentionMs =>
    exact ((Tx.of_lifted (Journal.trim_moves shards shard retentionMs) (fun _ => id) h).2 _ hw).elim
  | checkpoint consumer positions ttlMs =>
    exact ((Tx.of_lifted (Journal.checkpoint_moves app.enc shards consumer positions ttlMs 0)
      (fun _ => id) h).2 _ hw).elim
  | removeCheckpoint consumer =>
    exact ((Tx.of_lifted (Journal.removeCheckpoint_moves shards consumer 0) (fun _ => id) h).2 _
      hw).elim
  | sweep low =>
    obtain ⟨-, rfl⟩ := Tx.lifted_eq_some h
    obtain ⟨records, hrecords, hexec⟩ :=
      Journal.sweepIdempotency_exec low (.startAt start snapshot)
    rw [hexec] at hw
    obtain ⟨p, hp, heq⟩ := mem_map.mp hw
    obtain ⟨hkey, -⟩ := Prod.mk.inj heq
    obtain ⟨hmem, hexpired⟩ := mem_filter.mp hp
    have hget := hrecords p hmem
    rw [AppKey.idempotency.inj hkey] at hget
    refine .inr ⟨⟨low, rfl⟩, ?_⟩
    cases hr : p.2 with
    | idempotency record =>
      rw [hr] at hget hexpired
      exact ⟨record, hget, of_decide_eq_true hexpired⟩
    | _ =>
      rw [hr] at hexpired
      cases hexpired

end Writers

/-! ## The record stays while it lives -/

section Lifetime

variable {app : App} {options : RunnerOptions} {shards : ℕ} {init : Store} {call : Call}
  {h : List AppCommit} {c d : AppCommit} {result : LiveValue}

/-- The record of a call that wrote. -/
def Call.record (call : Call) (c : AppCommit) (result : LiveValue) : IdempotencyRecord :=
  { result
    expiresMs := Commit.expiryMs c
    function := call.function
    startTs := c.start
    argsHash := call.idem.args }

theorem recordOf_eq (hfunction : attempt.function = call.function) :
    attempt.recordOf call.idem c.start result = call.record c result := by
  rw [Attempt.recordOf, hfunction]
  rfl

/-- A live record of the call is replayed. -/
theorem replay_eq_some {store : Store} {nowMs : ℕ} (hidem : attempt.idem = some call.idem)
    (hfunction : attempt.function = call.function)
    (hrecord : store.idempotency[call.idem.hash]? = some (.idempotency (call.record c result)))
    (hlive : nowMs < Commit.expiryMs c) : attempt.replay store nowMs = .ok (some result) := by
  have hfun : (call.record c result).function = attempt.function := hfunction.symm
  have hargs : (call.record c result).argsHash = [] ∨
      (call.record c result).argsHash = call.idem.args := .inr rfl
  unfold Attempt.replay
  simp only [hidem, hrecord, Attempt.decodeIdempotency]
  exact except_bind_ok.mpr ⟨_, rfl, by
    rw [if_pos (show nowMs < (call.record c result).expiresMs from hlive)]
    exact except_bind_ok.mpr ⟨(), require_eq_ok.mpr hfun,
      except_bind_ok.mpr ⟨(), require_eq_ok.mpr hargs, rfl⟩⟩⟩

/-- The record of a call that wrote is the one in the store, or has expired for some
transaction. -/
def Call.Kept (call : Call) (init : Store) (h : List AppCommit) : Prop :=
  call.Only h → ∀ c ∈ h, ∀ result, call.Of c → Commit.Wrote result c →
    (keyed.state init h).idempotency[call.idem.hash]? =
        some (.idempotency (call.record c result)) ∨
      ∃ e ∈ h, Commit.expiryMs c ≤ physicalMs e.start

theorem get_idempotency (store : Store) (hash : Bytes) :
    store.idempotency[hash]? = keyed.get store (.idempotency hash) := rfl

/-- A call that wrote has written its record. -/
theorem written_of_wrote
    (hc : Admissible keyed Effect.written (Tx.run app options shards) init h c)
    (hcall : call.Of c) (hwrote : Commit.Wrote result c) :
    (.idempotency call.idem.hash, some (.idempotency (call.record c result))) ∈
      c.effect.writes := by
  obtain ⟨attempt, htx, hidem, hfunction⟩ := hcall
  obtain ⟨position, usage, hout⟩ := hwrote
  have hran := hc.ran
  rw [htx, hout] at hran
  obtain ⟨_, -, hreplayed, -⟩ | ⟨result', live, hlive, hcommit⟩ := Tx.mutate_eq_some hran
  · cases hreplayed
  · obtain ⟨-, hnone, -⟩ | ⟨stored, position', -, hsome, happended⟩ := hcommit
    · cases hnone
    · obtain ⟨rfl, -, -⟩ := Outcome.ran.inj (Answer.mutated.inj hsome)
      obtain ⟨head, chunks, -, -, -, heffect⟩ := happended.shape
      rw [heffect]
      refine mem_append_left _ (mem_append_right _ ?_)
      rw [Attempt.recordWrites, hidem, hlive.start_eq, ← recordOf_eq hfunction]
      exact mem_singleton_self _

section

variable (hh : History keyed Effect.written (Tx.run app options shards) init h)
include hh

/-- The record of a call is kept while it lives. -/
theorem kept_of_history : call.Kept init h := by
  refine hh.induction (P := call.Kept init) (fun _ c hc => by cases hc) ?_
  intro h c' hh ih hc' honly c hc result hcall hwrote
  have honly' : call.Only h := fun d hd => honly d (mem_append_left _ hd)
  rw [get_idempotency, Keyed.state_concat]
  have hwritten : ∀ v, (.idempotency call.idem.hash, v) ∈ c'.effect.writes →
      _ := fun v hv => written_idempotency hc'.ran hv
  rcases mem_append.mp hc with hc | hc
  · rcases ih h prefix_rfl honly' c hc result hcall hwrote with hrecord | ⟨e, he, hexpired⟩
    · by_cases hmem : (.idempotency call.idem.hash) ∈ c'.effect.written
      · -- whoever writes the key found this record, and found it expired
        right
        refine ⟨c', by simp, ?_⟩
        have hsnap : (keyed.snapshot init h c'.start).idempotency[call.idem.hash]? =
            some (.idempotency (call.record c result)) := by
          rw [← hrecord, get_idempotency, get_idempotency]
          exact (hc'.get_state_eq (fun _ => List.Subset.refl _) hh hmem).symm
        obtain ⟨⟨key, v⟩, hv, rfl⟩ := mem_map.mp hmem
        rcases hwritten v hv with ⟨attempt, htx, idem, r, hidem, hhash, -, hreplay, -⟩ |
          ⟨-, record, hget, hexpired⟩
        · obtain ⟨attempt', htx', hidem', hfunction⟩ :=
            honly c' (by simp) attempt idem htx hidem hhash
          obtain rfl := Tx.mutate.inj (htx.symm.trans htx')
          by_contra hlive
          rw [replay_eq_some hidem' hfunction hsnap (not_le.mp hlive)] at hreplay
          cases hreplay
        · rw [hsnap] at hget
          obtain rfl := Record.idempotency.inj (Option.some.inj hget)
          exact hexpired
      · left
        rw [Keyed.get_apply_of_notMem hmem]
        exact hrecord
    · exact .inr ⟨e, mem_append_left _ he, hexpired⟩
  · obtain rfl := mem_singleton.mp hc
    left
    refine Keyed.get_apply_eq (written_of_wrote hc' hcall hwrote) fun v hv => ?_
    -- the attempt writes its record and nothing else at the key
    obtain ⟨attempt, htx, hidem, hfunction⟩ := hcall
    obtain ⟨position, usage, hout⟩ := hwrote
    rcases hwritten v hv with
      ⟨attempt', htx', idem, r, hidem', -, ⟨position', usage', hout'⟩, -, rfl⟩ |
      ⟨⟨low, htx'⟩, -⟩
    · obtain rfl := Tx.mutate.inj (htx.symm.trans htx')
      obtain rfl := Option.some.inj (hidem.symm.trans hidem')
      obtain ⟨rfl, -, -⟩ := Outcome.ran.inj (Answer.mutated.inj (hout.symm.trans hout'))
      rw [recordOf_eq hfunction]
    · cases htx.symm.trans htx'

section

variable (honly : call.Only h) (hc : c ∈ h) (hcall : call.Of c) (hwrote : Commit.Wrote result c)
  (hd : d ∈ h) (hdcall : call.Of d)
include honly hc hcall hwrote hd hdcall

/-- While the record lives, every attempt that starts after it was written replays it and
does nothing. -/
theorem replays_of_live (hafter : c.ts ≤ d.start) (hlive : physicalMs d.start < Commit.expiryMs c) :
    d.out = .mutated (.replayed result) ∧ d.effect = {} := by
  obtain ⟨seen, hseen, hsub, hmem, hran⟩ := hh.exists_seen hd
  have honly' : call.Only seen := fun e he => honly e (hsub.subset he)
  rcases kept_of_history hseen honly' c ((hmem c).mpr ⟨hc, hafter⟩) result hcall hwrote with
    hrecord | ⟨e, he, hexpired⟩
  · obtain ⟨attempt, htx, hidem, hfunction⟩ := hdcall
    rw [htx] at hran
    have hreplay := replay_eq_some hidem hfunction hrecord hlive
    obtain ⟨r, hr, hout, heffect⟩ | ⟨_, _, hlive, -⟩ := Tx.mutate_eq_some hran
    · obtain rfl := Option.some.inj (Except.ok.inj (hreplay.symm.trans hr))
      exact ⟨hout, heffect⟩
    · cases hreplay.symm.trans hlive.replay
  · have hearlier := (hh.start_lt_ts (hsub.subset he)).le.trans ((hmem e).mp he).2
    have hle : physicalMs e.start ≤ physicalMs d.start := Nat.div_le_div_right hearlier
    exact absurd (hexpired.trans hle) (not_le.mpr hlive)

/-- Of two attempts that wrote, the later one started when the record of the earlier one
had expired. -/
theorem expired_of_wrote {result' : LiveValue} (hdwrote : Commit.Wrote result' d)
    (hlater : c.ts < d.ts) : Commit.expiryMs c ≤ physicalMs d.start := by
  obtain ⟨pre, post, rfl, hadm⟩ := hh.admissible_of_mem hd
  have hpre : c ∈ pre := hh.mem_of_ts_lt hc hlater
  obtain ⟨pre', post', rfl, hadm'⟩ :=
    (hh.of_isPrefix (prefix_append pre _)).admissible_of_mem hpre
  -- both wrote the record, so the later one started after the earlier one's commit
  have hafter : c.ts ≤ d.start := by
    by_contra hoverlap
    exact hadm.apart c hpre (not_le.mp hoverlap) (.idempotency call.idem.hash)
      (mem_map.mpr ⟨_, written_of_wrote hadm hdcall hdwrote, rfl⟩)
      (mem_map.mpr ⟨_, written_of_wrote hadm' hcall hwrote, rfl⟩)
  by_contra hlive
  have hreplayed := (replays_of_live hh honly hc hcall hwrote hd hdcall hafter (not_le.mp hlive)).1
  obtain ⟨position, usage, hout⟩ := hdwrote
  rw [hout] at hreplayed
  cases hreplayed

end

end

/-- Within the lifetime of a record no other attempt that wrote commits, nor even starts,
and every attempt that starts after the record was written returns its result and writes
nothing. -/
theorem idempotent_mutations_take_effect_once
    (hh : History Store.keyed Effect.written (Tx.run app options shards) init h)
    (honly : call.Only h) (hc : c ∈ h) (hcall : call.Of c) (hwrote : Commit.Wrote result c) :
    (∀ d ∈ h, call.Of d → (∃ r, Commit.Wrote r d) → c.ts < d.ts →
      Commit.expiryMs c ≤ physicalMs d.start) ∧
    (∀ d ∈ h, call.Of d → c.ts ≤ d.start → physicalMs d.start < Commit.expiryMs c →
      d.out = .mutated (.replayed result) ∧ d.effect = {}) :=
  ⟨fun _ hd hdcall ⟨_, hdwrote⟩ hlater =>
      expired_of_wrote hh honly hc hcall hwrote hd hdcall hdwrote hlater,
    fun _ hd hdcall hafter hlive =>
      replays_of_live hh honly hc hcall hwrote hd hdcall hafter hlive⟩

end Lifetime

/-! ### A function that writes from some time on -/

namespace Sample

/-- The sample application. -/
def clockApp : App where
  text := ⟨fun _ => "", fun _ => none, fun _ => 0⟩
  enc := ⟨fun _ => 1, fun _ => 1, fun _ => 1⟩

/-- The app's settings: one journal shard. -/
def clockInit : Store := { data := (∅ : Data).insert AppKeys.appDef (.shards 1) }

/-- Before timestamp 5 there is nothing to do; from then on the call is written down. -/
def visit : Attempt where
  function := "visit"
  body _ := .observe fun ts _ _ =>
    if ts < 5 then .done (.ok (.bool false))
    else .insert "visits" ∅ fun _ => .done (.ok (.bool true))
  args := .null
  idem := some ⟨[1], [2]⟩
  draws _ := some (Vector.replicate 16 7)

/-- A call with its idempotency key. -/
def visits : Call := ⟨"visit", ⟨[1], [2]⟩⟩

/-- A visit of the sample application that ran. -/
abbrev visited := Commit.ofRun (Tx.run clockApp {} 1) (.mutate visit)

/-- It writes. -/
def writer : AppCommit := visited 5 6 clockInit rfl

/-- It started before and commits after the writer. -/
def early : AppCommit := visited 3 7 clockInit rfl

/-- It starts after the writer. -/
def late : AppCommit := visited 8 9 (keyed.state clockInit [writer]) rfl

theorem writer_wrote : Commit.Wrote (.bool true) writer := ⟨_, _, rfl⟩

theorem writer_history :
    History keyed Effect.written (Tx.run clockApp {} 1) clockInit [writer] :=
  .ofRun .nil rfl (by decide) (by simp) (by simp) (by decide +kernel)

theorem visits_only (c d : AppCommit) (hc : visits.Of c) (hd : visits.Of d) :
    visits.Only [c, d] := by
  intro e he _ _ _ _ _
  rcases mem_cons.mp he with rfl | he
  · exact hc
  · rwa [mem_singleton.mp he]

theorem writer_of : visits.Of writer := ⟨visit, rfl, rfl, rfl⟩

end Sample

theorem idempotent_mutations_take_effect_once_late :
    (Sample.late).out = .mutated (.replayed (.bool true)) := by
  have hof : visits.Of late := ⟨visit, rfl, rfl, rfl⟩
  have hh : History keyed Effect.written (Tx.run clockApp {} 1) clockInit [writer, late] :=
    .ofRun writer_history rfl (by decide) (by decide) (by decide) (by decide +kernel)
  exact ((idempotent_mutations_take_effect_once hh
    (visits_only _ _ writer_of hof) (by simp) writer_of
      writer_wrote).2 late (by simp) hof (by decide) (by decide +kernel)).1

/-- A call that succeeds after the one that wrote, while the record lives, can return
another result: its attempt started before, and had nothing to write. -/
theorem early_call_keeps_its_result : ∃ (h : List AppCommit) (c d : AppCommit) (result : LiveValue),
    History Store.keyed Effect.written (Tx.run Sample.clockApp {} 1) Sample.clockInit h ∧
      Sample.visits.Only h ∧ c ∈ h ∧ d ∈ h ∧ Sample.visits.Of c ∧ Sample.visits.Of d ∧
      Commit.Wrote result c ∧ c.ts < d.ts ∧ physicalMs d.ts < Commit.expiryMs c ∧
      d.out ≠ .mutated (.replayed result) := by
  have hof : visits.Of early := ⟨visit, rfl, rfl, rfl⟩
  have hh : History keyed Effect.written (Tx.run clockApp {} 1) clockInit [writer, early] :=
    .ofRun writer_history rfl (by decide) (by decide) (by decide +kernel) (by decide +kernel)
  refine ⟨_, Sample.writer, early, .bool true, hh,
    visits_only _ _ writer_of hof, by simp, by simp, writer_of, hof,
    writer_wrote, by decide, by decide +kernel, ?_⟩
  have hout : early.out = .mutated (.ran (.bool false) none {}) := rfl
  rw [hout]
  exact fun h => by cases h

end Loams.Live
