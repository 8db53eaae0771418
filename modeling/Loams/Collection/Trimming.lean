/-
# Trimming the implicit stream

A trim task reads the pointer and the clock once, walks the retained manifests and trims
each partition below what the oldest of them has applied.
-/

import Loams.Collection.Chain
import Loams.Control.Run

namespace Loams.Collection

open List Loams.Control

/-- One partition of the implicit stream. -/
structure PartitionLog where
  logStart : ℕ
  nextOffset : ℕ
  deriving DecidableEq

/-- Never back and never past the end. -/
def PartitionLog.trim (log : PartitionLog) (before : ℕ) : PartitionLog :=
  { log with logStart := max log.logStart (min before log.nextOffset) }

/-- What one read of the metastore tells a trim task. -/
structure Seen where
  logStarts : List ℕ
  pointer : Option Pointer
  clockMs : ℕ

/-- The partitions that a task trims, with the offsets it trims them at. -/
def trimBounds (load : Load) (ns cid : ℕ) (r : Retention) (seen : Seen) :
    Except CollectionError (List (ℕ × ℕ)) :=
  match seen.pointer with
  | none => .ok []
  | some pointer => do
    let live ← loadPointed load ns cid pointer
    let chain ← retainedChain load ns r seen.clockMs (pointer.value, live)
    match chain.getLast? with
    | none => .ok []
    | some (_, oldest) =>
      .ok (seen.logStarts.zipIdx.filterMap fun (logStart, partition) =>
        if oldest.appliedAt partition ≤ logStart then none
        else some (partition, oldest.appliedAt partition))

/-- What a task is at. -/
inductive TrimTask
  | reading (seen : Seen)
  | trimming (bounds : List (ℕ × ℕ))

/-- A collection with its stream and its trim tasks. -/
structure TrimWorld where
  objects : ObjectPath → Option CollectionManifest
  history : History
  clockMs : ℕ
  partitions : List PartitionLog
  tasks : List TrimTask

/-- What can happen. -/
inductive TrimAction
  /-- A commit writes its manifest; a path is written once. -/
  | put (path : ObjectPath) (manifest : CollectionManifest)
  /-- A commit moves the pointer from its parent's version to its manifest. -/
  | cas (path : ObjectPath)
  | append (partition count : ℕ)
  | tick (nowMs : ℕ)
  /-- A trim task reads the pointer and the clock. -/
  | read
  /-- It walks the retained manifests. -/
  | walk (task : ℕ)
  /-- It trims one more partition. -/
  | trim (task : ℕ)

namespace TrimWorld

/-- No commit, and empty logs. -/
def initial (partitions : ℕ) : TrimWorld where
  objects _ := none
  history := []
  clockMs := 0
  partitions := List.replicate partitions ⟨0, 0⟩
  tasks := []

variable (ns cid : ℕ) (r : Retention) (w : TrimWorld)

/-- The manifests of the object store. -/
def load : Load := fun path =>
  match w.objects path with
  | some manifest => .ok manifest
  | none => .error (.storeNotFound (path.text ns cid))

/-- What a task reads first. -/
def seen : Seen :=
  ⟨w.partitions.map (·.logStart), w.history.pointer, w.clockMs⟩

/-- The retained manifests, as a reader finds them now. -/
def retainedNow : Except CollectionError History :=
  match w.history.pointer with
  | none => .ok []
  | some pointer => do
    let live ← loadPointed (w.load ns cid) ns cid pointer
    retainedChain (w.load ns cid) ns r w.clockMs (pointer.value, live)

/-- A manifest is written unless its path is taken. -/
def put (path : ObjectPath) (m : CollectionManifest) : TrimWorld :=
  match w.objects path with
  | some _ => w
  | none => { w with objects := Function.update w.objects path (some m) }

/-- The pointer moves only from the manifest's parent. -/
def cas (path : ObjectPath) : TrimWorld :=
  match w.objects path with
  | none => w
  | some m =>
    if m.parentVersion = w.history.length then { w with history := (path, m) :: w.history } else w

/-- A task that cannot read a manifest ends. -/
def walk (task : ℕ) : TrimWorld :=
  match w.tasks[task]? with
  | some (.reading seen) =>
    match trimBounds (w.load ns cid) ns cid r seen with
    | .ok bounds => { w with tasks := w.tasks.set task (.trimming bounds) }
    | .error _ => { w with tasks := w.tasks.set task (.trimming []) }
  | _ => w

/-- A task trims the next of its partitions. -/
def trim (task : ℕ) : TrimWorld :=
  match w.tasks[task]? with
  | some (.trimming ((partition, bound) :: rest)) =>
    { w with
      partitions := w.partitions.modify partition (·.trim bound)
      tasks := w.tasks.set task (.trimming rest) }
  | _ => w

/-- One action. -/
def step : TrimAction → TrimWorld
  | .put path m => w.put path m
  | .cas path => w.cas path
  | .append partition count =>
    { w with
      partitions := w.partitions.modify partition
        fun log => { log with nextOffset := log.nextOffset + count } }
  | .tick nowMs => { w with clockMs := max w.clockMs nowMs }
  | .read => { w with tasks := w.tasks ++ [.reading w.seen] }
  | .walk task => w.walk ns cid r task
  | .trim task => w.trim task

/-- A commit builds its manifest on one that was live when it read the pointer. -/
def Commits : TrimAction → Prop
  | .put _ m => ∃ older, older <:+ w.history ∧ Extends cid older m
  | _ => True

/-- The collection after the actions, from an empty one with an empty stream. -/
def run (partitions : ℕ) (actions : List TrimAction) : TrimWorld :=
  actions.foldl (step ns cid r) (initial partitions)

end TrimWorld

/-! ## Floors -/

/-- Every retained manifest of the history has applied the partition up to the bound. -/
structure Floor (r : Retention) (clockMs : ℕ) (h : History) (partition bound : ℕ) : Prop where
  nothing : h = [] → bound = 0
  retained : ∀ y ∈ retained r clockMs (fun _ => true) h, bound ≤ y.2.appliedAt partition

section Floors

variable {cid : ℕ} {r : Retention} {clockMs clockMs' partition bound : ℕ} {new older : History}
variable {y z : ObjectPath × CollectionManifest}

/-- Floors stay floors as commits arrive and the clock advances. -/
theorem Floor.later (h : Floor r clockMs older partition bound)
    (hchained : Chained cid (new ++ older))
    (hclock : clockMs ≤ clockMs') : Floor r clockMs' (new ++ older) partition bound := by
  refine ⟨fun hnil => h.nothing (append_eq_nil_iff.mp hnil).2, fun y hy => ?_⟩
  rcases mem_retained_append hclock (fun _ h => h) hy with hnew | hold
  · cases older with
    | nil =>
      rw [h.nothing rfl]
      exact Nat.zero_le _
    | cons x older =>
      exact (h.retained x mem_cons_self).trans
        ((pairwise_append.mp (hchained.pairwise_appliedAt partition)).2.2 y hnew x
          mem_cons_self)
  · exact h.retained y hold

theorem Floor.mono {bound' : ℕ} (h : Floor r clockMs older partition bound) (hb : bound' ≤ bound) :
    Floor r clockMs older partition bound' where
  nothing hnil := Nat.le_zero.mp (hb.trans (h.nothing hnil).le)
  retained y hy := hb.trans (h.retained y hy)

/-- What the oldest retained manifest has applied is a floor. -/
theorem floor_of_getLast (hchained : Chained cid older) {oldest : ObjectPath × CollectionManifest}
    (hlast : (retained r clockMs (fun _ => true) older).getLast? = some oldest) :
    Floor r clockMs older partition (oldest.2.appliedAt partition) := by
  refine ⟨fun hnil => ?_, fun y hy => ?_⟩
  · subst hnil
    cases hlast
  · have hkept : (retained r clockMs (fun _ => true) older).Pairwise
        fun x y => y.2.appliedAt partition ≤ x.2.appliedAt partition :=
      (hchained.pairwise_appliedAt partition).sublist (retained_sublist older)
    obtain ⟨newer, hnewer⟩ := getLast?_eq_some_iff.mp hlast
    rw [hnewer] at hkept hy
    rcases mem_append.mp hy with hy | hy
    · exact (pairwise_append.mp hkept).2.2 y hy oldest mem_cons_self
    · rw [mem_singleton.mp hy]

end Floors

/-! ## The invariant -/

namespace TrimWorld

variable {ns cid : ℕ} {r : Retention} {w : TrimWorld} {actions : List TrimAction}

/-- A task that has read the pointer knows a state of the past; what it is about to trim
at is a floor. -/
def TaskHolds (r : Retention) (h : History) (clockMs : ℕ) : TrimTask → Prop
  | .reading seen =>
    ∃ older : History, older <:+ h ∧ seen.pointer = older.pointer ∧ seen.clockMs ≤ clockMs
  | .trimming bounds => ∀ b ∈ bounds, Floor r clockMs h b.1 b.2

/-- What holds at every moment. -/
structure Holds (cid : ℕ) (r : Retention) (w : TrimWorld) : Prop where
  chained : Chained cid w.history
  stored : ∀ y ∈ w.history, w.objects y.1 = some y.2
  built : ∀ path m, w.objects path = some m → ∃ older, older <:+ w.history ∧ Extends cid older m
  logs : ∀ p log, w.partitions[p]? = some log → Floor r w.clockMs w.history p log.logStart
  tasks : ∀ t ∈ w.tasks, TaskHolds r w.history w.clockMs t

theorem holds_initial (partitions : ℕ) : (initial partitions).Holds cid r where
  chained := trivial
  stored _ h := nomatch h
  built _ _ h := nomatch h
  logs p log h := by
    have hlog : log = ⟨0, 0⟩ := eq_of_mem_replicate (mem_of_getElem? h)
    exact ⟨fun _ => congrArg PartitionLog.logStart hlog, fun _ h => nomatch h⟩
  tasks _ h := nomatch h

/-- A task's knowledge lasts while the collection moves on. -/
theorem TaskHolds.later {t : TrimTask} {older new : History} {clockMs clockMs' : ℕ}
    (h : TaskHolds r older clockMs t) (hchained : Chained cid (new ++ older))
    (hclock : clockMs ≤ clockMs') : TaskHolds r (new ++ older) clockMs' t := by
  cases t with
  | reading seen =>
    obtain ⟨past, hpast, hpointer, hseen⟩ := h
    exact ⟨past, hpast.trans (suffix_append new older), hpointer, hseen.trans hclock⟩
  | trimming bounds => exact fun b hb => (h b hb).later hchained hclock

theorem Holds.reads (h : w.Holds cid r) {older : History} (holder : older <:+ w.history) :
    Reads (w.load ns cid) (fun _ => true) older := by
  intro y hy
  refine .inl ⟨rfl, ?_⟩
  rw [load, h.stored y (holder.subset hy)]

/-- Reading from a past pointer finds the part of the history that was retained then. -/
theorem Holds.retained_of_pointer (h : w.Holds cid r) (ns : ℕ) {older : History}
    (holder : older <:+ w.history) {pointer : Pointer} (hpointer : older.pointer = some pointer)
    (clockMs : ℕ) : ∃ live, loadPointed (w.load ns cid) ns cid pointer = .ok live ∧
      retainedChain (w.load ns cid) ns r clockMs (pointer.value, live) =
        .ok (retained r clockMs (fun _ => true) older) := by
  cases older with
  | nil => cases hpointer
  | cons x older =>
    obtain ⟨new, hnew⟩ := holder
    have hchained : Chained cid (x :: older) :=
      (hnew ▸ h.chained : Chained cid (new ++ _)).of_append
    obtain rfl : ⟨older.length + 1, x.1⟩ = pointer := Option.some.inj hpointer
    have hload : w.load ns cid x.1 = .ok x.2 := by
      rw [load, h.stored x (hnew ▸ mem_append_right new mem_cons_self)]
    refine ⟨x.2, loadPointed_eq hchained hload, retainedChain_eq hchained ?_⟩
    exact h.reads ((suffix_cons x older).trans ⟨new, hnew⟩)

theorem Holds.retainedNow (h : w.Holds cid r) :
    w.retainedNow ns cid r = .ok (retained r w.clockMs (fun _ => true) w.history) := by
  unfold TrimWorld.retainedNow
  cases hpointer : w.history.pointer with
  | none =>
    cases hhistory : w.history with
    | nil => rfl
    | cons x older =>
      rw [hhistory] at hpointer
      cases hpointer
  | some pointer =>
    obtain ⟨live, hlive, hchain⟩ :=
      h.retained_of_pointer ns (suffix_refl _) hpointer w.clockMs
    exact except_bind_ok.mpr ⟨live, hlive, hchain⟩

/-- What a task trims at is a floor of what it read, and so of what is live by now. -/
theorem Holds.floor_of_trimBounds (h : w.Holds cid r) {seen : Seen}
    (hseen : TaskHolds r w.history w.clockMs (.reading seen)) {bounds : List (ℕ × ℕ)}
    (hbounds : trimBounds (w.load ns cid) ns cid r seen = .ok bounds) {b : ℕ × ℕ}
    (hb : b ∈ bounds) :
    Floor r w.clockMs w.history b.1 b.2 := by
  obtain ⟨older, holder, hpointer, hclock⟩ := hseen
  unfold trimBounds at hbounds
  cases hold : History.pointer older with
  | none =>
    rw [hpointer, hold] at hbounds
    cases hbounds
    cases hb
  | some pointer =>
    rw [hpointer, hold] at hbounds
    obtain ⟨live, hlive, hbounds⟩ := except_bind_ok.mp hbounds
    obtain ⟨chain, hchain, hbounds⟩ := except_bind_ok.mp hbounds
    obtain ⟨live', hlive', hchain'⟩ := h.retained_of_pointer ns holder hold seen.clockMs
    obtain rfl : live' = live := Except.ok.inj (hlive'.symm.trans hlive)
    obtain rfl : retained r seen.clockMs (fun _ => true) older = chain :=
      Except.ok.inj (hchain'.symm.trans hchain)
    obtain ⟨new, hnew⟩ := holder
    have hchained : Chained cid (new ++ older) := hnew ▸ h.chained
    cases hlast : (retained r seen.clockMs (fun _ => true) older).getLast? with
    | none =>
      rw [hlast] at hbounds
      cases hbounds
      cases hb
    | some oldest =>
      rw [hlast] at hbounds
      cases hbounds
      obtain ⟨⟨logStart, partition⟩, -, hbound⟩ := mem_filterMap.mp hb
      dsimp only at hbound
      split_ifs at hbound
      cases hbound
      rw [← hnew]
      exact (floor_of_getLast hchained.of_append hlast).later hchained hclock

/-! ## Steps -/

section

variable (h : w.Holds cid r)
include h

theorem Holds.put {path : ObjectPath} {m : CollectionManifest}
    (hm : ∃ older, older <:+ w.history ∧ Extends cid older m) : (w.put path m).Holds cid r := by
  unfold TrimWorld.put
  split
  case h_1 => exact h
  case h_2 hfree =>
    refine ⟨h.chained, fun y hy => ?_, fun path' m' hget => ?_, h.logs, h.tasks⟩
    · -- a committed manifest stands at a path that was taken
      have hne : y.1 ≠ path := fun heq => by
        rw [← heq, h.stored y hy] at hfree
        cases hfree
      exact (Function.update_of_ne hne _ _).trans (h.stored y hy)
    · by_cases heq : path' = path
      · subst heq
        obtain rfl : m = m' := Option.some.inj ((Function.update_self path' _ _).symm.trans hget)
        exact hm
      · exact h.built path' m' ((Function.update_of_ne heq _ _).symm.trans hget)

theorem Holds.cas {path : ObjectPath} : (w.cas path).Holds cid r := by
  unfold TrimWorld.cas
  split
  case h_1 => exact h
  case h_2 m hm =>
    split_ifs with hversion
    · obtain ⟨older, hsuffix, hextends⟩ := h.built path m hm
      -- the parent's version says that nothing was committed since the commit read it
      obtain rfl : older = w.history :=
        hsuffix.eq_of_length (hextends.parentVersion.symm.trans hversion)
      have hchained : Chained cid ([(path, m)] ++ w.history) := ⟨hextends, h.chained⟩
      refine ⟨hchained, fun y hy => ?_, fun path' m' hget => ?_, fun p log hlog => ?_,
        fun t ht => ?_⟩
      · rcases mem_cons.mp hy with rfl | hy
        · exact hm
        · exact h.stored y hy
      · obtain ⟨past, hpast, hbuilt⟩ := h.built path' m' hget
        exact ⟨past, hpast.trans (suffix_cons _ _), hbuilt⟩
      · exact (h.logs p log hlog).later hchained le_rfl
      · exact (h.tasks t ht).later hchained le_rfl
    · exact h

theorem Holds.tick (nowMs : ℕ) : Holds cid r { w with clockMs := max w.clockMs nowMs } := by
  have hchained : Chained cid ([] ++ w.history) := h.chained
  refine { h with logs := fun p log hlog => ?_, tasks := fun t ht => ?_ }
  · exact (h.logs p log hlog).later hchained (le_max_left _ _)
  · exact (h.tasks t ht).later hchained (le_max_left _ _)

/-- Changing the partitions keeps the invariant when every new log start is a floor. -/
theorem Holds.modify {partition : ℕ} {f : PartitionLog → PartitionLog}
    (hf : ∀ log, Floor r w.clockMs w.history partition log.logStart →
      Floor r w.clockMs w.history partition (f log).logStart) :
    Holds cid r { w with partitions := w.partitions.modify partition f } := by
  refine { h with logs := fun p log hlog => ?_ }
  obtain ⟨old, hold, rfl⟩ : ∃ old, w.partitions[p]? = some old ∧
      (if partition = p then f old else old) = log :=
    Option.map_eq_some_iff.mp ((getElem?_modify f partition _ p).symm.trans hlog)
  split_ifs with heq
  · subst heq
    exact hf old (h.logs _ old hold)
  · exact h.logs p old hold

/-- A task that goes on keeps the invariant when what it now knows holds. -/
theorem Holds.setTask {task : ℕ} {t : TrimTask} (ht : TaskHolds r w.history w.clockMs t) :
    Holds cid r { w with tasks := w.tasks.set task t } := by
  refine { h with tasks := fun t' ht' => ?_ }
  rcases mem_or_eq_of_mem_set ht' with hmem | rfl
  · exact h.tasks t' hmem
  · exact ht

theorem Holds.read : Holds cid r { w with tasks := w.tasks ++ [.reading w.seen] } := by
  refine { h with tasks := forall_mem_concat.mpr ⟨h.tasks, ?_⟩ }
  exact ⟨w.history, suffix_refl _, rfl, le_rfl⟩

theorem Holds.walk (task : ℕ) : (w.walk ns cid r task).Holds cid r := by
  unfold TrimWorld.walk
  split
  case h_1 seen hseen =>
    split
    case h_1 bounds hbounds =>
      exact h.setTask fun b hb =>
        h.floor_of_trimBounds (h.tasks _ (mem_of_getElem? hseen)) hbounds hb
    case h_2 => exact h.setTask fun _ hb => nomatch hb
  case h_2 => exact h

theorem Holds.trim (task : ℕ) : (w.trim task).Holds cid r := by
  unfold TrimWorld.trim
  split
  case h_1 partition bound rest htask =>
    have hknown : TaskHolds r w.history w.clockMs (.trimming ((partition, bound) :: rest)) :=
      h.tasks _ (mem_of_getElem? htask)
    have hfloor : Floor r w.clockMs w.history partition bound :=
      hknown (partition, bound) mem_cons_self
    have hmodified : Holds cid r
        { w with partitions := w.partitions.modify partition (·.trim bound) } := by
      refine h.modify fun log hlog => ?_
      rcases le_total log.logStart (min bound log.nextOffset) with hle | hle
      · rw [PartitionLog.trim, max_eq_right hle]
        exact hfloor.mono (min_le_left _ _)
      · rw [PartitionLog.trim, max_eq_left hle]
        exact hlog
    exact hmodified.setTask fun b hb => hknown b (mem_cons_of_mem _ hb)
  case h_2 => exact h

theorem Holds.step {action : TrimAction} (haction : w.Commits cid action) :
    (w.step ns cid r action).Holds cid r := by
  cases action with
  | put path m => exact h.put haction
  | cas path => exact h.cas
  | append partition count => exact h.modify fun _ hlog => hlog
  | tick nowMs => exact h.tick nowMs
  | read => exact h.read
  | walk task => exact h.walk task
  | trim task => exact h.trim task

end

/-! ## Runs -/

/-- The history and the clock only grow. -/
def Later (w w' : TrimWorld) : Prop := w.history <:+ w'.history ∧ w.clockMs ≤ w'.clockMs

theorem Later.refl (w : TrimWorld) : w.Later w := ⟨suffix_refl _, le_rfl⟩

theorem Later.trans {w w' w'' : TrimWorld} (h : w.Later w') (h' : w'.Later w'') : w.Later w'' :=
  ⟨h.1.trans h'.1, h.2.trans h'.2⟩

/-- No step shortens the history or turns the clock back. -/
theorem later_step (w : TrimWorld) (action : TrimAction) : w.Later (w.step ns cid r action) := by
  cases action with
  | put path m =>
    change w.Later (w.put path m)
    unfold TrimWorld.put
    split <;> exact Later.refl w
  | cas path =>
    change w.Later (w.cas path)
    unfold TrimWorld.cas
    split
    · exact Later.refl w
    · split_ifs
      · exact ⟨suffix_cons _ _, le_rfl⟩
      · exact Later.refl w
  | append partition count => exact Later.refl w
  | tick nowMs => exact ⟨suffix_refl _, le_max_left _ _⟩
  | read => exact Later.refl w
  | walk task =>
    change w.Later (w.walk ns cid r task)
    unfold TrimWorld.walk
    split
    · split <;> exact Later.refl w
    · exact Later.refl w
  | trim task =>
    change w.Later (w.trim task)
    unfold TrimWorld.trim
    split <;> exact Later.refl w

theorem later_run {partitions : ℕ} {first second : List TrimAction}
    (h : Along (step ns cid r) (Commits cid) (initial partitions) (first ++ second)) :
    (run ns cid r partitions first).Later (run ns cid r partitions (first ++ second)) := by
  rw [run, run, foldl_append]
  exact foldl_induction (Later.refl _) (fun w action _ hw => hw.trans (later_step w action))
    (along_append.mp h).2

theorem holds_run {partitions : ℕ}
    (h : Along (step ns cid r) (Commits cid) (initial partitions) actions) :
    (run ns cid r partitions actions).Holds cid r :=
  foldl_induction (holds_initial partitions) (fun _ _ haction hw => hw.step haction) h

/-- A committed manifest that is not retained is never retained again. -/
theorem Holds.not_mem_retained {w' : TrimWorld} (h' : w'.Holds cid r) (hlater : w.Later w')
    {y : ObjectPath × CollectionManifest} (hy : y ∈ w.history)
    (hgone : y ∉ retained r w.clockMs (fun _ => true) w.history) :
    y ∉ retained r w'.clockMs (fun _ => true) w'.history := by
  obtain ⟨⟨new, hnew⟩, hclock⟩ := hlater
  rw [← hnew]
  intro hmem
  rcases mem_retained_append hclock (fun _ h => h) hmem with hmem | hmem
  · exact Chained.not_mem_new (hnew ▸ h'.chained) hy hmem
  · exact hgone hmem

/-- In every run of commits, trims and clock advances, every retained manifest finds each
partition's log from where it has applied it on, and a manifest that has left the
retained chain never enters it again. -/
theorem retained_chain_survives_trims (ns cid : ℕ) (r : Retention) {partitions : ℕ}
    {first second third : List TrimAction}
    (h : Along (step ns cid r) (Commits cid) (initial partitions) (first ++ second ++ third)) :
    (∃ chain, (run ns cid r partitions first).retainedNow ns cid r = .ok chain ∧
      ∀ y ∈ chain, ∀ p log, (run ns cid r partitions first).partitions[p]? = some log →
        log.logStart ≤ y.2.appliedAt p) ∧
    ∀ c₁ c₂ c₃, (run ns cid r partitions first).retainedNow ns cid r = .ok c₁ →
      (run ns cid r partitions (first ++ second)).retainedNow ns cid r = .ok c₂ →
      (run ns cid r partitions (first ++ second ++ third)).retainedNow ns cid r = .ok c₃ →
      ∀ y ∈ c₁, y ∉ c₂ → y ∉ c₃ := by
  have h₂ := (along_append.mp h).1
  have hw₁ := holds_run (along_append.mp h₂).1
  have hw₂ := holds_run h₂
  have hw₃ := holds_run h
  refine ⟨⟨_, hw₁.retainedNow, fun y hy p log hlog => (hw₁.logs p log hlog).retained y hy⟩, ?_⟩
  intro c₁ c₂ c₃ hc₁ hc₂ hc₃ y hy hgone
  rw [hw₁.retainedNow] at hc₁
  rw [hw₂.retainedNow] at hc₂
  rw [hw₃.retainedNow] at hc₃
  cases hc₁
  cases hc₂
  cases hc₃
  have hcommitted : y ∈ (run ns cid r partitions first).history := (retained_sublist _).subset hy
  exact hw₃.not_mem_retained (later_run h) ((later_run h₂).1.subset hcommitted) hgone

namespace Sample

/-- A manifest of collection 1 that has applied the first partition up to `offset`. -/
def trimmed (version offset : ℕ) (parent : Option ObjectPath) : CollectionManifest :=
  { CollectionManifest.empty 1 with
    version := version + 1
    parentVersion := version
    parentManifest := parent
    applied := (∅ : Data.BTreeMap ℕ ℕ).insert 0 offset }

/-- Where the sample's manifests lie. -/
def path (version : ℕ) : ObjectPath := .manifest version ⟨0, version⟩

/-- Two commits. -/
def commits : List TrimAction :=
  [.append 0 10, .put (path 1) (trimmed 0 4 none), .cas (path 1),
    .put (path 2) (trimmed 1 7 (some (path 1))), .cas (path 2)]

/-- One task, to its end. -/
def trims : List TrimAction := [.read, .walk 0, .trim 0]

end Sample

/-- Two commits, and a trim that keeps only the live manifest. -/
theorem retained_chain_survives_trims_sample :
    (run 0 1 ⟨0, 0⟩ 1 (Sample.commits ++ Sample.trims)).partitions = [⟨7, 10⟩] ∧
    ∃ chain, (run 0 1 ⟨0, 0⟩ 1 (Sample.commits ++ Sample.trims)).retainedNow 0 1 ⟨0, 0⟩ =
      .ok chain ∧
      ∀ y ∈ chain, 7 ≤ y.2.appliedAt 0 := by
  have hpartitions :
      (run 0 1 ⟨0, 0⟩ 1 (Sample.commits ++ Sample.trims)).partitions = [⟨7, 10⟩] := by
    decide +kernel
  have hextends₁ : Extends 1 [] (Sample.trimmed 0 4 none) :=
    ⟨rfl, rfl, rfl, rfl, fun _ h => nomatch h⟩
  have hextends₂ : Extends 1 [(Sample.path 1, Sample.trimmed 0 4 none)]
      (Sample.trimmed 1 7 (some (Sample.path 1))) := by
    refine ⟨rfl, rfl, rfl, rfl, fun parent hparent p => ?_⟩
    obtain rfl := Option.some.inj hparent
    simp only [CollectionManifest.appliedAt, Sample.trimmed, Std.ExtTreeMap.getD_insert]
    split_ifs
    · omega
    · exact le_rfl
  have h : Along (step 0 1 ⟨0, 0⟩) (Commits 1) (initial 1)
      ((Sample.commits ++ Sample.trims) ++ [] ++ []) := by
    refine ⟨trivial, ⟨[], nil_suffix, hextends₁⟩, trivial, ⟨_, suffix_refl _, ?_⟩,
      trivial, trivial, trivial, trivial, trivial⟩
    exact hextends₂
  obtain ⟨⟨chain, hchain, hreadable⟩, -⟩ := retained_chain_survives_trims 0 1 ⟨0, 0⟩ h
  refine ⟨hpartitions, chain, hchain, fun y hy => hreadable y hy 0 ⟨7, 10⟩ ?_⟩
  rw [hpartitions]
  rfl

end TrimWorld

end Loams.Collection
