/-
# WAL commits are exactly-once

A commit is retried until it is answered, and commit records are pruned.
-/

import Loams.Meta.LogEffects

namespace Loams.Meta

open List hiding mem_insert_iff mem_iff_get
open Loams.Data Loams.Control Std.ExtTreeMap

/-- A command as it was applied. -/
abbrev MetaEvent := Event MetaState Command (Except ApplyError Reply)

/-- A successful commit: the object, its chunks and the base offsets answered. -/
structure CommitReply where
  object : String
  chunks : List WalChunk
  baseOffsets : List ℕ
  deriving DecidableEq

/-- The commit an event answered, if it is one that succeeded. -/
def commitReply? (ev : MetaEvent) : Option CommitReply :=
  match ev.input, ev.output with
  | .commitWal object _ chunks, .ok (.walCommitted bases) => some ⟨object, chunks, bases⟩
  | _, _ => none

/-- The event is a commit of the object. -/
def IsCommitOf (object : String) (ev : MetaEvent) : Prop :=
  ∃ createdAtMs chunks, ev.input = .commitWal object createdAtMs chunks

/-- The event changed the state. -/
def Changes (ev : MetaEvent) : Prop := ev.before ≠ ev.after

instance : DecidablePred Changes := fun ev => inferInstanceAs (Decidable (ev.before ≠ ev.after))

/-- The successful commits that changed the state, in order. -/
def changingCommits (evs : List MetaEvent) : List CommitReply :=
  (evs.filter Changes).filterMap commitReply?

/-- The offset ranges, as base and stop, that the base offsets give to the chunks
of one partition. -/
def extents (k : StreamId × ℕ) : List WalChunk → List ℕ → List (ℕ × ℕ)
  | chunk :: chunks, base :: bases =>
    if (chunk.stream, chunk.partition) = k then
      (base, base + chunk.records) :: extents k chunks bases
    else extents k chunks bases
  | _, _ => []

/-- The offset ranges a commit assigned in a partition. -/
def CommitReply.extents (k : StreamId × ℕ) (c : CommitReply) : List (ℕ × ℕ) :=
  Meta.extents k c.chunks c.baseOffsets

/-- The offset ranges assigned in a partition by the commits that changed the state. -/
def assigned (k : StreamId × ℕ) (evs : List MetaEvent) : List (ℕ × ℕ) :=
  (changingCommits evs).flatMap (CommitReply.extents k)

namespace MetaState

variable {s s' : MetaState} {r : Reply} {command : Command} {object : String}
variable {allowed : String → StreamId × ℕ → ℕ → Prop} {createdAt : String → ℕ}
variable {chunks : List WalChunk} {bases : List ℕ} {createdAtMs : ℕ}

/-! ## Commit records against the clock -/

/-- The object has a commit record or is too old to be committed. -/
def Committed (createdAt : String → ℕ) (s : MetaState) (o : String) : Prop :=
  o ∈ s.walCommits ∨ satAdd (createdAt o) walCommitWindowMs < s.clockMs

/-- Every record carries its object's creation time. -/
def Stamped (createdAt : String → ℕ) (s : MetaState) : Prop :=
  ∀ (o : String) (record : WalCommitRecord), s.walCommits[o]? = some record →
    record.createdAtMs = createdAt o

/-- A record that an effect removes is older than twice the window. -/
structure RecordsKept (s s' : MetaState) : Prop where
  clock : s.clockMs ≤ s'.clockMs
  kept : ∀ o : String, s'.walCommits[o]? = s.walCommits[o]? ∨ s'.walCommits[o]? = none ∧
    ∃ record, s.walCommits[o]? = some record ∧
      satAdd record.createdAtMs (2 * walCommitWindowMs) < s'.clockMs

theorem recordsKept_of_eq (hclock : s.clockMs ≤ s'.clockMs)
    (hcommits : s'.walCommits = s.walCommits) : RecordsKept s s' :=
  ⟨hclock, fun o => .inl (by rw [hcommits])⟩

theorem Quiet.recordsKept (h : Quiet s s') : RecordsKept s s' := by
  refine ⟨h.clock, fun o => ?_⟩
  rcases h.commits with hsame | hpruned
  · exact .inl (by rw [hsame])
  · rw [hpruned, getElem?_filter']
    cases hrecord : s.walCommits[o]? with
    | none => exact .inl rfl
    | some record =>
      cases hkeep : keepsRecord s'.clockMs record with
      | true => exact .inl (by simp [hkeep])
      | false =>
        refine .inr ⟨by simp [hkeep], record, rfl, ?_⟩
        simpa [keepsRecord] using hkeep

theorem recordsKept_release {t : MetaState} {removed : List IndexEntry}
    (hclock : t.clockMs = s.clockMs) (hcommits : t.walCommits = s.walCommits) :
    RecordsKept s (t.releaseEntries removed) := by
  obtain ⟨live, retired, hrel⟩ := releaseEntries_eq (s := t) removed
  rw [hrel]
  exact recordsKept_of_eq hclock.ge hcommits

theorem Effect.recordsKept (h : Effect allowed s s') : RecordsKept s s' := by
  induction h with
  | quiet h => exact h.recordsKept
  | create count partitions last rest =>
    simp only [Prod.mk.injEq] at rest
    exact recordsKept_of_eq rest.1.ge rest.2.1
  | remove found | trim beforeOffset found | swap segment found => exact recordsKept_release rfl rfl
  | trans first second ih₁ ih₂ =>
    refine ⟨ih₁.clock.trans ih₂.clock, fun o => ?_⟩
    rcases ih₁.kept o with hsame | ⟨hnone, record, hrecord, hold⟩
    · rw [← hsame]
      exact ih₂.kept o
    · rcases ih₂.kept o with hsame' | ⟨-, _, hsome, -⟩
      · exact .inr ⟨hsame'.trans hnone, record, hrecord, hold.trans_le ih₂.clock⟩
      · rw [hnone] at hsome
        cases hsome

theorem RecordsKept.stamped (h : RecordsKept s s') (hs : s.Stamped createdAt) :
    s'.Stamped createdAt := by
  intro o record hrecord
  rcases h.kept o with hsame | ⟨hnone, -⟩
  · exact hs o record (hsame ▸ hrecord)
  · rw [hnone] at hrecord
    cases hrecord

/-- What was committed stays committed: the record outlives the window. -/
theorem RecordsKept.committed (h : RecordsKept s s') (hs : s.Stamped createdAt) {o : String}
    (hcommitted : s.Committed createdAt o) : s'.Committed createdAt o := by
  rcases hcommitted with hmem | hstale
  · obtain ⟨record, hrecord⟩ := mem_iff_get.mp hmem
    rcases h.kept o with hsame | ⟨-, record', hrecord', hold⟩
    · exact .inl (mem_of_get (hsame.trans hrecord))
    · have hwindow : satAdd (createdAt o) walCommitWindowMs ≤
          satAdd (createdAt o) (2 * walCommitWindowMs) := by
        unfold satAdd
        omega
      rw [hs o record' hrecord'] at hold
      exact .inr (hwindow.trans_lt hold)
  · exact .inr (hstale.trans_le h.clock)

section

variable (h : FirstCommit s s' object createdAtMs chunks bases)
include h

theorem FirstCommit.not_committed (hcreated : createdAtMs = createdAt object) :
    ¬s.Committed createdAt object := by
  rintro (hmem | hstale)
  · rw [mem_iff_get, h.unrecorded] at hmem
    simp at hmem
  · have hwindow := h.inWindow
    rw [hcreated] at hwindow
    omega

theorem FirstCommit.walCommits_eq :
    s'.walCommits = s.walCommits.insert object ⟨bases, createdAtMs⟩ := by
  rw [h.state]

theorem FirstCommit.clock_eq : s'.clockMs = s.clockMs := by
  rw [h.state]

theorem FirstCommit.stamped (hcreated : createdAtMs = createdAt object) (hs : s.Stamped createdAt) :
    s'.Stamped createdAt := by
  intro o record hrecord
  rw [h.walCommits_eq] at hrecord
  rcases get_insert_eq_some.mp hrecord with ⟨rfl, rfl⟩ | ⟨-, hrecord⟩
  · exact hcreated
  · exact hs o record hrecord

theorem FirstCommit.committed {o : String} (hcommitted : s.Committed createdAt o ∨ o = object) :
    s'.Committed createdAt o := by
  rw [Committed, h.walCommits_eq, h.clock_eq, mem_insert_iff]
  rcases hcommitted with (hmem | hstale) | rfl
  · exact .inl (.inr hmem)
  · exact .inr hstale
  · exact .inl (.inl rfl)

end

/-! ## The ranges of one commit -/

theorem extents_eq_nil {k : StreamId × ℕ} (h : ∀ c ∈ chunks, c.stream ≠ k.1) :
    extents k chunks bases = [] := by
  induction chunks generalizing bases with
  | nil => rfl
  | cons chunk rest ih =>
    rw [forall_mem_cons] at h
    cases bases with
    | nil => rfl
    | cons base bases =>
      rw [extents, if_neg (fun hk => h.1 (congrArg Prod.fst hk)), ih h.2]

/-- The ranges a commit assigns in a partition tile the offsets it adds there. -/
theorem Placed.tiles_extents {m m' : Partitions} (h : Placed object chunks m bases m')
    (hm : Logged m) (hrecords : ∀ c ∈ chunks, c.records ≠ 0) {k : StreamId × ℕ}
    {p p' : PartitionState} (hp : m[k]? = some p) (hp' : m'[k]? = some p') :
    Tiles Prod.fst Prod.snd p.nextOffset (extents k chunks bases) p'.nextOffset := by
  induction h generalizing p with
  | nil m =>
    obtain rfl := Option.some.inj (hp.symm.trans hp')
    exact rfl
  | @cons chunk rest q bases m m' found placed ih =>
    rw [forall_mem_cons] at hrecords
    obtain ⟨first, es, hq⟩ := hm _ q found
    have hnext := (hq.appendChunk object hrecords.1).2
    have hlogged : Logged (m.insert (chunk.stream, chunk.partition) (q.appendChunk object chunk)) :=
      logged_appendChunk hm found hrecords.1
    by_cases hk : (chunk.stream, chunk.partition) = k
    · -- This chunk is one of the partition: its range starts at the next offset.
      subst hk
      obtain rfl := Option.some.inj (found.symm.trans hp)
      have hrest := ih hlogged hrecords.2 getElem?_insert_self hp'
      rw [extents, if_pos rfl]
      refine ⟨rfl, Nat.lt_add_of_pos_right (Nat.pos_of_ne_zero hrecords.1), ?_⟩
      rwa [hnext] at hrest
    · rw [extents, if_neg hk]
      exact ih hlogged hrecords.2 ((get_insert_ne hk).trans hp) hp'

/-! ## One command -/

/-- How a command bears on the commits: a first commit, a retry answered from the
record, or anything else. -/
inductive CommitStep (s : MetaState) (ev : MetaEvent) : Prop
  | first {object : String} {createdAtMs : ℕ} {chunks : List WalChunk} {bases : List ℕ}
      (input : ev.input = .commitWal object createdAtMs chunks)
      (reply : commitReply? ev = some ⟨object, chunks, bases⟩)
      (step : FirstCommit s ev.after object createdAtMs chunks bases)
  | retry {object : String} {createdAtMs : ℕ} {chunks : List WalChunk}
      {record : WalCommitRecord} (input : ev.input = .commitWal object createdAtMs chunks)
      (recorded : s.walCommits[object]? = some record)
      (reply : commitReply? ev = some ⟨object, chunks, record.baseOffsets⟩)
      (same : ev.after = s)
  | other (effect : Effect (fun _ _ _ => True) s ev.after) (reply : commitReply? ev = none)
      (same : ∀ o, IsCommitOf o ev → ev.after = s)

/-- Every command is a first commit, a retry or another step. -/
theorem commitStep (s : MetaState) (command : Command) :
    CommitStep s (eventAt apply s command) := by
  rcases apply_cases s command with ⟨e, herror, hsame⟩ | ⟨r, hok, hr⟩
  · refine .other ?_ ?_ fun _ _ => hsame
    · show Effect _ s (s.apply command).2
      rw [hsame]
      exact .quiet (quiet_refl s)
    · simp only [commitReply?, eventAt, herror]
  · by_cases hcommit : ∃ o, IsCommitOf o (eventAt apply s command)
    · obtain ⟨o, createdAtMs, chunks, hinput⟩ := hcommit
      obtain rfl : command = .commitWal o createdAtMs chunks := hinput
      rcases commitWal_ok hok with
        ⟨record, hrecord, rfl, hsame⟩ |
          ⟨hnone, hclock, hne, -, hvalid, bases, m', hplaced, rfl, hs⟩
      · exact .retry rfl hrecord (by simp only [commitReply?, eventAt, hr]) hsame
      · have hreply : commitReply? (eventAt apply s (.commitWal o createdAtMs chunks)) =
            some ⟨o, chunks, bases⟩ := by simp only [commitReply?, eventAt, hr]
        refine .first rfl hreply ?_
        show FirstCommit s (s.apply _).2 _ _ _ _
        rw [hs]
        exact ⟨hnone, hclock, hne, hvalid, hplaced, rfl⟩
    · have hno : ∀ o, ¬IsCommitOf o (eventAt apply s command) := fun o ho => hcommit ⟨o, ho⟩
      have hswaps : command.Swaps fun _ _ _ => True := by cases command <;> simp [Command.Swaps]
      rcases handler_effect hswaps hok with heffect | ⟨o, createdAtMs, chunks, bases, rfl, -, -⟩
      · refine .other heffect ?_ fun o ho => absurd ho (hno o)
        unfold commitReply?
        split
        · rename_i o createdAtMs chunks bases hinput houtput
          exact absurd ⟨createdAtMs, chunks, hinput⟩ (hno o)
        · rfl
      · exact absurd ⟨createdAtMs, chunks, rfl⟩ (hno o)

/-! ## Whole histories -/

theorem changingCommits_concat (evs : List MetaEvent) (ev : MetaEvent) :
    changingCommits (evs ++ [ev]) =
      changingCommits evs ++ if Changes ev then (commitReply? ev).toList else [] := by
  rw [changingCommits, filter_append, filterMap_append]
  congr 1
  by_cases hchanges : Changes ev
  · cases hreply : commitReply? ev <;> simp [hchanges, hreply]
  · simp [hchanges]

/-- What a history has done with the commits of each object. -/
structure Once (createdAt : String → ℕ) (chunksOf : String → List WalChunk)
    (evs : List MetaEvent) (s : MetaState) : Prop where
  stamped : s.Stamped createdAt
  logged : Logged s.partitions
  ids : ∀ (k : StreamId × ℕ), k ∈ s.partitions → k.1 ≤ s.lastStreamId
  -- The records are those of changing commits, with their offsets.
  recorded : ∀ (o : String) (record : WalCommitRecord), s.walCommits[o]? = some record →
    ⟨o, chunksOf o, record.baseOffsets⟩ ∈ changingCommits evs
  committed : ∀ o, ∀ ev ∈ evs, IsCommitOf o ev → Changes ev → s.Committed createdAt o
  changing : ∀ c ∈ changingCommits evs, s.Committed createdAt c.object ∧
    ∀ chunk ∈ c.chunks, chunk.stream ≤ s.lastStreamId
  once : evs.Pairwise fun ev ev' =>
    ∀ o, IsCommitOf o ev → IsCommitOf o ev' → Changes ev → ¬Changes ev'
  unique : ∀ c ∈ changingCommits evs, ∀ c' ∈ changingCommits evs, c.object = c'.object → c = c'
  answered : ∀ ev ∈ evs, ∀ c, commitReply? ev = some c → c ∈ changingCommits evs
  tiles : ∀ (k : StreamId × ℕ) (p : PartitionState), s.partitions[k]? = some p →
    Tiles Prod.fst Prod.snd 0 (assigned k evs) p.nextOffset

variable {chunksOf : String → List WalChunk} {evs : List MetaEvent} {ev : MetaEvent}
  {commands : List Command}

theorem once_nil : Once createdAt chunksOf [] {} where
  stamped o record h := by simp at h
  logged k p h := by simp at h
  ids k h := by simp at h
  recorded o record h := by simp at h
  committed o ev h := by simp at h
  changing c h := by simp [changingCommits] at h
  once := Pairwise.nil
  unique c h := by simp [changingCommits] at h
  answered ev h := by simp at h
  tiles k p h := by simp at h

section

variable (h : Once createdAt chunksOf evs s)
include h

/-- Commands other than first commits keep all of it. -/
theorem Once.step_other (heffect : Effect allowed s ev.after)
    (hsame : commitReply? ev = none ∨ ¬Changes ev)
    (hanswer : ∀ c, commitReply? ev = some c → c ∈ changingCommits evs)
    (hcommit : ∀ o, IsCommitOf o ev → ¬Changes ev) :
    Once createdAt chunksOf (evs ++ [ev]) ev.after := by
  have hkept := heffect.recordsKept
  have hnext := heffect.nextKept h.logged
  -- An event that commits nothing new adds no commit.
  have hlist : changingCommits (evs ++ [ev]) = changingCommits evs := by
    rw [changingCommits_concat]
    rcases hsame with hnone | hsame
    · simp [hnone]
    · simp [hsame]
  refine ⟨hkept.stamped h.stamped, hnext.logged, hnext.ids h.ids, ?_, ?_, ?_, ?_, hlist ▸ h.unique,
    ?_, ?_⟩
  · intro o record hrecord
    rw [hlist]
    rcases hkept.kept o with hsame | ⟨hnone, -⟩
    · exact h.recorded o record (hsame ▸ hrecord)
    · rw [hnone] at hrecord
      cases hrecord
  · intro o ev' hmem hof hchanges
    rcases mem_concat.mp hmem with hmem | rfl
    · exact hkept.committed h.stamped (h.committed o ev' hmem hof hchanges)
    · exact absurd hchanges (hcommit o hof)
  · intro c hc
    obtain ⟨hcommitted, hstreams⟩ := h.changing c (hlist ▸ hc)
    exact ⟨hkept.committed h.stamped hcommitted, fun x hx => (hstreams x hx).trans hnext.last⟩
  · exact pairwise_concat.mpr ⟨h.once, fun _ _ o _ hof _ => hcommit o hof⟩
  · rw [hlist]
    exact forall_mem_concat.mpr ⟨h.answered, hanswer⟩
  · intro k q hq
    rw [assigned, hlist]
    rcases hnext.next k q hq with ⟨p, hp, heq⟩ | ⟨hlt, -, hzero⟩
    · rw [heq]
      exact h.tiles k p hp
    · -- The ids of streams are handed out once: nothing was assigned here before.
      have hnil : (changingCommits evs).flatMap (CommitReply.extents k) = [] := by
        refine flatMap_eq_nil_iff.mpr fun c hc => extents_eq_nil fun x hx heq => ?_
        exact absurd ((h.changing c hc).2 x hx) (Nat.not_le.mpr (heq ▸ hlt))
      rw [hnil, hzero]
      exact rfl

/-- A first commit adds its ranges at the end of its partitions. -/
theorem Once.step_first (hbefore : ev.before = s)
    (hinput : ev.input = .commitWal object createdAtMs chunks)
    (hreply : commitReply? ev = some ⟨object, chunks, bases⟩)
    (hfirst : FirstCommit s ev.after object createdAtMs chunks bases)
    (hcreated : createdAtMs = createdAt object) (hchunks : chunks = chunksOf object) :
    Once createdAt chunksOf (evs ++ [ev]) ev.after := by
  have hnew := hfirst.not_committed hcreated
  have hrecords := hfirst.records_ne_zero
  have hlast : ev.after.lastStreamId = s.lastStreamId := by rw [hfirst.state]
  have hchanges : Changes ev := by
    rw [Changes, hbefore]
    intro heq
    have hcommits := hfirst.walCommits_eq
    rw [← heq] at hcommits
    have hsome := hfirst.unrecorded
    rw [hcommits, getElem?_insert_self] at hsome
    cases hsome
  have hlist : changingCommits (evs ++ [ev]) =
      changingCommits evs ++ [⟨object, chunks, bases⟩] := by
    rw [changingCommits_concat, if_pos hchanges, hreply, Option.toList_some]
  -- No earlier commit of the object changed anything, so its path is new in the list.
  have hfresh : ∀ c ∈ changingCommits evs, c.object ≠ object := fun c hc heq =>
    hnew (heq ▸ (h.changing c hc).1)
  have hof : ∀ o, IsCommitOf o ev → o = object := by
    rintro o ⟨_, _, hinput'⟩
    rw [hinput] at hinput'
    injection hinput' with heq
    exact heq.symm
  refine ⟨hfirst.stamped hcreated h.stamped, hfirst.placed.logged h.logged hrecords, ?_, ?_, ?_,
    ?_, ?_, ?_, ?_, ?_⟩
  · intro k hk
    rw [hlast]
    exact h.ids k (hfirst.placed.mem_iff.mp hk)
  · intro o record hrecord
    rw [hfirst.walCommits_eq] at hrecord
    rw [hlist, mem_append, mem_singleton]
    rcases get_insert_eq_some.mp hrecord with ⟨rfl, rfl⟩ | ⟨-, hrecord⟩
    · exact .inr (by rw [hchunks])
    · exact .inl (h.recorded o record hrecord)
  · intro o ev' hmem hof' hchanges'
    refine hfirst.committed ?_
    rcases mem_concat.mp hmem with hmem | rfl
    · exact .inl (h.committed o ev' hmem hof' hchanges')
    · exact .inr (hof o hof')
  · intro c hc
    rw [hlist, mem_append, mem_singleton] at hc
    rw [hlast]
    rcases hc with hc | rfl
    · exact ⟨hfirst.committed (.inl (h.changing c hc).1), (h.changing c hc).2⟩
    · refine ⟨hfirst.committed (.inr rfl), fun chunk hchunk => ?_⟩
      exact h.ids _ (validateChunk_eq_ok.mp (hfirst.valid chunk hchunk)).2.1
  · refine pairwise_concat.mpr ⟨h.once, fun ev₁ hmem₁ o hof₁ hof₂ hchanges₁ => ?_⟩
    obtain rfl := hof o hof₂
    exact absurd (h.committed o ev₁ hmem₁ hof₁ hchanges₁) hnew
  · intro c hc c' hc' heq
    rw [hlist, mem_append, mem_singleton] at hc hc'
    rcases hc with hc | rfl <;> rcases hc' with hc' | rfl
    · exact h.unique c hc c' hc' heq
    · exact absurd heq (hfresh c hc)
    · exact absurd heq.symm (hfresh c' hc')
    · rfl
  · intro ev' hmem c hreply'
    rw [hlist, mem_append, mem_singleton]
    rcases mem_concat.mp hmem with hmem | rfl
    · exact .inl (h.answered ev' hmem c hreply')
    · exact .inr (Option.some.inj (hreply'.symm.trans hreply))
  · intro k q hq
    obtain ⟨p, hp⟩ := mem_iff_get.mp
      (hfirst.placed.mem_iff.mp (mem_of_get hq))
    have hadded := hfirst.placed.tiles_extents h.logged hrecords hp hq
    rw [assigned, hlist, flatMap_append, flatMap_singleton]
    exact (h.tiles k p hp).append hadded

/-- Every command extends the history. -/
theorem Once.step (hsame : ∀ o c chunks, command = .commitWal o c chunks →
      c = createdAt o ∧ chunks = chunksOf o) :
    Once createdAt chunksOf (evs ++ [eventAt apply s command]) (s.apply command).2 := by
  cases commitStep s command with
  | first hinput hreply hfirst =>
    obtain ⟨hcreated, hchunks⟩ := hsame _ _ _ hinput
    exact h.step_first rfl hinput hreply hfirst hcreated hchunks
  | @retry o c chunks record hinput hrecord hreply hunchanged =>
    have hsame' : ¬Changes (eventAt apply s command) := fun hne => hne hunchanged.symm
    have heffect : Effect (fun _ _ _ => True) s (eventAt apply s command).after := by
      rw [hunchanged]
      exact .quiet (quiet_refl s)
    refine h.step_other heffect (.inr hsame') ?_ fun _ _ => hsame'
    · intro reply hreply'
      obtain rfl := Option.some.inj (hreply.symm.trans hreply')
      rw [(hsame _ _ _ hinput).2]
      exact h.recorded o record hrecord
  | other heffect hreply hunchanged =>
    refine h.step_other heffect (.inl hreply) ?_ fun o ho hne => hne (hunchanged o ho).symm
    intro c hc
    rw [hreply] at hc
    cases hc

end

/-- Every submission of a path carries the same creation time and the same chunks. -/
def ConsistentCommits (commands : List Command) : Prop :=
  ∀ o c chunks c' chunks', .commitWal o c chunks ∈ commands → .commitWal o c' chunks' ∈ commands →
    c = c' ∧ chunks = chunks'

/-- What the submissions of each path have in common. -/
theorem ConsistentCommits.exists_of (h : ConsistentCommits commands) :
    ∃ (createdAt : String → ℕ) (chunksOf : String → List WalChunk),
      ∀ o c chunks, .commitWal o c chunks ∈ commands → c = createdAt o ∧ chunks = chunksOf o := by
  let choice (o : String) : ℕ × List WalChunk :=
    Classical.epsilon fun x => .commitWal o x.1 x.2 ∈ commands
  refine ⟨fun o => (choice o).1, fun o => (choice o).2, fun o c chunks hmem => ?_⟩
  have hchoice : Command.commitWal o (choice o).1 (choice o).2 ∈ commands :=
    Classical.epsilon_spec (p := fun x : ℕ × List WalChunk => .commitWal o x.1 x.2 ∈ commands)
      ⟨(c, chunks), hmem⟩
  exact h o c chunks _ _ hmem hchoice

theorem once_after
    (h : ∀ o c chunks, .commitWal o c chunks ∈ commands → c = createdAt o ∧ chunks = chunksOf o) :
    Once createdAt chunksOf (history commands) (after commands) := by
  refine history_induction (s := {}) (P := fun _ evs s => Once createdAt chunksOf evs s)
    (H := fun commands => ∀ o c chunks, .commitWal o c chunks ∈ commands →
      c = createdAt o ∧ chunks = chunksOf o) ?_ once_nil ?_ commands h
  · exact fun is i hlonger o c chunks hmem => hlonger o c chunks (mem_append_left _ hmem)
  · intro is i hlonger hprior
    exact hprior.step fun o c chunks hi => hlonger o c chunks (by simp [hi])

/-- **WAL commits are exactly-once.** When every path is always submitted with the
same creation time and chunks, then over the whole history at most one commit of a
path changes the state, every successful reply for a path is the reply of the
commit that did, so all carry the same base offsets, and in every partition the
ranges of those commits are disjoint and together are the offsets below the next
one. -/
theorem wal_commits_exactly_once {commands : List Command} (h : ConsistentCommits commands) :
    ((history commands).Pairwise fun ev ev' =>
      ∀ o, IsCommitOf o ev → IsCommitOf o ev' → Changes ev → ¬Changes ev') ∧
    (∀ ev ∈ history commands, ∀ c, commitReply? ev = some c →
      c ∈ changingCommits (history commands)) ∧
    (∀ ev ∈ history commands, ∀ ev' ∈ history commands, ∀ c c', commitReply? ev = some c →
      commitReply? ev' = some c' → c.object = c'.object → c.baseOffsets = c'.baseOffsets) ∧
    ∀ (k : StreamId × ℕ) (p : PartitionState), (after commands).partitions[k]? = some p →
      ((assigned k (history commands)).Pairwise fun a b => a.2 ≤ b.1) ∧
      ∀ offset, (∃ range ∈ assigned k (history commands),
        range.1 ≤ offset ∧ offset < range.2) ↔ offset < p.nextOffset := by
  obtain ⟨createdAt, chunksOf, hsame⟩ := h.exists_of
  have honce := once_after hsame
  refine ⟨honce.once, honce.answered, ?_, ?_⟩
  · intro ev hev ev' hev' c c' hc hc' heq
    have hmem := honce.answered ev hev c hc
    have hmem' := honce.answered ev' hev' c' hc'
    rw [honce.unique c hmem c' hmem' heq]
  · intro k p hp
    have htiles := honce.tiles k p hp
    refine ⟨htiles.pairwise, fun offset => ?_⟩
    rw [htiles.exists_mem_iff]
    exact and_iff_right (Nat.zero_le _)

/-- A commit that is retried at once and again after its record was pruned, with
another object committed in between: the first retry repeats the offsets, the
second is refused. -/
theorem wal_commits_exactly_once_pruned :
    let commands : List Command := [.createNamespace "n", .createStream 1 "s" 2 .standard {},
      .commitWal "wal/1" 5 [⟨1, 0, 3, ⟨0, 9⟩, 0⟩, ⟨1, 0, 2, ⟨9, 12⟩, 0⟩],
      .commitWal "wal/1" 5 [⟨1, 0, 3, ⟨0, 9⟩, 0⟩, ⟨1, 0, 2, ⟨9, 12⟩, 0⟩],
      .commitWal "wal/2" 7 [⟨1, 0, 4, ⟨0, 8⟩, 0⟩], .pruneWalCommits none 1800006,
      .commitWal "wal/1" 5 [⟨1, 0, 3, ⟨0, 9⟩, 0⟩, ⟨1, 0, 2, ⟨9, 12⟩, 0⟩]]
    ConsistentCommits commands ∧
      (history commands).filterMap commitReply? =
        [⟨"wal/1", [⟨1, 0, 3, ⟨0, 9⟩, 0⟩, ⟨1, 0, 2, ⟨9, 12⟩, 0⟩], [0, 3]⟩,
          ⟨"wal/1", [⟨1, 0, 3, ⟨0, 9⟩, 0⟩, ⟨1, 0, 2, ⟨9, 12⟩, 0⟩], [0, 3]⟩,
          ⟨"wal/2", [⟨1, 0, 4, ⟨0, 8⟩, 0⟩], [5]⟩] ∧
      assigned (1, 0) (history commands) = [(0, 3), (3, 5), (5, 9)] ∧
      (assigned (1, 0) (history commands)).Pairwise fun a b => a.2 ≤ b.1 := by
  intro commands
  have hconsistent : ConsistentCommits commands := by
    intro o c chunks c' chunks' h h'
    simp only [commands, mem_cons, Command.commitWal.injEq, reduceCtorEq, not_mem_nil,
      or_false, false_or] at h h'
    rcases h with ⟨rfl, rfl, rfl⟩ | ⟨rfl, rfl, rfl⟩ | ⟨rfl, rfl, rfl⟩ | ⟨rfl, rfl, rfl⟩ <;>
      simpa [eq_comm] using h'
  have hmem : (1, 0) ∈ (after commands).partitions := by decide +kernel
  obtain ⟨p, hp⟩ := mem_iff_get.mp hmem
  exact ⟨hconsistent, by decide +kernel, by decide +kernel,
    ((wal_commits_exactly_once hconsistent).2.2.2 (1, 0) p hp).1⟩

end MetaState

end Loams.Meta
