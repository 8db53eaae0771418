/-
# Links apply every record exactly once
-/

import Loams.Link.Gathering

namespace Loams.Link

open Option List Loams.Control Loams.Data Loams.Meta Std

/-! ## Chains of versions -/

/-- A manifest on top of the committed ones. -/
structure Follows (older : Versions) (m : Manifest) : Prop where
  version : m.version = older.length + 1
  parent : m.parent = older.length
  forward : ∀ p, older.newest.appliedAt p ≤ m.appliedAt p

/-- Every version follows the one before. -/
def Linked : Versions → Prop
  | [] => True
  | x :: older => Follows older x.2 ∧ Linked older

theorem Linked.version_newest {vs : Versions} (h : Linked vs) : vs.newest.version = vs.length := by
  cases vs with
  | nil => rfl
  | cons x older => exact h.1.version

variable {older : Versions}

theorem Linked.of_suffix {vs : Versions} (h : Linked vs) (hsuffix : older <:+ vs) :
    Linked older := by
  obtain ⟨new, rfl⟩ := hsuffix
  induction new with
  | nil => exact h
  | cons x new ih => exact ih h.2

/-! ## What lasts -/

section Grow

variable {ps : Parsers} {log log' : ℕ → PartitionLog} {m : Manifest} {batch : ApplyBatch}

/-- Records are appended, and the start of a log only moves forward. -/
def LogGrows (log log' : ℕ → PartitionLog) : Prop :=
  ∀ p, (log p).records <+: (log' p).records ∧ (log p).logStart ≤ (log' p).logStart

theorem LogGrows.get (h : LogGrows log log') {p o : ℕ} {record : Log.Record}
    (hget : (log p).records[o]? = some record) : (log' p).records[o]? = some record := by
  obtain ⟨more, hmore⟩ := (h p).1
  rw [← hmore]
  exact List.getElem?_append_left (List.getElem?_eq_some_iff.mp hget).1 ▸ hget

theorem Accounts.grow {counters : BTreeMap String Int64} {applied : List (ℕ × Fetched)}
    (h : Accounts ps log m counters applied) (hlog : LogGrows log log') :
    Accounts ps log' m counters applied := by
  refine { h with stored := fun x hx => hlog.get (h.stored x hx), rest := fun p o ho hnot => ?_ }
  rcases h.rest p o ho hnot with ⟨record, hget, hnone⟩ | htrimmed
  · exact .inl ⟨record, hlog.get hget, hnone⟩
  · exact .inr (htrimmed.trans_le (hlog p).2)

theorem Covers.grow (h : Covers log m batch) (hlog : LogGrows log log') : Covers log' m batch :=
  { h with
    stored x hx := hlog.get (h.stored x hx)
    rest p o hlo hhi hnot := (h.rest p o hlo hhi hnot).trans_le (hlog p).2 }

theorem Gathers.grow {g : Gathering} (h : Gathers log m g) (hlog : LogGrows log log') :
    Gathers log' m g :=
  { h with covers := h.covers.grow hlog }

end Grow

namespace World

variable {ns link : ℕ} {config : LinkConfig} {ps : Parsers} {partitions : ℕ} {w w' : World}

/-- Objects are never changed, and the log and the versions only grow. -/
structure Grows (w w' : World) : Prop where
  log : LogGrows w.log w'.log
  data : ∀ path sums, w.data path = some sums → w'.data path = some sums
  manifests : ∀ path m, w.manifests path = some m → w'.manifests path = some m
  versions : w.versions <:+ w'.versions

theorem grows_refl (w : World) : w.Grows w :=
  ⟨fun _ => ⟨prefix_refl _, le_rfl⟩, fun _ _ h => h, fun _ _ h => h, suffix_refl _⟩

/-- A new object changes nothing that was there. -/
theorem update_eq_some {α : Type*} {objects : LinkPath → Option α} {path path' : LinkPath}
    {new : Option α} {old : α} (hfree : objects path = none) (h : objects path' = some old) :
    Function.update objects path new path' = some old := by
  have hne : path' ≠ path := fun heq => by
    rw [heq, hfree] at h
    cases h
  rw [Function.update_of_ne hne, h]

theorem readData_concat (w : World) (paths : List LinkPath) (path : LinkPath) :
    w.readData ns link (paths ++ [path]) =
      (w.readData ns link paths).bind fun counters => w.addData ns link counters path := by
  rw [readData, readData, foldlM_append]
  simp only [foldlM_cons, foldlM_nil, bind_pure]
  rfl

variable {counters : BTreeMap String Int64} {last : Option Manifest} {version : ℕ}

/-- New data objects leave the read ones as they were. -/
theorem readData_grow (hdata : ∀ path sums, w.data path = some sums → w'.data path = some sums)
    {paths : List LinkPath} (h : w.readData ns link paths = .ok counters) :
    w'.readData ns link paths = .ok counters := by
  induction paths using reverseRecOn generalizing counters with
  | nil => exact h
  | append_singleton paths path ih =>
    rw [readData_concat] at h ⊢
    obtain ⟨before, hbefore, hpath⟩ := except_bind_ok.mp h
    refine except_bind_ok.mpr ⟨before, ih hbefore, ?_⟩
    unfold addData at hpath ⊢
    cases hget : w.data path with
    | none =>
      rw [hget] at hpath
      cases hpath
    | some sums =>
      rw [hget] at hpath
      rw [hdata path sums hget]
      exact hpath

/-- The counters of a manifest can be read, and account for what it has applied. -/
def Accounted (ns link : ℕ) (ps : Parsers) (w : World) (m : Manifest) : Prop :=
  ∃ counters applied, w.readData ns link m.data = .ok counters ∧
    Accounts ps w.log m counters applied

/-- A manifest that a commit built on one of the committed versions. -/
def Built (ns link : ℕ) (ps : Parsers) (w : World) (m : Manifest) : Prop :=
  ∃ older, older <:+ w.versions ∧ Follows older m ∧ w.Accounted ns link ps m

/-- What holds of a run in a phase. -/
def PhaseHolds (ns link : ℕ) (ps : Parsers) (w : World) : Phase → Prop
  | .loading => True
  | .gathering g => g.turn < g.partitions ∧
      ∃ older : Versions, older <:+ w.versions ∧ Gathers w.log older.newest g
  | .committing version batch _ =>
      ∃ older : Versions, older <:+ w.versions ∧ older.length = version ∧
        Covers w.log older.newest batch
  | .writing m => w.Built ns link ps m
  | .swapping path m => w.manifests path = some m
  | .ended => True

/-- What holds at every moment. -/
structure Holds (ns link : ℕ) (ps : Parsers) (w : World) : Prop where
  linked : Linked w.versions
  stored : ∀ x ∈ w.versions, w.manifests x.1 = some x.2
  built : ∀ path m, w.manifests path = some m → w.Built ns link ps m
  tables : ∀ m, some m ∈ w.tables → ∃ path older, (path, m) :: older <:+ w.versions
  runs : ∀ run ∈ w.runs, w.PhaseHolds ns link ps run.phase
  sent : ∀ x ∈ w.sent, ∃ m, w.manifests x.2 = some m ∧ m.parent = x.1

section Lasting

variable {m : Manifest}

theorem Accounted.grow (h : w.Accounted ns link ps m) (hgrows : w.Grows w') :
    w'.Accounted ns link ps m := by
  obtain ⟨counters, applied, hread, haccounts⟩ := h
  exact ⟨counters, applied, readData_grow hgrows.data hread, haccounts.grow hgrows.log⟩

theorem Built.grow (h : w.Built ns link ps m) (hgrows : w.Grows w') : w'.Built ns link ps m := by
  obtain ⟨older, hsuffix, hfollows, haccounted⟩ := h
  exact ⟨older, hsuffix.trans hgrows.versions, hfollows, haccounted.grow hgrows⟩

theorem PhaseHolds.grow {phase : Phase} (h : w.PhaseHolds ns link ps phase) (hgrows : w.Grows w') :
    w'.PhaseHolds ns link ps phase := by
  cases phase with
  | loading => trivial
  | gathering g =>
    obtain ⟨hturn, older, hsuffix, hgathers⟩ := h
    exact ⟨hturn, older, hsuffix.trans hgrows.versions, hgathers.grow hgrows.log⟩
  | committing version batch full =>
    obtain ⟨older, hsuffix, hversion, hcovers⟩ := h
    exact ⟨older, hsuffix.trans hgrows.versions, hversion, hcovers.grow hgrows.log⟩
  | writing m => exact Built.grow h hgrows
  | swapping path m => exact hgrows.manifests path m h
  | ended => trivial

/-- The invariant lasts when the world grows by manifests that commits built. -/
theorem Holds.grow (h : w.Holds ns link ps) (hgrows : w.Grows w') (hlinked : Linked w'.versions)
    (hstored : ∀ x ∈ w'.versions, w'.manifests x.1 = some x.2)
    (hbuilt : ∀ path m, w'.manifests path = some m →
      w.manifests path = some m ∨ w'.Built ns link ps m)
    (htables : w'.tables = w.tables) (hruns : w'.runs = w.runs) (hsent : w'.sent = w.sent) :
    w'.Holds ns link ps := by
  refine ⟨hlinked, hstored, fun path m hm => ?_, ?_, ?_, ?_⟩
  · rcases hbuilt path m hm with hold | hnew
    · exact (h.built path m hold).grow hgrows
    · exact hnew
  · rw [htables]
    intro m hm
    obtain ⟨path, older, hsuffix⟩ := h.tables m hm
    exact ⟨path, older, hsuffix.trans hgrows.versions⟩
  · rw [hruns]
    exact fun run hrun => (h.runs run hrun).grow hgrows
  · rw [hsent]
    intro x hx
    obtain ⟨m, hm, hparent⟩ := h.sent x hx
    exact ⟨m, hgrows.manifests _ m hm, hparent⟩

theorem accounted_default : w.Accounted ns link ps {} := by
  refine ⟨∅, [], rfl, ?_⟩
  constructor
  case rest =>
    intro p o ho
    simp [Manifest.appliedAt] at ho
  case skipped => rfl
  all_goals simp [tally, entriesOf]

theorem Holds.accounted_newest (h : w.Holds ns link ps) (hsuffix : older <:+ w.versions) :
    w.Accounted ns link ps older.newest := by
  cases older with
  | nil => exact accounted_default
  | cons x older =>
    obtain ⟨-, -, -, haccounted⟩ :=
      h.built x.1 x.2 (h.stored x (hsuffix.subset mem_cons_self))
    exact haccounted

end Lasting

/-! ## Reading the current version -/

section

variable (h : w.Holds ns link ps) (hlast : last ∈ w.tables)
include h hlast

/-- What a table remembers under a version is the manifest committed as that version. -/
theorem Holds.newest_of_remembered {m : Manifest}
    (hm : last.filter (·.version = version) = some m) :
    ∃ older : Versions, older <:+ w.versions ∧ older.length = version ∧ older.newest = m := by
  obtain ⟨hsome, hversion⟩ := filter_eq_some_iff.mp hm
  subst hsome
  obtain ⟨path, older, hsuffix⟩ := h.tables m hlast
  have hlinked := h.linked.of_suffix hsuffix
  exact ⟨(path, m) :: older, hsuffix,
    hlinked.1.version.symm.trans (of_decide_eq_true hversion), rfl⟩

/-- The pointer leads to the newest version. -/
theorem Holds.current : w.current ns link last = .ok w.versions.newest := by
  unfold World.current
  cases hversions : w.versions with
  | nil => rfl
  | cons x older =>
    obtain ⟨path, m⟩ := x
    have hlinked := h.linked
    have hstored : w.manifests path = some m :=
      h.stored (path, m) (hversions ▸ mem_cons_self)
    rw [hversions] at hlinked
    dsimp only
    cases hfilter : last.filter (·.version = older.length + 1) with
    | some remembered =>
      obtain ⟨past, hpast, hlength, hnewest⟩ := h.newest_of_remembered hlast hfilter
      have hsame : past = w.versions :=
        hpast.eq_of_length (by rw [hlength, hversions, length_cons])
      rw [← hnewest, hsame, hversions]
    | none =>
      rw [hstored]
      dsimp only
      rw [if_pos hlinked.1.version]
      rfl

/-- A commit builds on the manifest that has the version the run loaded. -/
theorem Holds.parentOf {parent : Manifest}
    (hparent : w.parentOf ns link last version = some parent) :
    ∃ older : Versions, older <:+ w.versions ∧ older.length = version ∧ older.newest = parent := by
  unfold World.parentOf at hparent
  cases hfilter : last.filter (·.version = version) with
  | some remembered =>
    rw [hfilter] at hparent
    exact some.inj hparent ▸ h.newest_of_remembered hlast hfilter
  | none =>
    rw [hfilter, h.current hlast] at hparent
    dsimp only at hparent
    split_ifs at hparent with hversion
    exact ⟨w.versions, suffix_refl _, h.linked.version_newest.symm.trans hversion,
      some.inj hparent⟩

end

/-! ## Steps -/

theorem Holds.setPhase (h : w.Holds ns link ps) {run : ℕ} {phase : Phase}
    (hphase : w.PhaseHolds ns link ps phase) : (w.setPhase run phase).Holds ns link ps := by
  refine { h with runs := fun r hr => ?_ }
  obtain ⟨i, hi⟩ := mem_iff_getElem?.mp hr
  obtain ⟨old, hold, heq⟩ : ∃ old, w.runs[i]? = some old ∧
      (if run = i then { old with phase := phase } else old) = r :=
    map_eq_some_iff.mp ((getElem?_modify _ run _ i).symm.trans hi)
  subst heq
  split_ifs
  · exact hphase
  · exact h.runs old (mem_of_getElem? hold)

theorem Holds.remember (h : w.Holds ns link ps) (table : ℕ) {m : Manifest}
    (hm : w.versions ≠ [] → ∃ path older, (path, m) :: older <:+ w.versions) :
    (w.remember table m).Holds ns link ps := by
  refine { h with tables := fun m' hm' => ?_ }
  have hm' : some m' ∈ if w.versions = [] then w.tables else w.tables.set table (some m) := hm'
  split_ifs at hm' with hempty
  · exact h.tables m' hm'
  · rcases mem_or_eq_of_mem_set hm' with hmem | heq
    · exact h.tables m' hmem
    · cases heq
      exact hm hempty

/-- A finished gathering is a batch on one of the versions. -/
theorem Gathering.phase_holds {g : Gathering} (hsuffix : older <:+ w.versions)
    (hlinked : Linked w.versions) (hgathers : Gathers w.log older.newest g) :
    w.PhaseHolds ns link ps (g.phase config) := by
  unfold Gathering.phase
  cases hcomplete : g.complete? config with
  | none =>
    refine ⟨?_, older, hsuffix, hgathers⟩
    unfold Gathering.complete? at hcomplete
    by_contra hturn
    rw [if_neg hturn] at hcomplete
    cases hcomplete
  | some full =>
    dsimp only
    split_ifs
    · refine ⟨older, hsuffix, ?_, hgathers.covers⟩
      rw [hgathers.state]
      exact (hlinked.of_suffix hsuffix).version_newest.symm
    · trivial

theorem Holds.load (h : w.Holds ns link ps) (run table : ℕ) :
    (w.load ns link config partitions run table).Holds ns link ps := by
  unfold World.load
  cases htable : w.tables[table]? with
  | none => exact h.setPhase trivial
  | some last =>
    dsimp only
    rw [h.current (mem_of_getElem? htable)]
    dsimp only
    have hgather : (w.remember table w.versions.newest).PhaseHolds ns link ps
        ((Gathering.start w.versions.newest.state partitions).phase config) :=
      Gathering.phase_holds (w := w.remember table w.versions.newest) (suffix_refl _) h.linked
        (gathers_start _ partitions)
    refine Holds.setPhase ?_ hgather
    refine h.remember table fun hne => ?_
    cases hversions : w.versions with
    | nil => exact absurd hversions hne
    | cons x older => exact ⟨x.1, older, suffix_refl _⟩

section

variable (h : w.Holds ns link ps)
include h

/-- The manifest of a commit on a committed version, once its sums can be read. -/
theorem Holds.built_next {batch : ApplyBatch} (hsuffix : older <:+ w.versions)
    (hcovers : Covers w.log older.newest batch) {sums : BTreeMap String Int64} {skipped : ℕ}
    (hdeltas : deltas ps older.newest batch = .ok (sums, skipped)) {data : List LinkPath}
    (hgrows : w.Grows w') (hread : ∀ counters, w.readData ns link older.newest.data = .ok counters →
      w'.readData ns link data = .ok (sums.toList.foldl addDelta counters)) :
    w'.Built ns link ps (nextManifest older.newest batch data skipped) := by
  obtain ⟨counters, applied, hcounters, haccounts⟩ := h.accounted_newest hsuffix
  refine ⟨older, hsuffix.trans hgrows.versions, ⟨?_, ?_, fun p => ?_⟩, ?_⟩
  · exact congrArg (· + 1) (h.linked.of_suffix hsuffix).version_newest
  · exact (h.linked.of_suffix hsuffix).version_newest
  · rw [appliedAt_nextManifest]
    exact (deltas_ok hdeltas hcovers.once).2.1 p
  · exact ⟨_, _, hread counters hcounters, (haccounts.next hcovers hdeltas).grow hgrows.log⟩

/-- A run builds its manifest on the version it loaded. -/
theorem Holds.commit {run table : ℕ} {batch : ApplyBatch} {full : Bool}
    (hphase : w.PhaseHolds ns link ps (.committing version batch full)) (ulid : Ulid) :
    (w.commit ns link ps run table version batch ulid).Holds ns link ps := by
  unfold World.commit
  cases htable : w.tables[table]? with
  | none => exact h.setPhase trivial
  | some last =>
    dsimp only
    cases hparent : w.parentOf ns link last version with
    | none => exact h.setPhase trivial
    | some parent =>
      dsimp only
      cases hdeltas : deltas ps parent batch with
      | error err => exact h.setPhase trivial
      | ok result =>
        obtain ⟨sums, skipped⟩ := result
        obtain ⟨older, hsuffix, hversion, hcovers⟩ := hphase
        obtain ⟨past, hpast, hlength, hnewest⟩ := h.parentOf (mem_of_getElem? htable) hparent
        -- the batch was gathered on the version that the commit builds on
        have hsame := hlength.trans hversion.symm
        obtain rfl : past = older :=
          (suffix_of_suffix_length_le hpast hsuffix hsame.le).eq_of_length hsame
        subst hnewest
        dsimp only
        split_ifs with hempty
        · refine h.setPhase (h.built_next hsuffix hcovers hdeltas (grows_refl w)
            fun counters hread => ?_)
          rw [ExtTreeMap.isEmpty_iff.mp hempty]
          exact hread
        · cases hfree : w.data (.data ulid) with
          | some existing => exact h.setPhase trivial
          | none =>
            dsimp only
            have hgrows : w.Grows { w with
                data := Function.update w.data (.data ulid) (some sums) } :=
              { grows_refl w with data := fun _ _ hold => update_eq_some hfree hold }
            refine Holds.setPhase ?_ ?_
            · exact h.grow hgrows h.linked h.stored (fun _ _ hm => .inl hm) rfl rfl rfl
            · refine h.built_next hsuffix hcovers hdeltas hgrows fun counters hread => ?_
              rw [readData_concat]
              refine except_bind_ok.mpr ⟨counters, readData_grow hgrows.data hread, ?_⟩
              unfold addData
              dsimp only
              rw [Function.update_self]

theorem Holds.putManifest {run : ℕ} {m : Manifest} (hm : w.Built ns link ps m) (ulid : Ulid) :
    (w.putManifest run m ulid).Holds ns link ps := by
  unfold World.putManifest
  dsimp only
  cases hpath : w.manifests (.manifest m.version ulid) with
  | some existing =>
    dsimp only
    split_ifs with hsame
    · subst hsame
      exact h.setPhase hpath
    · exact h.setPhase trivial
  | none =>
    dsimp only
    have hgrows : w.Grows { w with
        manifests := Function.update w.manifests (.manifest m.version ulid) (some m) } :=
      { grows_refl w with manifests := fun _ _ hold => update_eq_some hpath hold }
    refine Holds.setPhase ?_ (Function.update_self _ _ _)
    refine h.grow hgrows h.linked (fun x hx => hgrows.manifests _ _ (h.stored x hx))
      (fun path m' hm' => ?_) rfl rfl rfl
    dsimp only at hm'
    rw [Function.update_apply] at hm'
    split_ifs at hm'
    · exact .inr (some.inj hm' ▸ hm.grow hgrows)
    · exact .inl hm'

/-- A late write of the pointer is refused unless it extends the newest version. -/
theorem Holds.land {expected : ℕ} {path : LinkPath}
    (hsent : ∃ m, w.manifests path = some m ∧ m.parent = expected) :
    (w.land expected path).Holds ns link ps := by
  obtain ⟨m, hm, hparent⟩ := hsent
  unfold World.land
  rw [hm]
  dsimp only
  split_ifs with hexpected
  · obtain ⟨older, hsuffix, hfollows, -⟩ := h.built path m hm
    -- the version is the one the manifest was built on, so it still is the newest
    obtain rfl : older = w.versions :=
      hsuffix.eq_of_length (hfollows.parent.symm.trans (hparent.trans hexpected))
    refine h.grow { grows_refl w with versions := suffix_cons _ _ } ⟨hfollows, h.linked⟩
      (fun x hx => ?_) (fun _ _ hm => .inl hm) rfl rfl rfl
    rcases mem_cons.mp hx with rfl | hx
    · exact hm
    · exact h.stored x hx
  · exact h

/-- Appends and trims let the log grow. -/
theorem Holds.updateLog {partition : ℕ} {log : PartitionLog}
    (hrecords : (w.log partition).records <+: log.records)
    (hstart : (w.log partition).logStart ≤ log.logStart) :
    Holds ns link ps { w with log := Function.update w.log partition log } := by
  refine h.grow { grows_refl w with log := fun p => ?_ } h.linked h.stored
    (fun _ _ hm => .inl hm) rfl rfl rfl
  dsimp only
  rw [Function.update_apply]
  split_ifs with hp
  · exact hp ▸ ⟨hrecords, hstart⟩
  · exact ⟨prefix_refl _, le_rfl⟩

/-- Every step keeps the invariant. -/
theorem Holds.step {action : Action} (haction : w.Fetches action) :
    (w.step ns link config ps partitions action).Holds ns link ps := by
  have hphase : ∀ {run : ℕ} {r : Run}, w.runs[run]? = some r → w.PhaseHolds ns link ps r.phase :=
    fun hr => h.runs _ (mem_of_getElem? hr)
  cases action <;> dsimp only [World.step]
  case append partition record => exact h.updateLog (prefix_append _ _) le_rfl
  case trim partition before => exact h.updateLog (prefix_refl _) (le_max_left _ _)
  case openTable =>
    refine { h with tables := fun m hm => ?_ }
    rcases mem_concat.mp hm with hm | ⟨⟨⟩⟩
    exact h.tables m hm
  case begin table =>
    exact { h with runs := forall_mem_concat.mpr ⟨h.runs, trivial⟩ }
  case load run =>
    split
    case h_1 table _ => exact h.load run table
    case h_2 => exact h
  case fetch run response =>
    split
    case h_1 table g hrun =>
      obtain ⟨hturn, older, hsuffix, hgathers⟩ := hphase hrun
      have hanswer := haction table g hrun
      have hnext : Gathers w.log older.newest (g.answer config response) := by
        refine hgathers.answer hturn ?_
        cases response with
        | records xs highWatermark => exact hanswer
        | outOfRange logStart highWatermark => exact hanswer
      exact h.setPhase (Gathering.phase_holds hsuffix h.linked hnext)
    case h_2 => exact h
  case again run =>
    split
    case h_1 => exact h.setPhase trivial
    case h_2 => exact h.setPhase trivial
    case h_3 => exact h
  case commit run ulid =>
    split
    case h_1 table version batch full hrun => exact h.commit (hphase hrun) ulid
    case h_2 => exact h
  case putManifest run ulid =>
    split
    case h_1 table m hrun => exact h.putManifest (hphase hrun) ulid
    case h_2 => exact h
  case send run =>
    split
    case h_1 table path m hrun =>
      exact { h with sent := forall_mem_concat.mpr ⟨h.sent, m, hphase hrun, rfl⟩ }
    case h_2 => exact h
  case land update =>
    split
    case h_1 expected path hsent => exact h.land (h.sent _ (mem_of_getElem? hsent))
    case h_2 => exact h
  case acknowledge run =>
    split
    case h_1 table path m hrun =>
      split_ifs with hcommitted
      · refine Holds.setPhase (h.remember table fun _ => ?_) trivial
        obtain ⟨new, older, hversions⟩ := append_of_mem hcommitted
        exact ⟨path, older, hversions ▸ suffix_append new _⟩
      · exact h
    case h_2 => exact h

end

theorem holds_initial : initial.Holds ns link ps where
  linked := trivial
  stored _ h := nomatch h
  built _ _ h := nomatch h
  tables _ h := nomatch h
  runs _ h := nomatch h
  sent _ h := nomatch h

theorem holds_run {actions : List Action}
    (h : Along (step ns link config ps partitions) Fetches initial actions) :
    (run ns link config ps partitions actions).Holds ns link ps :=
  foldl_induction holds_initial (fun _ _ haction hw => hw.step haction) h

/-- A table shows its newest version, whatever it remembers. -/
theorem Holds.snapshot (h : w.Holds ns link ps) (hlast : last ∈ w.tables)
    (hread : w.readData ns link w.versions.newest.data = .ok counters) :
    w.snapshot ns link last = .ok ⟨w.versions.newest.version, counters, w.versions.newest.applied,
      w.versions.newest.skipped⟩ := by
  refine except_bind_ok.mpr ⟨w.versions.newest, h.current hlast, ?_⟩
  exact except_bind_ok.mpr ⟨counters, hread, rfl⟩

/-- In every run of any number of tasks, at every committed version the counters are the
wrapping sums of the deltas of records below the applied offsets, each at most once; the
other offsets below are records without a delta or were trimmed, and their number is the
skipped count, as far as 64 bits hold it; every open table shows the newest version; and
no partition goes back from one version to the next. -/
theorem links_apply_exactly_once (ns link : ℕ) (config : LinkConfig) (ps : Parsers)
    (partitions : ℕ) {actions : List Action}
    (h : Along (step ns link config ps partitions) Fetches initial actions) :
    (∀ path m, ∀ older : Versions,
      (path, m) :: older <:+ (run ns link config ps partitions actions).versions →
      m.version = older.length + 1 ∧ (∀ p, older.newest.appliedAt p ≤ m.appliedAt p) ∧
      ∃ counters applied,
        (run ns link config ps partitions actions).readData ns link m.data = .ok counters ∧
        (∀ key, counters.getD key 0 =
          (((entriesOf ps applied).filter (·.1 = key)).map (·.2)).sum) ∧
        Accounts ps (run ns link config ps partitions actions).log m counters applied) ∧
    ∀ last ∈ (run ns link config ps partitions actions).tables,
      ∃ newest counters,
        newest = (run ns link config ps partitions actions).versions.newest ∧
        (run ns link config ps partitions actions).readData ns link newest.data = .ok counters ∧
        (run ns link config ps partitions actions).snapshot ns link last =
          .ok ⟨newest.version, counters, newest.applied, newest.skipped⟩ := by
  have hw := holds_run h
  generalize run ns link config ps partitions actions = w at hw
  refine ⟨fun path m older hsuffix => ?_, fun last hlast => ?_⟩
  · have hfollows := (hw.linked.of_suffix hsuffix).1
    obtain ⟨counters, applied, hread, haccounts⟩ := hw.accounted_newest hsuffix
    refine ⟨hfollows.version, hfollows.forward, counters, applied, hread, fun key => ?_, haccounts⟩
    rw [haccounts.counters, getD_tally]
  · obtain ⟨counters, -, hread, -⟩ := hw.accounted_newest (suffix_refl _)
    exact ⟨w.versions.newest, counters, rfl, hread, hw.snapshot hlast hread⟩

namespace Sample

/-- Every text but the empty one is the counter `c`, and every numeral is five. -/
def parsers : Parsers := ⟨fun bytes => if bytes = [] then none else some "c", fun _ => some 5⟩

/-- A record that counts. -/
def counted : Log.Record := ⟨some [1], some [1], [], 0⟩

/-- A record that is skipped. -/
def uncounted : Log.Record := ⟨none, none, [], 0⟩

/-- Two records, applied in one batch. -/
def actions : List Action :=
  [.append 0 counted, .append 0 uncounted, .openTable, .begin 0, .load 0,
    .fetch 0 (.records [⟨0, counted⟩, ⟨1, uncounted⟩] 2), .commit 0 ⟨0, 0⟩, .putManifest 0 ⟨0, 0⟩,
    .send 0, .land 0]

end Sample

/-- One record counted, one skipped. -/
theorem links_apply_exactly_once_sample :
    ∃ m, (run 0 0 ⟨10, 1000⟩ Sample.parsers 1 Sample.actions).versions =
        [(.manifest 1 ⟨0, 0⟩, m)] ∧ m.skipped = 1 ∧
      ∃ counters applied, Accounts Sample.parsers
        (run 0 0 ⟨10, 1000⟩ Sample.parsers 1 Sample.actions).log m counters applied := by
  have hfetches : Along (step 0 0 ⟨10, 1000⟩ Sample.parsers 1) Fetches initial Sample.actions := by
    refine ⟨trivial, trivial, trivial, trivial, trivial, fun table g hrun => ⟨2, ?_⟩, trivial,
      trivial, trivial, trivial, trivial⟩
    have hphase : Gathering.start (Manifest.state {}) 1 = g := by
      cases hrun
      rfl
    subst hphase
    rfl
  obtain ⟨hversions, -⟩ :=
    links_apply_exactly_once 0 0 ⟨10, 1000⟩ Sample.parsers 1 hfetches
  refine ⟨_, rfl, rfl, ?_⟩
  obtain ⟨-, -, counters, applied, -, -, haccounts⟩ := hversions _ _ [] (suffix_refl _)
  exact ⟨counters, applied, haccounts⟩

end World

end Loams.Link
