/-
# Index entries along a history

Mutations, upkeep and definitions of tables run concurrently under snapshot isolation.
-/

import Loams.Live.Acting

namespace Loams.Live

open Option List Loams.Data Loams.Control Loams.Tikv Program AppKeys Store Sample

/-! ## Definitions of tables -/

section Define

variable {enc : Encoding} {limits : Limits} {name : String} {specs : List IndexSpec} {t t' : Txn}
  {table : TableDef}

theorem withIndexes_eq_some {base : TableDef} {defs : List IndexDef} {next : UInt32}
    (h : Catalog.withIndexes base defs next = some table) :
    table.id = base.id ∧ table.name = base.name := by
  unfold Catalog.withIndexes at h
  split_ifs at h
  rw [← some.inj h]
  exact ⟨rfl, rfl⟩

theorem createTableWith_acts (h : (Catalog.createTableWith enc limits name specs).exec t =
    (.ok table, t')) (hname : t.view.data[tableName name]? = none) :
    (Act.create table).Fits limits t.view.data ∧
      t' = Txn.write (onData (Act.create table).writes) t := by
  obtain ⟨_, -, h⟩ := exec_check_bind_ok.mp h
  rw [exec_read_bind] at h
  obtain ⟨id, hnext, h⟩ := exec_check_bind_ok.mp h
  obtain ⟨_, hbound, h⟩ := exec_check_bind_ok.mp h
  dsimp only at h
  split at h
  · cases h
  · rename_i made hmade
    obtain ⟨rfl, rfl⟩ : made.id = id ∧ made.name = name := withIndexes_eq_some hmade
    obtain ⟨rfl, rfl⟩ := putTable_ok h
    exact ⟨⟨require_eq_ok.mp hbound, hnext, hname⟩, rfl⟩

/-- A scan that finds nothing: the table has no document. -/
theorem getElem?_document_of_scan {data : Data} {id : DocId}
    (h : (Loams.Data.scan data (documents id.table).lo
      (some (documents id.table).hi) 1).isEmpty = true) : data[document id]? = none := by
  cases hget : data[document id]? with
  | none => rfl
  | some r =>
    have hrange : inRange (documents id.table).lo (some (documents id.table).hi)
        (document id) = true :=
      (inRange_successor (successor_documents_ne_nil id.table)).mpr ⟨id.bytes.toList, rfl⟩
    have hmem := mem_range.mpr ⟨hget, hrange⟩
    rw [Loams.Data.scan, List.isEmpty_iff, List.take_eq_nil_iff] at h
    rw [h.resolve_left Nat.one_ne_zero] at hmem
    cases hmem

/-- What a definition does: nothing, a new table, or new indexes for an empty one. -/
theorem defineTable_acts (hdata : Consistent t.view.data)
    (h : (Catalog.defineTable enc limits name specs).exec t = (.ok table, t')) : t' = t ∨
      ((Act.create table).Fits limits t.view.data ∧
        t' = Txn.write (onData (Act.create table).writes) t) ∨
      ∃ old, old.name = name ∧ Catalog.same old specs = false ∧
        (Act.define old table).Fits limits t.view.data ∧
          t' = Txn.write (onData (Act.define old table).writes) t := by
  obtain ⟨_, -, h⟩ := exec_check_bind_ok.mp h
  obtain ⟨_, -, h⟩ := exec_check_bind_ok.mp h
  rw [exec_read_bind] at h
  obtain ⟨found, hload, h⟩ := exec_check_bind_ok.mp h
  rcases hdata.loadTable_eq name with ⟨hname, hnone⟩ | ⟨old, rfl, hget, hsome⟩
  · obtain rfl : found = none := Except.ok.inj (hload.symm.trans hnone)
    exact .inr (.inl (createTableWith_acts h hname))
  · obtain rfl : found = some old := Except.ok.inj (hload.symm.trans hsome)
    dsimp only at h
    cases hsame : Catalog.same old specs with
    | true =>
      rw [if_pos hsame] at h
      exact .inl (Prod.mk.inj h).2.symm
    | false =>
      rw [if_neg (by simp [hsame])] at h
      obtain ⟨_, hempty, h⟩ := exec_check_bind_ok.mp h
      split at h
      · cases h
      · rename_i made hmade
        obtain ⟨hid, hname⟩ := withIndexes_eq_some hmade
        obtain ⟨_, t₁, hput, h⟩ := exec_bind_ok.mp h
        obtain ⟨-, rfl⟩ := Txn.put_iff.mp hput
        obtain ⟨heq, rfl⟩ := Prod.mk.inj h
        obtain rfl : made = table := Except.ok.inj heq
        refine .inr (.inr ⟨old, rfl, hsame, ⟨hid, hname, hget, fun id htable => ?_⟩, rfl⟩)
        refine getElem?_document_of_scan ?_
        rw [htable]
        exact require_eq_ok.mp hempty

end Define

/-! ## Commits -/

/-- The write records of a commit that saw a store: those of its function. -/
def recordsIn (app : App) (snapshot : Store) (c : DeployCommit) : List WriteRecord :=
  match c.tx, c.out with
  | .serve (.mutate attempt), .served (.mutated (.ran _ _ _)) =>
    (((attempt.body attempt.args).run app attempt.draws).exec
      (.forMutation (.startAt c.start snapshot))).2.writes
  | _, _ => []

section Commits

variable {app : App} {options : RunnerOptions} {shards : ℕ} {snapshot : Store} {c : DeployCommit}
  {effect : Effect AppKey Record}

theorem run_serve_eq_some {tx : Tx} {start : Timestamp} {answer : AppAnswer}
    (h : AppTx.run app options shards (.serve tx) start snapshot = some (answer, effect)) :
    ∃ a, answer = .served a ∧ tx.run app options shards start snapshot = some (a, effect) := by
  obtain ⟨⟨a, e⟩, hrun, heq⟩ := map_eq_some_iff.mp h
  obtain ⟨rfl, rfl⟩ := Prod.mk.inj heq
  exact ⟨a, rfl, hrun⟩

theorem run_define_eq_some {name : String} {specs : List IndexSpec} {start : Timestamp}
    {answer : AppAnswer}
    (h : AppTx.run app options shards (.define name specs) start snapshot = some (answer, effect)) :
    ∃ table t, (Catalog.defineTable app.enc app.limits name specs).exec (.startAt start snapshot) =
      (.ok table, t) ∧ answer = .defined table ∧ effect = t.effect := by
  unfold AppTx.run at h
  rcases hr : (Catalog.defineTable app.enc app.limits name specs).exec (.startAt start snapshot)
    with ⟨_ | table, t⟩
  · simp only [hr] at h
    cases h
  · simp only [hr] at h
    obtain ⟨rfl, rfl⟩ := Prod.mk.inj (some.inj h)
    exact ⟨table, t, rfl, rfl, rfl⟩

/-- What a mutation or upkeep does to the data. -/
theorem serve_performs {tx : Tx} (hsmall : app.enc.Small) (htx : c.tx = .serve tx)
    (hran : AppTx.run app options shards c.tx c.start snapshot = some (c.out, c.effect))
    (hsnapshot : Consistent snapshot.data)
    (hfresh : ∀ key ∈ c.effect.inserts, snapshot.get key = none) :
    ∃ as, Acts app.limits snapshot.data as ∧ (∀ a ∈ as, a.KeepsTables) ∧
      Performs c.effect as ∧ recordsIn app snapshot c = as.flatMap Act.records := by
  rw [htx] at hran
  obtain ⟨answer, hanswer, hran⟩ := run_serve_eq_some hran
  obtain ⟨as, has, hkeeps, -, hperforms, hrecords⟩ :=
    Tx.run_acts hran (fun _ => hsmall) False.elim hsnapshot hfresh
  refine ⟨as, has, hkeeps, hperforms, ?_⟩
  unfold recordsIn
  obtain ⟨rfl, hnone⟩ | ⟨attempt, result, journal, usage, rfl, hout, hrecords⟩ := hrecords
  · split
    · next hout => exact (hnone _ _ _ (AppAnswer.served.inj (hanswer.symm.trans hout))).elim
    · rfl
  · rw [htx, hanswer, hout]
    exact hrecords

end Commits

/-! ## Histories -/

/-- Between the start and the commit of a mutation no table changes; and the indexes of a
table change only while it holds no document. -/
def Undisturbed (snapshot before : Data) : AppTx → Prop
  | .serve _ => TablesIn snapshot before
  | .define name specs => ∀ t, before[AppKeys.table t.id]? = some (.table t) → t.name = name →
    Catalog.same t specs = false → ∀ id : DocId, id.table = t.id →
      before[document id]? = none

/-- Every commit of a history is undisturbed. -/
def UndisturbedHistory (init : Store) (h : List DeployCommit) : Prop :=
  ∀ p c, p ++ [c] <+: h → Undisturbed (keyed.snapshot init p c.start).data
    (keyed.state init p).data c.tx

section Histories

variable {app : App} {options : RunnerOptions} {shards : ℕ} {init : Store} {h : List DeployCommit}
  {keys : Effect AppKey Record → List AppKey}

/-- What a commit inserts it writes. -/
theorem AppTx.inserts_subset_written {c : DeployCommit} {snapshot : Store}
    (hran : AppTx.run app options shards c.tx c.start snapshot = some (c.out, c.effect))
    (hdata : Consistent snapshot.data) : c.effect.inserts ⊆ c.effect.written := by
  cases htx : c.tx with
  | serve tx =>
    rw [htx] at hran
    obtain ⟨answer, -, hran⟩ := run_serve_eq_some hran
    exact Tx.inserts_subset_written hran
  | define name specs =>
    rw [htx] at hran
    obtain ⟨table, t, hexec, -, heffect⟩ := run_define_eq_some hran
    have hnone : t.inserts = [] := by
      obtain rfl | ⟨-, rfl⟩ | ⟨old, -, -, -, rfl⟩ := defineTable_acts hdata hexec <;> rfl
    rw [heffect]
    intro key hkey
    rw [show t.effect.inserts = [] from hnone] at hkey
    cases hkey

section

variable (hsmall : app.enc.Small) (hkeys : ∀ e : Effect AppKey Record, e.written ⊆ keys e)
  (hh : History keyed keys (AppTx.run app options shards) init h)
include hsmall hkeys hh

/-- The acts of a commit fit the state that it finds. -/
theorem performs_state {c : DeployCommit}
    (hadm : Admissible keyed keys (AppTx.run app options shards) init h c)
    (hsnapshot : Exact app.limits (keyed.snapshot init h c.start).data)
    (hstate : Exact app.limits (keyed.state init h).data)
    (hundisturbed : Undisturbed (keyed.snapshot init h c.start).data
      (keyed.state init h).data c.tx) :
    ∃ as, Acts app.limits (keyed.state init h).data as ∧ Performs c.effect as ∧
      recordsIn app (keyed.snapshot init h c.start) c = as.flatMap Act.records := by
  have hclaimed : ∀ key, AppKey.data key ∈ c.effect.written →
      (keyed.state init h).data[key]? =
        (keyed.snapshot init h c.start).data[key]? :=
    fun key hkey => hadm.get_state_eq hkeys hh (hkeys _ hkey)
  cases htx : c.tx with
  | serve tx =>
    rw [htx] at hundisturbed
    have hfresh : ∀ key ∈ c.effect.inserts,
        (keyed.snapshot init h c.start).get key = none := by
      intro key hkey
      have hwritten := AppTx.inserts_subset_written hadm.ran hsnapshot.consistent hkey
      exact (hadm.get_state_eq hkeys hh (hkeys _ hwritten)).symm.trans (hadm.absent key hkey)
    obtain ⟨as, has, hkeeps, hperforms, hrecords⟩ :=
      serve_performs hsmall htx hadm.ran hsnapshot.consistent hfresh
    refine ⟨as, has.congr hstate.consistent hkeeps (fun a ha key hkey => ?_) hundisturbed,
      hperforms, hrecords⟩
    exact hclaimed key (hperforms.mem_written ha hkey)
  | define name specs =>
    have hran := hadm.ran
    rw [htx] at hran hundisturbed
    obtain ⟨table, t, hexec, -, heffect⟩ := run_define_eq_some hran
    have hrecords : recordsIn app (keyed.snapshot init h c.start) c = [] := by
      rw [recordsIn, htx]
    have hone : ∀ a : Act, c.effect.writes = onData a.writes → Performs c.effect [a] :=
      fun a hwrites => ⟨[], by simp [hwrites], by simp⟩
    obtain rfl | ⟨hfits, rfl⟩ | ⟨old, hname, hsame, hfits, rfl⟩ :=
      defineTable_acts hsnapshot.consistent hexec
    · exact ⟨[], trivial, ⟨[], by rw [heffect]; rfl, by simp⟩, hrecords⟩
    · have hperforms := hone (.create table) (by rw [heffect]; rfl)
      refine ⟨[.create table], ⟨Act.create_congr hfits fun key hkey => ?_, trivial⟩, hperforms,
        hrecords⟩
      exact hclaimed key (hperforms.mem_written mem_cons_self hkey)
    · have hperforms := hone (.define old table) (by rw [heffect]; rfl)
      refine ⟨[.define old table], ⟨?_, trivial⟩, hperforms, hrecords⟩
      obtain ⟨hid, hnames, hold, -⟩ := hfits
      have hkey : AppKeys.table old.id ∈ (Act.define old table).writes.map Prod.fst := by
        simp [Act.writes, hid]
      have htable : (keyed.state init h).data[AppKeys.table old.id]? = some (.table old) := by
        rw [hclaimed _ (hperforms.mem_written mem_cons_self hkey)]
        exact hold
      exact ⟨hid, hnames, htable, hundisturbed old htable hname hsame⟩

/-- The entries are exact at every moment of an undisturbed history. -/
theorem exact_of_isPrefix (hinit : Exact app.limits init.data)
    (hundisturbed : UndisturbedHistory init h) {p : List DeployCommit} (hp : p <+: h) :
    Exact app.limits (keyed.state init p).data := by
  have hpre := hh.of_isPrefix hp
  revert hp
  refine History.induction (fun _ => hinit) (fun p c hpre ih hadm hpc => ?_) hpre
  have hph : p <+: h := (prefix_append p [c]).trans hpc
  -- a snapshot is an earlier state
  have hq := hpre.filter_isPrefix c.start
  have hsnapshot : Exact app.limits (keyed.snapshot init p c.start).data :=
    ih _ hq (hq.trans hph)
  have hstate := ih p prefix_rfl hph
  obtain ⟨as, has, hperforms, -⟩ := performs_state hsmall hkeys hpre hadm hsnapshot hstate
    (hundisturbed p c hpc)
  rw [Keyed.state_concat, hperforms.data_apply]
  exact hstate.foldl has

end

/-- In every history of mutations, upkeep and definitions of tables whose commits are all
undisturbed, the index entries are exactly those of the stored documents after every
commit, and the commit goes through changes whose records are those that it journals: each
lists the index keys that its document had before and those that it has after. -/
theorem indexes_exact_when_undisturbed (hsmall : app.enc.Small)
    (hkeys : ∀ e : Effect AppKey Record, e.written ⊆ keys e)
    (hh : History Store.keyed keys (AppTx.run app options shards) init h)
    (hinit : Exact app.limits init.data) (hundisturbed : UndisturbedHistory init h)
    {p : List DeployCommit} {c : DeployCommit} (hp : p ++ [c] <+: h) :
    Exact app.limits (Store.keyed.state init (p ++ [c])).data ∧
      ∃ as, Acts app.limits (Store.keyed.state init p).data as ∧
        (Store.keyed.state init (p ++ [c])).data =
          as.foldl Act.apply (Store.keyed.state init p).data ∧
        recordsIn app (Store.keyed.snapshot init p c.start) c = as.flatMap Act.records := by
  have hph : p <+: h := (prefix_append p [c]).trans hp
  have hpre := hh.of_isPrefix hph
  have hadm := (history_concat.mp (hh.of_isPrefix hp)).2
  have hexact : ∀ {p}, p <+: h → Exact app.limits (keyed.state init p).data :=
    fun hp => exact_of_isPrefix hsmall hkeys hh hinit hundisturbed hp
  have hsnapshot : Exact app.limits (keyed.snapshot init p c.start).data :=
    hexact ((hpre.filter_isPrefix c.start).trans hph)
  obtain ⟨as, has, hperforms, hrecords⟩ :=
    performs_state hsmall hkeys hpre hadm hsnapshot (hexact hph) (hundisturbed p c hp)
  refine ⟨hexact hp, as, has, ?_, hrecords⟩
  rw [Keyed.state_concat, hperforms.data_apply]

end Histories

/-! ### A table that changes under a mutation -/

namespace Sample

/-- Small sizes. -/
def deployEncoding : Encoding where
  len
    | .indexEntry => 0
    | .number _ => 4
    | _ => 1
  header _ := 1
  write _ := 1

theorem deployEncoding_small : deployEncoding.Small :=
  ⟨rfl, fun _ => rfl, fun _ _ _ => Nat.le_of_ble_eq_true rfl⟩

/-- The sample application. -/
def deployApp : App where
  text := ⟨fun _ => "", fun _ => none, fun _ => 0⟩
  enc := deployEncoding

/-- One document is written. -/
def note : Attempt where
  function := "note"
  body _ := .insert "notes" ∅ fun _ => .done (.ok .null)
  args := .null
  draws _ := some (Vector.replicate 16 7)

/-- The app's settings: one journal shard. -/
def deployInit : Store := { data := (∅ : Data).insert appDef (.shards 1) }

/-- The commits are a history of the sample application. -/
abbrev Deployed := History keyed Effect.written (AppTx.run deployApp {} 1) deployInit

/-- A transaction of the sample application that ran. -/
abbrev deployed := Commit.ofRun (AppTx.run deployApp {} 1)

/-- The table is created without indexes. -/
def created : DeployCommit := deployed (.define "notes" []) 1 2 deployInit rfl

/-- The store with the empty table. -/
def withTable : Store := keyed.state deployInit [created]

/-- The table gets an index while it is empty. -/
def reindexed : DeployCommit :=
  deployed (.define "notes" [⟨"by_name", ["name"]⟩]) 6 7 withTable rfl

/-- A document is written by a mutation that started before the table got its index. -/
def noted : DeployCommit := deployed (.serve (.mutate note)) 5 8 withTable rfl

theorem created_history : Deployed [created] :=
  .ofRun .nil rfl (by decide) (by simp) (by simp) (by decide +kernel)

theorem reindexed_history : Deployed [created, reindexed] :=
  .ofRun created_history rfl (by decide) (by decide +kernel) (by decide +kernel)
    (by decide +kernel)

theorem noted_history : Deployed [created, reindexed, noted] :=
  .ofRun reindexed_history rfl (by decide) (by decide +kernel) (by decide +kernel)
    (by decide +kernel)

theorem deployInit_table (id : TableId) : deployInit.data[AppKeys.table id]? = none :=
  get_settings (catalog_kind_ne (by decide) _ _)

theorem deployInit_of_head?_ne {key : Bytes} (h : key.head? ≠ some Tag.catalog) :
    deployInit.data[key]? = none :=
  get_settings fun hkey => h (hkey ▸ rfl)

theorem deployInit_exact : Exact deployApp.limits deployInit.data where
  consistent := consistent_settings _
  indexed := by
    refine ⟨fun id r hget => ?_, fun key r hget hkey => ?_⟩
    · cases (deployInit_of_head?_ne (by rw [head?_document]; decide)).symm.trans hget
    · cases (deployInit_of_head?_ne (by rw [hkey]; decide)).symm.trans hget

/-- The table is empty when it gets its index. -/
theorem withTable_document (id : DocId) : withTable.data[document id]? = none := by
  have hdata : withTable.data =
      (Act.create (Catalog.newTable 1 "notes")).apply deployInit.data := rfl
  have hhead : (document id).head? ≠ some Tag.catalog := by
    rw [head?_document]
    decide
  have hcreate : ∀ c, Act.create (Catalog.newTable 1 "notes") ≠ .change c := nofun
  rw [hdata, Act.getElem?_of_head?_ne hcreate hhead, deployInit_of_head?_ne hhead]

/-- The document that the mutation writes. -/
def noteDoc : Doc := ⟨⟨1, Vector.replicate 16 7⟩, 0, ∅⟩

/-- The table with its index. -/
def notesTable : TableDef where
  id := 1
  name := "notes"
  indexes := [⟨2, "by_name", ["name"]⟩]
  nextIndexId := 3
  user_ids := by decide
  distinct_ids := by simp

/-- The document has no entry in the index. -/
theorem noted_not_indexed :
    ¬ Indexed deployApp.limits (keyed.state deployInit [created, reindexed, noted]).data := by
  intro hindexed
  obtain ⟨doc, t, keys, hid, hrecord, htable, hkeys, hall⟩ :=
    hindexed.complete noteDoc.id noteDoc.record rfl
  obtain rfl : doc = noteDoc := Doc.eq_of_record hid hrecord.symm
  obtain rfl : notesTable = t := Record.table.inj (some.inj (Eq.trans (by rfl) htable))
  rw [indexKeys_eq hkeys] at hall
  have hmissing : (keyed.state deployInit [created, reindexed, noted]).data[
      indexEntry 2 [noteDoc.value "name"] noteDoc.creationMs noteDoc.id]? = none := by rfl
  rw [hall _ (by simp [Doc.entries, notesTable])] at hmissing
  cases hmissing

end Sample

/-- A table may get an index while it is empty and a mutation is running that has seen the
table without it: the document that the mutation then commits has no entry in the index. -/
theorem index_entry_missing : ∃ h : List DeployCommit,
    History Store.keyed Effect.written (AppTx.run Sample.deployApp {} 1) Sample.deployInit h ∧
      Exact Sample.deployApp.limits Sample.deployInit.data ∧
      (∀ p c name specs, p ++ [c] <+: h → c.tx = .define name specs → ∀ t : TableDef,
        (Store.keyed.state Sample.deployInit p).data[AppKeys.table t.id]? = some (.table t) →
          ∀ id, (Store.keyed.state Sample.deployInit p).data[AppKeys.document id]? = none) ∧
      ¬ Indexed Sample.deployApp.limits (Store.keyed.state Sample.deployInit h).data := by
  refine ⟨_, noted_history, deployInit_exact, ?_, noted_not_indexed⟩
  rintro p c name specs ⟨rest, hrest⟩ htx t htable id
  match p, hrest with
  | [], _ =>
    cases (deployInit_table t.id).symm.trans htable
  | [_], hrest =>
    obtain ⟨rfl, -⟩ := cons.inj hrest
    exact Sample.withTable_document id
  | [_, _], hrest =>
    -- the third commit is the mutation
    obtain ⟨-, -, rfl, -⟩ : _ ∧ _ ∧ c = noted ∧ rest = [] := by simpa using hrest
    cases htx
  | _ :: _ :: _ :: _, hrest => simp at hrest

/-- A document that is written when its table does not change. -/
theorem indexes_exact_when_undisturbed_note :
    Exact Sample.deployApp.limits
        (Store.keyed.state Sample.deployInit [Sample.created, Sample.noted]).data ∧
      ∃ as, Acts Sample.deployApp.limits Sample.withTable.data as ∧
        (Store.keyed.state Sample.deployInit [Sample.created, Sample.noted]).data =
          as.foldl Act.apply Sample.withTable.data ∧
        recordsIn Sample.deployApp (Store.keyed.snapshot Sample.deployInit [Sample.created]
          Sample.noted.start) Sample.noted = as.flatMap Act.records := by
  have hh : Deployed [created, noted] :=
    .ofRun Sample.created_history rfl (by decide) (by decide +kernel)
      (by decide +kernel) (by decide +kernel)
  refine indexes_exact_when_undisturbed (p := [created]) Sample.deployEncoding_small
    (fun e => List.Subset.refl _) hh deployInit_exact ?_ prefix_rfl
  rintro p c ⟨rest, hrest⟩
  match p, hrest with
  | [], hrest =>
    obtain ⟨rfl, -⟩ := cons.inj hrest
    intro t htable
    cases (deployInit_table t.id).symm.trans htable
  | [_], hrest =>
    obtain ⟨rfl, rfl, -⟩ : _ = created ∧ c = noted ∧ rest = [] := by simpa using hrest
    exact fun _ _ hget => hget
  | _ :: _ :: _, hrest => simp at hrest

end Loams.Live
