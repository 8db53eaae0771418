/-
# What the reads of a function depend on
-/

import Loams.Control.Moves
import Loams.Live.Changes
import Loams.Live.LiveTxn

namespace Loams.Live

open Option Loams.Data Loams.Control Loams.Tikv Program Std.ExtTreeMap AppKeys Catalog

/-! ## The catalog of consistent data -/

variable {t : TableDef} {id : TableId}

namespace Consistent

variable {data : Data}

theorem loadTableById_eq (h : Consistent data) (id : TableId) :
    (data[AppKeys.table id]? = none ∧ loadTableById data id = .ok none) ∨
      ∃ t, t.id = id ∧ data[AppKeys.table id]? = some (.table t) ∧
        loadTableById data id = .ok (some t) := by
  rw [loadTableById]
  cases hget : data[AppKeys.table id]? with
  | none => exact .inl ⟨rfl, rfl⟩
  | some r =>
    obtain ⟨t, rfl, hid, -⟩ := h.named id r hget
    exact .inr ⟨t, hid, rfl, rfl⟩

theorem loadTable_of_table (h : Consistent data)
    (hget : data[AppKeys.table id]? = some (.table t)) : loadTable data t.name = .ok (some t) := by
  obtain ⟨t', ht, -, hname⟩ := h.named id _ hget
  obtain rfl : t = t' := Record.table.inj ht
  rw [loadTable, hname]
  dsimp only
  rw [loadTableById, hget]
  exact if_pos rfl

theorem loadTable_eq (h : Consistent data) (name : String) :
    (data[tableName name]? = none ∧ loadTable data name = .ok none) ∨
      ∃ t, t.name = name ∧ data[AppKeys.table t.id]? = some (.table t) ∧
        loadTable data name = .ok (some t) := by
  cases hget : data[tableName name]? with
  | none =>
    refine .inl ⟨rfl, ?_⟩
    rw [loadTable, hget]
  | some r =>
    obtain ⟨t, rfl, rfl, htable⟩ := h.names name r hget
    exact .inr ⟨t, rfl, htable, h.loadTable_of_table htable⟩

theorem table_of_loadTable (h : Consistent data) {name : String}
    (hload : loadTable data name = .ok (some t)) : data[AppKeys.table t.id]? = some (.table t) := by
  rcases h.loadTable_eq name with ⟨-, hnone⟩ | ⟨t', -, hget, hsome⟩
  · cases hload.symm.trans hnone
  · obtain rfl : t = t' := some.inj (Except.ok.inj (hload.symm.trans hsome))
    exact hget

end Consistent

theorem loadTableById_eq_some {data : Data} (h : loadTableById data id = .ok (some t)) :
    data[AppKeys.table id]? = some (.table t) := by
  unfold loadTableById at h
  split at h
  · cases h
  · rename_i t' hget
    rw [hget, some.inj (Except.ok.inj h)]
  · cases h

/-! ## What is remembered of the catalog -/

namespace LiveTxn

variable {app : App} {s s' : LiveTxn}

/-- What the function remembers of the catalog is what the data says. -/
structure Coherent (s : LiveTxn) : Prop where
  tables : ∀ id found, s.tables[id]? = some found → loadTableById s.data id = .ok found
  names : ∀ name id, s.names[name]? = some id → ∃ t : TableDef,
    s.tables[id]? = some (some t) ∧ t.name = name

/-- The state with other tables remembered. -/
def caching (s : LiveTxn) (tables : BTreeMap TableId (Option TableDef))
    (names : BTreeMap String TableId) : LiveTxn := { s with tables, names }


theorem coherent_forQuery (ts : Timestamp) (snapshot : Store) : (forQuery ts snapshot).Coherent :=
  ⟨by simp [forQuery], by simp [forQuery]⟩

/-- A table of the data is remembered. -/
theorem Coherent.remember (h : s.Coherent) (hget : s.data[AppKeys.table t.id]? = some (.table t)) :
    (remember t s).Coherent where
  tables := by
    intro id found hfound
    show loadTableById s.data id = _
    rcases get_insert_eq_some.mp hfound with ⟨rfl, rfl⟩ | ⟨-, hfound⟩
    · rw [loadTableById, hget]
    · exact h.tables id found hfound
  names := by
    intro name id hname
    rw [LiveTxn.remember, get_insert]
    rcases get_insert_eq_some.mp hname with ⟨rfl, rfl⟩ | ⟨-, hname⟩
    · exact ⟨t, if_pos rfl, rfl⟩
    · obtain ⟨t', ht', rfl⟩ := h.names name id hname
      by_cases hid : t.id = id
      · -- the table remembered under the id is the one of the data
        have hget' := loadTableById_eq_some (h.tables _ _ ht')
        rw [← hid, hget] at hget'
        exact ⟨t, if_pos hid, by rw [Record.table.inj (some.inj hget')]⟩
      · exact ⟨t', (if_neg hid).trans ht', rfl⟩

theorem Coherent.forget (h : s.Coherent) (hnone : s.tables[id]? = none)
    (hget : s.data[AppKeys.table id]? = none) :
    ({ s with tables := s.tables.insert id none } : LiveTxn).Coherent where
  tables := by
    intro id' found hfound
    rcases get_insert_eq_some.mp hfound with ⟨rfl, rfl⟩ | ⟨-, hfound⟩
    · show loadTableById s.data id = _
      rw [loadTableById, hget]
    · exact h.tables id' found hfound
  names := by
    intro name id' hname
    obtain ⟨t, ht, hname⟩ := h.names name id' hname
    exact ⟨t, get_insert_of_get hnone ht, hname⟩

/-- A table that the function remembers is the one of the data. It may remember that a
table is missing which it has since created. -/
def Known (s : LiveTxn) : Prop :=
  ∀ id t, s.tables[id]? = some (some t) → s.data[AppKeys.table id]? = some (.table t)

theorem Coherent.known (h : s.Coherent) : s.Known :=
  fun id _ ht => loadTableById_eq_some (h.tables id _ ht)

theorem known_forMutation (t : Txn) : (forMutation t).Known := by
  simp [Known, forMutation]

theorem Known.of_eq (h : s.Known) (htables : s'.tables = s.tables) (hdata : s'.data = s.data) :
    s'.Known := by
  intro id t ht
  rw [htables] at ht
  rw [hdata]
  exact h id t ht

theorem Known.remember (h : s.Known) (hget : s.data[AppKeys.table t.id]? = some (.table t)) :
    (remember t s).Known := by
  intro id t' ht
  rcases get_insert_eq_some.mp ht with ⟨rfl, heq⟩ | ⟨-, ht⟩
  · obtain rfl := some.inj heq
    exact hget
  · exact h id t' ht

/-- A table that is looked up by id is the one of the data. -/
theorem tableById_known (h : s.Known) (hdata : Consistent s.data) (id : TableId) :
    ∃ found tables names, (tableById id).exec s = (.ok found, s.caching tables names) ∧
      (s.caching tables names).Known ∧
      (∀ t, found = some t → t.id = id ∧ s.data[AppKeys.table id]? = some (.table t)) ∧
      (s.Coherent → loadTableById s.data id = .ok found ∧
        (s.caching tables names).Coherent) := by
  unfold tableById
  rw [exec_read_bind]
  cases hcached : s.tables[id]? with
  | some found =>
    refine ⟨found, s.tables, s.names, rfl, h, ?_, fun hs => ⟨hs.tables id found hcached, hs⟩⟩
    rintro t rfl
    have hget := h id t hcached
    obtain ⟨t', ht, hid, -⟩ := hdata.named id _ hget
    exact ⟨by rw [Record.table.inj ht, hid], hget⟩
  | none =>
    rcases hdata.loadTableById_eq id with ⟨hget, hload⟩ | ⟨t, rfl, hget, hload⟩
    · refine ⟨none, s.tables.insert id none, s.names, ?_, ?_, by simp,
        fun hs => ⟨hload, hs.forget hcached hget⟩⟩
      · dsimp only
        rw [hload]
        rfl
      · intro id' t ht
        rcases get_insert_eq_some.mp ht with ⟨-, ⟨⟩⟩ | ⟨-, ht⟩
        exact h id' t ht
    · refine ⟨some t, s.tables.insert t.id (some t), s.names.insert t.name t.id, ?_,
        h.remember hget, ?_, fun hs => ⟨hload, hs.remember hget⟩⟩
      · dsimp only
        rw [hload]
        rfl
      · rintro t' heq
        obtain rfl : t = t' := some.inj heq
        exact ⟨rfl, hget⟩

section

variable (h : s.Coherent) (hdata : Consistent s.data)
include h hdata

/-- A table that exists is looked up by name as the data has it. -/
theorem table_exec_some {name : String} (hload : loadTable s.data name = .ok (some t)) :
    ∃ tables names, (table name).exec s = (.ok (some t), s.caching tables names) ∧
      (s.caching tables names).Coherent := by
  unfold table
  rw [exec_read_bind]
  cases hcached : s.names[name]? with
  | some id =>
    obtain ⟨t', ht', rfl⟩ := h.names name id hcached
    have hget := loadTableById_eq_some (h.tables _ _ ht')
    obtain rfl : t' = t := by
      rw [hdata.loadTable_of_table hget] at hload
      exact some.inj (Except.ok.inj hload)
    refine ⟨s.tables, s.names, ?_, h⟩
    dsimp only
    rw [ht']
    rfl
  | none =>
    refine ⟨s.tables.insert t.id (some t), s.names.insert t.name t.id, ?_,
      h.remember (hdata.table_of_loadTable hload)⟩
    dsimp only
    rw [hload]
    rfl

/-- A table that does not exist is missing, and the tables to come are read. -/
theorem table_exec_none {name : String} {next : TableId} (hload : loadTable s.data name = .ok none)
    (hnext : nextTable s.data = .ok next) :
    (table name).exec s = (.ok none, addRange (tablesFrom next) s) := by
  unfold table
  rw [exec_read_bind]
  cases hcached : s.names[name]? with
  | some id =>
    obtain ⟨t, ht, rfl⟩ := h.names name id hcached
    rw [hdata.loadTable_of_table (loadTableById_eq_some (h.tables _ _ ht))] at hload
    cases hload
  | none =>
    dsimp only
    rw [hload, exec_ok_bind]
    dsimp only
    rw [hnext]
    rfl

end

/-! ## Reads that succeed -/

theorem Coherent.of_eq (h : s.Coherent) (htables : s'.tables = s.tables)
    (hnames : s'.names = s.names)
    (hdata : s'.data = s.data) : s'.Coherent where
  tables := by
    rw [htables, hdata]
    exact h.tables
  names := by
    rw [htables, hnames]
    exact h.names

/-- The state after documents are counted. -/
def counted (n : ℕ) (s : LiveTxn) : LiveTxn :=
  { s with usage.scannedDocs := s.usage.scannedDocs + n }

theorem countScanned_eq_ok {n : ℕ} {u : Unit} : (countScanned app n).exec s = (.ok u, s') ↔
    s.usage.scannedDocs + n ≤ app.limits.maxScannedDocs ∧ s' = counted n s := by
  have hexec : (countScanned app n).exec s =
      (require (s.usage.scannedDocs + n ≤ app.limits.maxScannedDocs) (scannedOver app),
        counted n s) := rfl
  rw [hexec, Prod.mk.injEq, require_eq_ok, eq_comm (a := counted n s)]

/-- In a mutation a document that is read is locked. -/
def locked (id : DocId) (s : LiveTxn) : LiveTxn :=
  if s.isMutation then { s with txn.locks := s.txn.locks ++ [.data (document id)] } else s

@[simp] theorem locked_usage (id : DocId) (s : LiveTxn) : (locked id s).usage = s.usage := by
  unfold locked
  split_ifs <;> rfl

@[simp] theorem locked_readSet (id : DocId) (s : LiveTxn) : (locked id s).readSet = s.readSet := by
  unfold locked
  split_ifs <;> rfl

/-- The state after a document is read. -/
def afterGet (id : DocId) (s : LiveTxn) : LiveTxn :=
  addPoint (document id) (locked id (counted 1 s))

/-- When a read by id succeeds, and with what. -/
theorem get_eq_ok {id : DocId} {doc : Option Doc} :
    (get app id).exec s = (.ok doc, s') ↔ s.usage.scannedDocs + 1 ≤ app.limits.maxScannedDocs ∧
      Docs.get app.text s.data id = .ok doc ∧ s' = afterGet id s := by
  -- the lock comes before the read and leaves the data alone
  have hrest : (get app id).exec s = (do
      countScanned app 1
      update (locked id)
      let doc ← Docs.get app.text s.data id
      update (addPoint (document id))
      return doc : LiveM (Option Doc)).exec s := by
    unfold get
    rw [exec_bind, exec_bind]
    rcases hcount : (countScanned app 1).exec s with ⟨_ | _, s₁⟩
    · rfl
    · obtain ⟨-, rfl⟩ := countScanned_eq_ok.mp hcount
      dsimp only
      rw [exec_read_bind, exec_update_bind, locked]
      by_cases hm : (counted 1 s).isMutation = true
      · rw [if_pos hm, if_pos hm]
        rfl
      · rw [if_neg hm, if_neg hm]
        rfl
  rw [hrest, exec_bind_ok]
  constructor
  · rintro ⟨_, s₁, hcount, h⟩
    obtain ⟨hle, rfl⟩ := countScanned_eq_ok.mp hcount
    rw [exec_update_bind] at h
    obtain ⟨found, hfound, h⟩ := exec_check_bind_ok.mp h
    obtain ⟨hdoc, rfl⟩ := Prod.mk.inj h
    exact ⟨hle, by rw [hfound, Except.ok.inj hdoc], rfl⟩
  · rintro ⟨hle, hdoc, rfl⟩
    refine ⟨(), counted 1 s, countScanned_eq_ok.mpr ⟨hle, rfl⟩, ?_⟩
    rw [exec_update_bind]
    exact exec_check_bind_ok.mpr ⟨doc, hdoc, rfl⟩

/-- The state after a range is counted. -/
def countedRange (s : LiveTxn) : LiveTxn :=
  { s with usage.indexRanges := s.usage.indexRanges + 1 }

/-- The state after a range is read. -/
def afterQuery (keys : KeyRange) (docs : List Doc) (s : LiveTxn) : LiveTxn :=
  addRange keys (counted docs.length (countedRange s))

/-- The table that a range is on, with or without a record. -/
def tableOf (range : IndexRange) (found : Option TableDef) : TableDef :=
  found.getD (newTable range.table s!"#{range.table}")

/-- The limits that are left to a scan. -/
def scanLimits (app : App) (s : LiveTxn) : Limits :=
  { app.limits with maxScannedDocs := app.limits.maxScannedDocs - s.usage.scannedDocs }

theorem mapError_eq_ok {ε δ α : Type} {f : ε → δ} {x : Except ε α} {a : α} :
    x.mapError f = .ok a ↔ x = .ok a := by
  cases x <;> simp [Except.mapError]

/-- When a read of a range succeeds, and with what. -/
theorem query_eq_ok (app : App) (h : s.Coherent) (hdata : Consistent s.data) (range : IndexRange) :
    ∃ found tables names, loadTableById s.data range.table = .ok found ∧
      (s.caching tables names).Coherent ∧ ∀ docs s', (query app range).exec s = (.ok docs, s') ↔
        s.usage.indexRanges + 1 ≤ app.limits.maxIndexRanges ∧ ∃ keys,
          Docs.scan app.text s.data (tableOf range found) range (scanLimits app s) =
            .ok (docs, keys) ∧
          s.usage.scannedDocs + docs.length ≤ app.limits.maxScannedDocs ∧
          s' = afterQuery keys docs (s.caching tables names) := by
  have hcounted : (countedRange s).Coherent := h.of_eq rfl rfl rfl
  obtain ⟨found, tables, names, hexec, -, -, hs⟩ := tableById_known hcounted.known hdata range.table
  obtain ⟨hload, hcoherent⟩ := hs hcounted
  refine ⟨found, tables, names, hload, hcoherent.of_eq rfl rfl rfl, fun docs s' => ?_⟩
  unfold query
  rw [exec_update_bind, exec_read_bind, exec_check_bind_ok]
  constructor
  · rintro ⟨_, hranges, h⟩
    refine ⟨require_eq_ok.mp hranges, ?_⟩
    replace h := (exec_bind_of_ok hexec).symm.trans h
    rw [exec_read_bind] at h
    obtain ⟨⟨docs', keys⟩, hscan, h⟩ := exec_check_bind_ok.mp h
    obtain ⟨_, s₁, hcount, h⟩ := exec_bind_ok.mp h
    obtain ⟨hle, rfl⟩ := countScanned_eq_ok.mp hcount
    obtain ⟨hdocs, rfl⟩ := Prod.mk.inj h
    obtain rfl : docs' = docs := Except.ok.inj hdocs
    exact ⟨keys, mapError_eq_ok.mp hscan, hle, rfl⟩
  · rintro ⟨hranges, keys, hscan, hle, rfl⟩
    refine ⟨(), require_eq_ok.mpr hranges, ?_⟩
    refine (exec_bind_of_ok hexec).trans ?_
    rw [exec_read_bind]
    refine exec_check_bind_ok.mpr ⟨(docs, keys), mapError_eq_ok.mpr hscan, ?_⟩
    exact exec_bind_ok.mpr ⟨(), _, countScanned_eq_ok.mpr ⟨hle, rfl⟩, rfl⟩

end LiveTxn

/-! ## Reads, however they end -/

/-- What the first read set covers the second covers too. -/
structure ReadSet.Within (rs rs' : ReadSet) : Prop where
  points : rs.points ⊆ rs'.points
  ranges : rs.ranges ⊆ rs'.ranges

theorem ReadSet.Within.refl (rs : ReadSet) : rs.Within rs :=
  ⟨List.Subset.refl _, List.Subset.refl _⟩

theorem ReadSet.Within.trans {rs rs' rs'' : ReadSet} (h : rs.Within rs') (h' : rs'.Within rs'') :
    rs.Within rs'' :=
  ⟨List.Subset.trans h.points h'.points, List.Subset.trans h.ranges h'.ranges⟩

namespace LiveTxn

variable {s s' : LiveTxn}

theorem within_addPoint (key : Bytes) (s : LiveTxn) :
    s.readSet.Within (addPoint key s).readSet := by
  refine ⟨?_, List.Subset.refl _⟩
  simp only [addPoint]
  split_ifs
  · exact List.Subset.refl _
  · exact List.subset_append_left _ _

/-- Reads only lock keys of the transaction, remember what the data says and add to the read
set. -/
structure OnlyReads (s s' : LiveTxn) : Prop where
  txn : ∃ locks, s'.txn = { s.txn with locks := s.txn.locks ++ locks }
  records : s'.writes = s.writes
  within : s.readSet.Within s'.readSet
  known : s.Known → Consistent s.data → s'.Known
  coherent : s.Coherent → Consistent s.data → s'.Coherent

theorem OnlyReads.txn_writes (h : OnlyReads s s') : s'.txn.writes = s.txn.writes := by
  obtain ⟨locks, htxn⟩ := h.txn
  rw [htxn]

theorem OnlyReads.view (h : OnlyReads s s') : s'.txn.view = s.txn.view := by
  obtain ⟨locks, htxn⟩ := h.txn
  rw [htxn]

theorem OnlyReads.data (h : OnlyReads s s') : s'.data = s.data :=
  congrArg Store.data h.view

instance : IsPreorder LiveTxn OnlyReads where
  refl _ := ⟨⟨[], by simp⟩, rfl, .refl _, fun h _ => h, fun h _ => h⟩
  trans s s' s'' h h' := by
    obtain ⟨locks, htxn⟩ := h.txn
    obtain ⟨locks', htxn'⟩ := h'.txn
    refine ⟨⟨locks ++ locks', by simp [htxn', htxn]⟩, h'.records.trans h.records,
      h.within.trans h'.within, fun hknown hdata => ?_, fun hcoherent hdata => ?_⟩
    · exact h'.known (h.known hknown hdata) (by rwa [h.data])
    · exact h'.coherent (h.coherent hcoherent hdata) (by rwa [h.data])

/-- Changes of the bookkeeping. -/
theorem onlyReads_of_eq (htxn : s'.txn = s.txn) (hwrites : s'.writes = s.writes)
    (htables : s'.tables = s.tables) (hnames : s'.names = s.names)
    (hwithin : s.readSet.Within s'.readSet) : OnlyReads s s' := by
  have hdata : s'.data = s.data := congrArg (fun t : Txn => t.view.data) htxn
  exact ⟨⟨[], by simp [htxn]⟩, hwrites, hwithin, fun h _ => h.of_eq htables hdata,
    fun h _ => h.of_eq htables hnames hdata⟩

theorem countScanned_onlyReads (app : App) (n : ℕ) : Moves OnlyReads (countScanned app n) :=
  .bind (moves_update fun _ => onlyReads_of_eq rfl rfl rfl rfl (.refl _)) fun _ =>
    .read fun _ => moves_check _

theorem addPoint_onlyReads (key : Bytes) :
    Moves OnlyReads (update (addPoint key) : LiveM Unit) :=
  moves_update fun s => onlyReads_of_eq rfl rfl rfl rfl (within_addPoint key s)

theorem addRange_onlyReads (range : KeyRange) :
    Moves OnlyReads (update (addRange range) : LiveM Unit) :=
  moves_update fun _ => onlyReads_of_eq rfl rfl rfl rfl
    ⟨List.Subset.refl _, List.subset_append_left _ _⟩

theorem get_onlyReads (app : App) (id : DocId) : Moves OnlyReads (get app id) := by
  refine .bind (countScanned_onlyReads app 1) fun _ => .read fun s => ?_
  have hrest : Moves OnlyReads ((do
      let doc ← Docs.get app.text s.data id
      update (addPoint (document id))
      return doc : LiveM (Option Doc))) :=
    .check fun _ => .bind (addPoint_onlyReads _) fun _ => moves_pure _
  cases s.isMutation with
  | true =>
    have hlock : Moves OnlyReads (onTxn (Txn.lockKeys [.data (document id)])) :=
      fun s => ⟨⟨_, rfl⟩, rfl, .refl _, fun h _ => h.of_eq rfl rfl, fun h _ => h.of_eq rfl rfl rfl⟩
    exact .bind hlock fun _ => hrest
  | false => exact hrest

/-- A lookup in the catalog, which remembers what it finds only if the data is consistent. -/
theorem tableById_onlyReads (id : TableId) : Moves OnlyReads (tableById id) := by
  intro s
  have hsame : ∀ s' : LiveTxn, s' = s.caching s'.tables s'.names →
      (s.Known → Consistent s.data → s'.Known ∧ (s.Coherent → s'.Coherent)) → OnlyReads s s' := by
    intro s' hs' h
    rw [hs'] at h ⊢
    exact ⟨⟨[], by simp [caching]⟩, rfl, .refl _, fun hknown hdata => (h hknown hdata).1,
      fun hs hdata => (h hs.known hdata).2 hs⟩
  refine hsame _ ?_ fun h hdata => ?_
  · unfold tableById
    rw [exec_read_bind]
    cases s.tables[id]? with
    | some found => rfl
    | none =>
      dsimp only
      rw [exec_bind, exec_liftM]
      rcases loadTableById s.data id with _ | _ | _ <;> rfl
  · obtain ⟨found, tables, names, hexec, hknown, -, hs⟩ := tableById_known h hdata id
    rw [hexec]
    exact ⟨hknown, fun hcoherent => (hs hcoherent).2⟩

theorem query_onlyReads (app : App) (range : IndexRange) : Moves OnlyReads (query app range) :=
  .bind (moves_update fun _ => onlyReads_of_eq rfl rfl rfl rfl (.refl _)) fun _ =>
    .read fun _ => .check fun _ =>
      .bind (tableById_onlyReads range.table) fun _ => .read fun _ =>
        .check fun _ => .bind (countScanned_onlyReads app _) fun _ =>
          .bind (addRange_onlyReads _) fun _ => moves_pure _

theorem table_onlyReads (name : String) : Moves OnlyReads (table name) := by
  intro s
  unfold table
  rw [exec_read_bind]
  cases s.names[name]? with
  | some id => exact refl_of OnlyReads s
  | none =>
    dsimp only
    rw [exec_bind, exec_liftM]
    rcases hload : loadTable s.data name with _ | _ | t
    · exact refl_of OnlyReads s
    · dsimp only
      rw [exec_bind, exec_liftM]
      rcases nextTable s.data with _ | next
      · exact refl_of OnlyReads s
      · exact addRange_onlyReads (tablesFrom next) s
    · exact ⟨⟨[], by simp [remember]⟩, rfl, .refl _,
        fun h hdata => h.remember (hdata.table_of_loadTable hload),
        fun h hdata => h.remember (hdata.table_of_loadTable hload)⟩

end LiveTxn

end Loams.Live
