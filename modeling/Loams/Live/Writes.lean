/-
# What the writes of a function do
-/

import Loams.Live.Effects

namespace Loams.Live

open List hiding Vector
open Loams.Data Loams.Control Loams.Tikv Program AppKeys Catalog Store Txn Change Docs

/-! ## Writes of the data -/

/-- Writes of the data as a transaction makes them. -/
def onData (ws : List (Bytes × Option Record)) : List (AppKey × Option Record) :=
  ws.map fun w => (.data w.1, w.2)

theorem onData_append (ws ws' : List (Bytes × Option Record)) :
    onData (ws ++ ws') = onData ws ++ onData ws' :=
  map_append

theorem data_apply_onData (store : Store) (ws : List (Bytes × Option Record)) :
    (keyed.apply store (onData ws)).data = Data.keyed.apply store.data ws := by
  induction ws generalizing store with
  | nil => rfl
  | cons w ws ih => exact ih _

namespace Txn

variable {enc : Encoding} {t t' : Txn} {u : Unit}

variable {key : AppKey} {r : Record}

theorem put_iff : (Txn.put enc key r).exec t = (.ok u, t') ↔
    enc.len r ≤ maxValueBytes ∧ t' = Txn.write [(key, some r)] t := by
  simp only [Txn.put, exec_check_bind_ok, require_eq_ok, exec_update, Prod.mk.injEq]
  exact ⟨fun ⟨_, hlen, _, ht⟩ => ⟨hlen, ht.symm⟩, fun ⟨hlen, ht⟩ => ⟨(), hlen, trivial, ht.symm⟩⟩

theorem puts_iff {keys : List Bytes} :
    (keys.forM fun key => Txn.put enc (.data key) r).exec t = (.ok u, t') ↔
      (∀ key ∈ keys, enc.len r ≤ maxValueBytes) ∧
        t' = Txn.write (onData (keys.map fun key => (key, some r))) t := by
  induction keys generalizing t with
  | nil => simp [onData, write_nil, eq_comm]
  | cons key keys ih =>
    rw [forM_eq_forM] at ih ⊢
    simp only [forM_cons, exec_bind_ok, put_iff, ih, forall_mem_cons]
    constructor
    · rintro ⟨_, _, ⟨hlen, rfl⟩, hrest, rfl⟩
      exact ⟨⟨hlen, hrest⟩, write_write _ _ _⟩
    · rintro ⟨⟨hlen, hrest⟩, rfl⟩
      exact ⟨(), _, ⟨hlen, rfl⟩, hrest, (write_write [_] _ _).symm⟩

theorem delete_exec (t : Txn) : (Txn.delete key).exec t = (.ok (), Txn.write [(key, none)] t) := rfl

theorem deletes_exec (keys : List Bytes) (t : Txn) :
    (keys.forM fun key => Txn.delete (.data key)).exec t =
      (.ok (), Txn.write (onData (keys.map fun key => (key, none))) t) := by
  induction keys generalizing t with
  | nil => rw [map_nil, onData, map_nil, write_nil]; rfl
  | cons key keys ih =>
    rw [forM_eq_forM, forM_cons, map_cons]
    refine (ih (Txn.write [(.data key, none)] t)).trans ?_
    rw [write_write]
    rfl

theorem insert_iff : (Txn.insert enc key r).exec t = (.ok u, t') ↔
    enc.len r ≤ maxValueBytes ∧ t.buffered key = none ∧
      t' = { Txn.write [(key, some r)] t with inserts := t.inserts ++ [key] } := by
  simp only [Txn.insert, exec_read_bind, exec_check_bind_ok, require_eq_ok, exec_update,
    Option.isNone_iff_eq_none, Prod.mk.injEq]
  constructor
  · rintro ⟨_, hlen, _, hnone, -, ht⟩
    exact ⟨hlen, hnone, ht.symm⟩
  · rintro ⟨hlen, hnone, ht⟩
    exact ⟨(), hlen, (), hnone, trivial, ht.symm⟩

/-- A key that the transaction has not left a record at is as the snapshot has it. -/
theorem get_view_of_buffered {snapshot : Store}
    (hview : t.view = keyed.apply snapshot t.writes) (hnone : t.buffered key = none)
    (habsent : snapshot.get key = none) : t.view.get key = none := by
  have hget : keyed.get t.view key =
      (t.writes.reverse.lookup key).getD (keyed.get snapshot key) := by
    rw [hview, Keyed.get_apply_lookup]
  refine hget.trans ?_
  unfold buffered at hnone
  cases hlookup : t.writes.reverse.lookup key with
  | none => exact habsent
  | some v =>
    rw [hlookup] at hnone
    exact hnone

end Txn

/-! ## Writes of documents -/

namespace Change

/-- A new document. -/
def ofInsert (table : TableDef) (creates : Bool) (doc : Doc) : Change :=
  ⟨table, creates, doc.id, .insert, none, some doc⟩

/-- A document gets a new version. -/
def ofRewrite (table : TableDef) (old new : Doc) : Change :=
  ⟨table, false, new.id, .replace, some old, some new⟩

/-- A document goes. -/
def ofDelete (table : TableDef) (old : Doc) : Change :=
  ⟨table, false, old.id, .delete, some old, none⟩

end Change

section Documents

variable {text : IdText} {enc : Encoding} {limits : Limits} {t t' : Txn} {table : TableDef}

theorem putTable_ok {d : TableDef} (h : (do
      Txn.put enc (.data tableCounter) (.number (d.id + 1))
      Txn.put enc (.data (tableName d.name)) (.number d.id)
      Txn.put enc (.data (AppKeys.table d.id)) (.table d)
      return d : TxnM TableDef).exec t = (.ok table, t')) :
    d = table ∧ t' = Txn.write (onData (tableWrites d)) t := by
  simp only [exec_bind_ok, put_iff, exec_pure, Prod.mk.injEq, Except.ok.injEq] at h
  obtain ⟨_, _, ⟨-, rfl⟩, _, _, ⟨-, rfl⟩, _, _, ⟨-, rfl⟩, rfl, rfl⟩ := h
  refine ⟨rfl, ?_⟩
  rw [write_write, write_write]
  rfl

theorem createTable_ok {name : String}
    (h : (Catalog.createTable enc name).exec t = (.ok table, t')) :
    nextTable t.view.data = .ok table.id ∧ table.id.toNat + 1 < 2 ^ 32 ∧
      table = newTable table.id name ∧
        t' = Txn.write (onData (tableWrites table)) t := by
  unfold Catalog.createTable at h
  rw [exec_read_bind] at h
  obtain ⟨id, hnext, h⟩ := exec_check_bind_ok.mp h
  obtain ⟨_, hbound, h⟩ := exec_check_bind_ok.mp h
  obtain ⟨rfl, rfl⟩ := putTable_ok (d := newTable id name) h
  exact ⟨hnext, require_eq_ok.mp hbound, rfl, rfl⟩

/-- The table of an insert is there, or it is created. -/
theorem tableForInsert_ok {name : String}
    (h : (Catalog.tableForInsert enc name).exec t = (.ok table, t')) :
    (loadTable t.view.data name = .ok (some table) ∧ t' = t) ∨
      (loadTable t.view.data name = .ok none ∧
        (Catalog.createTable enc name).exec t = (.ok table, t')) := by
  simp only [Catalog.tableForInsert, exec_check_bind_ok, exec_read_bind] at h
  obtain ⟨_, -, found, hload, h⟩ := h
  cases found with
  | some table' =>
    obtain ⟨heq, rfl⟩ := Prod.mk.inj h
    obtain rfl : table' = table := Except.ok.inj heq
    exact .inl ⟨hload, rfl⟩
  | none =>
    obtain ⟨_, -, h⟩ := exec_check_bind_ok.mp h
    exact .inr ⟨hload, h⟩

/-- The document that an insert makes. -/
def newDoc (table : TableDef) (fields : Fields) (raw : Vector UInt8 16) (start : Timestamp) : Doc :=
  ⟨⟨table.id, raw⟩, UInt64.ofNat (physicalMs start), fields⟩

/-- The part of an insert that comes after its document is made. -/
def insertDoc (enc : Encoding) (limits : Limits) (table : TableDef) (doc : Doc) :
    TxnM (DocId × WriteRecord × ℕ) := do
  checkRecord enc limits doc
  let added ← indexKeys table limits doc
  Txn.insert enc (.data (document doc.id)) doc.record
  added.forM fun key => Txn.put enc (.data key) .indexEntry
  return (doc.id, ⟨doc.id, .insert, [], added⟩,
    (document doc.id).length + enc.len doc.record + (added.map List.length).sum)

variable {doc : Doc} {r : DocId × WriteRecord × ℕ}

theorem insertDoc_ok (h : (insertDoc enc limits table doc).exec t = (.ok r, t')) :
    indexKeys table limits doc = .ok (doc.entries table) ∧
      t.buffered (.data (document doc.id)) = none ∧ r.1 = doc.id ∧
      r.2.1 = (ofInsert table false doc).record ∧
      t' = { Txn.write (onData (ofInsert table false doc).docWrites) t with
        inserts := t.inserts ++ [.data (document doc.id)] } := by
  unfold insertDoc at h
  simp only [↓exec_check_bind_ok, exec_bind_ok, insert_iff, puts_iff, exec_pure,
    Prod.mk.injEq, Except.ok.injEq] at h
  obtain ⟨_, -, added, hadded, _, _, ⟨-, hnone, rfl⟩, _, _, ⟨-, rfl⟩, rfl, rfl⟩ := h
  obtain rfl := indexKeys_eq hadded
  refine ⟨hadded, hnone, rfl, rfl, ?_⟩
  simp [docWrites, ofInsert, Change.removed, Change.added, entriesOf, onData, Txn.write,
    Keyed.apply_cons]

theorem insertSized_ok {fields : Fields} {random : Option (Vector UInt8 16)}
    (h : (insertSized enc table fields limits random).exec t = (.ok r, t')) :
    ∃ raw, random = some raw ∧
      (insertDoc enc limits table (newDoc table fields raw t.start)).exec t = (.ok r, t') := by
  obtain ⟨_, -, h⟩ := exec_check_bind_ok.mp h
  rw [exec_read_bind] at h
  cases random with
  | none => cases h
  | some raw =>
    dsimp only at h
    refine ⟨raw, rfl, ?_⟩
    unfold insertDoc
    exact h

theorem docs_get_eq_some {data : Data} {id : DocId} (h : Docs.get text data id = .ok (some doc)) :
    doc.id = id ∧ data[document id]? = some doc.record := by
  unfold Docs.get at h
  split at h
  · cases h
  · rename_i r hget
    cases r with
    | document ms fields =>
      obtain rfl : (⟨id, ms, fields⟩ : Doc) = doc := Option.some.inj (Except.ok.inj h)
      exact ⟨rfl, hget⟩
    | _ => cases h

theorem existing_ok {data : Data} {id : DocId} (h : existing text data table id = .ok doc) :
    Docs.get text data id = .ok (some doc) := by
  unfold existing at h
  obtain ⟨_, -, h⟩ := except_bind_ok.mp h
  obtain ⟨found, hget, h⟩ := except_bind_ok.mp h
  cases found with
  | none => cases h
  | some doc' =>
    obtain rfl : doc' = doc := Except.ok.inj h
    exact hget

theorem docs_rewrite_ok {old : Doc} {fields : Fields} {record : WriteRecord} {bytes : ℕ}
    (h : (Docs.rewrite enc table old fields limits).exec t = (.ok (record, bytes), t')) :
    ∃ new : Doc, new.id = old.id ∧ indexKeys table limits old = .ok (old.entries table) ∧
      indexKeys table limits new = .ok (new.entries table) ∧
      record = (ofRewrite table old new).record ∧
      t' = Txn.write (onData (ofRewrite table old new).docWrites) t := by
  unfold Docs.rewrite at h
  simp only [↓exec_check_bind_ok, exec_bind_ok, put_iff, puts_iff,
    deletes_exec, exec_pure, Prod.mk.injEq, Except.ok.injEq] at h
  obtain ⟨_, -, removed, hremoved, _, -, added, hadded, _, _, ⟨-, rfl⟩, _, _, ⟨-, rfl⟩, _, _,
    ⟨-, rfl⟩, ⟨rfl, -⟩, rfl⟩ := h
  obtain rfl := indexKeys_eq hremoved
  obtain rfl := indexKeys_eq hadded
  refine ⟨{ old with fields := fields }, rfl, hremoved, hadded, rfl, ?_⟩
  rw [write_write, write_write, ← onData_append]
  rfl

theorem docs_delete_ok {id : DocId} {found : Option WriteRecord}
    (h : (Docs.delete text table id limits).exec t = (.ok found, t')) : (found = none ∧ t' = t) ∨
      ∃ old, Docs.get text t.view.data id = .ok (some old) ∧
        indexKeys table limits old = .ok (old.entries table) ∧
        found = some (ofDelete table old).record ∧
        t' = Txn.write (onData (ofDelete table old).docWrites) t := by
  simp only [Docs.delete, exec_check_bind_ok, exec_read_bind] at h
  obtain ⟨_, -, doc, hget, h⟩ := h
  cases doc with
  | none =>
    obtain ⟨hanswer, rfl⟩ := Prod.mk.inj h
    exact .inl ⟨(Except.ok.inj hanswer).symm, rfl⟩
  | some old =>
    obtain ⟨rfl, -⟩ := docs_get_eq_some hget
    simp only [↓exec_check_bind_ok, exec_bind_ok, delete_exec, deletes_exec, exec_pure,
      Prod.mk.injEq, Except.ok.injEq] at h
    obtain ⟨removed, hremoved, _, _, ⟨-, rfl⟩, _, _, ⟨-, rfl⟩, rfl, rfl⟩ := h
    obtain rfl := indexKeys_eq hremoved
    refine .inr ⟨old, hget, hremoved, rfl, ?_⟩
    simp [docWrites, ofDelete, Change.removed, Change.added, entriesOf, onData, write_write]

end Documents

/-- The sizes of what the indexes and the catalog store: an index entry has no value, an id
is four bytes, and the record of a table without indexes is small. -/
structure Encoding.Small (enc : Encoding) : Prop where
  indexEntry : enc.len .indexEntry = 0
  number : ∀ n, enc.len (.number n) = 4
  table : ∀ id name, (utf8 name).length ≤ 64 →
    enc.len (.table (newTable id name)) ≤ maxValueBytes

/-! ## Errors leave no writes -/

section Errors

variable {text : IdText} {enc : Encoding} {limits : Limits} {t : Txn} {table : TableDef}

theorem put_succeeds {key : AppKey} {r : Record} (h : enc.len r ≤ maxValueBytes) :
    (Txn.put enc key r).Succeeds :=
  fun _ => ⟨(), _, put_iff.mpr ⟨h, rfl⟩⟩

theorem put_failsClean {key : AppKey} {r : Record} : (Txn.put enc key r).FailsClean t :=
  failsClean_check_bind.mpr fun _ _ => Succeeds.failsClean fun _ => ⟨(), _, rfl⟩

theorem putEntries_succeeds (h : enc.Small) (keys : List Bytes) :
    (keys.forM fun key => Txn.put enc (.data key) .indexEntry).Succeeds := by
  intro t
  refine ⟨(), _, puts_iff.mpr ⟨fun _ _ => ?_, rfl⟩⟩
  rw [h.indexEntry]
  exact Nat.zero_le _

theorem deletes_succeeds (keys : List Bytes) :
    (keys.forM fun key => Txn.delete (.data key)).Succeeds :=
  fun t => ⟨(), _, deletes_exec keys t⟩

section

variable (h : enc.Small)
include h

theorem createTable_failsClean {name : String} (hname : (utf8 name).length ≤ 64) :
    (Catalog.createTable enc name).FailsClean t := by
  have hnumber : ∀ n, enc.len (.number n) ≤ maxValueBytes := by
    intro n
    rw [h.number]
    decide
  refine failsClean_read_bind.mpr (failsClean_check_bind.mpr fun id _ =>
    failsClean_check_bind.mpr fun _ _ => Succeeds.failsClean ?_)
  exact (put_succeeds (hnumber _)).bind fun _ => (put_succeeds (hnumber _)).bind fun _ =>
    (put_succeeds (h.table id name hname)).bind fun _ => succeeds_pure

theorem tableForInsert_failsClean (name : String) :
    (Catalog.tableForInsert enc name).FailsClean t := by
  refine failsClean_check_bind.mpr fun _ hname => failsClean_read_bind.mpr
    (failsClean_check_bind.mpr fun found _ => ?_)
  cases found with
  | some table => exact failsClean_pure
  | none =>
    refine failsClean_check_bind.mpr fun _ _ => createTable_failsClean h ?_
    exact (require_eq_ok.mp hname).1

theorem insertSized_failsClean (fields : Fields) (random : Option (Vector UInt8 16)) :
    (insertSized enc table fields limits random).FailsClean t := by
  refine failsClean_check_bind.mpr fun _ _ => failsClean_read_bind.mpr ?_
  cases random with
  | none => exact failsClean_fail
  | some raw =>
    refine failsClean_check_bind.mpr fun _ _ => failsClean_check_bind.mpr fun added _ => ?_
    refine FailsClean.bind ?_ fun _ => (putEntries_succeeds h added).bind fun _ => succeeds_pure
    exact failsClean_check_bind.mpr fun _ _ => failsClean_read_bind.mpr
      (failsClean_check_bind.mpr fun _ _ => Succeeds.failsClean fun _ => ⟨(), _, rfl⟩)

theorem docs_rewrite_failsClean (old : Doc) (fields : Fields) :
    (Docs.rewrite enc table old fields limits).FailsClean t := by
  refine failsClean_check_bind.mpr fun _ _ => failsClean_check_bind.mpr fun removed _ =>
    failsClean_check_bind.mpr fun _ _ => failsClean_check_bind.mpr fun added _ => ?_
  exact put_failsClean.bind fun _ => (deletes_succeeds _).bind fun _ =>
    (putEntries_succeeds h _).bind fun _ => succeeds_pure

theorem rewriteSized_failsClean (merge : Bool) (id : DocId) (fields : Fields) :
    (if merge then patchSized text enc table id fields limits
      else replaceSized text enc table id fields limits).FailsClean t := by
  cases merge with
  | true | false =>
    exact failsClean_read_bind.mpr (failsClean_check_bind.mpr fun _ _ =>
      docs_rewrite_failsClean h _ _)

end

theorem docs_delete_failsClean (id : DocId) : (Docs.delete text table id limits).FailsClean t := by
  refine failsClean_check_bind.mpr fun _ _ => failsClean_read_bind.mpr
    (failsClean_check_bind.mpr fun found _ => ?_)
  cases found with
  | none => exact failsClean_pure
  | some old =>
    refine failsClean_check_bind.mpr fun removed _ => Succeeds.failsClean ?_
    have hdelete : (Txn.delete (.data (document id))).Succeeds := fun _ => ⟨(), _, rfl⟩
    exact hdelete.bind fun _ => (deletes_succeeds removed).bind fun _ => succeeds_pure

end Errors

/-! ## Operations -/

namespace LiveTxn

variable {app : App} {s s' : LiveTxn} {c : Change}

/-- The state after a write is recorded. -/
def recorded (record : WriteRecord) (bytes : ℕ) (s : LiveTxn) : LiveTxn :=
  { s with
    usage.writtenDocs := s.usage.writtenDocs + 1
    usage.writtenBytes := s.usage.writtenBytes + bytes
    writes := s.writes ++ [record] }

/-- A write over the limits is recorded all the same. -/
theorem wrote_exec (app : App) (record : WriteRecord) (bytes : ℕ) (s : LiveTxn) :
    ((wrote app record bytes).exec s).2 = recorded record bytes s := by
  unfold wrote
  rw [exec_update_bind, exec_read_bind, exec_bind, exec_liftM]
  split
  · rename_i heq
    rw [← (Prod.mk.inj heq).2]
    rfl
  · rename_i heq
    exact (Prod.mk.inj heq).2.symm

/-- All that the transaction has written since is a new table. -/
structure Created (s : LiveTxn) (table : TableDef) (t : Txn) : Prop where
  bound : table.id.toNat + 1 < 2 ^ 32
  next : nextTable s.data = .ok table.id
  name : s.data[tableName table.name]? = none
  txn : t = Txn.write (onData (tableWrites table)) s.txn

/-- The operation ended before it recorded anything: it has read, and a program of the
transaction below may have failed after some of its writes. With small records it fails
before them, and there is at most a new table. -/
def Stopped (app : App) (s s' : LiveTxn) : Prop :=
  ∃ s₁ t, OnlyReads s s₁ ∧ s' = { s₁ with txn := t } ∧
    (app.enc.Small → t = s.txn ∨ ∃ table, Created s table t)

/-- The operation made one change of the data and recorded it. -/
structure Did (app : App) (s : LiveTxn) (c : Change) (s' : LiveTxn) : Prop where
  fits : c.Fits s.data
  removes : ∀ doc ∈ c.old, indexKeys c.table app.limits doc = .ok c.removed
  adds : ∀ doc ∈ c.new, indexKeys c.table app.limits doc = .ok c.added
  writes : s'.txn.writes = s.txn.writes ++ onData c.writes
  view : s'.txn.view = keyed.apply s.txn.view (onData c.writes)
  records : s'.writes = s.writes ++ [c.record]
  known : s.Known → s'.Known

theorem stopped_of_onlyReads (h : OnlyReads s s') (htxn : s'.txn = s.txn) : Stopped app s s' :=
  ⟨s', s'.txn, h, rfl, fun _ => .inl htxn⟩

theorem data_of_view (hview : s'.txn.view = keyed.apply s.txn.view (onData c.writes)) :
    s'.data = c.apply s.data :=
  (congrArg Store.data hview).trans (data_apply_onData _ _)

/-- A change keeps the tables that are remembered. -/
theorem Known.change (h : s.Known) (hdata : Consistent s.data) (hfits : c.Fits s.data)
    (hview : s'.txn.view = keyed.apply s.txn.view (onData c.writes))
    (htables : s'.tables = s.tables) : s'.Known := by
  intro id t ht
  rw [htables] at ht
  rw [data_of_view hview]
  exact hdata.keeps_table hfits (h id t ht)

theorem exec_onTxn {α : Type} (p : TxnM α) (s : LiveTxn) :
    (onTxn p).exec s = ((p.exec s.txn).1, { s with txn := (p.exec s.txn).2 }) := rfl

section Insert

variable {name : String} {fields : Fields} {draws : ℕ → Option (Vector UInt8 16)}
  {snapshot : Store} {table : TableDef} {t₁ t₂ : Txn} {id : DocId} {record : WriteRecord}
  {bytes : ℕ}

section

variable (hdata : Consistent s.data)
include hdata

/-- The table of an insert is written with the document, or it is there. -/
theorem exists_creates
    (htable : (Catalog.tableForInsert app.enc name).exec s.txn = (.ok table, t₁)) :
    ∃ creates : Bool,
      t₁ = Txn.write (onData (if creates then tableWrites table else [])) s.txn ∧
      (creates = false → s.data[AppKeys.table table.id]? = some (.table table)) ∧
      (creates = true → table = newTable table.id table.name ∧ table.id.toNat + 1 < 2 ^ 32 ∧
        nextTable s.data = .ok table.id ∧ s.data[tableName table.name]? = none) := by
  obtain ⟨hload, rfl⟩ | ⟨hload, hcreate⟩ := tableForInsert_ok htable
  · exact ⟨false, (write_nil _).symm, fun _ => hdata.table_of_loadTable hload, by simp⟩
  · obtain ⟨hnext, hbound, hnew, rfl⟩ := createTable_ok hcreate
    have hname : table.name = name := by
      rw [hnew]
      rfl
    refine ⟨true, rfl, by simp, fun _ => ⟨by rw [hname]; exact hnew, hbound, hnext, ?_⟩⟩
    rcases hdata.loadTable_eq name with ⟨hnone, -⟩ | ⟨t, -, -, hsome⟩
    · rw [hname, hnone]
    · cases hload.symm.trans hsome

section

variable (hview : s.txn.view = keyed.apply snapshot s.txn.writes)
  (htable : (Catalog.tableForInsert app.enc name).exec s.txn = (.ok table, t₁))
  (hinsert : (insertSized app.enc table fields app.limits (draws s.drawn)).exec t₁ =
    (.ok (id, record, bytes), t₂))
  (hfresh : ∀ key ∈ t₂.inserts, snapshot.get key = none)
include hview htable hinsert hfresh

/-- The change that an insert makes once its writes are buffered. -/
theorem insert_change : ∃ creates doc, (ofInsert table creates doc).Fits s.data ∧
      indexKeys table app.limits doc = .ok (doc.entries table) ∧
      record = (ofInsert table creates doc).record ∧
      t₂.writes = s.txn.writes ++ onData (ofInsert table creates doc).writes ∧
      t₂.view = keyed.apply s.txn.view
        (onData (ofInsert table creates doc).writes) := by
  obtain ⟨creates, ht₁, hexisting, hcreated⟩ := exists_creates hdata htable
  obtain ⟨raw, -, hinsert⟩ := insertSized_ok hinsert
  obtain ⟨doc, hdoc⟩ : ∃ doc, newDoc table fields raw t₁.start = doc := ⟨_, rfl⟩
  rw [hdoc] at hinsert
  obtain ⟨hkeys, hbuffered, rfl, rfl, rfl⟩ := insertDoc_ok hinsert
  have htable : doc.id.table = table.id := by
    rw [← hdoc]
    rfl
  set c := ofInsert table creates doc with hc
  replace ht₁ : t₁ = Txn.write (onData c.catalogWrites) s.txn := ht₁
  have hwrites : onData c.writes = onData c.catalogWrites ++ onData c.docWrites :=
    onData_append _ _
  -- the id is absent from the view: the snapshot does not have it and nothing was written there
  have habsent : s.data[document doc.id]? = none := by
    have hview₁ : t₁.view = keyed.apply snapshot t₁.writes := by
      simp only [ht₁, Txn.write, Keyed.apply_append, hview]
    have hget : t₁.view.data[document doc.id]? = none :=
      get_view_of_buffered hview₁ hbuffered (hfresh _ (by simp))
    have hdata₁ : t₁.view.data = Data.keyed.apply s.data c.catalogWrites := by
      rw [ht₁]
      exact data_apply_onData _ _
    rwa [hdata₁, getElem?_apply_of_notMem] at hget
    intro hmem
    cases Change.head?_of_mem_catalogWrites hmem
  have hfits : c.Fits s.data :=
    ⟨htable, by simp [hc, ofInsert], by simp [hc, ofInsert], habsent, hexisting,
      fun hcreates => ⟨rfl, hcreated hcreates⟩⟩
  refine ⟨creates, doc, hfits, hkeys, rfl, ?_, ?_⟩
  · rw [← hc, hwrites, ← append_assoc, ht₁]
    rfl
  · rw [← hc, hwrites, Keyed.apply_append, ht₁]
    rfl

/-- What an insert does that gets as far as its record. Its table is remembered, whether it
was created or not. -/
theorem did_insert :
    ∃ c, Did app s c (recorded record bytes
      (remember table { s with txn := t₂, drawn := s.drawn + 1 })) := by
  obtain ⟨creates, doc, hfits, hkeys, rfl, hwrites, hview'⟩ :=
    insert_change hdata hview htable hinsert hfresh
  set s₂ : LiveTxn := { s with txn := t₂, drawn := s.drawn + 1 }
  have hget : s₂.data[AppKeys.table table.id]? = some (.table table) := by
    rw [data_of_view (c := ofInsert table creates doc) hview']
    exact Consistent.table_apply hfits
  refine ⟨ofInsert table creates doc, hfits, by simp [ofInsert], ?_, hwrites, hview',
    rfl, fun h => ?_⟩
  · rintro d hd
    obtain rfl : doc = d := Option.some.inj hd
    exact hkeys
  · have hs : s₂.Known := h.change hdata hfits hview' rfl
    exact (hs.remember hget).of_eq rfl rfl

end

/-- An insert makes a change or records nothing. -/
theorem insert_cases (hview : s.txn.view = keyed.apply snapshot s.txn.writes)
    (hexec : ((insert app draws name fields).exec s).2 = s')
    (hfresh : ∀ key ∈ s'.txn.inserts, snapshot.get key = none) :
    Stopped app s s' ∨ ∃ c, Did app s c s' := by
  unfold insert at hexec
  rw [exec_read_bind] at hexec
  by_cases hmutation : s.isMutation = true
  · rw [if_pos hmutation, exec_bind, exec_onTxn] at hexec
    rcases htable : (Catalog.tableForInsert app.enc name).exec s.txn with ⟨e | table, t₁⟩
    · rw [htable] at hexec
      exact .inl ⟨s, t₁, refl_of OnlyReads s, hexec.symm,
        fun hsmall => .inl (tableForInsert_failsClean hsmall name e t₁ htable)⟩
    · rw [htable] at hexec
      dsimp only at hexec
      rw [exec_update_bind, exec_bind, exec_onTxn] at hexec
      dsimp only at hexec
      rcases hinsert : (insertSized app.enc table fields app.limits (draws s.drawn)).exec t₁ with
        ⟨e | ⟨id, record, bytes⟩, t₂⟩
      · -- the document is refused: its table may be new
        rw [hinsert] at hexec
        refine .inl ⟨{ s with drawn := s.drawn + 1 }, t₂, onlyReads_of_eq rfl rfl rfl rfl (.refl _),
          hexec.symm, fun hsmall => ?_⟩
        obtain rfl := insertSized_failsClean hsmall fields _ e t₂ hinsert
        obtain ⟨creates, rfl, -, hcreated⟩ := exists_creates hdata htable
        cases creates with
        | false => exact .inl (write_nil _)
        | true =>
          obtain ⟨-, hbound, hnext, hname⟩ := hcreated rfl
          exact .inr ⟨table, hbound, hnext, hname, rfl⟩
      · rw [hinsert] at hexec
        dsimp only at hexec
        rw [exec_update_bind, exec_bind] at hexec
        have hwrote := wrote_exec app record bytes
          (remember table { s with txn := t₂, drawn := s.drawn + 1 })
        split at hexec <;>
        · rename_i heq
          rw [heq] at hwrote
          obtain rfl : s' = _ := hexec.symm.trans hwrote
          exact .inr (did_insert hdata hview htable hinsert hfresh)
  · rw [if_neg hmutation] at hexec
    exact .inl (stopped_of_onlyReads (hexec ▸ refl_of OnlyReads s) (hexec ▸ rfl))

end

end Insert

section Existing

variable {id : DocId} {fields : Fields} {merge : Bool} {table : TableDef} {s₁ : LiveTxn}

/-- An operation on a document that exists: what it does is what follows once its table is
looked up and the read is counted. -/
theorem existing_cases {α : Type} {f : TableDef → LiveM α} {e : LiveError}
    (h : s.Known) (hdata : Consistent s.data)
    (hf : ∀ table s₁, OnlyReads s s₁ → s₁.txn = s.txn → table.id = id.table →
      s.data[AppKeys.table id.table]? = some (.table table) →
      let s' := ((f table).exec s₁).2
      Stopped app s s' ∨ ∃ c, Did app s c s') :
    let s' := ((if s.isMutation then do
        let table ← existingTable app id
        countScanned app 1
        f table
      else fail e : LiveM α).exec s).2
    Stopped app s s' ∨ ∃ c, Did app s c s' := by
  dsimp only
  split_ifs with hmutation
  · obtain ⟨found, tables, names, hexec, -, hfound, -⟩ := tableById_known h hdata id.table
    have hcaching : OnlyReads s (s.caching tables names) := by
      have hreads := tableById_onlyReads id.table s
      rwa [hexec] at hreads
    cases found with
    | none =>
      have htable : (existingTable app id).exec s = (.error (.notFound
          s!"document {id.display app.text}: its table {id.table} does not exist"),
            s.caching tables names) := exec_bind_of_ok hexec
      rw [exec_bind, htable]
      exact .inl (stopped_of_onlyReads hcaching rfl)
    | some table =>
      have htable : (existingTable app id).exec s = (.ok table, s.caching tables names) :=
        exec_bind_of_ok hexec
      obtain ⟨hid, hget⟩ := hfound table rfl
      have hs₁ : OnlyReads s (counted 1 (s.caching tables names)) :=
        trans_of OnlyReads hcaching (countScanned_onlyReads app 1 _)
      rw [exec_bind_of_ok htable]
      rcases hcount : (countScanned app 1).exec (s.caching tables names) with ⟨_ | _, s₁⟩
      · rw [exec_bind, hcount]
        obtain rfl : counted 1 (s.caching tables names) = s₁ := (Prod.mk.inj hcount).2
        exact .inl (stopped_of_onlyReads hs₁ rfl)
      · obtain ⟨-, rfl⟩ := countScanned_eq_ok.mp hcount
        rw [exec_bind_of_ok hcount]
        exact hf table _ hs₁ rfl hid hget
  · exact .inl (stopped_of_onlyReads (refl_of OnlyReads s) rfl)

/-- A change of a document that exists, made and recorded after reads. -/
theorem did_change {old : Doc} {new : Option Doc} (hs₁ : OnlyReads s s₁) (htxn : s₁.txn = s.txn)
    (hdata : Consistent s.data) (hid : table.id = id.table)
    (htable : s.data[AppKeys.table id.table]? = some (.table table))
    (hold : Docs.get app.text s.data id = .ok (some old))
    (hremoved : indexKeys table app.limits old = .ok (old.entries table))
    (hadded : ∀ doc ∈ new, doc.id = old.id ∧
      indexKeys table app.limits doc = .ok (doc.entries table))
    (kind : WriteKind) (key : Bytes) (bytes : ℕ) :
    let c : Change := ⟨table, false, old.id, kind, some old, new⟩
    Did app s c (recorded c.record bytes (addPoint key
      { s₁ with txn := Txn.write (onData c.docWrites) s.txn })) := by
  intro c
  obtain ⟨rfl, hget⟩ := docs_get_eq_some hold
  have hfits : c.Fits s.data := ⟨hid.symm, by simp [c], fun doc hdoc => (hadded doc hdoc).1, hget,
    fun _ => by simpa [c, hid] using htable, by simp [c]⟩
  set s₂ : LiveTxn := recorded c.record bytes (addPoint key
    { s₁ with txn := Txn.write (onData c.docWrites) s.txn })
  have hview : s₂.txn.view = keyed.apply s.txn.view (onData c.writes) := rfl
  refine ⟨hfits, ?_, fun doc hdoc => ?_, rfl, hview, ?_, fun h => ?_⟩
  · rintro doc ⟨⟩
    exact hremoved
  · obtain rfl : new = some doc := hdoc
    exact (hadded doc rfl).2
  · rw [← hs₁.records]
    rfl
  · refine (hs₁.known h hdata).change (by rwa [hs₁.data]) (by rwa [hs₁.data]) ?_ rfl
    rw [htxn]
    exact hview

/-- What follows the writes of a document: the read set and the record. -/
theorem wrote_cases {p : TxnM (WriteRecord × ℕ)} {key : Bytes}
    (hs₁ : OnlyReads s s₁) (htxn : s₁.txn = s.txn) (hclean : app.enc.Small → p.FailsClean s.txn)
    (hdid : ∀ r t', p.exec s.txn = (.ok r, t') →
      ∃ c, Did app s c (recorded r.1 r.2 (addPoint key { s₁ with txn := t' }))) :
    let s' := ((do
      let (record, bytes) ← onTxn p
      update (addPoint key)
      wrote app record bytes : LiveM Unit).exec s₁).2
    Stopped app s s' ∨ ∃ c, Did app s c s' := by
  rw [exec_bind, exec_onTxn, htxn]
  rcases hp : p.exec s.txn with ⟨e | ⟨record, bytes⟩, t'⟩
  · exact .inl ⟨s₁, t', hs₁, rfl, fun hsmall => .inl (hclean hsmall e t' hp)⟩
  · dsimp only
    rw [exec_update_bind, wrote_exec]
    exact .inr (hdid _ _ hp)

/-- A rewrite makes a change or records nothing. -/
theorem rewrite_cases (h : s.Known) (hdata : Consistent s.data)
    (hexec : ((rewrite app id fields merge).exec s).2 = s') :
    Stopped app s s' ∨ ∃ c, Did app s c s' := by
  subst hexec
  unfold rewrite
  rw [exec_read_bind]
  refine existing_cases h hdata fun table s₁ hs₁ htxn hid htable => ?_
  have hdid : ∀ r t', (if merge then patchSized app.text app.enc table id fields app.limits
      else replaceSized app.text app.enc table id fields app.limits).exec s.txn =
        (.ok r, t') → ∃ c, Did app s c
          (recorded r.1 r.2 (addPoint (document id) { s₁ with txn := t' })) := by
    intro r t' hr
    -- A patch and a replacement differ in the fields they write.
    obtain ⟨old, hold, hr⟩ : ∃ old, existing app.text s.txn.view.data table id = .ok old ∧
        (Docs.rewrite app.enc table old (if merge then Docs.merged old.fields fields else fields)
          app.limits).exec s.txn = (.ok r, t') := by
      cases merge with
      | true | false => exact exec_check_bind_ok.mp hr
    obtain ⟨new, hnew, hremoved, hadded, hrecord, rfl⟩ := docs_rewrite_ok hr
    rw [hrecord, ofRewrite, hnew]
    refine ⟨_, did_change hs₁ htxn hdata hid htable (existing_ok hold) hremoved ?_ _ _ _⟩
    rintro doc ⟨⟩
    exact ⟨hnew, hadded⟩
  cases merge with
  | true => exact wrote_cases hs₁ htxn (rewriteSized_failsClean · true id fields) hdid
  | false => exact wrote_cases hs₁ htxn (rewriteSized_failsClean · false id fields) hdid

/-- The part of a delete that comes after the table is found. -/
def deleteFrom (app : App) (id : DocId) (table : TableDef) : LiveM Unit := do
  match ← onTxn (Docs.delete app.text table id app.limits) with
  | none => fail (.notFound s!"document {id.display app.text} in table '{table.name}'")
  | some record =>
    update (addPoint (document id))
    wrote app record ((document id).length + (record.removed.map List.length).sum)

/-- A delete makes a change or records nothing. -/
theorem delete_cases (h : s.Known) (hdata : Consistent s.data)
    (hexec : ((delete app id).exec s).2 = s') : Stopped app s s' ∨ ∃ c, Did app s c s' := by
  subst hexec
  unfold delete
  rw [exec_read_bind]
  refine existing_cases (f := deleteFrom app id) h hdata fun table s₁ hs₁ htxn hid htable => ?_
  rw [deleteFrom, exec_bind, exec_onTxn, htxn]
  rcases hp : (Docs.delete app.text table id app.limits).exec s.txn with ⟨e | found, t'⟩
  · exact .inl ⟨s₁, t', hs₁, rfl, fun _ => .inl (docs_delete_failsClean id e t' hp)⟩
  · obtain ⟨rfl, rfl⟩ | ⟨old, hold, hremoved, rfl, rfl⟩ := docs_delete_ok hp
    · exact .inl ⟨s₁, s.txn, hs₁, rfl, fun _ => .inl rfl⟩
    · dsimp only
      rw [exec_update_bind, wrote_exec]
      exact .inr ⟨_, did_change hs₁ htxn hdata hid htable hold hremoved (by rintro _ ⟨⟩) _ _ _⟩

end Existing

end LiveTxn

end Loams.Live
