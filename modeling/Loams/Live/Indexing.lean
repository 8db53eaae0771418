/-
# Index entries follow the documents
-/

import Loams.Live.Deploys
import Loams.Live.Writes

namespace Loams.Live

open Option List Loams.Data Loams.Control Loams.Tikv Program AppKeys

/-! ## Exact entries -/

/-- The index entries are those that the stored documents have. -/
structure Indexed (limits : Limits) (data : Data) : Prop where
  /-- No entry is missing. -/
  complete : ∀ id r, data[document id]? = some r → ∃ doc t keys, doc.id = id ∧
    r = doc.record ∧ data[AppKeys.table id.table]? = some (.table t) ∧
      Docs.indexKeys t limits doc = .ok keys ∧ ∀ key ∈ keys, data[key]? = some .indexEntry
  /-- No entry is stale. -/
  sound : ∀ (key : Bytes) r, data[key]? = some r → key.head? = some Tag.index →
    ∃ doc t keys, data[document doc.id]? = some doc.record ∧
      data[AppKeys.table doc.id.table]? = some (.table t) ∧
        Docs.indexKeys t limits doc = .ok keys ∧ key ∈ keys

/-- The catalog is consistent and the entries are exact. -/
structure Exact (limits : Limits) (data : Data) : Prop where
  consistent : Consistent data
  indexed : Indexed limits data

variable {key : Bytes}

/-- The entries are exact once none is missing and each is a stored document's. -/
theorem Indexed.of_complete {limits : Limits} {data : Data} (h : Consistent data)
    (hcomplete : ∀ id r, data[document id]? = some r → ∃ doc t keys, doc.id = id ∧
      r = doc.record ∧ data[AppKeys.table id.table]? = some (.table t) ∧
        Docs.indexKeys t limits doc = .ok keys ∧ ∀ key ∈ keys, data[key]? = some .indexEntry) :
    Indexed limits data where
  complete := hcomplete
  sound := by
    intro key r hget hkey
    obtain ⟨doc, t, hdoc, htable, hmem⟩ := h.entries key r hget hkey
    obtain ⟨doc', t', keys, hid, hrecord, htable', hkeys, -⟩ := hcomplete _ _ hdoc
    obtain rfl : doc' = doc := Doc.eq_of_record hid hrecord.symm
    obtain rfl : t = t' := Record.table.inj (some.inj (htable.symm.trans htable'))
    exact ⟨doc', t, keys, hdoc, htable, hkeys, indexKeys_eq hkeys ▸ hmem⟩

/-! ## Acts -/

/-- What a transaction does to the data, one document or one table at a time. -/
inductive Act
  | change (c : Change)
  /-- A table that is created with no document. -/
  | create (table : TableDef)
  /-- A table that gets other indexes. -/
  | define (old new : TableDef)

namespace Act

/-- What the act writes. -/
def writes : Act → List (Bytes × Option Record)
  | change c => c.writes
  | create table => Change.tableWrites table
  | define _ new => [(AppKeys.table new.id, some (.table new))]

/-- What the journal says about the act. -/
def records : Act → List WriteRecord
  | change c => [c.record]
  | create _ => []
  | define _ _ => []

/-- The data after the act. -/
def apply (data : Data) (a : Act) : Data := Data.keyed.apply data a.writes

/-- The act is one of this data. A change removes the entries that the document has and
adds those that it gets. -/
def Fits (limits : Limits) (data : Data) : Act → Prop
  | change c => c.Fits data ∧
    (∀ doc ∈ c.old, Docs.indexKeys c.table limits doc = .ok c.removed) ∧
      ∀ doc ∈ c.new, Docs.indexKeys c.table limits doc = .ok c.added
  | create table => table.id.toNat + 1 < 2 ^ 32 ∧ Catalog.nextTable data = .ok table.id ∧
    data[tableName table.name]? = none
  | define old new => new.id = old.id ∧ new.name = old.name ∧
    data[AppKeys.table old.id]? = some (.table old) ∧
      ∀ id : DocId, id.table = old.id → data[document id]? = none

/-- The act leaves the indexes of the tables that exist alone. -/
def KeepsTables : Act → Prop
  | define _ _ => False
  | _ => True

end Act

/-! ### What an act does to a key -/

section Keys

variable {data : Data} {table old new : TableDef}

theorem getElem?_define (key : Bytes) : ((Act.define old new).apply data)[key]? =
    if key = AppKeys.table new.id then some (.table new) else data[key]? := by
  have hset : (Act.define old new).apply data = setKey data (AppKeys.table new.id)
      (some (.table new)) := rfl
  rw [hset, getElem?_setKey]
  simp only [eq_comm]

theorem getElem?_create_table (id : TableId) :
    ((Act.create table).apply data)[AppKeys.table id]? =
      if id = table.id then some (.table table) else data[AppKeys.table id]? :=
  Change.tableWrites_table table id

theorem getElem?_define_table (id : TableId) :
    ((Act.define old new).apply data)[AppKeys.table id]? =
      if id = new.id then some (.table new) else data[AppKeys.table id]? := by
  rw [getElem?_define]
  simp only [table_inj]

theorem getElem?_define_of_kind_ne {kind : UInt8} (h : kind ≠ Kind.table) (name : Bytes) :
    ((Act.define old new).apply data)[AppKeys.catalog kind name]? =
      data[AppKeys.catalog kind name]? := by
  have htable : AppKeys.catalog kind name ≠ AppKeys.table new.id := catalog_kind_ne h _ _
  rw [getElem?_define, if_neg htable]

/-- An act besides a change writes only the catalog. -/
theorem Act.getElem?_of_head?_ne {a : Act} (ha : ∀ c, a ≠ .change c)
    (hkey : key.head? ≠ some Tag.catalog) : (a.apply data)[key]? = data[key]? := by
  cases a with
  | change c => exact (ha c rfl).elim
  | create table =>
    refine (Change.getElem?_tableWrites table).trans ?_
    rw [if_neg, if_neg, if_neg] <;>
    · rintro rfl
      exact hkey rfl
  | define old new =>
    rw [getElem?_define, if_neg]
    rintro rfl
    exact hkey rfl

end Keys

/-! ## Acts keep the data consistent -/

namespace Consistent

variable {limits : Limits} {data : Data} {table old new : TableDef} {a : Act}

section

variable (h : Consistent data)
include h

/-- The table of a stored document stays. -/
theorem keeps_used (hfits : a.Fits limits data) {id : DocId} {r : Record} {t : TableDef}
    (hdoc : data[document id]? = some r)
    (ht : data[AppKeys.table id.table]? = some (.table t)) :
    (a.apply data)[AppKeys.table id.table]? = some (.table t) := by
  cases a with
  | change c => exact h.keeps_table hfits.1 ht
  | create table =>
    rw [getElem?_create_table, if_neg, ht]
    intro heq
    exact UInt32.lt_irrefl _ (h.lt_of_nextTable hfits.2.1 (heq ▸ ht))
  | define old new =>
    rw [getElem?_define_table, if_neg, ht]
    intro heq
    rw [hfits.2.2.2 id (heq.trans hfits.1)] at hdoc
    cases hdoc

theorem owned_act (hfits : a.Fits limits data) (ha : ∀ c, a ≠ .change c) :
    Owned (a.apply data) := by
  intro key r hget hkey
  rw [Act.getElem?_of_head?_ne ha (by rw [hkey]; decide)] at hget
  obtain ⟨doc, t, hdoc, htable, hmem⟩ := h.entries key r hget hkey
  refine ⟨doc, t, ?_, h.keeps_used hfits hdoc htable, hmem⟩
  rw [Act.getElem?_of_head?_ne ha (by rw [head?_document]; decide), hdoc]

theorem create (hfits : (Act.create table).Fits limits data) :
    Consistent ((Act.create table).apply data) := by
  have howned := h.owned_act hfits nofun
  obtain ⟨hbound, hnext, hname⟩ := hfits
  have hbelow : ∀ id r, data[AppKeys.table id]? = some r → id < table.id :=
    fun _ _ => h.lt_of_nextTable hnext
  have hlt := lt_succ_of_bound hbound
  refine h.of_put getElem?_create_table (Change.tableWrites_tableName table) (fun id hid => ?_)
    (fun t ht => ?_) ⟨_, Change.nextTable_tableWrites table, hlt, fun id r hget => ?_⟩ howned
  · rw [hname] at hid
    cases hid
  · exact (UInt32.lt_irrefl _ (hbelow _ _ ht)).elim
  · exact UInt32.lt_trans (hbelow id r hget) hlt

theorem define (hfits : (Act.define old new).Fits limits data) :
    Consistent ((Act.define old new).apply data) := by
  have howned := h.owned_act hfits nofun
  obtain ⟨hid, hname, hold, -⟩ := hfits
  have hnumber : data[tableName new.name]? = some (.number new.id) := by
    obtain ⟨t, ht, -, hnumber⟩ := h.named _ _ hold
    obtain rfl : old = t := Record.table.inj ht
    rw [hname, hid, hnumber]
  refine h.of_put getElem?_define_table (fun name => ?_) (fun id hget => ?_) (fun t ht => ?_) ?_
    howned
  · -- the name stands for the table already
    have hsame : ((Act.define old new).apply data)[tableName name]? =
        data[tableName name]? := getElem?_define_of_kind_ne (by decide) _
    rw [hsame]
    split_ifs with heq
    · rw [heq, hnumber]
    · rfl
  · rw [hnumber] at hget
    exact (Record.number.inj (some.inj hget)).symm
  · rw [hid, hold] at ht
    rw [← Record.table.inj (some.inj ht), hname]
  · obtain ⟨next, hnext, hall⟩ := h.numbered
    refine ⟨next, ?_, hid ▸ hall _ _ hold, hall⟩
    rw [← hnext, Catalog.nextTable, Catalog.nextTable, tableCounter,
      getElem?_define_of_kind_ne (by decide)]

/-- An act that fits keeps the data consistent. -/
theorem act (hfits : a.Fits limits data) : Consistent (a.apply data) := by
  cases a with
  | change c => exact h.apply hfits.1
  | create table => exact h.create hfits
  | define old new => exact h.define hfits

end

end Consistent

/-! ## Acts keep the entries exact -/

namespace Exact

variable {limits : Limits} {data : Data} {c : Change} {a : Act}

section

variable (h : Exact limits data)
include h

/-- The stored entries of a document, with the table that it is in. -/
theorem mem_of_stored {doc : Doc} {t : TableDef} (hdoc : data[document doc.id]? = some doc.record)
    (htable : data[AppKeys.table doc.id.table]? = some (.table t)) (hkey : key ∈ doc.entries t) :
    data[key]? = some .indexEntry := by
  obtain ⟨doc', t', keys, hid, hrecord, htable', hkeys, hall⟩ := h.indexed.complete _ _ hdoc
  obtain rfl : doc' = doc := Doc.eq_of_record hid hrecord.symm
  obtain rfl : t = t' := Record.table.inj (some.inj (htable.symm.trans htable'))
  rw [indexKeys_eq hkeys] at hall
  exact hall key hkey

/-- A change keeps the index entries those of the documents. -/
theorem indexed_change (hfits : (Act.change c).Fits limits data) :
    Indexed limits (c.apply data) := by
  obtain ⟨hfits, -, hnew⟩ := hfits
  refine .of_complete (h.consistent.apply hfits) fun id r hget => ?_
  rw [Change.apply_document] at hget
  split_ifs at hget with hid
  · -- the version that is written
    subst hid
    obtain ⟨doc, hdoc, rfl⟩ := map_eq_some_iff.mp hget
    refine ⟨doc, c.table, c.added, hfits.new_id doc hdoc, rfl, ?_, hnew doc hdoc,
      fun key hkey => ?_⟩
    · rw [hfits.id_table]
      exact Consistent.table_apply hfits
    · rw [Change.apply_index (Change.head?_of_mem_entriesOf hkey), if_pos hkey]
      split_ifs with hremoved
      · -- an entry that the version before had too
        cases hold : c.old with
        | none =>
          rw [Change.removed, hold] at hremoved
          cases hremoved
        | some old =>
          have hstored : data[document old.id]? = some old.record := by
            rw [hfits.old_id old hold, hfits.stored, hold]
            rfl
          obtain ⟨_, t, _, -, -, htable, -⟩ := h.indexed.complete _ _ hstored
          have hexisting : c.table = t := h.consistent.table_unique hfits
            (by rwa [hfits.old_id old hold, hfits.id_table] at htable)
          rw [Change.removed, hold, hexisting] at hremoved
          exact h.mem_of_stored hstored htable hremoved
      · rfl
  · obtain ⟨doc, t, keys, rfl, rfl, htable, hkeys, hall⟩ := h.indexed.complete id r hget
    refine ⟨doc, t, keys, rfl, rfl, h.consistent.keeps_table hfits htable, hkeys,
      fun key hkey => ?_⟩
    have hmem : key ∈ doc.entries t := by
      rw [← indexKeys_eq hkeys]
      exact hkey
    -- entries of another document are not those of this one
    have hother : ∀ version, (∀ d ∈ version, d.id = c.id) →
        key ∉ Change.entriesOf c.table version := by
      intro version hversion hin
      cases version with
      | none => cases hin
      | some d =>
        -- Two documents that share an entry are one.
        exact hid ((docOfIndexEntry_inj hmem (docOfIndexEntry_of_mem hin)).trans (hversion d rfl))
    have hadded : key ∉ c.added := hother _ hfits.new_id
    have hremoved : key ∉ c.removed := hother _ hfits.old_id
    rw [Change.apply_index (head?_of_mem_entries hmem), if_neg hadded, if_neg hremoved]
    exact hall key hkey

/-- An act besides a change keeps the documents, their tables and their entries. -/
theorem indexed_act (hfits : a.Fits limits data) (ha : ∀ c, a ≠ .change c) :
    Indexed limits (a.apply data) := by
  refine .of_complete (h.consistent.act hfits) fun id r hget => ?_
  rw [Act.getElem?_of_head?_ne ha (by rw [head?_document]; decide)] at hget
  obtain ⟨doc, t, keys, hid, hr, htable, hof, hall⟩ := h.indexed.complete id r hget
  refine ⟨doc, t, keys, hid, hr, h.consistent.keeps_used hfits hget htable, hof,
    fun key hkey => ?_⟩
  have hhead : key.head? = some Tag.index := by
    rw [indexKeys_eq hof] at hkey
    exact head?_of_mem_entries hkey
  rw [Act.getElem?_of_head?_ne ha (by rw [hhead]; decide)]
  exact hall key hkey

/-- An act that fits keeps the data exact. -/
theorem apply (hfits : a.Fits limits data) : Exact limits (a.apply data) := by
  refine ⟨h.consistent.act hfits, ?_⟩
  cases a with
  | change c => exact h.indexed_change hfits
  | create table => exact h.indexed_act hfits nofun
  | define old new => exact h.indexed_act hfits nofun

end

end Exact

/-! ## Sequences of acts -/

/-- The acts follow each other on the data. -/
abbrev Acts (limits : Limits) (data : Data) (as : List Act) : Prop :=
  Along Act.apply (fun data a => a.Fits limits data) data as

theorem foldl_act_eq (data : Data) (as : List Act) :
    as.foldl Act.apply data = Data.keyed.apply data (as.flatMap Act.writes) :=
  foldl_flatMap.symm

section Transfer

variable {limits : Limits} {data data' : Data} {as : List Act} {a : Act}

theorem Consistent.foldl_act (h : Consistent data) (has : Acts limits data as) :
    Consistent (as.foldl Act.apply data) :=
  foldl_induction h (fun _ _ hfits h => h.act hfits) has

theorem Exact.foldl (h : Exact limits data) (has : Acts limits data as) :
    Exact limits (as.foldl Act.apply data) :=
  foldl_induction h (fun _ _ hfits h => h.apply hfits) has

/-- Acts that are all changes. -/
theorem Acts.changes {cs : List Change} (has : Acts limits data (cs.map .change)) :
    Changes data cs := by
  induction cs generalizing data with
  | nil => trivial
  | cons c cs ih => exact ⟨has.1.1, ih has.2⟩

theorem Act.create_congr {table : TableDef} (hfits : (Act.create table).Fits limits data)
    (hkeys : ∀ key ∈ (Act.create table).writes.map Prod.fst, data'[key]? = data[key]?) :
    (Act.create table).Fits limits data' := by
  obtain ⟨hbound, hnext, hname⟩ := hfits
  refine ⟨hbound, ?_, ?_⟩
  · rw [← hnext, Catalog.nextTable, Catalog.nextTable,
      hkeys _ (by simp [Act.writes, Change.tableWrites])]
  · rw [← hname, hkeys _ (by simp [Act.writes, Change.tableWrites])]

/-- Whether an act of a mutation fits depends on the keys that it writes and on its
table. -/
theorem Act.Fits.congr (hfits : a.Fits limits data) (hkeeps : a.KeepsTables)
    (hkeys : ∀ key ∈ a.writes.map Prod.fst, data'[key]? = data[key]?)
    (htables : TablesIn data data') : a.Fits limits data' := by
  cases a with
  | change c => exact ⟨hfits.1.congr hkeys htables, hfits.2⟩
  | create table => exact Act.create_congr hfits hkeys
  | define old new => exact hkeeps.elim

theorem TablesIn.act (h : TablesIn data data') (hfits' : a.Fits limits data')
    (hkeeps : a.KeepsTables) (hdata' : Consistent data') :
    TablesIn (a.apply data) (a.apply data') := by
  cases a with
  | change c =>
    intro id t (hget : (c.apply data)[AppKeys.table id]? = _)
    rw [Change.apply_table] at hget
    split_ifs at hget with hnew
    · exact (Change.apply_table id).trans ((if_pos hnew).trans hget)
    · exact hdata'.keeps_table hfits'.1 (h id t hget)
  | create table =>
    intro id t hget
    rw [getElem?_create_table] at hget ⊢
    split_ifs at hget ⊢
    · exact hget
    · exact h id t hget
  | define old new => exact hkeeps.elim

/-- Acts of one data are acts of another that is alike at the keys they write. -/
theorem Acts.congr (has : Acts limits data as) (hdata' : Consistent data')
    (hkeeps : ∀ a ∈ as, a.KeepsTables)
    (hkeys : ∀ a ∈ as, ∀ key ∈ a.writes.map Prod.fst, data'[key]? = data[key]?)
    (htables : TablesIn data data') : Acts limits data' as := by
  induction as generalizing data data' with
  | nil => trivial
  | cons a as ih =>
    have hkeep := hkeeps a mem_cons_self
    have hfits' := has.1.congr hkeep (hkeys a mem_cons_self) htables
    refine ⟨hfits', ih has.2 (hdata'.act hfits') (fun b hb => hkeeps b (mem_cons_of_mem _ hb))
      (fun b hb key hkey => ?_) (htables.act hfits' hkeep hdata')⟩
    exact getElem?_apply_congr (hkeys b (mem_cons_of_mem _ hb) key hkey)

end Transfer

end Loams.Live
