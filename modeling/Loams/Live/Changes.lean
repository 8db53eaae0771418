/-
# The data of an app as a sequence of changes
-/

import Loams.Live.Scans

namespace Loams.Live

open List Loams.Data Loams.Control Loams.Tikv Program AppKeys Catalog

/-- The data as it is read and written key by key. -/
def Data.keyed : Keyed Data Bytes Record := ⟨fun data key => data[key]?, setKey, getElem?_setKey⟩

/-! ## Changes -/

/-- One document before and after a write. -/
structure Change where
  table : TableDef
  /-- The table is created with the document. -/
  creates : Bool
  id : DocId
  kind : WriteKind
  old : Option Doc
  new : Option Doc

namespace Change

/-- The index entries of a version of a document, of which a missing one has none. -/
def entriesOf (table : TableDef) (doc : Option Doc) : List Bytes := doc.elim [] (Doc.entries table)

variable (c : Change)

/-- The entries of the old version. -/
def removed : List Bytes := entriesOf c.table c.old

/-- The entries of the new version. -/
def added : List Bytes := entriesOf c.table c.new

/-- What the journal says about the change. -/
def record : WriteRecord := ⟨c.id, c.kind, c.removed, c.added⟩

/-- A new table: the counter, the name and the definition. -/
def tableWrites (table : TableDef) : List (Bytes × Option Record) :=
  [(tableCounter, some (.number (table.id + 1))),
    (tableName table.name, some (.number table.id)),
    (AppKeys.table table.id, some (.table table))]

/-- The table, if it comes with the document. -/
def catalogWrites : List (Bytes × Option Record) :=
  if c.creates then tableWrites c.table else []

/-- The document, then the entries that it lost and those that are new. -/
def docWrites : List (Bytes × Option Record) :=
  (document c.id, c.new.map Doc.record) ::
    ((c.removed.filter fun key => key ∉ c.added).map (fun key => (key, none)) ++
      (c.added.filter fun key => key ∉ c.removed).map fun key => (key, some .indexEntry))

/-- The catalog first. -/
def writes : List (Bytes × Option Record) := c.catalogWrites ++ c.docWrites

/-- The data after the change. -/
def apply (data : Data) (c : Change) : Data := Data.keyed.apply data c.writes

/-- The change is one of this data: the document it replaces is the stored one, and its
table is there or is the next one. -/
structure Fits (data : Data) (c : Change) : Prop where
  id_table : c.id.table = c.table.id
  old_id : ∀ doc ∈ c.old, doc.id = c.id
  new_id : ∀ doc ∈ c.new, doc.id = c.id
  stored : data[document c.id]? = c.old.map Doc.record
  existing : c.creates = false → data[AppKeys.table c.table.id]? = some (.table c.table)
  created : c.creates = true → c.new.isSome ∧
    c.table = newTable c.table.id c.table.name ∧ c.table.id.toNat + 1 < 2 ^ 32 ∧
      nextTable data = .ok c.table.id ∧ data[tableName c.table.name]? = none

end Change

/-- What readers of the catalog and of the indexes rely on. -/
structure Consistent (data : Data) : Prop where
  numbered : ∃ next, nextTable data = .ok next ∧
    ∀ id r, data[AppKeys.table id]? = some r → id < next
  named : ∀ id r, data[AppKeys.table id]? = some r → ∃ t, r = .table t ∧ t.id = id ∧
    data[tableName t.name]? = some (.number id)
  names : ∀ name r, data[tableName name]? = some r → ∃ t, r = .number t.id ∧
    t.name = name ∧ data[AppKeys.table t.id]? = some (.table t)
  entries : ∀ (key : Bytes) r, data[key]? = some r → key.head? = some Tag.index →
    ∃ (doc : Doc) (t : TableDef), data[document doc.id]? = some doc.record ∧
      data[AppKeys.table doc.id.table]? = some (.table t) ∧ key ∈ doc.entries t

section Lookup

variable {data data' : Data} {key : Bytes} {ws : List (Bytes × Option Record)}

theorem getElem?_apply_of_notMem (h : key ∉ ws.map Prod.fst) :
    (Data.keyed.apply data ws)[key]? = data[key]? := by
  have hget : Data.keyed.get (Data.keyed.apply data ws) key = Data.keyed.get data key :=
    Keyed.get_apply_of_notMem h
  exact hget

theorem getElem?_apply_map (keys : List Bytes) (v : Option Record) :
    (Data.keyed.apply data (keys.map fun key => (key, v)))[key]? =
      if key ∈ keys then v else data[key]? := by
  have hget : Data.keyed.get (Data.keyed.apply data (keys.map fun key => (key, v))) key = _ :=
    Keyed.get_apply_map id v keys
  refine hget.trans ?_
  rw [map_id]
  split_ifs <;> rfl

theorem getElem?_apply_congr (h : data[key]? = data'[key]?) :
    (Data.keyed.apply data ws)[key]? = (Data.keyed.apply data' ws)[key]? := by
  have hget : Data.keyed.get (Data.keyed.apply data ws) key =
      Data.keyed.get (Data.keyed.apply data' ws) key := Keyed.get_apply_congr h ws
  exact hget

end Lookup

/-! ## Keys of different kinds -/

@[simp] theorem head?_document (id : DocId) : (document id).head? = some Tag.document := rfl

variable {table t : TableDef} {doc : Doc} {r : Record}

theorem head?_of_mem_entries {key : Bytes} (h : key ∈ doc.entries table) :
    key.head? = some Tag.index := by
  obtain ⟨i, fields, -, rfl⟩ := mem_entries.mp h
  rfl

theorem document_inj {id id' : DocId} : document id = document id' ↔ id = id' := by
  refine ⟨fun h => ?_, fun h => by rw [h]⟩
  obtain ⟨htable, hbytes⟩ := append_inj (cons.inj h).2 (by simp)
  cases id
  cases id'
  exact congrArg₂ DocId.mk (beBytes_uint32_inj.mp htable) (Vector.toList_inj.mp hbytes)

theorem catalog_kind_ne {kind kind' : UInt8} (h : kind ≠ kind') (name name' : Bytes) :
    AppKeys.catalog kind name ≠ AppKeys.catalog kind' name' :=
  fun heq => h (cons.inj (cons.inj heq).2).1

theorem get_settings {r : Record} {key : Bytes} (h : appDef ≠ key) :
    ((∅ : Data).insert appDef r)[key]? = none := by
  simp [h]

/-- The settings of an app alone are consistent. -/
theorem consistent_settings (r : Record) : Consistent ((∅ : Data).insert appDef r) := by
  have hother : ∀ {kind name}, Kind.app ≠ kind →
      ((∅ : Data).insert appDef r)[AppKeys.catalog kind name]? = none :=
    fun h => get_settings (catalog_kind_ne h _ _)
  refine ⟨⟨1, ?_, fun id r h => ?_⟩, fun id r h => ?_, fun name r h => ?_, fun key r h hkey => ?_⟩
  · rw [nextTable, tableCounter, hother (by decide)]
  · cases (hother (by decide)).symm.trans h
  · cases (hother (by decide)).symm.trans h
  · cases (hother (by decide)).symm.trans h
  · rw [get_settings (by rintro rfl; cases hkey)] at h
    cases h

section Catalog

variable {id id' : TableId} {name name' : String}

@[simp] theorem table_inj : AppKeys.table id = AppKeys.table id' ↔ id = id' := by
  refine ⟨fun h => ?_, fun h => by rw [h]⟩
  exact beBytes_uint32_inj.mp (cons.inj (cons.inj h).2).2

@[simp] theorem tableName_inj : tableName name = tableName name' ↔ name = name' := by
  refine ⟨fun h => ?_, fun h => by rw [h]⟩
  exact utf8_inj.mp (cons.inj (cons.inj h).2).2

@[simp] theorem table_ne_tableName : AppKeys.table id ≠ tableName name :=
  catalog_kind_ne (by decide) _ _

@[simp] theorem table_ne_tableCounter : AppKeys.table id ≠ tableCounter :=
  catalog_kind_ne (by decide) _ _

@[simp] theorem tableName_ne_tableCounter : tableName name ≠ tableCounter :=
  catalog_kind_ne (by decide) _ _

end Catalog

/-- The document that an index entry names. -/
theorem docOfIndexEntry_of_mem {key : Bytes} (h : key ∈ doc.entries table) :
    docOfIndexEntry doc.id.table key = some (doc.id, doc.creationMs.toNat) := by
  obtain ⟨i, fields, -, rfl⟩ := mem_entries.mp h
  exact docOfIndexEntry_indexEntry rfl _ _ _

/-- An index entry names its own document only. -/
theorem docOfIndexEntry_inj {key : Bytes} {t : TableId} {id : DocId} {ms : ℕ}
    (h : key ∈ doc.entries table) (hnames : docOfIndexEntry t key = some (id, ms)) :
    doc.id = id := by
  have hpre : (tableIndexes t).lo <+: key := by
    by_contra hpre
    have hfalse : (tableIndexes t).lo.isPrefixOf key = false := by
      rw [← Bool.not_eq_true, isPrefixOf_iff_prefix]
      exact hpre
    rw [docOfIndexEntry, hfalse] at hnames
    simp at hnames
  have hown : (tableIndexes doc.id.table).lo <+: key := by
    obtain ⟨i, fields, -, rfl⟩ := mem_entries.mp h
    exact (tableIndexes_isPrefix_indexPrefix _ _).trans (prefix_append _ _)
  -- two prefixes of one length
  have heq : (tableIndexes t).lo = (tableIndexes doc.id.table).lo :=
    (prefix_of_prefix_length_le hpre hown (by simp [tableIndexes, prefixRange])).eq_of_length
      (by simp [tableIndexes, prefixRange])
  obtain rfl : t = doc.id.table := beBytes_uint32_inj.mp (cons.inj heq).2
  rw [docOfIndexEntry_of_mem h] at hnames
  exact (Prod.mk.inj (Option.some.inj hnames)).1

theorem Doc.eq_of_record {doc' : Doc} (hid : doc.id = doc'.id) (h : doc.record = doc'.record) :
    doc = doc' := by
  obtain ⟨id, ms, fields⟩ := doc
  obtain ⟨id', ms', fields'⟩ := doc'
  obtain rfl : id = id' := hid
  obtain ⟨rfl, rfl⟩ : ms = ms' ∧ fields = fields' := Record.document.inj h
  rfl

/-! ## What a change does -/

namespace Change

variable {data : Data} {c : Change} {key : Bytes}

theorem head?_of_mem_entriesOf {doc : Option Doc} (h : key ∈ entriesOf table doc) :
    key.head? = some Tag.index := by
  cases doc with
  | none => cases h
  | some doc => exact head?_of_mem_entries h

theorem getElem?_docWrites : (Data.keyed.apply data c.docWrites)[key]? =
    if key ∈ c.added ∧ key ∉ c.removed then some .indexEntry
    else if key ∈ c.removed ∧ key ∉ c.added then none
    else if document c.id = key then c.new.map Doc.record else data[key]? := by
  rw [docWrites, Keyed.apply_cons, Keyed.apply_append, getElem?_apply_map, getElem?_apply_map]
  simp only [mem_filter, decide_eq_true_eq, Data.keyed, getElem?_setKey]

theorem head?_of_mem_catalogWrites (h : key ∈ c.catalogWrites.map Prod.fst) :
    key.head? = some Tag.catalog := by
  unfold catalogWrites at h
  split_ifs at h
  · simp only [tableWrites, map_cons, map_nil, mem_cons, not_mem_nil,
      or_false] at h
    rcases h with rfl | rfl | rfl <;> rfl
  · cases h

/-- A key of the catalog is written only when a table is created. -/
theorem apply_catalog (hkey : key.head? = some Tag.catalog) :
    (c.apply data)[key]? = (Data.keyed.apply data c.catalogWrites)[key]? := by
  have hentry : ∀ doc, key ∉ entriesOf c.table doc := by
    intro doc hmem
    cases hkey.symm.trans (head?_of_mem_entriesOf hmem)
  have hdoc : document c.id ≠ key := by
    rintro rfl
    cases hkey
  rw [apply, writes, Keyed.apply_append, getElem?_docWrites]
  simp [added, removed, hentry, hdoc]

theorem apply_of_head?_ne (hkey : key.head? ≠ some Tag.catalog) :
    (c.apply data)[key]? = (Data.keyed.apply data c.docWrites)[key]? := by
  rw [apply, writes, Keyed.apply_append]
  refine getElem?_apply_congr (getElem?_apply_of_notMem fun hmem => ?_)
  exact hkey (head?_of_mem_catalogWrites hmem)

theorem apply_document (id : DocId) : (c.apply data)[document id]? =
    if id = c.id then c.new.map Doc.record else data[document id]? := by
  have hentry : ∀ doc, document id ∉ entriesOf c.table doc := by
    intro doc hmem
    cases head?_of_mem_entriesOf hmem
  rw [apply_of_head?_ne (by rw [head?_document]; decide), getElem?_docWrites]
  simp [added, removed, hentry, document_inj, eq_comm]

/-- An entry that a document has before and after the change is left alone. -/
theorem apply_index (hkey : key.head? = some Tag.index) : (c.apply data)[key]? =
    if key ∈ c.added then if key ∈ c.removed then data[key]? else some .indexEntry
    else if key ∈ c.removed then none else data[key]? := by
  have hdoc : document c.id ≠ key := by
    rintro rfl
    cases hkey
  rw [apply_of_head?_ne (by rw [hkey]; decide), getElem?_docWrites]
  by_cases hadded : key ∈ c.added <;> by_cases hremoved : key ∈ c.removed <;>
    simp [hadded, hremoved, hdoc]

theorem getElem?_tableWrites (table : TableDef) :
    (Data.keyed.apply data (tableWrites table))[key]? =
      if key = AppKeys.table table.id then some (.table table)
      else if key = tableName table.name then some (.number table.id)
      else if key = tableCounter then some (.number (table.id + 1)) else data[key]? := by
  simp only [tableWrites, Keyed.apply, foldl_cons, foldl_nil, Data.keyed,
    getElem?_setKey, eq_comm]

theorem tableWrites_table (table : TableDef) (id : TableId) :
    (Data.keyed.apply data (tableWrites table))[AppKeys.table id]? =
      if id = table.id then some (.table table) else data[AppKeys.table id]? := by
  simp [getElem?_tableWrites]

theorem tableWrites_tableName (table : TableDef) (name : String) :
    (Data.keyed.apply data (tableWrites table))[tableName name]? =
      if name = table.name then some (.number table.id) else data[tableName name]? := by
  simp [getElem?_tableWrites, table_ne_tableName.symm]

theorem nextTable_tableWrites (table : TableDef) :
    nextTable (Data.keyed.apply data (tableWrites table)) = .ok (table.id + 1) := by
  simp [nextTable, getElem?_tableWrites, table_ne_tableCounter.symm,
    tableName_ne_tableCounter.symm]

theorem apply_table (id : TableId) : (c.apply data)[AppKeys.table id]? =
    if c.creates ∧ id = c.table.id then some (.table c.table) else data[AppKeys.table id]? := by
  rw [apply_catalog rfl, catalogWrites]
  by_cases hcreates : c.creates = true <;> simp [hcreates, tableWrites_table]

theorem apply_tableName (name : String) : (c.apply data)[tableName name]? =
    if c.creates ∧ name = c.table.name then some (.number c.table.id)
    else data[tableName name]? := by
  rw [apply_catalog rfl, catalogWrites]
  by_cases hcreates : c.creates = true <;> simp [hcreates, tableWrites_tableName]

theorem nextTable_apply : nextTable (c.apply data) =
    if c.creates then .ok (c.table.id + 1) else nextTable data := by
  rw [nextTable, apply_catalog rfl, catalogWrites]
  split_ifs
  · exact nextTable_tableWrites c.table
  · rfl

end Change

/-! ## Consistency -/

namespace Consistent

variable {data : Data} {c : Change}

/-- The entries are those of stored documents. -/
def Owned (data : Data) : Prop :=
  ∀ (key : Bytes) r, data[key]? = some r → key.head? = some Tag.index →
    ∃ (doc : Doc) (t : TableDef), data[document doc.id]? = some doc.record ∧
      data[AppKeys.table doc.id.table]? = some (.table t) ∧ key ∈ doc.entries t

/-- A table and its name that are put into the catalog keep it consistent, if the name and
the id were not another table's. -/
theorem of_put {data' : Data} (h : Consistent data)
    (htable : ∀ id, data'[AppKeys.table id]? =
      if id = t.id then some (.table t) else data[AppKeys.table id]?)
    (hname : ∀ name, data'[tableName name]? =
      if name = t.name then some (.number t.id) else data[tableName name]?)
    (hnumber : ∀ id, data[tableName t.name]? = some (.number id) → id = t.id)
    (hold : ∀ old, data[AppKeys.table t.id]? = some (.table old) → old.name = t.name)
    (hnext : ∃ next, nextTable data' = .ok next ∧ t.id < next ∧
      ∀ id r, data[AppKeys.table id]? = some r → id < next)
    (howned : Owned data') : Consistent data' where
  numbered := by
    obtain ⟨next, hnext, hlt, hall⟩ := hnext
    refine ⟨next, hnext, fun id r hget => ?_⟩
    rw [htable] at hget
    split_ifs at hget with hid
    · exact hid ▸ hlt
    · exact hall id r hget
  named := by
    intro id r hget
    rw [htable] at hget
    split_ifs at hget with hid
    · exact ⟨t, (Option.some.inj hget).symm, hid.symm, by rw [hname, if_pos rfl, hid]⟩
    · obtain ⟨t', rfl, rfl, hnamed⟩ := h.named id r hget
      refine ⟨t', rfl, rfl, ?_⟩
      rw [hname, if_neg, hnamed]
      exact fun heq => hid (hnumber _ (heq ▸ hnamed))
  names := by
    intro name r hget
    rw [hname] at hget
    split_ifs at hget with heq
    · exact ⟨t, (Option.some.inj hget).symm, heq.symm, by rw [htable, if_pos rfl]⟩
    · obtain ⟨t', rfl, rfl, ht'⟩ := h.names name r hget
      refine ⟨t', rfl, rfl, ?_⟩
      rw [htable, if_neg, ht']
      exact fun hid => heq (hold _ (hid ▸ ht'))
  entries := howned

theorem lt_of_nextTable (h : Consistent data) {next id : TableId}
    (hnext : nextTable data = .ok next) (hget : data[AppKeys.table id]? = some r) : id < next := by
  obtain ⟨next', hnext', hall⟩ := h.numbered
  obtain rfl : next = next' := Except.ok.inj (hnext.symm.trans hnext')
  exact hall id r hget

theorem lt_succ_of_bound {id : TableId} (hbound : id.toNat + 1 < 2 ^ 32) : id < id + 1 := by
  rw [UInt32.lt_iff_toNat_lt, UInt32.toNat_add]
  exact (Nat.lt_succ_self _).trans_eq (Nat.mod_eq_of_lt hbound).symm

/-- A table that is created is not there yet. -/
theorem getElem?_created (h : Consistent data) (hfits : c.Fits data) (hcreates : c.creates = true) :
    data[AppKeys.table c.table.id]? = none := by
  cases hget : data[AppKeys.table c.table.id]? with
  | none => rfl
  | some r =>
    exact (UInt32.lt_irrefl _ (h.lt_of_nextTable (hfits.created hcreates).2.2.2.1 hget)).elim

/-- Tables stay as they are. -/
theorem keeps_table (h : Consistent data) (hfits : c.Fits data) {id : TableId}
    (hget : data[AppKeys.table id]? = some r) : (c.apply data)[AppKeys.table id]? = some r := by
  rw [Change.apply_table, if_neg, hget]
  rintro ⟨hcreates, rfl⟩
  rw [h.getElem?_created hfits hcreates] at hget
  cases hget

theorem table_apply (hfits : c.Fits data) :
    (c.apply data)[AppKeys.table c.table.id]? = some (.table c.table) := by
  rw [Change.apply_table]
  split_ifs with hcreates
  · rfl
  · exact hfits.existing (by simpa using hcreates)

section

variable (h : Consistent data) (hfits : c.Fits data)
include h hfits

/-- The table of a change is the stored one. -/
theorem table_unique (htable : data[AppKeys.table c.table.id]? = some (.table t)) :
    c.table = t := by
  cases hcreates : c.creates with
  | true =>
    rw [h.getElem?_created hfits hcreates] at htable
    cases htable
  | false =>
    rw [hfits.existing hcreates] at htable
    exact Record.table.inj (Option.some.inj htable)

/-- A change of a document names the entries of the version that it replaces. -/
theorem mem_removed {key : Bytes} (hdoc : data[document doc.id]? = some doc.record)
    (htable : data[AppKeys.table doc.id.table]? = some (.table t)) (hid : doc.id = c.id)
    (hkey : key ∈ doc.entries t) : key ∈ c.removed := by
  have hold : c.old = some doc := by
    have hstored := hfits.stored
    rw [← hid, hdoc] at hstored
    obtain ⟨old, hold, hrecord⟩ := Option.map_eq_some_iff.mp hstored.symm
    rw [hold, Doc.eq_of_record ((hfits.old_id old hold).trans hid.symm) hrecord]
  rw [hid, hfits.id_table] at htable
  rw [Change.removed, hold, h.table_unique hfits htable]
  exact hkey

omit h in
/-- An entry that a change adds is one of the document that it writes. -/
theorem exists_of_mem_added {key : Bytes} (hadded : key ∈ c.added) :
    ∃ doc, c.new = some doc ∧ key ∈ doc.entries c.table ∧
      (c.apply data)[document doc.id]? = some doc.record ∧
      (c.apply data)[AppKeys.table doc.id.table]? = some (.table c.table) := by
  cases hnew : c.new with
  | none =>
    rw [Change.added, hnew] at hadded
    cases hadded
  | some doc =>
    have hid : doc.id = c.id := hfits.new_id doc hnew
    rw [Change.added, hnew] at hadded
    refine ⟨doc, rfl, hadded, ?_, ?_⟩
    · rw [Change.apply_document, if_pos hid, hnew]
      rfl
    · rw [hid, hfits.id_table]
      exact table_apply hfits

/-- Every entry after a change is one of a document that is stored. -/
theorem owned_apply : Owned (c.apply data) := by
  intro key r hget hkey
  rw [Change.apply_index hkey] at hget
  by_cases hadded : key ∈ c.added
  · obtain ⟨doc, -, hmem, hdoc, htable⟩ := exists_of_mem_added hfits hadded
    exact ⟨doc, c.table, hdoc, htable, hmem⟩
  · rw [if_neg hadded] at hget
    split_ifs at hget with hremoved
    obtain ⟨doc, t, hdoc, htable, hmem⟩ := h.entries key r hget hkey
    refine ⟨doc, t, ?_, h.keeps_table hfits htable, hmem⟩
    -- an entry of the version that is replaced would have been removed
    have hid : doc.id ≠ c.id := fun hid => hremoved (h.mem_removed hfits hdoc htable hid hmem)
    rw [Change.apply_document, if_neg hid, hdoc]

/-- A change that fits keeps the data consistent. -/
theorem apply : Consistent (c.apply data) := by
  have hname : data[tableName c.table.name]? =
      if c.creates then none else some (.number c.table.id) := by
    split_ifs with hcreates
    · exact (hfits.created hcreates).2.2.2.2
    · obtain ⟨t, ht, -, hnamed⟩ := h.named _ _ (hfits.existing (by simpa using hcreates))
      obtain rfl : c.table = t := Record.table.inj ht
      exact hnamed
  refine h.of_put (t := c.table) (fun id => ?_) (fun name => ?_) (fun id hid => ?_)
    (fun t ht => ?_) ?_ (h.owned_apply hfits)
  · split_ifs with hid
    · rw [hid, table_apply hfits]
    · rw [Change.apply_table, if_neg fun hnew => hid hnew.2]
  · rw [Change.apply_tableName]
    grind
  · rw [hname] at hid
    grind
  · rw [h.table_unique hfits ht]
  · obtain ⟨next, hnext, hall⟩ := h.numbered
    rw [Change.nextTable_apply]
    cases hcreates : c.creates with
    | true =>
      obtain ⟨-, -, hbound, hid, -⟩ := hfits.created hcreates
      obtain rfl : c.table.id = next := Except.ok.inj (hid.symm.trans hnext)
      have hlt := lt_succ_of_bound hbound
      exact ⟨c.table.id + 1, rfl, hlt, fun id r hget => UInt32.lt_trans (hall id r hget) hlt⟩
    | false => exact ⟨next, hnext, hall _ _ (hfits.existing hcreates), hall⟩

end

end Consistent

/-! ## Sequences of changes -/

/-- The changes follow each other on the data. -/
abbrev Changes (data : Data) (cs : List Change) : Prop :=
  Along Change.apply (fun data c => c.Fits data) data cs

theorem Consistent.foldl {data : Data} {cs : List Change} (h : Consistent data)
    (hcs : Changes data cs) : Consistent (cs.foldl Change.apply data) :=
  foldl_induction h (fun _ _ hfits h => h.apply hfits) hcs

/-- Every table of the first data is one of the second. -/
def TablesIn (data data' : Data) : Prop :=
  ∀ id t, data[AppKeys.table id]? = some (.table t) → data'[AppKeys.table id]? = some (.table t)

/-- Whether a change fits depends on the keys that it writes and on its table. -/
theorem Change.Fits.congr {data data' : Data} {c : Change} (hfits : c.Fits data)
    (hkeys : ∀ key ∈ c.writes.map Prod.fst, data'[key]? = data[key]?)
    (htables : TablesIn data data') : c.Fits data' where
  id_table := hfits.id_table
  old_id := hfits.old_id
  new_id := hfits.new_id
  stored := by
    rw [hkeys _ (by simp [Change.writes, Change.docWrites])]
    exact hfits.stored
  existing := fun hcreates => htables _ _ (hfits.existing hcreates)
  created := fun hcreates => by
    obtain ⟨hnew, htable, hbound, hnext, hname⟩ := hfits.created hcreates
    refine ⟨hnew, htable, hbound, ?_, ?_⟩
    · rw [← hnext, nextTable, nextTable,
        hkeys _ (by simp [Change.writes, Change.catalogWrites, Change.tableWrites, hcreates])]
    · rw [← hname,
        hkeys _ (by simp [Change.writes, Change.catalogWrites, Change.tableWrites, hcreates])]

/-- No key that the record of the change names is covered. -/
def WriteRecord.Avoids (covered : Bytes → Prop) (r : WriteRecord) : Prop :=
  ¬ covered (document r.id) ∧ ∀ key ∈ r.removed ++ r.added, ¬ covered key

namespace Changes

variable {data data' : Data} {cs : List Change} {c : Change} {key : Bytes}

theorem tablesIn (hcs : Changes data cs) (h : Consistent data) :
    TablesIn data (cs.foldl Change.apply data) := by
  intro id t hget
  have hboth : Consistent (cs.foldl Change.apply data) ∧
      (cs.foldl Change.apply data)[AppKeys.table id]? = some (.table t) :=
    foldl_induction (R := fun data => Consistent data ∧ data[AppKeys.table id]? = some (.table t))
      ⟨h, hget⟩ (fun _ _ hfits h => ⟨h.1.apply hfits, h.1.keeps_table hfits h.2⟩) hcs
  exact hboth.2

/-- A table that changes have made has no indexes of its own. -/
theorem table_eq (hcs : Changes data cs) (h : Consistent data) {id : TableId}
    (hget : (cs.foldl Change.apply data)[AppKeys.table id]? = some (.table t)) :
    data[AppKeys.table id]? = some (.table t) ∨
      data[AppKeys.table id]? = none ∧ t = newTable id t.name := by
  induction cs generalizing data with
  | nil => exact .inl hget
  | cons c cs ih =>
    have hrest := ih hcs.2 (h.apply hcs.1) hget
    rw [Change.apply_table] at hrest
    split_ifs at hrest with hnew
    · obtain ⟨hcreates, rfl⟩ := hnew
      obtain rfl : c.table = t := by
        rcases hrest with hrest | ⟨hrest, -⟩
        · exact Record.table.inj (Option.some.inj hrest)
        · cases hrest
      exact .inr ⟨h.getElem?_created hcs.1 hcreates, (hcs.1.created hcreates).2.1⟩
    · exact hrest

/-! ### Changes that avoid what was read -/

variable {covered : Bytes → Prop}

theorem apply_of_avoids (havoids : c.record.Avoids covered) (hkey : covered key)
    (hdata : key.head? ≠ some Tag.catalog) : (c.apply data)[key]? = data[key]? := by
  have hremoved : key ∉ c.removed := fun h => havoids.2 key (mem_append_left _ h) hkey
  have hadded : key ∉ c.added := fun h => havoids.2 key (mem_append_right _ h) hkey
  have hdoc : document c.id ≠ key := by
    rintro rfl
    exact havoids.1 hkey
  rw [Change.apply_of_head?_ne hdata, Change.getElem?_docWrites]
  simp [hremoved, hadded, hdoc]

theorem getElem?_foldl_apply (h : ∀ c ∈ cs, ∀ data, (c.apply data)[key]? = data[key]?) :
    (cs.foldl Change.apply data)[key]? = data[key]? :=
  foldlRecOn cs _ (motive := fun d => d[key]? = data[key]?) rfl fun d hd c hc => (h c hc d).trans hd

/-- A covered document or entry stays as it is. -/
theorem getElem?_of_covered (havoids : ∀ c ∈ cs, c.record.Avoids covered) (hkey : covered key)
    (hdata : key.head? ≠ some Tag.catalog) : (cs.foldl Change.apply data)[key]? = data[key]? :=
  getElem?_foldl_apply fun c hc _ => apply_of_avoids (havoids c hc) hkey hdata

/-- The document that a covered entry names stays as it is: a change of it would name the
entry. -/
theorem document_of_covered (hcs : Changes data cs) (h : Consistent data)
    (havoids : ∀ c ∈ cs, c.record.Avoids covered) (hkey : covered key)
    (hindex : key.head? = some Tag.index) (hget : data[key]? = some r) {t : TableId} {id : DocId}
    {ms : ℕ} (hnames : docOfIndexEntry t key = some (id, ms)) :
    (cs.foldl Change.apply data)[document id]? = data[document id]? := by
  induction cs generalizing data with
  | nil => rfl
  | cons c cs ih =>
    have havoid := havoids c mem_cons_self
    have hget' : (c.apply data)[key]? = some r := by
      rw [apply_of_avoids havoid hkey (by rw [hindex]; decide), hget]
    rw [foldl_cons, ih hcs.2 (h.apply hcs.1) (fun d hd => havoids d (mem_cons_of_mem _ hd))
      hget', Change.apply_document, if_neg]
    rintro rfl
    obtain ⟨doc, t', hdoc, htable, hmem⟩ := h.entries key r hget hindex
    have hremoved := h.mem_removed hcs.1 hdoc htable (docOfIndexEntry_inj hmem hnames) hmem
    exact havoid.2 key (mem_append_left _ hremoved) hkey

/-- The entries of the tables from an id on include those of the table itself. -/
theorem contains_tablesFrom (doc : Doc) :
    (tablesFrom doc.id.table).contains
      (indexEntry IndexId.byCreationTime [] doc.creationMs doc.id) = true := by
  have hpre : (tablesFrom doc.id.table).lo <+:
      indexEntry IndexId.byCreationTime [] doc.creationMs doc.id :=
    (tableIndexes_isPrefix_indexPrefix _ _).trans (prefix_append _ _)
  have hsucc : successor [Tag.index] ≠ [] := successor_tag_ne_nil (by decide) _
  rw [contains_eq_inRange, KeyRange.bounds, tablesFrom, if_neg hsucc, inRange]
  refine Bool.and_eq_true_iff.mpr ⟨isLE_of_isPrefix hpre, beq_iff_eq.mpr ?_⟩
  exact (lt_successor hsucc _).mpr (.inr (List.IsPrefix.trans ⟨_, rfl⟩ hpre))

/-- While the tables to come are covered, none is made. -/
theorem creates_of_covered (hcs : Changes data cs) (havoids : ∀ c ∈ cs, c.record.Avoids covered)
    {next : TableId} (hnext : nextTable data = .ok next)
    (hcovered : ∀ key, (tablesFrom next).contains key = true → covered key) :
    ∀ c ∈ cs, c.creates = false := by
  induction cs generalizing data with
  | nil => simp
  | cons c cs ih =>
    have hcreates : c.creates = false := by
      by_contra hcreates
      rw [Bool.not_eq_false] at hcreates
      obtain ⟨hnew, -, -, hid, -⟩ := hcs.1.created hcreates
      obtain rfl : c.table.id = next := Except.ok.inj (hid.symm.trans hnext)
      obtain ⟨doc, hdoc⟩ := Option.isSome_iff_exists.mp hnew
      have htable : doc.id.table = c.table.id := by rw [hcs.1.new_id doc hdoc, hcs.1.id_table]
      refine (havoids c mem_cons_self).2 _ (mem_append_right _ ?_)
        (hcovered _ (htable ▸ contains_tablesFrom doc))
      simp [Change.record, Change.added, Change.entriesOf, hdoc, Doc.entries]
    have hrest : ∀ d ∈ cs, d.creates = false := by
      refine ih hcs.2 (fun d hd => havoids d (mem_cons_of_mem _ hd)) ?_
      rw [Change.nextTable_apply, hcreates]
      exact hnext
    intro d hd
    rcases mem_cons.mp hd with rfl | hd
    · exact hcreates
    · exact hrest d hd

end Changes

end Loams.Live
