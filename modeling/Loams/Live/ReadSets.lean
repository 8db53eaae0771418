/-
# Read sets are sound
-/

import Loams.Live.Consistency
import Loams.Live.Idempotency

namespace Loams.Live

open Loams.Data Loams.Control Loams.Tikv Program AppKeys Store LiveTxn Docs
open List hiding range mem_range Vector

/-! ## Scans that find the same keys -/

variable {pair : Bytes × Record}

namespace Order

/-- Whether a read in this direction meets the first key before the second. -/
def Before : Order → Key → Key → Prop
  | .asc, a, b => a < b
  | .desc, a, b => b < a

variable {order : Order} {a b c : Key}

theorem Before.trans (h : order.Before a b) (h' : order.Before b c) : order.Before a c := by
  cases order with
  | asc => exact lt_trans h h'
  | desc => exact lt_trans h' h

theorem not_before_self : ¬ order.Before a a := by
  cases order with
  | asc => exact lt_irrefl a
  | desc => exact lt_irrefl a

/-- The pairs in the direction of the read. -/
def directed (order : Order) (pairs : List (Bytes × Record)) : List (Bytes × Record) :=
  match order with
  | .asc => pairs
  | .desc => pairs.reverse

theorem pairwise_directed (order : Order) (data : Data) (lo : Bytes) (hi : Option Bytes) :
    (order.directed (Loams.Data.range data lo hi)).Pairwise fun p q => order.Before p.1 q.1 := by
  have hord := (range_pairwise data lo hi).imp fun {p q} h => lt_iff_compare.mpr h
  cases order with
  | asc => exact hord
  | desc => exact pairwise_reverse.mpr hord

theorem filter_directed (order : Order) (p : Bytes × Record → Bool) (l : List (Bytes × Record)) :
    (order.directed l).filter p = order.directed (l.filter p) := by
  cases order with
  | asc => rfl
  | desc => exact filter_reverse

theorem mem_directed {l : List (Bytes × Record)} : pair ∈ order.directed l ↔ pair ∈ l := by
  cases order with
  | asc => rfl
  | desc => exact mem_reverse

end Order

theorem pairs_eq_directed (data : Data) (keys : KeyRange) (fetch : ℕ) (order : Order) :
    Docs.pairs data keys fetch order =
      (order.directed (Loams.Data.range data keys.bounds.1 keys.bounds.2)).take fetch := by
  cases order <;> rfl

section ScanCongr

variable {text : IdText} {data data' : Data} {keys read : KeyRange} {range : IndexRange}
  {limits : Limits} {t : TableDef} {docs : List Doc} {last : Bytes × Record}

/-- A read that fills its limit depends on its range up to the last key that it met. -/
theorem contains_readRange {found : List (Bytes × Record)}
    (hlast : found.getLast? = some last) (hfilled : range.limit = some found.length)
    (hin : keys.contains last.1 = true) (key : Bytes) :
    (readRange keys range found).contains key = true ↔
      keys.contains key = true ∧ ¬ range.order.Before last.1 key := by
  obtain ⟨last, r⟩ := last
  rw [readRange, hlast]
  simp only [if_pos hfilled]
  simp only [KeyRange.contains, Bool.and_eq_true, Bool.or_eq_true, decide_eq_true_eq] at hin ⊢
  cases range.order with
  | asc =>
    have hafter : key < keyAfter last ↔ ¬ last < key := by
      rw [lt_iff_compare, not_lt, le_iff_compare]
      exact lt_after
    have hne : (keyAfter last).isEmpty = false := by simp [keyAfter]
    simp only [Order.Before, hne, Bool.false_eq_true, false_or, hafter, not_lt]
    constructor
    · rintro ⟨hlo, hle⟩
      exact ⟨⟨hlo, hin.2.imp_right hle.trans_lt⟩, hle⟩
    · exact fun h => ⟨h.1.1, h.2⟩
  | desc =>
    simp only [Order.Before, not_lt]
    constructor
    · rintro ⟨hle, hhi⟩
      exact ⟨⟨hin.1.trans hle, hhi⟩, hle⟩
    · exact fun h => ⟨h.2, h.1.2⟩

section Found

variable {fetch : ℕ} {found : List (Bytes × Record)}
  (hfound : found = Docs.pairs data keys fetch range.order)

include hfound

theorem contains_of_mem_found (h : pair ∈ found) :
    keys.contains pair.1 = true ∧ data[pair.1]? = some pair.2 := by
  rw [hfound, pairs_eq_directed] at h
  have hmem := mem_range.mp (Order.mem_directed.mp (mem_of_mem_take h))
  exact ⟨(contains_eq_inRange _ _).trans hmem.2, hmem.1⟩

theorem readRange_cases : readRange keys range found = keys ∨
    ∃ last, found.getLast? = some last ∧ range.limit = some found.length ∧
      ∀ key, (readRange keys range found).contains key = true ↔
        keys.contains key = true ∧ ¬ range.order.Before last.1 key := by
  rcases hlast : found.getLast? with _ | last
  · exact .inl (by rw [readRange, hlast])
  · by_cases hfilled : range.limit = some found.length
    · exact .inr ⟨last, rfl, hfilled, contains_readRange hlast hfilled
        (contains_of_mem_found hfound (mem_of_getLast? hlast)).1⟩
    · exact .inl (by rw [readRange, hlast]; exact if_neg hfilled)

/-- The last key of a read is the last that the read met. -/
theorem not_before_of_mem_found (hlast : found.getLast? = some last) (h : pair ∈ found) :
    ¬ range.order.Before last.1 pair.1 := by
  have hord : found.Pairwise fun p q => range.order.Before p.1 q.1 := by
    rw [hfound, pairs_eq_directed]
    exact (range.order.pairwise_directed _ _ _).sublist (take_sublist _ _)
  obtain ⟨front, rfl⟩ := getLast?_eq_some_iff.mp hlast
  rcases mem_concat.mp h with h | rfl
  · have hbefore := (pairwise_concat.mp hord).2 pair h
    exact fun hlater => Order.not_before_self (hbefore.trans hlater)
  · exact Order.not_before_self

theorem contains_readRange_of_mem (h : pair ∈ found) :
    (readRange keys range found).contains pair.1 = true := by
  have hin := (contains_of_mem_found hfound h).1
  rcases readRange_cases hfound with heq | ⟨last, hlast, -, hcontains⟩
  · rwa [heq]
  · exact (hcontains _).mpr ⟨hin, not_before_of_mem_found hfound hlast h⟩

/-- A read finds the same pairs in data that is alike at the keys that it depends on. -/
theorem pairs_congr (hfetch : range.limit.getD fetch = fetch)
    (hkeys : ∀ key, (readRange keys range found).contains key = true →
      data[key]? = data'[key]?) : Docs.pairs data' keys fetch range.order = found := by
  have hlist := hfound
  rw [pairs_eq_directed] at hlist
  rcases readRange_cases hfound with heq | ⟨last, hlast, hfilled, hcontains⟩
  · -- the whole range is alike
    have hrange : Loams.Data.range data' keys.bounds.1 keys.bounds.2 =
        Loams.Data.range data keys.bounds.1 keys.bounds.2 := by
      refine range_eq_of_mem_iff (range_pairwise _ _ _) fun key r => ?_
      rw [mem_range]
      refine and_congr_left fun hin => ?_
      rw [hkeys key (by rw [heq, contains_eq_inRange, hin])]
    rw [hlist, pairs_eq_directed, hrange]
  · have hlen : fetch = found.length := by
      rw [← hfetch, hfilled]
      rfl
    have hin_range : ∀ {store : Data} {pair : Bytes × Record},
        pair ∈ range.order.directed (Loams.Data.range store keys.bounds.1 keys.bounds.2) →
          keys.contains pair.1 = true := by
      intro store pair h
      exact (contains_eq_inRange _ _).trans (mem_range.mp (Order.mem_directed.mp h)).2
    rw [pairs_eq_directed, hlist]
    -- what the read depends on is the front of the range in its direction
    refine take_eq_of_filter_eq (p := fun pair =>
      (readRange keys range found).contains pair.1) ?_ ?_ ?_ ?_ ?_
    · refine (range.order.pairwise_directed data' _ _).imp_of_mem fun {p q} hp _ hbefore hq => ?_
      rw [hcontains] at hq ⊢
      exact ⟨hin_range hp, fun hlater => hq.2 (hlater.trans hbefore)⟩
    · rw [← hlist, hlen]
    · intro pair hpair
      exact contains_readRange_of_mem hfound (by rwa [hlist])
    · intro pair hpair hcontained
      have hord := range.order.pairwise_directed data keys.bounds.1 keys.bounds.2
      rw [← take_append_drop fetch (range.order.directed _), pairwise_append, ← hlist]
        at hord
      exact ((hcontains _).mp hcontained).2
        (hord.2.2 last (mem_of_getLast? hlast) pair hpair)
    · rw [Order.filter_directed, Order.filter_directed,
        filter_range_congr fun key _ h => hkeys key h]

end Found

/-- The keys of a range depend on the id and the indexes of the table, not on its name. -/
theorem indexKeyRange_congr {t' : TableDef} (hid : t'.id = t.id) (hindexes : t'.indexes = t.indexes)
    (h : indexKeyRange text t range = .ok keys) : indexKeyRange text t' range = .ok keys := by
  have hfields : t'.indexFields = t.indexFields := by
    funext index
    rw [TableDef.indexFields, TableDef.indexFields, hindexes]
  have hnames : IndexRange.NamesDoc text t' = IndexRange.NamesDoc text t := by
    funext v
    rw [IndexRange.NamesDoc, IndexRange.NamesDoc, hid]
  have hvalid := valid_of_indexKeyRange h
  have hvalid' : range.Valid text t' :=
    ⟨by rw [hid]; exact hvalid.on_table, by rw [hnames]; exact hvalid.by_id,
      by rw [hfields]; exact hvalid.by_fields⟩
  by_cases hindex : range.index = IndexId.byId
  · obtain ⟨-, rfl⟩ := (indexKeyRange_byId_eq_ok hindex).mp h
    exact (indexKeyRange_byId_eq_ok hindex).mpr ⟨hvalid', by rw [idKeys, idKeys, hid]⟩
  · obtain ⟨fields, hget, -⟩ := hvalid.by_fields hindex
    obtain ⟨-, rfl⟩ := (indexKeyRange_eq_ok hindex hget).mp h
    refine (indexKeyRange_eq_ok hindex (by rw [hfields, hget])).mpr ⟨hvalid', ?_⟩
    rw [rangeKeys, rangeKeys, rangeBase, rangeBase, hid]

/-- A scan that succeeds gives the same on data that is alike at the keys it depends on and
at the documents that its entries name. -/
theorem scan_congr {t' : TableDef} (hid : t'.id = t.id) (hindexes : t'.indexes = t.indexes)
    (h : Docs.scan text data t range limits = .ok (docs, read))
    (hkeys : ∀ key, read.contains key = true → data[key]? = data'[key]?) (hdocs : range.index ≠
    IndexId.byId → ∀ key r id ms, read.contains key = true → data[key]? = some r →
    docOfIndexEntry t.id key = some (id, ms) → data[document id]? =
    data'[document id]?) : Docs.scan text data' t' range limits = .ok (docs, read) := by
  obtain ⟨keys, found, hrange, hmax, hfound, hcount, hdoc, rfl⟩ := scan_eq_ok.mp h
  have hfetch : range.limit.getD (range.limit.getD (limits.maxScannedDocs + 1)) =
      range.limit.getD (limits.maxScannedDocs + 1) := by cases range.limit <;> rfl
  refine scan_eq_ok.mpr ⟨keys, found, indexKeyRange_congr hid hindexes hrange, hmax,
    (pairs_congr hfound hfetch hkeys).symm, hcount, ?_, rfl⟩
  rw [mapM_eq_ok] at hdoc ⊢
  refine ((forall₂_and_left found docs).mpr ⟨fun pair hpair => hpair, hdoc⟩).imp ?_
  rintro pair doc ⟨hpair, hdoc⟩
  rw [← hdoc, docOf, docOf, hid]
  by_cases hindex : range.index = IndexId.byId
  · rw [if_pos hindex, if_pos hindex]
  · rw [if_neg hindex, if_neg hindex]
    -- the entry is one that the read depends on, so its document is alike
    cases hnames : docOfIndexEntry t.id pair.1 with
    | none => rfl
    | some named =>
      have hin := contains_readRange_of_mem hfound hpair
      have hget := (contains_of_mem_found hfound hpair).2
      dsimp only
      rw [hdocs hindex pair.1 pair.2 named.1 named.2 hin hget hnames]

/-- The keys that a read depends on are documents or index entries. -/
theorem head?_of_scan (h : Docs.scan text data t range limits = .ok (docs, read)) {key : Bytes}
    (hkey : read.contains key = true) :
    key.head? = some (if range.index = IndexId.byId then Tag.document else Tag.index) := by
  obtain ⟨keys, found, hrange, -, hfound, -, -, rfl⟩ := scan_eq_ok.mp h
  have hin : keys.contains key = true := by
    rcases readRange_cases hfound with heq | ⟨last, -, -, hcontains⟩
    · rwa [heq] at hkey
    · exact ((hcontains key).mp hkey).1
  by_cases hindex : range.index = IndexId.byId
  · obtain ⟨-, rfl⟩ := (indexKeyRange_byId_eq_ok hindex).mp hrange
    obtain ⟨u, rfl, -⟩ := contains_idKeys_iff.mp hin
    rw [if_pos hindex]
    rfl
  · obtain ⟨fields, hget, -⟩ := (valid_of_indexKeyRange hrange).by_fields hindex
    obtain ⟨-, rfl⟩ := (indexKeyRange_eq_ok hindex hget).mp hrange
    obtain ⟨rest, rfl⟩ := indexPrefix_isPrefix_of_contains hin
    rw [if_neg hindex]
    rfl

end ScanCongr

/-! ## Query functions -/

/-- A query function: it reads, goes on with what it found, and ends with the first error
of a read. -/
inductive Query
  | done (result : Except LiveError LiveValue)
  | get (id : DocId) (next : Option Doc → Query)
  | query (range : IndexRange) (next : List Doc → Query)
  | table (name : String) (next : Option TableDef → Query)

/-- A read and its answer. -/
inductive Reply
  | get (id : DocId) (found : Option Doc)
  | query (range : IndexRange) (found : List Doc)
  | table (name : String) (found : Option TableDef)

/-- What a run of a query returns. -/
structure Queried where
  result : LiveValue
  usage : Usage
  readSet : ReadSet

namespace Query

/-- Goes on with the answer of a read, or ends with its error. -/
def orError {α : Type} (next : α → Body) : Except LiveError α → Body
  | .ok a => next a
  | .error e => .done (.error e)

/-- The query as a function that writes nothing. -/
def toBody : Query → Body
  | .done result => .done result
  | .get id next => .get id (orError fun a => (next a).toBody)
  | .query range next => .query range (orError fun a => (next a).toBody)
  | .table name next => .table name (orError fun a => (next a).toBody)

variable (app : App)

/-- The reads of a run from a state, with their answers. -/
def replies : Query → LiveTxn → List Reply
  | .done _, _ => []
  | .get id next, s =>
    match (LiveTxn.get app id).exec s with
    | (.ok found, s') => .get id found :: (next found).replies s'
    | (.error _, _) => []
  | .query range next, s =>
    match (LiveTxn.query app range).exec s with
    | (.ok found, s') => .query range found :: (next found).replies s'
    | (.error _, _) => []
  | .table name next, s =>
    match (LiveTxn.table name).exec s with
    | (.ok found, s') => .table name found :: (next found).replies s'
    | (.error _, _) => []

/-- A query draws no ids. -/
def noDraws : ℕ → Option (Vector UInt8 16) := fun _ => none

/-- Runs a query on the snapshot of a timestamp. -/
def run (q : Query) (ts : Timestamp) (snapshot : Store) : Except LiveError Queried :=
  match (q.toBody.run app noDraws).exec (.forQuery ts snapshot) with
  | (.ok result, s) => .ok ⟨result, s.usage, s.readSet⟩
  | (.error e, _) => .error e

section Steps

variable {app} {α : Type} {p : LiveM α} {next : α → Query} {s s' : LiveTxn}

/-- A read, then the rest of the query unless the read failed. -/
def andThen (app : App) (p : LiveM α) (next : α → Query) : LiveM LiveValue :=
  Body.andThen p fun r => (orError (fun a => (next a).toBody) r).run app noDraws

/-- A query ends at a read that fails. -/
theorem exec_andThen (app : App) (p : LiveM α) (next : α → Query) (s : LiveTxn) :
    (andThen app p next).exec s = (p >>= fun a => (next a).toBody.run app noDraws).exec s := by
  change ((orError (fun a => (next a).toBody) (p.exec s).1).run app noDraws).exec (p.exec s).2 = _
  rw [exec_bind]
  rcases p.exec s with ⟨e | a, s₁⟩
  · rfl
  · rfl

theorem andThen_eq_ok {result : LiveValue} : (andThen app p next).exec s = (.ok result, s') ↔
    ∃ a s₁, p.exec s = (.ok a, s₁) ∧
      ((next a).toBody.run app noDraws).exec s₁ = (.ok result, s') := by
  rw [exec_andThen, exec_bind_ok]

theorem onlyReads_andThen (hp : Moves OnlyReads p)
    (hnext : ∀ a, Moves OnlyReads ((next a).toBody.run app noDraws)) :
    Moves OnlyReads (andThen app p next) := by
  intro s
  rw [exec_andThen]
  exact hp.bind hnext s

end Steps

theorem run_onlyReads (q : Query) : Moves OnlyReads (q.toBody.run app noDraws) := by
  induction q with
  | done result => exact moves_ofExcept _
  | get id next ih => exact onlyReads_andThen (get_onlyReads app id) ih
  | query range next ih => exact onlyReads_andThen (query_onlyReads app range) ih
  | table name next ih => exact onlyReads_andThen (table_onlyReads name) ih

end Query

/-! ## Two runs of a query -/

theorem ReadSet.Within.covers {rs rs' : ReadSet} (h : rs.Within rs') {key : Bytes}
    (hkey : rs.covers key = true) : rs'.covers key = true := by
  simp only [ReadSet.covers, Bool.or_eq_true, contains_iff_mem, any_eq_true] at hkey ⊢
  rcases hkey with hkey | ⟨range, hrange, hin⟩
  · exact .inl (h.points hkey)
  · exact .inr ⟨range, h.ranges hrange, hin⟩

/-- Two runs that have read the same, one on the data before the changes and one on the
data after them. -/
structure Beside (data : Data) (cs : List Change) (s s' : LiveTxn) : Prop where
  data_eq : s.data = data
  data_eq' : s'.data = cs.foldl Change.apply data
  coherent : s.Coherent
  coherent' : s'.Coherent
  usage : s'.usage = s.usage
  readSet : s'.readSet = s.readSet

section Simulation

variable {app : App} {data : Data} {cs : List Change} {s s' s₁ s₁' : LiveTxn} {rs : ReadSet}

/-- Reads with the same answer that add the same to the usage and the read set keep the runs
beside each other. -/
theorem Beside.reads {α : Type} {p : LiveM α} {found : α}
    (h : Beside data cs s s') (hdata : Consistent data) (hcs : Changes data cs)
    (hp : Moves OnlyReads p) (hexec : p.exec s = (.ok found, s₁))
    (hexec' : p.exec s' = (.ok found, s₁')) (husage : s₁'.usage = s₁.usage)
    (hreadSet : s₁'.readSet = s₁.readSet) :
    ∃ s₁', p.exec s' = (.ok found, s₁') ∧ Beside data cs s₁ s₁' := by
  have hs := hp s
  have hs' := hp s'
  rw [hexec] at hs
  rw [hexec'] at hs'
  refine ⟨s₁', hexec', ?_, ?_, hs.coherent h.coherent (by rwa [h.data_eq]),
    hs'.coherent h.coherent' (by rw [h.data_eq']; exact hdata.foldl hcs), husage, hreadSet⟩
  · rw [← h.data_eq, LiveTxn.data, hs.view, LiveTxn.data]
  · rw [← h.data_eq', LiveTxn.data, hs'.view, LiveTxn.data]

/-- A table that the data has, it has after the changes; one that it does not have may have
been made, without indexes of its own. -/
theorem tableOf_congr (hdata : Consistent data) (hcs : Changes data cs) {range : IndexRange}
    {found found' : Option TableDef} (hload : Catalog.loadTableById data range.table = .ok found)
    (hload' : Catalog.loadTableById (cs.foldl Change.apply data) range.table = .ok found') :
    (tableOf range found').id = (tableOf range found).id ∧
      (tableOf range found').indexes = (tableOf range found).indexes := by
  cases found with
  | some t =>
    have hget := hcs.tablesIn hdata _ _ (loadTableById_eq_some hload)
    rw [Catalog.loadTableById, hget] at hload'
    obtain rfl : some t = found' := Except.ok.inj hload'
    exact ⟨rfl, rfl⟩
  | none =>
    cases found' with
    | none => exact ⟨rfl, rfl⟩
    | some t' =>
      rcases hcs.table_eq hdata (loadTableById_eq_some hload') with hget | ⟨-, hnew⟩
      · rw [Catalog.loadTableById, hget] at hload
        cases Except.ok.inj hload
      · rw [hnew]
        exact ⟨rfl, rfl⟩

variable (hdata : Consistent data) (hcs : Changes data cs)
  (havoids : ∀ c ∈ cs, c.record.Avoids fun key => rs.covers key = true)

include hdata hcs havoids

section

variable (h : Beside data cs s s')
include h

/-- A document that was read by id is the same after the changes. -/
theorem Beside.get {id : DocId} {found : Option Doc}
    (hget : (LiveTxn.get app id).exec s = (.ok found, s₁)) (hrs : s₁.readSet.Within rs) :
    ∃ s₁', (LiveTxn.get app id).exec s' = (.ok found, s₁') ∧ Beside data cs s₁ s₁' := by
  obtain ⟨hcount, hfound, rfl⟩ := get_eq_ok.mp hget
  have hcovered : rs.covers (document id) = true := by
    refine hrs.covers ?_
    have hpoint : document id ∈ (afterGet id s).readSet.points := by
      simp only [afterGet, addPoint]
      split_ifs with hmem
      · exact hmem
      · simp
    simp [ReadSet.covers, hpoint]
  have hsame : s'.data[document id]? = s.data[document id]? := by
    rw [h.data_eq, h.data_eq']
    exact Changes.getElem?_of_covered havoids hcovered (by rw [head?_document]; decide)
  have hget' : (LiveTxn.get app id).exec s' = (.ok found, afterGet id s') := by
    refine get_eq_ok.mpr ⟨by rw [h.usage]; exact hcount, ?_, rfl⟩
    rw [← hfound, Docs.get, Docs.get, hsame]
  refine h.reads hdata hcs (get_onlyReads app id) hget hget' ?_ ?_
  · simp [afterGet, addPoint, counted, h.usage]
  · simp [afterGet, addPoint, counted, h.readSet]

/-- A range that was read lists the same documents after the changes. -/
theorem Beside.query {range : IndexRange} {found : List Doc}
    (hquery : (LiveTxn.query app range).exec s = (.ok found, s₁)) (hrs : s₁.readSet.Within rs) :
    ∃ s₁', (LiveTxn.query app range).exec s' = (.ok found, s₁') ∧ Beside data cs s₁ s₁' := by
  have hdata' : Consistent (cs.foldl Change.apply data) := hdata.foldl hcs
  obtain ⟨t, tables, names, hload, -, hiff⟩ :=
    query_eq_ok app h.coherent (by rwa [h.data_eq]) range
  obtain ⟨t', tables', names', hload', -, hiff'⟩ :=
    query_eq_ok app h.coherent' (by rwa [h.data_eq']) range
  rw [h.data_eq] at hload hiff
  rw [h.data_eq'] at hload' hiff'
  obtain ⟨hranges, read, hscan, hcount, rfl⟩ := (hiff found s₁).mp hquery
  obtain ⟨hid, hindexes⟩ := tableOf_congr hdata hcs hload hload'
  have hcovered : ∀ key, read.contains key = true → rs.covers key = true := by
    intro key hkey
    refine hrs.covers ?_
    simp [ReadSet.covers, afterQuery, addRange, hkey]
  have hscan' : Docs.scan app.text (cs.foldl Change.apply data) (tableOf range t') range
      (scanLimits app s') = .ok (found, read) := by
    rw [scanLimits, h.usage]
    refine scan_congr hid hindexes hscan (fun key hkey => ?_)
      fun hindex key r id ms hkey hget hnames => ?_
    · refine (Changes.getElem?_of_covered havoids (hcovered key hkey) ?_).symm
      rw [head?_of_scan hscan hkey]
      split_ifs <;> decide
    · refine (hcs.document_of_covered hdata havoids (hcovered key hkey) ?_ hget hnames).symm
      rw [head?_of_scan hscan hkey, if_neg hindex]
  have hquery' := (hiff' found _).mpr ⟨by rw [h.usage]; exact hranges, read, hscan',
    by rw [h.usage]; exact hcount, rfl⟩
  refine h.reads hdata hcs (query_onlyReads app range) hquery hquery' ?_ ?_
  · simp [afterQuery, addRange, counted, countedRange,
      caching, h.usage]
  · simp [afterQuery, addRange, counted, countedRange,
      caching, h.readSet]

/-- A table that was looked up is there or missing as before. -/
theorem Beside.table {name : String} {found : Option TableDef}
    (htable : (LiveTxn.table name).exec s = (.ok found, s₁)) (hrs : s₁.readSet.Within rs) :
    ∃ s₁', (LiveTxn.table name).exec s' = (.ok found, s₁') ∧ Beside data cs s₁ s₁' := by
  have hdata' : Consistent (cs.foldl Change.apply data) := hdata.foldl hcs
  have hs : Consistent s.data := by rwa [h.data_eq]
  have hs' : Consistent s'.data := by rwa [h.data_eq']
  rcases hs.loadTable_eq name with ⟨-, hload⟩ | ⟨t, hname, hget, hload⟩
  · -- a missing table: the tables to come are covered, so none was made
    obtain ⟨next, hnext, -⟩ := hs.numbered
    have hexec := table_exec_none h.coherent hs hload hnext
    obtain ⟨rfl, rfl⟩ : none = found ∧ _ = s₁ := by simpa using hexec.symm.trans htable
    have hcovered : ∀ key, (tablesFrom next).contains key = true → rs.covers key = true := by
      intro key hkey
      refine hrs.covers ?_
      simp [ReadSet.covers, addRange, hkey]
    have hcreates := hcs.creates_of_covered havoids (by rw [← h.data_eq]; exact hnext) hcovered
    have hcatalog : ∀ key : Bytes, key.head? = some Tag.catalog → s'.data[key]? = s.data[key]? := by
      intro key hkey
      rw [h.data_eq, h.data_eq']
      -- Without new tables the catalog stays as it is.
      refine Changes.getElem?_foldl_apply fun c hc data => ?_
      rw [Change.apply_catalog hkey, Change.catalogWrites, hcreates c hc]
      rfl
    have hload' : Catalog.loadTable s'.data name = .ok none := by
      rcases hs'.loadTable_eq name with ⟨-, hload'⟩ | ⟨t, rfl, hget', -⟩
      · exact hload'
      · rw [hcatalog _ rfl] at hget'
        rw [hs.loadTable_of_table hget'] at hload
        cases hload
    have hnext' : Catalog.nextTable s'.data = .ok next := by
      rw [← hnext, Catalog.nextTable, Catalog.nextTable, hcatalog _ rfl]
    have hexec' := table_exec_none h.coherent' hs' hload' hnext'
    refine h.reads hdata hcs (table_onlyReads name) htable hexec' h.usage ?_
    simp [addRange, h.readSet]
  · obtain ⟨tables, names, hexec, -⟩ := table_exec_some h.coherent hs hload
    obtain ⟨rfl, rfl⟩ : some t = found ∧ _ = s₁ := by simpa using hexec.symm.trans htable
    have hget' : s'.data[AppKeys.table t.id]? = some (.table t) := by
      rw [h.data_eq']
      exact hcs.tablesIn hdata _ _ (by rw [← h.data_eq]; exact hget)
    have hload' : Catalog.loadTable s'.data name = .ok (some t) := by
      rw [← hname]
      exact hs'.loadTable_of_table hget'
    obtain ⟨tables', names', hexec', -⟩ := table_exec_some h.coherent' hs' hload'
    exact h.reads hdata hcs (table_onlyReads name) htable hexec' h.usage h.readSet

/-- The whole query runs the same after the changes. -/
theorem Beside.run {q : Query} {result : LiveValue}
    (hrun : (q.toBody.run app Query.noDraws).exec s = (.ok result, s₁))
    (hrs : s₁.readSet.Within rs) :
    ∃ s₁', (q.toBody.run app Query.noDraws).exec s' = (.ok result, s₁') ∧ Beside data cs s₁ s₁' ∧
      q.replies app s' = q.replies app s := by
  have hlater : ∀ {q : Query} {s s₁ : LiveTxn},
      (q.toBody.run app Query.noDraws).exec s = (.ok result, s₁) → s.readSet.Within s₁.readSet := by
    intro q s s₁ hrun
    have hreads := q.run_onlyReads app s
    rw [hrun] at hreads
    exact hreads.within
  induction q generalizing s s' with
  | done r =>
    obtain ⟨rfl, rfl⟩ := Prod.mk.inj hrun
    exact ⟨s', rfl, h, rfl⟩
  | get id next ih =>
    obtain ⟨found, s₂, hget, hrest⟩ := Query.andThen_eq_ok.mp hrun
    obtain ⟨s₂', hget', hbeside⟩ := h.get hdata hcs havoids hget ((hlater hrest).trans hrs)
    obtain ⟨s₁', hrest', hend, hreplies⟩ := ih found hbeside hrest
    refine ⟨s₁', Query.andThen_eq_ok.mpr ⟨found, s₂', hget', hrest'⟩, hend, ?_⟩
    simp only [Query.replies, hget, hget', hreplies]
  | query range next ih =>
    obtain ⟨found, s₂, hquery, hrest⟩ := Query.andThen_eq_ok.mp hrun
    obtain ⟨s₂', hquery', hbeside⟩ := h.query hdata hcs havoids hquery ((hlater hrest).trans hrs)
    obtain ⟨s₁', hrest', hend, hreplies⟩ := ih found hbeside hrest
    refine ⟨s₁', Query.andThen_eq_ok.mpr ⟨found, s₂', hquery', hrest'⟩, hend, ?_⟩
    simp only [Query.replies, hquery, hquery', hreplies]
  | table name next ih =>
    obtain ⟨found, s₂, htable, hrest⟩ := Query.andThen_eq_ok.mp hrun
    obtain ⟨s₂', htable', hbeside⟩ := h.table hdata hcs havoids htable ((hlater hrest).trans hrs)
    obtain ⟨s₁', hrest', hend, hreplies⟩ := ih found hbeside hrest
    refine ⟨s₁', Query.andThen_eq_ok.mpr ⟨found, s₂', htable', hrest'⟩, hend, ?_⟩
    simp only [Query.replies, htable, htable', hreplies]

end

end Simulation

/-! ## Read sets -/

section ReadSets

variable {app : App} {options : RunnerOptions} {shards : ℕ} {init : Store} {h : List AppCommit}

/-- From one snapshot to a later one the data goes through the changes of the commits in
between. -/
theorem evolves_snapshot
    (hh : History keyed Effect.written (Tx.run app options shards) init h)
    (hinit : Consistent init.data) (hjournaled : JournaledHistory app init h) {ts ts' : Timestamp}
    (hts : ts ≤ ts') : Consistent (keyed.snapshot init h ts).data ∧ ∃ records,
      (∀ w ∈ records, ∃ c ∈ h, ts < c.ts ∧ c.ts ≤ ts' ∧ w ∈ recordsOf app init h c) ∧
      Evolves (keyed.snapshot init h ts).data (keyed.snapshot init h ts').data
        records := by
  have hp := hh.filter_isPrefix ts'
  have hpre : History keyed Effect.written (Tx.run app options shards) init
      (h.filter fun c => c.ts ≤ ts') := hh.of_isPrefix hp
  -- the earlier commits are those of the later snapshot up to the first timestamp
  have hfilter : (h.filter fun c => c.ts ≤ ts').filter (fun c => c.ts ≤ ts) =
      h.filter fun c => c.ts ≤ ts := by
    rw [filter_filter]
    refine filter_congr fun c _ => ?_
    simp only [← Bool.decide_and, decide_eq_decide]
    exact ⟨fun hc => hc.1, fun hc => ⟨hc, hc.trans hts⟩⟩
  obtain ⟨pre, post, hsplit, hle, hlt, hsnap⟩ := hpre.snapshot_eq ts
  have hstate : keyed.snapshot init h ts = keyed.state init pre := by
    rw [← hsnap, Keyed.snapshot, Keyed.snapshot, hfilter]
  have hchain := fun {p} => evolves_of_isPrefix (p := p) (fun _ => List.Subset.refl _) hh hinit
    hjournaled
  refine ⟨?_, post.flatMap (recordsOf app init h), fun w hw => ?_, ?_⟩
  · rw [hstate]
    exact (hchain (List.IsPrefix.trans ⟨post, hsplit.symm⟩ hp)).1
  · obtain ⟨c, hc, hw⟩ := mem_flatMap.mp hw
    have hmem : c ∈ h.filter fun c => c.ts ≤ ts' := by
      rw [hsplit]
      exact mem_append_right _ hc
    obtain ⟨hmem, hle⟩ := mem_filter.mp hmem
    exact ⟨c, hmem, hlt c hc, by simpa using hle, hw⟩
  · rw [hstate]
    exact (hchain hp).2 pre post hsplit

/-- If no write record that was committed between two snapshots names a key that the run of
a query on the first one covers, the query issues the same reads on the second one, with
the same answers, and returns the same result and read set. -/
theorem read_sets_are_sound
    (hh : History Store.keyed Effect.written (Tx.run app options shards) init h)
    (hinit : Consistent init.data) (hjournaled : JournaledHistory app init h) {ts ts' : Timestamp}
    (hts : ts ≤ ts') {q : Query} {answer : Queried}
    (hrun : q.run app ts (Store.keyed.snapshot init h ts) = .ok answer)
    (havoids : ∀ c ∈ h, ts < c.ts → c.ts ≤ ts' → ∀ w ∈ recordsOf app init h c,
      w.Avoids fun key => answer.readSet.covers key = true) :
    q.run app ts' (Store.keyed.snapshot init h ts') = .ok answer ∧
      q.replies app (.forQuery ts' (Store.keyed.snapshot init h ts')) =
        q.replies app (.forQuery ts (Store.keyed.snapshot init h ts)) := by
  obtain ⟨hdata, records, hrecords, cs, hcs, hend, rfl⟩ :=
    evolves_snapshot hh hinit hjournaled hts
  unfold Query.run at hrun ⊢
  rcases hfirst : (q.toBody.run app Query.noDraws).exec
    (.forQuery ts (keyed.snapshot init h ts)) with ⟨e | result, s₁⟩
  · rw [hfirst] at hrun
    cases hrun
  · rw [hfirst] at hrun
    obtain rfl : (⟨result, s₁.usage, s₁.readSet⟩ : Queried) = answer := Except.ok.inj hrun
    have hbeside : Beside (keyed.snapshot init h ts).data cs
        (.forQuery ts (keyed.snapshot init h ts))
        (.forQuery ts' (keyed.snapshot init h ts')) :=
      ⟨rfl, hend, coherent_forQuery _ _, coherent_forQuery _ _, rfl, rfl⟩
    have hquiet : ∀ c ∈ cs, c.record.Avoids fun key => s₁.readSet.covers key = true := by
      intro c hc
      obtain ⟨d, hd, hlt, hle, hw⟩ := hrecords c.record (mem_map_of_mem hc)
      exact havoids d hd hlt hle _ hw
    obtain ⟨s₁', hsecond, hafter, hreplies⟩ :=
      hbeside.run hdata hcs hquiet hfirst (ReadSet.Within.refl _)
    refine ⟨?_, hreplies⟩
    rw [hsecond]
    dsimp only
    rw [hafter.usage, hafter.readSet]

end ReadSets

/-! ### A table that does not exist yet -/

namespace Sample

/-- All documents of a table that is never made. -/
def other : Query :=
  .query { table := 2, index := IndexId.byCreationTime } fun docs =>
    .done (.ok (.bool docs.isEmpty))

theorem writer_journaled : JournaledHistory clockApp clockInit [writer] := by
  intro c hc attempt result journal usage htx hout
  obtain rfl := mem_singleton.mp hc
  obtain rfl : visit = attempt := Tx.mutate.inj htx
  exact ⟨.inr (cons_ne_nil _ _), trivial⟩

end Sample

theorem read_sets_are_sound_other : ∃ answer : Queried, answer.result = .bool true ∧
    Sample.other.run Sample.clockApp 7 (Store.keyed.snapshot Sample.clockInit [Sample.writer] 7) =
      .ok answer := by
  refine ⟨_, ?_, (read_sets_are_sound Sample.writer_history (consistent_settings _)
    Sample.writer_journaled (by decide : (5 : Timestamp) ≤ 7) (q := Sample.other) rfl ?_).1⟩
  · rfl
  · intro c hc _ _ w hw
    obtain rfl := mem_singleton.mp hc
    have hrecords : recordsOf Sample.clockApp Sample.clockInit [Sample.writer] Sample.writer =
        [⟨⟨1, Vector.replicate 16 7⟩, .insert, [], _⟩] := rfl
    rw [hrecords] at hw
    rw [mem_singleton.mp hw]
    refine ⟨by decide, fun key hkey => ?_⟩
    rw [mem_singleton.mp hkey]
    decide

end Loams.Live
