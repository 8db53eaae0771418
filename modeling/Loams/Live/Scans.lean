/-
# Index range reads are exact
-/

import Loams.Live.Docs

namespace Loams.Live

open Loams.Data Loams.Control Loams.Tikv List AppKeys Docs Tuple Bound LiveValue IndexId

/-! ## What a range selects -/

/-- The element that an indexable value becomes. -/
def LiveValue.elem (v : LiveValue) : Tuple.Elem := v.indexElem.toOption.getD .null

/-- The creation time that a value stands for. -/
def LiveValue.time : LiveValue → ℕ
  | .i64 ms => ms.toInt.toNat
  | _ => 0

/-- The bytes of the document that a value names. -/
def LiveValue.idBytes (text : IdText) : LiveValue → Bytes
  | .str s => ((DocId.parse text s).toOption.map fun id => id.bytes.toList).getD []
  | _ => []

namespace Doc

/-- The value of a field as an index sees it: a missing field counts as null. -/
def value (doc : Doc) (field : String) : Tuple.Elem := (doc.fields[field]?.getD .null).elem

/-- How the value of a document at a position of an index compares with a given one. The
positions are the fields, then the creation time. -/
def compareAt (fields : List String) (doc : Doc) (pos : ℕ) (v : LiveValue) : Ordering :=
  match fields[pos]? with
  | some f => (doc.value f).cmp v.elem
  | none => compare doc.creationMs.toNat v.time

/-- The order of an index: the values, then the creation time, then the id. -/
def cmp (fields : List String) (a b : Doc) : Ordering :=
  (cmpAll (fields.map a.value) (fields.map b.value)).then
    ((compare a.creationMs.toNat b.creationMs.toNat).then
      (compare a.id.bytes.toList b.id.bytes.toList))

end Doc

namespace IndexRange

variable (text : IdText) (table : TableDef) (range : IndexRange)

/-- The documents within the range. -/
def selects (doc : Doc) : Bool :=
  if range.index = byId then
    range.lower.above (fun v => compare doc.id.bytes.toList (v.idBytes text)) &&
      range.upper.below (fun v => compare doc.id.bytes.toList (v.idBytes text))
  else
    match table.indexFields range.index with
    | some fields =>
      (range.eq.zipIdx.all fun p => doc.compareAt fields p.2 p.1 == .eq) &&
        (range.lower.above (doc.compareAt fields range.eq.length) &&
          range.upper.below (doc.compareAt fields range.eq.length))
    | none => false

/-- The order of the range's index. -/
def cmp (a b : Doc) : Ordering :=
  if range.index = byId then compare a.id.bytes.toList b.id.bytes.toList
  else
    match table.indexFields range.index with
    | some fields => Doc.cmp fields a b
    | none => .eq

/-- The documents within the range, in the order of the index. -/
def sorted (docs : List Doc) : List Doc :=
  (docs.filter (range.selects text table)).mergeSort fun a b => (range.cmp table a b).isLE

/-- What a read of the range returns. -/
def answer (docs : List Doc) : List Doc :=
  let directed := match range.order with
    | .asc => range.sorted text table docs
    | .desc => (range.sorted text table docs).reverse
  match range.limit with
  | some limit => directed.take limit
  | none => directed

/-- The value can be compared with the value at a position of an index of `n` fields. -/
def Fits (n pos : ℕ) (v : LiveValue) : Prop :=
  if pos < n then ∃ e, v.indexElem = .ok e else ∃ ms, v = .i64 ms ∧ 0 ≤ ms.toInt

/-- The value names a document of the table. -/
def NamesDoc (v : LiveValue) : Prop :=
  ∃ s id, v = .str s ∧ DocId.parse text s = .ok id ∧ id.table = table.id

/-- The range is one of an index of the table, and its values can be compared with those
of the index. -/
structure Valid : Prop where
  on_table : range.table = table.id
  by_id : range.index = byId →
    range.eq = [] ∧ range.lower.All (NamesDoc text table) ∧ range.upper.All (NamesDoc text table)
  by_fields : range.index ≠ byId → ∃ fields, table.indexFields range.index = some fields ∧
    range.eq.length ≤ fields.length + 1 ∧
    (isBounded range = true → range.eq.length ≤ fields.length) ∧
    (∀ p ∈ range.eq.zipIdx, Fits fields.length p.2 p.1) ∧
    range.lower.All (Fits fields.length range.eq.length) ∧
    range.upper.All (Fits fields.length range.eq.length)

end IndexRange

/-- The store holds exactly the given documents of a table, with their index entries. -/
structure Stored (limits : Limits) (data : Data) (table : TableDef) (docs : List Doc) : Prop where
  in_table : ∀ doc ∈ docs, doc.id.table = table.id
  distinct : docs.Pairwise fun a b => a.id ≠ b.id
  document : ∀ doc ∈ docs, data[AppKeys.document doc.id]? = some doc.record
  only_documents : ∀ key r, data[key]? = some r → (documents table.id).lo <+: key →
    ∃ doc ∈ docs, key = AppKeys.document doc.id
  indexed : ∀ doc ∈ docs, ∃ keys, indexKeys table limits doc = .ok keys ∧
    ∀ key ∈ keys, data[key]? = some .indexEntry
  only_entries : ∀ key r, data[key]? = some r → (tableIndexes table.id).lo <+: key →
    ∃ doc ∈ docs, ∃ keys, indexKeys table limits doc = .ok keys ∧ key ∈ keys

/-! ## Key ranges -/

theorem lt_iff_compare {a b : Key} : a < b ↔ compare a b = .lt := by
  induction a generalizing b with
  | nil => cases b <;> simp
  | cons x a ih =>
    cases b with
    | nil => simp
    | cons y b =>
      have hxy : x < y ↔ compare x y = .lt := Std.compare_eq_lt.symm
      rw [List.cons_lt_cons_iff, ih, List.compare_cons_cons, Ordering.then_eq_lt, hxy,
        Std.LawfulEqCmp.compare_eq_iff_eq]

theorem le_iff_compare {a b : Key} : a ≤ b ↔ (compare a b).isLE := by
  rw [isLE_iff_not_lt, ← not_lt, lt_iff_compare]

theorem contains_eq_inRange (range : KeyRange) (key : Key) :
    range.contains key = inRange range.bounds.1 range.bounds.2 key := by
  rw [Bool.eq_iff_iff, KeyRange.contains, KeyRange.bounds, inRange]
  by_cases hhi : range.hi = [] <;> simp [hhi, le_iff_compare, lt_iff_compare]

theorem contains_eq_false_of_isEmpty {range : KeyRange} (h : range.isEmpty = true) (key : Key) :
    range.contains key = false := by
  have hb : range.hi ≠ [] ∧ range.hi ≤ range.lo := by simpa [KeyRange.isEmpty] using h
  rw [← Bool.not_eq_true, KeyRange.contains]
  simp only [List.isEmpty_iff, Bool.and_eq_true, decide_eq_true_eq, Bool.or_eq_true, hb.1, false_or]
  rintro ⟨hlo, hhi⟩
  exact absurd (hlo.trans_lt hhi) (not_lt.mpr hb.2)

/-! ## Entries -/

namespace Doc

/-- The index entries of a document. -/
def entries (table : TableDef) (doc : Doc) : List Bytes :=
  indexEntry byCreationTime [] doc.creationMs doc.id ::
    table.indexes.map fun i =>
      indexEntry i.id (i.fields.map doc.value) doc.creationMs doc.id

end Doc

variable {v : LiveValue} {key : Bytes} {id : DocId} {n pos : ℕ}
  {keyAt : LiveValue → Except LiveError Bytes} {values : List Tuple.Elem}

theorem LiveValue.elem_of_ok {e : Tuple.Elem} (h : v.indexElem = .ok e) : v.elem = e := by
  rw [elem, h]
  rfl

theorem indexValues_eq {index : IndexDef} {doc : Doc}
    (h : indexValues index doc = .ok values) : values = index.fields.map doc.value := by
  refine eq_map_of_mapM (fun f e hf => ?_) h
  cases hv : (doc.fields[f]?.getD .null).indexElem with
  | error err =>
    rw [hv] at hf
    cases hf
  | ok e' =>
    rw [hv] at hf
    obtain rfl : e' = e := Except.ok.inj hf
    exact (elem_of_ok hv).symm

theorem indexKey_eq {limits : Limits} {doc : Doc} {index : IndexDef}
    (h : indexKey limits doc index = .ok key) :
    key = indexEntry index.id (index.fields.map doc.value) doc.creationMs doc.id := by
  obtain ⟨values, hvalues, h⟩ := except_bind_ok.mp h
  obtain ⟨_, -, hkey⟩ := except_bind_ok.mp h
  rw [← indexValues_eq hvalues]
  exact (Except.ok.inj hkey).symm

/-- The keys that a write journals are the document's entries. -/
theorem indexKeys_eq {table : TableDef} {limits : Limits} {doc : Doc} {keys : List Bytes}
    (h : indexKeys table limits doc = .ok keys) : keys = doc.entries table := by
  obtain ⟨rest, hrest, hkeys⟩ := except_bind_ok.mp h
  rw [Doc.entries, ← eq_map_of_mapM (fun i key hkey => indexKey_eq hkey) hrest]
  exact (Except.ok.inj hkeys).symm

/-! ## The layout of keys -/

section Layout

variable {t t' : TableId} {i i' : IndexId}

theorem beBytes_uint32_inj {a b : UInt32} : beBytes 4 a.toNat = beBytes 4 b.toNat ↔ a = b := by
  rw [beBytes_inj (by exact a.toNat_lt) (by exact b.toNat_lt), UInt32.toNat_inj]

@[simp] theorem length_indexPrefix (t : TableId) (i : IndexId) : (indexPrefix t i).length = 9 := by
  simp [indexPrefix]

theorem indexPrefix_inj : indexPrefix t i = indexPrefix t' i' ↔ t = t' ∧ i = i' := by
  constructor
  · intro h
    obtain ⟨ht, hi⟩ := append_inj (List.cons.inj h).2 (by simp)
    exact ⟨beBytes_uint32_inj.mp ht, beBytes_uint32_inj.mp hi⟩
  · rintro ⟨rfl, rfl⟩
    rfl

/-- An entry belongs to the index whose prefix it starts with. -/
theorem indexPrefix_isPrefix_iff {ms : UInt64} :
    indexPrefix t i <+: indexEntry i' values ms id ↔ id.table = t ∧ i' = i := by
  rw [indexEntry, (Apart.of_length (by simp)).prefix_append_iff, indexPrefix_inj]

theorem tableIndexes_isPrefix_indexPrefix (t : TableId) (i : IndexId) :
    (tableIndexes t).lo <+: indexPrefix t i :=
  ⟨beBytes 4 i.toNat, rfl⟩

theorem successor_tag_ne_nil {tag : UInt8} (h : tag ≠ 255) (rest : Bytes) :
    successor (tag :: rest) ≠ [] := by
  refine successor_append_ne_nil (p := [tag]) ?_ rest
  simp [h, successor]

end Layout

/-- The entry that the index of a range has for a document. -/
def IndexRange.entry (range : IndexRange) (fields : List String) (doc : Doc) : Bytes :=
  indexEntry range.index (fields.map doc.value) doc.creationMs doc.id

section Fields

variable {table : TableDef} {range : IndexRange} {fields : List String} {doc : Doc}

theorem indexFields_eq_some_iff {i : IndexId} : table.indexFields i = some fields ↔
    (i = byCreationTime ∧ [] = fields) ∨
      ∃ index ∈ table.indexes, index.id = i ∧ index.fields = fields := by
  rw [TableDef.indexFields]
  split_ifs with htime
  · have huser : ∀ index ∈ table.indexes, index.id ≠ i := by
      intro index hmem hid
      have hle := table.user_ids index hmem
      rw [hid, htime] at hle
      exact absurd hle (by decide)
    grind
  · have hsymm : Std.Symm fun i j : IndexDef => i.id ≠ j.id := ⟨fun _ _ h => h.symm⟩
    have hunique := table.distinct_ids.forall (R := fun i j : IndexDef => i.id ≠ j.id)
    cases hfind : table.indexes.find? (·.id = i) <;> grind

/-- A document has one entry for each index of its table that has entries. -/
theorem mem_entries : key ∈ doc.entries table ↔ ∃ i fields, table.indexFields i = some fields ∧
    indexEntry i (fields.map doc.value) doc.creationMs doc.id = key := by
  simp only [Doc.entries, mem_cons, mem_map, indexFields_eq_some_iff]
  constructor
  · rintro (rfl | ⟨i, hi, rfl⟩)
    · exact ⟨_, [], .inl ⟨rfl, rfl⟩, rfl⟩
    · exact ⟨_, _, .inr ⟨i, hi, rfl, rfl⟩, rfl⟩
  · rintro ⟨_, _, ⟨rfl, rfl⟩ | ⟨i, hi, rfl, rfl⟩, rfl⟩
    · exact .inl rfl
    · exact .inr ⟨i, hi, rfl⟩

theorem mem_entries_iff (hfields : table.indexFields range.index = some fields)
    (htable : doc.id.table = table.id) (key : Bytes) :
    (key ∈ doc.entries table ∧ indexPrefix table.id range.index <+: key) ↔
      key = range.entry fields doc := by
  rw [mem_entries]
  constructor
  · rintro ⟨⟨i, fields', hi, rfl⟩, hpre⟩
    obtain ⟨-, rfl⟩ := indexPrefix_isPrefix_iff.mp hpre
    rw [Option.some.inj (hi.symm.trans hfields)]
    rfl
  · rintro rfl
    exact ⟨⟨_, fields, hfields, rfl⟩, indexPrefix_isPrefix_iff.mpr ⟨htable, rfl⟩⟩

/-! ## Segments -/

/-- The segments of a document's entry behind the index's prefix, up to its id. -/
def segments (fields : List String) (doc : Doc) : List Bytes :=
  fields.map (fun f => encode (doc.value f)) ++ [beBytes 8 doc.creationMs.toNat]

/-- The segment that a given value becomes at a position of an index of `n` fields. -/
def segment (n pos : ℕ) (v : LiveValue) : Bytes :=
  if pos < n then encode v.elem else beBytes 8 v.time

theorem flatten_map_encode (values : List Tuple.Elem) :
    (values.map encode).flatten = encodeAll values := by
  induction values with
  | nil => rfl
  | cons v values ih => rw [map_cons, flatten_cons, ih, encodeAll]

theorem entry_eq (fields : List String) (doc : Doc) :
    range.entry fields doc = indexPrefix doc.id.table range.index ++
      ((segments fields doc).flatten ++ doc.id.bytes.toList) := by
  have henc : fields.map (fun f => encode (doc.value f)) =
      (fields.map doc.value).map encode := by simp
  rw [IndexRange.entry, indexEntry, segments, henc, flatten_append,
    flatten_map_encode]
  simp

theorem compare_encode_nil (a b : Tuple.Elem) : compare (encode a) (encode b) = a.cmp b := by
  have h := compare_encode a b [] []
  rw [append_nil, append_nil] at h
  rw [h]
  cases a.cmp b <;> rfl

theorem apart_encode (a b : Tuple.Elem) : Apart (encode a) (encode b) :=
  ⟨Tuple.encode_eq_of_prefix, fun h => (Tuple.encode_eq_of_prefix h).symm⟩

theorem i64_time_lt {ms : Int64} (h : 0 ≤ ms.toInt) : ms.toInt.toNat < 256 ^ 8 := by
  have := ms.toInt_lt
  omega

/-- At every position, a document's segment and a given value's are apart and compare as
the values do. -/
theorem segment_spec {seg : Bytes} (hfits : IndexRange.Fits fields.length pos v)
    (hseg : (segments fields doc)[pos]? = some seg) : Apart seg (segment fields.length pos v) ∧
      compare seg (segment fields.length pos v) = doc.compareAt fields pos v := by
  rw [IndexRange.Fits] at hfits
  by_cases hpos : pos < fields.length
  · rw [segments, List.getElem?_append_left (by simpa using hpos), List.getElem?_map,
      List.getElem?_eq_getElem hpos] at hseg
    obtain rfl : encode (doc.value fields[pos]) = seg := Option.some.inj hseg
    rw [segment, if_pos hpos, Doc.compareAt, List.getElem?_eq_getElem hpos]
    exact ⟨apart_encode _ _, compare_encode_nil _ _⟩
  · rw [if_neg hpos] at hfits
    obtain ⟨ms, rfl, hms⟩ := hfits
    rw [segments, List.getElem?_append_right (by simpa using hpos)] at hseg
    obtain rfl : beBytes 8 doc.creationMs.toNat = seg := by
      rw [List.getElem?_singleton] at hseg
      split_ifs at hseg
      exact Option.some.inj hseg
    have hnone : fields[pos]? = none := by simpa using hpos
    rw [segment, if_neg hpos, Doc.compareAt, hnone]
    exact ⟨.of_length (by simp), compare_beBytes (by exact doc.creationMs.toNat_lt)
      (i64_time_lt hms)⟩

/-! ## From bounds to keys -/

theorem encodeAt_eq_ok {key' : Bytes} : encodeAt key pos n v = .ok key' ↔
    IndexRange.Fits n pos v ∧ key' = key ++ segment n pos v := by
  unfold encodeAt
  rw [IndexRange.Fits, segment]
  split_ifs
  · cases he : v.indexElem with
    | ok e => simp [Except.map, elem_of_ok he, eq_comm]
    | error e => simp [Except.map]
  · cases v with
    | i64 ms => by_cases hms : 0 ≤ ms.toInt <;> simp [hms, LiveValue.time, eq_comm]
    | _ => simp

theorem encodeFrom_eq_ok {vs : List LiveValue} {key' : Bytes} :
    encodeFrom n key pos vs = .ok key' ↔
      (∀ p ∈ vs.zipIdx pos, IndexRange.Fits n p.2 p.1) ∧
        key' = key ++ ((vs.zipIdx pos).map fun p => segment n p.2 p.1).flatten := by
  induction vs generalizing pos key with
  | nil => simp [encodeFrom, eq_comm]
  | cons v vs ih =>
    simp only [encodeFrom, except_bind_ok, encodeAt_eq_ok, ih, zipIdx_cons,
      forall_mem_cons, map_cons, flatten_cons]
    grind

/-- Bounds become keys when their values do. -/
theorem bounded_eq_ok {base : Bytes} {lower upper : Bound LiveValue} {P : LiveValue → Prop}
    {seg : LiveValue → Bytes} {keys : KeyRange}
    (hkey : ∀ v key, keyAt v = .ok key ↔ P v ∧ key = base ++ seg v) :
    bounded base lower upper keyAt = .ok keys ↔ lower.All P ∧ upper.All P ∧
      keys = ⟨(lower.map seg).lo base, (upper.map seg).hi base⟩ := by
  unfold bounded
  cases lower <;> cases upper <;>
    simp only [except_bind_ok, except_map_ok, hkey, Bound.All, Bound.map, Bound.lo, Bound.hi, pure,
      Except.pure, Except.ok.injEq] <;> grind

/-- The segments of the given values. -/
def given (range : IndexRange) (n : ℕ) : List Bytes :=
  range.eq.zipIdx.map fun p => segment n p.2 p.1

/-- The prefix that all keys of a range share. -/
def rangeBase (table : TableDef) (range : IndexRange) (n : ℕ) : Bytes :=
  indexPrefix table.id range.index ++ (given range n).flatten

/-- The keys of a range of an index. -/
def rangeKeys (table : TableDef) (range : IndexRange) (n : ℕ) : KeyRange :=
  ⟨(range.lower.map (segment n range.eq.length)).lo (rangeBase table range n),
    (range.upper.map (segment n range.eq.length)).hi (rangeBase table range n)⟩

theorem successor_rangeBase_ne_nil (table : TableDef) (range : IndexRange) (n : ℕ) :
    successor (rangeBase table range n) ≠ [] :=
  successor_tag_ne_nil (by decide) _

theorem indexPrefix_isPrefix_of_contains (h : (rangeKeys table range n).contains key = true) :
    indexPrefix table.id range.index <+: key := by
  have hbase := successor_rangeBase_ne_nil table range n
  rw [contains_eq_inRange, KeyRange.bounds, rangeKeys, if_neg (hi_ne_nil hbase),
    inRange_bounds hbase] at h
  obtain ⟨u, rfl, -⟩ := h
  rw [rangeBase, append_assoc]
  exact prefix_append _ _

section

variable {text : IdText} (hindex : range.index ≠ byId)
  (hfields : table.indexFields range.index = some fields)
include hindex hfields

theorem valid_byFields_iff : range.Valid text table ↔ range.table = table.id ∧
    range.eq.length ≤ fields.length + 1 ∧
    (isBounded range = true → range.eq.length ≤ fields.length) ∧
    (∀ p ∈ range.eq.zipIdx, IndexRange.Fits fields.length p.2 p.1) ∧
    range.lower.All (IndexRange.Fits fields.length range.eq.length) ∧
    range.upper.All (IndexRange.Fits fields.length range.eq.length) := by
  constructor
  · intro h
    obtain ⟨fields', hfields', hfits⟩ := h.by_fields hindex
    obtain rfl : fields = fields' := Option.some.inj (hfields.symm.trans hfields')
    exact ⟨h.on_table, hfits⟩
  · rintro ⟨htable, hfits⟩
    exact ⟨htable, fun heq => absurd heq hindex, fun _ => ⟨fields, hfields, hfits⟩⟩

theorem indexKeyRange_eq_ok {keys : KeyRange} :
    indexKeyRange text table range = .ok keys ↔
      range.Valid text table ∧ keys = rangeKeys table range fields.length := by
  unfold indexKeyRange
  simp only [valid_byFields_iff hindex hfields, except_bind_ok, require_eq_ok,
    if_neg hindex, hfields,
    encodeFrom_eq_ok, bounded_eq_ok fun v key => encodeAt_eq_ok, rangeKeys, rangeBase, given]
  grind

end

theorem length_segments : (segments fields doc).length = fields.length + 1 := by
  simp [segments]

theorem length_given (n : ℕ) : (given range n).length = range.eq.length := by
  simp [given]

/-- The document's segment at the position that a range bounds. -/
theorem exists_bounded_segment (doc : Doc) (hlen : range.eq.length ≤ fields.length) : ∃ seg rest,
    (segments fields doc)[range.eq.length]? = some seg ∧
      ((segments fields doc).drop range.eq.length).flatten ++ doc.id.bytes.toList =
        seg ++ rest := by
  have hlt : range.eq.length < (segments fields doc).length := by
    rw [length_segments]
    omega
  refine ⟨_, ?_, List.getElem?_eq_getElem hlt, ?_⟩
  · exact ((segments fields doc).drop (range.eq.length + 1)).flatten ++ doc.id.bytes.toList
  · rw [drop_eq_getElem_cons hlt, flatten_cons, append_assoc]

section

variable (hlen : range.eq.length ≤ fields.length + 1)
  (heq : ∀ p ∈ range.eq.zipIdx, IndexRange.Fits fields.length p.2 p.1)
include hlen heq

/-- The document's segment at the position of a given one. -/
theorem exists_given_segment (doc : Doc) (hpos : pos < range.eq.length) :
    ∃ seg, (segments fields doc)[pos]? = some seg ∧
      Apart seg (segment fields.length pos range.eq[pos]) ∧
      compare seg (segment fields.length pos range.eq[pos]) =
        doc.compareAt fields pos range.eq[pos] := by
  have hseg := List.getElem?_eq_getElem (l := segments fields doc) (i := pos)
    (by rw [length_segments]; omega)
  have hfits := heq (range.eq[pos], pos) (by simp [mem_zipIdx_iff_getElem?, hpos])
  exact ⟨_, hseg, segment_spec hfits hseg⟩

/-- A document's segments start with the given ones when its values are equal to theirs. -/
theorem given_isPrefix_iff (doc : Doc) :
    given range fields.length <+: segments fields doc ↔
      (range.eq.zipIdx.all fun p => doc.compareAt fields p.2 p.1 == .eq) = true := by
  rw [prefix_iff_getElem?, all_eq_true, forall_mem_iff_forall_getElem]
  simp only [given, length_map, length_zipIdx, getElem_map, getElem_zipIdx, zero_add, beq_iff_eq]
  refine forall₂_congr fun pos hpos => ?_
  obtain ⟨seg, hseg, -, hcmp⟩ := exists_given_segment hlen heq doc hpos
  rw [hseg, Option.some.injEq, ← hcmp, compare_eq_eq_iff]

end

/-- What follows the given segments is within the bounds when the document's value at the
next position is. -/
theorem bounds_segment_iff (hbound : isBounded range = true → range.eq.length ≤ fields.length)
    (hlower : range.lower.All (IndexRange.Fits fields.length range.eq.length))
    (hupper : range.upper.All (IndexRange.Fits fields.length range.eq.length)) :
    ((range.lower.map (segment fields.length range.eq.length)).Above
        (((segments fields doc).drop range.eq.length).flatten ++ doc.id.bytes.toList) ∧
      (range.upper.map (segment fields.length range.eq.length)).Below
        (((segments fields doc).drop range.eq.length).flatten ++ doc.id.bytes.toList)) ↔
      range.lower.above (doc.compareAt fields range.eq.length) = true ∧
        range.upper.below (doc.compareAt fields range.eq.length) = true := by
  by_cases hb : isBounded range = true
  · obtain ⟨seg, rest, hseg, hdrop⟩ := exists_bounded_segment doc (hbound hb)
    have hspec : ∀ v, IndexRange.Fits fields.length range.eq.length v → _ :=
      fun v hv => segment_spec hv hseg
    rw [hdrop, above_segment (all_map.mpr (hlower.imp fun v hv => (hspec v hv).1)),
      below_segment (all_map.mpr (hupper.imp fun v hv => (hspec v hv).1)),
      above_map, below_map,
      Bound.above_congr (hlower.imp fun v hv => (hspec v hv).2),
      Bound.below_congr (hupper.imp fun v hv => (hspec v hv).2)]
  · have hnone : range.lower = .unbounded ∧ range.upper = .unbounded := by
      rw [isBounded] at hb
      split at hb <;> simp_all
    rw [hnone.1, hnone.2]
    simp [Bound.map, Bound.Above, Bound.Below, Bound.above, Bound.below]

/-- The keys of a range hold the entries of the documents that it selects. -/
theorem contains_entry {text : IdText} (hvalid : range.Valid text table)
    (hindex : range.index ≠ byId) (hfields : table.indexFields range.index = some fields)
    (htable : doc.id.table = table.id) :
    (rangeKeys table range fields.length).contains (range.entry fields doc) =
      range.selects text table doc := by
  obtain ⟨-, hlen, hbound, heq, hlower, hupper⟩ := (valid_byFields_iff hindex hfields).mp hvalid
  have hbase := successor_rangeBase_ne_nil table range fields.length
  have hapart : ∀ pos (hpos : pos < (given range fields.length).length), ∃ seg,
      (segments fields doc)[pos]? = some seg ∧ Apart seg (given range fields.length)[pos] := by
    intro pos hpos
    obtain ⟨seg, hseg, hapart, -⟩ := exists_given_segment hlen heq doc (length_given _ ▸ hpos)
    exact ⟨seg, hseg, by simpa [given] using hapart⟩
  rw [Bool.eq_iff_iff, contains_eq_inRange, KeyRange.bounds, rangeKeys,
    if_neg (hi_ne_nil hbase), inRange_bounds hbase, entry_eq, htable, rangeBase]
  simp only [append_assoc, append_cancel_left_eq]
  rw [exists_append_flatten_iff _ hapart, given_isPrefix_iff hlen heq, length_given,
    bounds_segment_iff hbound hlower hupper, IndexRange.selects, if_neg hindex, hfields]
  simp only [Bool.and_eq_true]

/-! ## From keys to documents -/

/-- What follows the index's prefix in an entry. -/
def entryTail (fields : List String) (doc : Doc) : Bytes :=
  encodeAll (fields.map doc.value) ++
    (beBytes 8 doc.creationMs.toNat ++ doc.id.bytes.toList)

theorem compare_entryTail (fields : List String) (a b : Doc) :
    compare (entryTail fields a) (entryTail fields b) = Doc.cmp fields a b := by
  rw [entryTail, entryTail, compare_encodeAll_append (by simp), compare_word, Doc.cmp]

theorem docIdOf_bytes {t : TableId} (h : id.table = t) : docIdOf t id.bytes.toList = some id := by
  subst h
  rw [docIdOf, dif_pos (by simp)]
  rfl

theorem docIdOfDocument_document {t : TableId} (h : id.table = t) :
    docIdOfDocument t (document id) = some id := by
  have hpre : (documents t).lo.isPrefixOf (document id) = true := by
    rw [List.isPrefixOf_iff_prefix, document, h]
    exact prefix_append _ _
  rw [docIdOfDocument]
  simp only [hpre, if_true]
  rw [document, h, drop_left, docIdOf_bytes h]

theorem docOfIndexEntry_indexEntry {t : TableId} (h : id.table = t) (i : IndexId)
    (values : List Tuple.Elem) (ms : UInt64) :
    docOfIndexEntry t (indexEntry i values ms id) = some (id, ms.toNat) := by
  have hpre : (tableIndexes t).lo <+: indexEntry i values ms id := by
    rw [indexEntry, h]
    exact (tableIndexes_isPrefix_indexPrefix t i).trans (prefix_append _ _)
  obtain ⟨front, hkey, hlong⟩ : ∃ front, indexEntry i values ms id =
      front ++ (beBytes 8 ms.toNat ++ id.bytes.toList) ∧ 9 ≤ front.length := by
    refine ⟨indexPrefix id.table i ++ encodeAll values, ?_, by simp⟩
    rw [indexEntry, append_assoc]
  rw [hkey] at hpre ⊢
  have hlen : (front ++ (beBytes 8 ms.toNat ++ id.bytes.toList)).length = front.length + 24 := by
    simp
  have hdrop : (beBytes 8 ms.toNat ++ id.bytes.toList).drop 8 = id.bytes.toList :=
    drop_left' (by simp)
  have htake : (beBytes 8 ms.toNat ++ id.bytes.toList).take 8 = beBytes 8 ms.toNat :=
    take_left' (by simp)
  rw [docOfIndexEntry, if_neg (by simp [hlen, hpre]; omega), hlen, Nat.sub_sub,
    Nat.add_sub_cancel]
  simp only [drop_left, hdrop, htake, docIdOf_bytes h,
    ofBeBytes_beBytes (show ms.toNat < 256 ^ 8 from ms.toNat_lt)]
  rfl

end Fields

/-! ## The range in order -/

section Listing

variable {data : Data} {docs : List Doc} {keys : KeyRange} {pre : Bytes} {tail : Doc → Bytes}
  {rec : Doc → Record} {sel : Doc → Bool} {cmp : Doc → Doc → Ordering}

/-- Documents under keys that share a prefix and then compare as the documents do are
listed by a range in their order. -/
theorem range_eq_map_sorted (hcmp : ∀ a b, cmp a b = compare (tail a) (tail b))
    (hget : ∀ doc ∈ docs, data[pre ++ tail doc]? = some (rec doc))
    (honly : ∀ key r, data[key]? = some r → keys.contains key = true →
      ∃ doc ∈ docs, key = pre ++ tail doc)
    (hdistinct : docs.Pairwise fun a b => tail a ≠ tail b)
    (hsel : ∀ doc ∈ docs, keys.contains (pre ++ tail doc) = sel doc) :
    Loams.Data.range data keys.bounds.1 keys.bounds.2 =
      ((docs.filter sel).mergeSort fun a b => (cmp a b).isLE).map
        fun doc => (pre ++ tail doc, rec doc) := by
  set sorted := (docs.filter sel).mergeSort fun a b => (cmp a b).isLE with hsorted
  have hmem : ∀ doc, doc ∈ sorted ↔ doc ∈ docs ∧ sel doc = true := by
    intro doc
    rw [hsorted, mem_mergeSort, mem_filter]
  have hcmp' : ∀ a b, (cmp a b).isLE = true ↔ tail a ≤ tail b := by
    intro a b
    rw [hcmp, le_iff_compare]
  have hle : sorted.Pairwise fun a b => (cmp a b).isLE = true := by
    refine pairwise_mergeSort (fun a b c => ?_) (fun a b => ?_) _
    · rw [hcmp', hcmp', hcmp']
      exact le_trans
    · rw [Bool.or_eq_true, hcmp', hcmp']
      exact le_total _ _
  have hne : sorted.Pairwise fun a b => tail a ≠ tail b :=
    (mergeSort_perm _ _).symm.pairwise (hdistinct.filter _) fun h => h.symm
  refine range_eq_of_mem_iff ?_ fun key r => ?_
  · rw [pairwise_map]
    refine (hle.and hne).imp fun {a b} h => ?_
    rw [compare_append_left, ← lt_iff_compare]
    exact lt_of_le_of_ne ((hcmp' a b).mp h.1) h.2
  · rw [mem_map, ← contains_eq_inRange]
    constructor
    · rintro ⟨doc, hdoc, heq⟩
      obtain ⟨rfl, rfl⟩ := Prod.mk.inj heq
      obtain ⟨hdoc, hs⟩ := (hmem doc).mp hdoc
      exact ⟨hget doc hdoc, (hsel doc hdoc).trans hs⟩
    · rintro ⟨hr, hcontains⟩
      obtain ⟨doc, hdoc, rfl⟩ := honly key r hr hcontains
      refine ⟨doc, (hmem doc).mpr ⟨hdoc, (hsel doc hdoc).symm.trans hcontains⟩, ?_⟩
      rw [Option.some.inj (hr.symm.trans (hget doc hdoc))]

end Listing

/-! ## The index by id -/

section ById

variable {text : IdText} {table : TableDef} {range : IndexRange}

/-- The keys of a range of the index by id. -/
def idKeys (text : IdText) (table : TableDef) (range : IndexRange) : KeyRange :=
  ⟨(range.lower.map (idBytes text)).lo (documents table.id).lo,
    (range.upper.map (idBytes text)).hi (documents table.id).lo⟩

theorem idAt_eq_ok : idAt text table v = .ok key ↔ IndexRange.NamesDoc text table v ∧
    key = (documents table.id).lo ++ v.idBytes text := by
  unfold IndexRange.NamesDoc
  cases v with
  | str s =>
    simp only [idAt, except_bind_ok, checkTable, require_eq_ok, idBytes]
    cases hparse : DocId.parse text s with
    | ok id => simp [hparse, Except.toOption, pure, Except.pure, eq_comm]
    | error e => simp [hparse]
  | _ => simp [idAt]

theorem indexKeyRange_byId_eq_ok {keys : KeyRange} (hindex : range.index = byId) :
    indexKeyRange text table range = .ok keys ↔
      range.Valid text table ∧ keys = idKeys text table range := by
  have hvalid : range.Valid text table ↔ range.table = table.id ∧ range.eq = [] ∧
      range.lower.All (IndexRange.NamesDoc text table) ∧
        range.upper.All (IndexRange.NamesDoc text table) :=
    ⟨fun h => ⟨h.on_table, h.by_id hindex⟩,
      fun h => ⟨h.1, fun _ => h.2, fun hne => absurd hindex hne⟩⟩
  unfold indexKeyRange
  simp only [hvalid, except_bind_ok, require_eq_ok, if_pos hindex, List.isEmpty_iff,
    bounded_eq_ok fun v key => idAt_eq_ok, idKeys]
  grind

theorem successor_documents_ne_nil (t : TableId) : successor (documents t).lo ≠ [] :=
  successor_tag_ne_nil (by decide) _

theorem length_idBytes (h : IndexRange.NamesDoc text table v) : (v.idBytes text).length = 16 := by
  obtain ⟨s, id, rfl, hparse, -⟩ := h
  simp [idBytes, hparse, Except.toOption]

theorem contains_idKeys_iff :
    (idKeys text table range).contains key = true ↔
      ∃ u, key = (documents table.id).lo ++ u ∧
        (range.lower.map (idBytes text)).Above u ∧
          (range.upper.map (idBytes text)).Below u := by
  have hbase := successor_documents_ne_nil table.id
  rw [contains_eq_inRange, KeyRange.bounds, idKeys, if_neg (hi_ne_nil hbase),
    inRange_bounds hbase]

/-- The keys of a range by id hold the documents that it selects. -/
theorem contains_document (hvalid : range.Valid text table) (hindex : range.index = byId)
    (doc : Doc) :
    (idKeys text table range).contains ((documents table.id).lo ++ doc.id.bytes.toList) =
      range.selects text table doc := by
  obtain ⟨-, hlower, hupper⟩ := hvalid.by_id hindex
  have hapart : ∀ v, IndexRange.NamesDoc text table v →
      Apart doc.id.bytes.toList (v.idBytes text) := fun v hv =>
    .of_length (by rw [length_idBytes hv]; simp)
  have habove := above_segment (r := [])
    (all_map.mpr (hlower.imp hapart))
  have hbelow := below_segment (r := [])
    (all_map.mpr (hupper.imp hapart))
  rw [append_nil] at habove hbelow
  rw [Bool.eq_iff_iff, contains_idKeys_iff]
  simp only [append_cancel_left_eq, exists_eq_left']
  rw [habove, hbelow, above_map, below_map, IndexRange.selects, if_pos hindex,
    Bool.and_eq_true]

end ById

/-! ## The read -/

section Read

variable {text : IdText} {limits : Limits} {data : Data} {table : TableDef} {docs : List Doc}
  {range : IndexRange} {pair : Doc → Bytes × Record}

/-- The limit, or without one the number of documents of the range, is within the scan
limit. -/
def IndexRange.WithinLimits (text : IdText) (limits : Limits) (table : TableDef) (docs : List Doc)
    (range : IndexRange) : Prop :=
  range.limit.getD (docs.countP (range.selects text table)) ≤ limits.maxScannedDocs

/-- The documents of the range in the direction of the read. -/
def IndexRange.directed (range : IndexRange) (docs : List Doc) : List Doc :=
  match range.order with
  | .asc => docs
  | .desc => docs.reverse

/-- The pairs that a scan goes through are those of its keys: an empty range has none. -/
theorem found_eq (keys : KeyRange) (fetch : ℕ) (order : Order) :
    (if keys.isEmpty || fetch = 0 then [] else Docs.pairs data keys fetch order) =
      Docs.pairs data keys fetch order := by
  split_ifs with h
  · rw [Bool.or_eq_true, decide_eq_true_eq] at h
    rcases h with h | rfl
    · have hnil : Loams.Data.range data keys.bounds.1 keys.bounds.2 = [] := by
        rw [eq_nil_iff_forall_not_mem]
        rintro ⟨key, r⟩ hmem
        have hin := (mem_range.mp hmem).2
        rw [← contains_eq_inRange, contains_eq_false_of_isEmpty h] at hin
        cases hin
      cases order <;> simp [Docs.pairs, Loams.Data.scan, Loams.Data.scanReverse, hnil]
    · cases order <;> simp [Docs.pairs, Loams.Data.scan, Loams.Data.scanReverse]
  · rfl

theorem pairs_eq {keys : KeyRange} {sorted : List Doc}
    (hrange : Loams.Data.range data keys.bounds.1 keys.bounds.2 = sorted.map pair) (fetch : ℕ) :
    Docs.pairs data keys fetch range.order = ((range.directed sorted).take fetch).map pair := by
  unfold Docs.pairs IndexRange.directed
  cases range.order with
  | asc => rw [Loams.Data.scan, hrange, map_take]
  | desc => rw [Loams.Data.scanReverse, hrange, ← map_reverse, map_take]

theorem length_directed (range : IndexRange) (docs : List Doc) :
    (range.directed docs).length = docs.length := by
  unfold IndexRange.directed
  cases range.order <;> simp

theorem length_directed_sorted : (range.directed (range.sorted text table docs)).length =
    docs.countP (range.selects text table) := by
  rw [length_directed, IndexRange.sorted, length_mergeSort, countP_eq_length_filter]

theorem mem_directed {doc : Doc} : doc ∈ range.directed docs ↔ doc ∈ docs := by
  unfold IndexRange.directed
  cases range.order <;> simp

theorem answer_eq : range.answer text table docs =
    (range.directed (range.sorted text table docs)).take
      (range.limit.getD (docs.countP (range.selects text table))) := by
  unfold IndexRange.answer
  cases range.limit with
  | some limit => rfl
  | none =>
    rw [Option.getD_none, ← length_directed_sorted, take_length]
    rfl

/-- What a scan goes through. -/
theorem scan_eq_ok {result : List Doc} {read : KeyRange} :
    Docs.scan text data table range limits = .ok (result, read) ↔ ∃ keys found,
      indexKeyRange text table range = .ok keys ∧
      (∀ limit ∈ range.limit, limit ≤ limits.maxScannedDocs) ∧
      found = Docs.pairs data keys (range.limit.getD (limits.maxScannedDocs + 1)) range.order ∧
      (range.limit = none → found.length ≤ limits.maxScannedDocs) ∧
      found.mapM (docOf text data table range.index) = .ok result ∧
      read = readRange keys range found := by
  unfold Docs.scan
  simp only [except_bind_ok, require_eq_ok, found_eq, pure, Except.pure, Except.ok.injEq,
    Prod.mk.injEq]
  grind

/-- A range whose keys list the selected documents in order is read exactly. -/
theorem scan_of_listing {keys : KeyRange} (hlimit : range.WithinLimits text limits table docs)
    (hkeys : indexKeyRange text table range = .ok keys)
    (hrange : Loams.Data.range data keys.bounds.1 keys.bounds.2 =
      (range.sorted text table docs).map pair)
    (hdoc : ∀ doc ∈ docs, docOf text data table range.index (pair doc) = .ok doc) :
    ∃ read, Docs.scan text data table range limits = .ok (range.answer text table docs, read) := by
  rw [IndexRange.WithinLimits] at hlimit
  set found := Docs.pairs data keys (range.limit.getD (limits.maxScannedDocs + 1)) range.order
    with hfound
  have hanswer : found = (range.answer text table docs).map pair := by
    rw [hfound, pairs_eq hrange, answer_eq]
    cases hl : range.limit with
    | some limit => rfl
    | none =>
      rw [hl, Option.getD_none, ← length_directed_sorted] at hlimit
      rw [Option.getD_none, Option.getD_none, ← length_directed_sorted, take_length,
        take_of_length_le (by omega)]
  have hmem : ∀ doc ∈ range.answer text table docs, doc ∈ docs := by
    intro doc h
    rw [answer_eq] at h
    have hsorted := mem_directed.mp (mem_of_mem_take h)
    rw [IndexRange.sorted, mem_mergeSort] at hsorted
    exact mem_of_mem_filter hsorted
  have hdocs : found.mapM (docOf text data table range.index) =
      .ok (range.answer text table docs) := by
    rw [mapM_eq_ok, hanswer, forall₂_map_left_iff, forall₂_same]
    exact fun doc h => hdoc doc (hmem doc h)
  have hmax : ∀ limit ∈ range.limit, limit ≤ limits.maxScannedDocs := by
    intro limit hl
    rwa [Option.mem_def.mp hl, Option.getD_some] at hlimit
  have hcount : range.limit = none → found.length ≤ limits.maxScannedDocs := by
    intro hl
    rw [hl, Option.getD_none] at hlimit
    rw [hanswer, length_map, answer_eq, hl, Option.getD_none, length_take]
    exact (Nat.min_le_left _ _).trans hlimit
  exact ⟨_, scan_eq_ok.mpr ⟨keys, found, hkeys, hmax, rfl, hcount, hdocs, rfl⟩⟩

theorem Stored.bytes_ne (h : Stored limits data table docs) :
    docs.Pairwise fun a b => a.id.bytes.toList ≠ b.id.bytes.toList := by
  refine List.Pairwise.imp_of_mem (fun {a b} ha hb hne heq => hne ?_) h.distinct
  have htable : a.id.table = b.id.table := (h.in_table a ha).trans (h.in_table b hb).symm
  have hbytes : a.id.bytes = b.id.bytes := Vector.toList_inj.mp heq
  cases ha' : a.id
  cases hb' : b.id
  rw [ha', hb'] at htable hbytes
  exact DocId.mk.injEq .. ▸ ⟨htable, hbytes⟩

theorem decode_record (doc : Doc) : Docs.decode text doc.id doc.record = .ok doc := rfl

section

variable (hstored : Stored limits data table docs) (hvalid : range.Valid text table)
  (hlimit : range.WithinLimits text limits table docs)
include hstored hvalid hlimit

/-- A range of the index by id is read exactly. -/
theorem scan_byId (hindex : range.index = byId) :
    ∃ read, Docs.scan text data table range limits = .ok (range.answer text table docs, read) := by
  have hkey : ∀ doc ∈ docs, (documents table.id).lo ++ doc.id.bytes.toList =
      document doc.id := by
    intro doc hdoc
    rw [document, hstored.in_table doc hdoc]
  have hrange : Loams.Data.range data (idKeys text table range).bounds.1
      (idKeys text table range).bounds.2 = (range.sorted text table docs).map fun doc =>
        ((documents table.id).lo ++ doc.id.bytes.toList, doc.record) := by
    refine range_eq_map_sorted ?_ ?_ ?_ hstored.bytes_ne
      fun doc _ => contains_document hvalid hindex doc
    · intro a b
      rw [IndexRange.cmp, if_pos hindex]
    · intro doc hdoc
      rw [hkey doc hdoc]
      exact hstored.document doc hdoc
    · intro key r hr hcontains
      obtain ⟨u, rfl, -⟩ := contains_idKeys_iff.mp hcontains
      obtain ⟨doc, hdoc, heq⟩ := hstored.only_documents _ r hr (prefix_append _ _)
      exact ⟨doc, hdoc, heq.trans (hkey doc hdoc).symm⟩
  refine scan_of_listing hlimit ((indexKeyRange_byId_eq_ok hindex).mpr ⟨hvalid, rfl⟩) hrange
    fun doc hdoc => ?_
  unfold docOf
  rw [if_pos hindex]
  simp only [hkey doc hdoc, docIdOfDocument_document (hstored.in_table doc hdoc)]
  exact decode_record doc

/-- A range of an index with entries is read exactly. -/
theorem scan_byFields (hindex : range.index ≠ byId) :
    ∃ read, Docs.scan text data table range limits = .ok (range.answer text table docs, read) := by
  obtain ⟨fields, hfields, -⟩ := hvalid.by_fields hindex
  have hkey : ∀ doc ∈ docs, indexPrefix table.id range.index ++ entryTail fields doc =
      range.entry fields doc := by
    intro doc hdoc
    rw [IndexRange.entry, indexEntry, hstored.in_table doc hdoc]
    rfl
  have hrange : Loams.Data.range data (rangeKeys table range fields.length).bounds.1
      (rangeKeys table range fields.length).bounds.2 = (range.sorted text table docs).map fun doc =>
        (indexPrefix table.id range.index ++ entryTail fields doc, .indexEntry) := by
    refine range_eq_map_sorted ?_ ?_ ?_ ?_ ?_
    · intro a b
      rw [IndexRange.cmp, if_neg hindex, hfields, compare_entryTail]
    · intro doc hdoc
      obtain ⟨keys, hkeys, hall⟩ := hstored.indexed doc hdoc
      rw [hkey doc hdoc]
      refine hall _ ?_
      rw [indexKeys_eq hkeys]
      exact ((mem_entries_iff hfields (hstored.in_table doc hdoc) _).mpr rfl).1
    · intro key r hr hcontains
      have hpre := indexPrefix_isPrefix_of_contains hcontains
      obtain ⟨doc, hdoc, keys, hkeys, hmem⟩ := hstored.only_entries key r hr
        ((tableIndexes_isPrefix_indexPrefix _ _).trans hpre)
      rw [indexKeys_eq hkeys] at hmem
      refine ⟨doc, hdoc, ?_⟩
      rw [hkey doc hdoc]
      exact (mem_entries_iff hfields (hstored.in_table doc hdoc) key).mp ⟨hmem, hpre⟩
    · -- the ids are the last bytes, and they differ
      refine hstored.bytes_ne.imp fun {a b} hne heq => hne ?_
      rw [entryTail, entryTail, ← append_assoc, ← append_assoc] at heq
      exact (append_inj' heq (by simp)).2
    · intro doc hdoc
      rw [hkey doc hdoc]
      exact contains_entry hvalid hindex hfields (hstored.in_table doc hdoc)
  refine scan_of_listing hlimit ((indexKeyRange_eq_ok hindex hfields).mpr ⟨hvalid, rfl⟩) hrange
    fun doc hdoc => ?_
  unfold docOf
  rw [if_neg hindex]
  simp only [hkey doc hdoc, IndexRange.entry,
    docOfIndexEntry_indexEntry (hstored.in_table doc hdoc), hstored.document doc hdoc]
  exact decode_record doc

end

/-! ## Ranges that are refused -/

/-- Only ranges of an index of the table, with values that can be compared with its own,
have keys. -/
theorem valid_of_indexKeyRange {keys : KeyRange}
    (h : indexKeyRange text table range = .ok keys) : range.Valid text table := by
  by_cases hindex : range.index = byId
  · exact ((indexKeyRange_byId_eq_ok hindex).mp h).1
  · cases hfields : table.indexFields range.index with
    | none => simp [indexKeyRange, except_bind_ok, hindex, hfields] at h
    | some fields => exact ((indexKeyRange_eq_ok hindex hfields).mp h).1

theorem scan_error_of_not_valid (h : ¬ range.Valid text table) :
    ∃ e, Docs.scan text data table range limits = .error e := by
  cases hscan : Docs.scan text data table range limits with
  | error e => exact ⟨e, rfl⟩
  | ok r =>
    obtain ⟨keys, -, hkeys, -⟩ := scan_eq_ok.mp hscan
    exact absurd (valid_of_indexKeyRange hkeys) h

/-- A scan within the limits returns exactly the documents of its range, in the order of
the index and in the requested direction, cut to the limit. It fails only if the range is
none of the table's: it names an index the table does not have, or values that its
positions are never compared with. -/
theorem scan_exact (hstored : Stored limits data table docs)
    (hlimit : range.WithinLimits text limits table docs) :
    (range.Valid text table →
      ∃ read, Docs.scan text data table range limits = .ok (range.answer text table docs, read)) ∧
    (¬ range.Valid text table → ∃ e, Docs.scan text data table range limits = .error e) := by
  refine ⟨fun hvalid => ?_, scan_error_of_not_valid⟩
  by_cases hindex : range.index = byId
  · exact scan_byId hstored hvalid hlimit hindex
  · exact scan_byFields hstored hvalid hlimit hindex

end Read

/-! ### A table with an index -/

namespace Sample

/-- A table with one index. -/
def people : TableDef where
  id := 1
  name := "people"
  indexes := [⟨2, "by_age", ["age"]⟩]
  nextIndexId := 3
  user_ids := by decide
  distinct_ids := by decide

/-- A person without an age. -/
def person (n : UInt8) (ms : UInt64) : Doc := ⟨⟨1, Vector.replicate 16 n⟩, ms, ∅⟩

/-- The documents of the table. -/
def docs : List Doc := [person 1 3, person 2 5, person 3 8]

/-- The documents with their index entries. -/
def data : Data :=
  docs.foldl (fun data doc => ((data.insert (document doc.id) doc.record).insert
    (indexEntry 1 [] doc.creationMs doc.id) .indexEntry).insert
      (indexEntry 2 [.null] doc.creationMs doc.id) .indexEntry) ∅

/-- No age and created at 5 or later, the newest first. -/
def youngest : IndexRange where
  table := 1
  index := 2
  eq := [.null]
  lower := .included (.i64 5)
  order := .desc
  limit := some 1

/-- Ids without a text. -/
def text : IdText := ⟨fun _ => "", fun _ => none, fun _ => 0⟩

theorem entries_of_mem : ∀ doc ∈ docs, indexKeys people {} doc = .ok (doc.entries people) ∧
    doc.entries people = [indexEntry 1 [] doc.creationMs doc.id,
      indexEntry 2 [.null] doc.creationMs doc.id] := by
  decide +kernel

theorem get_of_mem : ∀ doc ∈ docs, data[document doc.id]? = some doc.record ∧
    data[indexEntry 1 [] doc.creationMs doc.id]? = some .indexEntry ∧
      data[indexEntry 2 [.null] doc.creationMs doc.id]? = some .indexEntry := by
  simp only [docs, forall_mem_cons]
  exact ⟨⟨rfl, rfl, rfl⟩, ⟨rfl, rfl, rfl⟩, ⟨rfl, rfl, rfl⟩, nofun⟩

theorem stored : Stored {} data people docs where
  in_table := by decide +kernel
  distinct := by decide +kernel
  document doc hdoc := (get_of_mem doc hdoc).1
  only_documents key r hr := by
    have hall : ∀ p ∈ data.toList, (documents people.id).lo <+: p.1 →
        ∃ doc ∈ docs, p.1 = document doc.id := by decide +kernel
    exact hall _ (Std.ExtTreeMap.mem_toList_iff_getElem?_eq_some.mpr hr)
  indexed doc hdoc := by
    obtain ⟨hkeys, hentries⟩ := entries_of_mem doc hdoc
    refine ⟨_, hkeys, ?_⟩
    rw [hentries, forall_mem_cons, forall_mem_singleton]
    exact (get_of_mem doc hdoc).2
  only_entries key r hr hpre := by
    have hall : ∀ p ∈ data.toList, (tableIndexes people.id).lo <+: p.1 →
        ∃ doc ∈ docs, p.1 ∈ doc.entries people := by decide +kernel
    obtain ⟨doc, hdoc, hmem⟩ :=
      hall _ (Std.ExtTreeMap.mem_toList_iff_getElem?_eq_some.mpr hr) hpre
    exact ⟨doc, hdoc, _, (entries_of_mem doc hdoc).1, hmem⟩

theorem youngest_valid : youngest.Valid text people where
  on_table := rfl
  by_id := fun h => absurd h (by decide)
  by_fields := fun _ => ⟨["age"], rfl, by decide, fun _ => by decide, by
    intro p hp
    obtain rfl : p = (.null, 0) := by simpa [youngest] using hp
    exact ⟨.null, rfl⟩, ⟨5, rfl, by decide⟩, trivial⟩

/-- The bound excludes the first document, and the limit cuts the second. -/
theorem answer_youngest : youngest.answer text people docs = [person 3 8] := by
  have hselects : youngest.selects text people (person 1 3) = false ∧
      youngest.selects text people (person 2 5) = true ∧
      youngest.selects text people (person 3 8) = true := by decide +kernel
  have hordered : [person 2 5, person 3 8].Pairwise fun a b =>
      (youngest.cmp people a b).isLE := by decide +kernel
  unfold IndexRange.answer IndexRange.sorted
  rw [docs, filter_cons_of_neg (by simp [hselects]), filter_cons_of_pos hselects.2.1,
    filter_cons_of_pos hselects.2.2, filter_nil, mergeSort_of_pairwise hordered]
  rfl

end Sample

theorem scan_exact_youngest :
    Stored {} Sample.data Sample.people Sample.docs ∧ ∃ read,
      Docs.scan Sample.text Sample.data Sample.people Sample.youngest {} =
        .ok ([Sample.person 3 8], read) := by
  have hlimit : Sample.youngest.WithinLimits Sample.text {} Sample.people Sample.docs :=
    show 1 ≤ 32000 by decide
  refine ⟨Sample.stored, ?_⟩
  rw [← Sample.answer_youngest]
  exact (scan_exact Sample.stored hlimit).1 Sample.youngest_valid

end Loams.Live
