/-
# Accepted writes are applied

What the writer accepts is never a dead letter.
-/

import Loams.Collection.Batching

namespace Loams.Collection

open Loams.Control Loams.Data Loams.Log Std Std.ExtTreeMap List

/-! ## The writer's check -/

/-- Why an operation is refused. -/
inductive OpError
  | invalidArgument (message : String)
  | schemaViolation (field message : String)
  | dynamicMappingRequired (paths : List String)
  deriving DecidableEq

/-- The first violation stands for all. -/
def OpError.ofRejection : DocRejection → OpError
  | .violations (first :: _) => .schemaViolation first.field first.message
  | .violations [] => .invalidArgument "rejected without a violation"
  | .dynamicMappingRequired paths => .dynamicMappingRequired paths

/-- An error of another kind as one of the writer's. -/
def refuseWith {ε ε' α : Type} (f : ε → ε') : Except ε α → Except ε' α
  | .ok a => .ok a
  | .error e => .error (f e)

/-- Validates what a write brings against the schema. Paths to delete and the key of an
upsert document are not matters of the schema, and are looked at first. -/
def checkOp (rt : Runtime) (collection : CollectionInfo) (op : DocOp) : Except OpError Unit :=
  match op with
  | .upsert doc => do
    let _ ← refuseWith .ofRejection (checkDocument rt.scalars collection.schema doc)
  | .delete _ => pure ()
  | .patch p => do
    match invalidDeleteKey p.deleteKeys with
    | some violation => throw (.invalidArgument s!"{violation.field}: {violation.message}")
    | none =>
      require (p.upsert.all fun doc => doc.pk == p.pk)
        (.invalidArgument "the upsert document's primary key differs from the patch's")
      refuseWith .ofRejection (checkPatch rt.scalars collection.schema op)

/-- Validates one write and encodes it; it goes to the partition of its key. -/
def check (rt : Runtime) (collection : CollectionInfo) (op : DocOp) :
    Except OpError (ℕ × Record) := do
  refuseWith .invalidArgument op.pk.validate
  checkOp rt collection op
  let record ← refuseWith .invalidArgument (rt.encode op)
  pure (op.pk.partitionOf rt.hash collection.partitions, record)

/-! ## Values found in a source -/

/-- Every value of the first list is in the second, or both have an object. -/
def Within (a b : List Value) : Prop :=
  ∀ v ∈ a, v ∈ b ∨ v.isObject = true ∧ ∃ w ∈ b, w.isObject = true

namespace Within

variable {a b c : List Value}

theorem of_subset (h : a ⊆ b) : Within a b := fun _ hv => .inl (h hv)

theorem trans (hab : Within a b) (hbc : Within b c) : Within a c := by
  intro v hv
  rcases hab v hv with hv | ⟨hobject, w, hw, hwobject⟩
  · exact hbc v hv
  · rcases hbc w hw with hw | ⟨-, hexists⟩
    · exact .inr ⟨hobject, w, hw, hwobject⟩
    · exact .inr ⟨hobject, hexists⟩

theorem append (ha : Within a c) (hb : Within b c) : Within (a ++ b) c := by
  intro v hv
  rcases mem_append.mp hv with hv | hv
  · exact ha v hv
  · exact hb v hv

end Within

section Extraction

variable {fields target patch : Fields} {key : String} {value : Value} {segs : List String}
  {b : List Value}

/-- The key that the first segments form. -/
def keyAt (segs : List String) (k : ℕ) : String := ".".intercalate (segs.take (k + 1))

theorem mem_extractIn {v : Value} : v ∈ extractIn fields segs ↔
    ∃ k < segs.length, ∃ value, fields.lookup (keyAt segs k) = some value ∧
      v ∈ value.extractAt (segs.drop (k + 1)) := by
  simp only [extractIn, List.mem_flatMap, List.mem_range]
  refine exists_congr fun k => and_congr_right fun _ => ?_
  rw [← keyAt]
  cases fields.lookup (keyAt segs k) <;> simp

/-- What a field leads to is found in the object. -/
theorem extractAt_subset {k : ℕ} (hk : k < segs.length)
    (h : fields.lookup (keyAt segs k) = some value) :
    value.extractAt (segs.drop (k + 1)) ⊆ extractIn fields segs :=
  fun _ hv => mem_extractIn.mpr ⟨k, hk, value, h, hv⟩

/-- A field that is set adds only what its value leads to. -/
theorem within_insert (hfields : Within (extractIn fields segs) b)
    (hvalue : ∀ k < segs.length, keyAt segs k = key →
      Within (value.extractAt (segs.drop (k + 1))) b) :
    Within (extractIn (IndexMap.insert key value fields) segs) b := by
  intro v hv
  obtain ⟨k, hk, found, hlookup, hv⟩ := mem_extractIn.mp hv
  rw [IndexMap.lookup_insert] at hlookup
  split_ifs at hlookup with heq
  · obtain rfl := Option.some.inj hlookup
    exact hvalue k hk heq v hv
  · exact hfields v (extractAt_subset hk hlookup hv)

theorem extractAt_object_nil : (Value.object fields).extractAt [] = [.object fields] := by
  simp [Value.extractAt]

/-- An object in the place of another: where the path ends, each is found as an object. -/
theorem within_object {fields' : Fields} {a : List Value}
    (h : segs ≠ [] → Within (extractIn fields segs) (a ++ extractIn fields' segs)) :
    Within ((Value.object fields).extractAt segs) (a ++ (Value.object fields').extractAt segs) := by
  by_cases hsegs : segs = []
  · subst hsegs
    rw [extractAt_object_nil, extractAt_object_nil]
    intro v hv
    obtain rfl := mem_singleton.mp hv
    exact .inr ⟨rfl, _, mem_append_right a (mem_singleton_self _), rfl⟩
  · rw [extractAt_object hsegs, extractAt_object hsegs]
    exact h hsegs

theorem within_deleteIn (path : List String) (fields : Fields) (segs : List String) :
    Within (extractIn (deleteIn path fields) segs) (extractIn fields segs) := by
  fun_induction deleteIn path fields generalizing segs with
  | case1 => exact .of_subset (List.Subset.refl _)
  | case2 last =>
    intro v hv
    obtain ⟨k, hk, found, hlookup, hv⟩ := mem_extractIn.mp hv
    rw [IndexMap.lookup_remove] at hlookup
    split_ifs at hlookup
    exact .inl (extractAt_subset hk hlookup hv)
  | case3 segment rest fields _ nested hlookup ih =>
    refine within_insert (.of_subset (List.Subset.refl _)) fun k hk heq => ?_
    have hfound : fields.lookup (keyAt segs k) = some (.object nested) := by rw [heq, hlookup]
    exact (within_object (a := []) fun _ => ih _).trans (.of_subset (extractAt_subset hk hfound))
  | case4 => exact .of_subset (List.Subset.refl _)

/-- The first entry of a patch leads where the whole patch does, and so do the others,
which have other keys. -/
theorem extractIn_cons_subset (h : IndexMap.Unique ((key, value) :: patch)) :
    extractIn patch segs ⊆ extractIn ((key, value) :: patch) segs := by
  intro v hv
  obtain ⟨k, hk, found, hlookup, hv⟩ := mem_extractIn.mp hv
  have hne : keyAt segs k ≠ key := by
    rintro rfl
    exact (nodup_cons.mp h).1 (mem_map.mpr ⟨_, IndexMap.mem_of_lookup hlookup, rfl⟩)
  refine mem_extractIn.mpr ⟨k, hk, found, ?_, hv⟩
  rwa [lookup_cons, beq_false_of_ne hne]

/-- A patch entry that is set, by a value found in the old one's place or in the patch. -/
theorem within_set_entry {merged : Value} (h : IndexMap.Unique ((key, value) :: patch))
    (hmerged : ∀ segs', Within (merged.extractAt segs')
      (((target.lookup key).elim [] fun old => old.extractAt segs') ++ value.extractAt segs')) :
    Within (extractIn (IndexMap.insert key merged target) segs ++ extractIn patch segs)
      (extractIn target segs ++ extractIn ((key, value) :: patch) segs) := by
  refine .append (within_insert (.of_subset (subset_append_left _ _)) fun k hk heq => ?_)
    (.of_subset fun v hv => mem_append_right _ (extractIn_cons_subset h hv))
  refine (hmerged _).trans (.append ?_ ?_)
  · cases hold : target.lookup key with
    | none => exact .of_subset (nil_subset _)
    | some old =>
      exact .of_subset fun v hv => mem_append_left _ (extractAt_subset hk (heq ▸ hold) hv)
  · have hhead : ((key, value) :: patch).lookup (keyAt segs k) = some value := by
      rw [heq, lookup_cons_self]
    exact .of_subset fun v hv => mem_append_right _ (extractAt_subset hk hhead hv)

mutual

theorem within_mergeValue {existing : Option Value} : ∀ (value : Value) (segs : List String),
    value.wellFormed = true → Within ((mergeValue existing value).extractAt segs)
      ((existing.elim [] fun old => old.extractAt segs) ++ value.extractAt segs)
  | .object nested, segs, hvalue => by
    unfold mergeValue
    split
    · next fields =>
      refine within_object fun hsegs => ?_
      rw [Option.elim_some, extractAt_object hsegs]
      exact within_mergeDeep nested fields segs hvalue
    · exact .of_subset (subset_append_right _ _)
  | .null, _, _ | .bool _, _, _ | .number _, _, _ | .string _, _, _ | .array _, _, _ =>
    .of_subset (subset_append_right _ _)

theorem within_mergeDeep : ∀ (patch target : Fields) (segs : List String),
    (Value.object patch).wellFormed = true → Within (extractIn (mergeDeep target patch) segs)
      (extractIn target segs ++ extractIn patch segs)
  | [], _, _, _ => .of_subset (subset_append_left _ _)
  | (key, value) :: rest, target, segs, hpatch => by
    obtain ⟨hvalue, hrest⟩ := Value.wellFormed_tail hpatch
    have hunique := (Value.wellFormed_object_iff.mp hpatch).1
    exact (within_mergeDeep rest _ segs hrest).trans
      (within_set_entry hunique fun segs' => within_mergeValue value segs' hvalue)

end

theorem within_mergeTop (patch target : Fields) (segs : List String)
    (hpatch : (Value.object patch).wellFormed = true) :
    Within (extractIn (mergeTop target patch) segs)
      (extractIn target segs ++ extractIn patch segs) := by
  rw [mergeTop]
  induction patch generalizing target with
  | nil => exact .of_subset (subset_append_left _ _)
  | cons entry rest ih =>
    obtain ⟨-, hrest⟩ := Value.wellFormed_tail hpatch
    have hunique := (Value.wellFormed_object_iff.mp hpatch).1
    exact (ih _ hrest).trans
      (within_set_entry hunique fun _ => .of_subset (subset_append_right _ _))

theorem within_combine (current : Fields) (p : Patch) (segs : List String) :
    Within (extractIn (combine current p) segs)
      (extractIn current segs ++ extractIn p.source.fields segs) := by
  refine List.foldlRecOn p.deleteKeys deletePath (motive := fun fields =>
    Within (extractIn fields segs) (extractIn current segs ++ extractIn p.source.fields segs)) ?_
    fun _ hfields _ _ => (within_deleteIn _ _ segs).trans hfields
  cases p.mode with
  | mergeDeep => exact within_mergeDeep _ _ segs p.source.wellFormed
  | mergeTop => exact within_mergeTop _ _ segs p.source.wellFormed
  | replace => exact .of_subset (subset_append_right _ _)

end Extraction

/-! ## What fits a schema -/

section Fits

variable {scalars : Scalars} {schema : CollectionSchema}

/-- A field finds only values that coerce to its kind. -/
def FieldFits (scalars : Scalars) (field : FieldSpec) (source : Object) : Prop :=
  field.kind ≠ .json → field.ignoreMalformed = false →
    ∀ v ∈ extract source field.sourcePath, ∃ found, scalars.coerce field.kind v = .ok found

/-- A document fits a schema, whatever paths it has that no field maps. -/
structure Fits (scalars : Scalars) (schema : CollectionSchema) (doc : Document) : Prop where
  source : ∀ field ∈ schema.fields, FieldFits scalars field doc.source
  vectors : ∀ (name : String) (vector : List F32), doc.vectors[name]? = some vector →
    checkVector schema name vector = []
  sparseVectors :
    ∀ (name : String) (vector : SparseVector), doc.sparseVectors[name]? = some vector →
    schema.sparseVector name ≠ none

theorem checkField_snd_eq_nil {field : FieldSpec} {source : Object} :
    (checkField scalars source field).2 = [] ↔ FieldFits scalars field source := by
  unfold checkField FieldFits
  split_ifs with hjson hignore
  · simp [hjson]
  · simp [hignore]
  · simp only [filterMap_eq_nil_iff, mem_map, forall_exists_index, and_imp,
      forall_apply_eq_imp_iff₂, ne_eq, hjson, not_false_eq_true, hignore, forall_const]
    refine forall₂_congr fun v _ => ?_
    cases scalars.coerce field.kind v <;> simp

/-- What no finding refuses. -/
theorem intoResult_eq_ok {α : Type} {findings : Findings} {a b : α} :
    findings.intoResult a = .ok b ↔ findings.violations = [] ∧ findings.required = [] ∧ a = b := by
  unfold Findings.intoResult
  split_ifs <;> simp_all

theorem violations_checkSource {source : Object}
    (h : (checkSource scalars schema source).1.violations = []) :
    ∀ field ∈ schema.fields, FieldFits scalars field source := by
  have hfields : (schema.fields.map (checkField scalars source)).flatMap Prod.snd = [] := by
    unfold checkSource at h
    dsimp only at h
    split at h
    · exact (append_eq_nil_iff.mp h).1
    · exact h
    · exact h
  intro field hfield
  apply checkField_snd_eq_nil.mp
  exact flatMap_eq_nil_iff.mp hfields _ (mem_map_of_mem hfield)

theorem fits_of_checkDocumentInto {doc : Document}
    (h : (checkDocumentInto scalars schema doc).1.violations = []) : Fits scalars schema doc := by
  obtain ⟨hrest, hsparse⟩ := append_eq_nil_iff.mp h
  obtain ⟨hsource, hvectors⟩ := append_eq_nil_iff.mp hrest
  refine ⟨violations_checkSource hsource, fun name vector hget => ?_, fun name vector hget => ?_⟩
  · exact flatMap_eq_nil_iff.mp hvectors _
      (mem_toList_iff_getElem?_eq_some.mpr hget)
  · have hname := flatMap_eq_nil_iff.mp hsparse name
      (mem_keys.mpr (mem_of_get hget))
    intro hnone
    simp [hnone] at hname

/-- A document that fits passes the check that ignores unmapped paths. -/
theorem checkDocument_of_fits {doc : Document} (h : Fits scalars schema doc) :
    ∃ e, checkDocument scalars schema.lenient doc = .ok e := by
  refine ⟨_, intoResult_eq_ok.mpr ⟨?_, ?_, rfl⟩⟩
  · refine append_eq_nil_iff.mpr ⟨append_eq_nil_iff.mpr ⟨?_, ?_⟩, ?_⟩
    · refine flatMap_eq_nil_iff.mpr fun result hresult => ?_
      obtain ⟨field, hfield, rfl⟩ := mem_map.mp hresult
      exact checkField_snd_eq_nil.mpr (h.source field hfield)
    · refine flatMap_eq_nil_iff.mpr fun entry hentry => ?_
      exact h.vectors _ _ (mem_toList_iff_getElem?_eq_some.mp hentry)
    · refine flatMap_eq_nil_iff.mpr fun name hname => ?_
      obtain ⟨vector, hget⟩ := mem_iff_get.mp (mem_keys.mp hname)
      have hknown := h.sparseVectors name vector hget
      rw [if_neg]
      rwa [Option.isNone_iff_eq_none]
  · rfl

/-! ## Patches of what fits -/

/-- A source patched by a source gives a field nothing but values that coerce, when
neither has others. -/
theorem fieldFits_combine {field : FieldSpec} {current : Object} {p : Patch}
    (hcurrent : FieldFits scalars field current) (hpatch : FieldFits scalars field p.source)
    (hwf : (Value.object (combine current.fields p)).wellFormed = true) :
    FieldFits scalars field ⟨combine current.fields p, hwf⟩ := by
  intro hkind hstrict v hv
  have hall := forall_mem_append.mpr ⟨hcurrent hkind hstrict, hpatch hkind hstrict⟩
  have hwithin : Within (extract ⟨combine current.fields p, hwf⟩ field.sourcePath)
      (extract current field.sourcePath ++ extract p.source field.sourcePath) := by
    unfold extract
    split_ifs
    · intro w hw
      obtain rfl := mem_singleton.mp hw
      exact .inr ⟨rfl, .object current.fields, by simp, rfl⟩
    · exact within_combine current.fields p _
  rcases hwithin v hv with hv | ⟨-, w, hw, hobject⟩
  · exact hall v hv
  · -- An object would not have coerced in the first place.
    obtain ⟨found, hfound⟩ := hall w hw
    cases w with
    | object fields => cases hkind : field.kind <;> simp [Scalars.coerce, hkind] at hfound
    | _ => cases hobject

theorem of_setOrRemove {α : Type} {target : BTreeMap String α}
    {changes : BTreeMap String (Option α)} {name : String} {value : α}
    (h : (setOrRemove target changes)[name]? = some value) :
    (name, value) ∈ setEntries changes ∨ target[name]? = some value := by
  unfold setOrRemove at h
  unfold setEntries
  generalize changes.toList = l at h
  induction l generalizing target with
  | nil => exact .inr h
  | cons entry l ih =>
    obtain ⟨name', change⟩ := entry
    rcases ih h with hmem | hget
    · obtain ⟨p, hp, hvalue⟩ := mem_filterMap.mp hmem
      exact .inl (mem_filterMap.mpr ⟨p, mem_cons_of_mem _ hp, hvalue⟩)
    · cases change with
      | some value' =>
        rcases get_insert_eq_some.mp hget with ⟨rfl, rfl⟩ | ⟨-, hget⟩
        · exact .inl (mem_filterMap.mpr ⟨_, mem_cons_self, rfl⟩)
        · exact .inr hget
      | none => exact .inr (get_erase_eq_some.mp hget).2

/-- What a patch brings fits a schema. -/
structure PatchFits (scalars : Scalars) (schema : CollectionSchema) (p : Patch) : Prop where
  source : ∀ field ∈ schema.fields, FieldFits scalars field p.source
  vectors : ∀ entry ∈ setEntries p.vectors, checkVector schema entry.1 entry.2 = []
  sparseVectors : ∀ entry ∈ setEntries p.sparseVectors, schema.sparseVector entry.1 ≠ none
  upsert : ∀ doc, p.upsert = some doc → Fits scalars schema doc

theorem patchFits_of_checkPatch {p : Patch} (h : checkPatch scalars schema (.patch p) = .ok ()) :
    PatchFits scalars schema p := by
  have hnone := (intoResult_eq_ok.mp h).1
  obtain ⟨hrest, hupsert⟩ := append_eq_nil_iff.mp hnone
  obtain ⟨hrest, -⟩ := append_eq_nil_iff.mp hrest
  obtain ⟨hrest, hsparse⟩ := append_eq_nil_iff.mp hrest
  obtain ⟨hsource, hvectors⟩ := append_eq_nil_iff.mp hrest
  refine ⟨violations_checkSource hsource, fun entry hentry => ?_, fun entry hentry => ?_,
    fun doc hdoc => ?_⟩
  · exact flatMap_eq_nil_iff.mp hvectors entry hentry
  · have hname := flatMap_eq_nil_iff.mp hsparse entry.1 (mem_map_of_mem hentry)
    intro hunknown
    simp [hunknown] at hname
  · rw [hdoc] at hupsert
    exact fits_of_checkDocumentInto hupsert

/-- A document that fits, patched by what fits, fits. -/
theorem fits_of_applyPatch {current : Option Document} {p : Patch} {next : Document}
    (hcurrent : ∀ doc, current = some doc → Fits scalars schema doc)
    (hpatch : PatchFits scalars schema p) (h : applyPatch current (.patch p) = some next) :
    Fits scalars schema next := by
  cases current with
  | none => exact hpatch.upsert next (Option.filter_eq_some_iff.mp h).1
  | some doc =>
    have hdoc := hcurrent doc rfl
    obtain rfl := Option.some.inj h
    refine ⟨fun field hfield => ?_, fun name vector hget => ?_, fun name vector hget => ?_⟩
    · exact fieldFits_combine (hdoc.source field hfield) (hpatch.source field hfield) _
    · rcases of_setOrRemove hget with hset | hold
      · exact hpatch.vectors _ hset
      · exact hdoc.vectors name vector hold
    · rcases of_setOrRemove hget with hset | hold
      · exact hpatch.sparseVectors _ hset
      · exact hdoc.sparseVectors name vector hold

end Fits

/-! ## Applying what was accepted -/

section Accepted

variable {rt : Runtime} {collection : CollectionInfo}

theorem refuseWith_eq_ok {ε ε' α : Type} {f : ε → ε'} {x : Except ε α} {a : α} :
    refuseWith f x = .ok a ↔ x = .ok a := by
  cases x <;> simp [refuseWith]

/-- What a write brings fits the schema. -/
def OpFits (rt : Runtime) (collection : CollectionInfo) : DocOp → Prop
  | .upsert doc => Fits rt.scalars collection.schema doc
  | .delete _ => True
  | .patch p => PatchFits rt.scalars collection.schema p

theorem opFits_of_checkOp {op : DocOp} (h : checkOp rt collection op = .ok ()) :
    OpFits rt collection op := by
  cases op with
  | upsert doc =>
    obtain ⟨e, he, -⟩ := except_bind_ok.mp h
    exact fits_of_checkDocumentInto (intoResult_eq_ok.mp (refuseWith_eq_ok.mp he)).1
  | delete pk => trivial
  | patch p =>
    unfold checkOp at h
    dsimp only at h
    split at h
    · cases h
    · obtain ⟨-, -, h⟩ := except_bind_ok.mp h
      exact patchFits_of_checkPatch (refuseWith_eq_ok.mp h)

/-- A write that fits leaves a row that fits, and is not rejected. -/
theorem writeRow_of_fits {row : Option Row} {key : KeyOp}
    (hrow : ∀ old, row = some old → Fits rt.scalars collection.schema old.doc)
    (hop : OpFits rt collection key.op) :
    (writeRow rt.scalars collection.schema.lenient row key).2 = none ∧
      ∀ new, (writeRow rt.scalars collection.schema.lenient row key).1 = some new →
        Fits rt.scalars collection.schema new.doc := by
  unfold writeRow
  cases hkey : key.op with
  | upsert doc =>
    rw [hkey] at hop
    refine ⟨rfl, fun new hnew => ?_⟩
    obtain rfl := Option.some.inj hnew
    exact hop
  | delete pk => exact ⟨rfl, fun new hnew => nomatch hnew⟩
  | patch p =>
    rw [hkey] at hop
    have hcurrent : ∀ doc, row.map (·.doc) = some doc →
        Fits rt.scalars collection.schema doc := by
      intro doc hdoc
      obtain ⟨old, hold, rfl⟩ := Option.map_eq_some_iff.mp hdoc
      exact hrow old hold
    dsimp only
    cases hnext : applyPatch (row.map (·.doc)) (.patch p) with
    | none => exact ⟨rfl, hrow⟩
    | some next =>
      have hfits := fits_of_applyPatch hcurrent hop hnext
      obtain ⟨e, he⟩ := checkDocument_of_fits hfits
      dsimp only
      rw [he]
      split_ifs
      · exact ⟨rfl, hrow⟩
      · refine ⟨rfl, fun new hnew => ?_⟩
        obtain rfl := Option.some.inj hnew
        exact hfits

/-- What an accepted write is when its record is applied. -/
theorem sortRecord_of_check
    (hcodec : ∀ op record, rt.encode op = .ok record → rt.decode record = .ok op)
    {op : DocOp} {partition : ℕ} {record : OffsetRecord}
    (h : check rt collection op = .ok (partition, record.record)) :
    rt.decode record.record = .ok op ∧ op.pk.partitionOf rt.hash collection.partitions = partition ∧
      OpFits rt collection op ∧
      ∃ key, sortRecord rt collection partition record = .ok key ∧ key.op = op := by
  obtain ⟨-, -, h⟩ := except_bind_ok.mp h
  obtain ⟨⟨⟩, hop, h⟩ := except_bind_ok.mp h
  obtain ⟨encoded, hencode, h⟩ := except_bind_ok.mp h
  obtain ⟨rfl, rfl⟩ := Prod.mk.inj (Except.ok.inj h)
  have hdecode := hcodec op record.record (refuseWith_eq_ok.mp hencode)
  have hfits := opFits_of_checkOp hop
  obtain ⟨extracted, htyped⟩ : ∃ extracted, typedValues rt collection op = .ok extracted := by
    cases op with
    | upsert doc =>
      obtain ⟨e, he⟩ := checkDocument_of_fits hfits
      exact ⟨some e, by rw [typedValues, he]⟩
    | delete pk | patch p => exact ⟨none, rfl⟩
  refine ⟨hdecode, rfl, hfits,
    ⟨op.pk.partitionOf rt.hash collection.partitions, record.offset, op, extracted⟩, ?_, rfl⟩
  refine except_bind_ok.mpr ⟨op, by rw [decodeOp, hdecode], ?_⟩
  refine except_bind_ok.mpr ⟨(), require_eq_ok.mpr rfl, ?_⟩
  exact except_bind_ok.mpr ⟨extracted, htyped, rfl⟩

/-- Contents of which every document fits. -/
def Contents.AllFit (rt : Runtime) (collection : CollectionInfo) (c : Contents) : Prop :=
  c.letters = [] ∧ ∀ pk row, c.rows pk = some row → Fits rt.scalars collection.schema row.doc

theorem Contents.AllFit.applyRecord {c : Contents} (h : c.AllFit rt collection)
    {r : ℕ × OffsetRecord} {key : KeyOp} (hsort : sortRecord rt collection r.1 r.2 = .ok key)
    (hfits : OpFits rt collection key.op) :
    (c.applyRecord rt collection r).AllFit rt collection := by
  obtain ⟨hletter, hrow⟩ := writeRow_of_fits (h.2 key.op.pk) hfits
  unfold Contents.applyRecord
  rw [keyOf_of_ok hsort]
  dsimp only
  rw [writeRecord_of_ok hsort]
  refine ⟨?_, fun pk row hget => ?_⟩
  · rw [hletter, h.1]
    rfl
  · dsimp only at hget
    rw [Function.update_apply] at hget
    split_ifs at hget
    · exact hrow row hget
    · exact h.2 pk row hget

theorem Contents.AllFit.applyRecords
    (hcodec : ∀ op record, rt.encode op = .ok record → rt.decode record = .ok op)
    {accepted : List (DocOp × ℕ × OffsetRecord)}
    (hcheck : ∀ w ∈ accepted, check rt collection w.1 = .ok (w.2.1, w.2.2.record)) {c : Contents}
    (h : c.AllFit rt collection) :
    (c.applyRecords rt collection (accepted.map Prod.snd)).AllFit rt collection := by
  induction accepted generalizing c with
  | nil => exact h
  | cons w accepted ih =>
    obtain ⟨-, -, hfits, key, hsort, hop⟩ :=
      sortRecord_of_check hcodec (hcheck w mem_cons_self)
    exact ih (fun w' hw' => hcheck w' (mem_cons_of_mem w hw'))
      (h.applyRecord hsort (hop ▸ hfits))

end Accepted

/-- Writes that the writer accepted, appended to the log and applied in batches of any
size: each decodes to the write that was accepted, stands on its key's partition, and
none becomes a dead letter; every document they leave passes the check of the schema
with unmapped paths ignored. -/
theorem accepted_writes_apply (rt : Runtime) (collection : CollectionInfo)
    (hcodec : ∀ op record, rt.encode op = .ok record → rt.decode record = .ok op)
    {accepted : List (DocOp × ℕ × OffsetRecord)}
    (hcheck : ∀ w ∈ accepted, check rt collection w.1 = .ok (w.2.1, w.2.2.record))
    {batches : List (List (ℕ × OffsetRecord) × ℕ)}
    (hbatches : batches.flatMap Prod.fst = accepted.map Prod.snd)
    (horder : LogOrder (accepted.map Prod.snd)) :
    (∀ w ∈ accepted, rt.decode w.2.2.record = .ok w.1 ∧
      w.1.pk.partitionOf rt.hash collection.partitions = w.2.1) ∧
    ∃ c, Committed.empty.applyBatches rt collection batches = .ok c ∧ c.letters = [] ∧
      ∀ pk row, c.snapshot.view pk = some row →
        ∃ e, checkDocument rt.scalars collection.schema.lenient row.doc = .ok e := by
  refine ⟨fun w hw => ?_, ?_⟩
  · obtain ⟨hdecode, hhome, -⟩ := sortRecord_of_check hcodec (hcheck w hw)
    exact ⟨hdecode, hhome⟩
  · obtain ⟨c, hcommit, hhas⟩ := Committed.has_empty.applyBatches (hbatches ▸ horder)
    have hfit : Contents.empty.AllFit rt collection := ⟨rfl, fun _ _ h => nomatch h⟩
    have hall := hfit.applyRecords hcodec hcheck
    rw [hbatches] at hhas
    refine ⟨c, hcommit, ?_, fun pk row hrow => ?_⟩
    · exact List.Perm.eq_nil (hall.1 ▸ hhas.perm)
    · rw [hhas.rows] at hrow
      exact checkDocument_of_fits (hall.2 pk row hrow)

namespace Sample

theorem decode_of_encode_task (op : DocOp) (record : Log.Record)
    (h : runtime.encode op = .ok record) : runtime.decode record = .ok op := by
  have hkey (n : UInt64) : UInt64.ofNat (ofBeBytes (beBytes 8 n.toNat)) = n := by
    rw [ofBeBytes_beBytes n.toNat_lt, UInt64.ofNat_toNat]
  have hdone (done : Bool) : ([done.toUInt8] == [1]) = done := by
    cases done <;> rfl
  unfold runtime at h ⊢
  dsimp only at h ⊢
  split at h
  · split_ifs at h with htask
    obtain ⟨rfl, hv, hs⟩ := htask
    cases h
    simp [Sample.record, PrimaryKey.canonical, hkey, hdone, task, source, isEmpty_iff.mp hv,
      isEmpty_iff.mp hs]
  · cases h
    simp [Sample.record, PrimaryKey.canonical, hkey]
  · split_ifs at h with htask
    obtain ⟨rfl, hv, hs⟩ := htask
    cases h
    simp [Sample.record, PrimaryKey.canonical, hkey, hdone, mark, source, isEmpty_iff.mp hv,
      isEmpty_iff.mp hs]
  · cases h

/-- A task is written and marked as done. -/
def writes : List (DocOp × ℕ × OffsetRecord) :=
  [(.upsert (task 7 false), 0, ⟨3, record 7 0 [0]⟩), (.patch (mark 7 true), 0, ⟨4, record 7 2 [1]⟩)]

end Sample

/-- Each write is a batch of its own. -/
theorem accepted_writes_apply_sample :
    ∃ c, Committed.empty.applyBatches Sample.runtime Sample.collection
      (Sample.writes.map fun w => ([w.2], 1)) = .ok c ∧ c.letters = [] ∧
      ∀ row, c.snapshot.view (.u64 7) = some row →
        ∃ e, checkDocument Sample.scalars Sample.collection.schema.lenient row.doc = .ok e := by
  have hcheck : ∀ w ∈ Sample.writes,
      check Sample.runtime Sample.collection w.1 = .ok (w.2.1, w.2.2.record) := by
    decide +kernel
  have horder : LogOrder (Sample.writes.map Prod.snd) := by
    simp only [LogOrder, Sample.writes]
    decide
  have hbatches : (Sample.writes.map fun w => ([w.2], 1)).flatMap Prod.fst =
      Sample.writes.map Prod.snd := rfl
  obtain ⟨-, c, hcommit, hletters, hfits⟩ := accepted_writes_apply Sample.runtime
    Sample.collection Sample.decode_of_encode_task hcheck hbatches horder
  exact ⟨c, hcommit, hletters, hfits (.u64 7)⟩

end Loams.Collection
