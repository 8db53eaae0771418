/-
# A collection does not depend on how its records were batched
-/

import Loams.Collection.Resolve
import Loams.Control.Cells

namespace Loams.Collection

open List hiding after
open Std.ExtTreeMap hiding insert map_map
open Loams.Control Loams.Data Loams.Log Std Resolution

/-! ## One record at a time -/

/-- The row of each key, and the dead letters. -/
structure Contents where
  rows : PrimaryKey → Option Row
  letters : List DeadLetter

namespace Contents

/-- No documents and no dead letters. -/
def empty : Contents := ⟨fun _ => none, []⟩

end Contents

/-- What a write makes of its key's row, and why it is rejected if it is. -/
def writeRow (scalars : Scalars) (lenient : CollectionSchema) (row : Option Row) (key : KeyOp) :
    Option Row × Option String :=
  match key.op with
  | .upsert doc => (some ⟨doc, key.partition, key.offset⟩, none)
  | .delete _ => (none, none)
  | .patch _ =>
    match applyPatch (row.map (·.doc)) key.op with
    | none => (row, none)
    | some next =>
      if row.any (·.doc.same next) then (row, none)
      else match checkDocument scalars lenient next with
        | .ok _ => (some ⟨next, key.partition, key.offset⟩, none)
        | .error rejection => (row, some (schemaReason rejection))

section Records

variable (rt : Runtime) (collection : CollectionInfo)

/-- What a record makes of the row of its key. -/
def writeRecord (row : Option Row) (r : ℕ × OffsetRecord) : Option Row × Option DeadLetter :=
  match sortRecord rt collection r.1 r.2 with
  | .error reason => (row, some (letter r.1 r.2 reason))
  | .ok key =>
    let written := writeRow rt.scalars collection.schema.lenient row key
    (written.1, written.2.map (letter r.1 r.2))

/-- The key whose row a record may move. -/
def keyOf (r : ℕ × OffsetRecord) : Option PrimaryKey :=
  match sortRecord rt collection r.1 r.2 with
  | .error _ => none
  | .ok key => some key.op.pk

/-- Applies one record. -/
def Contents.applyRecord (c : Contents) (r : ℕ × OffsetRecord) : Contents :=
  match keyOf rt collection r with
  | none => { c with letters := c.letters ++ (writeRecord rt collection none r).2.toList }
  | some pk =>
    let written := writeRecord rt collection (c.rows pk) r
    { rows := Function.update c.rows pk written.1
      letters := c.letters ++ written.2.toList }

/-- The records one after the other. -/
def Contents.applyRecords (c : Contents) (records : List (ℕ × OffsetRecord)) : Contents :=
  records.foldl (Contents.applyRecord rt collection) c

end Records

/-- The records of each partition in the order of their offsets, as the log has them. -/
def LogOrder (records : List (ℕ × OffsetRecord)) : Prop :=
  records.Pairwise fun a b => a.1 = b.1 → a.2.offset < b.2.offset

variable {ops : List KeyOp}

section Cells

variable {rt : Runtime} {collection : CollectionInfo}

/-- The cells of a collection: one for each key, and one that collects what is
rejected before any key is looked at. -/
def cells (rows : PrimaryKey → Option Row) : Option PrimaryKey → Option Row
  | none => none
  | some pk => rows pk

section Record

variable {r : ℕ × OffsetRecord} {row : Option Row} {reason : String} {key : KeyOp}

theorem keyOf_of_error (h : sortRecord rt collection r.1 r.2 = .error reason) :
    keyOf rt collection r = none := by
  rw [keyOf, h]

theorem keyOf_of_ok (h : sortRecord rt collection r.1 r.2 = .ok key) :
    keyOf rt collection r = some key.op.pk := by
  rw [keyOf, h]

theorem writeRecord_of_error (h : sortRecord rt collection r.1 r.2 = .error reason) :
    writeRecord rt collection row r = (row, some (letter r.1 r.2 reason)) := by
  rw [writeRecord, h]

theorem writeRecord_of_ok (h : sortRecord rt collection r.1 r.2 = .ok key) :
    writeRecord rt collection row r =
      ((writeRow rt.scalars collection.schema.lenient row key).1,
        (writeRow rt.scalars collection.schema.lenient row key).2.map (letter r.1 r.2)) := by
  rw [writeRecord, h]

end Record

/-- Applying records one at a time is a run over the cells. -/
theorem applyRecords_eq_runAll (rt : Runtime) (collection : CollectionInfo) (c : Contents)
    (records : List (ℕ × OffsetRecord)) :
    (fun pk => (runAll (keyOf rt collection) (writeRecord rt collection) (cells c.rows)
        records).1 (some pk)) = (c.applyRecords rt collection records).rows ∧
      (c.applyRecords rt collection records).letters =
        c.letters ++ (runAll (keyOf rt collection) (writeRecord rt collection) (cells c.rows)
          records).2 := by
  induction records generalizing c with
  | nil => exact ⟨rfl, (append_nil _).symm⟩
  | cons r records ih =>
    obtain ⟨hrows, hletters⟩ := ih (c.applyRecord rt collection r)
    -- The cells after the first record.
    have hcells : Function.update (cells c.rows) (keyOf rt collection r)
        (writeRecord rt collection (cells c.rows (keyOf rt collection r)) r).1 =
          cells (c.applyRecord rt collection r).rows ∧
        (c.applyRecord rt collection r).letters = c.letters ++
          (writeRecord rt collection (cells c.rows (keyOf rt collection r)) r).2.toList := by
      unfold Contents.applyRecord
      cases hsort : sortRecord rt collection r.1 r.2 with
      | error reason =>
        simp only [keyOf_of_error hsort, writeRecord_of_error hsort]
        exact ⟨Function.update_eq_self _ _, trivial⟩
      | ok key =>
        rw [keyOf_of_ok hsort]
        refine ⟨?_, rfl⟩
        funext k
        cases k with
        | none => rfl
        | some pk' => simp [cells, Function.update_apply]
    rw [runAll]
    dsimp only
    rw [hcells.1]
    refine ⟨hrows, ?_⟩
    rw [Contents.applyRecords, foldl_cons, ← Contents.applyRecords, hletters, hcells.2,
      append_assoc]

/-! ## The writes of one key -/

/-- A record that is sorted to a key keeps its place, and a valid upsert has its typed
values. -/
theorem sortRecord_ok {p : ℕ} {record : OffsetRecord} {key : KeyOp}
    (h : sortRecord rt collection p record = .ok key) :
    key.partition = p ∧ key.offset = record.offset ∧
      ∀ doc, key.op = .upsert doc → ∃ e, key.extracted = some e := by
  obtain ⟨op, -, h⟩ := except_bind_ok.mp h
  obtain ⟨-, -, h⟩ := except_bind_ok.mp h
  obtain ⟨extracted, hextracted, h⟩ := except_bind_ok.mp h
  obtain rfl := Except.ok.inj h
  refine ⟨rfl, rfl, ?_⟩
  rintro doc rfl
  rw [typedValues] at hextracted
  cases hcheck : checkDocument rt.scalars collection.schema.lenient doc with
  | ok e =>
    rw [hcheck] at hextracted
    exact ⟨e, (Except.ok.inj hextracted).symm⟩
  | error rejection =>
    rw [hcheck] at hextracted
    cases hextracted

/-- How far the fold of a key has come when its row, record by record, is `row`: the
document is that of the row, and either a write of the batch is the row's, or the row
is gone or still the one the key started with. -/
def Tracks (start : Option Row) (state : Option Document) (written : LastWrite)
    (row : Option Row) : Prop :=
  match written with
  | some (_, p, o) => ∃ doc, state = some doc ∧ row = some ⟨doc, p, o⟩
  | none => state = row.map (·.doc) ∧ (row = none ∨ row = start)

variable {records : BatchRecords} {start row : Option Row} {state : Option Document}
  {written : LastWrite} {key : KeyOp} {r : ℕ × OffsetRecord}

/-- The resolution with more dead letters. -/
def Resolution.withLetters (resolution : Resolution) (letters : List DeadLetter) : Resolution :=
  { resolution with letters := resolution.letters ++ letters }

/-- One write, as the fold of the batch does it and as it is done alone. -/
theorem foldOps_cons (hsort : sortRecord rt collection r.1 r.2 = .ok key)
    (hrecord : records[(r.1, r.2.offset)]? = some r.2)
    (h : Tracks start state written row) (resolution : Resolution) (rest : List KeyOp) :
    ∃ state' written',
      foldOps rt.scalars collection.schema.lenient records state written resolution
          (key :: rest) =
        foldOps rt.scalars collection.schema.lenient records state' written'
          (resolution.withLetters (writeRecord rt collection row r).2.toList) rest ∧
      Tracks start state' written' (writeRecord rt collection row r).1 := by
  obtain ⟨hp, ho, hextracted⟩ := sortRecord_ok hsort
  have hstate : state = row.map (·.doc) := by
    unfold Tracks at h
    split at h
    · obtain ⟨doc, rfl, rfl⟩ := h
      rfl
    · exact h.1
  have hnone : resolution.withLetters [] = resolution := by
    simp [withLetters]
  rw [writeRecord_of_ok hsort, foldOps]
  unfold writeRow
  cases hop : key.op with
  | upsert doc =>
    obtain ⟨e, he⟩ := hextracted doc hop
    exact ⟨some doc, some (e, key.partition, key.offset), by simp [he, fold, hnone],
      doc, rfl, rfl⟩
  | delete pk => exact ⟨none, none, by simp [hnone], rfl, .inl rfl⟩
  | patch p =>
    have hfold : fold state [.patch p] = applyPatch (row.map (·.doc)) (.patch p) := by
      rw [hstate]
      rfl
    dsimp only
    rw [hfold]
    cases applyPatch (row.map (·.doc)) (.patch p) with
    | none => exact ⟨state, written, by simp [hnone], h⟩
    | some next =>
      have hsame : state.any (·.same next) = row.any (·.doc.same next) := by
        rw [hstate]
        cases row <;> rfl
      dsimp only
      rw [hsame]
      cases row.any (·.doc.same next) with
      | true => exact ⟨state, written, by simp [hnone], h⟩
      | false =>
        cases checkDocument rt.scalars collection.schema.lenient next with
        | ok e =>
          exact ⟨some next, some (e, key.partition, key.offset), by simp [hnone],
            next, rfl, rfl⟩
        | error rejection =>
          refine ⟨state, written, ?_, h⟩
          simp only [Bool.false_eq_true, if_false, hp, ho, hrecord, Option.map_some,
            Option.toList_some]
          rfl

/-- The fold of a key's writes gives the row and the dead letters of its records one
at a time. -/
theorem foldOps_spec {rs : List (ℕ × OffsetRecord)}
    (hops : List.Forall₂ (fun r key => sortRecord rt collection r.1 r.2 = .ok key) rs ops)
    (hrecords : ∀ r ∈ rs, records[(r.1, r.2.offset)]? = some r.2)
    (h : Tracks start state written row) (resolution : Resolution) :
    ∃ state' written',
      foldOps rt.scalars collection.schema.lenient records state written resolution ops =
        .ok (state', written',
          resolution.withLetters (runCell (writeRecord rt collection) row rs).2) ∧
      Tracks start state' written' (runCell (writeRecord rt collection) row rs).1 := by
  induction hops generalizing state written resolution row with
  | nil =>
    exact ⟨state, written, by simp [foldOps, runCell, withLetters, pure, Except.pure], h⟩
  | @cons r key rs ops hsort _ ih =>
    obtain ⟨state₁, written₁, hfirst, htracks⟩ :=
      foldOps_cons hsort (hrecords r mem_cons_self) h resolution ops
    obtain ⟨state₂, written₂, hrest, htracks⟩ :=
      ih (fun r' hr' => hrecords r' (mem_cons_of_mem r hr')) htracks
        (resolution.withLetters (writeRecord rt collection row r).2.toList)
    refine ⟨state₂, written₂, ?_, htracks⟩
    rw [hfirst, hrest]
    simp only [withLetters, runCell, append_assoc]

/-- Writes that do not begin with a patch do not depend on what was there. -/
theorem foldOps_of_not_needsCurrent {state₁ state₂ : Option Document}
    (hne : ops ≠ []) (h : needsCurrent (ops.map (·.op)) = false) (resolution : Resolution) :
    foldOps rt.scalars collection.schema.lenient records state₁ none resolution ops =
      foldOps rt.scalars collection.schema.lenient records state₂ none resolution ops := by
  cases ops with
  | nil => exact absurd rfl hne
  | cons key rest =>
    rw [foldOps, foldOps]
    cases hop : key.op with
    | upsert doc => rfl
    | delete pk => rfl
    | patch p => simp [needsCurrent, hop] at h

end Cells

/-! ## Rows and their index -/

/-- The row that an insert becomes. -/
def Insert.row (insert : Insert) : Row := ⟨insert.doc, insert.partition, insert.offset⟩

namespace Snapshot

/-- The index maps exactly the keys of the rows to their rows. -/
structure Consistent (s : Snapshot) : Prop where
  indexed : ∀ (pk : PrimaryKey) (id : ℕ), s.index[pk]? = some id →
    ∃ row : Row, s.rows[id]? = some row ∧ row.doc.pk = pk
  stored : ∀ (id : ℕ) (row : Row), s.rows[id]? = some row → s.index[row.doc.pk]? = some id

namespace Consistent

variable {s : Snapshot} {pk : PrimaryKey} {row : Row} {id : ℕ}

theorem view_of_index (h : s.Consistent) (hindex : s.index[pk]? = some id) :
    ∃ row : Row, s.view pk = some row ∧ s.rows[id]? = some row ∧ row.doc.pk = pk := by
  obtain ⟨row, hrow, hpk⟩ := h.indexed pk id hindex
  refine ⟨row, ?_, hrow, hpk⟩
  rw [view, hindex]
  exact hrow

theorem view_of_not_indexed (hindex : s.index[pk]? = none) : s.view pk = none := by
  rw [view, hindex]
  rfl

theorem pk_of_view (h : s.Consistent) (hview : s.view pk = some row) : row.doc.pk = pk := by
  cases hindex : s.index[pk]? with
  | none => rw [view_of_not_indexed hindex] at hview; cases hview
  | some id =>
    obtain ⟨row', hview', -, hpk⟩ := h.view_of_index hindex
    rw [hview'] at hview
    exact Option.some.inj hview ▸ hpk

end Consistent

end Snapshot

/-! ## The keys of a batch -/

section Keys

variable {rt : Runtime} {collection : CollectionInfo} {s : Snapshot} {records : BatchRecords}

/-- What an outcome makes of a key's row. -/
def Outcome.Gives (before : Option Row) : Outcome → Option Row → Prop
  | .unchanged, after => after = before
  | .delete, after => after = none ∧ before ≠ none
  | .upsert insert, after => after = some insert.row

variable {rs batch : List (ℕ × OffsetRecord)}

/-- The fold of a key, against its records one at a time. -/
theorem foldKey_spec {before : Option Row} {current : Option Document}
    (hops : List.Forall₂ (fun r key => sortRecord rt collection r.1 r.2 = .ok key) rs ops)
    (hne : ops ≠ []) (hrecords : ∀ r ∈ rs, records[(r.1, r.2.offset)]? = some r.2)
    (hcurrent : current = before.map (·.doc) ∨ needsCurrent (ops.map (·.op)) = false)
    (resolution : Resolution) :
    ∃ outcome : Outcome,
      foldKey rt.scalars collection.schema.lenient records current ops resolution before.isSome =
        .ok (outcome, resolution.withLetters (runCell (writeRecord rt collection) before rs).2) ∧
      outcome.Gives before (runCell (writeRecord rt collection) before rs).1 := by
  have hread : foldOps rt.scalars collection.schema.lenient records current none resolution ops =
      foldOps rt.scalars collection.schema.lenient records (before.map (·.doc)) none resolution
        ops := by
    rcases hcurrent with rfl | hfirst
    · rfl
    · exact foldOps_of_not_needsCurrent hne hfirst resolution
  have hstart : Tracks before (before.map (·.doc)) none before := ⟨rfl, .inr rfl⟩
  obtain ⟨state, written, hfold, htracks⟩ := foldOps_spec hops hrecords hstart resolution
  rw [foldKey, hread, hfold]
  refine ⟨_, rfl, ?_⟩
  cases written with
  | some w =>
    obtain ⟨e, p, o⟩ := w
    obtain ⟨doc, rfl, hrow⟩ := htracks
    exact hrow
  | none =>
    obtain ⟨hstate, hrow⟩ := htracks
    cases state with
    | some doc =>
      -- The row was neither written nor removed.
      rcases hrow with hrow | hrow
      · rw [hrow] at hstate
        cases hstate
      · exact hrow
    | none =>
      have hgone : (runCell (writeRecord rt collection) before rs).1 = none := by
        simpa using hstate.symm
      cases before with
      | none => exact hgone
      | some row => exact ⟨hgone, by simp⟩

/-- The committed document is read when it is needed. -/
theorem committedOf_eq (hs : s.Consistent) (pk : PrimaryKey) (ops : List KeyOp) :
    ∃ current, committedOf s pk ops = .ok current ∧
      (current = (s.view pk).map (·.doc) ∨ needsCurrent (ops.map (·.op)) = false) := by
  unfold committedOf
  cases hindex : s.index[pk]? with
  | none =>
    rw [Snapshot.Consistent.view_of_not_indexed hindex]
    exact ⟨none, rfl, .inl rfl⟩
  | some id =>
    obtain ⟨row, hview, hrow, hpk⟩ := hs.view_of_index hindex
    cases hneeds : needsCurrent (ops.map (·.op)) with
    | false => exact ⟨none, by simp [pure, Except.pure], .inr rfl⟩
    | true => exact ⟨some row.doc, by simp [hrow, hpk, pure, Except.pure], .inl (by simp [hview])⟩

/-- A key is resolved to what its records give one at a time. -/
theorem resolveKey_spec (hs : s.Consistent) (pk : PrimaryKey)
    (hops : List.Forall₂ (fun r key => sortRecord rt collection r.1 r.2 = .ok key) rs ops)
    (hne : ops ≠ []) (hrecords : ∀ r ∈ rs, records[(r.1, r.2.offset)]? = some r.2)
    (resolution : Resolution) :
    ∃ outcome : Outcome,
      resolveKey rt collection s records resolution (pk, ops) =
        .ok ((resolution.withLetters
          (runCell (writeRecord rt collection) (s.view pk) rs).2).settle pk s.index[pk]? outcome) ∧
      outcome.Gives (s.view pk) (runCell (writeRecord rt collection) (s.view pk) rs).1 := by
  obtain ⟨current, hread, hcurrent⟩ := committedOf_eq hs pk ops
  obtain ⟨outcome, hfold, hgives⟩ := foldKey_spec hops hne hrecords hcurrent resolution
  have hsome : s.index[pk]?.isSome = (s.view pk).isSome := by
    cases hindex : s.index[pk]? with
    | none => rw [Snapshot.Consistent.view_of_not_indexed hindex]; rfl
    | some id =>
      obtain ⟨row, hview, -⟩ := hs.view_of_index hindex
      rw [hview]
      rfl
  refine ⟨outcome, ?_, hgives⟩
  rw [← hsome] at hfold
  exact except_bind_ok.mpr ⟨current, hread, except_bind_ok.mpr ⟨_, hfold, rfl⟩⟩

/-- The first pass over the records so far: they are all at hand, the writes of each
key are in order, and what was rejected is a dead letter. -/
structure Pass.Over (rt : Runtime) (collection : CollectionInfo) (pass : Pass)
    (done : List (ℕ × OffsetRecord)) : Prop where
  records : ∀ r ∈ done, pass.records[(r.1, r.2.offset)]? = some r.2
  ops : ∀ (pk : PrimaryKey) (ops : List KeyOp), pass.keys[pk]? = some ops → ops ≠ [] ∧
    List.Forall₂ (fun r key => sortRecord rt collection r.1 r.2 = .ok key)
      (inputsOf (keyOf rt collection) (some pk) done) ops
  absent : ∀ pk : PrimaryKey, pass.keys[pk]? = none →
    inputsOf (keyOf rt collection) (some pk) done = []
  resolution : pass.resolution = Resolution.empty.withLetters
    (runCell (writeRecord rt collection) none (inputsOf (keyOf rt collection) none done)).2

section Step

variable {pass : Pass} {done : List (ℕ × OffsetRecord)} {r : ℕ × OffsetRecord} {reason : String}
  {key : KeyOp}

variable {k : Option PrimaryKey}

theorem inputsOf_concat_same (h : keyOf rt collection r = k) :
    inputsOf (keyOf rt collection) k (done ++ [r]) =
      inputsOf (keyOf rt collection) k done ++ [r] := by
  simp [inputsOf, h]

theorem inputsOf_concat_ne (h : keyOf rt collection r ≠ k) :
    inputsOf (keyOf rt collection) k (done ++ [r]) = inputsOf (keyOf rt collection) k done := by
  simp [inputsOf, h]

section

variable (h : pass.Over rt collection done) (horder : LogOrder (done ++ [r]))
include h horder

/-- The records of the pass are told apart by their partition and offset. -/
theorem Pass.Over.records_step :
    ∀ r' ∈ done ++ [r], (pass.records.insert (r.1, r.2.offset) r.2)[(r'.1, r'.2.offset)]? =
      some r'.2 := by
  intro r' hr'
  rcases mem_append.mp hr' with hold | hnew
  · have hlt := (pairwise_append.mp horder).2.2 r' hold r mem_cons_self
    have hne : (r.1, r.2.offset) ≠ (r'.1, r'.2.offset) := by
      intro heq
      obtain ⟨hp, ho⟩ := Prod.mk.inj heq
      have hless := hlt hp.symm
      rw [ho] at hless
      exact UInt64.lt_irrefl _ hless
    rw [get_insert_ne hne]
    exact h.records r' hold
  · obtain rfl : r' = r := mem_singleton.mp hnew
    exact getElem?_insert_self

/-- A rejected record joins the dead letters. -/
theorem Pass.Over.step_error (hsort : sortRecord rt collection r.1 r.2 = .error reason) :
    (pass.step rt collection r).Over rt collection (done ++ [r]) := by
  have hkey := keyOf_of_error hsort
  have hother : ∀ pk : PrimaryKey, keyOf rt collection r ≠ some pk := by
    rw [hkey]
    exact fun pk => nofun
  rw [Pass.step, hsort]
  refine ⟨h.records_step horder, fun pk ops hops => ?_, fun pk hnone => ?_, ?_⟩
  · rw [inputsOf_concat_ne (hother pk)]
    exact h.ops pk ops hops
  · rw [inputsOf_concat_ne (hother pk)]
    exact h.absent pk hnone
  · rw [inputsOf_concat_same hkey, runCell_append, h.resolution]
    simp [withLetters, Resolution.letter, runCell, writeRecord_of_error hsort]

/-- A write joins those of its key. -/
theorem Pass.Over.step_ok (hsort : sortRecord rt collection r.1 r.2 = .ok key) :
    (pass.step rt collection r).Over rt collection (done ++ [r]) := by
  have hkey := keyOf_of_ok hsort
  have hown : List.Forall₂ (fun r key => sortRecord rt collection r.1 r.2 = .ok key)
      (inputsOf (keyOf rt collection) (some key.op.pk) (done ++ [r]))
      ((pass.keys[key.op.pk]?).getD [] ++ [key]) := by
    rw [inputsOf_concat_same hkey]
    refine rel_append ?_ (.cons hsort .nil)
    cases hops : pass.keys[key.op.pk]? with
    | none =>
      rw [h.absent _ hops]
      exact .nil
    | some ops => exact (h.ops _ ops hops).2
  rw [Pass.step, hsort]
  refine ⟨h.records_step horder, fun pk ops hops => ?_, fun pk hnone => ?_, ?_⟩
  · rcases get_insert_eq_some.mp hops with ⟨rfl, rfl⟩ | ⟨heq, hops⟩
    · exact ⟨by simp, hown⟩
    · rw [inputsOf_concat_ne (by rw [hkey]; simpa using heq)]
      exact h.ops pk ops hops
  · rw [get_insert] at hnone
    split_ifs at hnone with heq
    rw [inputsOf_concat_ne (by rw [hkey]; simpa using heq)]
    exact h.absent pk hnone
  · rw [inputsOf_concat_ne (by rw [hkey]; simp)]
    exact h.resolution

end

/-- The whole pass. -/
theorem Pass.over_foldl {batch : List (ℕ × OffsetRecord)} (horder : LogOrder batch) :
    (batch.foldl (Pass.step rt collection) ⟨∅, ∅, .empty⟩).Over rt collection batch := by
  induction batch using reverseRecOn with
  | nil =>
    refine ⟨by simp, fun pk ops hops => ?_, fun _ _ => rfl, rfl⟩
    simp at hops
  | append_singleton done r ih =>
    have hdone := ih (pairwise_append.mp horder).1
    rw [foldl_append, foldl_cons, foldl_nil]
    cases hsort : sortRecord rt collection r.1 r.2 with
    | error reason => exact hdone.step_error horder hsort
    | ok key => exact hdone.step_ok horder hsort

end Step

/-! ## What a resolution does to the rows -/

/-- The resolution of the keys that were folded so far: it inserts, deletes or keeps
the row of each, and deletes the old rows of those it does not keep. -/
structure Resolution.Settles (s : Snapshot) (final : PrimaryKey → Option Row)
    (done : List PrimaryKey) (r : Resolution) : Prop where
  inserts : ∀ (pk : PrimaryKey) (insert : Insert), r.inserts[pk]? = some insert →
    pk ∈ done ∧ final pk = some insert.row
  deleted : ∀ pk ∈ r.deletedKeys, pk ∈ done ∧ final pk = none ∧ r.inserts[pk]? = none
  kept : ∀ pk ∈ done, r.inserts[pk]? = none → pk ∉ r.deletedKeys → final pk = s.view pk
  rows : ∀ id : ℕ, id ∈ r.deletedRows ↔ ∃ pk : PrimaryKey, s.index[pk]? = some id ∧
    (pk ∈ r.deletedKeys ∨ r.inserts[pk]? ≠ none)

/-- Another key is settled. -/
theorem Resolution.Settles.settle {final : PrimaryKey → Option Row} {done : List PrimaryKey}
    {r : Resolution} {pk : PrimaryKey} {outcome : Outcome} (h : r.Settles s final done)
    (hpk : pk ∉ done) (hgives : outcome.Gives (s.view pk) (final pk)) :
    (r.settle pk s.index[pk]? outcome).Settles s final (done ++ [pk]) := by
  have hfresh : r.inserts[pk]? = none :=
    Option.eq_none_iff_forall_ne_some.mpr fun insert hins => hpk (h.inserts pk insert hins).1
  have hkept : pk ∉ r.deletedKeys := fun hmem => hpk (h.deleted pk hmem).1
  have hinserts := fun pk' ins hins =>
    (h.inserts pk' ins hins).imp_left (mem_append_left [pk])
  have hdeleted := fun pk' hdel => (h.deleted pk' hdel).imp_left (mem_append_left [pk])
  -- A key that is not kept adds its old row to the deleted ones.
  have hrows : ∀ id : ℕ, id ∈ r.deletedRows ++ s.index[pk]?.toList ↔
      ∃ pk' : PrimaryKey, s.index[pk']? = some id ∧
        (pk' ∈ r.deletedKeys ∨ pk' = pk ∨ r.inserts[pk']? ≠ none) := by
    intro id
    simp only [mem_append, h.rows, Option.mem_toList, and_or_left, exists_or, exists_eq_right]
    exact or_right_comm.trans or_assoc
  cases outcome with
  | unchanged =>
    refine ⟨hinserts, hdeleted, fun pk' hmem hins hdel => ?_, h.rows⟩
    rcases mem_append.mp hmem with hold | hnew
    · exact h.kept pk' hold hins hdel
    · obtain rfl := mem_singleton.mp hnew
      exact hgives
  | delete =>
    refine ⟨hinserts, fun pk' hdel => ?_, fun pk' hmem hins hdel => ?_, fun id => ?_⟩
    · rcases mem_append.mp hdel with hold | hnew
      · exact hdeleted pk' hold
      · obtain rfl := mem_singleton.mp hnew
        exact ⟨by simp, hgives.1, hfresh⟩
    · simp only [Resolution.settle, mem_append, mem_singleton, not_or] at hdel hmem
      exact h.kept pk' (hmem.resolve_right hdel.2) hins hdel.1
    · simpa only [Resolution.settle, mem_append, mem_singleton, or_assoc] using hrows id
  | upsert insert =>
    have hlookup : ∀ pk' : PrimaryKey, (r.inserts.insert pk insert)[pk']? =
        if pk = pk' then some insert else r.inserts[pk']? := fun pk' => get_insert _ _ _ _
    refine ⟨fun pk' ins hins => ?_, fun pk' hdel => ?_, fun pk' hmem hins hdel => ?_, fun id => ?_⟩
    · simp only [Resolution.settle, hlookup] at hins
      split_ifs at hins with heq
      · subst heq
        obtain rfl := Option.some.inj hins
        exact ⟨by simp, hgives⟩
      · exact hinserts pk' ins hins
    · have hne : pk ≠ pk' := fun heq => hkept (heq ▸ hdel)
      simp only [Resolution.settle, hlookup, if_neg hne]
      exact hdeleted pk' hdel
    · simp only [Resolution.settle, hlookup] at hins
      split_ifs at hins with heq
      rcases mem_append.mp hmem with hold | hnew
      · exact h.kept pk' hold hins hdel
      · exact absurd (mem_singleton.mp hnew).symm heq
    · refine (hrows id).trans (exists_congr fun pk' => and_congr_right fun _ => or_congr_right ?_)
      simp only [Resolution.settle, hlookup]
      split_ifs with heq <;> simp [heq, Ne.symm]

theorem Resolution.Settles.withLetters {final : PrimaryKey → Option Row} {done : List PrimaryKey}
    {r : Resolution} (h : r.Settles s final done) (letters : List DeadLetter) :
    (r.withLetters letters).Settles s final done :=
  { h with }

theorem Resolution.letters_settle (r : Resolution) (pk : PrimaryKey) (old : Option ℕ)
    (outcome : Outcome) : (r.settle pk old outcome).letters = r.letters := by
  cases outcome <;> rfl

/-- The rows after a batch, record by record. -/
def finalRow (rt : Runtime) (collection : CollectionInfo) (s : Snapshot)
    (batch : List (ℕ × OffsetRecord)) (pk : PrimaryKey) : Option Row × List DeadLetter :=
  runCell (writeRecord rt collection) (s.view pk)
    (inputsOf (keyOf rt collection) (some pk) batch)

/-- The keys of a batch one after the other. -/
theorem foldlM_resolveKey (hs : s.Consistent)
    (hrecords : ∀ r ∈ batch, records[(r.1, r.2.offset)]? = some r.2)
    {keys : List (PrimaryKey × List KeyOp)} (hkeys : ∀ p ∈ keys, p.2 ≠ [] ∧
      List.Forall₂ (fun r key => sortRecord rt collection r.1 r.2 = .ok key)
        (inputsOf (keyOf rt collection) (some p.1) batch) p.2) {done : List PrimaryKey}
    (hnodup : (done ++ keys.map Prod.fst).Nodup) {r₀ : Resolution}
    (h : r₀.Settles s (fun pk => (finalRow rt collection s batch pk).1) done) :
    ∃ r, keys.foldlM (resolveKey rt collection s records) r₀ = .ok r ∧
      r.Settles s (fun pk => (finalRow rt collection s batch pk).1) (done ++ keys.map Prod.fst) ∧
      r.letters = r₀.letters ++ keys.flatMap fun p => (finalRow rt collection s batch p.1).2 := by
  induction keys generalizing done r₀ with
  | nil => exact ⟨r₀, rfl, by simpa using h, by simp⟩
  | cons p keys ih =>
    obtain ⟨pk, ops⟩ := p
    obtain ⟨hne, hops⟩ := hkeys (pk, ops) mem_cons_self
    have hown : ∀ r ∈ inputsOf (keyOf rt collection) (some pk) batch,
        records[(r.1, r.2.offset)]? = some r.2 := fun r hr =>
      hrecords r (mem_of_mem_filter hr)
    obtain ⟨outcome, hresolve, hgives⟩ := resolveKey_spec hs pk hops hne hown r₀
    have hfresh : pk ∉ done := by
      intro hmem
      exact (nodup_append.mp hnodup).2.2 pk hmem pk (by simp) rfl
    have hsettled := (h.withLetters (finalRow rt collection s batch pk).2).settle hfresh hgives
    rw [map_cons, ← singleton_append, ← append_assoc] at hnodup
    obtain ⟨r, hfold, hr, hletters⟩ :=
      ih (fun p hp => hkeys p (mem_cons_of_mem _ hp)) hnodup hsettled
    refine ⟨r, ?_, ?_, ?_⟩
    · rw [foldlM_cons]
      exact except_bind_ok.mpr ⟨_, hresolve, hfold⟩
    · rwa [map_cons, ← singleton_append, ← append_assoc]
    · rw [hletters, letters_settle, withLetters, flatMap_cons,
        append_assoc]

/-- The letters of a batch, as the run over the cells gives them. -/
def batchLetters (rt : Runtime) (collection : CollectionInfo) (s : Snapshot)
    (batch : List (ℕ × OffsetRecord)) : List DeadLetter :=
  (runAll (keyOf rt collection) (writeRecord rt collection) (cells s.view) batch).2

/-- The dead letters of a batch are those of the run, taken cell by cell. -/
theorem Pass.Over.letters_perm {pass : Pass} (h : pass.Over rt collection batch) :
    (pass.resolution.letters ++
      pass.keys.toList.flatMap fun p => (finalRow rt collection s batch p.1).2).Perm
      (batchLetters rt collection s batch) := by
  have hnodup : (none :: pass.keys.toList.map fun p => some p.1).Nodup := by
    rw [nodup_cons, ← Function.comp_def some, ← map_map,
      map_fst_toList_eq_keys]
    exact ⟨by simp, nodup_keys.map (Option.some_injective _)⟩
  have hcover : ∀ r ∈ batch,
      keyOf rt collection r ∈ none :: pass.keys.toList.map fun p => some p.1 := by
    intro r hr
    cases hkey : keyOf rt collection r with
    | none => exact mem_cons_self
    | some pk =>
      refine mem_cons_of_mem _ ?_
      cases hops : pass.keys[pk]? with
      | none =>
        have hmem : r ∈ inputsOf (keyOf rt collection) (some pk) batch :=
          mem_filter.mpr ⟨hr, by simpa using hkey⟩
        rw [h.absent pk hops] at hmem
        cases hmem
      | some ops =>
        exact mem_map.mpr
          ⟨(pk, ops), mem_toList_iff_getElem?_eq_some.mpr hops, rfl⟩
  have hperm : (batchLetters rt collection s batch).Perm _ := runAll_snd_perm hnodup hcover
  rw [flatMap_cons, flatMap_map] at hperm
  rw [h.resolution]
  exact hperm.symm

theorem DeadLetter.le_trans (a b c : DeadLetter) (hab : a.le b = true) (hbc : b.le c = true) :
    a.le c = true := TransCmp.isLE_trans hab hbc

theorem DeadLetter.le_total (a b : DeadLetter) : (a.le b || b.le a) = true := by
  rw [Bool.or_eq_true]
  unfold DeadLetter.le
  cases hcmp : compare (a.partition, a.offset) (b.partition, b.offset) with
  | lt => exact .inl rfl
  | eq => exact .inl rfl
  | gt => exact .inr (by rw [OrientedCmp.lt_of_gt hcmp]; rfl)

/-- Resolution of a batch: it succeeds, settles all its keys, and its dead letters are
those of the records one at a time, sorted. -/
theorem resolve_spec (rt : Runtime) (collection : CollectionInfo) (hs : s.Consistent)
    (horder : LogOrder batch) : ∃ r done, resolve rt collection s batch = .ok r ∧
      r.Settles s (fun pk => (finalRow rt collection s batch pk).1) done ∧
      (∀ pk ∉ done, (finalRow rt collection s batch pk).1 = s.view pk) ∧
      r.letters.Perm (batchLetters rt collection s batch) ∧
      r.letters.Pairwise (fun a b => a.le b) := by
  obtain ⟨pass, hdef⟩ : ∃ pass, batch.foldl (Pass.step rt collection) ⟨∅, ∅, .empty⟩ = pass :=
    ⟨_, rfl⟩
  have hpass : pass.Over rt collection batch := hdef ▸ Pass.over_foldl horder
  have hstart : pass.resolution.Settles s (fun pk => (finalRow rt collection s batch pk).1) [] := by
    rw [hpass.resolution]
    exact ⟨by simp [withLetters, Resolution.empty],
      by simp [withLetters, Resolution.empty], by simp,
      by simp [withLetters, Resolution.empty]⟩
  have hnodup : (pass.keys.toList.map Prod.fst).Nodup := by
    rw [map_fst_toList_eq_keys]
    exact nodup_keys
  obtain ⟨r, hfold, hsettles, hletters⟩ := foldlM_resolveKey hs hpass.records
    (fun p hp => hpass.ops p.1 p.2 (mem_toList_iff_getElem?_eq_some.mp hp))
    (by simpa using hnodup) hstart
  refine ⟨{ r with letters := r.letters.mergeSort DeadLetter.le }, pass.keys.toList.map Prod.fst,
    ?_, ?_, ?_, ?_, ?_⟩
  · unfold resolve
    rw [hdef]
    exact except_bind_ok.mpr ⟨r, hfold, rfl⟩
  · exact { hsettles with }
  · intro pk hpk
    have hnone : pass.keys[pk]? = none := Option.eq_none_iff_forall_ne_some.mpr fun ops hkey =>
      hpk (mem_map_of_mem (mem_toList_iff_getElem?_eq_some.mpr hkey))
    rw [finalRow, hpass.absent pk hnone, runCell]
  · refine (mergeSort_perm _ _).trans ?_
    rw [hletters]
    exact hpass.letters_perm
  · exact pairwise_mergeSort DeadLetter.le_trans DeadLetter.le_total _

/-- A dead letter says where its record was. -/
theorem place_of_writeRecord (row : Option Row) (r : ℕ × OffsetRecord) (l : DeadLetter)
    (h : (writeRecord rt collection row r).2 = some l) :
    (l.partition, l.offset) = (r.1, r.2.offset) := by
  cases hsort : sortRecord rt collection r.1 r.2 with
  | error reason =>
    rw [writeRecord_of_error hsort] at h
    obtain rfl := Option.some.inj h
    rfl
  | ok key =>
    rw [writeRecord_of_ok hsort] at h
    obtain ⟨reason, -, rfl⟩ := Option.map_eq_some_iff.mp h
    rfl

/-- The dead letters of a run are in the order of the log. -/
theorem batchLetters_pairwise (horder : LogOrder batch) :
    (batchLetters rt collection s batch).Pairwise fun a b =>
      a.partition = b.partition → a.offset < b.offset := by
  have hsub : ((batchLetters rt collection s batch).map fun l => (l.partition, l.offset)).Sublist
      (batch.map fun r => (r.1, r.2.offset)) := runAll_snd_sublist place_of_writeRecord
  have hplaces : (batch.map fun r => (r.1, r.2.offset)).Pairwise fun a b =>
      a.1 = b.1 → a.2 < b.2 := pairwise_map.mpr horder
  exact pairwise_map.mp (hplaces.sublist hsub)

/-- The letters of each partition are the same, and in the order of the log. -/
theorem letters_filter_eq (horder : LogOrder batch) {letters : List DeadLetter}
    (hperm : letters.Perm (batchLetters rt collection s batch))
    (hsorted : letters.Pairwise fun a b => a.le b) (p : ℕ) :
    letters.filter (·.partition = p) =
      (batchLetters rt collection s batch).filter (·.partition = p) := by
  have hrun : (batchLetters rt collection s batch).Pairwise _ := batchLetters_pairwise horder
  have hstrict : letters.Pairwise fun a b => a.partition = b.partition → a.offset < b.offset := by
    have hne : letters.Pairwise fun a b => a.partition = b.partition → a.offset ≠ b.offset := by
      refine (hperm.pairwise_iff fun hne hp => (hne hp.symm).symm).mpr (hrun.imp fun hlt hp => ?_)
      exact UInt64.ne_of_lt (hlt hp)
    refine hsorted.imp₂ (fun a b hle hne hp => ?_) hne
    have hcmp : (compare (a.partition, a.offset) (b.partition, b.offset)).isLE := hle
    rw [hp, compare_pair, compare_self] at hcmp
    exact UInt64.lt_of_le_of_ne (isLE_compare.mp hcmp) (hne hp)
  -- both are in the order of the log, and within a partition that order is strict
  refine Perm.eq_of_pairwise (fun a b ha hb hab hba => ?_) (hstrict.filter _) (hrun.filter _)
    (hperm.filter _)
  have hp : a.partition = b.partition :=
    (of_decide_eq_true (mem_filter.mp ha).2).trans (of_decide_eq_true (mem_filter.mp hb).2).symm
  exact absurd (hab hp) (UInt64.not_lt.mpr (UInt64.le_of_lt (hba hp.symm)))

/-- A write leaves its key's row with a document of that key. -/
theorem pk_of_writeRecord {pk : PrimaryKey} {row : Option Row} {r : ℕ × OffsetRecord}
    (hkey : keyOf rt collection r = some pk) (hrow : ∀ old, row = some old → old.doc.pk = pk) :
    ∀ new, (writeRecord rt collection row r).1 = some new → new.doc.pk = pk := by
  intro new hnew
  cases hsort : sortRecord rt collection r.1 r.2 with
  | error reason =>
    rw [keyOf_of_error hsort] at hkey
    cases hkey
  | ok key =>
    rw [keyOf_of_ok hsort] at hkey
    rw [writeRecord_of_ok hsort, writeRow] at hnew
    cases hop : key.op with
    | upsert doc =>
      rw [hop] at hkey hnew
      obtain rfl := Option.some.inj hnew
      exact Option.some.inj hkey
    | delete pk =>
      rw [hop] at hnew
      cases hnew
    | patch p =>
      rw [hop] at hkey hnew
      have hpk : p.pk = pk := Option.some.inj hkey
      -- The result of a patch has the key of what it started from.
      have happly : ∀ next, applyPatch (row.map (·.doc)) (.patch p) = some next →
          next.pk = pk := by
        intro next hnext
        cases row with
        | none =>
          have hfilter := Option.filter_eq_some_iff.mp hnext
          rw [← hpk]
          simpa using hfilter.2
        | some old =>
          obtain rfl := Option.some.inj hnext
          exact hrow old rfl
      dsimp only at hnew
      split at hnew
      · exact hrow new hnew
      · next next hnext =>
        split_ifs at hnew
        · exact hrow new hnew
        · split at hnew
          · obtain rfl := Option.some.inj hnew
            exact happly next hnext
          · exact hrow new hnew

theorem pk_of_finalRow (hs : s.Consistent) (batch : List (ℕ × OffsetRecord)) (pk : PrimaryKey) :
    ∀ row, (finalRow rt collection s batch pk).1 = some row → row.doc.pk = pk := by
  have hall : ∀ r ∈ inputsOf (keyOf rt collection) (some pk) batch,
      keyOf rt collection r = some pk := fun r hr => of_decide_eq_true (mem_filter.mp hr).2
  have hrun : ∀ (rs : List (ℕ × OffsetRecord)) (start : Option Row),
      (∀ r ∈ rs, keyOf rt collection r = some pk) →
      (∀ old, start = some old → old.doc.pk = pk) →
      ∀ row, (runCell (writeRecord rt collection) start rs).1 = some row → row.doc.pk = pk := by
    intro rs
    induction rs with
    | nil => exact fun start _ hstart => hstart
    | cons r rs ih =>
      intro start hkeys hstart
      exact ih _ (fun r' hr' => hkeys r' (mem_cons_of_mem r hr'))
        (pk_of_writeRecord (hkeys r mem_cons_self) hstart)
  exact hrun _ _ hall fun old hold => hs.pk_of_view hold

end Keys

/-! ## Committing a resolution -/

namespace Committed

/-- The index maps the keys of the rows to their rows, and row ids are not used twice. -/
structure Consistent (c : Committed) : Prop where
  snapshot : c.snapshot.Consistent
  fresh : ∀ (id : ℕ) (row : Row), c.snapshot.rows[id]? = some row → id < c.nextRow

variable {c : Committed} {r : Resolution} {pk : PrimaryKey} {insert : Insert} {id : ℕ} {row : Row}

/-- A new row is that of an insert, under an id that was not used. -/
theorem of_mem_newRows (h : (id, pk, row) ∈ c.newRows r) :
    (∃ insert, r.inserts[pk]? = some insert ∧ row = insert.row) ∧ c.nextRow ≤ id ∧
      id < c.nextRow + r.inserts.size := by
  obtain ⟨⟨⟨pk', insert⟩, i⟩, hmem, heq⟩ := mem_map.mp h
  simp only [Prod.mk.injEq] at heq
  obtain ⟨rfl, rfl, rfl⟩ := heq
  have hget := mk_mem_zipIdx_iff_getElem?.mp hmem
  refine ⟨⟨insert, ?_, rfl⟩, Nat.le_add_right _ _, ?_⟩
  · exact mem_toList_iff_getElem?_eq_some.mp (mem_of_getElem? hget)
  · have hlt := (List.getElem?_eq_some_iff.mp hget).1
    rw [length_toList] at hlt
    omega

theorem exists_mem_newRows (h : r.inserts[pk]? = some insert) :
    ∃ id, (id, pk, insert.row) ∈ c.newRows r := by
  obtain ⟨i, hget⟩ := mem_iff_getElem?.mp (mem_toList_iff_getElem?_eq_some.mpr h)
  exact ⟨c.nextRow + i, mem_map.mpr
    ⟨((pk, insert), i), mk_mem_zipIdx_iff_getElem?.mpr hget, rfl⟩⟩

theorem newRows_ids : (c.newRows r).Pairwise fun a b => a.1 ≠ b.1 := by
  have hids : (r.inserts.toList.zipIdx.map Prod.snd).Nodup := by
    rw [zipIdx_map_snd]
    exact nodup_range'
  refine pairwise_map.mpr ((pairwise_map.mp hids).imp fun hne heq => hne ?_)
  exact Nat.add_left_cancel heq

theorem newRows_keys : (c.newRows r).Pairwise fun a b => a.2.1 ≠ b.2.1 := by
  have hkeys : (r.inserts.toList.zipIdx.map fun p => p.1.1).Nodup := by
    rw [← Function.comp_def Prod.fst Prod.fst, ← map_map, zipIdx_map_fst,
      map_fst_toList_eq_keys]
    exact nodup_keys
  exact pairwise_map.mpr (pairwise_map.mp hkeys)

/-- An inserted key points to its new row. -/
theorem commit_of_mem_newRows (lanceVersion : ℕ) (h : (id, pk, row) ∈ c.newRows r) :
    (c.commit r lanceVersion).snapshot.index[pk]? = some id ∧
      (c.commit r lanceVersion).snapshot.rows[id]? = some row :=
  ⟨get_foldl_insert_of_mem newRows_keys _ h,
    get_foldl_insert_of_mem newRows_ids _ h⟩

variable {lanceVersion : ℕ}

theorem commit_index_of_not_inserted (h : r.inserts[pk]? = none) :
    (c.commit r lanceVersion).snapshot.index[pk]? =
      if pk ∈ r.deletedKeys then none else c.snapshot.index[pk]? := by
  have hne : ∀ x ∈ c.newRows r, x.2.1 ≠ pk := by
    rintro ⟨id, pk', row⟩ hx rfl
    obtain ⟨⟨insert, hinsert, -⟩, -⟩ := of_mem_newRows hx
    rw [h] at hinsert
    cases hinsert
  refine (get_foldl_insert_of_forall_ne _ hne).trans ?_
  simpa using get_foldl_erase (fun pk => pk) r.deletedKeys c.snapshot.index pk

theorem commit_rows_of_old (h : ∀ x ∈ c.newRows r, x.1 ≠ id) :
    (c.commit r lanceVersion).snapshot.rows[id]? =
      if id ∈ r.deletedRows then none else c.snapshot.rows[id]? := by
  refine (get_foldl_insert_of_forall_ne _ h).trans ?_
  simpa using get_foldl_erase (fun id => id) r.deletedRows c.snapshot.rows id

/-- A row after a commit is a new one, or an old one that was not deleted. -/
theorem commit_rows_cases (h : (c.commit r lanceVersion).snapshot.rows[id]? = some row) :
    (∃ pk, (id, pk, row) ∈ c.newRows r) ∨ id ∉ r.deletedRows ∧ c.snapshot.rows[id]? = some row := by
  by_cases hnew : ∃ x ∈ c.newRows r, x.1 = id
  · obtain ⟨⟨id', pk, row'⟩, hx, rfl⟩ := hnew
    have hrow := (commit_of_mem_newRows lanceVersion hx).2
    rw [h] at hrow
    obtain rfl := Option.some.inj hrow
    exact .inl ⟨pk, hx⟩
  · rw [commit_rows_of_old fun x hx heq => hnew ⟨x, hx, heq⟩] at h
    split_ifs at h with hdeleted
    exact .inr ⟨hdeleted, h⟩

section Commit

variable {final : PrimaryKey → Option Row} {done : List PrimaryKey}

/-- A key that is neither inserted nor deleted keeps its row. -/
theorem commit_of_kept (hc : c.Consistent) (hr : r.Settles c.snapshot final done)
    (hinsert : r.inserts[pk]? = none) (hdelete : pk ∉ r.deletedKeys)
    (hindex : c.snapshot.index[pk]? = some id) :
    (c.commit r lanceVersion).snapshot.rows[id]? = c.snapshot.rows[id]? := by
  obtain ⟨row, hrow, hpk⟩ := hc.snapshot.indexed pk id hindex
  have hold : ∀ x ∈ c.newRows r, x.1 ≠ id := by
    rintro ⟨id', pk', row'⟩ hx rfl
    have hlt := hc.fresh _ row hrow
    have hge := (of_mem_newRows hx).2.1
    omega
  rw [commit_rows_of_old hold, if_neg]
  -- Another key with this row would be the key of its document.
  intro hgone
  obtain ⟨pk', hindex', hchanged⟩ := (hr.rows id).mp hgone
  obtain ⟨row', hrow', hpk'⟩ := hc.snapshot.indexed pk' id hindex'
  rw [hrow] at hrow'
  obtain rfl := Option.some.inj hrow'
  obtain rfl : pk = pk' := hpk.symm.trans hpk'
  exact hchanged.elim hdelete fun h => h hinsert

/-- After a commit every key has the row that its records gave it, and the index is
consistent again. -/
theorem commit_spec (lanceVersion : ℕ) (hc : c.Consistent) (hr : r.Settles c.snapshot final done)
    (hrest : ∀ pk ∉ done, final pk = c.snapshot.view pk)
    (hpk : ∀ pk row, final pk = some row → row.doc.pk = pk) : (c.commit r lanceVersion).Consistent ∧
      ∀ pk, (c.commit r lanceVersion).snapshot.view pk = final pk := by
  have hview : ∀ pk, r.inserts[pk]? = none → pk ∉ r.deletedKeys →
      final pk = c.snapshot.view pk := by
    intro pk hinsert hdelete
    by_cases hmem : pk ∈ done
    · exact hr.kept pk hmem hinsert hdelete
    · exact hrest pk hmem
  -- What the new index says of a key, and what is stored there.
  have hcases : ∀ pk : PrimaryKey,
      (∃ id row, (c.commit r lanceVersion).snapshot.index[pk]? = some id ∧
        (c.commit r lanceVersion).snapshot.rows[id]? = some row ∧ final pk = some row) ∨
      ((c.commit r lanceVersion).snapshot.index[pk]? = none ∧ final pk = none) := by
    intro pk
    cases hinsert : r.inserts[pk]? with
    | some insert =>
      obtain ⟨id, hmem⟩ := exists_mem_newRows (c := c) hinsert
      obtain ⟨hindex, hrow⟩ := commit_of_mem_newRows lanceVersion hmem
      exact .inl ⟨id, insert.row, hindex, hrow, (hr.inserts pk insert hinsert).2⟩
    | none =>
      rw [commit_index_of_not_inserted hinsert]
      split_ifs with hdelete
      · exact .inr ⟨rfl, (hr.deleted pk hdelete).2.1⟩
      · rw [hview pk hinsert hdelete]
        cases hindex : c.snapshot.index[pk]? with
        | none => exact .inr ⟨rfl, Snapshot.Consistent.view_of_not_indexed hindex⟩
        | some id =>
          obtain ⟨row, hview', hrow, -⟩ := hc.snapshot.view_of_index hindex
          exact .inl ⟨id, row, rfl, by rw [commit_of_kept hc hr hinsert hdelete hindex, hrow],
            hview'⟩
  refine ⟨⟨⟨?_, ?_⟩, ?_⟩, ?_⟩
  · intro pk id hindex
    obtain ⟨id', row, hindex', hrow, hfinal⟩ | ⟨hnone, -⟩ := hcases pk
    · rw [hindex] at hindex'
      obtain rfl := Option.some.inj hindex'
      exact ⟨row, hrow, hpk pk row hfinal⟩
    · rw [hindex] at hnone
      cases hnone
  · intro id row hrow
    rcases commit_rows_cases hrow with ⟨pk, hmem⟩ | ⟨hkept, hold⟩
    · obtain ⟨⟨insert, hinsert, rfl⟩, -⟩ := of_mem_newRows hmem
      rw [hpk pk _ (hr.inserts pk insert hinsert).2]
      exact (commit_of_mem_newRows lanceVersion hmem).1
    · have hindex := hc.snapshot.stored id row hold
      have hunchanged : r.inserts[row.doc.pk]? = none ∧ row.doc.pk ∉ r.deletedKeys := by
        constructor
        · by_contra hinsert
          exact hkept ((hr.rows id).mpr ⟨_, hindex, .inr hinsert⟩)
        · exact fun hdelete => hkept ((hr.rows id).mpr ⟨_, hindex, .inl hdelete⟩)
      rw [commit_index_of_not_inserted hunchanged.1, if_neg hunchanged.2, hindex]
  · intro id row hrow
    rcases commit_rows_cases hrow with ⟨pk, hmem⟩ | ⟨-, hold⟩
    · exact (of_mem_newRows hmem).2.2
    · exact Nat.lt_add_right _ (hc.fresh id row hold)
  · intro pk
    obtain ⟨id, row, hindex, hrow, hfinal⟩ | ⟨hindex, hfinal⟩ := hcases pk
    · rw [Snapshot.view, hindex, hfinal]
      exact hrow
    · rw [Snapshot.view, hindex, hfinal]
      rfl

end Commit

/-! ## Batches one after the other -/

section Runs

variable {rt : Runtime} {collection : CollectionInfo}

/-- What is committed has these contents, the dead letters partition by partition. -/
structure Has (c : Committed) (contents : Contents) : Prop where
  consistent : c.Consistent
  rows : ∀ pk, c.snapshot.view pk = contents.rows pk
  letters : ∀ p, c.letters.filter (·.partition = p) = contents.letters.filter (·.partition = p)
  perm : c.letters.Perm contents.letters

variable {contents : Contents}

/-- One batch, against its records one at a time. -/
theorem Has.applyBatch (h : c.Has contents) {batch : List (ℕ × OffsetRecord)}
    (horder : LogOrder batch) (lanceVersion : ℕ) :
    ∃ c', c.applyBatch rt collection batch lanceVersion = .ok c' ∧
      c'.Has (contents.applyRecords rt collection batch) := by
  obtain ⟨r, done, hresolve, hsettles, hrest, hperm, hsorted⟩ :=
    resolve_spec rt collection h.consistent.snapshot horder
  obtain ⟨hconsistent, hview⟩ := commit_spec lanceVersion h.consistent hsettles hrest
    (pk_of_finalRow h.consistent.snapshot batch)
  obtain ⟨hrows, hletters⟩ := applyRecords_eq_runAll rt collection contents batch
  have hsame : cells contents.rows = cells c.snapshot.view := by
    congr 1
    exact (funext h.rows).symm
  rw [hsame] at hrows hletters
  refine ⟨c.commit r lanceVersion, except_bind_ok.mpr ⟨r, hresolve, rfl⟩, hconsistent, ?_, ?_, ?_⟩
  · intro pk
    rw [hview, ← congrFun hrows pk, runAll_fst]
    rfl
  · intro p
    have hbatch : r.letters.filter (·.partition = p) =
        (batchLetters rt collection c.snapshot batch).filter (·.partition = p) :=
      letters_filter_eq horder hperm hsorted p
    rw [hletters, filter_append, ← h.letters p, ← batchLetters, ← hbatch, ← filter_append]
    rfl
  · rw [hletters]
    exact h.perm.append hperm

/-- A collection before its first commit has no contents. -/
theorem has_empty : Committed.empty.Has Contents.empty := by
  refine ⟨⟨⟨fun pk id h => ?_, fun id row h => ?_⟩, fun id row h => ?_⟩, fun pk => ?_,
    fun _ => rfl, Perm.refl _⟩
  all_goals simp [Committed.empty, Snapshot.view, Contents.empty] at *

/-- A run of batches. -/
def applyBatches (rt : Runtime) (collection : CollectionInfo) (c : Committed)
    (batches : List (List (ℕ × OffsetRecord) × ℕ)) : Except CollectionError Committed :=
  batches.foldlM (fun c b => c.applyBatch rt collection b.1 b.2) c

theorem Has.applyBatches (h : c.Has contents) {batches : List (List (ℕ × OffsetRecord) × ℕ)}
    (horder : LogOrder (batches.flatMap Prod.fst)) :
    ∃ c', c.applyBatches rt collection batches = .ok c' ∧
      c'.Has (contents.applyRecords rt collection (batches.flatMap Prod.fst)) := by
  induction batches generalizing c contents with
  | nil => exact ⟨c, rfl, h⟩
  | cons b batches ih =>
    rw [flatMap_cons] at horder ⊢
    obtain ⟨hfirst, hrest, -⟩ := pairwise_append.mp horder
    obtain ⟨c₁, hbatch, h₁⟩ := h.applyBatch hfirst b.2
    obtain ⟨c₂, hbatches, h₂⟩ := ih h₁ hrest
    refine ⟨c₂, ?_, ?_⟩
    · rw [Committed.applyBatches, foldlM_cons]
      exact except_bind_ok.mpr ⟨c₁, hbatch, hbatches⟩
    · rwa [Contents.applyRecords, foldl_append]

end Runs

end Committed

/-- However the records of a log are cut into batches, the batches commit, and what is
committed is what the records give one at a time: the same row for every key, and the
same dead letters, for each partition in the order of the log. -/
theorem contents_of_batches (rt : Runtime) (collection : CollectionInfo)
    {batches : List (List (ℕ × OffsetRecord) × ℕ)}
    (horder : LogOrder (batches.flatMap Prod.fst)) :
    ∃ c, Committed.empty.applyBatches rt collection batches = .ok c ∧
      (∀ pk, c.snapshot.view pk =
        (Contents.empty.applyRecords rt collection (batches.flatMap Prod.fst)).rows pk) ∧
      (∀ p, c.letters.filter (·.partition = p) =
        (Contents.empty.applyRecords rt collection
          (batches.flatMap Prod.fst)).letters.filter (·.partition = p)) ∧
      c.letters.Perm
        (Contents.empty.applyRecords rt collection (batches.flatMap Prod.fst)).letters := by
  obtain ⟨c, hcommit, h⟩ := Committed.has_empty.applyBatches horder
  exact ⟨c, hcommit, h.rows, h.letters, h.perm⟩

namespace Sample

/-- Readers of scalars that read nothing. -/
def scalars : Scalars where
  jsonText _ := ""
  asF64 _ := ⟨0⟩
  parseI64 _ := none
  parseF64 _ := none
  parseDateTime _ := none
  parseUuid _ := none

/-- The source of a task. -/
def source (done : Bool) : Object := ⟨[("done", .bool done)], rfl⟩

/-- A task that is done or not. -/
def task (n : UInt64) (done : Bool) : Document := ⟨.u64 n, source done, ∅, ∅⟩

/-- Marks a task. -/
def mark (n : UInt64) (done : Bool) : Patch := ⟨.u64 n, .mergeDeep, source done, [], ∅, ∅, none⟩

/-- The record of a write: the canonical key, and behind the version a tag and the source. -/
def record (n : UInt64) (tag : UInt8) (body : Bytes) : Record :=
  ⟨some (PrimaryKey.u64 n).canonical, some (1 :: tag :: body), [], -1⟩

/-- A codec of tasks. -/
def runtime : Runtime where
  encode
    | .upsert ⟨.u64 n, ⟨[(key, .bool done)], _⟩, vectors, sparse⟩ =>
      if key = "done" ∧ vectors.isEmpty ∧ sparse.isEmpty then .ok (record n 0 [done.toUInt8])
      else .error "not a task"
    | .delete (.u64 n) => .ok (record n 1 [])
    | .patch ⟨.u64 n, .mergeDeep, ⟨[(key, .bool done)], _⟩, [], vectors, sparse, none⟩ =>
      if key = "done" ∧ vectors.isEmpty ∧ sparse.isEmpty then .ok (record n 2 [done.toUInt8])
      else .error "not a task"
    | _ => .error "not a task"
  decode record :=
    match record.key, record.value with
    | some (1 :: key), some (1 :: tag :: body) =>
      let n := UInt64.ofNat (ofBeBytes key)
      .ok (if tag = 0 then .upsert (task n (body == [1]))
        else if tag = 1 then .delete (.u64 n) else .patch (mark n (body == [1])))
    | _, _ => .error "the record has no key or no value"
  hash _ := 0
  scalars := scalars

/-- One field, and nothing besides it. -/
def collection : CollectionInfo := ⟨⟨[⟨"done", "done", .bool, false⟩], [], [], .strict⟩, 1⟩

/-- A task is written; a record without a key follows, and in the next batch the task is
marked as done. -/
def batches : List (List (ℕ × OffsetRecord) × ℕ) :=
  [([(0, ⟨3, record 7 0 [0]⟩), (0, ⟨4, ⟨none, none, [], -1⟩⟩)], 1),
    ([(0, ⟨5, record 7 2 [1]⟩)], 2)]

end Sample

/-- The row of the task has its last version and the offset of the patch. -/
theorem contents_of_batches_sample :
    ∃ c, Committed.empty.applyBatches Sample.runtime Sample.collection Sample.batches = .ok c ∧
      (c.snapshot.view (.u64 7)).any (fun row =>
        row.doc.same (Sample.task 7 true) && row.offset == 5) = true ∧
      (c.letters.filter (·.partition = 0)).map (·.offset) = [4] := by
  have horder : LogOrder (Sample.batches.flatMap Prod.fst) := by
    simp only [LogOrder, Sample.batches, flatMap_cons, flatMap_nil]
    decide
  obtain ⟨c, hcommit, hrows, hletters, -⟩ :=
    contents_of_batches Sample.runtime Sample.collection horder
  refine ⟨c, hcommit, ?_, ?_⟩
  · rw [hrows]
    decide +kernel
  · rw [hletters 0]
    decide +kernel

end Loams.Collection
