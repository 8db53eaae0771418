/-
# Definitions of tables
-/

import Loams.Live.Mutations

namespace Loams.Live

open Loams.Data Loams.Control Loams.Tikv Program AppKeys

/-- A user index as a schema declares it. -/
structure IndexSpec where
  name : String
  fields : List String
  deriving DecidableEq

namespace Catalog

/-- The name of the index on the document key. -/
def byIdName : String := "by_id"

/-- The name of the index on the creation time. -/
def byCreationTimeName : String := "by_creation_time"

/-! ## Checks -/

section Checks

variable (limits : Limits)

/-- System fields are not indexed. -/
def checkIndexField (spec : IndexSpec) (field : String) : Except LiveError Unit := do
  require (field ≠ "" ∧ field.toList.head? ≠ some '_')
    (.invalidArgument (s!"index '{spec.name}': field '{field}' cannot be indexed (system " ++
      "fields are appended to every index)"))
  require ((utf8 field).length ≤ limits.maxFieldNameBytes)
    (.limitExceeded "max_field_name_bytes" (s!"index '{spec.name}': a field name has " ++
      s!"{(utf8 field).length} bytes, more than {limits.maxFieldNameBytes}"))

/-- Checks one index against those declared before it. -/
def checkIndex (earlier : List IndexSpec) (spec : IndexSpec) : Except LiveError Unit := do
  checkName "index" spec.name
  require (spec.name ≠ byIdName ∧ spec.name ≠ byCreationTimeName)
    (.invalidArgument s!"index name '{spec.name}' is a built-in index")
  require (∀ other ∈ earlier, other.name ≠ spec.name)
    (.invalidArgument s!"index '{spec.name}' is defined twice")
  require (spec.fields ≠ []) (.invalidArgument s!"index '{spec.name}' has no fields")
  require (spec.fields.length ≤ limits.maxIndexFields)
    (.limitExceeded "max_index_fields" (s!"index '{spec.name}' has {spec.fields.length} " ++
      s!"fields, more than {limits.maxIndexFields}"))
  spec.fields.forM (checkIndexField limits spec)

/-- Each one against those before it. -/
def checkIndexesFrom : List IndexSpec → List IndexSpec → Except LiveError Unit
  | _, [] => .ok ()
  | earlier, spec :: rest => do
    checkIndex limits earlier spec
    checkIndexesFrom (earlier ++ [spec]) rest

/-- Not too many, and each one valid. -/
def checkIndexes (specs : List IndexSpec) : Except LiveError Unit := do
  require (specs.length ≤ limits.maxIndexes)
    (.limitExceeded "max_indexes" s!"{specs.length} indexes, more than {limits.maxIndexes}")
  checkIndexesFrom limits [] specs

end Checks

/-! ## Definitions -/

/-- The indexes of the specs and the id after them: one of `kept` with the same name and
fields keeps its id. -/
def assign (kept : List IndexDef) : UInt32 → List IndexSpec → List IndexDef × UInt32
  | next, [] => ([], next)
  | next, spec :: rest =>
    match kept.find? fun i => i.name = spec.name ∧ i.fields = spec.fields with
    | some i =>
      let (defs, last) := assign kept next rest
      (⟨i.id, spec.name, spec.fields⟩ :: defs, last)
    | none =>
      let (defs, last) := assign kept (next + 1) rest
      (⟨next, spec.name, spec.fields⟩ :: defs, last)

/-- The table with these indexes. Ids run out after 2³² indexes; such a table is none. -/
def withIndexes (table : TableDef) (defs : List IndexDef) (next : UInt32) : Option TableDef :=
  if h : (∀ i ∈ defs, IndexId.firstUser ≤ i.id) ∧ defs.Pairwise fun i j => i.id ≠ j.id then
    some { table with indexes := defs, nextIndexId := next, user_ids := h.1, distinct_ids := h.2 }
  else none

/-- The counter of index ids overflows. -/
def noIds : LiveError := .internal "attempt to add with overflow"

/-- Creates a table with indexes. -/
def createTableWith (enc : Encoding) (limits : Limits) (name : String) (specs : List IndexSpec) :
    TxnM TableDef := do
  checkIndexes limits specs
  let t ← read
  let id ← nextTable t.view.data
  require (id.toNat + 1 < 2 ^ 32) (LiveError.limitExceeded "tables" "the app has 2^32 − 1 tables")
  let (defs, next) := assign [] IndexId.firstUser specs
  match withIndexes (newTable id name) defs next with
  | none => fail noIds
  | some table =>
    Txn.put enc (.data tableCounter) (.number (id + 1))
    Txn.put enc (.data (tableName name)) (.number id)
    Txn.put enc (.data (AppKeys.table id)) (.table table)
    return table

/-- The indexes of the table are those of the specs. -/
def same (table : TableDef) (specs : List IndexSpec) : Bool :=
  table.indexes.map (fun i => (i.name, i.fields)) = specs.map fun i => (i.name, i.fields)

/-- Creates the table, or changes the indexes of an empty one. -/
def defineTable (enc : Encoding) (limits : Limits) (name : String) (specs : List IndexSpec) :
    TxnM TableDef := do
  checkName "table" name
  checkIndexes limits specs
  let t ← read
  match ← loadTable t.view.data name with
  | none => createTableWith enc limits name specs
  | some table =>
    if same table specs then return table
    else
      let docs := documents table.id
      require ((Loams.Data.scan t.view.data docs.lo (some docs.hi) 1).isEmpty)
        (LiveError.failedPrecondition (s!"index changes need an empty table in R1: table " ++
          s!"'{name}' has documents"))
      let (defs, next) := assign table.indexes (max table.nextIndexId IndexId.firstUser) specs
      match withIndexes table defs next with
      | none => fail noIds
      | some table =>
        Txn.put enc (.data (AppKeys.table table.id)) (.table table)
        return table

end Catalog

/-! ## The transactions of an app that deploys -/

/-- A transaction of the app, or the definition of a table. -/
inductive AppTx
  | serve (tx : Tx)
  | define (name : String) (specs : List IndexSpec)

/-- What a transaction returns. -/
inductive AppAnswer
  | served (answer : Answer)
  | defined (table : TableDef)

/-- What the transaction answers and does; none if it is rolled back. -/
def AppTx.run (app : App) (options : RunnerOptions) (shards : ℕ) (tx : AppTx) (start : Timestamp)
    (snapshot : Store) : Option (AppAnswer × Effect AppKey Record) :=
  match tx with
  | .serve tx => (tx.run app options shards start snapshot).map fun r => (.served r.1, r.2)
  | .define name specs =>
    match (Catalog.defineTable app.enc app.limits name specs).exec (.startAt start snapshot) with
    | (.ok table, t) => some (.defined table, t.effect)
    | (.error _, _) => none

/-- A commit of an app that deploys. -/
abbrev DeployCommit := Commit AppTx AppAnswer AppKey Record

end Loams.Live
