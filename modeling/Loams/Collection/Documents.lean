/-
# Documents of a collection
-/

import Loams.Control.Program
import Loams.Data.ByteKeys
import Loams.Data.Float64
import Loams.Data.IndexMap
import Loams.Data.Text

namespace Loams.Collection

open Loams.Control Loams.Data Std

/-! ## Primary keys -/

/-- The identity of a document. -/
inductive PrimaryKey
  | u64 (n : UInt64)
  | uuid (bytes : Vector UInt8 16)
  | str (s : String)
  deriving DecidableEq

namespace PrimaryKey

/-- The canonical bytes: a tag, and the value. They are the key of the record and of
the index. -/
def canonical : PrimaryKey → Bytes
  | .u64 n => 0x01 :: beBytes 8 n.toNat
  | .uuid bytes => 0x02 :: bytes.toList
  | .str s => 0x03 :: utf8 s

theorem canonical_inj {a b : PrimaryKey} : a.canonical = b.canonical ↔ a = b := by
  constructor
  · intro h
    cases a <;> cases b <;> simp only [canonical, List.cons.injEq] at h
    case u64.u64 m n =>
      have hm : m.toNat < 256 ^ 8 := m.toNat_lt
      have hn : n.toNat < 256 ^ 8 := n.toNat_lt
      rw [UInt64.toNat_inj.mp ((beBytes_inj hm hn).mp h.2)]
    case uuid.uuid m n => rw [Vector.toList_inj.mp h.2]
    case str.str m n => rw [utf8_inj.mp h.2]
    all_goals exact absurd h.1 (by decide)
  · rintro rfl
    rfl

/-- Keys are in the order of their canonical bytes. -/
instance : Ord PrimaryKey := ⟨fun a b => compare a.canonical b.canonical⟩

instance : TransOrd PrimaryKey :=
  inferInstanceAs (TransCmp (compareOn canonical))

instance : LawfulEqOrd PrimaryKey where
  compare_self := compare_self (α := Bytes)
  eq_of_compare h := canonical_inj.mp (LawfulEqOrd.eq_of_compare h)

/-- The longest string key, in bytes. -/
def maxStrBytes : ℕ := 512

/-- A string key has a length of its own; every number and uuid is valid. The errors are
shown as those of an invalid key. -/
def validate : PrimaryKey → Except String Unit
  | .str s => do
    require (s ≠ "") "invalid primary key: a string key is empty"
    require (s.utf8ByteSize ≤ maxStrBytes)
      s!"invalid primary key: a string key has {s.utf8ByteSize} bytes, over {maxStrBytes}"
  | _ => pure ()

/-- The text an error shows. -/
def debug : PrimaryKey → String
  | .u64 n => s!"U64({n})"
  | .uuid bytes => s!"Uuid([{bytesText bytes}])"
  | .str s => s!"Str({debugStr s})"
where
  bytesText (bytes : Vector UInt8 16) : String :=
    ", ".intercalate (bytes.toList.map fun b => toString b.toNat)

/-- The partition that carries the records of a key. -/
def partitionOf (hash : Bytes → UInt64) (pk : PrimaryKey) (partitions : ℕ) : ℕ :=
  (hash pk.canonical).toNat % max partitions 1

end PrimaryKey

/-! ## Single-precision numbers -/

/-- A single-precision number by its bits. -/
structure F32 where
  bits : UInt32
  deriving DecidableEq

namespace F32

/-- The bits without the sign. -/
def magnitude (x : F32) : ℕ := x.bits.toNat % 2 ^ 31

/-- The magnitude of the infinities. -/
def infinity : ℕ := 255 * 2 ^ 23

/-- Neither infinite nor not a number. -/
def isFinite (x : F32) : Bool := x.magnitude < infinity

/-- Numeric equality: the zeros are equal, and what is no number equals nothing. -/
def same (x y : F32) : Bool :=
  x.magnitude ≤ infinity && y.magnitude ≤ infinity &&
    (x.bits == y.bits || (x.magnitude == 0 && y.magnitude == 0))

end F32

/-! ## JSON values -/

/-- A number as it was read. -/
inductive Number
  | posInt (n : UInt64)
  | negInt (n : Int64)
  | float (x : Float64)

/-- Equality of numbers; not-a-number equals nothing. -/
def Number.same : Number → Number → Bool
  | .posInt m, .posInt n => m == n
  | .negInt m, .negInt n => m == n
  | .float x, .float y => !x.isNan && !y.isNan && x.signed == y.signed
  | _, _ => false

/-- A JSON value. -/
inductive Value
  | null
  | bool (b : Bool)
  | number (n : Number)
  | string (s : String)
  | array (items : List Value)
  /-- Fields in the order in which they came. -/
  | object (fields : List (String × Value))

/-- The entries of a JSON object. -/
abbrev Fields := List (String × Value)

namespace Value

/-- The value is an object. -/
def isObject : Value → Bool
  | .object _ => true
  | _ => false

mutual

/-- No object has a key twice. -/
def wellFormed : Value → Bool
  | .array items => allWellFormed items
  | .object fields => decide (IndexMap.Unique fields) && fieldsWellFormed fields
  | _ => true

/-- Every item is well formed. -/
def allWellFormed : List Value → Bool
  | [] => true
  | item :: items => item.wellFormed && allWellFormed items

/-- The value of every field is well formed. -/
def fieldsWellFormed : Fields → Bool
  | [] => true
  | (_, value) :: rest => value.wellFormed && fieldsWellFormed rest

end

mutual

/-- Equality of values; the order of an object's keys does not count. -/
def same : Value → Value → Bool
  | .null, .null => true
  | .bool a, .bool b => a == b
  | .number a, .number b => a.same b
  | .string a, .string b => a == b
  | .array as, .array bs => sameItems as bs
  | .object as, .object bs => as.length == bs.length && sameFields as bs
  | _, _ => false

/-- Item by item. -/
def sameItems : List Value → List Value → Bool
  | [], [] => true
  | a :: as, b :: bs => a.same b && sameItems as bs
  | _, _ => false

/-- Every field of the first is in the second. -/
def sameFields : Fields → Fields → Bool
  | [], _ => true
  | (key, a) :: as, bs =>
    (match bs.lookup key with
      | some b => a.same b
      | none => false) && sameFields as bs

end

end Value

/-- A JSON object without a key that comes twice, at any depth. -/
structure Object where
  fields : Fields
  wellFormed : (Value.object fields).wellFormed = true

/-! ## Documents and writes -/

/-- A sparse vector in canonical form. -/
structure SparseVector where
  entries : List (UInt32 × F32)
  ascending : (entries.map Prod.fst).Pairwise (· < ·)
  finite : ∀ entry ∈ entries, entry.2.isFinite = true

/-- Entry by entry. -/
def SparseVector.same (a b : SparseVector) : Bool :=
  a.entries.length == b.entries.length &&
    (a.entries.zip b.entries).all fun (x, y) => x.1 == y.1 && x.2.same y.2

/-- A document with its vectors. -/
structure Document where
  pk : PrimaryKey
  source : Object
  vectors : BTreeMap String (List F32)
  sparseVectors : BTreeMap String SparseVector

/-- Equality of ordered maps, entry by entry. -/
def sameMap {α : Type} (same : α → α → Bool) (a b : BTreeMap String α) : Bool :=
  a.toList.length == b.toList.length &&
    (a.toList.zip b.toList).all fun (x, y) => x.1 == y.1 && same x.2 y.2

/-- Component by component. -/
def sameVector (a b : List F32) : Bool :=
  a.length == b.length && (a.zip b).all fun (x, y) => x.same y

/-- Part by part. -/
def Document.same (a b : Document) : Bool :=
  a.pk == b.pk && (Value.object a.source.fields).same (.object b.source.fields) &&
    sameMap sameVector a.vectors b.vectors &&
    sameMap SparseVector.same a.sparseVectors b.sparseVectors

/-- How the source of a patch is combined with the stored one. -/
inductive PatchMode
  /-- Objects merge recursively; anything else replaces. -/
  | mergeDeep
  /-- Each top-level key replaces. -/
  | mergeTop
  /-- The patch source becomes the source. -/
  | replace
  deriving DecidableEq

/-- A change of parts of a document. -/
structure Patch where
  pk : PrimaryKey
  mode : PatchMode
  source : Object
  /-- Dot-separated paths, removed after the source is combined. -/
  deleteKeys : List String
  /-- `none` deletes the vector. -/
  vectors : BTreeMap String (Option (List F32))
  sparseVectors : BTreeMap String (Option SparseVector)
  /-- Inserted as it is when the key does not exist. -/
  upsert : Option Document

/-- What a record of the log does. -/
inductive DocOp
  | upsert (doc : Document)
  | delete (pk : PrimaryKey)
  | patch (p : Patch)

namespace DocOp

/-- The document that the operation is about. -/
def pk : DocOp → PrimaryKey
  | .upsert doc => doc.pk
  | .delete pk => pk
  | .patch p => p.pk

end DocOp

/-! ## Patches -/

mutual

/-- The value a key has after a merge: two objects merge, anything else is replaced. -/
def mergeValue (existing : Option Value) : Value → Value
  | .object nested =>
    match existing with
    | some (.object fields) => .object (mergeDeep fields nested)
    | _ => .object nested
  | value => value

/-- Merges the entries of a patch into the target, in their order. -/
def mergeDeep (target : Fields) : Fields → Fields
  | [] => target
  | (key, value) :: rest =>
    mergeDeep (IndexMap.insert key (mergeValue (target.lookup key) value) target) rest

end

/-- Each entry of the patch replaces the target's. -/
def mergeTop (target patch : Fields) : Fields :=
  patch.foldl (fun target entry => IndexMap.insert entry.1 entry.2 target) target

/-- The text between the dots; there is always one part. -/
def splitDots : List Char → List (List Char)
  | [] => [[]]
  | c :: rest =>
    match splitDots rest with
    | [] => [[c]]
    | part :: parts => if c = '.' then [] :: part :: parts else (c :: part) :: parts

/-- The path split at its dots. -/
def segments (path : String) : List String := (splitDots path.toList).map String.ofList

/-- Removes what the segments lead to, walking objects only. -/
def deleteIn : List String → Fields → Fields
  | [], fields => fields
  | [last], fields => IndexMap.remove last fields
  | segment :: rest, fields =>
    match fields.lookup segment with
    | some (.object nested) => IndexMap.insert segment (.object (deleteIn rest nested)) fields
    | _ => fields

/-- The fields without what the path names. -/
def deletePath (fields : Fields) (path : String) : Fields := deleteIn (segments path) fields

/-- `some` sets the entry, `none` removes it. -/
def setOrRemove {α : Type} (target : BTreeMap String α) (changes : BTreeMap String (Option α)) :
    BTreeMap String α :=
  changes.toList.foldl (fun target (name, change) =>
    match change with
    | some value => target.insert name value
    | none => target.erase name) target

/-- The fields of the current source after a patch. -/
def combine (current : Fields) (p : Patch) : Fields :=
  let merged := match p.mode with
    | .mergeDeep => mergeDeep current p.source.fields
    | .mergeTop => mergeTop current p.source.fields
    | .replace => p.source.fields
  p.deleteKeys.foldl deletePath merged

/-! ## Patches keep the keys of every object apart -/

namespace Value

theorem fieldsWellFormed_iff {fields : Fields} :
    fieldsWellFormed fields = true ↔ ∀ entry ∈ fields, entry.2.wellFormed = true := by
  induction fields with
  | nil => simp [fieldsWellFormed]
  | cons entry rest ih => simp [fieldsWellFormed, ih]

theorem wellFormed_object_iff {fields : Fields} :
    (Value.object fields).wellFormed = true ↔
      IndexMap.Unique fields ∧ ∀ entry ∈ fields, entry.2.wellFormed = true := by
  rw [wellFormed, Bool.and_eq_true, decide_eq_true_iff, fieldsWellFormed_iff]

variable {fields : Fields} {key : String} {value : Value}

section

variable (h : (Value.object fields).wellFormed = true)
include h

theorem wellFormed_insert (hvalue : value.wellFormed = true) :
    (Value.object (IndexMap.insert key value fields)).wellFormed = true := by
  obtain ⟨hunique, hall⟩ := wellFormed_object_iff.mp h
  refine wellFormed_object_iff.mpr ⟨hunique.insert, fun entry hentry => ?_⟩
  rcases IndexMap.mem_insert hentry with rfl | hmem
  · exact hvalue
  · exact hall entry hmem

theorem wellFormed_remove : (Value.object (IndexMap.remove key fields)).wellFormed = true := by
  obtain ⟨hunique, hall⟩ := wellFormed_object_iff.mp h
  refine wellFormed_object_iff.mpr ⟨hunique.remove, fun entry hentry => ?_⟩
  exact hall entry (List.mem_of_mem_filter hentry)

theorem wellFormed_of_lookup (hlookup : fields.lookup key = some value) : value.wellFormed = true :=
  (wellFormed_object_iff.mp h).2 _ (IndexMap.mem_of_lookup hlookup)

end

/-- What is left of an object without its first entry. -/
theorem wellFormed_tail {entry : String × Value}
    (h : (Value.object (entry :: fields)).wellFormed = true) :
    entry.2.wellFormed = true ∧ (Value.object fields).wellFormed = true := by
  obtain ⟨hunique, hall⟩ := wellFormed_object_iff.mp h
  refine ⟨hall _ List.mem_cons_self, wellFormed_object_iff.mpr ⟨(List.nodup_cons.mp hunique).2, ?_⟩⟩
  exact fun entry' hentry' => hall entry' (List.mem_cons_of_mem _ hentry')

mutual

theorem wellFormed_mergeValue {existing : Option Value}
    (hexisting : ∀ v, existing = some v → v.wellFormed = true) :
    ∀ value : Value, value.wellFormed = true → (mergeValue existing value).wellFormed = true
  | .object nested, hvalue => by
    unfold mergeValue
    split
    · exact wellFormed_mergeDeep nested (hexisting _ rfl) hvalue
    · exact hvalue
  | .null, hvalue | .bool _, hvalue | .number _, hvalue | .string _, hvalue
  | .array _, hvalue => hvalue

theorem wellFormed_mergeDeep : ∀ {target : Fields} (patch : Fields),
    (Value.object target).wellFormed = true → (Value.object patch).wellFormed = true →
      (Value.object (mergeDeep target patch)).wellFormed = true
  | _, [], htarget, _ => htarget
  | target, (key, value) :: rest, htarget, hpatch => by
    obtain ⟨hvalue, hrest⟩ := wellFormed_tail hpatch
    have hold : ∀ v, target.lookup key = some v → v.wellFormed = true := fun _ =>
      wellFormed_of_lookup htarget
    have hmerged := wellFormed_mergeValue hold value hvalue
    exact wellFormed_mergeDeep rest (wellFormed_insert htarget hmerged) hrest

end

theorem wellFormed_mergeTop {target patch : Fields}
    (htarget : (Value.object target).wellFormed = true)
    (hpatch : (Value.object patch).wellFormed = true) :
    (Value.object (mergeTop target patch)).wellFormed = true :=
  List.foldlRecOn patch _ (motive := fun fields => (Value.object fields).wellFormed = true) htarget
    fun _ h entry hentry => wellFormed_insert h ((wellFormed_object_iff.mp hpatch).2 entry hentry)

theorem wellFormed_deleteIn (path : List String) {fields : Fields}
    (h : (Value.object fields).wellFormed = true) :
    (Value.object (deleteIn path fields)).wellFormed = true := by
  fun_induction deleteIn path fields with
  | case1 => exact h
  | case2 => exact wellFormed_remove h
  | case3 segment rest fields _ nested hlookup ih =>
    exact wellFormed_insert h (ih (wellFormed_of_lookup h hlookup))
  | case4 => exact h

theorem wellFormed_combine {current : Fields} (h : (Value.object current).wellFormed = true)
    (p : Patch) : (Value.object (combine current p)).wellFormed = true := by
  refine List.foldlRecOn p.deleteKeys deletePath
    (motive := fun fields => (Value.object fields).wellFormed = true) ?_
    fun _ hfields _ _ => wellFormed_deleteIn _ hfields
  cases p.mode with
  | mergeDeep => exact wellFormed_mergeDeep _ h p.source.wellFormed
  | mergeTop => exact wellFormed_mergeTop h p.source.wellFormed
  | replace => exact p.source.wellFormed

end Value

/-! ## Applying writes -/

/-- The result of a write on the current document; `none` leaves the key absent. An
upsert gives its document and a delete nothing, whatever there was. -/
def applyPatch (current : Option Document) : DocOp → Option Document
  | .upsert doc => some doc
  | .delete _ => none
  | .patch p =>
    match current with
    | none => p.upsert.filter fun doc => doc.pk == p.pk
    | some current => some
      { pk := current.pk
        source := ⟨combine current.source.fields p,
          Value.wellFormed_combine current.source.wellFormed p⟩
        vectors := setOrRemove current.vectors p.vectors
        sparseVectors := setOrRemove current.sparseVectors p.sparseVectors }

/-- Whether the first write of a key is a patch, so that the committed document may be
needed. -/
def needsCurrent : List DocOp → Bool
  | .patch _ :: _ => true
  | _ => false

/-- Latest-wins fold of one key's writes over the committed state. -/
def fold (current : Option Document) (ops : List DocOp) : Option Document :=
  ops.foldl (fun state op =>
    match op with
    | .upsert doc => some doc
    | .delete _ => none
    | .patch _ => applyPatch state op) current

end Loams.Collection
