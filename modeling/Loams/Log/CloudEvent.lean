/-
# CloudEvents
-/

import Loams.Control.Program
import Loams.Data.Codec
import Loams.Data.Text

namespace Loams.Log

open List Loams.Control Loams.Data

/-- The type of an attribute. -/
inductive AttrType
  | string | integer | boolean | uri | uriRef | timestamp | binary
  deriving DecidableEq

/-- An attribute. -/
structure Attr where
  name : String
  value : String
  kind : AttrType := .string

/-- Why the attributes of an event are refused. -/
inductive EventError
  | missing (name : String)
  | empty (name : String)
  | specVersion (version : String)
  | name (name : String)
  | duplicate (name : String)
  | time (value : String)
  | type (name expected : String)

/-- The names that the specification gives. -/
def contextAttributes : List String :=
  ["specversion", "id", "source", "type", "datacontenttype", "dataschema", "subject", "time"]

/-- The names that every event has. -/
def requiredAttributes : List String := ["specversion", "id", "source", "type"]

/-- Lower-case letters and digits, and not `data`. -/
def validName (name : String) : Bool :=
  name ≠ "" && name.toList.all (fun c => c.isLower || c.isDigit) && name ≠ "data"

/-- The canonical spelling of a 32-bit integer. -/
def isI32 (value : String) : Bool :=
  match value.toInt? with
  | some n => -2 ^ 31 ≤ n && n < 2 ^ 31 && toString n == value
  | none => false

section Validation

variable (isRfc3339 : String → Bool)

/-- One attribute, after those before it. -/
def checkAttr (before : List Attr) (attr : Attr) : Except EventError Unit := do
  require (validName attr.name) (.name attr.name)
  require (∀ other ∈ before, other.name ≠ attr.name) (.duplicate attr.name)
  let context := contextAttributes.contains attr.name
  require (context → attr.value ≠ "") (.empty attr.name)
  require (context → attr.kind ∈ [.string, .uri, .uriRef, .timestamp]) (.type attr.name "a string")
  match attr.kind with
  | .integer => require (isI32 attr.value) (.type attr.name "a 32-bit integer")
  | .boolean => require (attr.value ∈ ["true", "false"]) (.type attr.name "a boolean")
  | .timestamp => require (isRfc3339 attr.value) (.type attr.name "an RFC 3339 timestamp")
  | _ => pure ()

/-- Each one against those before it. -/
def checkAttrs (before : List Attr) : List Attr → Except EventError Unit
  | [] => pure ()
  | attr :: rest => do
    checkAttr isRfc3339 before attr
    checkAttrs (before ++ [attr]) rest

/-- The value of the first attribute of a name. -/
def attrValue (attrs : List Attr) (name : String) : Option String :=
  (attrs.find? (·.name = name)).map Attr.value

/-- Every attribute is valid and none is missing. -/
def validate (attrs : List Attr) : Except EventError Unit := do
  checkAttrs isRfc3339 [] attrs
  requiredAttributes.forM fun name => require (attrs.any (·.name = name)) (.missing name)
  let version := (attrValue attrs "specversion").getD ""
  require (version = "1.0") (.specVersion version)
  match attrValue attrs "time" with
  | some time => require (isRfc3339 time) (.time time)
  | none => pure ()

end Validation

/-- An event that validation accepts; whether a text is an RFC 3339 timestamp is up to the
time library. -/
structure CloudEvent (isRfc3339 : String → Bool) where
  attrs : List Attr
  valid : validate isRfc3339 attrs = .ok ()

namespace CloudEvent

variable {isRfc3339 : String → Bool} {Digest : Type} (sha256 : Bytes → Digest)
variable (e : CloudEvent isRfc3339)

/-- The id, which every event has. -/
def id : String := (attrValue e.attrs "id").getD ""

/-- The source, which every event has. -/
def source : String := (attrValue e.attrs "source").getD ""

/-- What identifies the event: the hash of its source, a zero byte and its id. -/
def dedupKey : Digest := sha256 (utf8 e.source ++ 0 :: utf8 e.id)

/-- Past a zero character, the source of the second event goes on with the front of the
first event's id, up to a zero character in it. -/
def Shifts (e e' : CloudEvent isRfc3339) : Prop :=
  ∃ x, e'.source.toList = e.source.toList ++ '\x00' :: x ∧
    e.id.toList = x ++ '\x00' :: e'.id.toList

variable {sha256}

theorem Shifts.source_ne {e e' : CloudEvent isRfc3339} (h : e.Shifts e') :
    e.source ≠ e'.source := by
  intro heq
  obtain ⟨x, hsource, -⟩ := h
  simp [heq] at hsource

/-- The hash is taken of the UTF-8 of one text. -/
theorem dedupKey_eq_utf8 : e.dedupKey sha256 =
    sha256 (utf8 (String.ofList (e.source.toList ++ '\x00' :: e.id.toList))) := by
  have hutf8 : ∀ s : String, utf8 s = s.toList.flatMap String.utf8EncodeChar := fun s => by
    rw [← utf8_ofList, String.ofList_toList]
  rw [dedupKey, utf8_ofList, flatMap_append, flatMap_cons, ← hutf8, ← hutf8]
  rfl

theorem dedupKey_eq_cases (hsha : Function.Injective sha256) (e e' : CloudEvent isRfc3339) :
    e.dedupKey sha256 = e'.dedupKey sha256 ↔
      e.source = e'.source ∧ e.id = e'.id ∨ e.Shifts e' ∨ e'.Shifts e := by
  rw [dedupKey_eq_utf8, dedupKey_eq_utf8, hsha.eq_iff, utf8_inj, String.ofList_inj,
    append_eq_append_iff]
  simp only [cons_eq_append_iff, Shifts]
  constructor
  · rintro (⟨y, hsource, ⟨rfl, hid⟩ | ⟨x, rfl, hid⟩⟩ | ⟨y, hsource, ⟨rfl, hid⟩ | ⟨x, rfl, hid⟩⟩)
    · rw [append_nil, String.toList_inj] at hsource
      exact .inl ⟨hsource.symm, String.toList_inj.mp (cons.inj hid).2.symm⟩
    · exact .inr (.inl ⟨x, hsource, hid⟩)
    · rw [append_nil, String.toList_inj] at hsource
      exact .inl ⟨hsource, String.toList_inj.mp (cons.inj hid).2⟩
    · exact .inr (.inr ⟨x, hsource, hid⟩)
  · rintro (⟨hsource, hid⟩ | ⟨x, hsource, hid⟩ | ⟨x, hsource, hid⟩)
    · exact .inl ⟨[], by rw [hsource, append_nil], .inl ⟨rfl, by rw [hid]⟩⟩
    · exact .inl ⟨_, hsource, .inr ⟨x, rfl, hid⟩⟩
    · exact .inr ⟨_, hsource, .inr ⟨x, rfl, hid⟩⟩

/-- With a hash without collisions, the key tells two events apart exactly when neither
source goes on, past a zero character, with what the other event has in its id. -/
theorem dedupKey_eq_iff (hsha : Function.Injective sha256) (e e' : CloudEvent isRfc3339) :
    (e.dedupKey sha256 = e'.dedupKey sha256 ↔ e.source = e'.source ∧ e.id = e'.id) ↔
      ¬ e.Shifts e' ∧ ¬ e'.Shifts e := by
  rw [dedupKey_eq_cases hsha]
  constructor
  · intro h
    exact ⟨fun hs => hs.source_ne (h.mp (.inr (.inl hs))).1,
      fun hs => hs.source_ne (h.mp (.inr (.inr hs))).1.symm⟩
  · rintro ⟨hfirst, hsecond⟩
    simp [hfirst, hsecond]

/-- The attributes that an event must have. -/
def sent (source id : String) : List Attr :=
  [⟨"specversion", "1.0", .string⟩, ⟨"id", id, .string⟩, ⟨"source", source, .string⟩,
    ⟨"type", "t", .string⟩]

/-- Two events with different sources and ids whose hashes are taken of the same bytes. -/
theorem dedupKey_shared :
    let e : CloudEvent fun _ => true := ⟨sent "a" "b\x00c", rfl⟩
    let e' : CloudEvent fun _ => true := ⟨sent "a\x00b" "c", rfl⟩
    e.source ≠ e'.source ∧ e.id ≠ e'.id ∧
      e.dedupKey (fun bytes => bytes) = e'.dedupKey fun bytes => bytes :=
  ⟨by decide, by decide, rfl⟩

/-- Zero characters alone do no harm. -/
theorem dedupKey_eq_iff_zeros :
    let e : CloudEvent fun _ => true := ⟨sent "a\x00" "b\x00", rfl⟩
    let e' : CloudEvent fun _ => true := ⟨sent "c\x00" "d\x00", rfl⟩
    e.dedupKey (fun bytes => bytes) ≠ e'.dedupKey fun bytes => bytes := by
  intro e e' h
  have hkey := (dedupKey_eq_iff Function.injective_id e e').mpr
    ⟨fun ⟨x, hx, _⟩ => by simp [e, e', source, sent, attrValue] at hx, fun ⟨x, hx, _⟩ => by
      simp [e, e', source, sent, attrValue] at hx⟩
  exact absurd (hkey.mp h).1 (by decide)

end CloudEvent

end Loams.Log
