/-
# Transactions of the TiKV metastore

A body runs against the store it finds and stops with a value, a refusal or a failure.
-/

import Loams.Tikv.Keys

namespace Loams.Tikv

open Loams.Data Loams.Meta Loams.Control Program

/-- Why a transaction's body ended early: the request is refused, or the
transaction cannot be carried out. -/
inductive Stop
  | rejected (e : ApplyError)
  | fatal (message : String)
  deriving DecidableEq

/-- The body of a transaction. -/
abbrev Txn := Program Store Stop

/-- Runs a body as one transaction. -/
def runTxn {α : Type} (body : Txn α) (store : Store) : Except Stop α × Store :=
  match body.exec store with
  | (.error (.fatal message), _) => (.error (.fatal message), store)
  | result => result

/-- Ends a body with a refusal when the check fails. -/
def checked {α : Type} (x : Except ApplyError α) : Except Stop α := x.mapError .rejected

/-- The pairs of the store under the given keys. -/
def batchGet (store : Store) (keys : List Bytes) : Store := store.filter fun k _ => k ∈ keys

theorem batchGet_eq (store : Store) (keys : List Bytes) (key : Bytes) :
    (batchGet store keys)[key]? = if key ∈ keys then store[key]? else none := by
  rw [batchGet, Std.ExtTreeMap.getElem?_filter']
  by_cases hkey : key ∈ keys <;> cases store[key]? <;> simp [hkey]

theorem batchGet_get {store : Store} {keys : List Bytes} {key : Bytes} (h : key ∈ keys) :
    (batchGet store keys)[key]? = store[key]? := by
  rw [batchGet_eq, if_pos h]

/-! ## Records -/

/-- The format byte in front of every record. -/
def format : UInt8 := 1

/-- The message about a value that cannot be read. -/
def corrupt (what detail : String) : Stop :=
  .fatal s!"storage error: TiKV metastore: unreadable {what} record: {detail}"

section Records

variable {α : Type} (c : Codec α)

/-- The format byte, then the value. -/
def encode (value : α) : Bytes := format :: c.encode value

/-- Reads a value of this format. -/
def decode (what : String) : Bytes → Except Stop α
  | [] => .error (corrupt what "empty value")
  | first :: body =>
    if first = format then
      match c.take body with
      | .ok (value, _) => .ok value
      | .error e => .error (corrupt what e)
    else .error (corrupt what s!"unknown format {first.toNat}")

@[simp] theorem decode_encode (what : String) (value : α) :
    decode c what (encode c value) = .ok value := by
  have h := c.take_encode value []
  rw [List.append_nil] at h
  simp [decode, encode, h]

theorem encode_inj {value value' : α} : encode c value = encode c value' ↔ value = value' := by
  refine ⟨fun h => ?_, fun h => by rw [h]⟩
  have hdecode := congrArg (decode c "") h
  rwa [decode_encode, decode_encode, Except.ok.injEq] at hdecode

/-- Reads a record that may be absent. -/
def load (store : Store) (what : String) (key : Bytes) : Except Stop (Option α) :=
  match store[key]? with
  | some value => (decode c what value).map some
  | none => .ok none

theorem load_eq {store : Store} {what : String} {key : Bytes} {record : Option α}
    (h : store[key]? = record.map (encode c)) : load c store what key = .ok record := by
  cases record <;> simp_all [load, Except.map]

end Records

/-- Reads a 4-byte counter. -/
def decodeU32 (what : String) (bytes : Bytes) : Except Stop ℕ :=
  if bytes.length = 4 then .ok (ofBeBytes bytes)
  else .error (corrupt what s!"{bytes.length} bytes, not 4")

theorem decodeU32_beBytes {what : String} {n : ℕ} (h : n ≤ u32Max) :
    decodeU32 what (beBytes 4 n) = .ok n := by
  simp [decodeU32, ofBeBytes_beBytes (lt_pow_four h)]

end Loams.Tikv
