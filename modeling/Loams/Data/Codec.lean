/-
# Byte encodings

A codec writes a value so that it is read back from the front of any byte string.
-/

import Mathlib.Logic.Encodable.Basic
import Mathlib.Tactic.Ring

namespace Loams.Data

/-- Bytes in order. -/
abbrev Bytes := List UInt8

instance lawfulBEqBytes : LawfulBEq Bytes := inferInstance

/-! ## Fixed-width integers -/

/-- The `width` low bytes of a number, least significant first. -/
def leBytes : ℕ → ℕ → Bytes
  | 0, _ => []
  | width + 1, n => UInt8.ofNat n :: leBytes width (n / 256)

/-- The number that bytes stand for, least significant first. -/
def ofLeBytes : Bytes → ℕ
  | [] => 0
  | b :: bs => b.toNat + 256 * ofLeBytes bs

@[simp] theorem length_leBytes (width n : ℕ) : (leBytes width n).length = width := by
  induction width generalizing n with
  | zero => rfl
  | succ width ih => simp [leBytes, ih]

theorem ofLeBytes_leBytes {width n : ℕ} (h : n < 256 ^ width) :
    ofLeBytes (leBytes width n) = n := by
  induction width generalizing n with
  | zero => simp only [pow_zero, Nat.lt_one_iff] at h; simp [leBytes, ofLeBytes, h]
  | succ width ih =>
    have hdiv : n / 256 < 256 ^ width := Nat.div_lt_of_lt_mul (by rwa [pow_succ'] at h)
    simp only [leBytes, ofLeBytes, ih hdiv, UInt8.toNat_ofNat']
    exact Nat.mod_add_div n 256

/-! ## Text -/

/-- The bytes of a text. -/
def utf8 (text : String) : Bytes := text.toByteArray.data.toList

theorem utf8_inj {a b : String} : utf8 a = utf8 b ↔ a = b := by
  rw [utf8, utf8, Array.toList_inj, ← ByteArray.ext_iff, String.toByteArray_inj]

theorem utf8_ofList (l : List Char) : utf8 (String.ofList l) = l.flatMap String.utf8EncodeChar := by
  rw [utf8, String.toByteArray_ofList]
  simp [List.utf8Encode]

/-- The text that bytes spell, if they are well formed. -/
def ofUtf8? (bytes : Bytes) : Option String := String.fromUTF8? ⟨bytes.toArray⟩

@[simp] theorem ofUtf8?_utf8 (text : String) : ofUtf8? (utf8 text) = some text := by
  have hbytes : (⟨(utf8 text).toArray⟩ : ByteArray) = text.toByteArray := by
    rw [utf8, Array.toArray_toList]
  rw [ofUtf8?, hbytes, String.fromUTF8?, dif_pos text.isValidUTF8]
  rfl

/-! ## Self-delimiting encodings -/

/-- A way to write a value and to take it back from the front of a byte string. -/
structure Codec (α : Type) where
  encode : α → Bytes
  take : Bytes → Except String (α × Bytes)
  /-- What was written is read back, and exactly its bytes are used up. -/
  take_encode : ∀ a rest, take (encode a ++ rest) = .ok (a, rest)

namespace Codec

variable {α β : Type}

/-- Reads a value that must fill the whole byte string. -/
def decode (c : Codec α) (bytes : Bytes) : Except String α := do
  let (value, rest) ← c.take bytes
  if rest.isEmpty then .ok value else .error s!"{rest.length} trailing bytes"

@[simp] theorem decode_encode (c : Codec α) (a : α) : c.decode (c.encode a) = .ok a := by
  have h := c.take_encode a []
  rw [List.append_nil] at h
  simp [decode, h, bind, Except.bind]

/-- Two values one after the other, as the fields of a record are written. -/
def prod (c : Codec α) (d : Codec β) : Codec (α × β) where
  encode p := c.encode p.1 ++ d.encode p.2
  take bytes := do
    let (a, rest) ← c.take bytes
    let (b, rest) ← d.take rest
    .ok ((a, b), rest)
  take_encode p rest := by
    simp [List.append_assoc, c.take_encode, d.take_encode, bind, Except.bind]

/-! ## Variable-length integers -/

/-- Seven bits a byte, least significant first; every byte but the last has its
high bit set. A number has fewer groups than its value, so the value bounds the
rounds. -/
def varint : ℕ → ℕ → Bytes
  | 0, n => [UInt8.ofNat n]
  | fuel + 1, n =>
    if n < 128 then [UInt8.ofNat n] else UInt8.ofNat (n % 128 + 128) :: varint fuel (n / 128)

/-- Reads a number in groups of seven bits, the lowest first. -/
def takeVarint : Bytes → Except String (ℕ × Bytes)
  | [] => .error "Hit the end of buffer, expected more data"
  | b :: bytes => do
    if b.toNat < 128 then .ok (b.toNat, bytes)
    else
      let (n, rest) ← takeVarint bytes
      .ok (b.toNat - 128 + 128 * n, rest)

theorem takeVarint_varint {fuel n : ℕ} (h : n ≤ fuel) (rest : Bytes) :
    takeVarint (varint fuel n ++ rest) = .ok (n, rest) := by
  induction fuel generalizing n with
  | zero =>
    obtain rfl : n = 0 := by omega
    simp [varint, takeVarint]
  | succ fuel ih =>
    unfold varint
    split_ifs with hsmall
    · have hbyte : n % 256 = n := by omega
      simp [takeVarint, hbyte, hsmall]
    · have hbyte : (n % 128 + 128) % 256 = n % 128 + 128 := by omega
      have hrest := ih (show n / 128 ≤ fuel by omega)
      simp [takeVarint, hbyte, hrest, bind, Except.bind, Nat.mod_add_div]

/-- Natural numbers in groups of seven bits. -/
def nat : Codec ℕ where
  encode n := varint n n
  take := takeVarint
  take_encode _ rest := takeVarint_varint le_rfl rest

/-- Countable data can be written: a codec of its numbering. -/
theorem nonempty_of_countable (α : Type) [Countable α] : Nonempty (Codec α) := by
  have numbering : Encodable α := Encodable.ofCountable α
  exact ⟨{
    encode a := nat.encode (Encodable.encode a)
    take bytes := do
      let (n, rest) ← nat.take bytes
      match (Encodable.decode n : Option α) with
      | some a => .ok (a, rest)
      | none => .error "unknown value"
    take_encode a rest := by simp [nat.take_encode, bind, Except.bind] }⟩

end Codec

end Loams.Data
