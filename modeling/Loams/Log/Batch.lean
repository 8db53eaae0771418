/-
# Record batches
-/

import Loams.Data.Varlong

namespace Loams.Log

open Loams.Control Loams.Data

/-- The errors a codec of batches gives. -/
inductive LogError where
  | corrupt (what : String)
  | invalidArgument (what : String)
  deriving DecidableEq, Repr

/-- What cannot be read. -/
def corrupt (what : String) : LogError := .corrupt what

/-- A record of the log. -/
structure Record where
  key : Option Bytes
  value : Option Bytes
  /-- Header keys may repeat. -/
  headers : List (String × Option Bytes)
  timestampMs : Int64
  deriving DecidableEq, Repr

/-- A record with the offset the log assigned to it. -/
structure OffsetRecord where
  offset : UInt64
  record : Record
  deriving DecidableEq, Repr

/-! ## The layout of the header -/

/-- The length of the header of a batch. -/
def headerLen : ℕ := 61
/-- Base offset and batch length, which the batch length does not count. -/
def logOverhead : ℕ := 12
/-- Where the format version is. -/
def magicOffset : ℕ := 16
/-- Where the checksum is. -/
def crcOffset : ℕ := 17
/-- The checksum covers everything from the attributes on. -/
def attributesOffset : ℕ := 21
/-- Where the last offset is, from the first. -/
def lastOffsetDeltaOffset : ℕ := 23
/-- Where the first timestamp is. -/
def baseTimestampOffset : ℕ := 27
/-- Where the largest timestamp is. -/
def maxTimestampOffset : ℕ := 35
/-- Where the number of records is. -/
def recordCountOffset : ℕ := 57
/-- The format version. -/
def magic : UInt8 := 2
/-- No producer. -/
def noProducerId : Int64 := -1
/-- No producer. -/
def noProducerEpoch : Int16 := -1
/-- No producer. -/
def noSequence : Int32 := -1
/-- No leader. -/
def noPartitionLeaderEpoch : Int32 := -1
/-- The bits of the compression. -/
def compressionMask : Int16 := 0x07

/-- Two bytes, the highest first. -/
def putI16 (value : Int16) : Bytes := beBytes 2 value.toUInt16.toNat
/-- Four bytes, the highest first. -/
def putI32 (value : Int32) : Bytes := beBytes 4 value.toUInt32.toNat
/-- Four bytes, the highest first. -/
def putU32 (value : UInt32) : Bytes := beBytes 4 value.toNat
/-- Eight bytes, the highest first. -/
def putI64 (value : Int64) : Bytes := beBytes 8 value.toUInt64.toNat

variable (bytes : Bytes)

/-- The `width` bytes from position `at` on. -/
def slice (start width : ℕ) : Bytes := (bytes.drop start).take width

/-- Two bytes at a position. -/
def beI16 (start : ℕ) : Int16 :=
  (UInt16.ofNat (ofBeBytes (slice bytes start 2))).toInt16
/-- Four bytes at a position. -/
def beI32 (start : ℕ) : Int32 :=
  (UInt32.ofNat (ofBeBytes (slice bytes start 4))).toInt32
/-- Four bytes at a position. -/
def beU32 (start : ℕ) : UInt32 := UInt32.ofNat (ofBeBytes (slice bytes start 4))
/-- Eight bytes at a position. -/
def beI64 (start : ℕ) : Int64 :=
  (UInt64.ofNat (ofBeBytes (slice bytes start 8))).toInt64

/-! ## Writing -/

/-- A length that fits four bytes. -/
def lenI32 (what : String) (len : ℕ) : Except LogError Int32 := do
  require (len < 2 ^ 31) (.invalidArgument s!"{what} is too large")
  pure (Int32.ofNat len)

/-- Ten groups of seven bits hold a 64-bit number. -/
def putVarlong (value : Int64) : Bytes := Codec.varint 9 (zigzag value).toNat

/-- A number in zigzag groups of seven bits. -/
def putVarint (value : Int32) : Bytes := putVarlong value.toInt64

/-- The length, -1 for none, and the bytes. -/
def putBytes (what : String) : Option Bytes → Except LogError Bytes
  | none => pure (putVarint (-1))
  | some bytes => do
    let len ← lenI32 what bytes.length
    pure (putVarint len ++ bytes)

/-- A key, which is text and never absent, and a value. -/
def encodeHeader : String × Option Bytes → Except LogError Bytes
  | (key, value) => do
    let len ← lenI32 "header key" (utf8 key).length
    let value ← putBytes "header value" value
    pure (putVarint len ++ utf8 key ++ value)

/-- `checked_sub` of the source: an error when the difference does not fit. -/
def timestampDelta (timestampMs baseTimestamp : Int64) : Except LogError Int64 := do
  let delta := timestampMs.toInt - baseTimestamp.toInt
  require (-2 ^ 63 ≤ delta ∧ delta < 2 ^ 63) (.invalidArgument "timestamps too far apart")
  pure (Int64.ofInt delta)

/-- The length of a record and its fields. -/
def encodeRecord (record : Record) (offsetDelta : Int32) (baseTimestamp : Int64) :
    Except LogError Bytes := do
  let timestampDelta ← timestampDelta record.timestampMs baseTimestamp
  let key ← putBytes "record key" record.key
  let value ← putBytes "record value" record.value
  let headerCount ← lenI32 "header count" record.headers.length
  let headers ← record.headers.mapM encodeHeader
  -- The first byte holds the record attributes, which are not used.
  let body := [0] ++ putVarlong timestampDelta ++ putVarint offsetDelta ++ key ++ value ++
    putVarint headerCount ++ headers.flatten
  let len ← lenI32 "record" body.length
  pure (putVarint len ++ body)

/-- What stands in front of the checksum. -/
def frame (batchLength : Int32) : Bytes :=
  putI64 0 ++ putI32 batchLength ++ putI32 noPartitionLeaderEpoch ++ [magic]

/-- What the checksum covers: the rest of the header, and the records. -/
def covered (count : Int32) (baseTimestamp maxTimestamp : Int64) (body : Bytes) : Bytes :=
  putI16 0 ++ putI32 (count - 1) ++ putI64 baseTimestamp ++ putI64 maxTimestamp ++
    putI64 noProducerId ++ putI16 noProducerEpoch ++ putI32 noSequence ++ putI32 count ++ body

/-- The largest timestamp of the records. -/
def maxTimestamp (records : List Record) (baseTimestamp : Int64) : Int64 :=
  (records.map (·.timestampMs)).max?.getD baseTimestamp

section

variable (crc32c : Bytes → UInt32)

/-- Encodes records as one batch. -/
def encode : List Record → Except LogError Bytes
  | [] => .error (.invalidArgument "a batch needs at least one record")
  | first :: rest => do
    let records := first :: rest
    let count ← lenI32 "record count" records.length
    let baseTimestamp := first.timestampMs
    let body ← records.zipIdx.mapM fun (record, delta) =>
      encodeRecord record (Int32.ofNat delta) baseTimestamp
    let batchLength ← lenI32 "batch" (headerLen - logOverhead + body.flatten.length)
    -- The checksum is filled in when all else is written.
    let out := frame batchLength ++ putU32 0 ++
      covered count baseTimestamp (maxTimestamp records baseTimestamp) body.flatten
    let crc := crc32c (out.drop attributesOffset)
    pure (out.take crcOffset ++ putU32 crc ++ out.drop attributesOffset)

/-! ## Splitting -/

/-- One well-formed batch whose checksum was verified. -/
structure BatchRef where
  /-- The whole batch, header included. -/
  bytes : Bytes
  recordCount : UInt32
  maxTimestampMs : Int64
  deriving DecidableEq, Repr

/-- Checks the batch at the start of `bytes`. -/
def parseBatch (bytes : Bytes) : Except LogError BatchRef := do
  require (headerLen ≤ bytes.length) (corrupt s!"record batch truncated: {bytes.length} bytes")
  let length := beI32 bytes 8
  let total := length.toInt.toNat + logOverhead
  require (0 ≤ length.toInt ∧ headerLen ≤ total ∧ total ≤ bytes.length)
    (corrupt s!"bad record batch length {length}")
  let bytes := bytes.take total
  let version := bytes.getD magicOffset 0
  require (version = magic) (corrupt s!"unsupported record batch magic {version}")
  require (crc32c (bytes.drop attributesOffset) = beU32 bytes crcOffset)
    (corrupt "record batch checksum mismatch")
  let attributes := beI16 bytes attributesOffset
  let hex := String.ofList (Nat.toDigits 16 attributes.toUInt16.toNat)
  require (attributes &&& compressionMask = 0)
    (corrupt s!"compressed record batches are not supported (attributes 0x{hex})")
  let count := beI32 bytes recordCountOffset
  let lastDelta := beI32 bytes lastOffsetDeltaOffset
  require (0 < count.toInt ∧ count.toInt - 1 = lastDelta.toInt)
    (corrupt s!"bad record count {count} (last offset delta {lastDelta})")
  pure { bytes, recordCount := count.toUInt32, maxTimestampMs := beI64 bytes maxTimestampOffset }

/-- The batches at the front of `bytes`, as far as `rounds` go. -/
def batchesFrom : ℕ → Bytes → List (Except LogError BatchRef)
  | 0, _ => []
  | rounds + 1, current =>
    if current = [] then []
    else match parseBatch crc32c current with
      | .ok batch => .ok batch :: batchesFrom rounds (current.drop batch.bytes.length)
      | .error err => [.error err]

/-- Splits concatenated batches and stops after the first error. A batch is never
empty, so there are at most as many as bytes. -/
def batches (bytes : Bytes) : List (Except LogError BatchRef) :=
  batchesFrom crc32c bytes.length bytes

end

/-! ## Reading -/

/-- The `Cursor` of the source: a reader over the bytes that are left. -/
abbrev Cursor (α : Type) := Reader LogError α

namespace Cursor

/-- The next bytes. -/
def take (len : ℕ) : Cursor Bytes := Reader.take len fun _ => corrupt "record truncated"

/-- A number in at most so many groups. -/
def varlong (maxBytes : ℕ) : Cursor Int64 := do
  let value ← Reader.groupsFrom (corrupt "record truncated") (corrupt "varint too long")
    maxBytes 0 0
  pure (unzigzag value)

/-- A number of four bytes. -/
def varint : Cursor Int32 := do
  let value ← varlong 5
  require (-2 ^ 31 ≤ value.toInt ∧ value.toInt < 2 ^ 31) (corrupt "varint out of range")
  pure value.toInt32

/-- A number that must not be negative. -/
def length (negative : String) : Cursor ℕ := do
  let len ← varint
  require (0 ≤ len.toInt) (corrupt negative)
  pure len.toInt.toNat

/-- Bytes with their length, -1 for none. -/
def nullableBytes : Cursor (Option Bytes) := do
  let len ← varint
  if len = -1 then pure none
  else do
    require (0 ≤ len.toInt) (corrupt "negative length")
    let bytes ← take len.toInt.toNat
    pure (some bytes)

/-- Nothing may be left. -/
def done (trailing : String) : Cursor Unit := do
  let rest ← Program.read
  require (rest = []) (corrupt trailing)

end Cursor

/-- A header with its key. -/
def decodeHeader : Cursor (String × Option Bytes) := do
  let keyLen ← Cursor.length "negative header key length"
  let key ← Cursor.take keyLen
  let key ← match ofUtf8? key with
    | some key => pure key
    | none => Program.fail (corrupt "header key is not UTF-8")
  let value ← Cursor.nullableBytes
  pure (key, value)

/-- The fields of a record, which must fill the bytes its length gives it. -/
def decodeFields (expectedDelta : Int32) (baseTimestamp : Int64) : Cursor Record := do
  let _ ← Cursor.take 1
  let timestampDelta ← Cursor.varlong 10
  let offsetDelta ← Cursor.varint
  require (offsetDelta = expectedDelta)
    (corrupt s!"record offset delta {offsetDelta}, expected {expectedDelta}")
  let timestamp := baseTimestamp.toInt + timestampDelta.toInt
  require (-2 ^ 63 ≤ timestamp ∧ timestamp < 2 ^ 63) (corrupt "record timestamp overflows")
  let key ← Cursor.nullableBytes
  let value ← Cursor.nullableBytes
  let headers ← Reader.counted (Cursor.length "negative header count") decodeHeader
  Cursor.done "trailing bytes in record"
  pure { key, value, headers, timestampMs := Int64.ofInt timestamp }

/-- A record, which its length bounds. -/
def decodeRecord (expectedDelta : Int32) (baseTimestamp : Int64) : Cursor Record := do
  let len ← Cursor.length "negative record length"
  let body ← Cursor.take len
  ((decodeFields expectedDelta baseTimestamp).exec body).1

/-- The records of a batch and the end of its bytes. -/
def decodeRecords (count : ℕ) (baseTimestamp : Int64) (baseOffset : UInt64) :
    Cursor (List OffsetRecord) := do
  let records ← Reader.each (fun delta => do
    let record ← decodeRecord (Int32.ofNat delta) baseTimestamp
    pure { offset := baseOffset + UInt64.ofNat delta, record }) (List.range count)
  Cursor.done "trailing bytes in record batch"
  pure records

/-- The records of one checked batch, which get offsets from `baseOffset` on. -/
def decodeBatch (batch : BatchRef) (baseOffset : UInt64) : Except LogError (List OffsetRecord) := do
  let baseTimestamp := beI64 batch.bytes baseTimestampOffset
  require (batch.recordCount.toNat < 2 ^ 31) (corrupt "record count")
  ((decodeRecords batch.recordCount.toNat baseTimestamp baseOffset).exec
    (batch.bytes.drop headerLen)).1

/-- The records of batches one after the other, the first at offset `next`. -/
def decodeFrom : List (Except LogError BatchRef) → UInt64 → Except LogError (List OffsetRecord)
  | [], _ => pure []
  | batch :: rest, next => do
    let batch ← batch
    let records ← decodeBatch batch next
    let others ← decodeFrom rest (next + UInt64.ofNat batch.recordCount.toNat)
    pure (records ++ others)

/-- Decodes concatenated batches; their own base offsets are ignored. -/
def decode (crc32c : Bytes → UInt32) (bytes : Bytes) (baseOffset : UInt64) :
    Except LogError (List OffsetRecord) :=
  decodeFrom (batches crc32c bytes) baseOffset

end Loams.Log
