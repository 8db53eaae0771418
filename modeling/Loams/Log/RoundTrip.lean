/-
# Batches are read back as they were written
-/

import Loams.Log.Batch

namespace Loams.Log

open List Loams.Control Loams.Data Loams.Data.Reader

/-! ## Numbers and byte strings -/

variable {what : String}

theorem lenI32_eq_ok {len : ℕ} {n : Int32} :
    lenI32 what len = .ok n ↔ len < 2 ^ 31 ∧ Int32.ofNat len = n := by
  rw [lenI32, except_bind_ok]
  simp [pure, Except.pure]

theorem toInt_ofNat_of_lt {len : ℕ} (h : len < 2 ^ 31) : (Int32.ofNat len).toInt = len :=
  Int32.toInt_ofNat_of_lt (by omega)

theorem reads_take (bytes : Bytes) : Reads (Cursor.take bytes.length) bytes bytes :=
  Reader.reads_take rfl

/-- A number is read back when its groups fit the bytes the reader takes. -/
theorem reads_varlong {maxBytes : ℕ} {value : Int64}
    (h : (zigzag value).toNat < 128 ^ (maxBytes + 1)) :
    Reads (Cursor.varlong (maxBytes + 1)) (putVarlong value) value := by
  have hword := (zigzag value).toNat_lt
  have hgroups : Reads (groupsFrom (corrupt "record truncated") (corrupt "varint too long")
      (maxBytes + 1) 0 0) (putVarlong value)
      (UInt64.ofNat ((0 : UInt64).toNat + (zigzag value).toNat * 2 ^ (7 * 0))) :=
    reads_groupsFrom (by decide) (by decide) (by simpa using hword) h
      (lt_trans hword (by decide))
  have hvalue : Reads (Cursor.varlong (maxBytes + 1)) (putVarlong value)
      (unzigzag (UInt64.ofNat ((0 : UInt64).toNat + (zigzag value).toNat * 2 ^ (7 * 0)))) :=
    hgroups.answer
  simpa using hvalue

theorem reads_varint (value : Int32) : Reads Cursor.varint (putVarint value) value := by
  have hlo : -2 ^ 31 ≤ value.toInt64.toInt := by
    rw [Int32.toInt_toInt64]
    exact value.le_toInt
  have hhi : value.toInt64.toInt < 2 ^ 31 := by
    rw [Int32.toInt_toInt64]
    exact value.toInt_lt
  have hgroups : (zigzag value.toInt64).toNat < 128 ^ (4 + 1) :=
    lt_trans (zigzag_lt hlo hhi) (by decide)
  have hread := reads_varlong hgroups
  rw [← append_nil (putVarint value)]
  refine hread.bind (reads_require ⟨hlo, hhi⟩ ?_)
  rw [Int32.toInt32_toInt64]
  exact reads_pure value

/-- A length that was written is read back as the number it counts. -/
theorem reads_length {negative : String} {len : ℕ} {n : Int32} (h : lenI32 what len = .ok n) :
    Reads (Cursor.length negative) (putVarint n) len := by
  obtain ⟨hlen, rfl⟩ := lenI32_eq_ok.mp h
  have hint := toInt_ofNat_of_lt hlen
  rw [← append_nil (putVarint _)]
  refine (reads_varint _).bind (reads_require (by rw [hint]; omega) ?_)
  rw [hint]
  exact reads_pure len

variable {written : Bytes}

theorem reads_nullableBytes {bytes : Option Bytes} (h : putBytes what bytes = .ok written) :
    Reads Cursor.nullableBytes written bytes := by
  cases bytes with
  | none =>
    obtain rfl : putVarint (-1) = written := Except.ok.inj h
    rw [← append_nil (putVarint _)]
    exact (reads_varint (-1)).bind (reads_pure none)
  | some bytes =>
    obtain ⟨n, hn, hwritten⟩ := except_bind_ok.mp h
    obtain rfl : putVarint n ++ bytes = written := Except.ok.inj hwritten
    obtain ⟨hlen, rfl⟩ := lenI32_eq_ok.mp hn
    have hint := toInt_ofNat_of_lt hlen
    -- A length is not the mark of an absent value.
    have hpresent : Int32.ofNat bytes.length ≠ -1 := by
      intro heq
      rw [heq] at hint
      simp at hint
    refine (reads_varint _).bind ?_
    rw [if_neg hpresent]
    refine reads_require (by rw [hint]; omega) ?_
    rw [hint]
    exact (reads_take bytes).answer

/-! ## Records -/

theorem reads_decodeHeader {header : String × Option Bytes}
    (h : encodeHeader header = .ok written) : Reads decodeHeader written header := by
  obtain ⟨key, value⟩ := header
  obtain ⟨n, hn, h⟩ := except_bind_ok.mp h
  obtain ⟨tail, htail, h⟩ := except_bind_ok.mp h
  obtain rfl : putVarint n ++ utf8 key ++ tail = written := Except.ok.inj h
  rw [append_assoc]
  refine (reads_length hn).bind ((reads_take (utf8 key)).bind ?_)
  rw [ofUtf8?_utf8, ← nil_append tail]
  exact (reads_pure key).bind (reads_nullableBytes htail).answer

/-- The timestamp delta is undone by an addition that does not overflow. -/
theorem add_timestampDelta {timestampMs baseTimestamp delta : Int64}
    (h : timestampDelta timestampMs baseTimestamp = .ok delta) :
    baseTimestamp.toInt + delta.toInt = timestampMs.toInt := by
  obtain ⟨_, hfits, hdelta⟩ := except_bind_ok.mp h
  obtain ⟨hlo, hhi⟩ := require_eq_ok.mp hfits
  obtain rfl : Int64.ofInt (timestampMs.toInt - baseTimestamp.toInt) = delta :=
    Except.ok.inj hdelta
  rw [Int64.toInt_ofInt_of_le (by omega) (by omega)]
  omega

/-- The end of the bytes is where the last field ends. -/
theorem exec_done_bind {α : Type} {trailing : String} {f : Unit → Cursor α} :
    (Cursor.done trailing >>= f).exec [] = (f ()).exec [] := rfl

/-- A record is read back as it was written. -/
theorem reads_decodeRecord {record : Record} {delta : Int32} {baseTimestamp : Int64}
    (h : encodeRecord record delta baseTimestamp = .ok written) :
    Reads (decodeRecord delta baseTimestamp) written record := by
  obtain ⟨tsDelta, htsDelta, h⟩ := except_bind_ok.mp h
  obtain ⟨key, hkey, h⟩ := except_bind_ok.mp h
  obtain ⟨value, hvalue, h⟩ := except_bind_ok.mp h
  obtain ⟨headerCount, hheaderCount, h⟩ := except_bind_ok.mp h
  obtain ⟨headers, hheaders, h⟩ := except_bind_ok.mp h
  obtain ⟨len, hlen, h⟩ := except_bind_ok.mp h
  obtain rfl := Except.ok.inj h
  have hattributes : Reads (Cursor.take 1) [0] [0] := reads_take [0]
  have hdelta : Reads (Cursor.varlong 10) (putVarlong tsDelta) tsDelta :=
    reads_varlong (lt_trans (zigzag tsDelta).toNat_lt (by decide))
  have htimestamp := add_timestampDelta htsDelta
  have hcounted : Reads (Reader.counted (Cursor.length "negative header count") decodeHeader)
      (putVarint headerCount ++ headers.flatten) record.headers :=
    (reads_length hheaderCount).bind (reads_times_of_forall₂
      ((mapM_eq_ok.mp hheaders).imp fun _ _ => reads_decodeHeader))
  obtain ⟨body, hbody⟩ : ∃ b, [0] ++ putVarlong tsDelta ++ putVarint delta ++ key ++ value ++
    putVarint headerCount ++ headers.flatten = b := ⟨_, rfl⟩
  have hfields : (decodeFields delta baseTimestamp).exec body = (.ok record, []) := by
    have hnested : body = [0] ++ (putVarlong tsDelta ++ (putVarint delta ++ (key ++ (value ++
        ((putVarint headerCount ++ headers.flatten) ++ []))))) := by
      simp [← hbody]
    rw [hnested, decodeFields, hattributes.exec_bind, hdelta.exec_bind,
      (reads_varint delta).exec_bind, Program.exec_require_bind rfl]
    dsimp only
    rw [htimestamp,
      Program.exec_require_bind ⟨record.timestampMs.le_toInt, record.timestampMs.toInt_lt⟩,
      (reads_nullableBytes hkey).exec_bind, (reads_nullableBytes hvalue).exec_bind,
      hcounted.exec_bind, exec_done_bind, Program.exec_pure, Int64.ofInt_toInt]
  rw [hbody] at hlen ⊢
  refine (reads_length hlen).bind ?_
  intro rest
  rw [(reads_take body).exec_bind, hfields, Program.exec_liftM]

/-! ## Batches -/

variable {rest : Bytes} {start width : ℕ}

/-- A field further on stands where it stands behind the part in front of it. -/
theorem slice_skip {part : Bytes} (h : part.length ≤ start) :
    slice (part ++ rest) start width = slice rest (start - part.length) width := by
  rw [slice, slice, drop_append, drop_eq_nil_of_le h, nil_append]

theorem slice_here {part : Bytes} (h : part.length = width) :
    slice (part ++ rest) 0 width = part := by
  rw [slice, drop_zero, take_left' h]

@[simp] theorem length_putI16 (value : Int16) : (putI16 value).length = 2 := length_beBytes _ _

@[simp] theorem length_putI32 (value : Int32) : (putI32 value).length = 4 := length_beBytes _ _

@[simp] theorem length_putU32 (value : UInt32) : (putU32 value).length = 4 := length_beBytes _ _

@[simp] theorem length_putI64 (value : Int64) : (putI64 value).length = 8 := length_beBytes _ _

theorem beI16_eq {bytes : Bytes} {value : Int16} (h : slice bytes start 2 = putI16 value) :
    beI16 bytes start = value := by
  rw [beI16, h, putI16, ofBeBytes_beBytes value.toUInt16.toNat_lt]
  simp

theorem beI32_eq {bytes : Bytes} {value : Int32} (h : slice bytes start 4 = putI32 value) :
    beI32 bytes start = value := by
  rw [beI32, h, putI32, ofBeBytes_beBytes value.toUInt32.toNat_lt]
  simp

theorem beU32_eq {bytes : Bytes} {value : UInt32} (h : slice bytes start 4 = putU32 value) :
    beU32 bytes start = value := by
  rw [beU32, h, putU32, ofBeBytes_beBytes value.toNat_lt]
  simp

theorem beI64_eq {bytes : Bytes} {value : Int64} (h : slice bytes start 8 = putI64 value) :
    beI64 bytes start = value := by
  rw [beI64, h, putI64, ofBeBytes_beBytes value.toUInt64.toNat_lt]
  simp

section Sealed

variable {crc32c : Bytes → UInt32} {batchLength count : Int32} {base latest : Int64}
  {body more : Bytes}

/-- A written batch: the checksum stands in front of what it covers. -/
def sealed (crc32c : Bytes → UInt32) (batchLength : Int32) (rest : Bytes) : Bytes :=
  frame batchLength ++ (putU32 (crc32c rest) ++ rest)

theorem length_frame : (frame batchLength).length = crcOffset := by
  simp [frame, crcOffset]

theorem length_covered : (covered count base latest body).length = 40 + body.length := by
  simp [covered]
  omega

theorem length_sealed :
    (sealed crc32c batchLength rest).length = attributesOffset + rest.length := by
  simp [sealed, length_frame, crcOffset, attributesOffset]
  omega

theorem drop_sealed : (sealed crc32c batchLength rest).drop attributesOffset = rest := by
  rw [sealed, ← append_assoc]
  exact drop_left' (by simp [length_frame, crcOffset, attributesOffset])

theorem batchLength_sealed : beI32 (sealed crc32c batchLength rest ++ more) 8 = batchLength := by
  apply beI32_eq
  simp only [sealed, frame, append_assoc, slice_skip, slice_here, length_putI64, length_putI32,
    le_refl, Nat.sub_self]

theorem magic_sealed : (sealed crc32c batchLength rest).getD magicOffset 0 = magic := by
  have hlen : (putI64 0 ++ putI32 batchLength ++ putI32 noPartitionLeaderEpoch).length =
      magicOffset := by
    simp [magicOffset]
  rw [sealed, frame, append_assoc, getD_eq_getElem?_getD,
    getElem?_append_right hlen.le, hlen, Nat.sub_self]
  rfl

theorem crc_sealed : beU32 (sealed crc32c batchLength rest) crcOffset = crc32c rest := by
  apply beU32_eq
  simp only [sealed, slice_skip, slice_here, length_frame, length_putU32, le_refl, Nat.sub_self]

/-- What the checksum covers follows the frame and the checksum. -/
theorem slice_sealed (h : attributesOffset ≤ start) :
    slice (sealed crc32c batchLength rest) start width =
      slice rest (start - attributesOffset) width := by
  obtain ⟨k, rfl⟩ := Nat.exists_eq_add_of_le h
  rw [Nat.add_sub_cancel_left, slice, slice, ← drop_drop, drop_sealed]

/-- The fields that the checksum covers are read as they were written. -/
theorem fields_covered :
    let bytes := sealed crc32c batchLength (covered count base latest body)
    beI16 bytes attributesOffset = 0 ∧ beI32 bytes lastOffsetDeltaOffset = count - 1 ∧
      beI64 bytes baseTimestampOffset = base ∧ beI64 bytes maxTimestampOffset = latest ∧
      beI32 bytes recordCountOffset = count := by
  refine ⟨beI16_eq ?_, beI32_eq ?_, beI64_eq ?_, beI64_eq ?_, beI32_eq ?_⟩
  all_goals
    rw [slice_sealed (by decide), covered]
    simp [attributesOffset, lastOffsetDeltaOffset, baseTimestampOffset, maxTimestampOffset,
      recordCountOffset, slice_skip, slice_here]

theorem drop_headerLen :
    (sealed crc32c batchLength (covered count base latest body)).drop headerLen = body := by
  rw [show headerLen = attributesOffset + 40 from rfl, ← drop_drop, drop_sealed, covered]
  exact drop_left' (by simp)

/-- The checksum is written over the zero that held its place. -/
theorem fill_checksum {out : Bytes} (h : out = frame batchLength ++ putU32 0 ++ rest) :
    out.take crcOffset ++ putU32 (crc32c (out.drop attributesOffset)) ++
      out.drop attributesOffset = sealed crc32c batchLength rest := by
  have hlen : (frame batchLength ++ putU32 0).length = attributesOffset := by
    simp [length_frame, crcOffset, attributesOffset]
  have hframe : out.take crcOffset = frame batchLength := by
    rw [h, append_assoc, take_left' length_frame]
  rw [hframe, h, drop_left' hlen, append_assoc, sealed]

end Sealed

/-- What a written batch consists of: the encodings of its records, behind a header
that describes them. -/
structure Written (crc32c : Bytes → UInt32) (records : List Record) (first : Record)
    (parts : List Bytes) (bytes : Bytes) : Prop where
  head : records.head? = some first
  encoded : List.Forall₂
    (fun p part => encodeRecord p.1 (Int32.ofNat p.2) first.timestampMs = .ok part)
    records.zipIdx parts
  few : records.length < 2 ^ 31
  short : headerLen - logOverhead + parts.flatten.length < 2 ^ 31
  bytes_eq : bytes = sealed crc32c (Int32.ofNat (headerLen - logOverhead + parts.flatten.length))
    (covered (Int32.ofNat records.length) first.timestampMs
      (maxTimestamp records first.timestampMs) parts.flatten)

theorem exists_written_of_encode {crc32c : Bytes → UInt32} {records : List Record}
    {bytes : Bytes} (h : encode crc32c records = .ok bytes) :
    ∃ first parts, Written crc32c records first parts bytes := by
  cases records with
  | nil => cases h
  | cons first rest =>
    obtain ⟨count, hcount, h⟩ := except_bind_ok.mp h
    obtain ⟨parts, hparts, h⟩ := except_bind_ok.mp h
    obtain ⟨batchLength, hbatchLength, h⟩ := except_bind_ok.mp h
    obtain ⟨hfew, rfl⟩ := lenI32_eq_ok.mp hcount
    obtain ⟨hshort, rfl⟩ := lenI32_eq_ok.mp hbatchLength
    exact ⟨first, parts, rfl, mapM_eq_ok.mp hparts, hfew, hshort,
      (Except.ok.inj h).symm.trans (fill_checksum rfl)⟩

/-- The records with the offsets from `baseOffset` on. -/
def numbered (baseOffset : UInt64) (records : List Record) : List OffsetRecord :=
  records.zipIdx.map fun p => { offset := baseOffset + UInt64.ofNat p.2, record := p.1 }

theorem numbered_append (baseOffset : UInt64) (records others : List Record) :
    numbered baseOffset (records ++ others) =
      numbered baseOffset records ++
        numbered (baseOffset + UInt64.ofNat records.length) others := by
  have hshift : others.zipIdx (0 + records.length) =
      others.zipIdx.map fun p => (p.1, records.length + p.2) := by
    rw [Nat.zero_add, zipIdx_eq_map_add]
  simp only [numbered, zipIdx_append, map_append, hshift, map_map]
  congr 2
  funext p
  simp [UInt64.ofNat_add, UInt64.add_assoc]

/-- The reference that the header of a written batch gives. -/
def writtenRef (records : List Record) (first : Record) (bytes : Bytes) : BatchRef where
  bytes := bytes
  recordCount := UInt32.ofNat records.length
  maxTimestampMs := maxTimestamp records first.timestampMs

namespace Written

variable {crc32c : Bytes → UInt32} {records : List Record} {first : Record} {parts : List Bytes}
  {bytes : Bytes}

section

variable (w : Written crc32c records first parts bytes)
include w

theorem length_bytes : bytes.length = headerLen + parts.flatten.length := by
  rw [w.bytes_eq, length_sealed, length_covered, ← Nat.add_assoc]
  rfl

/-- The count of the records, and the delta of the last one. -/
theorem count_sub_one : 0 < (Int32.ofNat records.length).toInt ∧
      (Int32.ofNat records.length).toInt - 1 = (Int32.ofNat records.length - 1).toInt := by
  have hfew := w.few
  obtain ⟨n, hn⟩ : ∃ n, records.length = n + 1 := by
    refine Nat.exists_eq_add_one_of_ne_zero fun hzero => ?_
    have hhead := w.head
    rw [length_eq_zero_iff.mp hzero] at hhead
    cases hhead
  have hlast : Int32.ofNat (n + 1) - 1 = Int32.ofNat n := by
    rw [Int32.ofNat_add]
    exact Int32.add_sub_cancel _ _
  rw [hn, hlast, toInt_ofNat_of_lt (by omega), toInt_ofNat_of_lt (by omega)]
  omega

theorem toNat_recordCount : (writtenRef records first bytes).recordCount.toNat = records.length :=
  UInt32.toNat_ofNat_of_lt' (lt_trans w.few (by decide))

/-- A written batch passes every check, whatever follows it. -/
theorem parseBatch_eq (more : Bytes) :
    parseBatch crc32c (bytes ++ more) = .ok (writtenRef records first bytes) := by
  have hlength := w.length_bytes
  have hshort := toInt_ofNat_of_lt w.short
  have hcount := w.count_sub_one
  obtain ⟨batchLength, hbatchLength⟩ : ∃ n,
    Int32.ofNat (headerLen - logOverhead + parts.flatten.length) = n := ⟨_, rfl⟩
  have hbytes := w.bytes_eq
  rw [hbatchLength] at hshort hbytes
  have htotal : batchLength.toInt.toNat + logOverhead = bytes.length := by
    rw [hshort, hlength, headerLen, logOverhead]
    omega
  have hfield : beI32 (bytes ++ more) 8 = batchLength := by rw [hbytes, batchLength_sealed]
  unfold parseBatch
  refine except_bind_ok.mpr ⟨(), require_eq_ok.mpr (by simp [hlength]; omega), ?_⟩
  dsimp only
  rw [hfield, htotal, take_left' rfl]
  refine except_bind_ok.mpr ⟨(), require_eq_ok.mpr ⟨by omega, by omega, by simp⟩, ?_⟩
  rw [hbytes]
  refine except_bind_ok.mpr ⟨(), require_eq_ok.mpr magic_sealed, ?_⟩
  refine except_bind_ok.mpr ⟨(), require_eq_ok.mpr (by rw [drop_sealed, crc_sealed]), ?_⟩
  obtain ⟨hattributes, hlast, -, hmax, hrecords⟩ := fields_covered
  rw [hattributes, hrecords, hlast, hmax]
  refine except_bind_ok.mpr ⟨(), require_eq_ok.mpr (by decide), ?_⟩
  refine except_bind_ok.mpr ⟨(), require_eq_ok.mpr hcount, ?_⟩
  rfl

/-- The records of a written batch, at the offsets the reader chooses. -/
theorem decodeBatch_eq (baseOffset : UInt64) :
    decodeBatch (writtenRef records first bytes) baseOffset =
      .ok (numbered baseOffset records) := by
  have hcount := w.toNat_recordCount
  have hrecords : Reads (Reader.each (fun delta => do
        let record ← decodeRecord (Int32.ofNat delta) first.timestampMs
        pure { offset := baseOffset + UInt64.ofNat delta, record : OffsetRecord })
      (records.zipIdx.map Prod.snd)) parts.flatten (numbered baseOffset records) :=
    reads_each (w.encoded.imp fun _ _ henc => (reads_decodeRecord henc).answer)
  rw [zipIdx_map_snd, ← range_eq_range'] at hrecords
  refine except_bind_ok.mpr ⟨(), require_eq_ok.mpr (by rw [hcount]; exact w.few), ?_⟩
  rw [hcount, writtenRef, w.bytes_eq, fields_covered.2.2.1, drop_headerLen, decodeRecords,
    ← append_nil parts.flatten, hrecords.exec_bind, exec_done_bind, Program.exec_pure]

end

end Written

/-! ## Batches one after the other -/

/-- A batch at the front is split off, and the rest is split as it would be alone. -/
theorem batchesFrom_append {crc32c : Bytes → UInt32} {records : List Record} {first : Record}
    {parts : List Bytes} {bytes more : Bytes} (w : Written crc32c records first parts bytes)
    (rounds : ℕ) :
    batchesFrom crc32c (rounds + 1) (bytes ++ more) =
      .ok (writtenRef records first bytes) :: batchesFrom crc32c rounds more := by
  have hne : bytes ++ more ≠ [] := by
    intro hnil
    have hzero := congrArg List.length hnil
    rw [length_append, w.length_bytes, headerLen, length_nil] at hzero
    omega
  rw [batchesFrom, if_neg hne, w.parseBatch_eq more]
  dsimp only [writtenRef]
  rw [drop_left' rfl]

/-- Splitting, and decoding what was split, by induction on the batches. -/
theorem batchesFrom_flatten {crc32c : Bytes → UInt32} {lists : List (List Record)}
    {encoded : List Bytes}
    (h : List.Forall₂ (fun records bytes => encode crc32c records = .ok bytes) lists encoded)
    {rounds : ℕ} (hrounds : encoded.flatten.length ≤ rounds) :
    ∃ refs : List BatchRef, batchesFrom crc32c rounds encoded.flatten = refs.map .ok ∧
      refs.map (·.bytes) = encoded ∧ refs.map (·.recordCount.toNat) = lists.map (·.length) ∧
      ∀ baseOffset, decodeFrom (refs.map .ok) baseOffset =
        .ok (numbered baseOffset lists.flatten) := by
  induction h generalizing rounds with
  | nil =>
    refine ⟨[], ?_, rfl, rfl, fun _ => rfl⟩
    cases rounds <;> rfl
  | @cons records bytes lists encoded hhead htail ih =>
    obtain ⟨first, parts, w⟩ := exists_written_of_encode hhead
    rw [flatten_cons, length_append, w.length_bytes, headerLen] at hrounds
    obtain ⟨rounds, rfl⟩ : ∃ k, rounds = k + 1 := Nat.exists_eq_add_one_of_ne_zero (by omega)
    obtain ⟨refs, hsplit, hbytes, hcounts, hdecode⟩ := ih (show _ ≤ rounds by omega)
    refine ⟨writtenRef records first bytes :: refs, ?_, ?_, ?_, ?_⟩
    · rw [flatten_cons, batchesFrom_append w, hsplit, map_cons]
    · rw [map_cons, hbytes, writtenRef]
    · rw [map_cons, map_cons, hcounts, w.toNat_recordCount]
    · intro baseOffset
      rw [flatten_cons, numbered_append, map_cons]
      refine except_bind_ok.mpr ⟨_, rfl, except_bind_ok.mpr
        ⟨_, w.decodeBatch_eq baseOffset, except_bind_ok.mpr ⟨_, hdecode _, ?_⟩⟩⟩
      rw [w.toNat_recordCount]
      rfl

/-- Batches that were written one after the other are split where they were joined,
and decoding them gives every record back, at contiguous offsets from the base. -/
theorem decode_of_encode (crc32c : Bytes → UInt32) (baseOffset : UInt64)
    {lists : List (List Record)} {encoded : List Bytes}
    (h : lists.mapM (encode crc32c) = .ok encoded) :
    decode crc32c encoded.flatten baseOffset = .ok (numbered baseOffset lists.flatten) ∧
      ∃ refs : List BatchRef, batches crc32c encoded.flatten = refs.map .ok ∧
        refs.map (·.bytes) = encoded ∧
        refs.map (·.recordCount.toNat) = lists.map (·.length) := by
  obtain ⟨refs, hsplit, hbytes, hcounts, hdecode⟩ :=
    batchesFrom_flatten (mapM_eq_ok.mp h) le_rfl
  refine ⟨?_, refs, hsplit, hbytes, hcounts⟩
  rw [decode, batches, hsplit, hdecode]

namespace Sample

/-- A record with an empty key, no value, and a header whose value is absent. -/
def bare : Record where
  key := some []
  value := none
  headers := [("h", none)]
  timestampMs := 5

/-- A record older than the first of its batch. -/
def older : Record where
  key := none
  value := some [1, 2]
  headers := []
  timestampMs := -3

/-- What a checksum of all zeros makes of the two batches. -/
def encodedPair : List Bytes :=
  ([[bare, older], [older]].mapM (encode fun _ => 0)).toOption.getD []

end Sample

theorem decode_of_encode_sample :
    [[Sample.bare, Sample.older], [Sample.older]].mapM (encode fun _ => 0) =
        .ok Sample.encodedPair ∧
      decode (fun _ => 0) Sample.encodedPair.flatten 7 = .ok
        [{ offset := 7, record := Sample.bare }, { offset := 8, record := Sample.older },
          { offset := 9, record := Sample.older }] := by
  have hencode : [[Sample.bare, Sample.older], [Sample.older]].mapM (encode fun _ => 0) =
      .ok Sample.encodedPair := by decide +kernel
  exact ⟨hencode, (decode_of_encode (fun _ => 0) 7 hencode).1⟩

end Loams.Log
