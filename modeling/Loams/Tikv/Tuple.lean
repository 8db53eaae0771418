/-
# The tuple codec keeps the order of values
-/

import Mathlib.Data.Nat.Bitwise
import Loams.Data.Float64
import Loams.Tikv.Keys

namespace Loams.Tikv.Tuple

open List Loams.Data

/-! ## Values and their encoding -/

/-- One indexable value. -/
inductive Elem
  | null
  | i64 (v : Int64)
  | f64 (v : Float64)
  | bool (v : Bool)
  | str (v : String)
  | bytes (v : Bytes)
  | array (items : List Elem)

/-- Null comes first. -/
def tagNull : UInt8 := 0x05
/-- Integers. -/
def tagI64 : UInt8 := 0x10
/-- Floats. -/
def tagF64 : UInt8 := 0x20
/-- False. -/
def tagFalse : UInt8 := 0x30
/-- True. -/
def tagTrue : UInt8 := 0x31
/-- Strings. -/
def tagStr : UInt8 := 0x40
/-- Bytes. -/
def tagBytes : UInt8 := 0x50
/-- Arrays come last. -/
def tagArray : UInt8 := 0x60

/-- What every double that is no number is encoded as. -/
def canonicalNan : UInt64 := 0x7ff8000000000000

/-- The bits of a double in an order that is that of the numbers. -/
def floatBits (v : Float64) : UInt64 :=
  let bits := if v.isNan then canonicalNan else if v.magnitude = 0 then 0 else v.bits
  if bits &&& signBit = 0 then bits ||| signBit else ~~~bits

/-- Zero bytes are escaped, and two zero bytes end the string. -/
def escape : Bytes → Bytes
  | [] => [0x00, 0x00]
  | b :: rest => if b = 0x00 then b :: 0xFF :: escape rest else b :: escape rest

mutual

/-- The bytes that the encoding of a value appends. -/
def encode : Elem → Bytes
  | .null => [tagNull]
  | .i64 v => tagI64 :: beBytes 8 (v.toUInt64 ^^^ signBit).toNat
  | .f64 v => tagF64 :: beBytes 8 (floatBits v).toNat
  | .bool false => [tagFalse]
  | .bool true => [tagTrue]
  | .str v => tagStr :: escape (utf8 v)
  | .bytes v => tagBytes :: escape v
  | .array items => tagArray :: (encodeAll items ++ [0x00, 0x00])

/-- Values one after the other. -/
def encodeAll : List Elem → Bytes
  | [] => []
  | item :: rest => encode item ++ encodeAll rest

end

/-! ## The order of values -/

/-- The kinds of values in order. -/
def Elem.rank : Elem → ℕ
  | .null => 0
  | .i64 _ => 1
  | .f64 _ => 2
  | .bool _ => 3
  | .str _ => 4
  | .bytes _ => 5
  | .array _ => 6

mutual

/-- Values by kind, and within a kind by their natural order. -/
def Elem.cmp : Elem → Elem → Ordering
  | .i64 a, .i64 b => compare a.toInt b.toInt
  | .f64 a, .f64 b => a.cmp b
  | .bool a, .bool b => compare a b
  | .str a, .str b => compare (utf8 a) (utf8 b)
  | .bytes a, .bytes b => compare a b
  | .array a, .array b => cmpAll a b
  | a, b => compare a.rank b.rank

/-- Lists value by value, a proper prefix first. -/
def cmpAll : List Elem → List Elem → Ordering
  | [], [] => .eq
  | [], _ :: _ => .lt
  | _ :: _, [] => .gt
  | a :: as, b :: bs => (a.cmp b).then (cmpAll as bs)

end

mutual

/-- Equality as the encoding sees it. -/
def Elem.eq : Elem → Elem → Bool
  | .null, .null => true
  | .i64 a, .i64 b => a == b
  | .f64 a, .f64 b => floatBits a == floatBits b
  | .bool a, .bool b => a == b
  | .str a, .str b => a == b
  | .bytes a, .bytes b => a == b
  | .array a, .array b => eqAll a b
  | _, _ => false

/-- Element by element. -/
def eqAll : List Elem → List Elem → Bool
  | [], [] => true
  | a :: as, b :: bs => a.eq b && eqAll as bs
  | _, _ => false

end

/-! ## Fixed-width numbers -/

theorem xor_two_pow_of_lt {n i : ℕ} (h : n < 2 ^ i) : n ^^^ 2 ^ i = n + 2 ^ i := by
  rw [← Nat.or_two_pow_eq_add_of_lt h]
  refine Nat.eq_of_testBit_eq fun j => ?_
  rw [Nat.testBit_xor, Nat.testBit_or, Nat.testBit_two_pow]
  by_cases hj : i = j
  · subst hj
    simp [Nat.testBit_lt_two_pow h]
  · simp [hj]

theorem signBit_toNat : signBit.toNat = 2 ^ 63 := rfl

theorem xor_two_pow_of_le {n i : ℕ} (h : 2 ^ i ≤ n) (hlt : n < 2 ^ (i + 1)) :
    n ^^^ 2 ^ i = n - 2 ^ i := by
  have hlow : n - 2 ^ i < 2 ^ i := by
    rw [pow_succ] at hlt
    omega
  have hsum := xor_two_pow_of_lt hlow
  rw [Nat.sub_add_cancel h] at hsum
  conv_lhs => rw [← hsum]
  rw [Nat.xor_assoc, Nat.xor_self, Nat.xor_zero]

/-- Flipping the sign moves the signed range up to the unsigned one. -/
theorem toNat_flipSign (v : Int64) : ((v.toUInt64 ^^^ signBit).toNat : ℤ) = v.toInt + 2 ^ 63 := by
  have hint : v.toInt = v.toBitVec.toInt := rfl
  have hnat : v.toUInt64.toNat = v.toBitVec.toNat := rfl
  have hbound := v.toBitVec.isLt
  rw [UInt64.toNat_xor, signBit_toNat, hnat, hint, BitVec.toInt_eq_toNat_cond]
  by_cases hsign : v.toBitVec.toNat < 2 ^ 63
  · rw [xor_two_pow_of_lt hsign, if_pos (by omega)]
    push_cast
    rfl
  · rw [xor_two_pow_of_le (by omega) hbound, if_neg (by omega)]
    omega

theorem and_signBit_eq_zero {bits : UInt64} : bits &&& signBit = 0 ↔ bits.toNat < 2 ^ 63 := by
  have hbound := bits.toNat_lt
  rw [← UInt64.toNat_inj, UInt64.toNat_and, signBit_toNat, Nat.and_two_pow,
    Nat.testBit_eq_decide_div_mod_eq]
  simp
  omega

variable {v : Float64}

/-- Numbers keep their order: those below zero come before the sign bit. -/
theorem toNat_floatBits (h : v.isNan = false) :
    ((floatBits v).toNat : ℤ) =
      if v.signed < 0 then 2 ^ 63 - 1 + v.signed else 2 ^ 63 + v.signed := by
  have hbound := v.bits.toNat_lt
  rw [floatBits, h, Float64.signed, Float64.isNeg]
  by_cases hzero : v.magnitude = 0
  · simp [hzero]
    decide
  · simp only [hzero, Bool.false_eq_true, if_false, and_signBit_eq_zero, decide_eq_true_eq]
    rw [Float64.magnitude] at hzero ⊢
    by_cases hsign : v.bits.toNat < 2 ^ 63
    · rw [if_pos hsign, if_neg (by omega), if_neg (by omega), UInt64.toNat_or, signBit_toNat,
        Nat.or_two_pow_eq_add_of_lt hsign]
      omega
    · have hsize : UInt64.size = 2 ^ 64 := rfl
      rw [if_neg hsign, if_pos (by omega), if_pos (by omega), UInt64.toNat_not]
      omega

theorem toNat_floatBits_nan (h : v.isNan = true) :
    (floatBits v).toNat = 2 ^ 63 + 0x7ff8000000000000 := by
  simp only [floatBits, h, if_true]
  decide

theorem signed_le (h : v.isNan = false) : v.signed ≤ 2047 * 2 ^ 52 := by
  rw [Float64.isNan, decide_eq_false_iff_not, Float64.infinity] at h
  rw [Float64.signed]
  split_ifs <;> omega

/-- The bits of doubles compare as the doubles do. -/
theorem compare_floatBits (a b : Float64) :
    compare (floatBits a).toNat (floatBits b).toNat = a.cmp b := by
  rw [Float64.cmp]
  cases ha : a.isNan <;> cases hb : b.isNan
  · rw [Float64.compare_value ha hb]
    have hbitsA := toNat_floatBits ha
    have hbitsB := toNat_floatBits hb
    rcases lt_trichotomy a.signed b.signed with h | h | h
    · rw [compare_lt_iff_lt.mpr h, Nat.compare_eq_lt]
      split_ifs at hbitsA hbitsB <;> omega
    · rw [compare_eq_iff_eq.mpr h, Nat.compare_eq_eq]
      rw [h] at hbitsA
      omega
    · rw [compare_gt_iff_gt.mpr h, Nat.compare_eq_gt]
      split_ifs at hbitsA hbitsB <;> omega
  · have hbitsA := toNat_floatBits ha
    have hbitsB := toNat_floatBits_nan hb
    have hle := signed_le ha
    rw [Nat.compare_eq_lt]
    split_ifs at hbitsA <;> omega
  · have hbitsA := toNat_floatBits_nan ha
    have hbitsB := toNat_floatBits hb
    have hle := signed_le hb
    rw [Nat.compare_eq_gt]
    split_ifs at hbitsB <;> omega
  · rw [Nat.compare_eq_eq, toNat_floatBits_nan ha, toNat_floatBits_nan hb]

/-! ## Bytes in sequence -/

theorem compare_append_of_length {a b : Bytes} (h : a.length = b.length) (r t : Bytes) :
    compare (a ++ r) (b ++ t) = (compare a b).then (compare r t) := by
  induction a generalizing b with
  | nil =>
    obtain rfl : b = [] := eq_nil_of_length_eq_zero h.symm
    rfl
  | cons x a ih =>
    cases b with
    | nil => simp at h
    | cons y b =>
      rw [List.cons_append, List.cons_append, List.compare_cons_cons, List.compare_cons_cons,
        ih (Nat.succ.inj h), Ordering.then_assoc]

/-- Eight bytes decide a comparison before what follows them. -/
theorem compare_word (m n : UInt64) (r t : Bytes) :
    compare (beBytes 8 m.toNat ++ r) (beBytes 8 n.toNat ++ t) =
      (compare m.toNat n.toNat).then (compare r t) := by
  rw [compare_append_of_length (by simp), compare_beBytes m.toNat_lt n.toNat_lt]

theorem zero_compare {c : UInt8} (h : c ≠ 0) : compare 0 c = .lt := by
  have hlt : 0 < c := by
    rw [UInt8.lt_iff_toNat_lt]
    exact Nat.pos_of_ne_zero fun hc => h (UInt8.toNat_inj.mp hc)
  simp [compare, compareOfLessAndEq, hlt]

/-- The end of a string is below every byte, escaped or not, that a longer string goes
on with. -/
theorem compare_end_escape (c : UInt8) (rest r t : Bytes) :
    compare (0x00 :: 0x00 :: r) (escape (c :: rest) ++ t) = .lt := by
  rw [escape]
  split_ifs with hc
  · subst hc
    simp [List.compare_cons_cons, zero_compare]
  · simp [List.compare_cons_cons, zero_compare hc]

/-- An escaped string decides a comparison before what follows it. -/
theorem compare_escape (a b r t : Bytes) :
    compare (escape a ++ r) (escape b ++ t) = (compare a b).then (compare r t) := by
  induction a generalizing b with
  | nil =>
    cases b with
    | nil => exact compare_append_left [0x00, 0x00] r t
    | cons c rest => exact compare_end_escape c rest r t
  | cons x a ih =>
    cases b with
    | nil => exact Std.OrientedCmp.gt_of_lt (compare_end_escape x a t r)
    | cons y b =>
      rw [List.compare_cons_cons, Ordering.then_assoc, ← ih]
      by_cases hx : x = 0 <;> by_cases hy : y = 0
      · simp [escape, hx, hy, List.compare_cons_cons]
      · simp [escape, hx, hy, List.compare_cons_cons, zero_compare hy]
      · have hgt : compare x 0 = .gt := Std.OrientedCmp.gt_of_lt (zero_compare hx)
        simp [escape, hx, hy, List.compare_cons_cons, hgt]
      · simp [escape, hx, hy, List.compare_cons_cons]

/-! ## Values in sequence -/

/-- The first byte of an encoding. -/
def Elem.tag : Elem → UInt8
  | .null => tagNull
  | .i64 _ => tagI64
  | .f64 _ => tagF64
  | .bool false => tagFalse
  | .bool true => tagTrue
  | .str _ => tagStr
  | .bytes _ => tagBytes
  | .array _ => tagArray

theorem exists_encode_eq_cons (a : Elem) : ∃ body, encode a = a.tag :: body := by
  cases a with
  | bool v => cases v <;> exact ⟨_, rfl⟩
  | _ => exact ⟨_, rfl⟩

theorem compare_tag {a b : Elem} (h : a.rank ≠ b.rank) :
    compare a.tag b.tag = compare a.rank b.rank := by
  cases a with
  | bool v => cases v <;> cases b <;> first | exact absurd rfl h | rfl
  | _ => cases b with
    | bool v => cases v <;> first | exact absurd rfl h | rfl
    | _ => first | exact absurd rfl h | rfl

theorem cmp_of_rank_ne {a b : Elem} (h : a.rank ≠ b.rank) : a.cmp b = compare a.rank b.rank := by
  cases a <;> cases b <;> first | exact absurd rfl h | rw [Elem.cmp] <;> nofun

/-- Values of different kinds are told apart by their tags. -/
theorem compare_encode_of_rank_ne {a b : Elem} (h : a.rank ≠ b.rank) (r t : Bytes) :
    compare (encode a ++ r) (encode b ++ t) = (a.cmp b).then (compare r t) := by
  obtain ⟨bodyA, ha⟩ := exists_encode_eq_cons a
  obtain ⟨bodyB, hb⟩ := exists_encode_eq_cons b
  rw [ha, hb, List.cons_append, List.cons_append, List.compare_cons_cons, compare_tag h,
    cmp_of_rank_ne h]
  cases hrank : compare a.rank b.rank with
  | eq => exact absurd (Nat.compare_eq_eq.mp hrank) h
  | _ => rfl

theorem tag_pos (a : Elem) : compare 0x00 a.tag = .lt := by
  cases a with
  | bool v => cases v <;> rfl
  | _ => rfl

/-- An end is below every value. -/
theorem compare_end_encode (a : Elem) (r t : Bytes) :
    compare (0x00 :: r) (encode a ++ t) = .lt := by
  obtain ⟨body, ha⟩ := exists_encode_eq_cons a
  rw [ha, List.cons_append, List.compare_cons_cons, tag_pos]
  rfl

theorem compare_flipSign (a b : Int64) : compare (a.toUInt64 ^^^ signBit).toNat
    (b.toUInt64 ^^^ signBit).toNat = compare a.toInt b.toInt := by
  have ha := toNat_flipSign a
  have hb := toNat_flipSign b
  rcases lt_trichotomy a.toInt b.toInt with h | h | h
  · rw [compare_lt_iff_lt.mpr h, Nat.compare_eq_lt]
    omega
  · rw [compare_eq_iff_eq.mpr h, Nat.compare_eq_eq]
    omega
  · rw [compare_gt_iff_gt.mpr h, Nat.compare_eq_gt]
    omega

mutual

/-- The encoding of a value decides a comparison before what follows it. -/
theorem compare_encode (a b : Elem) (r t : Bytes) :
    compare (encode a ++ r) (encode b ++ t) = (a.cmp b).then (compare r t) := by
  by_cases hrank : a.rank = b.rank
  swap
  · exact compare_encode_of_rank_ne hrank r t
  match a, b, hrank with
  | .null, .null, _ =>
    exact compare_append_left [tagNull] r t
  | .i64 a, .i64 b, _ =>
    rw [Elem.cmp, ← compare_flipSign, ← compare_word]
    exact compare_append_left [tagI64] _ _
  | .f64 a, .f64 b, _ =>
    rw [Elem.cmp, ← compare_floatBits, ← compare_word]
    exact compare_append_left [tagF64] _ _
  | .bool a, .bool b, _ =>
    cases a <;> cases b
    · exact compare_append_left [tagFalse] r t
    · rfl
    · rfl
    · exact compare_append_left [tagTrue] r t
  | .str a, .str b, _ =>
    rw [Elem.cmp, ← compare_escape]
    exact compare_append_left [tagStr] _ _
  | .bytes a, .bytes b, _ =>
    rw [Elem.cmp, ← compare_escape]
    exact compare_append_left [tagBytes] _ _
  | .array a, .array b, _ =>
    rw [Elem.cmp, ← compare_encodeAll a b, encode, encode]
    simp only [cons_append, append_assoc, nil_append]
    exact compare_append_left [tagArray] _ _

/-- The same for the items of an array up to its end. -/
theorem compare_encodeAll (as bs : List Elem) (r t : Bytes) :
    compare (encodeAll as ++ (0x00 :: 0x00 :: r)) (encodeAll bs ++ (0x00 :: 0x00 :: t)) =
      (cmpAll as bs).then (compare r t) := by
  match as, bs with
  | [], [] => exact compare_append_left [0x00, 0x00] r t
  | [], b :: bs =>
    rw [encodeAll, encodeAll, append_assoc]
    exact compare_end_encode b _ _
  | a :: as, [] =>
    rw [encodeAll, encodeAll, append_assoc]
    exact Std.OrientedCmp.gt_of_lt (compare_end_encode a _ _)
  | a :: as, b :: bs =>
    rw [encodeAll, encodeAll, append_assoc, append_assoc, compare_encode a b,
      compare_encodeAll as bs, cmpAll, Ordering.then_assoc]

end

/-! ## What the order says -/

/-- Concatenated encodings compare as the lists of values. -/
theorem compare_encodeAll_nil (as bs : List Elem) :
    compare (encodeAll as) (encodeAll bs) = cmpAll as bs := by
  induction as generalizing bs with
  | nil =>
    cases bs with
    | nil => rfl
    | cons b bs =>
      obtain ⟨body, hb⟩ := exists_encode_eq_cons b
      rw [encodeAll, encodeAll, hb]
      rfl
  | cons a as ih =>
    cases bs with
    | nil =>
      obtain ⟨body, ha⟩ := exists_encode_eq_cons a
      rw [encodeAll, encodeAll, ha]
      rfl
    | cons b bs => rw [encodeAll, encodeAll, compare_encode, ih, cmpAll]

/-- Lists of one length decide a comparison before what follows them. -/
theorem compare_encodeAll_append {as bs : List Elem} (h : as.length = bs.length) (r t : Bytes) :
    compare (encodeAll as ++ r) (encodeAll bs ++ t) = (cmpAll as bs).then (compare r t) := by
  induction as generalizing bs with
  | nil =>
    obtain rfl : bs = [] := length_eq_zero_iff.mp h.symm
    rfl
  | cons a as ih =>
    obtain ⟨b, bs, rfl⟩ := exists_cons_of_length_eq_add_one h.symm
    rw [encodeAll, encodeAll, append_assoc, append_assoc, compare_encode,
      ih (by simpa using h), cmpAll, Ordering.then_assoc]

theorem eq_of_rank_ne {a b : Elem} (h : a.rank ≠ b.rank) : a.eq b = false := by
  cases a <;> cases b <;> first | exact absurd rfl h | rw [Elem.eq] <;> nofun

mutual

/-- The order and the equality of values agree. -/
theorem cmp_eq_eq (a b : Elem) : a.cmp b = .eq ↔ a.eq b = true := by
  by_cases hrank : a.rank = b.rank
  swap
  · rw [cmp_of_rank_ne hrank, eq_of_rank_ne hrank, Nat.compare_eq_eq]
    simp [hrank]
  match a, b, hrank with
  | .null, .null, _ =>
    simp [Elem.cmp, Elem.eq]
  | .i64 a, .i64 b, _ =>
    rw [Elem.cmp, Elem.eq, compare_eq_iff_eq, Int64.toInt_inj, beq_iff_eq]
  | .f64 a, .f64 b, _ =>
    rw [Elem.cmp, Elem.eq, ← compare_floatBits, Nat.compare_eq_eq, UInt64.toNat_inj, beq_iff_eq]
  | .bool a, .bool b, _ =>
    cases a <;> cases b <;> simp [Elem.cmp, Elem.eq]
  | .str a, .str b, _ =>
    rw [Elem.cmp, Elem.eq, Std.LawfulEqCmp.compare_eq_iff_eq, utf8_inj, beq_iff_eq]
  | .bytes a, .bytes b, _ =>
    rw [Elem.cmp, Elem.eq, Std.LawfulEqCmp.compare_eq_iff_eq, beq_iff_eq]
  | .array a, .array b, _ =>
    rw [Elem.cmp, Elem.eq, cmpAll_eq_eq a b]

theorem cmpAll_eq_eq (as bs : List Elem) : cmpAll as bs = .eq ↔ eqAll as bs = true := by
  match as, bs with
  | [], [] => simp [cmpAll, eqAll]
  | [], b :: bs => simp [cmpAll, eqAll]
  | a :: as, [] => simp [cmpAll, eqAll]
  | a :: as, b :: bs =>
    rw [cmpAll, eqAll, Ordering.then_eq_eq, Bool.and_eq_true, cmp_eq_eq a b, cmpAll_eq_eq as bs]

end

/-- No encoding goes on where another one ends. -/
theorem encode_eq_of_prefix {a b : Elem} (h : encode a <+: encode b) : encode a = encode b := by
  obtain ⟨rest, hrest⟩ := h
  have hcompare : compare (encode a ++ rest) (encode b ++ []) = .eq := by
    rw [Std.LawfulEqCmp.compare_eq_iff_eq, hrest, append_nil]
  rw [compare_encode, Ordering.then_eq_eq] at hcompare
  have hnil : rest = [] := Std.LawfulEqCmp.compare_eq_iff_eq.mp hcompare.2
  rw [← hrest, hnil, append_nil]

/-- **The tuple codec preserves order** at every depth: the concatenated encodings of
two lists compare as the lists do, they are equal for equal values only, and no
value's encoding is a proper prefix of another's. -/
theorem tuple_encoding_preserves_order :
    (∀ as bs : List Elem, compare (encodeAll as) (encodeAll bs) = cmpAll as bs ∧
      (encodeAll as = encodeAll bs ↔ eqAll as bs = true)) ∧
    ∀ a b : Elem, (encode a = encode b ↔ a.eq b = true) ∧
      (encode a <+: encode b → encode a = encode b) := by
  have hlists : ∀ as bs : List Elem, encodeAll as = encodeAll bs ↔ eqAll as bs = true := by
    intro as bs
    rw [← cmpAll_eq_eq, ← compare_encodeAll_nil, Std.LawfulEqCmp.compare_eq_iff_eq]
  refine ⟨fun as bs => ⟨compare_encodeAll_nil as bs, hlists as bs⟩, fun a b => ⟨?_, ?_⟩⟩
  · -- a value is the list of it alone
    have hone := hlists [a] [b]
    simpa [encodeAll, eqAll] using hone
  · exact encode_eq_of_prefix

end Loams.Tikv.Tuple
