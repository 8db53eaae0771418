/-
# Signed numbers in groups of seven bits
-/

import Loams.Data.Reader

namespace Loams.Data

open Loams.Control BitVec

/-! ## The zig-zag order of the integers -/

/-- Maps `0, -1, 1, -2, …` to `0, 1, 2, 3, …`. -/
def zigzag (value : Int64) : UInt64 := ((value <<< 1) ^^^ (value >>> 63)).toUInt64

/-- The last bit is the sign. -/
def unzigzag (value : UInt64) : Int64 := (value >>> 1).toInt64 ^^^ -(value &&& 1).toInt64

/-- An arithmetic shift by all bits but one copies the sign to every bit. -/
theorem sshiftRight_eq_sign (b : BitVec 64) :
    b.sshiftRight 63 = if 2 ^ 63 ≤ b.toNat then BitVec.allOnes 64 else 0 := by
  apply eq_of_toInt_eq
  rw [toInt_sshiftRight, Int.shiftRight_eq_div_pow, toInt_eq_toNat_cond]
  have hlt := b.isLt
  split_ifs <;> simp <;> omega

/-- The lowest bit, copied to every bit. -/
theorem neg_and_one (b : BitVec 64) :
    -(b &&& 1) = if b.toNat % 2 = 1 then BitVec.allOnes 64 else 0 := by
  have hbit : b &&& 1 = BitVec.ofNat 64 (b.toNat % 2) := by
    apply eq_of_toNat_eq
    rw [toNat_and, BitVec.toNat_ofNat]
    simp
    omega
  rw [hbit]
  rcases Nat.mod_two_eq_zero_or_one b.toNat with h | h <;> simp [h]

theorem toNat_zigzag (value : Int64) :
    (zigzag value).toNat =
      if 2 ^ 63 ≤ value.toBitVec.toNat then 2 * (2 ^ 64 - value.toBitVec.toNat) - 1
      else 2 * value.toBitVec.toNat := by
  have hlt := value.toBitVec.isLt
  have hbits : (zigzag value).toBitVec =
      value.toBitVec <<< 1 ^^^ value.toBitVec.sshiftRight 63 := by
    simp [zigzag]
  rw [← UInt64.toNat_toBitVec, hbits, sshiftRight_eq_sign]
  split_ifs with hneg
  · rw [xor_allOnes, toNat_not, BitVec.toNat_shiftLeft]
    omega
  · simp
    omega

theorem toNat_unzigzag (value : UInt64) :
    (unzigzag value).toBitVec.toNat =
      if value.toNat % 2 = 1 then 2 ^ 64 - 1 - value.toNat / 2 else value.toNat / 2 := by
  have hlt := value.toNat_lt
  have hbits : (unzigzag value).toBitVec = value.toBitVec >>> 1 ^^^ -(value.toBitVec &&& 1) := by
    simp [unzigzag]
  have hhalf : (value.toBitVec >>> 1).toNat = value.toNat / 2 := by
    rw [BitVec.toNat_ushiftRight, UInt64.toNat_toBitVec, Nat.shiftRight_eq_div_pow, pow_one]
  have hsign : -(value.toBitVec &&& 1) =
      if value.toNat % 2 = 1 then BitVec.allOnes 64 else 0 := neg_and_one value.toBitVec
  rw [hbits, hsign]
  split_ifs with hodd
  · rw [xor_allOnes, toNat_not, hhalf]
  · rw [BitVec.ofNat_eq_ofNat, BitVec.xor_zero, hhalf]

@[simp] theorem unzigzag_zigzag (value : Int64) : unzigzag (zigzag value) = value := by
  have hlt := value.toBitVec.isLt
  apply Int64.toBitVec_inj.mp
  apply eq_of_toNat_eq
  rw [toNat_unzigzag, toNat_zigzag]
  split_ifs <;> omega

/-- A number that fits a smaller signed width is folded into the same width. -/
theorem zigzag_lt {bits : ℕ} {value : Int64} (hlo : -2 ^ bits ≤ value.toInt)
    (hhi : value.toInt < 2 ^ bits) : (zigzag value).toNat < 2 ^ (bits + 1) := by
  have hlt := value.toBitVec.isLt
  have hpow : (2 : ℤ) ^ (bits + 1) = 2 * 2 ^ bits := pow_succ' 2 bits
  rw [← Int64.toInt_toBitVec, toInt_eq_toNat_cond] at hlo hhi
  zify
  rw [toNat_zigzag, hpow]
  split_ifs at hlo hhi ⊢ <;> push_cast at hlo hhi ⊢ <;> omega

/-! ## Groups of seven bits -/

/-- Adds a group above the bits collected so far. -/
theorem toNat_or_shiftLeft {acc group : UInt64} {k : ℕ} (hk : k < 64) (hacc : acc.toNat < 2 ^ k)
    (hgroup : group.toNat * 2 ^ k < 2 ^ 64) :
    (acc ||| group <<< UInt64.ofNat k).toNat = acc.toNat + group.toNat * 2 ^ k := by
  have hshift : (group <<< UInt64.ofNat k).toNat = group.toNat <<< k := by
    rw [UInt64.toNat_shiftLeft, UInt64.toNat_ofNat_of_lt' (lt_trans hk (by decide)),
      Nat.mod_eq_of_lt hk,
      Nat.shiftLeft_eq, Nat.mod_eq_of_lt hgroup]
  rw [UInt64.toNat_or, hshift, Nat.or_comm, ← Nat.shiftLeft_add_eq_or_of_lt hacc,
    Nat.shiftLeft_eq, Nat.add_comm]

namespace Reader

variable {ε : Type} {value : UInt64}

/-- Collects groups of seven bits from the `i`th on, at most `left` of them. -/
def groupsFrom (short long : ε) : ℕ → ℕ → UInt64 → Reader ε UInt64
  | 0, _, _ => Program.fail long
  | left + 1, i, value => do
    let bytes ← take 1 fun _ => short
    let byte := bytes.headD 0
    let value := value ||| (byte &&& 0x7f).toUInt64 <<< UInt64.ofNat (7 * i)
    if byte &&& 0x80 = 0 then pure value else groupsFrom short long left (i + 1) value

theorem and_low_bits (n : ℕ) : (UInt8.ofNat n &&& 0x7f).toUInt64.toNat = n % 128 := by
  rw [UInt8.toNat_toUInt64, UInt8.toNat_and, UInt8.toNat_ofNat']
  have hmask : (0x7f : UInt8).toNat = 2 ^ 7 - 1 := rfl
  rw [hmask, Nat.and_two_pow_sub_one_eq_mod]
  omega

theorem high_bit_eq_zero {n : ℕ} (h : n < 256) : UInt8.ofNat n &&& 0x80 = 0 ↔ n < 128 := by
  have hall : ∀ b : Fin 256, UInt8.ofNat b &&& 0x80 = 0 ↔ (b : ℕ) < 128 := by decide +kernel
  exact hall ⟨n, h⟩

/-- One byte: its low bits go above those collected so far, and its high bit says
whether more follow. -/
theorem exec_groupsFrom {short long : ε} {left i n : ℕ} {rest : Bytes}
    (hi : 7 * i < 64) (hvalue : value.toNat < 2 ^ (7 * i))
    (hroom : n % 128 * 2 ^ (7 * i) < 2 ^ 64) (hn : n < 256) :
    (groupsFrom short long (left + 1) i value).exec (UInt8.ofNat n :: rest) =
      if n < 128 then (.ok (UInt64.ofNat (value.toNat + n % 128 * 2 ^ (7 * i))), rest)
      else (groupsFrom short long left (i + 1)
        (UInt64.ofNat (value.toNat + n % 128 * 2 ^ (7 * i)))).exec rest := by
  have hread : Reads (take 1 fun _ => short) [UInt8.ofNat n] [UInt8.ofNat n] := reads_take rfl
  have hcollect : value ||| (UInt8.ofNat n &&& 0x7f).toUInt64 <<< UInt64.ofNat (7 * i) =
      UInt64.ofNat (value.toNat + n % 128 * 2 ^ (7 * i)) := by
    have hbits : (UInt8.ofNat n &&& 0x7f).toUInt64.toNat = n % 128 := and_low_bits n
    have hsum := toNat_or_shiftLeft hi hvalue (hbits ▸ hroom)
    rw [hbits] at hsum
    rw [← hsum, UInt64.ofNat_toNat]
  rw [groupsFrom, ← List.singleton_append, hread.exec_bind]
  dsimp only [List.headD_cons]
  rw [hcollect, Program.exec_ite]
  simp only [high_bit_eq_zero hn, Program.exec_pure]

/-- A last byte: the number is its own low group. -/
theorem reads_last_group {short long : ε} {left i n : ℕ} (hi : 7 * i < 64)
    (hvalue : value.toNat < 2 ^ (7 * i)) (hroom : value.toNat + n * 2 ^ (7 * i) < 2 ^ 64)
    (hn : n < 128) : Reads (groupsFrom short long (left + 1) i value) [UInt8.ofNat n]
      (UInt64.ofNat (value.toNat + n * 2 ^ (7 * i))) := by
  intro rest
  have hmod : n % 128 = n := Nat.mod_eq_of_lt hn
  rw [List.singleton_append, exec_groupsFrom hi hvalue (by rw [hmod]; omega) (by omega),
    if_pos hn, hmod]

/-- The groups of a number are read back on top of the bits collected so far, when the
number fits the bytes that are left and the word has room for it. -/
theorem reads_groupsFrom {short long : ε} {left i fuel n : ℕ}
    (hi : 7 * i < 64) (hvalue : value.toNat < 2 ^ (7 * i))
    (hroom : value.toNat + n * 2 ^ (7 * i) < 2 ^ 64)
    (hleft : n < 128 ^ (left + 1)) (hfuel : n < 128 ^ (fuel + 1)) :
    Reads (groupsFrom short long (left + 1) i value) (Codec.varint fuel n)
      (UInt64.ofNat (value.toNat + n * 2 ^ (7 * i))) := by
  induction fuel generalizing left i n value with
  | zero => exact reads_last_group hi hvalue hroom hfuel
  | succ fuel ih =>
    unfold Codec.varint
    split_ifs with hsmall
    · exact reads_last_group hi hvalue hroom hsmall
    · intro rest
      have hpow : 2 ^ (7 * (i + 1)) = 128 * 2 ^ (7 * i) := by
        rw [Nat.mul_succ, pow_add, mul_comm]
        norm_num
      -- The low group, and what the bytes behind it stand for.
      have hlow : (n % 128 + 128) % 128 = n % 128 := by omega
      have hsum : n * 2 ^ (7 * i) = n % 128 * 2 ^ (7 * i) + n / 128 * 2 ^ (7 * (i + 1)) := by
        rw [hpow]
        nth_rewrite 1 [← Nat.mod_add_div n 128]
        ring
      have hgroup : n % 128 * 2 ^ (7 * i) ≤ 127 * 2 ^ (7 * i) :=
        Nat.mul_le_mul_right _ (by omega)
      obtain ⟨left, rfl⟩ : ∃ k, left = k + 1 := by
        refine Nat.exists_eq_add_one_of_ne_zero ?_
        rintro rfl
        simp at hleft
        omega
      have hnext : 7 * (i + 1) < 64 := by
        refine (Nat.pow_lt_pow_iff_right (by decide : 1 < 2)).mp ?_
        have hone : 1 * 2 ^ (7 * (i + 1)) ≤ n / 128 * 2 ^ (7 * (i + 1)) :=
          Nat.mul_le_mul_right _ (by omega)
        omega
      obtain ⟨word, hword⟩ : ∃ w, UInt64.ofNat (value.toNat + n % 128 * 2 ^ (7 * i)) = w := ⟨_, rfl⟩
      have hcollected : word.toNat = value.toNat + n % 128 * 2 ^ (7 * i) := by
        rw [← hword]
        exact UInt64.toNat_ofNat_of_lt' (lt_of_le_of_lt (by omega) hroom)
      have htail : Reads (groupsFrom short long (left + 1) (i + 1) word)
          (Codec.varint fuel (n / 128))
          (UInt64.ofNat (word.toNat + n / 128 * 2 ^ (7 * (i + 1)))) :=
        ih hnext (by omega) (by omega) (Nat.div_lt_of_lt_mul (by rwa [pow_succ'] at hleft))
          (Nat.div_lt_of_lt_mul (by rwa [pow_succ'] at hfuel))
      rw [List.cons_append, exec_groupsFrom hi hvalue (by rw [hlow]; omega) (by omega),
        if_neg (by omega), hlow, hword, htail, hcollected, hsum, add_assoc]

end Reader

end Loams.Data
