/-
# Double-precision numbers in order
-/

import Mathlib.Tactic.Linarith
import Mathlib.Tactic.Positivity
import Mathlib.Tactic.Ring

namespace Loams.Data

/-- The bit of the sign. -/
def signBit : UInt64 := 0x8000000000000000

/-- A double by its bits. -/
structure Float64 where
  bits : UInt64
  deriving DecidableEq

namespace Float64

variable {x y : Float64}

/-- Whether the sign is set. -/
def isNeg (x : Float64) : Bool := 2 ^ 63 ≤ x.bits.toNat

/-- The bits without the sign. -/
def magnitude (x : Float64) : ℕ := x.bits.toNat % 2 ^ 63

/-- The magnitude of the infinities. -/
def infinity : ℕ := 2047 * 2 ^ 52

/-- Above infinity. -/
def isNan (x : Float64) : Bool := infinity < x.magnitude

/-- The absolute value of a finite magnitude: subnormal with a zero exponent, else
with a leading one. -/
def absValue (magnitude : ℕ) : ℚ :=
  let exponent : ℕ := magnitude / 2 ^ 52
  let fraction : ℕ := magnitude % 2 ^ 52
  if exponent = 0 then fraction * 2 ^ (-1074 : ℤ)
  else (2 ^ 52 + fraction) * 2 ^ ((exponent : ℤ) - 1075)

/-- The value of a double that is a number. -/
def value (x : Float64) : WithBot (WithTop ℚ) :=
  if x.magnitude = infinity then if x.isNeg then ⊥ else ((⊤ : WithTop ℚ) : WithBot (WithTop ℚ))
  else ((if x.isNeg then -absValue x.magnitude else absValue x.magnitude : ℚ) : WithTop ℚ)

/-- Numeric order, with all that is no number equal and last. -/
def cmp (x y : Float64) : Ordering :=
  match x.isNan, y.isNan with
  | true, true => .eq
  | true, false => .gt
  | false, true => .lt
  | false, false => compare x.value y.value

/-! ## Values grow with the magnitude -/

/-- The absolute value in units of the least positive one. -/
def scaled (magnitude : ℕ) : ℕ :=
  if magnitude / 2 ^ 52 = 0 then magnitude % 2 ^ 52
  else (2 ^ 52 + magnitude % 2 ^ 52) * 2 ^ (magnitude / 2 ^ 52 - 1)

theorem absValue_eq (m : ℕ) : absValue m = scaled m * 2 ^ (-1074 : ℤ) := by
  unfold absValue scaled
  by_cases hexp : m / 2 ^ 52 = 0
  · simp only [hexp, if_true]
  · have hunit : (2 : ℚ) ^ ((m / 2 ^ 52 : ℕ) - 1075 : ℤ) =
        2 ^ (m / 2 ^ 52 - 1) * 2 ^ (-1074 : ℤ) := by
      rw [← zpow_natCast, ← zpow_add₀ (by norm_num)]
      congr 1
      omega
    simp only [hexp, if_false]
    rw [hunit]
    generalize (2 : ℚ) ^ (-1074 : ℤ) = unit
    push_cast
    ring

theorem scaled_of_div_mod {m e f : ℕ} (hm : m = 2 ^ 52 * e + f) (hf : f < 2 ^ 52) :
    scaled m = if e = 0 then f else (2 ^ 52 + f) * 2 ^ (e - 1) := by
  have hdiv : m / 2 ^ 52 = e := by omega
  have hmod : m % 2 ^ 52 = f := by omega
  rw [scaled, hdiv, hmod]

/-- The next magnitude has a larger value, also across an exponent. -/
theorem scaled_strictMono : StrictMono scaled := by
  refine strictMono_nat_of_lt_succ fun m => ?_
  obtain ⟨e, f, hm, hf⟩ : ∃ e f, m = 2 ^ 52 * e + f ∧ f < 2 ^ 52 :=
    ⟨m / 2 ^ 52, m % 2 ^ 52, by omega, by omega⟩
  rw [scaled_of_div_mod hm hf]
  by_cases hcarry : f + 1 < 2 ^ 52
  · have hnext : m + 1 = 2 ^ 52 * e + (f + 1) := by omega
    rw [scaled_of_div_mod hnext hcarry]
    split_ifs
    · omega
    · gcongr
      omega
  · -- the fraction starts over, and the exponent makes up for it
    have hnext : m + 1 = 2 ^ 52 * (e + 1) + 0 := by omega
    rw [scaled_of_div_mod hnext (by positivity), if_neg (Nat.succ_ne_zero e), Nat.add_sub_cancel]
    split_ifs with he
    · subst he
      omega
    · have hpow : 2 ^ e = 2 * 2 ^ (e - 1) := by
        rw [← pow_succ', Nat.sub_add_cancel (by omega)]
      have hpos : 0 < 2 ^ (e - 1) := by positivity
      rw [hpow]
      nlinarith

theorem absValue_lt {m n : ℕ} (h : m < n) : absValue m < absValue n := by
  rw [absValue_eq, absValue_eq]
  have hscaled : (scaled m : ℚ) < scaled n := by exact_mod_cast scaled_strictMono h
  have hunit : (0 : ℚ) < 2 ^ (-1074 : ℤ) := zpow_pos (by norm_num) _
  exact mul_lt_mul_of_pos_right hscaled hunit

theorem absValue_zero : absValue 0 = 0 := by simp [absValue]

theorem absValue_nonneg (m : ℕ) : 0 ≤ absValue m := by
  rcases Nat.eq_zero_or_pos m with rfl | hpos
  · exact absValue_zero.ge
  · exact (absValue_zero ▸ absValue_lt hpos).le

/-! ## The order of the bits -/

/-- The bits as a signed magnitude. -/
def signed (x : Float64) : ℤ := if x.isNeg then -x.magnitude else x.magnitude

theorem value_of_signed_eq (h : x.signed = y.signed) : x.value = y.value := by
  unfold signed at h
  unfold value
  by_cases hx : x.isNeg = true <;> by_cases hy : y.isNeg = true <;>
    simp only [hx, hy, if_true, if_false, Bool.false_eq_true] at h ⊢
  · rw [show x.magnitude = y.magnitude by omega]
  · rw [show x.magnitude = 0 by omega, show y.magnitude = 0 by omega]
    simp [infinity, absValue_zero]
  · rw [show x.magnitude = 0 by omega, show y.magnitude = 0 by omega]
    simp [infinity, absValue_zero]
  · rw [show x.magnitude = y.magnitude by omega]

/-- Infinities are at the ends, and finite values grow with the signed magnitude. -/
theorem value_lt_of_signed_lt (hx : x.isNan = false) (hy : y.isNan = false)
    (h : x.signed < y.signed) : x.value < y.value := by
  simp only [isNan, decide_eq_false_iff_not, not_lt] at hx hy
  unfold signed at h
  unfold value
  have hfinite : ∀ q r : ℚ, q < r →
      (((q : ℚ) : WithTop ℚ) : WithBot (WithTop ℚ)) < ((r : ℚ) : WithTop ℚ) := fun q r hqr =>
    WithBot.coe_lt_coe.mpr (WithTop.coe_lt_coe.mpr hqr)
  have htop : ∀ q : ℚ,
      (((q : ℚ) : WithTop ℚ) : WithBot (WithTop ℚ)) < ((⊤ : WithTop ℚ) : WithBot (WithTop ℚ)) :=
    fun q => WithBot.coe_lt_coe.mpr (WithTop.coe_lt_top q)
  by_cases hnx : x.isNeg = true <;> by_cases hny : y.isNeg = true <;>
    simp only [hnx, hny, if_true, if_false, Bool.false_eq_true] at h ⊢
  · -- both negative: the smaller magnitude is the larger value
    rw [if_neg (show y.magnitude ≠ infinity by omega)]
    split_ifs
    · exact WithBot.bot_lt_coe _
    · exact hfinite _ _ (neg_lt_neg (absValue_lt (by omega)))
  · -- one of the two is not zero
    have hpos : 0 < absValue x.magnitude ∨ 0 < absValue y.magnitude := by
      rcases Nat.eq_zero_or_pos x.magnitude with hzero | hpos
      · exact .inr (absValue_zero ▸ absValue_lt (by omega))
      · exact .inl (absValue_zero ▸ absValue_lt hpos)
    split_ifs
    · exact WithBot.bot_lt_coe _
    · exact WithBot.bot_lt_coe _
    · exact htop _
    · have hxnonneg := absValue_nonneg x.magnitude
      have hynonneg := absValue_nonneg y.magnitude
      exact hfinite _ _ (by rcases hpos with hpos | hpos <;> linarith)
  · omega
  · rw [if_neg (show x.magnitude ≠ infinity by omega)]
    split_ifs
    · exact htop _
    · exact hfinite _ _ (absValue_lt (by omega))

/-- Numbers compare as their signed magnitudes. -/
theorem compare_value (hx : x.isNan = false) (hy : y.isNan = false) :
    compare x.value y.value = compare x.signed y.signed := by
  rcases lt_trichotomy x.signed y.signed with h | h | h
  · rw [compare_lt_iff_lt.mpr h, compare_lt_iff_lt.mpr (value_lt_of_signed_lt hx hy h)]
  · rw [compare_eq_iff_eq.mpr h, compare_eq_iff_eq.mpr (value_of_signed_eq h)]
  · rw [compare_gt_iff_gt.mpr h, compare_gt_iff_gt.mpr (value_lt_of_signed_lt hy hx h)]

end Float64

end Loams.Data
