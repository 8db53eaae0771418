/-
# Text
-/

import Mathlib.Data.List.Induction
import Mathlib.Tactic.IntervalCases

namespace Loams.Data

open List

/-! ## Prefixes -/

/-- Whether the string starts with the character. -/
def startsWithChar (s : String) (c : Char) : Bool := s.toList.head? == some c

/-- Whether the string ends with the character. -/
def endsWithChar (s : String) (c : Char) : Bool := s.toList.getLast? == some c

/-- What follows the prefix, when the string has it. -/
def stripPrefix? (p s : String) : Option String :=
  if p.toList.isPrefixOf s.toList then some (String.ofList (s.toList.drop p.toList.length))
  else none

theorem stripPrefix?_eq_some {p s r : String} : stripPrefix? p s = some r ↔ s = p ++ r := by
  unfold stripPrefix?
  split_ifs with h
  · obtain ⟨rest, hrest⟩ := isPrefixOf_iff_prefix.mp h
    rw [← hrest, drop_left, Option.some_inj, ← String.toList_inj, ← String.toList_inj,
      String.toList_append, ← hrest, String.toList_ofList, append_cancel_left_eq]
  · simp only [false_iff]
    rintro rfl
    exact h (List.isPrefixOf_iff_prefix.mpr ⟨r.toList, (String.toList_append).symm⟩)

variable {c : Char}

theorem startsWithChar_append {p s : String} (h : startsWithChar p c = true) :
    startsWithChar (p ++ s) c = true := by
  simp only [startsWithChar, beq_iff_eq, String.toList_append, head?_append] at h ⊢
  rw [h]
  rfl

theorem endsWithChar_append {p s : String} (h : endsWithChar s c = true) :
    endsWithChar (p ++ s) c = true := by
  simp only [endsWithChar, beq_iff_eq, String.toList_append, getLast?_append] at h ⊢
  rw [h]
  rfl

/-- Whether the text occurs in the string. -/
def containsText (s t : String) : Bool := s.toList.tails.any fun rest => t.toList.isPrefixOf rest

/-! ## Quoted strings -/

/-- The control characters: the first 32, and 127 to 159. -/
def isControl (c : Char) : Bool := c.toNat < 32 || (127 ≤ c.toNat && c.toNat ≤ 159)

/-- A character inside a quoted string, with control characters escaped. -/
def debugChar (c : Char) : String :=
  if c = '"' then "\\\""
  else if c = '\\' then "\\\\"
  else if c = '\n' then "\\n"
  else if c = '\r' then "\\r"
  else if c = '\t' then "\\t"
  else if c = '\x00' then "\\0"
  else if isControl c then
    "\\u\x7b" ++ String.ofList (Nat.toDigits 16 c.toNat) ++ "\x7d"
  else c.toString

/-- A string as a message quotes it. -/
def debugStr (s : String) : String := "\"" ++ String.join (s.toList.map debugChar) ++ "\""

/-! ## Canonical decimal numerals -/

/-- Digits only, and no leading zero unless the numeral is zero itself. -/
def isCanonical (s : String) : Bool :=
  !s.toList.isEmpty && s.toList.all Char.isDigit && (s.toList == ['0'] || !startsWithChar s '0')

/-- Parses a canonical numeral below the bound. -/
def parseCanonical? (bound : ℕ) (s : String) : Option ℕ :=
  if isCanonical s then
    let n := Nat.ofDigitChars 10 s.toList 0
    if n < bound then some n else none
  else none

private theorem digitChar_toNat_sub (h : c.isDigit = true) :
    (c.toNat - '0'.toNat).digitChar = c ∧ c.toNat - '0'.toNat < 10 := by
  have hrange : 48 ≤ c.toNat ∧ c.toNat ≤ 57 := by
    simpa [Char.isDigit, UInt32.le_iff_toNat_le] using h
  obtain ⟨n, hn⟩ : ∃ n, n = c.toNat := ⟨_, rfl⟩
  have hc : c = Char.ofNat n := by rw [hn, Char.ofNat_toNat]
  subst hc
  rw [← hn] at hrange ⊢
  obtain ⟨hlo, hhi⟩ := hrange
  interval_cases n <;> decide

private theorem digitChar_ne_zero {n : ℕ} (h : n.digitChar ≠ '0') : 0 < n := by
  rcases Nat.eq_zero_or_pos n with rfl | hpos
  · exact absurd rfl h
  · exact hpos

/-- Printing the value of a digit list without a leading zero gives it back. -/
theorem toDigits_ofDigitChars (l : List Char) (hne : l ≠ []) (hdigit : ∀ c ∈ l, c.isDigit = true)
    (hlead : l.head? ≠ some '0') :
    0 < Nat.ofDigitChars 10 l 0 ∧ Nat.toDigits 10 (Nat.ofDigitChars 10 l 0) = l := by
  induction l using reverseRecOn with
  | nil => exact absurd rfl hne
  | append_singleton l c ih =>
    obtain ⟨hchar, hlt⟩ := digitChar_toNat_sub (hdigit c (by simp))
    rw [Nat.ofDigitChars_append, Nat.ofDigitChars_cons, Nat.ofDigitChars_nil]
    rcases eq_or_ne l [] with rfl | hl
    · rw [Nat.ofDigitChars_nil, Nat.mul_zero, Nat.zero_add, Nat.toDigits_of_lt_base hlt, hchar]
      refine ⟨digitChar_ne_zero ?_, rfl⟩
      rw [hchar]
      simpa using hlead
    · have hhead : l.head? ≠ some '0' := by
        obtain ⟨d, rest, rfl⟩ := exists_cons_of_ne_nil hl
        exact hlead
      obtain ⟨hpos, hprint⟩ := ih hl (fun d hd => hdigit d (by simp [hd])) hhead
      refine ⟨by omega, ?_⟩
      rw [← Nat.toDigits_append_toDigits (by decide) hpos hlt, hprint,
        Nat.toDigits_of_lt_base hlt, hchar]

/-- A numeral that parses is the spelling of its value. -/
theorem eq_toString_of_parseCanonical? {bound n : ℕ} {s : String}
    (h : parseCanonical? bound s = some n) : s = toString n ∧ n < bound := by
  simp only [parseCanonical?, Option.ite_none_right_eq_some, Option.some_inj] at h
  obtain ⟨hcanon, hlt, rfl⟩ := h
  simp only [isCanonical, startsWithChar, Bool.and_eq_true, Bool.not_eq_true', Bool.or_eq_true,
    beq_iff_eq, all_eq_true, isEmpty_eq_false_iff, beq_eq_false_iff_ne] at hcanon
  obtain ⟨⟨hne, hdigit⟩, hzero⟩ := hcanon
  refine ⟨?_, hlt⟩
  rw [Nat.toString_eq_repr, ← String.toList_inj, Nat.toList_repr]
  rcases hzero with hzero | hlead
  · rw [hzero]
    decide
  · exact (toDigits_ofDigitChars _ hne hdigit hlead).2.symm

theorem not_mem_toString (n : ℕ) (hc : c.isDigit = false) : c ∉ (toString n).toList := by
  intro hmem
  rw [Nat.toString_eq_repr, Nat.toList_repr] at hmem
  rw [Nat.isDigit_of_mem_toDigits (by decide) (by decide) hmem] at hc
  exact absurd hc (by decide)

/-- What follows the last occurrence of a character is determined by the list. -/
theorem eq_of_append_cons_eq {α : Type*} {c : α} {l l' x y : List α} (hx : c ∉ x) (hy : c ∉ y)
    (h : l ++ c :: x = l' ++ c :: y) : x = y := by
  classical
  have htake : ∀ (l x : List α), c ∉ x →
      (l ++ c :: x).reverse.takeWhile (fun a => decide (a ≠ c)) = x.reverse := by
    intro l x hx
    rw [reverse_append, reverse_cons, append_assoc, takeWhile_append_of_pos]
    · simp
    · intro a ha
      have hne : a ≠ c := fun heq => hx (heq ▸ mem_reverse.mp ha)
      simpa using hne
  have heq := htake l x hx
  rw [h, htake l' y hy] at heq
  exact (reverse_inj.mp heq).symm

/-! ## Identifiers -/

/-- A number in at least twenty digits. -/
def padded (n : ℕ) : String :=
  let digits := toString n
  String.ofList (List.replicate (20 - digits.length) '0') ++ digits

/-- A time and random bits. -/
structure Ulid where
  timeMs : ℕ
  random : ℕ
  deriving DecidableEq

/-- The 26 digits of the identifier in Crockford's base 32. -/
def Ulid.text (ulid : Ulid) : String :=
  let value := ulid.timeMs * 2 ^ 80 + ulid.random
  let digits := "0123456789ABCDEFGHJKMNPQRSTVWXYZ".toList
  String.ofList ((List.range 26).reverse.map fun i => digits.getD (value / 32 ^ i % 32) '0')

end Loams.Data
