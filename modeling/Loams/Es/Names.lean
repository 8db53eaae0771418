/-
# Patterns of index names
-/

import Mathlib.Data.List.Infix

namespace Loams.Es

open List

variable {part tail rest t : List Char} {parts : List (List Char)}

/-- What follows the leftmost place where the text has the part. -/
def afterFirst (part : List Char) : List Char → Option (List Char)
  | [] => if part = [] then some [] else none
  | c :: tail =>
    if part.isPrefixOf (c :: tail) then some ((c :: tail).drop part.length)
    else afterFirst part tail

/-- The parts behind the first star. -/
def globTail (tail : List Char) : List (List Char) → Bool
  | [] => tail.isEmpty
  | [last] => last.length ≤ tail.length && last.isSuffixOf tail
  | part :: rest =>
    match afterFirst part tail with
    | some tail => globTail tail rest
    | none => false

/-- Whether the name matches the pattern, where a star matches any run of characters. -/
def glob (pattern name : String) : Bool :=
  match pattern.toList.splitOn '*' with
  | [] => name.toList.isEmpty
  | first :: rest =>
    first.isPrefixOf name.toList && globTail (name.toList.drop first.length) rest

/-- The name is the pattern with each star replaced by some text. -/
def Expands : List Char → List Char → Prop
  | [], name => name = []
  | c :: pattern, name =>
    if c = '*' then ∃ text rest, name = text ++ rest ∧ Expands pattern rest
    else ∃ rest, name = c :: rest ∧ Expands pattern rest

/-! ## Parts -/

/-- The name has the parts one after the other, with any text between them. -/
def Fits : List (List Char) → List Char → Prop
  | [], _ => False
  | [last], name => name = last
  | part :: rest, name => ∃ tail u, name = part ++ tail ∧ u <:+ tail ∧ Fits rest u

theorem fits_cons_cons {c : Char} {name : List Char} :
    Fits ((c :: part) :: parts) name ↔ ∃ rest, name = c :: rest ∧ Fits (part :: parts) rest := by
  cases parts with
  | nil => simp [Fits]
  | cons next parts =>
    simp only [Fits, cons_append]
    constructor
    · rintro ⟨tail, u, rfl, hu⟩
      exact ⟨_, rfl, tail, u, rfl, hu⟩
    · rintro ⟨_, rfl, tail, u, rfl, hu⟩
      exact ⟨tail, u, rfl, hu⟩

theorem expands_iff_fits {pattern name : List Char} :
    Expands pattern name ↔ Fits (pattern.splitOn '*') name := by
  induction pattern generalizing name with
  | nil => simp [Expands, Fits]
  | cons c pattern ih =>
    obtain ⟨next, parts, hparts⟩ := exists_cons_of_ne_nil (splitOn_ne_nil '*' pattern)
    rw [hparts] at ih
    rw [Expands, splitOn, splitOnP_cons_eq_if_modifyHead, ← splitOn, hparts]
    by_cases hstar : c = '*'
    · rw [if_pos hstar, if_pos (beq_iff_eq.mpr hstar)]
      simp only [Fits, ih, nil_append]
      constructor
      · rintro ⟨text, rest, rfl, hrest⟩
        exact ⟨_, rest, rfl, suffix_append text rest, hrest⟩
      · rintro ⟨_, rest, rfl, ⟨text, rfl⟩, hrest⟩
        exact ⟨text, rest, rfl, hrest⟩
    · rw [if_neg hstar, if_neg (by simpa using hstar), modifyHead_cons, fits_cons_cons]
      simp only [ih]

/-! ## The search -/

theorem suffix_of_afterFirst (h : afterFirst part tail = some rest) : part ++ rest <:+ tail := by
  induction tail with
  | nil =>
    rw [afterFirst] at h
    split_ifs at h with hpart
    simp [hpart, ← Option.some.inj h]
  | cons c tail ih =>
    rw [afterFirst] at h
    split_ifs at h with hpart
    · obtain ⟨found, hfound⟩ := isPrefixOf_iff_prefix.mp hpart
      rw [← hfound, drop_left] at h
      rw [← hfound, Option.some.inj h]
    · exact (ih h).trans (suffix_cons c tail)

/-- The leftmost place leaves the most of the text. -/
theorem exists_afterFirst (h : part ++ t <:+ tail) :
    ∃ rest, afterFirst part tail = some rest ∧ t <:+ rest := by
  induction tail with
  | nil =>
    obtain ⟨rfl, rfl⟩ := append_eq_nil_iff.mp (suffix_nil.mp h)
    exact ⟨[], rfl, suffix_refl []⟩
  | cons c tail ih =>
    rw [afterFirst]
    split_ifs with hpart
    · refine ⟨_, rfl, ?_⟩
      have hlength := h.length_le
      rw [length_append] at hlength
      exact suffix_of_suffix_length_le ((suffix_append part t).trans h) (drop_suffix _ _)
        (by rw [length_drop]; omega)
    · rcases suffix_cons_iff.mp h with heq | h
      · have hfound := isPrefixOf_iff_prefix.mpr ⟨t, heq⟩
        exact absurd hfound hpart
      · exact ih h

/-- The search from every position finds a fit if there is one. -/
theorem globTail_iff (hne : parts ≠ []) :
    globTail tail parts = true ↔ ∃ u, u <:+ tail ∧ Fits parts u := by
  induction parts generalizing tail with
  | nil => exact absurd rfl hne
  | cons part rest ih =>
    cases rest with
    | nil =>
      simp only [globTail, Fits, Bool.and_eq_true, decide_eq_true_eq, isSuffixOf_iff_suffix,
        exists_eq_right]
      exact and_iff_right_of_imp IsSuffix.length_le
    | cons next rest =>
      have hrest : ∀ tail, globTail tail (next :: rest) = true ↔
          ∃ u, u <:+ tail ∧ Fits (next :: rest) u := fun tail => ih (cons_ne_nil next rest)
      simp only [globTail, Fits]
      constructor
      · intro h
        split at h
        next left hfound =>
          obtain ⟨u, hu, hfits⟩ := (hrest left).mp h
          exact ⟨_, suffix_of_afterFirst hfound, left, u, rfl, hu, hfits⟩
        next => cases h
      · rintro ⟨_, hsuffix, t, u, rfl, hu, hfits⟩
        obtain ⟨left, hfound, ht⟩ := exists_afterFirst hsuffix
        rw [hfound]
        exact (hrest left).mpr ⟨u, hu.trans ht, hfits⟩

/-- A pattern matches the names that it expands to. -/
theorem glob_iff_expands (pattern name : String) :
    glob pattern name = true ↔ Expands pattern.toList name.toList := by
  obtain ⟨first, rest, hparts⟩ := exists_cons_of_ne_nil (splitOn_ne_nil '*' pattern.toList)
  rw [expands_iff_fits, glob, hparts, Bool.and_eq_true, isPrefixOf_iff_prefix]
  have hfirst : (∃ tail, name.toList = first ++ tail ∧ globTail tail rest = true) ↔
      first <+: name.toList ∧ globTail (name.toList.drop first.length) rest = true := by
    constructor
    · rintro ⟨tail, htail, h⟩
      rw [htail, drop_left]
      exact ⟨prefix_append first tail, h⟩
    · rintro ⟨⟨tail, htail⟩, h⟩
      rw [← htail, drop_left] at h
      exact ⟨tail, htail.symm, h⟩
  rw [← hfirst]
  cases rest with
  | nil => simp [globTail, Fits]
  | cons next rest =>
    simp only [globTail_iff (cons_ne_nil next rest), Fits, exists_and_left]

end Loams.Es
