/-
# Reading from the front of a buffer

A reader takes bytes from the front of a buffer or stops with an error.
-/

import Loams.Control.Program
import Loams.Data.ByteKeys

namespace Loams.Data

open List Loams.Control Program

/-- A program over the bytes that are still to be read. -/
abbrev Reader (ε α : Type) := Program Bytes ε α

namespace Reader

variable {ε α β : Type} {r : Reader ε α} {f : α → Reader ε β} {bytes bytes' : Bytes} {a : α} {b : β}

/-- The reader takes exactly these bytes from the front of a buffer and answers the
value. -/
def Reads (r : Reader ε α) (bytes : Bytes) (a : α) : Prop :=
  ∀ rest, r.exec (bytes ++ rest) = (.ok a, rest)

theorem Reads.exec_eq (h : Reads r bytes a) : r.exec bytes = (.ok a, []) := by
  have hall := h []
  rwa [append_nil] at hall

theorem reads_pure (a : α) : Reads (pure a : Reader ε α) [] a := fun _ => rfl

theorem Reads.bind (hr : Reads r bytes a) (hf : Reads (f a) bytes' b) :
    Reads (r >>= f) (bytes ++ bytes') b := by
  intro rest
  rw [append_assoc, exec_bind_of_ok (hr (bytes' ++ rest)), hf rest]

/-- What follows a reading, from the bytes that follow its encoding. -/
theorem Reads.exec_bind (hr : Reads r bytes a) (rest : Bytes) :
    (r >>= f).exec (bytes ++ rest) = (f a).exec rest :=
  exec_bind_of_ok (hr rest)

/-- A last step that only builds the answer. -/
theorem Reads.answer {g : α → β} (hr : Reads r bytes a) :
    Reads (r >>= fun a => pure (g a)) bytes (g a) := by
  intro rest
  rw [hr.exec_bind, exec_pure]

/-- A passed check takes no bytes. -/
theorem reads_require {ok : Prop} [Decidable ok] {e : ε} {f : Unit → Reader ε β} (h : ok)
    (hf : Reads (f ()) bytes b) :
    Reads ((liftM (Control.require ok e) : Reader ε Unit) >>= f) bytes b :=
  fun rest => (exec_require_bind h).trans (hf rest)

/-! ## Bytes and integers -/

/-- The next `n` bytes; the error is told how many were left. -/
def take (n : ℕ) (short : ℕ → ε) : Reader ε Bytes := do
  let buf ← Program.read
  Control.require (n ≤ buf.length) (short buf.length)
  Program.update (·.drop n)
  pure (buf.take n)

variable {n : ℕ} {parts : List Bytes} {l : List α} {encode : α → Bytes} {count : Reader ε ℕ}

theorem reads_take {short : ℕ → ε} (h : bytes.length = n) : Reads (take n short) bytes bytes := by
  intro rest
  rw [take, exec_read_bind, exec_require_bind (by simp [← h]), exec_update_bind,
    exec_pure, take_left' h, drop_left' h]

/-- An unsigned integer, most significant byte first. -/
def unsigned (width : ℕ) (short : ε) : Reader ε ℕ := do
  let bytes ← take width fun _ => short
  pure (ofBeBytes bytes)

theorem reads_unsigned {width : ℕ} {short : ε} (h : n < 256 ^ width) :
    Reads (unsigned width short) (beBytes width n) n := by
  have hread : Reads (take width fun _ => short) (beBytes width n) (beBytes width n) :=
    reads_take (length_beBytes width n)
  have hvalue := hread.answer (g := ofBeBytes)
  rwa [ofBeBytes_beBytes h] at hvalue

/-- The residue of an integer modulo `2 ^ bits`, as its two's complement is read. -/
def toUnsigned (bits : ℕ) (z : ℤ) : ℕ := (z % 2 ^ bits).toNat

/-- The integer that a two's complement of `bits` bits stands for. -/
def ofUnsigned (bits n : ℕ) : ℤ := if n < 2 ^ (bits - 1) then n else n - 2 ^ bits

theorem toUnsigned_lt (bits : ℕ) (z : ℤ) : toUnsigned bits z < 2 ^ bits := by
  have hlt : z % 2 ^ bits < 2 ^ bits := Int.emod_lt_of_pos _ (by positivity)
  have hnonneg : 0 ≤ z % 2 ^ bits := Int.emod_nonneg _ (by positivity)
  zify
  rwa [toUnsigned, Int.toNat_of_nonneg hnonneg]

theorem ofUnsigned_toUnsigned {bits : ℕ} {z : ℤ} (hbits : 0 < bits) (hlo : -2 ^ (bits - 1) ≤ z)
    (hhi : z < 2 ^ (bits - 1)) : ofUnsigned bits (toUnsigned bits z) = z := by
  obtain ⟨k, rfl⟩ : ∃ k, bits = k + 1 := ⟨bits - 1, by omega⟩
  rw [Nat.add_sub_cancel] at hlo hhi
  have hpow : (2 : ℤ) ^ (k + 1) = 2 * 2 ^ k := by ring
  have hpos : (0 : ℤ) < 2 ^ k := by positivity
  rw [ofUnsigned, toUnsigned, Nat.add_sub_cancel]
  zify
  rcases le_or_gt 0 z with hz | hz
  · have hmod : z % 2 ^ (k + 1) = z := Int.emod_eq_of_lt hz (by omega)
    rw [hmod, Int.toNat_of_nonneg hz, if_pos hhi]
  · have hmod : z % 2 ^ (k + 1) = z + 2 ^ (k + 1) := by
      rw [← Int.add_emod_right]
      exact Int.emod_eq_of_lt (by omega) (by omega)
    rw [hmod, Int.toNat_of_nonneg (by omega), if_neg (by omega)]
    omega

/-- A signed integer, most significant byte first. -/
def signed (width : ℕ) (short : ε) : Reader ε ℤ := do
  let n ← unsigned width short
  pure (ofUnsigned (8 * width) n)

theorem reads_signed {width : ℕ} {z : ℤ} {short : ε} (hwidth : 0 < width)
    (hlo : -2 ^ (8 * width - 1) ≤ z) (hhi : z < 2 ^ (8 * width - 1)) :
    Reads (signed width short) (beBytes width (toUnsigned (8 * width) z)) z := by
  have hfits : toUnsigned (8 * width) z < 256 ^ width := by
    have hlt := toUnsigned_lt (8 * width) z
    rwa [pow_mul] at hlt
  have hread : Reads (unsigned width short) _ _ := reads_unsigned hfits
  have hvalue := hread.answer (g := ofUnsigned (8 * width))
  rwa [ofUnsigned_toUnsigned (by omega) hlo hhi] at hvalue

/-! ## Terminated strings -/

/-- The bytes in front of the first zero byte, which is taken with them. -/
def terminated (missing : ε) : Reader ε Bytes := do
  let buf ← Program.read
  Control.require (0 ∈ buf) missing
  let bytes := buf.takeWhile (· ≠ 0)
  Program.update (·.drop (bytes.length + 1))
  pure bytes

theorem reads_terminated {missing : ε} (h : 0 ∉ bytes) :
    Reads (terminated missing) (bytes ++ [0]) bytes := by
  intro rest
  have htake : (bytes ++ [0] ++ rest).takeWhile (· ≠ 0) = bytes := by
    rw [append_assoc, takeWhile_append_of_pos]
    · simp
    · intro x hx
      simpa using fun hzero : x = 0 => h (hzero ▸ hx)
  have hdrop : (bytes ++ [0] ++ rest).drop (bytes.length + 1) = rest :=
    drop_left' (by simp)
  rw [terminated, exec_read_bind, exec_require_bind (by simp)]
  dsimp only
  rw [htake, exec_update_bind, exec_pure, hdrop]

/-! ## Counted loops -/

/-- The reader run `n` times. -/
def times : ℕ → Reader ε α → Reader ε (List α)
  | 0, _ => pure []
  | n + 1, r => do
    let a ← r
    let rest ← times n r
    pure (a :: rest)

/-- One reading for each element of a list, in order. -/
def each (r : α → Reader ε β) : List α → Reader ε (List β)
  | [] => pure []
  | a :: l => do
    let b ← r a
    let rest ← each r l
    pure (b :: rest)

theorem reads_each {γ : Type} {r : α → Reader ε β} {index : γ → α} {value : γ → β} {l : List γ}
    (h : List.Forall₂ (fun c part => Reads (r (index c)) part (value c)) l parts) :
    Reads (each r (l.map index)) parts.flatten (l.map value) := by
  induction h with
  | nil => exact reads_pure []
  | cons hhead _ ih => exact hhead.bind ih.answer

/-- The rounds of a loop may differ in how their values were written. -/
theorem reads_times_of_forall₂ (h : List.Forall₂ (fun a part => Reads r part a) l parts) :
    Reads (times l.length r) parts.flatten l := by
  induction h with
  | nil => exact reads_pure []
  | cons hhead _ ih => exact hhead.bind ih.answer

theorem reads_times (l : List α) (h : ∀ a ∈ l, Reads r (encode a) a) :
    Reads (times l.length r) (l.flatMap encode) l := by
  rw [flatMap_def]
  apply reads_times_of_forall₂
  rw [forall₂_map_right_iff, forall₂_same]
  exact h

/-- A loop that ends without an error has answered once a round. -/
theorem length_of_times {buf rest : Bytes} (h : (times n r).exec buf = (.ok l, rest)) :
    l.length = n := by
  induction n generalizing buf rest l with
  | zero =>
    obtain ⟨rfl, -⟩ : [] = l ∧ buf = rest := by simpa [times] using h
    rfl
  | succ n ih =>
    obtain ⟨a, buf₁, -, h⟩ := exec_bind_ok.mp h
    obtain ⟨l', buf₂, hl', h⟩ := exec_bind_ok.mp h
    obtain ⟨rfl, -⟩ : a :: l' = l ∧ buf₂ = rest := by simpa using h
    rw [length_cons, ih hl']

/-- A count, and that many values. -/
def counted (count : Reader ε ℕ) (r : Reader ε α) : Reader ε (List α) := do
  let n ← count
  times n r

theorem reads_counted (hcount : Reads count bytes l.length) (h : ∀ a ∈ l, Reads r (encode a) a) :
    Reads (counted count r) (bytes ++ l.flatMap encode) l :=
  hcount.bind (reads_times l h)

/-- The answer has as many values as the count says, whatever was encoded behind it. -/
theorem length_of_counted {rest rest' : Bytes} (hcount : Reads count bytes n)
    (h : (counted count r).exec (bytes ++ rest) = (.ok l, rest')) : l.length = n := by
  rw [counted, hcount.exec_bind] at h
  exact length_of_times h

/-- The reader run `n` times, with an accumulator. -/
def foldTimes (step : β → α → β) : ℕ → Reader ε α → β → Reader ε β
  | 0, _, acc => pure acc
  | n + 1, r, acc => do
    let a ← r
    foldTimes step n r (step acc a)

theorem reads_foldTimes {step : β → α → β} {acc : β} (l : List α)
    (h : ∀ a ∈ l, Reads r (encode a) a) :
    Reads (foldTimes step l.length r acc) (l.flatMap encode) (l.foldl step acc) := by
  induction l generalizing acc with
  | nil => exact reads_pure acc
  | cons a l ih =>
    refine (h a mem_cons_self).bind ?_
    exact ih fun a' ha' => h a' (mem_cons_of_mem a ha')

end Reader

end Loams.Data
