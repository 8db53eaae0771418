/-
# Byte strings as ordered keys
-/

import Loams.Data.Codec
import Loams.Data.OrderedMap

namespace Loams.Data

open List Std

/-! ## Integers, most significant byte first -/

/-- The `width` low bytes of a number, most significant first. -/
def beBytes : ℕ → ℕ → Bytes
  | 0, _ => []
  | width + 1, n => UInt8.ofNat (n / 256 ^ width) :: beBytes width (n % 256 ^ width)

/-- The number that bytes stand for, most significant first. -/
def ofBeBytes : Bytes → ℕ
  | [] => 0
  | b :: bs => b.toNat * 256 ^ bs.length + ofBeBytes bs

variable {width a b : ℕ} {k : Bytes}

@[simp] theorem length_beBytes (width n : ℕ) : (beBytes width n).length = width := by
  induction width generalizing n with
  | zero => rfl
  | succ width ih => simp [beBytes, ih]

theorem div_pow_lt (h : a < 256 ^ (width + 1)) : a / 256 ^ width < 256 :=
  Nat.div_lt_of_lt_mul (by rwa [pow_succ] at h)

theorem ofBeBytes_beBytes (h : a < 256 ^ width) : ofBeBytes (beBytes width a) = a := by
  induction width generalizing a with
  | zero => simp only [pow_zero, Nat.lt_one_iff] at h; simp [beBytes, ofBeBytes, h]
  | succ width ih =>
    have hmod : a % 256 ^ width < 256 ^ width := Nat.mod_lt _ (by positivity)
    rw [beBytes, ofBeBytes, ih hmod, length_beBytes, UInt8.toNat_ofNat',
      Nat.mod_eq_of_lt (div_pow_lt h)]
    exact Nat.div_add_mod' a (256 ^ width)

theorem beBytes_inj (ha : a < 256 ^ width) (hb : b < 256 ^ width) :
    beBytes width a = beBytes width b ↔ a = b := by
  refine ⟨fun h => ?_, fun h => by rw [h]⟩
  rw [← ofBeBytes_beBytes ha, h, ofBeBytes_beBytes hb]

theorem compare_ofNat {x y : ℕ} (hx : x < 256) (hy : y < 256) :
    compare (UInt8.ofNat x) (UInt8.ofNat y) = compare x y := by
  simp only [compare, compareOfLessAndEq, UInt8.lt_iff_toNat_lt, ← UInt8.toNat_inj,
    UInt8.toNat_ofNat', Nat.mod_eq_of_lt hx, Nat.mod_eq_of_lt hy]

/-- Quotients decide a comparison, and remainders when the quotients agree. -/
theorem compare_div_mod (base a b : ℕ) :
    (compare (a / base) (b / base)).then (compare (a % base) (b % base)) = compare a b := by
  have ha := Nat.div_add_mod a base
  have hb := Nat.div_add_mod b base
  cases hquot : compare (a / base) (b / base) with
  | lt =>
    have hlt : a < b := Nat.lt_of_div_lt_div (Nat.compare_eq_lt.mp hquot)
    exact (Nat.compare_eq_lt.mpr hlt).symm
  | eq =>
    rw [Nat.compare_eq_eq.mp hquot] at ha
    calc compare (a % base) (b % base)
        = compare (base * (b / base) + a % base) (base * (b / base) + b % base) := by
          simp [compare, compareOfLessAndEq]
      _ = compare a b := by rw [ha, hb]
  | gt =>
    have hgt : b < a := Nat.lt_of_div_lt_div (Nat.compare_eq_gt.mp hquot)
    exact (Nat.compare_eq_gt.mpr hgt).symm

/-- The bytes of two numbers compare as the numbers do. -/
theorem compare_beBytes (ha : a < 256 ^ width) (hb : b < 256 ^ width) :
    compare (beBytes width a) (beBytes width b) = compare a b := by
  induction width generalizing a b with
  | zero =>
    simp only [pow_zero, Nat.lt_one_iff] at ha hb
    simp [beBytes, ha, hb]
  | succ width ih =>
    have hpos : 0 < 256 ^ width := by positivity
    rw [beBytes, beBytes, List.compare_cons_cons, compare_ofNat (div_pow_lt ha) (div_pow_lt hb),
      ih (Nat.mod_lt _ hpos) (Nat.mod_lt _ hpos), compare_div_mod]

/-! ## Prefixes and successors -/

theorem compare_append_left (p k l : Bytes) : compare (p ++ k) (p ++ l) = compare k l := by
  induction p with
  | nil => rfl
  | cons x p ih => simp [List.compare_cons_cons, ih]

/-- The first key after a key. -/
def after (key : Bytes) : Bytes := key ++ [0]

/-- Behind a key means at or behind the key with a zero byte appended. -/
theorem isLE_after {l : Bytes} : (compare (after k) l).isLE ↔ compare k l = .lt := by
  unfold after
  induction k generalizing l with
  | nil =>
    cases l with
    | nil => decide
    | cons y l =>
      have hzero : (compare 0 y).isLE := by
        rw [isLE_compare]
        exact UInt8.zero_le
      rw [List.nil_append, List.compare_cons_cons, List.compare_nil_cons]
      cases l <;> cases h : compare 0 y <;> simp_all
  | cons x k ih =>
    cases l with
    | nil => simp
    | cons y l =>
      rw [List.cons_append, List.compare_cons_cons, List.compare_cons_cons]
      cases compare x y <;> simp [ih]

/-- Before the first key after a key means at or before the key. -/
theorem lt_after {l : Bytes} : compare k (after l) = .lt ↔ (compare k l).isLE := by
  have hbehind := isLE_after (k := l) (l := k)
  have hswap : compare k (after l) = (compare (after l) k).swap := OrientedCmp.eq_swap
  have hswap' : compare k l = (compare l k).swap := OrientedCmp.eq_swap
  rw [hswap, hswap']
  cases hafter : compare (after l) k <;> cases hkey : compare l k <;> simp_all

/-- The end of the range of keys that start with a prefix: the smallest key greater
than all of them, or the empty string when there is none. -/
def successor (pre : Bytes) : Bytes :=
  match pre.reverse.dropWhile (· = 255) with
  | [] => []
  | last :: rest => rest.reverse ++ [last + 1]

/-- The range of the keys that start with a prefix. -/
def prefixRange (pre : Bytes) : Bytes × Option Bytes :=
  (pre, if successor pre = [] then none else some (successor pre))

/-! ## Ranges of a store -/

section Ranges

variable {β : Type*} (m : BTreeMap Bytes β) {lo : Bytes} {hi : Option Bytes}

/-- Whether a key lies at or behind `lo` and before `hi`. -/
def inRange (lo : Bytes) (hi : Option Bytes) (key : Bytes) : Bool :=
  (compare lo key).isLE && hi.all fun h => compare key h == .lt

/-- The pairs of a range, in key order. -/
def range (lo : Bytes) (hi : Option Bytes) : List (Bytes × β) :=
  m.toList.filter fun pair => inRange lo hi pair.1

/-- The first pairs of a range. -/
def scan (lo : Bytes) (hi : Option Bytes) (limit : ℕ) : List (Bytes × β) :=
  (range m lo hi).take limit

/-- The last pairs of a range, backwards. -/
def scanReverse (lo : Bytes) (hi : Option Bytes) (limit : ℕ) : List (Bytes × β) :=
  (range m lo hi).reverse.take limit

variable {m}

theorem mem_range {v : β} : (k, v) ∈ range m lo hi ↔ m[k]? = some v ∧ inRange lo hi k = true := by
  rw [range, mem_filter, ExtTreeMap.mem_toList_iff_getElem?_eq_some]

theorem range_pairwise (m : BTreeMap Bytes β) (lo : Bytes) (hi : Option Bytes) :
    (range m lo hi).Pairwise fun p q => compare p.1 q.1 = .lt :=
  m.ordered_keys_toList.filter _

/-- Two lists in key order with the same pairs are one. -/
theorem eq_of_ordered {l l' : List (Bytes × β)} (hl : l.Pairwise fun p q => compare p.1 q.1 = .lt)
    (hl' : l'.Pairwise fun p q => compare p.1 q.1 = .lt) (hmem : ∀ p, p ∈ l ↔ p ∈ l') : l = l' := by
  have hirrefl : ∀ p q : Bytes × β, compare p.1 q.1 = .lt → p ≠ q := by
    rintro p q hpq rfl
    rw [compare_self] at hpq
    cases hpq
  have hperm : l.Perm l' :=
    (perm_ext_iff_of_nodup (hl.imp fun {p q} => hirrefl p q)
      (hl'.imp fun {p q} => hirrefl p q)).mpr hmem
  refine hperm.eq_of_pairwise (fun p q _ _ hpq hqp => ?_) hl hl'
  have hswap : compare p.1 q.1 = (compare q.1 p.1).swap := OrientedCmp.eq_swap
  rw [hpq, hqp] at hswap
  cases hswap

/-- A list in key order that holds the pairs of a range is the range. -/
theorem range_eq_of_mem_iff {l : List (Bytes × β)}
    (hord : l.Pairwise fun p q => compare p.1 q.1 = .lt)
    (hmem : ∀ k v, (k, v) ∈ l ↔ m[k]? = some v ∧ inRange lo hi k = true) : range m lo hi = l := by
  refine eq_of_ordered (range_pairwise m lo hi) hord ?_
  rintro ⟨k, v⟩
  rw [mem_range, hmem]

/-- Two stores that are alike at some keys of a range list those keys alike. -/
theorem filter_range_congr {m' : BTreeMap Bytes β} {p : Bytes → Bool}
    (h : ∀ k, inRange lo hi k = true → p k = true → m[k]? = m'[k]?) :
    (range m lo hi).filter (fun pair => p pair.1) =
      (range m' lo hi).filter fun pair => p pair.1 := by
  refine eq_of_ordered ((range_pairwise m lo hi).filter _) ((range_pairwise m' lo hi).filter _) ?_
  rintro ⟨k, v⟩
  rw [mem_filter, mem_filter, mem_range, mem_range]
  constructor
  · rintro ⟨⟨hget, hin⟩, hp⟩
    exact ⟨⟨by rw [← h k hin hp, hget], hin⟩, hp⟩
  · rintro ⟨⟨hget, hin⟩, hp⟩
    exact ⟨⟨by rw [h k hin hp, hget], hin⟩, hp⟩

/-- The range behind one of its keys is what follows that key. -/
theorem range_after {v : β} {pre post : List (Bytes × β)}
    (h : range m lo hi = pre ++ (k, v) :: post) : range m (after k) hi = post := by
  have hord := range_pairwise m lo hi
  rw [h] at hord
  have hback := (pairwise_append.mp hord).2.1
  have hbound : (compare lo k).isLE ∧ (hi.all fun h => compare k h == .lt) = true := by
    have hk : (k, v) ∈ range m lo hi := h ▸ by simp
    simpa [inRange] using (mem_range.mp hk).2
  refine range_eq_of_mem_iff (Pairwise.of_cons hback) fun k' v' => ?_
  rw [inRange, Bool.and_eq_true, isLE_after]
  constructor
  · intro hpost
    have hin : (k', v') ∈ range m lo hi := h ▸ by simp [hpost]
    obtain ⟨hget, hrange⟩ := mem_range.mp hin
    rw [inRange, Bool.and_eq_true] at hrange
    exact ⟨hget, rel_of_pairwise_cons hback hpost, hrange.2⟩
  · rintro ⟨hget, hbehind, hbefore⟩
    have hlo : (compare lo k').isLE := TransCmp.isLE_trans hbound.1 (by rw [hbehind]; rfl)
    have hin : (k', v') ∈ range m lo hi := mem_range.mpr ⟨hget, by simp [inRange, hlo, hbefore]⟩
    rw [h, mem_append, mem_cons] at hin
    rcases hin with hpre | heq | hpost
    · have hfront := (pairwise_append.mp hord).2.2 _ hpre (k, v) (by simp)
      have hswap : compare k k' = (compare k' k).swap := OrientedCmp.eq_swap
      rw [hbehind, hfront] at hswap
      cases hswap
    · obtain ⟨rfl, rfl⟩ := Prod.mk.inj heq
      rw [compare_self] at hbehind
      cases hbehind
    · exact hpost

/-! ### The front of a list -/

section Front

variable {α : Type*} {l l' : List α} {p : α → Bool} {n : ℕ}

/-- What satisfies a condition that passes to earlier elements is the front of the list. -/
theorem filter_append_filter_not (h : l.Pairwise fun a b => p b = true → p a = true) :
    l.filter p ++ l.filter (fun a => !p a) = l := by
  induction l with
  | nil => rfl
  | cons a l ih =>
    obtain ⟨ha, hl⟩ := pairwise_cons.mp h
    by_cases hp : p a = true
    · rw [filter_cons_of_pos hp, filter_cons_of_neg (by simp [hp]), cons_append, ih hl]
    · have hnone : ∀ b ∈ l, ¬ p b = true := fun b hb hpb => hp (ha b hb hpb)
      rw [filter_cons_of_neg hp, filter_cons_of_pos (by simp [hp]),
        filter_eq_nil_iff.mpr hnone, nil_append,
        filter_eq_self.mpr fun b hb => by simpa using hnone b hb]

/-- Two lists with the same elements in front start with them. -/
theorem take_eq_of_filter_eq (hord : l'.Pairwise fun a b => p b = true → p a = true)
    (hlen : (l.take n).length = n) (hin : ∀ a ∈ l.take n, p a = true)
    (hout : ∀ a ∈ l.drop n, ¬ p a = true) (hfilter : l.filter p = l'.filter p) :
    l'.take n = l.take n := by
  have hfront : l.filter p = l.take n := by
    conv_lhs => rw [← take_append_drop n l]
    rw [filter_append, filter_eq_self.mpr hin, filter_eq_nil_iff.mpr hout,
      append_nil]
  rw [← filter_append_filter_not hord, ← hfilter, hfront, take_append_of_le_length hlen.ge,
    take_take, Nat.min_self]

end Front

end Ranges

end Loams.Data
