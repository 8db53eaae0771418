/-
# Ranges of keys made of segments
-/

import Loams.Data.ByteKeys

namespace Loams.Data

open List Std

variable {a b p k r t u : Bytes}

/-! ## Successors -/

theorem successor_cons (x : UInt8) (p : Bytes) :
    successor (x :: p) =
      if successor p = [] then (if x = 255 then [] else [x + 1]) else x :: successor p := by
  rw [successor, successor, reverse_cons, dropWhile_append]
  cases hdrop : p.reverse.dropWhile (· = 255) with
  | nil => by_cases hx : x = 255 <;> simp [hx]
  | cons last rest => simp

theorem successor_append_ne_nil (h : successor p ≠ []) (s : Bytes) : successor (p ++ s) ≠ [] := by
  induction p with
  | nil => exact absurd rfl h
  | cons x p ih =>
    rw [successor_cons] at h
    rw [cons_append, successor_cons]
    by_cases hp : successor p = []
    · rw [if_pos hp] at h
      have hx : x ≠ 255 := fun hx => h (if_pos hx)
      rw [if_neg hx]
      split_ifs <;> simp
    · rw [if_neg (ih hp)]
      simp

/-- Every key is before or continues a run of the largest byte. -/
theorem lt_or_isPrefix_of_successor_eq_nil (h : successor p = []) (k : Bytes) :
    compare k p = .lt ∨ p <+: k := by
  induction p generalizing k with
  | nil => exact .inr List.nil_prefix
  | cons x p ih =>
    rw [successor_cons] at h
    split_ifs at h with hp hx
    cases k with
    | nil => exact .inl rfl
    | cons y k =>
      rw [List.compare_cons_cons, List.cons_prefix_cons]
      rcases eq_or_ne x y with rfl | hne
      · simpa using ih hp k
      · have hlt : compare y x = .lt := by
          rw [compare_eq_lt, UInt8.lt_iff_toNat_lt]
          have hy := y.toNat_lt
          have hxy : y.toNat ≠ x.toNat := fun heq => hne (UInt8.toNat_inj.mp heq).symm
          have hx' : x.toNat = 255 := by rw [hx]; rfl
          omega
        exact .inl (by rw [hlt]; rfl)

theorem compare_succ_byte {x : UInt8} (hx : x ≠ 255) (y : UInt8) :
    compare y (x + 1) = .lt ↔ compare y x = .lt ∨ x = y := by
  have hlast : x.toNat ≠ 255 := fun h => hx (UInt8.toNat_inj.mp h)
  have hnext : (x + 1).toNat = x.toNat + 1 := by
    have := x.toNat_lt
    rw [UInt8.toNat_add]
    simp
    omega
  rw [compare_eq_lt, compare_eq_lt, UInt8.lt_iff_toNat_lt, UInt8.lt_iff_toNat_lt, hnext,
    ← UInt8.toNat_inj]
  omega

/-- The keys before the successor of a prefix are those before the prefix and those that
start with it. -/
theorem lt_successor (h : successor p ≠ []) (k : Bytes) :
    compare k (successor p) = .lt ↔ compare k p = .lt ∨ p <+: k := by
  induction p generalizing k with
  | nil => exact absurd rfl h
  | cons x p ih =>
    cases k with
    | nil =>
      obtain ⟨y, q, hq⟩ := exists_cons_of_ne_nil h
      rw [hq]
      simp
    | cons y k =>
      rw [successor_cons] at h ⊢
      rw [List.compare_cons_cons, List.cons_prefix_cons]
      by_cases hp : successor p = []
      · rw [if_pos hp] at h ⊢
        have hx : x ≠ 255 := fun hx => h (if_pos hx)
        have hrest := lt_or_isPrefix_of_successor_eq_nil hp k
        have hnil : compare k [] ≠ .lt := by cases k <;> simp
        rw [if_neg hx, List.compare_cons_cons, Ordering.then_eq_lt, compare_succ_byte hx,
          Ordering.then_eq_lt]
        rcases eq_or_ne x y with rfl | hne
        · simp [hrest]
        · simp [hne, hne.symm, hnil]
      · rw [if_neg hp, List.compare_cons_cons, Ordering.then_eq_lt, ih hp, Ordering.then_eq_lt]
        rcases eq_or_ne x y with rfl | hne
        · simp
        · simp [hne, hne.symm]

theorem isLE_iff_not_lt {x y : Bytes} : (compare x y).isLE ↔ compare y x ≠ .lt := by
  have hswap : compare y x = (compare x y).swap := OrientedCmp.eq_swap
  rw [hswap]
  cases compare x y <;> simp

theorem isLE_of_isPrefix (h : p <+: k) : (compare p k).isLE := by
  obtain ⟨s, rfl⟩ := h
  have happend := compare_append_left p [] s
  rw [append_nil] at happend
  rw [happend]
  cases s <;> simp

/-- The keys between a prefix and its successor are those that start with it. -/
theorem inRange_successor (h : successor p ≠ []) :
    inRange p (some (successor p)) k = true ↔ p <+: k := by
  rw [inRange, Option.all_some, Bool.and_eq_true, beq_iff_eq, lt_successor h, isLE_iff_not_lt]
  constructor
  · rintro ⟨hle, hlt | hpre⟩
    · exact absurd hlt hle
    · exact hpre
  · exact fun hpre => ⟨isLE_iff_not_lt.mp (isLE_of_isPrefix hpre), .inr hpre⟩

/-- What follows a prefix does not matter to a key that does not start with it. -/
theorem compare_append_of_not_isPrefix (h : ¬ p <+: k) (s : Bytes) :
    compare k (p ++ s) = compare k p := by
  induction p generalizing k with
  | nil => exact absurd nil_prefix h
  | cons x p ih =>
    cases k with
    | nil => rfl
    | cons y k =>
      rw [List.cons_append, List.compare_cons_cons, List.compare_cons_cons]
      rcases eq_or_ne x y with rfl | hne
      · rw [ih fun hp => h (cons_prefix_cons.mpr ⟨rfl, hp⟩)]
      · have hyx : compare y x ≠ .eq := fun heq => hne (LawfulEqOrd.eq_of_compare heq).symm
        cases hcmp : compare y x <;> simp_all

/-! ## Bounds behind a prefix -/

/-- A bound on one side. -/
inductive Bound (α : Type*)
  | unbounded
  | included (v : α)
  | excluded (v : α)

namespace Bound

variable {α β : Type*}

/-- The value of the bound, if it has one, satisfies a property. -/
def All (P : α → Prop) : Bound α → Prop
  | .unbounded => True
  | .included v | .excluded v => P v

/-- The bound with its value replaced. -/
def map (f : α → β) : Bound α → Bound β
  | .unbounded => .unbounded
  | .included v => .included (f v)
  | .excluded v => .excluded (f v)

/-- A value that compares so with the bound's is above it, a lower bound. -/
def above (cmp : α → Ordering) : Bound α → Bool
  | .unbounded => true
  | .included v => cmp v != .lt
  | .excluded v => cmp v == .gt

/-- A value that compares so with the bound's is below it, an upper bound. -/
def below (cmp : α → Ordering) : Bound α → Bool
  | .unbounded => true
  | .included v => cmp v != .gt
  | .excluded v => cmp v == .lt

variable {bound : Bound α} {cmp : β → Ordering} {f : α → β}

theorem All.imp {P Q : α → Prop} (h : bound.All P) (hPQ : ∀ v, P v → Q v) : bound.All Q := by
  cases bound with
  | unbounded => trivial
  | included v | excluded v => exact hPQ v h

theorem above_map : (bound.map f).above cmp = bound.above fun v => cmp (f v) := by
  cases bound <;> rfl

theorem below_map : (bound.map f).below cmp = bound.below fun v => cmp (f v) := by
  cases bound <;> rfl

theorem all_map {P : β → Prop} : (bound.map f).All P ↔ bound.All fun v => P (f v) := by
  cases bound <;> rfl

theorem above_congr {cmp cmp' : α → Ordering} (h : bound.All fun v => cmp v = cmp' v) :
    bound.above cmp = bound.above cmp' := by
  cases bound with
  | unbounded => rfl
  | included v | excluded v => rw [above, above, show cmp v = cmp' v from h]

theorem below_congr {cmp cmp' : α → Ordering} (h : bound.All fun v => cmp v = cmp' v) :
    bound.below cmp = bound.below cmp' := by
  cases bound with
  | unbounded => rfl
  | included v | excluded v => rw [below, below, show cmp v = cmp' v from h]

/-- The first key at or above a lower bound behind a prefix. -/
def lo (base : Bytes) : Bound Bytes → Bytes
  | .unbounded => base
  | .included b => base ++ b
  | .excluded b => successor (base ++ b)

/-- The first key above an upper bound behind a prefix. -/
def hi (base : Bytes) : Bound Bytes → Bytes
  | .unbounded => successor base
  | .included b => successor (base ++ b)
  | .excluded b => base ++ b

/-- What follows the prefix is above a lower bound. A key that goes on where the bound
ends counts as equal to it. -/
def Above (u : Bytes) : Bound Bytes → Prop
  | .unbounded => True
  | .included b => compare u b ≠ .lt
  | .excluded b => ¬ (compare u b = .lt ∨ b <+: u)

/-- What follows the prefix is below an upper bound. -/
def Below (u : Bytes) : Bound Bytes → Prop
  | .unbounded => True
  | .included b => compare u b = .lt ∨ b <+: u
  | .excluded b => compare u b = .lt

end Bound

variable {base : Bytes} {lower upper : Bound Bytes}

section

variable (hbase : successor base ≠ [])
include hbase

theorem Bound.hi_ne_nil : upper.hi base ≠ [] := by
  cases upper with
  | unbounded => exact hbase
  | included b => exact successor_append_ne_nil hbase b
  | excluded b =>
    intro hnil
    rw [(append_eq_nil_iff.mp hnil).1] at hbase
    exact hbase rfl

/-- At or behind the lower end, for keys behind the prefix. -/
theorem isLE_lo : (compare (lower.lo base) (base ++ u)).isLE ↔ lower.Above u := by
  rw [isLE_iff_not_lt, ne_eq]
  cases lower with
  | unbounded => simp [Bound.lo, Bound.Above, isLE_iff_not_lt.mp (isLE_of_isPrefix ⟨u, rfl⟩)]
  | included b => rw [Bound.lo, Bound.Above, compare_append_left]
  | excluded b =>
    rw [Bound.lo, Bound.Above, lt_successor (successor_append_ne_nil hbase b),
      compare_append_left, prefix_append_right_inj]

/-- Before the upper end, for keys behind the prefix. -/
theorem lt_hi : compare (base ++ u) (upper.hi base) = .lt ↔ upper.Below u := by
  cases upper with
  | unbounded => simp [Bound.hi, Bound.Below, lt_successor hbase]
  | included b =>
    rw [Bound.hi, Bound.Below, lt_successor (successor_append_ne_nil hbase b),
      compare_append_left, prefix_append_right_inj]
  | excluded b => rw [Bound.hi, Bound.Below, compare_append_left]

/-- Keys without the prefix are on one side of all bounds behind it. -/
theorem lt_hi_of_not_isPrefix (h : ¬ base <+: k) :
    compare k (upper.hi base) = .lt ↔ compare k base = .lt := by
  have hmore : ∀ b, ¬ base ++ b <+: k := fun b hb => h ((prefix_append base b).trans hb)
  cases upper with
  | unbounded => simp [Bound.hi, lt_successor hbase, h]
  | included b =>
    rw [Bound.hi, lt_successor (successor_append_ne_nil hbase b),
      compare_append_of_not_isPrefix h, or_iff_left (hmore b)]
  | excluded b => rw [Bound.hi, compare_append_of_not_isPrefix h]

theorem isLE_lo_of_not_isPrefix (h : ¬ base <+: k) :
    (compare (lower.lo base) k).isLE ↔ compare k base ≠ .lt := by
  have hmore : ∀ b, ¬ base ++ b <+: k := fun b hb => h ((prefix_append base b).trans hb)
  rw [isLE_iff_not_lt]
  cases lower with
  | unbounded => rfl
  | included b => rw [Bound.lo, compare_append_of_not_isPrefix h]
  | excluded b =>
    rw [Bound.lo, ne_eq, lt_successor (successor_append_ne_nil hbase b),
      compare_append_of_not_isPrefix h, or_iff_left (hmore b)]

/-- A range with bounds behind a prefix holds the keys with the prefix whose rest is
within the bounds. -/
theorem inRange_bounds :
    inRange (lower.lo base) (some (upper.hi base)) k = true ↔
      ∃ u, k = base ++ u ∧ lower.Above u ∧ upper.Below u := by
  have hrange : inRange (lower.lo base) (some (upper.hi base)) k = true ↔
      (compare (lower.lo base) k).isLE ∧ compare k (upper.hi base) = .lt := by
    simp [inRange]
  rw [hrange]
  by_cases hprefix : base <+: k
  · obtain ⟨u, rfl⟩ := hprefix
    rw [isLE_lo hbase, lt_hi hbase]
    constructor
    · exact fun h => ⟨u, rfl, h⟩
    · rintro ⟨v, hv, h⟩
      rwa [append_cancel_left hv]
  · rw [isLE_lo_of_not_isPrefix hbase hprefix, lt_hi_of_not_isPrefix hbase hprefix]
    constructor
    · exact fun h => absurd h.2 h.1
    · rintro ⟨u, rfl, -⟩
      exact absurd (prefix_append base u) hprefix

end

/-! ## Segments -/

/-- Neither of two segments continues the other. -/
def Apart (a b : Bytes) : Prop := (a <+: b → a = b) ∧ (b <+: a → a = b)

theorem Apart.of_length (h : a.length = b.length) : Apart a b :=
  ⟨fun hp => hp.eq_of_length h, fun hp => (hp.eq_of_length h.symm).symm⟩

theorem Apart.prefix_append_iff (h : Apart a b) : b <+: a ++ r ↔ a = b := by
  constructor
  · intro hp
    rcases prefix_or_prefix_of_prefix (prefix_append a r) hp with hab | hba
    · exact h.1 hab
    · exact h.2 hba
  · rintro rfl
    exact prefix_append a r

/-- Segments decide a comparison before what follows them. -/
theorem Apart.compare_append (h : Apart a b) (r t : Bytes) :
    compare (a ++ r) (b ++ t) = (compare a b).then (compare r t) := by
  by_cases heq : a = b
  · rw [heq, compare_append_left, compare_self]
    rfl
  · have hne : compare a b ≠ .eq := fun hcmp => heq (LawfulEqOrd.eq_of_compare hcmp)
    have hb : ¬ b <+: a ++ r := fun hp => heq (h.prefix_append_iff.mp hp)
    have ha : ¬ a <+: b := fun hp => heq (h.1 hp)
    have hswap : ∀ x y : Bytes, compare x y = (compare y x).swap := fun x y => OrientedCmp.eq_swap
    rw [compare_append_of_not_isPrefix hb, hswap (a ++ r) b, compare_append_of_not_isPrefix ha,
      ← hswap a b]
    cases hcmp : compare a b with
    | eq => exact absurd hcmp hne
    | lt => rfl
    | gt => rfl

theorem compare_eq_eq_iff : compare a b = .eq ↔ a = b := LawfulEqCmp.compare_eq_iff_eq

theorem Apart.append_lt_iff (h : Apart a b) : compare (a ++ r) b = .lt ↔ compare a b = .lt := by
  have happend := h.compare_append r []
  rw [append_nil] at happend
  have hnil : compare r [] ≠ .lt := by cases r <;> simp
  rw [happend, Ordering.then_eq_lt]
  simp [hnil]

variable {bound : Bound Bytes}

theorem Bound.above_segment (h : bound.All (Apart a)) :
    bound.Above (a ++ r) ↔ bound.above (compare a) = true := by
  cases bound with
  | unbounded => simp [Bound.Above, Bound.above]
  | included b => simp [Bound.Above, Bound.above, Apart.append_lt_iff h]
  | excluded b =>
    rw [Bound.Above, Bound.above, Apart.append_lt_iff h, Apart.prefix_append_iff h,
      ← compare_eq_eq_iff]
    cases compare a b <;> decide

theorem Bound.below_segment (h : bound.All (Apart a)) :
    bound.Below (a ++ r) ↔ bound.below (compare a) = true := by
  cases bound with
  | unbounded => simp [Bound.Below, Bound.below]
  | included b =>
    rw [Bound.Below, Bound.below, Apart.append_lt_iff h, Apart.prefix_append_iff h,
      ← compare_eq_eq_iff]
    cases compare a b <;> decide
  | excluded b => simp [Bound.Below, Bound.below, Apart.append_lt_iff h]

/-- Segments with a prefix of given segments are equal to them one by one, and what is
left are the segments behind. -/
theorem exists_append_flatten_iff {segs given : List Bytes} (tail : Bytes) {P : Bytes → Prop}
    (h : ∀ pos (hpos : pos < given.length), ∃ seg, segs[pos]? = some seg ∧ Apart seg given[pos]) :
    (∃ u, segs.flatten ++ tail = given.flatten ++ u ∧ P u) ↔
      given <+: segs ∧ P ((segs.drop given.length).flatten ++ tail) := by
  induction given generalizing segs with
  | nil => simp
  | cons b given ih =>
    obtain ⟨a, ha, hab⟩ := h 0 (by simp)
    obtain ⟨segs, rfl⟩ : ∃ rest, segs = a :: rest := by
      cases segs <;> simp_all
    have hrest := ih fun pos hpos => h (pos + 1) (Nat.succ_lt_succ hpos)
    simp only [flatten_cons, append_assoc, length_cons, drop_succ_cons, cons_prefix_cons]
    rcases eq_or_ne a b with rfl | hne
    · simp only [append_cancel_left_eq, hrest, true_and]
    · constructor
      · rintro ⟨u, hu, -⟩
        have hprefix : b <+: a ++ (segs.flatten ++ tail) := hu ▸ prefix_append b _
        exact absurd (hab.prefix_append_iff.mp hprefix) hne
      · rintro ⟨⟨rfl, -⟩, -⟩
        exact absurd rfl hne

end Loams.Data
