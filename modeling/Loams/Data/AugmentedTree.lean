/-
# Balanced trees annotated with a maximum

A search tree whose nodes keep their height and the largest mark of the keys below.
-/

import Mathlib.Data.List.Basic
import Mathlib.Order.Bounds.Basic

namespace Loams.Data

open List hiding beq_eq_decide

/-- A tree with keys `κ` and marks `β`: each node keeps the largest mark of its
subtree and its height. -/
inductive AugmentedTree (κ β : Type)
  | nil
  | node (key : κ) (max : β) (height : ℕ) (left right : AugmentedTree κ β)
  deriving DecidableEq

namespace AugmentedTree

variable {κ β σ : Type}

/-- The keys from left to right. -/
def toList : AugmentedTree κ β → List κ
  | nil => []
  | node k _ _ l r => l.toList ++ k :: r.toList

@[simp] theorem toList_nil : (nil : AugmentedTree κ β).toList = [] := rfl

@[simp] theorem toList_node (k : κ) (m : β) (h : ℕ) (l r : AugmentedTree κ β) :
    (node k m h l r).toList = l.toList ++ k :: r.toList := rfl

/-- The height a tree says it has. -/
def height : AugmentedTree κ β → ℕ
  | nil => 0
  | node _ _ h _ _ => h

@[simp] theorem height_nil : (nil : AugmentedTree κ β).height = 0 := rfl

@[simp] theorem height_node (k : κ) (m : β) (h : ℕ) (l r : AugmentedTree κ β) :
    (node k m h l r).height = h := rfl

/-- The left subtree. -/
def left : AugmentedTree κ β → AugmentedTree κ β
  | nil => nil
  | node _ _ _ l _ => l

/-- The right subtree. -/
def right : AugmentedTree κ β → AugmentedTree κ β
  | nil => nil
  | node _ _ _ _ r => r

section Operations

variable [LinearOrder β] (mark : κ → β)

/-- The larger of a mark and what a child says its largest is. -/
def raise (m : β) : AugmentedTree κ β → β
  | nil => m
  | node _ m' _ _ _ => if m < m' then m' else m

/-- A node with its height and its largest mark computed from its children. -/
def update (k : κ) (l r : AugmentedTree κ β) : AugmentedTree κ β :=
  node k (raise (raise (mark k) l) r) (1 + max l.height r.height) l r

/-- The left child becomes the root. -/
def rotateRight : AugmentedTree κ β → AugmentedTree κ β
  | node k _ _ (node lk _ _ ll lr) r => update mark lk ll (update mark k lr r)
  | t => t

/-- The right child becomes the root. -/
def rotateLeft : AugmentedTree κ β → AugmentedTree κ β
  | node k _ _ l (node rk _ _ rl rr) => update mark rk (update mark k l rl) rr
  | t => t

/-- Restores the balance of a node whose children are balanced and differ in height by
at most two. -/
def balance (k : κ) (l r : AugmentedTree κ β) : AugmentedTree κ β :=
  match update mark k l r with
  | nil => nil
  | node k m h l r =>
    if r.height + 1 < l.height then
      -- A left child that leans right is turned first.
      let l' := if l.left.height < l.right.height then rotateLeft mark l else l
      rotateRight mark (node k m h l' r)
    else if l.height + 1 < r.height then
      let r' := if r.right.height < r.left.height then rotateRight mark r else r
      rotateLeft mark (node k m h l r')
    else node k m h l r

/-- The smallest key of a node with the given children, and the rest. -/
def takeMin (k : κ) : AugmentedTree κ β → AugmentedTree κ β → κ × AugmentedTree κ β
  | nil, r => (k, r)
  | node lk _ _ ll lr, r =>
    let (min, rest) := takeMin lk ll lr
    (min, balance mark k rest r)

/-- What is left of a node without its key. -/
def join : AugmentedTree κ β → AugmentedTree κ β → AugmentedTree κ β
  | nil, nil => nil
  | l@(node ..), nil => l
  | nil, r@(node ..) => r
  | l@(node ..), node rk _ _ rl rr =>
    let (min, rest) := takeMin mark rk rl rr
    balance mark min l rest

section Search

variable [LinearOrder κ]

/-- Adds a key; a key that is there already changes nothing. -/
def insert : AugmentedTree κ β → κ → AugmentedTree κ β
  | nil, new => node new (mark new) 1 nil nil
  | node k m h l r, new =>
    match compare k new with
    | .gt => balance mark k (insert l new) r
    | .lt => balance mark k l (insert r new)
    | .eq => node k m h l r

/-- Takes a key out, and tells whether it was there. -/
def remove : AugmentedTree κ β → κ → AugmentedTree κ β × Bool
  | nil, _ => (nil, false)
  | node k _ _ l r, old =>
    match compare k old with
    | .gt =>
      let (l', found) := remove l old
      (balance mark k l' r, found)
    | .lt =>
      let (r', found) := remove r old
      (balance mark k l r', found)
    | .eq => (join mark l r, true)

end Search

/-- Visits the keys that have begun and whose mark is still above, from left to right.
A subtree whose largest mark is not above is skipped, and so is all that lies to the
right of a key that has not begun. -/
def stab (begun : κ → Bool) (above : β → Bool) (visit : σ → κ → σ) :
    AugmentedTree κ β → σ → σ
  | nil, out => out
  | node k m _ l r, out =>
    if above m then
      let out := stab begun above visit l out
      if begun k then
        let out := if above (mark k) then visit out k else out
        stab begun above visit r out
      else out
    else out

/-! ## What a tree keeps -/

/-- The height that a tree really has. -/
def depth : AugmentedTree κ β → ℕ
  | nil => 0
  | node _ _ _ l r => 1 + max l.depth r.depth

/-- The keys are in order, each once. -/
def Ordered [LinearOrder κ] (t : AugmentedTree κ β) : Prop := t.toList.Pairwise (· < ·)

/-- At every node the children differ in height by at most one, and the height that is
kept is the height of the subtree. -/
def Balanced : AugmentedTree κ β → Prop
  | nil => True
  | node k m h l r =>
    l.Balanced ∧ r.Balanced ∧ h = (node k m h l r).depth ∧ l.depth ≤ r.depth + 1 ∧
      r.depth ≤ l.depth + 1

/-- Every node keeps the largest mark of the keys of its subtree. -/
def Annotated : AugmentedTree κ β → Prop
  | nil => True
  | node k m h l r =>
    l.Annotated ∧ r.Annotated ∧ IsGreatest {b | ∃ x ∈ (node k m h l r).toList, mark x = b} m

variable {mark} {k new old : κ} {m : β} {h : ℕ} {l r t : AugmentedTree κ β}

/-! ## The keys in order -/

@[simp] theorem toList_update (k : κ) (l r : AugmentedTree κ β) :
    (update mark k l r).toList = l.toList ++ k :: r.toList := rfl

@[simp] theorem toList_rotateRight (t : AugmentedTree κ β) :
    (rotateRight mark t).toList = t.toList := by
  rcases t with _ | ⟨k, m, h, _ | ⟨lk, lm, lh, ll, lr⟩, r⟩ <;> simp [rotateRight]

@[simp] theorem toList_rotateLeft (t : AugmentedTree κ β) :
    (rotateLeft mark t).toList = t.toList := by
  rcases t with _ | ⟨k, m, h, l, _ | ⟨rk, rm, rh, rl, rr⟩⟩ <;> simp [rotateLeft]

@[simp] theorem toList_balance (k : κ) (l r : AugmentedTree κ β) :
    (balance mark k l r).toList = l.toList ++ k :: r.toList := by
  simp only [balance, update]
  split_ifs <;> simp

theorem toList_takeMin (k : κ) (l r : AugmentedTree κ β) :
    (takeMin mark k l r).1 :: (takeMin mark k l r).2.toList = l.toList ++ k :: r.toList := by
  induction l generalizing k r with
  | nil => rfl
  | node lk lm lh ll lr ihl _ =>
    have hmin := ihl lk lr
    simp only [takeMin, toList_balance, toList_node]
    rw [← cons_append, hmin]

theorem toList_join (l r : AugmentedTree κ β) : (join mark l r).toList = l.toList ++ r.toList := by
  rcases l with _ | ⟨lk, lm, lh, ll, lr⟩ <;> rcases r with _ | ⟨rk, rm, rh, rl, rr⟩
  · rfl
  · rfl
  · simp [join]
  · simp only [join, toList_balance, toList_takeMin, toList_node]

variable [LinearOrder κ]

omit [LinearOrder β] in
theorem ordered_node :
    (node k m h l r).Ordered ↔
      l.Ordered ∧ r.Ordered ∧ (∀ x ∈ l.toList, x < k) ∧ ∀ x ∈ r.toList, k < x := by
  simp only [Ordered, toList_node, pairwise_append, pairwise_cons, mem_cons]
  constructor
  · rintro ⟨hl, ⟨hkr, hr⟩, hlr⟩
    exact ⟨hl, hr, fun x hx => hlr x hx k (.inl rfl), hkr⟩
  · rintro ⟨hl, hr, hlk, hkr⟩
    refine ⟨hl, ⟨hkr, hr⟩, fun x hx y hy => ?_⟩
    rcases hy with rfl | hy
    · exact hlk x hx
    · exact (hlk x hx).trans (hkr y hy)

omit [LinearOrder β] in
theorem filter_of_below {xs : List κ} (h : ∀ x ∈ xs, x < k) :
    xs.filter (· < k) = xs ∧ xs.filter (k < ·) = [] ∧ (xs.filter fun x => !decide (x = k)) = xs :=
  ⟨filter_eq_self.mpr fun x hx => by simpa using h x hx,
    filter_eq_nil_iff.mpr fun x hx => by simpa using (h x hx).le,
    filter_eq_self.mpr fun x hx => by simpa using (h x hx).ne⟩

omit [LinearOrder β] in
theorem filter_of_above {xs : List κ} (h : ∀ x ∈ xs, k < x) :
    xs.filter (· < k) = [] ∧ xs.filter (k < ·) = xs ∧ (xs.filter fun x => !decide (x = k)) = xs :=
  ⟨filter_eq_nil_iff.mpr fun x hx => by simpa using (h x hx).le,
    filter_eq_self.mpr fun x hx => by simpa using h x hx,
    filter_eq_self.mpr fun x hx => by simpa using (h x hx).ne'⟩

section

variable (ho : t.Ordered)
include ho

/-- Insertion puts the key between those below and those above it. -/
theorem toList_insert :
    (insert mark t new).toList = t.toList.filter (· < new) ++ new :: t.toList.filter (new < ·) := by
  induction t with
  | nil => rfl
  | node k m h l r ihl ihr =>
    obtain ⟨hl, hr, hlk, hkr⟩ := ordered_node.mp ho
    simp only [insert, toList_node, filter_append, filter_cons]
    cases hcmp : compare k new with
    | gt =>
      have hlt : new < k := compare_gt_iff_gt.mp hcmp
      have hright := filter_of_above fun x hx => hlt.trans (hkr x hx)
      simp [ihl hl, hright, hlt, hlt.le]
    | lt =>
      have hlt : k < new := compare_lt_iff_lt.mp hcmp
      have hleft := filter_of_below fun x hx => (hlk x hx).trans hlt
      simp [ihr hr, hleft, hlt, hlt.le]
    | eq =>
      obtain rfl : k = new := compare_eq_iff_eq.mp hcmp
      simp [filter_of_below hlk, filter_of_above hkr]

/-- Removal drops the key, and tells whether it was there. -/
theorem remove_spec : (remove mark t old).1.toList = t.toList.filter (· ≠ old) ∧
    ((remove mark t old).2 = true ↔ old ∈ t.toList) := by
  induction t with
  | nil => simp [remove]
  | node k m h l r ihl ihr =>
    obtain ⟨hl, hr, hlk, hkr⟩ := ordered_node.mp ho
    simp only [remove, toList_node, filter_append, filter_cons, mem_append, mem_cons]
    cases hcmp : compare k old with
    | gt =>
      have hlt : old < k := compare_gt_iff_gt.mp hcmp
      have hright := filter_of_above fun x hx => hlt.trans (hkr x hx)
      have hnot : old ∉ r.toList := fun hmem => (hlt.trans (hkr old hmem)).false
      simp [ihl hl, hright, hnot, hlt.ne, hlt.ne']
    | lt =>
      have hlt : k < old := compare_lt_iff_lt.mp hcmp
      have hleft := filter_of_below fun x hx => (hlk x hx).trans hlt
      have hnot : old ∉ l.toList := fun hmem => ((hlk old hmem).trans hlt).false
      simp [ihr hr, hleft, hnot, hlt.ne, hlt.ne']
    | eq =>
      obtain rfl : k = old := compare_eq_iff_eq.mp hcmp
      simp [toList_join, filter_of_below hlk, filter_of_above hkr]

theorem Ordered.insert : (AugmentedTree.insert mark t new).Ordered := by
  rw [Ordered, toList_insert ho, pairwise_append, pairwise_cons]
  refine ⟨Pairwise.filter _ ho, ⟨by simp, Pairwise.filter _ ho⟩, ?_⟩
  intro x hx y hy
  have hxnew : x < new := by simpa using (mem_filter.mp hx).2
  rcases mem_cons.mp hy with rfl | hy
  · exact hxnew
  · have hnewy : new < y := by simpa using (mem_filter.mp hy).2
    exact hxnew.trans hnewy

theorem mem_insert {x : κ} : x ∈ (insert mark t new).toList ↔ x = new ∨ x ∈ t.toList := by
  rw [toList_insert ho]
  simp only [mem_append, mem_cons, mem_filter, decide_eq_true_eq]
  constructor
  · rintro (⟨hx, -⟩ | rfl | ⟨hx, -⟩)
    · exact .inr hx
    · exact .inl rfl
    · exact .inr hx
  · rintro (rfl | hx)
    · exact .inr (.inl rfl)
    · rcases lt_trichotomy x new with hlt | rfl | hgt
      · exact .inl ⟨hx, hlt⟩
      · exact .inr (.inl rfl)
      · exact .inr (.inr ⟨hx, hgt⟩)

theorem Ordered.remove : (AugmentedTree.remove mark t old).1.Ordered := by
  rw [Ordered, (remove_spec ho).1]
  exact Pairwise.filter _ ho

theorem mem_remove {x : κ} : x ∈ (remove mark t old).1.toList ↔ x ∈ t.toList ∧ x ≠ old := by
  rw [(remove_spec ho).1]
  simp

end

omit [LinearOrder β] in
theorem Ordered.nodup (ho : t.Ordered) : t.toList.Nodup := ho.imp ne_of_lt

/-- A new key makes the tree one longer. -/
theorem length_insert (ho : t.Ordered) (hnew : new ∉ t.toList) :
    (insert mark t new).toList.length = t.toList.length + 1 := by
  have hperm : (insert mark t new).toList.Perm (new :: t.toList) := by
    apply (perm_ext_iff_of_nodup ho.insert.nodup (nodup_cons.mpr ⟨hnew, ho.nodup⟩)).mpr
    intro x
    rw [mem_insert ho, mem_cons]
  exact hperm.length_eq

/-- A key that was there makes the tree one shorter. -/
theorem length_remove (ho : t.Ordered) (hold : old ∈ t.toList) :
    t.toList.length = (remove mark t old).1.toList.length + 1 := by
  have herase : (remove mark t old).1.toList = t.toList.erase old := by
    rw [(remove_spec ho).1, ho.nodup.erase_eq_filter]
    simp [bne, beq_eq_decide]
  rw [herase, length_erase_add_one hold]

end Operations

/-! ## Marks -/

section Marks

variable [LinearOrder β] {mark : κ → β} {k : κ} {m : β} {h : ℕ} {l r t : AugmentedTree κ β}

/-- The marks of the keys of a tree. -/
def marks (mark : κ → β) (t : AugmentedTree κ β) : Set β := {b | ∃ x ∈ t.toList, mark x = b}

@[simp] theorem raise_nil : raise m (nil : AugmentedTree κ β) = m := rfl

@[simp] theorem raise_node {m' : β} : raise m (node k m' h l r) = max m m' := by
  rw [raise, max_def_lt]

theorem isGreatest_raise {s : Set β} (hm : IsGreatest s m) (ht : Annotated mark t) :
    IsGreatest (s ∪ marks mark t) (raise m t) := by
  cases t with
  | nil => simpa [marks] using hm
  | node k m' h l r =>
    have hmax : IsGreatest (marks mark (node k m' h l r)) m' := ht.2.2
    rw [raise_node]
    exact hm.union hmax

theorem annotated_update (hl : Annotated mark l) (hr : Annotated mark r) :
    Annotated mark (update mark k l r) := by
  refine ⟨hl, hr, ?_⟩
  have hk : IsGreatest {mark k} (mark k) := isGreatest_singleton
  have hall := isGreatest_raise (isGreatest_raise hk hl) hr
  have hmarks : {mark k} ∪ marks mark l ∪ marks mark r =
      {b | ∃ x ∈ l.toList ++ k :: r.toList, mark x = b} := by
    ext b
    simp only [marks, Set.mem_union, Set.mem_singleton_iff, Set.mem_ofPred_eq, mem_append,
      mem_cons, or_and_right, exists_or, exists_eq_left]
    rw [eq_comm, or_assoc, or_left_comm]
  rwa [hmarks] at hall

/-- The largest mark only depends on the keys. -/
theorem annotated_node_congr {l' r' : AugmentedTree κ β} (ht : Annotated mark (node k m h l r))
    (hl' : Annotated mark l') (hr' : Annotated mark r') (hl : l'.toList = l.toList)
    (hr : r'.toList = r.toList) : Annotated mark (node k m h l' r') := by
  refine ⟨hl', hr', ?_⟩
  rw [toList_node, hl, hr]
  exact ht.2.2

theorem annotated_rotateRight (ht : Annotated mark t) : Annotated mark (rotateRight mark t) := by
  rcases t with _ | ⟨k, m, h, _ | ⟨lk, lm, lh, ll, lr⟩, r⟩
  · exact ht
  · exact ht
  · obtain ⟨⟨hll, hlr, -⟩, hr, -⟩ := ht
    exact annotated_update hll (annotated_update hlr hr)

theorem annotated_rotateLeft (ht : Annotated mark t) : Annotated mark (rotateLeft mark t) := by
  rcases t with _ | ⟨k, m, h, l, _ | ⟨rk, rm, rh, rl, rr⟩⟩
  · exact ht
  · exact ht
  · obtain ⟨hl, ⟨hrl, hrr, -⟩, -⟩ := ht
    exact annotated_update (annotated_update hl hrl) hrr

section

variable (hl : Annotated mark l) (hr : Annotated mark r)
include hl hr

theorem annotated_balance : Annotated mark (balance mark k l r) := by
  have hnode : Annotated mark (update mark k l r) := annotated_update hl hr
  unfold update at hnode
  simp only [balance, update]
  split_ifs
  · exact annotated_rotateRight
      (annotated_node_congr hnode (annotated_rotateLeft hl) hr (toList_rotateLeft l) rfl)
  · exact annotated_rotateRight hnode
  · exact annotated_rotateLeft
      (annotated_node_congr hnode hl (annotated_rotateRight hr) rfl (toList_rotateRight r))
  · exact annotated_rotateLeft hnode
  · exact hnode

theorem annotated_takeMin : Annotated mark (takeMin mark k l r).2 := by
  induction l generalizing k r with
  | nil => exact hr
  | node lk lm lh ll lr ihl _ => exact annotated_balance (ihl hl.1 hl.2.1) hr

theorem annotated_join : Annotated mark (join mark l r) := by
  rcases l with _ | ⟨lk, lm, lh, ll, lr⟩ <;> rcases r with _ | ⟨rk, rm, rh, rl, rr⟩
  · exact hl
  · exact hr
  · exact hl
  · exact annotated_balance hl (annotated_takeMin hr.1 hr.2.1)

end

variable [LinearOrder κ] {new old : κ}

theorem annotated_insert (ht : Annotated mark t) : Annotated mark (insert mark t new) := by
  induction t with
  | nil => exact annotated_update (l := nil) (r := nil) trivial trivial
  | node k m h l r ihl ihr =>
    obtain ⟨hl, hr, hm⟩ := ht
    simp only [insert]
    cases compare k new with
    | gt => exact annotated_balance (ihl hl) hr
    | lt => exact annotated_balance hl (ihr hr)
    | eq => exact ⟨hl, hr, hm⟩

theorem annotated_remove (ht : Annotated mark t) : Annotated mark (remove mark t old).1 := by
  induction t with
  | nil => exact ht
  | node k m h l r ihl ihr =>
    obtain ⟨hl, hr, -⟩ := ht
    simp only [remove]
    cases compare k old with
    | gt => exact annotated_balance (ihl hl) hr
    | lt => exact annotated_balance hl (ihr hr)
    | eq => exact annotated_join hl hr

/-- The pruned search visits exactly the keys that have begun and whose mark is above,
from left to right. -/
theorem stab_eq_foldl {begun : κ → Bool} {above : β → Bool} {visit : σ → κ → σ} {out : σ}
    (hbegun : ∀ x y, x ≤ y → begun y → begun x) (habove : ∀ a b, a ≤ b → above a → above b)
    (ho : t.Ordered) (ha : Annotated mark t) :
    stab mark begun above visit t out =
      (t.toList.filter fun k => begun k && above (mark k)).foldl visit out := by
  induction t generalizing out with
  | nil => rfl
  | node k m h l r ihl ihr =>
    obtain ⟨hl, hr, hlk, hkr⟩ := ordered_node.mp ho
    obtain ⟨hal, har, hmax⟩ := ha
    simp only [stab]
    split_ifs with hm hk hmk
    · rw [ihl hl hal, ihr hr har]
      simp [hk, hmk]
    · rw [ihl hl hal, ihr hr har]
      simp [hk, hmk]
    · -- Nothing from this key on has begun.
      have hnone : (r.toList.filter fun x => begun x && above (mark x)) = [] := by
        refine filter_eq_nil_iff.mpr fun x hx hvisit => hk ?_
        exact hbegun k x (hkr x hx).le (Bool.and_eq_true_iff.mp hvisit).1
      rw [ihl hl hal]
      simp [hk, hnone]
    · -- The largest mark is not above, so none is.
      have hnone : ((node k m h l r).toList.filter fun x => begun x && above (mark x)) = [] := by
        refine filter_eq_nil_iff.mpr fun x hx hvisit => hm ?_
        exact habove _ m (hmax.2 ⟨x, hx, rfl⟩) (Bool.and_eq_true_iff.mp hvisit).2
      rw [hnone]
      rfl

end Marks

/-! ## Heights -/

section Heights

variable {mark : κ → β} {k : κ} {l r t : AugmentedTree κ β}

@[simp] theorem depth_nil : (nil : AugmentedTree κ β).depth = 0 := rfl

@[simp] theorem depth_node (k : κ) (m : β) (h : ℕ) (l r : AugmentedTree κ β) :
    (node k m h l r).depth = 1 + max l.depth r.depth := rfl

theorem Balanced.height_eq (ht : t.Balanced) : t.height = t.depth := by
  cases t with
  | nil => rfl
  | node k m h l r => exact ht.2.2.1

variable [LinearOrder β]

@[simp] theorem depth_update (k : κ) (l r : AugmentedTree κ β) :
    (update mark k l r).depth = 1 + max l.depth r.depth := rfl

theorem balanced_update : (update mark k l r).Balanced ↔
    l.Balanced ∧ r.Balanced ∧ l.depth ≤ r.depth + 1 ∧ r.depth ≤ l.depth + 1 := by
  refine ⟨fun ⟨hl, hr, _, heven⟩ => ⟨hl, hr, heven⟩, fun ⟨hl, hr, heven⟩ => ⟨hl, hr, ?_, heven⟩⟩
  rw [hl.height_eq, hr.height_eq, depth_node]

section Rotations

variable {lk lrk rk rlk : κ} {lm lrm rm rlm : β} {lh lrh rh rlh : ℕ}
  {ll lr lrl lrr rl rr rll rlr : AugmentedTree κ β}

/-! The four rotations, as they rebuild a node from its grandchildren. -/

theorem balance_left (hleft : r.height + 1 < lh) (hturn : ¬ ll.height < lr.height) :
    balance mark k (node lk lm lh ll lr) r = update mark lk ll (update mark k lr r) := by
  simp [balance, update, left, right, rotateRight, hleft, hturn]

theorem balance_left_right (hleft : r.height + 1 < lh)
    (hturn : ll.height < (node lrk lrm lrh lrl lrr).height) :
    balance mark k (node lk lm lh ll (node lrk lrm lrh lrl lrr)) r =
      update mark lrk (update mark lk ll lrl) (update mark k lrr r) := by
  rw [height_node] at hturn
  simp [balance, update, left, right, rotateLeft, rotateRight, hleft, hturn]

theorem balance_right (hright : l.height + 1 < rh) (hturn : ¬ rr.height < rl.height) :
    balance mark k l (node rk rm rh rl rr) = update mark rk (update mark k l rl) rr := by
  have hleft : ¬ rh + 1 < l.height := by omega
  simp [balance, update, left, right, rotateLeft, hleft, hright, hturn]

theorem balance_right_left (hright : l.height + 1 < rh)
    (hturn : rr.height < (node rlk rlm rlh rll rlr).height) :
    balance mark k l (node rk rm rh (node rlk rlm rlh rll rlr) rr) =
      update mark rlk (update mark k l rll) (update mark rk rlr rr) := by
  have hleft : ¬ rh + 1 < l.height := by omega
  rw [height_node] at hturn
  simp [balance, update, left, right, rotateLeft, rotateRight, hleft, hright, hturn]

theorem balance_of_even (hl : l.height ≤ r.height + 1) (hr : r.height ≤ l.height + 1) :
    balance mark k l r = update mark k l r := by
  simp only [balance, update]
  rw [if_neg (by omega), if_neg (by omega)]

end Rotations

/-- The height of a node after its balance was restored: children that differ by one
keep it, and otherwise it is that of the higher child or one more. -/
def RestoredHeight (l r t : AugmentedTree κ β) : Prop :=
  max l.depth r.depth ≤ t.depth ∧ t.depth ≤ 1 + max l.depth r.depth ∧
    (l.depth ≤ r.depth + 1 → r.depth ≤ l.depth + 1 → t.depth = 1 + max l.depth r.depth)

theorem balanced_balance_left (hl : l.Balanced) (hr : r.Balanced) (hlr : l.depth = r.depth + 2) :
    (balance mark k l r).Balanced ∧ RestoredHeight l r (balance mark k l r) := by
  rcases l with _ | ⟨lk, lm, lh, ll, lr⟩
  · simp at hlr
  obtain ⟨hll, hlr', hlh, hb, hb'⟩ := hl
  rw [depth_node] at hlr hlh
  have hleft : r.height + 1 < lh := by rw [hr.height_eq, hlh]; omega
  by_cases hturn : ll.height < lr.height
  · -- The left child leans right, so its right child comes to the top.
    rcases lr with _ | ⟨lrk, lrm, lrh, lrl, lrr⟩
    · simp at hturn
    rw [balance_left_right hleft hturn]
    rw [hll.height_eq, hlr'.height_eq] at hturn
    obtain ⟨hlrl, hlrr, -, hc, hc'⟩ := hlr'
    simp only [depth_node] at *
    simp only [balanced_update, hll, hlrl, hlrr, hr, true_and, RestoredHeight, depth_update,
      depth_node]
    omega
  · rw [balance_left hleft hturn]
    rw [hll.height_eq, hlr'.height_eq] at hturn
    simp only [balanced_update, hll, hlr', hr, true_and, RestoredHeight, depth_update, depth_node]
    omega

theorem balanced_balance_right (hl : l.Balanced) (hr : r.Balanced) (hrl : r.depth = l.depth + 2) :
    (balance mark k l r).Balanced ∧ RestoredHeight l r (balance mark k l r) := by
  rcases r with _ | ⟨rk, rm, rh, rl, rr⟩
  · simp at hrl
  obtain ⟨hrl', hrr, hrh, hb, hb'⟩ := hr
  rw [depth_node] at hrl hrh
  have hright : l.height + 1 < rh := by rw [hl.height_eq, hrh]; omega
  by_cases hturn : rr.height < rl.height
  · rcases rl with _ | ⟨rlk, rlm, rlh, rll, rlr⟩
    · simp at hturn
    rw [balance_right_left hright hturn]
    rw [hrr.height_eq, hrl'.height_eq] at hturn
    obtain ⟨hrll, hrlr, -, hc, hc'⟩ := hrl'
    simp only [depth_node] at *
    simp only [balanced_update, hl, hrll, hrlr, hrr, true_and, RestoredHeight, depth_update,
      depth_node]
    omega
  · rw [balance_right hright hturn]
    rw [hrr.height_eq, hrl'.height_eq] at hturn
    simp only [balanced_update, hl, hrl', hrr, true_and, RestoredHeight, depth_update, depth_node]
    omega

/-- Children that are balanced and differ in height by at most two become a balanced
tree. -/
theorem balanced_balance (mark : κ → β) (k : κ) (hl : l.Balanced) (hr : r.Balanced)
    (hlr : l.depth ≤ r.depth + 2) (hrl : r.depth ≤ l.depth + 2) :
    (balance mark k l r).Balanced ∧ RestoredHeight l r (balance mark k l r) := by
  rcases eq_or_lt_of_le hlr with hlr | hlr
  · exact balanced_balance_left hl hr hlr
  rcases eq_or_lt_of_le hrl with hrl | hrl
  · exact balanced_balance_right hl hr hrl
  rw [balance_of_even (by rw [hl.height_eq, hr.height_eq]; omega)
    (by rw [hl.height_eq, hr.height_eq]; omega)]
  simp only [balanced_update, hl, hr, true_and, RestoredHeight, depth_update, implies_true,
    and_true]
  omega

/-- A balanced tree that is as high as another one, or lower by one. -/
def Lower (t' t : AugmentedTree κ β) : Prop :=
  t'.Balanced ∧ t'.depth ≤ t.depth ∧ t.depth ≤ t'.depth + 1

omit [LinearOrder β] in
theorem Lower.refl (ht : t.Balanced) : Lower t t := ⟨ht, le_rfl, Nat.le_succ _⟩

section

variable {m : β} {h : ℕ} (hlr : l.depth ≤ r.depth + 1) (hrl : r.depth ≤ l.depth + 1)
include hlr hrl

theorem lower_balance (k' : κ) {l' r' : AugmentedTree κ β} (hl : Lower l' l) (hr : Lower r' r) :
    Lower (balance mark k' l' r') (node k m h l r) := by
  obtain ⟨hl', hle, hge⟩ := hl
  obtain ⟨hr', hle', hge'⟩ := hr
  obtain ⟨hbal, hlo, hhi, heven⟩ := balanced_balance mark k' hl' hr' (by omega) (by omega)
  refine ⟨hbal, ?_, ?_⟩ <;> rw [depth_node] <;> omega

theorem lower_takeMin (hl : l.Balanced) (hr : r.Balanced) :
    Lower (takeMin mark k l r).2 (node k m h l r) := by
  induction l generalizing k r m h with
  | nil =>
    rw [depth_nil] at *
    refine ⟨hr, ?_, ?_⟩ <;> simp only [takeMin, depth_node, depth_nil] <;> omega
  | node lk lm lh ll lr ihl _ =>
    obtain ⟨hll, hlr', -, hb, hb'⟩ := hl
    exact lower_balance hlr hrl k (ihl hb hb' hll hlr') (.refl hr)

theorem lower_join (hl : l.Balanced) (hr : r.Balanced) :
    Lower (join mark l r) (node k m h l r) := by
  rcases l with _ | ⟨lk, lm, lh, ll, lr⟩ <;> rcases r with _ | ⟨rk, rm, rh, rl, rr⟩
  · exact ⟨trivial, by simp [join]⟩
  · exact ⟨hr, by simp [join]; omega⟩
  · exact ⟨hl, by simp [join]; omega⟩
  · obtain ⟨hrl', hrr, -, hb, hb'⟩ := hr
    exact lower_balance hlr hrl _ (.refl hl) (lower_takeMin hb hb' hrl' hrr)

end

variable [LinearOrder κ] {new old : κ}

theorem balanced_insert (ht : t.Balanced) :
    (insert mark t new).Balanced ∧ t.depth ≤ (insert mark t new).depth ∧
      (insert mark t new).depth ≤ t.depth + 1 := by
  induction t with
  | nil => exact ⟨⟨trivial, trivial, rfl, by simp⟩, by simp [insert]⟩
  | node k m h l r ihl ihr =>
    obtain ⟨hl, hr, hh, hlr, hrl⟩ := ht
    simp only [insert]
    cases compare k new with
    | gt =>
      obtain ⟨hl', hle, hge⟩ := ihl hl
      obtain ⟨hbal, hlo, hhi, heven⟩ :=
        balanced_balance mark k hl' hr (by omega) (by omega)
      refine ⟨hbal, ?_, ?_⟩ <;> simp only [depth_node] <;> omega
    | lt =>
      obtain ⟨hr', hle, hge⟩ := ihr hr
      obtain ⟨hbal, hlo, hhi, heven⟩ :=
        balanced_balance mark k hl hr' (by omega) (by omega)
      refine ⟨hbal, ?_, ?_⟩ <;> simp only [depth_node] <;> omega
    | eq => exact ⟨⟨hl, hr, hh, hlr, hrl⟩, le_rfl, Nat.le_succ _⟩

theorem lower_remove (ht : t.Balanced) : Lower (remove mark t old).1 t := by
  induction t with
  | nil => exact .refl trivial
  | node k m h l r ihl ihr =>
    obtain ⟨hl, hr, -, hlr, hrl⟩ := ht
    simp only [remove]
    cases compare k old with
    | gt => exact lower_balance hlr hrl k (ihl hl) (.refl hr)
    | lt => exact lower_balance hlr hrl k (.refl hl) (ihr hr)
    | eq => exact lower_join hlr hrl hl hr

end Heights

/-! ## Whole trees -/

section Valid

variable [LinearOrder κ] [LinearOrder β] {mark : κ → β} {t : AugmentedTree κ β} {new old : κ}

/-- A tree in order, balanced, and with the right annotations. -/
structure Valid (mark : κ → β) (t : AugmentedTree κ β) : Prop where
  ordered : t.Ordered
  balanced : t.Balanced
  annotated : Annotated mark t

theorem valid_nil : Valid mark (nil : AugmentedTree κ β) := ⟨Pairwise.nil, trivial, trivial⟩

theorem Valid.insert (ht : Valid mark t) : Valid mark (AugmentedTree.insert mark t new) :=
  ⟨ht.ordered.insert, (balanced_insert ht.balanced).1, annotated_insert ht.annotated⟩

theorem Valid.remove (ht : Valid mark t) : Valid mark (AugmentedTree.remove mark t old).1 :=
  ⟨ht.ordered.remove, (lower_remove ht.balanced).1, annotated_remove ht.annotated⟩

end Valid

end AugmentedTree

end Loams.Data
