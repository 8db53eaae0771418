/-
# The index of read sets
-/

import Loams.Control.Program
import Loams.Data.AugmentedTree
import Loams.Data.OrderedMap
import Mathlib.Data.Finset.Basic
import Mathlib.Data.List.Lex
import Mathlib.Data.List.ReduceOption
import Mathlib.Data.Prod.Lex

namespace Loams.Live

open Loams.Data

/-- A subscription's id. -/
abbrev SubId := ℕ

/-- A stored key. -/
abbrev Key := List UInt8

/-- Point keys and the subscriptions that read them. -/
abbrev PointMap := BTreeMap Key (Finset SubId)

/-- Bytes are ordered as numbers, and keys byte by byte. -/
instance linearOrderByte : LinearOrder UInt8 where
  le_refl := UInt8.le_refl
  le_trans _ _ _ := UInt8.le_trans
  le_antisymm _ _ := UInt8.le_antisymm
  le_total := UInt8.le_total
  lt_iff_le_not_ge a b := by
    rw [UInt8.not_le]
    exact ⟨fun h => ⟨UInt8.le_of_lt h, h⟩, And.right⟩
  toDecidableLE := inferInstance
  toDecidableLT := inferInstance
  toDecidableEq := inferInstance
  min_def _ _ := rfl
  max_def _ _ := rfl

/-! ## Read sets -/

/-- The keys from `lo` on and below `hi`; an empty `hi` is no bound. -/
structure KeyRange where
  lo : Key
  hi : Key
  deriving DecidableEq

namespace KeyRange

/-- The key is in the range; an empty upper end is none. -/
def contains (range : KeyRange) (key : Key) : Bool :=
  range.lo ≤ key && (range.hi.isEmpty || key < range.hi)

/-- No key is in the range. -/
def isEmpty (range : KeyRange) : Bool := !range.hi.isEmpty && range.hi ≤ range.lo

end KeyRange

/-- The keys and ranges that a function read. -/
structure ReadSet where
  points : List Key := []
  ranges : List KeyRange := []
  deriving DecidableEq

/-- Whether a write to the key can change what was read. -/
def ReadSet.covers (rs : ReadSet) (key : Key) : Bool :=
  rs.points.contains key || rs.ranges.any (·.contains key)

/-- The upper end of a range: a key, or the end of all keys, which is above each. -/
abbrev Upper := WithTop Key

namespace Upper

/-- The upper end of a range. -/
def of (range : KeyRange) : Upper := if range.hi.isEmpty then ⊤ else (range.hi : WithTop Key)

/-- Whether the key is below this upper end. -/
def above (upper : Upper) (key : Key) : Bool :=
  match upper with
  | some hi => key < hi
  | none => true

end Upper

/-- What the tree is ordered by: start, end, subscription. -/
abbrev RangeKey := Key ×ₗ (Upper ×ₗ SubId)

namespace RangeKey

/-- Ordered by the lower end first. -/
def mk (lo : Key) (hi : Upper) (id : SubId) : RangeKey := toLex (lo, toLex (hi, id))

/-- The lower end. -/
def lo (k : RangeKey) : Key := (ofLex k).1

/-- The upper end. -/
def hi (k : RangeKey) : Upper := (ofLex (ofLex k).2).1

/-- The subscription. -/
def id (k : RangeKey) : SubId := (ofLex (ofLex k).2).2

end RangeKey

/-! ## The index -/

/-- What one subscription put in the index, so that it can be taken out again. -/
structure Entry where
  points : List Key := []
  ranges : List (Key ×ₗ Upper) := []

/-- The read sets of the subscriptions by key. -/
structure ReadSetIndex where
  points : PointMap := ∅
  tree : AugmentedTree RangeKey Upper := .nil
  ranges : ℕ := 0
  entries : BTreeMap SubId Entry := ∅

/-- Drops each element that equals the one before it. -/
def dedup {α : Type} [DecidableEq α] : List α → List α
  | [] => []
  | [a] => [a]
  | a :: b :: l => if a = b then dedup (b :: l) else a :: dedup (b :: l)

/-- The ranges that hold a key, sorted, each once. -/
def normalized (ranges : List KeyRange) : List (Key ×ₗ Upper) :=
  let kept := (ranges.filter fun r => !r.isEmpty).map fun r => toLex (r.lo, Upper.of r)
  dedup (kept.mergeSort (· ≤ ·))

namespace ReadSetIndex

/-- One point of a subscription. -/
def addPoint (id : SubId) (points : PointMap) (key : Key) : PointMap :=
  points.insert key (insert id (points[key]?.getD ∅))

/-- One range of a subscription. -/
def addRange (id : SubId) (index : ReadSetIndex) (range : Key ×ₗ Upper) : ReadSetIndex :=
  { index with
    tree := index.tree.insert RangeKey.hi (.mk (ofLex range).1 (ofLex range).2 id)
    ranges := index.ranges + 1 }

/-- A point is dropped when its last subscription is. -/
def dropPoint (id : SubId) (points : PointMap) (key : Key) : PointMap :=
  match points[key]? with
  | some ids => if ids.erase id = ∅ then points.erase key else points.insert key (ids.erase id)
  | none => points

/-- Removes a range of a subscription. -/
def dropRange (id : SubId) (index : ReadSetIndex) (range : Key ×ₗ Upper) : ReadSetIndex :=
  let (tree, found) := index.tree.remove RangeKey.hi (.mk (ofLex range).1 (ofLex range).2 id)
  { index with tree := tree, ranges := if found then index.ranges - 1 else index.ranges }

variable (index : ReadSetIndex)

/-- Removes a subscription's read set. -/
def remove (id : SubId) : ReadSetIndex :=
  match index.entries[id]? with
  | none => index
  | some entry =>
    let index := { index with
      entries := index.entries.erase id
      points := entry.points.foldl (dropPoint id) index.points }
    entry.ranges.foldl (dropRange id) index

/-- Indexes a read set, in place of an earlier one of the subscription. -/
def insert (id : SubId) (rs : ReadSet) : ReadSetIndex :=
  let index := index.remove id
  let index := { index with points := rs.points.foldl (addPoint id) index.points }
  let ranges := normalized rs.ranges
  let index := ranges.foldl (addRange id) index
  { index with entries := index.entries.insert id ⟨rs.points, ranges⟩ }

/-- Adds every subscription whose read set covers the key. -/
def stabKey (key : Key) (out : Finset SubId) : Finset SubId :=
  let out := out ∪ index.points[key]?.getD ∅
  index.tree.stab RangeKey.hi (fun k => k.lo ≤ key) (fun upper => upper.above key)
    (fun out k => Insert.insert k.id out) out

/-- The walk over the tree that checks it: the key before, and the nodes so far, are
carried along; each subtree answers its height and its largest end. -/
def walk : AugmentedTree RangeKey Upper →
    Control.Program (Option RangeKey × ℕ) String (ℕ × Option Upper)
  | .nil => pure (0, none)
  | .node k m h l r => do
    let (lh, lmax) ← walk l
    let (prev, _) ← Control.Program.read
    Control.require (∀ p ∈ prev, p < k) "the tree is out of order"
    Control.Program.update fun s => (some k, s.2 + 1)
    let (rh, rmax) ← walk r
    Control.require (lh ≤ rh + 1 ∧ rh ≤ lh + 1) s!"unbalanced: heights {lh} and {rh}"
    Control.require (h = 1 + max lh rh) "a stale height"
    let max := [some k.hi, lmax, rmax].reduceOption.max?
    Control.require (max = some m) "a stale subtree maximum"
    pure (h, max)

/-- Checks the order, the balance, the largest ends and the range count. -/
def checkInvariants : Except String Unit :=
  match (walk index.tree).exec (none, 0) with
  | (.error e, _) => .error e
  | (.ok _, _, count) =>
    Control.require (count = index.ranges) s!"{count} nodes, {index.ranges} counted"

end ReadSetIndex

end Loams.Live
