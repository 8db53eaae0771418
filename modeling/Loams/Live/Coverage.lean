/-
# What the index of read sets finds
-/

import Loams.Live.ReadSet

namespace Loams.Live

open List Loams.Data Loams.Control Program Std.ExtTreeMap
open AugmentedTree (Annotated Valid depth_node raise)

/-! ## Operations -/

/-- What is done to an index. Inserting a subscription that is there replaces its read
set. -/
inductive Operation
  | insert (id : SubId) (rs : ReadSet)
  | remove (id : SubId)

/-- One operation on the index. -/
def ReadSetIndex.apply (index : ReadSetIndex) : Operation → ReadSetIndex
  | .insert id rs => index.insert id rs
  | .remove id => index.remove id

/-- The index after a sequence of operations. -/
def run (ops : List Operation) : ReadSetIndex := ops.foldl ReadSetIndex.apply {}

/-- The read set of each subscription: the last one inserted, unless it was removed. -/
def record (latest : SubId → Option ReadSet) : Operation → SubId → Option ReadSet
  | .insert id rs => Function.update latest id (some rs)
  | .remove id => Function.update latest id none

/-- The read set that every subscription inserted last. -/
def latest (ops : List Operation) : SubId → Option ReadSet := ops.foldl record fun _ => none

/-! ## Sorted ranges -/

section Dedup

variable {α : Type} [DecidableEq α]

theorem mem_dedup {l : List α} {a : α} : a ∈ dedup l ↔ a ∈ l := by
  fun_induction dedup l with
  | case1 => rfl
  | case2 => rfl
  | case3 b l ih => simpa using ih
  | case4 b c l hne ih => rw [mem_cons, ih, mem_cons (b := b)]

/-- A sorted list without repetitions in a row has none at all. -/
theorem nodup_dedup [LinearOrder α] {l : List α} (h : l.Pairwise (· ≤ ·)) : (dedup l).Nodup := by
  fun_induction dedup l with
  | case1 => exact nodup_nil
  | case2 a => exact nodup_singleton a
  | case3 b l ih => exact ih (Pairwise.of_cons h)
  | case4 b c l hne ih =>
    rw [nodup_cons, mem_dedup]
    refine ⟨fun hmem => hne ?_, ih (Pairwise.of_cons h)⟩
    have hbc : b ≤ c := rel_of_pairwise_cons h mem_cons_self
    rcases mem_cons.mp hmem with heq | hmem
    · exact heq
    · exact hbc.antisymm (rel_of_pairwise_cons (Pairwise.of_cons h) hmem)

end Dedup

theorem nodup_normalized (ranges : List KeyRange) : (normalized ranges).Nodup := by
  apply nodup_dedup
  exact pairwise_mergeSort' (· ≤ ·) _

theorem mem_normalized {ranges : List KeyRange} {lo : Key} {hi : Upper} :
    toLex (lo, hi) ∈ normalized ranges ↔
      ∃ r ∈ ranges, r.isEmpty = false ∧ r.lo = lo ∧ Upper.of r = hi := by
  rw [normalized, mem_dedup, mem_mergeSort]
  simp [and_assoc]

/-! ## Points and ranges of one subscription -/

namespace ReadSetIndex

variable {index : ReadSetIndex} {id id' : SubId} {points : PointMap} {key key' : Key}

/-- The subscriptions that read a point. -/
def readers (points : PointMap) (key : Key) : Finset SubId := points[key]?.getD ∅

theorem readers_insert (points : PointMap) (key key' : Key) (ids : Finset SubId) :
    readers (points.insert key ids) key' = if key = key' then ids else readers points key' := by
  rw [readers, get_insert]
  split_ifs <;> rfl

theorem mem_readers_addPoint :
    id' ∈ readers (addPoint id points key) key' ↔
      id' ∈ readers points key' ∨ (id' = id ∧ key' = key) := by
  rw [addPoint, readers_insert]
  split_ifs with hkey
  · subst hkey
    rw [Finset.mem_insert, or_comm]
    simp [readers]
  · simp [Ne.symm hkey]

theorem mem_readers_dropPoint :
    id' ∈ readers (dropPoint id points key) key' ↔
      id' ∈ readers points key' ∧ ¬ (id' = id ∧ key' = key) := by
  unfold dropPoint
  cases hget : points[key]? with
  | none =>
    refine ⟨fun hmem => ⟨hmem, ?_⟩, And.left⟩
    rintro ⟨-, rfl⟩
    simp [readers, hget] at hmem
  | some ids =>
    have hold : readers points key = ids := by simp [readers, hget]
    dsimp only
    split_ifs with hlast
    · -- The last reader of the point goes, and the point with it.
      have hgone : readers (points.erase key) key' =
          if key = key' then ∅ else readers points key' := by
        rw [readers, get_erase]
        split_ifs <;> rfl
      rw [hgone]
      split_ifs with hkey
      · subst hkey
        rw [hold, ← hlast, Finset.mem_erase]
        tauto
      · simp [Ne.symm hkey]
    · rw [readers_insert]
      split_ifs with hkey
      · subst hkey
        rw [hold, Finset.mem_erase]
        tauto
      · simp [Ne.symm hkey]

theorem mem_readers_foldl_addPoint {l : List Key} :
    id' ∈ readers (l.foldl (addPoint id) points) key' ↔
      id' ∈ readers points key' ∨ (id' = id ∧ key' ∈ l) := by
  induction l generalizing points with
  | nil => simp
  | cons key l ih =>
    rw [foldl_cons, ih, mem_readers_addPoint, mem_cons]
    tauto

theorem mem_readers_foldl_dropPoint {l : List Key} :
    id' ∈ readers (l.foldl (dropPoint id) points) key' ↔
      id' ∈ readers points key' ∧ ¬ (id' = id ∧ key' ∈ l) := by
  induction l generalizing points with
  | nil => simp
  | cons key l ih =>
    rw [foldl_cons, ih, mem_readers_dropPoint, mem_cons]
    tauto

/-- The tree of an index is in order, balanced and annotated, and its nodes are
counted. -/
structure Sound (index : ReadSetIndex) : Prop where
  valid : Valid RangeKey.hi index.tree
  count : index.ranges = index.tree.toList.length

/-- A range with its subscription. -/
def rangeKey (range : Key ×ₗ Upper) (id : SubId) : RangeKey :=
  .mk (ofLex range).1 (ofLex range).2 id

theorem rangeKey_injective : Function.Injective (rangeKey · id) := by
  intro range range' h
  have h₁ : (ofLex range).1 = (ofLex range').1 := congrArg RangeKey.lo h
  have h₂ : (ofLex range).2 = (ofLex range').2 := congrArg RangeKey.hi h
  exact Prod.ext h₁ h₂

variable {range : Key ×ₗ Upper} {k : RangeKey} {out : Finset SubId}
variable {t : AugmentedTree RangeKey Upper}

section

variable (h : index.Sound)
include h

theorem Sound.addRange (hnew : rangeKey range id ∉ index.tree.toList) :
    (index.addRange id range).Sound where
  valid := h.valid.insert
  count := by
    show index.ranges + 1 = _
    rw [h.count]
    exact (AugmentedTree.length_insert h.valid.ordered hnew).symm

theorem Sound.dropRange (id : SubId) (range : Key ×ₗ Upper) : (index.dropRange id range).Sound where
  valid := h.valid.remove
  count := by
    have hfound : (index.tree.remove RangeKey.hi (rangeKey range id)).2 = true ↔
        rangeKey range id ∈ index.tree.toList :=
      (AugmentedTree.remove_spec h.valid.ordered).2
    show (if (index.tree.remove RangeKey.hi (rangeKey range id)).2 then index.ranges - 1
      else index.ranges) = (index.tree.remove RangeKey.hi (rangeKey range id)).1.toList.length
    split_ifs with hmem
    · have hlen : index.tree.toList.length =
          (index.tree.remove RangeKey.hi (rangeKey range id)).1.toList.length + 1 :=
        AugmentedTree.length_remove h.valid.ordered (hfound.mp hmem)
      rw [h.count, hlen, Nat.add_sub_cancel]
    · -- A range that is not there leaves the tree as it is.
      rw [h.count, (AugmentedTree.remove_spec h.valid.ordered).1, filter_eq_self.mpr]
      intro k hk
      simpa using fun heq : k = rangeKey range id => hmem (hfound.mpr (heq ▸ hk))

theorem mem_addRange :
    k ∈ (index.addRange id range).tree.toList ↔ k = rangeKey range id ∨ k ∈ index.tree.toList :=
  AugmentedTree.mem_insert h.valid.ordered

/-- The ranges of a subscription are put into a tree that has none of them. -/
theorem foldl_addRange {l : List (Key ×ₗ Upper)} (hnodup : l.Nodup)
    (hnew : ∀ range ∈ l, rangeKey range id ∉ index.tree.toList) :
    (l.foldl (addRange id) index).Sound ∧
      (∀ k, k ∈ (l.foldl (addRange id) index).tree.toList ↔
        k ∈ index.tree.toList ∨ ∃ range ∈ l, k = rangeKey range id) ∧
      (l.foldl (addRange id) index).points = index.points ∧
      (l.foldl (addRange id) index).entries = index.entries := by
  induction l generalizing index with
  | nil => exact ⟨h, by simp, rfl, rfl⟩
  | cons range l ih =>
    rw [nodup_cons] at hnodup
    have hnext : ∀ range' ∈ l, rangeKey range' id ∉ (index.addRange id range).tree.toList := by
      intro range' hrange' hmem
      rcases (mem_addRange h).mp hmem with heq | hmem
      · exact hnodup.1 (rangeKey_injective heq ▸ hrange')
      · exact hnew range' (mem_cons_of_mem _ hrange') hmem
    obtain ⟨hsound, hmem, hpoints, hentries⟩ :=
      ih (h.addRange (hnew range mem_cons_self)) hnodup.2 hnext
    refine ⟨hsound, fun k => ?_, hpoints, hentries⟩
    rw [foldl_cons, hmem, mem_addRange h]
    simp only [mem_cons, exists_eq_or_imp]
    tauto

end

theorem foldl_dropRange (id : SubId) (l : List (Key ×ₗ Upper)) (h : index.Sound) :
    (l.foldl (dropRange id) index).Sound ∧
      (∀ k, k ∈ (l.foldl (dropRange id) index).tree.toList ↔
        k ∈ index.tree.toList ∧ ∀ range ∈ l, k ≠ rangeKey range id) ∧
      (l.foldl (dropRange id) index).points = index.points ∧
      (l.foldl (dropRange id) index).entries = index.entries := by
  induction l generalizing index with
  | nil => exact ⟨h, by simp, rfl, rfl⟩
  | cons range l ih =>
    obtain ⟨hsound, hmem, hpoints, hentries⟩ := ih (h.dropRange id range)
    refine ⟨hsound, fun k => ?_, hpoints, hentries⟩
    rw [foldl_cons, hmem, dropRange, AugmentedTree.mem_remove h.valid.ordered, ← rangeKey]
    simp only [mem_cons, forall_eq_or_imp, and_assoc]

/-! ## The latest read sets -/

/-- The index holds the given read sets and nothing else. -/
structure Holds (index : ReadSetIndex) (latest : SubId → Option ReadSet) : Prop where
  sound : index.Sound
  entries : ∀ id, index.entries[id]? =
    (latest id).map fun rs => ⟨rs.points, normalized rs.ranges⟩
  readers : ∀ key id, id ∈ readers index.points key ↔ ∃ rs ∈ latest id, key ∈ rs.points
  tree : ∀ range id, rangeKey range id ∈ index.tree.toList ↔
    ∃ rs ∈ latest id, range ∈ normalized rs.ranges

variable {latest : SubId → Option ReadSet}

theorem holds_empty : ({} : ReadSetIndex).Holds fun _ => none where
  sound := ⟨AugmentedTree.valid_nil, rfl⟩
  entries id := by simp
  readers key id := by simp [ReadSetIndex.readers]
  tree range id := by simp

theorem rangeKey_inj {range' : Key ×ₗ Upper} :
    rangeKey range id = rangeKey range' id' ↔ range = range' ∧ id = id' := by
  constructor
  · intro h
    obtain rfl : id = id' := congrArg RangeKey.id h
    exact ⟨rangeKey_injective h, rfl⟩
  · rintro ⟨rfl, rfl⟩
    rfl

/-- A removal takes the read set of its subscription out. -/
theorem Holds.remove (h : index.Holds latest) (id : SubId) :
    (index.remove id).Holds (Function.update latest id none) := by
  unfold ReadSetIndex.remove
  have hentry := h.entries id
  cases hlatest : latest id with
  | none =>
    -- Nothing was there, and the record does not change.
    have hsame : Function.update latest id none = latest := by
      rw [← hlatest, Function.update_eq_self]
    rw [hlatest] at hentry
    rw [hentry, hsame]
    exact h
  | some rs =>
    rw [hlatest] at hentry
    rw [hentry]
    dsimp only [Option.map_some]
    generalize hmid : ({ index with
      entries := index.entries.erase id
      points := rs.points.foldl (dropPoint id) index.points } : ReadSetIndex) = mid
    have hsound : mid.Sound := by rw [← hmid]; exact ⟨h.sound.valid, h.sound.count⟩
    obtain ⟨hsound', hmem, hpoints, hentries⟩ :=
      foldl_dropRange id (normalized rs.ranges) hsound
    refine ⟨hsound', fun id' => ?_, fun key id' => ?_, fun range id' => ?_⟩
    · rw [hentries, ← hmid, get_erase]
      by_cases hid : id = id'
      · subst hid
        simp
      · rw [if_neg hid, Function.update_of_ne (Ne.symm hid), h.entries]
    · rw [hpoints, ← hmid, mem_readers_foldl_dropPoint, h.readers]
      by_cases hid : id' = id
      · subst hid
        simp [hlatest]
      · simp [hid]
    · rw [hmem, ← hmid, h.tree]
      simp only [ne_eq, rangeKey_inj, not_and]
      by_cases hid : id' = id
      · subst hid
        simp [hlatest, -Lex.forall]
      · simp [hid]

/-- Insertion puts the read set into an index that has none of the subscription. -/
theorem Holds.insert (h : index.Holds latest) (id : SubId) (rs : ReadSet) :
    (index.insert id rs).Holds (Function.update latest id (some rs)) := by
  have hrem := h.remove id
  unfold ReadSetIndex.insert
  generalize index.remove id = index at hrem
  dsimp only
  generalize hmid : ({ index with
    points := rs.points.foldl (addPoint id) index.points } : ReadSetIndex) = mid
  have hsound : mid.Sound := by rw [← hmid]; exact ⟨hrem.sound.valid, hrem.sound.count⟩
  have hnew : ∀ range ∈ normalized rs.ranges, rangeKey range id ∉ mid.tree.toList := by
    intro range _ hmem
    rw [← hmid] at hmem
    obtain ⟨rs', hrs', -⟩ := (hrem.tree range id).mp hmem
    rw [Function.update_self] at hrs'
    cases hrs'
  obtain ⟨hsound', hmem, hpoints, hentries⟩ :=
    foldl_addRange hsound (nodup_normalized rs.ranges) hnew
  refine ⟨⟨hsound'.valid, hsound'.count⟩, fun id' => ?_, fun key id' => ?_, fun range id' => ?_⟩
  · rw [hentries, ← hmid, get_insert]
    by_cases hid : id = id'
    · subst hid
      simp
    · rw [if_neg hid, hrem.entries, Function.update_of_ne (Ne.symm hid),
        Function.update_of_ne (Ne.symm hid)]
  · dsimp only
    rw [hpoints, ← hmid, mem_readers_foldl_addPoint, hrem.readers]
    by_cases hid : id' = id
    · subst hid
      simp
    · simp [hid]
  · dsimp only
    rw [hmem, ← hmid, hrem.tree]
    simp only [rangeKey_inj]
    by_cases hid : id' = id
    · subst hid
      simp
    · simp [hid]

/-- Every sequence of operations leaves an index of the latest read sets. -/
theorem holds_run (ops : List Operation) : (run ops).Holds (Live.latest ops) := by
  suffices hfold : ∀ (index : ReadSetIndex) (latest : SubId → Option ReadSet), index.Holds latest →
      (ops.foldl apply index).Holds (ops.foldl record latest) from hfold _ _ holds_empty
  induction ops with
  | nil => exact fun _ _ h => h
  | cons op ops ih =>
    intro index latest h
    apply ih
    cases op with
    | insert id rs => exact h.insert id rs
    | remove id => exact h.remove id

/-! ## Searches -/

theorem above_iff {upper : Upper} : upper.above key = true ↔ (key : WithTop Key) < upper := by
  induction upper using WithTop.recTopCoe with
  | top => exact iff_of_true rfl (WithTop.coe_lt_top key)
  | coe hi => simp [Upper.above, WithTop.coe_lt_coe]

theorem contains_iff {r : KeyRange} :
    r.contains key = true ↔ r.lo ≤ key ∧ (Upper.of r).above key = true := by
  rw [above_iff, Upper.of]
  cases hhi : r.hi.isEmpty <;> simp [KeyRange.contains, hhi]

/-- A range that holds a key is kept. -/
theorem isEmpty_of_contains {r : KeyRange} (h : r.contains key = true) : r.isEmpty = false := by
  simp only [KeyRange.contains, Bool.and_eq_true, decide_eq_true_eq, Bool.or_eq_true] at h
  obtain ⟨hlo, hhi⟩ := h
  rcases hhi with hhi | hhi
  · simp [KeyRange.isEmpty, hhi]
  · simp [KeyRange.isEmpty, hlo.trans_lt hhi]

/-- A read set covers a key by one of its points, or by one of the ranges that are kept
of it. -/
theorem covers_iff {rs : ReadSet} : rs.covers key = true ↔ key ∈ rs.points ∨
      ∃ range ∈ normalized rs.ranges, (ofLex range).1 ≤ key ∧ (ofLex range).2.above key = true := by
  simp only [ReadSet.covers, Bool.or_eq_true, List.contains_iff_mem, List.any_eq_true]
  refine or_congr_right ⟨?_, ?_⟩
  · rintro ⟨r, hr, hcontains⟩
    exact ⟨toLex (r.lo, Upper.of r),
      mem_normalized.mpr ⟨r, hr, isEmpty_of_contains hcontains, rfl, rfl⟩,
      contains_iff.mp hcontains⟩
  · rintro ⟨range, hrange, hcover⟩
    obtain ⟨r, hr, -, hlo, hhi⟩ := mem_normalized.mp hrange
    refine ⟨r, hr, contains_iff.mpr ?_⟩
    rw [hlo, hhi]
    exact hcover

theorem mem_foldl_insert_id {l : List RangeKey} :
    id ∈ l.foldl (fun out k => Insert.insert k.id out) out ↔ id ∈ out ∨ ∃ k ∈ l, k.id = id := by
  induction l generalizing out with
  | nil => simp
  | cons k l ih =>
    rw [foldl_cons, ih, Finset.mem_insert]
    simp only [mem_cons, exists_eq_or_imp, eq_comm (a := id)]
    tauto

/-- A search adds the subscriptions whose read set covers the key, and no others. -/
theorem Holds.mem_stabKey (h : index.Holds latest) :
    id ∈ index.stabKey key out ↔ id ∈ out ∨ ∃ rs ∈ latest id, rs.covers key = true := by
  have hbegun : ∀ x y : RangeKey, x ≤ y → decide (y.lo ≤ key) = true →
      decide (x.lo ≤ key) = true := by
    intro x y hxy hy
    rw [decide_eq_true_eq] at hy ⊢
    exact (Prod.Lex.monotone_fst x y hxy).trans hy
  have habove : ∀ a b : Upper, a ≤ b → a.above key = true → b.above key = true := by
    intro a b hab ha
    rw [above_iff] at ha ⊢
    exact ha.trans_le hab
  rw [stabKey, AugmentedTree.stab_eq_foldl hbegun habove h.sound.valid.ordered
    h.sound.valid.annotated, mem_foldl_insert_id, Finset.mem_union, or_assoc]
  refine or_congr_right ?_
  have hpoints : id ∈ index.points[key]?.getD ∅ ↔ _ := h.readers key id
  rw [hpoints]
  simp only [mem_filter, Bool.and_eq_true, decide_eq_true_eq, covers_iff]
  constructor
  · rintro (⟨rs, hrs, hkey⟩ | ⟨k, ⟨hmem, hlo, hhi⟩, rfl⟩)
    · exact ⟨rs, hrs, .inl hkey⟩
    · obtain ⟨rs, hrs, hrange⟩ := (h.tree (toLex (k.lo, k.hi)) k.id).mp hmem
      exact ⟨rs, hrs, .inr ⟨_, hrange, hlo, hhi⟩⟩
  · rintro ⟨rs, hrs, hkey | ⟨range, hrange, hlo, hhi⟩⟩
    · exact .inl ⟨rs, hrs, hkey⟩
    · exact .inr ⟨rangeKey range id, ⟨(h.tree range id).mpr ⟨rs, hrs, hrange⟩, hlo, hhi⟩, rfl⟩

/-! ## The check of the tree -/

/-- The largest end that a subtree keeps. -/
def top : AugmentedTree RangeKey Upper → Option Upper
  | .nil => none
  | .node _ m _ _ _ => some m

/-- The largest of a node's end and of what its children keep is what the node keeps. -/
theorem max?_top {m : Upper} {h : ℕ} {l r : AugmentedTree RangeKey Upper}
    (ht : Annotated RangeKey.hi (.node k m h l r)) :
    [some k.hi, top l, top r].reduceOption.max? = some m := by
  have hm : m = raise (raise k.hi l) r :=
    ht.2.2.unique (AugmentedTree.annotated_update ht.1 ht.2.1).2.2
  rw [hm]
  cases l <;> cases r <;> simp [top, max_assoc]

/-- The walk over a valid tree whose keys come after the key before passes every check,
counts the nodes, and ends at the last key. -/
theorem walk_exec (ht : Valid RangeKey.hi t) (prev : Option RangeKey) (n : ℕ)
    (hprev : ∀ p ∈ prev, ∀ k ∈ t.toList, p < k) :
    (walk t).exec (prev, n) =
      (.ok (t.depth, top t), (t.toList.getLast?.or prev, n + t.toList.length)) := by
  induction t generalizing prev n with
  | nil => simp [walk, top]
  | node k m h l r ihl ihr =>
    obtain ⟨ho, hb, ha⟩ := ht
    obtain ⟨hol, hor, hlk, hkr⟩ := AugmentedTree.ordered_node.mp ho
    have hmax := max?_top ha
    obtain ⟨hbl, hbr, hh, hlr, hrl⟩ := hb
    obtain ⟨hal, har, -⟩ := ha
    rw [depth_node] at hh
    have hleft := ihl ⟨hol, hbl, hal⟩ prev n fun p hp x hx => hprev p hp x (by simp [hx])
    have hright := ihr ⟨hor, hbr, har⟩ (some k) (n + l.toList.length + 1)
      fun p hp x hx => Option.mem_some.mp hp ▸ hkr x hx
    have hbefore : ∀ p ∈ l.toList.getLast?.or prev, p < k := by
      intro p hp
      rcases Option.or_eq_some_iff.mp hp with hlast | ⟨-, hp⟩
      · exact hlk p (mem_of_getLast? hlast)
      · exact hprev p hp k (by simp)
    have hlast :
        ((l.toList ++ k :: r.toList).getLast?.or prev) = r.toList.getLast?.or (some k) := by
      rw [getLast?_append, getLast?_cons]
      cases r.toList.getLast? <;> simp
    have hlen : n + l.toList.length + 1 + r.toList.length =
        n + (l.toList ++ k :: r.toList).length := by
      simp only [length_append, length_cons]
      omega
    rw [walk, exec_bind_of_ok hleft]
    simp only [exec_read_bind, require, if_pos hbefore,
      exec_ok_bind, exec_update_bind]
    rw [exec_bind_of_ok hright]
    simp only [if_pos (And.intro hlr hrl), if_pos hh, if_pos hmax, exec_ok_bind,
      exec_pure, AugmentedTree.toList_node]
    rw [hlast, ← hlen, depth_node, ← hh, hmax]
    rfl

theorem Sound.checkInvariants (h : index.Sound) : index.checkInvariants = .ok () := by
  have hwalk := walk_exec h.valid none 0 fun p hp => by cases hp
  rw [ReadSetIndex.checkInvariants, hwalk]
  simp [h.count]

end ReadSetIndex

/-- After any sequence of insertions, replacements and removals, whatever the read
sets, the tree is in order, balanced and annotated with the largest ends, its check
passes, and a search for any key finds exactly the subscriptions whose latest read set
covers it. -/
theorem read_set_index_correct (ops : List Operation) :
    (run ops).tree.Ordered ∧ (run ops).tree.Balanced ∧
      Annotated RangeKey.hi (run ops).tree ∧
      (run ops).checkInvariants = .ok () ∧
      ∀ key id, id ∈ (run ops).stabKey key ∅ ↔ ∃ rs ∈ latest ops id, rs.covers key = true := by
  have h := ReadSetIndex.holds_run ops
  refine ⟨h.sound.valid.ordered, h.sound.valid.balanced, h.sound.valid.annotated,
    h.sound.checkInvariants, fun key id => ?_⟩
  rw [h.mem_stabKey]
  simp

end Loams.Live
