/-
# Placement of a resource
-/

import Loams.Data.ByteKeys
import Loams.Meta.Types
import Mathlib.Data.Finset.Card
import Mathlib.Data.Prod.Lex

namespace Loams.Hot

open List Loams.Data Loams.Meta

section Spread

variable {α ζ : Type*} [DecidableEq ζ] (zone : α → ζ)

/-- The loop that fills the next places from the nodes that are left; what it leaves
follows. -/
def spread (zones : Finset ζ) : ℕ → Finset ζ → List α → List α
  | 0, _, rest => rest
  | _ + 1, _, [] => []
  | k + 1, used, first :: others =>
    let rest := first :: others
    let pick :=
      if used.card < zones.card then (rest.findIdx? fun n => zone n ∉ used).getD 0 else 0
    let node := rest.getD pick first
    node :: spread zones k (insert (zone node) used) (rest.eraseIdx pick)

/-- The zones of the nodes. -/
def zonesOf (l : List α) : Finset ζ := (l.map zone).toFinset

/-- Every node with whether it is the first of an unused zone. -/
def flagged : Finset ζ → List α → List (Bool × α)
  | _, [] => []
  | used, n :: l => (decide (zone n ∉ used), n) :: flagged (insert (zone n) used) l

/-- All nodes, the first of the unused zones before the others. -/
def arranged (used : Finset ζ) (l : List α) : List α :=
  ((flagged zone used l).filter (·.1) ++ (flagged zone used l).filter (!·.1)).map Prod.snd

variable {zone} {used zones : Finset ζ} {l a b : List α} {n : α} {k : ℕ}

theorem flagged_append : flagged zone used (a ++ b) =
    flagged zone used a ++ flagged zone (used ∪ zonesOf zone a) b := by
  induction a generalizing used with
  | nil => simp [flagged, zonesOf]
  | cons n a ih => simp [flagged, ih, zonesOf]

theorem flagged_of_used (h : ∀ n ∈ l, zone n ∈ used) : flagged zone used l = l.map (false, ·) := by
  induction l with
  | nil => rfl
  | cons n l ih =>
    obtain ⟨hn, hl⟩ := forall_mem_cons.mp h
    simp [flagged, hn, ih hl]

theorem arranged_of_used (h : ∀ n ∈ l, zone n ∈ used) : arranged zone used l = l := by
  simp [arranged, flagged_of_used h, filter_map, Function.comp_def]

/-- The first node of an unused zone comes first. -/
theorem arranged_eq_cons (ha : ∀ m ∈ a, zone m ∈ used) (hn : zone n ∉ used) :
    arranged zone used (a ++ n :: b) = n :: arranged zone (insert (zone n) used) (a ++ b) := by
  have hzones : used ∪ zonesOf zone a = used := by
    simpa [zonesOf, Finset.subset_iff] using ha
  have ha' : ∀ m ∈ a, zone m ∈ insert (zone n) used :=
    fun m hm => Finset.mem_insert_of_mem (ha m hm)
  simp [arranged, flagged_append, hzones, flagged_of_used ha, flagged_of_used ha', flagged, hn,
    filter_map, Function.comp_def]

/-- A turn of the loop takes the first node of an unused zone, or the first node when every
zone is used. -/
theorem spread_succ (hzones : used ∪ zonesOf zone l = zones) (hl : l ≠ []) :
    ∃ a n b, l = a ++ n :: b ∧ (zone n ∈ used → used = zones) ∧
      spread zone zones (k + 1) used l =
        n :: spread zone zones k (insert (zone n) used) (a ++ b) ∧
      arranged zone used l = n :: arranged zone (insert (zone n) used) (a ++ b) := by
  obtain ⟨c, l, rfl⟩ := exists_cons_of_ne_nil hl
  cases hfind : (c :: l).find? fun n => zone n ∉ used with
  | some n =>
    obtain ⟨hn, a, b, heq, ha⟩ := find?_eq_some_iff_append.mp hfind
    replace hn : zone n ∉ used := of_decide_eq_true hn
    replace ha : ∀ m ∈ a, zone m ∈ used := by simpa using ha
    have hcard : used.card < zones.card := by
      refine Finset.card_lt_card (hzones ▸ Finset.ssubset_iff.mpr ⟨zone n, hn, ?_⟩)
      exact Finset.insert_subset (by simp [zonesOf, heq]) Finset.subset_union_left
    have hpick : (c :: l).findIdx? (fun n => decide (zone n ∉ used)) = some a.length := by
      rw [heq, findIdx?_append, findIdx?_eq_none_iff.mpr (by simpa using ha)]
      simp [findIdx?_cons, hn]
    refine ⟨a, n, b, heq, fun h => absurd h hn, ?_, heq ▸ arranged_eq_cons ha hn⟩
    simp only [spread, hcard, ↓reduceIte, hpick, Option.getD_some]
    simp [heq, eraseIdx_append_of_length_le]
  | none =>
    have hpick : (c :: l).findIdx? (fun n => decide (zone n ∉ used)) = none := by
      simpa using hfind
    replace hfind : ∀ n ∈ c :: l, zone n ∈ used := by simpa using hfind
    refine ⟨[], c, l, rfl, fun _ => ?_, ?_, ?_⟩
    · rw [← hzones, Finset.left_eq_union]
      simpa [zonesOf, Finset.subset_iff] using hfind
    · simp only [spread, hpick, Option.getD_none, ite_self]
      simp
    · rw [arranged_of_used hfind, nil_append, arranged_of_used fun n hn =>
        Finset.mem_insert_of_mem (hfind n (mem_cons_of_mem c hn))]

/-- Spreading permutes the nodes and reaches as many zones as it can. -/
theorem spread_spec (hzones : used ∪ zonesOf zone l = zones) : (spread zone zones k used l).Perm l ∧
      (spread zone zones k used l).take k = (arranged zone used l).take k ∧
      (used ∪ zonesOf zone ((spread zone zones k used l).take k)).card =
        min (used.card + k) zones.card := by
  induction k generalizing used l with
  | zero =>
    have hle : used.card ≤ zones.card := Finset.card_le_card (hzones ▸ Finset.subset_union_left)
    simpa [spread, zonesOf] using hle
  | succ k ih =>
    rcases eq_or_ne l [] with rfl | hl
    · obtain rfl : used = zones := by simpa [zonesOf] using hzones
      simp [spread, arranged, flagged, zonesOf]
    obtain ⟨a, n, b, rfl, hn, hspread, harranged⟩ := spread_succ (k := k) hzones hl
    have hrest : insert (zone n) used ∪ zonesOf zone (a ++ b) = zones := by
      rw [← hzones]
      ext z
      simp [zonesOf]
    obtain ⟨hperm, htake, hcard⟩ := ih hrest
    have hunion (l) : used ∪ zonesOf zone (n :: l) = insert (zone n) used ∪ zonesOf zone l := by
      simp [zonesOf]
    rw [hspread, harranged, take_succ_cons, take_succ_cons, hunion, htake, ← htake, hcard]
    refine ⟨(hperm.cons n).trans perm_middle.symm, rfl, ?_⟩
    by_cases hused : zone n ∈ used
    · obtain rfl := hn hused
      rw [Finset.insert_eq_of_mem hused]
      omega
    · rw [Finset.card_insert_of_notMem hused]
      omega

/-- With one zone more in use, the first node of that zone comes later. -/
theorem flagged_insert (zone : α → ζ) (used : Finset ζ) (z : ζ) (l : List α) :
    ∃ a b, ∃ m : Option α,
    flagged zone used l = a ++ (m.toList.map (true, ·) ++ b) ∧
      flagged zone (insert z used) l = a ++ (m.toList.map (false, ·) ++ b) := by
  induction l generalizing used with
  | nil => exact ⟨[], [], none, rfl, rfl⟩
  | cons n l ih =>
    by_cases hz : zone n ∉ used ∧ zone n = z
    · obtain ⟨hn, rfl⟩ := hz
      exact ⟨[], flagged zone (insert (zone n) used) l, some n, by simp [flagged, hn]⟩
    · obtain ⟨a, b, m, hl, hl'⟩ := ih (insert (zone n) used)
      refine ⟨(decide (zone n ∉ used), n) :: a, b, m, by rw [flagged, hl, cons_append], ?_⟩
      rw [flagged, Finset.insert_comm, hl', cons_append]
      simp
      tauto

/-- A new node is put in, and at most one other node moves back. -/
theorem arranged_insert (zone : α → ζ) (used : Finset ζ) (a b : List α) (x : α) :
    ∃ p q s t, ∃ m : Option α,
    arranged zone used (a ++ x :: b) = p ++ x :: (q ++ (s ++ (m.toList ++ t))) ∧
      arranged zone used (a ++ b) = p ++ (q ++ (m.toList ++ (s ++ t))) := by
  by_cases hx : zone x ∈ used ∪ zonesOf zone a
  · refine ⟨((flagged zone used (a ++ b)).filter (·.1) ++
      (flagged zone used a).filter (!·.1)).map Prod.snd, [], [],
      ((flagged zone (used ∪ zonesOf zone a) b).filter (!·.1)).map Prod.snd, none, ?_, ?_⟩ <;>
      simp [arranged, flagged_append, flagged, hx, Finset.insert_eq_of_mem hx]
  · -- the node leads its zone, so the one that did moves back
    obtain ⟨c, d, m, hb, hb'⟩ := flagged_insert zone (used ∪ zonesOf zone a) (zone x) b
    refine ⟨((flagged zone used a).filter (·.1)).map Prod.snd, (c.filter (·.1)).map Prod.snd,
      (d.filter (·.1) ++ (flagged zone used a).filter (!·.1) ++ c.filter (!·.1)).map Prod.snd,
      (d.filter (!·.1)).map Prod.snd, m, ?_, ?_⟩ <;>
      simp [arranged, flagged_append, flagged, hx, hb, hb', filter_map, Function.comp_def]

variable [DecidableEq α] {x : α}

theorem idxOf_insert_le (hne : n ≠ x) (m : Option α) (p q s t : List α) :
    idxOf n (p ++ (q ++ (m.toList ++ (s ++ t)))) ≤
      idxOf n (p ++ x :: (q ++ (s ++ (m.toList ++ t)))) := by
  simp only [idxOf_append, idxOf_cons, beq_eq_false_iff_ne.mpr hne.symm]
  cases m <;> grind

/-- A new node takes the place of one node at most, and none that it does not come before. -/
theorem take_arranged_insert : (∀ n ∈ (arranged zone used (a ++ x :: b)).take k,
      n = x ∨ n ∈ (arranged zone used (a ++ b)).take k) ∧
    (x ∉ (arranged zone used (a ++ x :: b)).take k →
      (arranged zone used (a ++ b)).take k = (arranged zone used (a ++ x :: b)).take k) := by
  obtain ⟨p, q, s, t, m, hx, heq⟩ := arranged_insert zone used a b x
  rw [hx, heq]
  constructor
  · intro n hn
    refine or_iff_not_imp_left.mpr fun hne => ?_
    have hmem := mem_of_mem_take hn
    rw [mem_take_iff_idxOf_lt hmem] at hn
    rw [mem_take_iff_idxOf_lt (by simp [hne] at hmem ⊢; tauto)]
    -- no node but the new one comes earlier than before
    exact lt_of_le_of_lt (idxOf_insert_le hne m p q s t) hn
  · intro hx
    have hk : k ≤ p.length := by
      by_contra hk
      obtain ⟨j, hj⟩ := Nat.exists_eq_add_of_lt (not_le.mp hk)
      simp [hj, take_append, Nat.add_assoc] at hx
    rw [take_append_of_le_length hk, take_append_of_le_length hk]

end Spread

/-- A registered node. -/
structure NodeDescriptor where
  nodeId : ℕ
  /-- Its role `query`. -/
  query : Bool
  zone : String
  deriving DecidableEq

/-- What is placed. -/
inductive ResourceKind
  | collection
  deriving DecidableEq

/-- The byte of the kind in the hashed key. -/
def ResourceKind.tag : ResourceKind → UInt8
  | .collection => 0

/-- What is placed, of which namespace. -/
structure PlacementKey where
  ns : NamespaceId
  kind : ResourceKind
  id : ℕ
  shard : Option ℕ

/-- The key of a whole collection. -/
def PlacementKey.collection (ns : NamespaceId) (cid : CollectionId) : PlacementKey :=
  ⟨ns, .collection, cid, none⟩

section Ranking

variable (xxh3 : Bytes → UInt64) (key : PlacementKey)

/-- The hash of the key together with the node. -/
def rendezvousScore (nodeId : ℕ) : UInt64 :=
  xxh3 (beBytes 8 key.ns ++ beBytes 8 key.id ++ beBytes 8 nodeId ++
    if key.kind ≠ .collection ∨ key.shard.isSome then
      key.kind.tag :: beBytes 4 (key.shard.getD 0) else [])

/-- The score from high to low, then the id. -/
def sortKey (node : NodeDescriptor) : ℕᵒᵈ ×ₗ ℕ :=
  toLex (.toDual (rendezvousScore xxh3 key node.nodeId).toNat, node.nodeId)

/-- The nodes that serve queries, best first. -/
def sorted (nodes : List NodeDescriptor) : List NodeDescriptor :=
  (nodes.filter (·.query)).mergeSort fun a b => sortKey xxh3 key a ≤ sortKey xxh3 key b

/-- The sorted nodes, spread over the zones. -/
def ranking (nodes : List NodeDescriptor) (replication : ℕ) : List NodeDescriptor :=
  let rest := sorted xxh3 key nodes
  spread (·.zone) (zonesOf (·.zone) rest) replication ∅ rest

/-- The first `replication` nodes of the ranking. -/
def ownersOf (nodes : List NodeDescriptor) (replication : ℕ) : List NodeDescriptor :=
  (ranking xxh3 key nodes replication).take replication

/-- The nodes that hold a collection. -/
def owners (ns : NamespaceId) (cid : CollectionId) :
    List NodeDescriptor → ℕ → List NodeDescriptor :=
  ownersOf xxh3 (.collection ns cid)

variable {xxh3 key} {nodes others : List NodeDescriptor} {x : NodeDescriptor} {r : ℕ}

theorem sorted_perm : (sorted xxh3 key nodes).Perm (nodes.filter (·.query)) := mergeSort_perm _ _

theorem pairwise_sorted :
    (sorted xxh3 key nodes).Pairwise (Order.Preimage (sortKey xxh3 key) (· ≤ ·)) :=
  pairwise_mergeSort' (Order.Preimage (sortKey xxh3 key) (· ≤ ·)) _

variable (xxh3 key) in
/-- Nodes with distinct ids have one order, so a node is inserted into it. -/
theorem sorted_insert (hids : (nodes.map (·.nodeId)).Nodup) (hperm : nodes.Perm (x :: others))
    (hx : x.query) : ∃ a b, sorted xxh3 key nodes = a ++ x :: b ∧
      sorted xxh3 key others = a ++ b := by
  have hsort : (sorted xxh3 key nodes).Perm (x :: sorted xxh3 key others) := by
    refine sorted_perm.trans ((hperm.filter _).trans ?_)
    rw [filter_cons_of_pos hx]
    exact sorted_perm.symm.cons x
  obtain ⟨a, b, heq⟩ := append_of_mem (hsort.symm.subset mem_cons_self)
  rw [heq] at hsort
  have hrest : (sorted xxh3 key others).Perm (a ++ b) :=
    (perm_middle.symm.trans hsort).cons_inv.symm
  have hsub : (a ++ b).Sublist (sorted xxh3 key nodes) := by simp [heq]
  refine ⟨a, b, heq, hrest.eq_of_pairwise (fun n m hn hm hnm hmn => ?_) pairwise_sorted
    (pairwise_sorted.sublist hsub)⟩
  have hmem (n) (hn : n ∈ a ++ b) : n ∈ nodes :=
    (mem_filter.mp (sorted_perm.subset (hsub.subset hn))).1
  refine inj_on_of_nodup_map hids (hmem n (hrest.subset hn)) (hmem m hm) ?_
  exact congrArg (fun p => (ofLex p).2) (le_antisymm hnm hmn)

/-- The owners of a resource are spread over as many zones as they can be, a node that is
added only takes a place of its own, and a node that owns nothing can be removed. -/
theorem placement_spreads_and_is_stable (xxh3 : Bytes → UInt64) (key : PlacementKey) (r : ℕ)
    (nodes : List NodeDescriptor) (hids : (nodes.map (·.nodeId)).Nodup) :
    (ranking xxh3 key nodes r).Perm (nodes.filter (·.query)) ∧
    (ownersOf xxh3 key nodes r).length = min r (nodes.filter (·.query)).length ∧
    (zonesOf (·.zone) (ownersOf xxh3 key nodes r)).card =
      min r (zonesOf (·.zone) (nodes.filter (·.query))).card ∧
    ∀ x others, nodes.Perm (x :: others) → x.query →
      (∀ n ∈ ownersOf xxh3 key nodes r, n = x ∨ n ∈ ownersOf xxh3 key others r) ∧
      (x ∉ ownersOf xxh3 key nodes r →
        ownersOf xxh3 key others r = ownersOf xxh3 key nodes r) := by
  have hspec (nodes) := spread_spec (k := r) (Finset.empty_union
    (zonesOf NodeDescriptor.zone (sorted xxh3 key nodes)))
  have hperm : (ranking xxh3 key nodes r).Perm _ := (hspec nodes).1.trans sorted_perm
  have howners (nodes) : ownersOf xxh3 key nodes r = _ := (hspec nodes).2.1
  refine ⟨hperm, by rw [ownersOf, length_take, hperm.length_eq], ?_,
    fun x others hx hquery => ?_⟩
  · have hzones : zonesOf NodeDescriptor.zone (sorted xxh3 key nodes) =
        zonesOf (·.zone) (nodes.filter (·.query)) := toFinset_eq_of_perm _ _ (sorted_perm.map _)
    rw [← hzones]
    simpa [ownersOf, ranking] using (hspec nodes).2.2
  · obtain ⟨a, b, hnodes, hothers⟩ := sorted_insert xxh3 key hids hx hquery
    rw [howners, howners, hnodes, hothers]
    exact take_arranged_insert

theorem placement_spreads_and_is_stable_two_zones :
    (zonesOf (·.zone) (owners (fun _ => 0) 1 7
      [⟨1, true, "a"⟩, ⟨2, true, "a"⟩, ⟨3, true, "b"⟩] 2)).card = 2 :=
  (placement_spreads_and_is_stable (fun _ => 0) (.collection 1 7) 2 _ (by decide)).2.2.1.trans
    (by decide)

end Ranking

end Loams.Hot
