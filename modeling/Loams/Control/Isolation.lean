/-
# Snapshot isolation

A transaction reads the snapshot of its start and commits at a later timestamp, unless a
commit in between has a key in common with it.
-/

import Mathlib.Data.List.Infix

namespace Loams.Control

open List

/-- A store that is read and written key by key. -/
structure Keyed (σ K V : Type*) [DecidableEq K] where
  get : σ → K → Option V
  set : σ → K → Option V → σ
  get_set : ∀ s k v k', get (set s k v) k' = if k = k' then v else get s k'

/-- What a transaction asks of the store when it commits. -/
structure Effect (K V : Type*) where
  /-- In the order they were made; `none` deletes. -/
  writes : List (K × Option V) := []
  /-- Keys that must be absent. -/
  inserts : List K := []
  /-- Keys that are claimed but not written. -/
  locks : List K := []

namespace Effect

variable {K V : Type*}

/-- The keys that are written. -/
def written (e : Effect K V) : List K := e.writes.map Prod.fst

end Effect

/-- A committed transaction: what it was asked to do, when it started and committed, what
it answered and what it did. -/
structure Commit (ι ο K V : Type*) where
  tx : ι
  start : ℕ
  ts : ℕ
  out : ο
  effect : Effect K V

section Isolation

variable {σ K V ι ο : Type*} [DecidableEq K] (kv : Keyed σ K V)

/-! ## States -/

namespace Keyed

/-- The state after writes. -/
def apply (s : σ) (writes : List (K × Option V)) : σ := writes.foldl (fun s w => kv.set s w.1 w.2) s

/-- The state after commits. -/
def state (init : σ) (h : List (Commit ι ο K V)) : σ :=
  h.foldl (fun s c => kv.apply s c.effect.writes) init

/-- The state that a transaction started at `t` sees. -/
def snapshot (init : σ) (h : List (Commit ι ο K V)) (t : ℕ) : σ :=
  kv.state init (h.filter fun c => c.ts ≤ t)

variable {kv} {s init : σ} {k : K} {writes : List (K × Option V)}

@[simp] theorem apply_nil : kv.apply s [] = s := rfl

theorem apply_cons (w : K × Option V) (writes : List (K × Option V)) :
    kv.apply s (w :: writes) = kv.apply (kv.set s w.1 w.2) writes := rfl

theorem apply_append (ws ws' : List (K × Option V)) :
    kv.apply s (ws ++ ws') = kv.apply (kv.apply s ws) ws' :=
  foldl_append

theorem apply_concat (ws : List (K × Option V)) (w : K × Option V) :
    kv.apply s (ws ++ [w]) = kv.set (kv.apply s ws) w.1 w.2 := by
  rw [apply_append]
  rfl

theorem get_apply_of_notMem (h : k ∉ writes.map Prod.fst) :
    kv.get (kv.apply s writes) k = kv.get s k := by
  induction writes generalizing s with
  | nil => rfl
  | cons w writes ih =>
    rw [map_cons, mem_cons, not_or] at h
    rw [apply_cons, ih h.2, kv.get_set, if_neg (Ne.symm h.1)]

/-- A key has what was written last, or what it had. -/
theorem get_apply_lookup (writes : List (K × Option V)) :
    kv.get (kv.apply s writes) k = (writes.reverse.lookup k).getD (kv.get s k) := by
  induction writes using reverseRecOn with
  | nil => rfl
  | append_singleton writes w ih =>
    rw [apply_concat, kv.get_set, reverse_append, reverse_singleton, singleton_append,
      lookup_cons, ih]
    by_cases hk : w.1 = k
    · rw [if_pos hk, hk, beq_self_eq_true]
      rfl
    · rw [if_neg hk, beq_false_of_ne (Ne.symm hk)]

/-- A key whose writes all have one value has that value. -/
theorem get_apply_eq {v : Option V} (hmem : (k, v) ∈ writes)
    (hall : ∀ v', (k, v') ∈ writes → v' = v) : kv.get (kv.apply s writes) k = v := by
  rw [get_apply_lookup]
  cases hlookup : writes.reverse.lookup k with
  | none => simpa using lookup_eq_none_iff.mp hlookup (k, v) (mem_reverse.mpr hmem)
  | some v' =>
    obtain ⟨_, _, heq, -⟩ := lookup_eq_some_iff.mp hlookup
    exact hall v' (mem_reverse.mp (by simp [heq]))

/-- Writes of one value. -/
theorem get_apply_map {γ : Type*} (f : γ → K) (v : Option V) (l : List γ) :
    kv.get (kv.apply s (l.map fun c => (f c, v))) k = if k ∈ l.map f then v else kv.get s k := by
  induction l generalizing s with
  | nil => rfl
  | cons c l ih =>
    rw [map_cons, apply_cons, ih, kv.get_set, map_cons]
    grind

/-- The same writes keep two states alike at a key. -/
theorem get_apply_congr {s' : σ} (h : kv.get s k = kv.get s' k) (writes : List (K × Option V)) :
    kv.get (kv.apply s writes) k = kv.get (kv.apply s' writes) k := by
  induction writes generalizing s s' with
  | nil => exact h
  | cons w writes ih =>
    refine ih ?_
    rw [kv.get_set, kv.get_set, h]

variable {h : List (Commit ι ο K V)} {c : Commit ι ο K V}

theorem state_append (h h' : List (Commit ι ο K V)) :
    kv.state init (h ++ h') = kv.state (kv.state init h) h' :=
  foldl_append

theorem state_concat (h : List (Commit ι ο K V)) (c : Commit ι ο K V) :
    kv.state init (h ++ [c]) = kv.apply (kv.state init h) c.effect.writes := by
  rw [state_append]
  rfl

theorem get_state_of_forall_notMem (hall : ∀ c ∈ h, k ∉ c.effect.written) :
    kv.get (kv.state init h) k = kv.get init k := by
  induction h using reverseRecOn with
  | nil => rfl
  | append_singleton h c ih =>
    rw [state_concat, get_apply_of_notMem (hall c (by simp))]
    exact ih fun d hd => hall d (mem_append_left _ hd)

end Keyed

/-! ## Histories -/

variable (keys : Effect K V → List K) (run : ι → ℕ → σ → Option (ο × Effect K V)) (init : σ)

/-- The transaction can commit after the history: it did what it does on the snapshot of
its start, no commit since then has one of its keys, and what it inserts is absent. -/
structure Admissible (h : List (Commit ι ο K V)) (c : Commit ι ο K V) : Prop where
  ran : run c.tx c.start (kv.snapshot init h c.start) = some (c.out, c.effect)
  later : c.start < c.ts
  ordered : ∀ d ∈ h, d.ts < c.ts
  apart : ∀ d ∈ h, c.start < d.ts → ∀ k ∈ keys c.effect, k ∉ keys d.effect
  absent : ∀ k ∈ c.effect.inserts, kv.get (kv.state init h) k = none

/-- The commits of a store, in the order of their timestamps. -/
inductive History : List (Commit ι ο K V) → Prop
  | nil : History []
  | commit {h : List (Commit ι ο K V)} {c : Commit ι ο K V} :
    History h → Admissible kv keys run init h c → History (h ++ [c])

/-- The commit of a transaction that ran on a store. -/
def Commit.ofRun (tx : ι) (start ts : ℕ) (s : σ) (ran : (run tx start s).isSome) : Commit ι ο K V :=
  ⟨tx, start, ts, ((run tx start s).get ran).1, ((run tx start s).get ran).2⟩

variable {kv keys run init} {h h' : List (Commit ι ο K V)} {c : Commit ι ο K V}

theorem history_concat :
    History kv keys run init (h ++ [c]) ↔
      History kv keys run init h ∧ Admissible kv keys run init h c := by
  constructor
  · intro hh
    generalize heq : h ++ [c] = l at hh
    cases hh with
    | nil => simp at heq
    | commit hh hc =>
      obtain ⟨rfl, hcc⟩ := append_inj' heq rfl
      obtain rfl := cons.inj hcc |>.1
      exact ⟨hh, hc⟩
  · exact fun ⟨hh, hc⟩ => .commit hh hc

namespace History

/-- A transaction that ran on the snapshot of its start can commit after the history. -/
theorem ofRun (hh : History kv keys run init h) {tx : ι} {start ts : ℕ} {s : σ}
    {ran : (run tx start s).isSome} (hs : kv.snapshot init h start = s) (hlater : start < ts)
    (hordered : ∀ d ∈ h, d.ts < ts)
    (hapart : ∀ d ∈ h, start < d.ts →
      ∀ k ∈ keys (Commit.ofRun run tx start ts s ran).effect, k ∉ keys d.effect)
    (habsent : ∀ k ∈ (Commit.ofRun run tx start ts s ran).effect.inserts,
      (kv.get (kv.state init h) k).isNone) :
    History kv keys run init (h ++ [.ofRun run tx start ts s ran]) := by
  subst hs
  exact .commit hh ⟨(Option.some_get ran).symm, hlater, hordered, hapart,
    fun k hk => Option.isNone_iff_eq_none.mp (habsent k hk)⟩

/-- A history is one up to every moment. -/
theorem of_isPrefix (hh : History kv keys run init h) (hp : h' <+: h) :
    History kv keys run init h' := by
  induction hh with
  | nil =>
    rw [prefix_nil.mp hp]
    exact .nil
  | commit hh hc ih =>
    rcases prefix_concat_iff.mp hp with rfl | hp
    · exact .commit hh hc
    · exact ih hp

/-- A property of histories that every commit extends, where the property is known of
every earlier moment. -/
@[elab_as_elim]
theorem induction {P : List (Commit ι ο K V) → Prop} (base : P [])
    (step : ∀ h c, History kv keys run init h → (∀ h', h' <+: h → P h') →
      Admissible kv keys run init h c → P (h ++ [c])) (hh : History kv keys run init h) : P h := by
  have hall : ∀ h', h' <+: h → P h' := by
    induction hh with
    | nil =>
      intro h' hp
      rwa [prefix_nil.mp hp]
    | commit hh hc ih =>
      intro h' hp
      rcases prefix_concat_iff.mp hp with rfl | hp
      · exact step _ _ hh ih hc
      · exact ih h' hp
  exact hall h prefix_rfl

section

variable (hh : History kv keys run init h)
include hh

/-- Every commit of a history was admissible after those before it. -/
theorem admissible_of_mem (hc : c ∈ h) :
    ∃ pre post, h = pre ++ c :: post ∧ Admissible kv keys run init pre c := by
  obtain ⟨pre, post, rfl⟩ := append_of_mem hc
  refine ⟨pre, post, rfl, ?_⟩
  exact (history_concat.mp (hh.of_isPrefix ⟨post, by simp⟩)).2

theorem pairwise_ts : h.Pairwise fun c d => c.ts < d.ts := by
  induction hh with
  | nil => exact .nil
  | commit hh hc ih =>
    rw [pairwise_append]
    refine ⟨ih, pairwise_singleton _ _, fun d hd c' hc' => ?_⟩
    rw [mem_singleton.mp hc']
    exact hc.ordered d hd

theorem filter_isPrefix (t : ℕ) : (h.filter fun c => c.ts ≤ t) <+: h := by
  induction hh with
  | nil => exact prefix_rfl
  | @commit h c hh hc ih =>
    rw [filter_append]
    by_cases hct : c.ts ≤ t
    · have hself : (h.filter fun c => c.ts ≤ t) = h := by
        refine filter_eq_self.mpr fun d hd => ?_
        simpa using (hc.ordered d hd).le.trans hct
      rw [hself]
      simp [hct]
    · simp only [filter_singleton, hct, decide_false, cond_false, append_nil]
      exact ih.trans (prefix_append _ _)

/-- A snapshot is the state after the commits up to its timestamp. -/
theorem snapshot_eq (t : ℕ) : ∃ pre post, h = pre ++ post ∧
    (∀ c ∈ pre, c.ts ≤ t) ∧ (∀ c ∈ post, t < c.ts) ∧ kv.snapshot init h t = kv.state init pre := by
  obtain ⟨post, hpost⟩ := hh.filter_isPrefix t
  refine ⟨_, post, hpost.symm, fun c hc => by simpa using (mem_filter.mp hc).2,
    fun c hc => ?_, rfl⟩
  by_contra hle
  -- a commit up to `t` is in the first part, and timestamps do not repeat
  have hmem : c ∈ h.filter fun c => c.ts ≤ t := by
    refine mem_filter.mpr ⟨?_, by simpa using hle⟩
    rw [← hpost]
    exact mem_append_right _ hc
  have hpair := hh.pairwise_ts
  rw [← hpost, pairwise_append] at hpair
  exact (hpair.2.2 c hmem c hc).false

theorem start_lt_ts (hc : c ∈ h) : c.start < c.ts := by
  obtain ⟨pre, post, rfl, hadm⟩ := hh.admissible_of_mem hc
  exact hadm.later

end

/-- What commits at an earlier timestamp comes before. -/
theorem mem_of_ts_lt {pre post : List (Commit ι ο K V)} {d : Commit ι ο K V}
    (hh : History kv keys run init (pre ++ c :: post)) (hd : d ∈ pre ++ c :: post)
    (hlt : d.ts < c.ts) : d ∈ pre := by
  refine (mem_append.mp hd).resolve_right fun hd => ?_
  have hpair := hh.pairwise_ts
  rw [pairwise_append, pairwise_cons] at hpair
  rcases mem_cons.mp hd with rfl | hd
  · exact lt_irrefl _ hlt
  · exact (hpair.2.1.1 d hd).asymm hlt

/-- Later commits do not change what a transaction has seen. -/
theorem snapshot_eq_of_mem {pre post : List (Commit ι ο K V)}
    (hh : History kv keys run init (pre ++ c :: post)) :
    kv.snapshot init (pre ++ c :: post) c.start = kv.snapshot init pre c.start := by
  have hlater : (c :: post).filter (fun d => decide (d.ts ≤ c.start)) = [] := by
    refine filter_eq_nil_iff.mpr fun d hd => ?_
    have hle : c.ts ≤ d.ts := by
      by_contra hlt
      have hpre := hh.mem_of_ts_lt (mem_append_right _ hd) (not_le.mp hlt)
      have hpair := hh.pairwise_ts
      rw [pairwise_append] at hpair
      exact lt_irrefl _ (hpair.2.2 d hpre d hd)
    have hstart := hh.start_lt_ts (mem_append_right pre mem_cons_self)
    simpa using hstart.trans_le hle
  rw [Keyed.snapshot, filter_append, hlater, append_nil]
  rfl

/-- What a transaction sees is a history of its own: all commits up to its start. -/
theorem exists_seen (hh : History kv keys run init h) (hc : c ∈ h) : ∃ seen,
    History kv keys run init seen ∧ seen <+: h ∧ (∀ d, d ∈ seen ↔ d ∈ h ∧ d.ts ≤ c.start) ∧
      run c.tx c.start (kv.state init seen) = some (c.out, c.effect) := by
  obtain ⟨pre, post, rfl, hadm⟩ := hh.admissible_of_mem hc
  have hpre : History kv keys run init pre := hh.of_isPrefix (prefix_append _ _)
  have hseen := hpre.filter_isPrefix c.start
  refine ⟨_, hpre.of_isPrefix hseen, hseen.trans (prefix_append _ _), fun d => ?_, hadm.ran⟩
  rw [mem_filter, decide_eq_true_eq]
  exact ⟨fun ⟨hd, hts⟩ => ⟨mem_append_left _ hd, hts⟩,
    fun ⟨hd, hts⟩ => ⟨hh.mem_of_ts_lt hd (hts.trans_lt hadm.later), hts⟩⟩

end History

namespace Admissible

/-- On the keys that a transaction has claimed, the state at its commit is still that of
its snapshot. -/
theorem get_state_eq (hkeys : ∀ e : Effect K V, e.written ⊆ keys e)
    (hh : History kv keys run init h) (hc : Admissible kv keys run init h c) {k : K}
    (hk : k ∈ keys c.effect) :
    kv.get (kv.state init h) k = kv.get (kv.snapshot init h c.start) k := by
  obtain ⟨pre, post, rfl, -, hpost, hsnap⟩ := hh.snapshot_eq c.start
  rw [hsnap, Keyed.state_append]
  refine Keyed.get_state_of_forall_notMem fun d hd hwritten => ?_
  exact hc.apart d (mem_append_right _ hd) (hpost d hd) k hk (hkeys _ hwritten)

end Admissible

end Isolation

end Loams.Control
