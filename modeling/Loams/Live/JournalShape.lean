/-
# The journal of a history
-/

import Loams.Live.Effects

namespace Loams.Live

open Loams.Data Loams.Control Loams.Tikv Program List Store

namespace Journal

/-! ## Chunks and the log -/

/-- The chunks of a shard among writes. -/
def chunksOf (shard : ℕ) (ws : List (AppKey × Option Record)) : List (ℕ × JournalEntry) :=
  ws.filterMap fun w =>
    match w with
    | (.entry s seq, some (.entry e)) => if s = shard then some (seq, e) else none
    | _ => none

/-- The chunks that the commits of a history wrote to a shard, in the order of the
commits. -/
def log (shard : ℕ) (h : List AppCommit) : List (ℕ × JournalEntry) :=
  h.flatMap fun c => chunksOf shard c.effect.writes

theorem chunksOf_append (shard : ℕ) (ws ws' : List (AppKey × Option Record)) :
    chunksOf shard (ws ++ ws') = chunksOf shard ws ++ chunksOf shard ws' :=
  filterMap_append

theorem log_append (shard : ℕ) (h h' : List AppCommit) :
    log shard (h ++ h') = log shard h ++ log shard h' :=
  flatMap_append

theorem log_concat (shard : ℕ) (h : List AppCommit) (c : AppCommit) :
    log shard (h ++ [c]) = log shard h ++ chunksOf shard c.effect.writes := by
  rw [log_append]
  exact congrArg _ (flatMap_singleton _ _)

variable {ws : List (AppKey × Option Record)}

theorem chunksOf_eq_nil {shard : ℕ} (h : ∀ w ∈ ws, ∀ seq, w.1 = .entry shard seq → w.2 = none) :
    chunksOf shard ws = [] := by
  rw [chunksOf, filterMap_eq_nil_iff]
  rintro ⟨key, value⟩ hw
  cases key with
  | entry s seq =>
    by_cases hs : s = shard
    · subst hs
      obtain rfl : value = none := h _ hw seq rfl
      rfl
    · split <;> simp_all
  | _ => rfl

section Chunks

variable {shard shard' head seq : ℕ} {chunks : List JournalEntry} {store : Store}

theorem chunksOf_chunkWrites :
    chunksOf shard (chunkWrites shard head chunks) =
      (List.range' (head + 1) chunks.length).zip chunks := by
  induction chunks generalizing head with
  | nil => rfl
  | cons chunk chunks ih =>
    have hcons : chunksOf shard (chunkWrites shard head (chunk :: chunks)) =
        (head + 1, chunk) :: chunksOf shard (chunkWrites shard (head + 1) chunks) := by
      simp [chunksOf, chunkWrites]
    rw [hcons, ih, length_cons, range'_succ, zip_cons_cons]

theorem chunksOf_journalWrites :
    chunksOf shard (journalWrites shard head chunks) =
      (List.range' (head + 1) chunks.length).zip chunks := by
  rw [journalWrites, chunksOf_append, chunksOf_chunkWrites]
  exact append_nil _

/-- Chunks behind the log of the shard continue it. -/
theorem get_chunkWrites {log : List (ℕ × JournalEntry)} {low : ℕ} (hlow : low ≤ log.length)
    (h : ∀ seq, keyed.get store (.entry shard seq) =
      if low < seq then (log[seq - 1]?).map fun p => .entry p.2 else none) :
    keyed.get (keyed.apply store (chunkWrites shard log.length chunks)) (.entry shard seq) =
      if low < seq then
        ((log ++ (List.range' (log.length + 1) chunks.length).zip chunks)[seq - 1]?).map
        fun p => .entry p.2 else none := by
  induction chunks generalizing log store with
  | nil => simpa [chunkWrites] using h seq
  | cons chunk chunks ih =>
    have hset : ∀ seq, keyed.get (keyed.set store (.entry shard (log.length + 1))
        (some (.entry chunk))) (.entry shard seq) = if low < seq then
          ((log ++ [(log.length + 1, chunk)])[seq - 1]?).map fun p => .entry p.2 else none := by
      intro seq
      rw [keyed.get_set]
      by_cases hseq : log.length + 1 = seq
      · subst hseq
        simp [Nat.lt_succ_of_le hlow]
      · rw [if_neg (by simpa using hseq), h]
        split_ifs
        · by_cases hold : seq - 1 < log.length
          · rw [List.getElem?_append_left hold]
          · rw [List.getElem?_eq_none (by omega), List.getElem?_eq_none (by simp; omega)]
        · rfl
    simpa [chunkWrites, Keyed.apply_cons, range'_succ] using ih (by simp; omega) hset

end Chunks

/-! ## What a commit does to a shard -/

section Commits

variable {app : App} {options : RunnerOptions} {shards shard : ℕ} {start : Timestamp}
  {snapshot : Store} {answer : Answer} {effect : Effect AppKey Record}

/-- The head and the entries of the shard are left alone. -/
def Untouched (shard : ℕ) (effect : Effect AppKey Record) : Prop :=
  ∀ w ∈ effect.writes, ¬ OfShard shard w.1

/-- An attempt has appended chunks behind the head that it saw. -/
structure Extended (shard : ℕ) (snapshot : Store) (effect : Effect AppKey Record) : Prop where
  shape : ∃ ws head chunks, effect.writes = ws ++ journalWrites shard head chunks ∧
    (∀ w ∈ ws, ¬ OfShard shard w.1) ∧ decodeHead (snapshot.heads shard) = .ok head

/-- A janitor pass has deleted the oldest entries that it saw. -/
structure Trimmed (shard : ℕ) (snapshot : Store) (effect : Effect AppKey Record) : Prop where
  shape : ∃ ws floor n, effect.writes = ws ++
      ((((snapshot.entries shard).toList.filter fun p => p.1 ≤ floor).take n).map
        fun p => (.entry shard p.1, none)) ∧
    ∀ w ∈ ws, ¬ OfShard shard w.1

theorem not_ofShard_of_isData {key : AppKey} (h : key.IsData) : ¬ OfShard shard key := by
  rintro (rfl | ⟨seq, rfl⟩) <;> exact h

theorem not_ofShard_of_recordWrites {attempt : Attempt} {result : LiveValue}
    {w : AppKey × Option Record} (h : w ∈ attempt.recordWrites start result) :
    ¬ OfShard shard w.1 := by
  obtain ⟨idem, -, rfl⟩ := Attempt.recordWrites_key h
  rintro (hkey | ⟨seq, hkey⟩) <;> cases hkey

/-- A mutation leaves a shard alone or appends to it. -/
theorem mutate_shard {attempt : Attempt} (shard : ℕ)
    (h : (Tx.mutate attempt).run app options shards start snapshot = some (answer, effect)) :
    Untouched shard effect ∨ Extended shard snapshot effect := by
  obtain ⟨result, -, -, rfl⟩ | ⟨result, live, hran, hcommit⟩ := Tx.mutate_eq_some h
  · exact .inl fun w hw => by cases hw
  · obtain ⟨-, -, rfl⟩ | ⟨stored, position, -, -, happended⟩ := hcommit
    · exact .inl fun w hw => not_ofShard_of_isData (hran.data w hw)
    · by_cases hshard : position.1 = shard
      · subst hshard
        obtain ⟨head, chunks, hhead, -, -, rfl⟩ := happended.shape
        refine .inr ⟨_, head, chunks, rfl, fun w hw => ?_, hhead⟩
        rcases mem_append.mp hw with hw | hw
        · exact not_ofShard_of_isData (hran.data w hw)
        · exact not_ofShard_of_recordWrites hw
      · refine .inl fun w hw => ?_
        rcases happended.writes_key hw with hw | hw | hkey | ⟨seq, hkey⟩
        · exact not_ofShard_of_isData (hran.data w hw)
        · exact not_ofShard_of_recordWrites hw
        all_goals
          rw [hkey]
          rintro (heq | ⟨seq', heq⟩) <;> cases heq
          exact hshard rfl

/-! ### The janitor -/

/-- The key of a checkpoint. -/
def IsCheckpoint : AppKey → Prop
  | .checkpoint _ _ => True
  | _ => False

theorem trimEntries_exec (shard retentionMs nowMs : ℕ) (entries : List (ℕ × Record))
    (pass : TrimPass) (t : Txn) : ∃ n,
      ((trimEntries shard retentionMs nowMs entries pass).exec t).2 =
        Txn.write ((entries.take n).map fun p => (.entry shard p.1, none)) t := by
  induction entries generalizing pass t with
  | nil => exact ⟨0, (Txn.write_nil t).symm⟩
  | cons p entries ih =>
    obtain ⟨seq, value⟩ := p
    rw [trimEntries, exec_bind]
    cases hdecode : decodeEntry value with
    | error e => exact ⟨0, (Txn.write_nil t).symm⟩
    | ok entry =>
      by_cases hyoung : nowMs < entry.commitHintMs + retentionMs
      · refine ⟨0, ?_⟩
        simp only [exec_liftM, hyoung, if_true]
        exact (Txn.write_nil t).symm
      · obtain ⟨n, hn⟩ := ih { pass with deleted := pass.deleted + 1 }
          (Txn.write [(.entry shard seq, none)] t)
        refine ⟨n + 1, ?_⟩
        simp only [exec_liftM, hyoung, if_false]
        rw [take_succ_cons, map_cons]
        exact hn.trans (Txn.write_write _ _ t)

theorem entries_apply (h : ∀ w ∈ ws, IsCheckpoint w.1) (store : Store) :
    (keyed.apply store ws).entries = store.entries := by
  induction ws generalizing store with
  | nil => rfl
  | cons w ws ih =>
    rw [Keyed.apply_cons, ih fun w' hw' => h w' (mem_cons_of_mem _ hw')]
    obtain ⟨key, value⟩ := w
    cases key with
    | checkpoint shard consumer => rfl
    | _ => cases h _ mem_cons_self

/-- What is written in front of the deletions touches no entry. -/
theorem trim_exec (shards shard retentionMs : ℕ) (start : Timestamp) (snapshot : Store) :
    Trimmed shard snapshot
      ((trim shards shard retentionMs).exec (.startAt start snapshot)).2.effect := by
  set t := Txn.startAt start snapshot with ht
  have hothers : ∀ key, IsCheckpoint key → ¬ OfShard shard key := by
    rintro _ hkey (rfl | ⟨seq, rfl⟩) <;> exact hkey
  have hnone : ∀ t' : Txn, (∀ w ∈ t'.writes, IsCheckpoint w.1) →
      Trimmed shard snapshot t'.effect := fun t' hws =>
    ⟨t'.writes, 0, 0, by rw [take_zero, map_nil, append_nil]; rfl, fun w hw => hothers _ (hws w hw)⟩
  rw [trim, exec_read_bind]
  dsimp only
  by_cases hcount :
      ((t.view.checkpoints shard).toList.take (maxConsumers + 1)).length ≤ maxConsumers
  · rw [exec_require_bind hcount, exec_bind]
    have hvisit := visitCheckpoints_moves (W := IsCheckpoint) (fun _ _ => trivial) shards
      (physicalMs t.start) ((t.view.checkpoints shard).toList.take (maxConsumers + 1)) none 0 t
    rcases hv : (visitCheckpoints shards (physicalMs t.start)
        ((t.view.checkpoints shard).toList.take (maxConsumers + 1)) none 0).exec t with ⟨r, t₁⟩
    rw [hv] at hvisit
    obtain ⟨-, hview, hall⟩ := hvisit.of_startAt
    cases r with
    | error e => exact hnone _ hall
    | ok r =>
      obtain ⟨lowest, expired⟩ := r
      dsimp only
      rw [exec_read_bind, exec_bind, exec_liftM]
      cases decodeHead (t₁.view.heads shard) with
      | error e => exact hnone _ hall
      | ok head =>
        dsimp only
        set floor := min (lowest.getD head) head
        by_cases hfloor : floor = 0
        · rw [if_pos hfloor]
          exact hnone _ hall
        · rw [if_neg hfloor]
          set entries := ((t₁.view.entries shard).toList.filter fun p => p.1 ≤ floor).take trimBatch
          obtain ⟨n, hn⟩ := trimEntries_exec shard retentionMs (physicalMs t.start) entries
            { expired, floor, done := entries.length < trimBatch } t₁
          rw [hn]
          refine ⟨t₁.writes, floor, min n trimBatch, ?_, fun w hw => ?_⟩
          · have hentries : t₁.view.entries = snapshot.entries := by
              rw [hview, entries_apply hall]
            rw [← hentries, ← take_take]
            rfl
          · exact hothers _ (hall w hw)
  · rw [show require _ _ = _ from if_neg hcount, exec_error_bind]
    exact hnone t (by rintro w ⟨⟩)

/-- What a transaction does to a shard. -/
theorem run_shard {tx : Tx} (shard : ℕ)
    (h : tx.run app options shards start snapshot = some (answer, effect)) :
    Untouched shard effect ∨ Extended shard snapshot effect ∨ Trimmed shard snapshot effect := by
  have hother : ∀ {n : ℕ}, shard ≠ n → ∀ key, IsUpkeep n key → ¬ OfShard shard key := by
    rintro n hne key hkey (rfl | ⟨seq, rfl⟩)
    · exact hkey
    · exact hne hkey
  cases tx with
  | mutate attempt => exact (mutate_shard shard h).imp_right .inl
  | trim shard' retentionMs =>
    by_cases hshard : shard = shard'
    · subst hshard
      obtain ⟨-, rfl⟩ := Tx.lifted_eq_some h
      exact .inr (.inr (trim_exec _ _ _ _ _))
    · exact .inl (Tx.of_lifted (trim_moves shards shard' retentionMs) (hother hshard) h).2
  | sweep low =>
    obtain ⟨-, rfl⟩ := Tx.lifted_eq_some h
    obtain ⟨records, -, hexec⟩ := sweepIdempotency_exec low (.startAt start snapshot)
    rw [hexec]
    refine .inl fun w hw => ?_
    obtain ⟨p, -, rfl⟩ := mem_map.mp hw
    rintro (hkey | ⟨seq, hkey⟩) <;> cases hkey
  | checkpoint consumer positions ttlMs =>
    exact .inl (Tx.of_lifted (checkpoint_moves app.enc shards consumer positions ttlMs (shard + 1))
      (hother shard.succ_ne_self.symm) h).2
  | removeCheckpoint consumer =>
    exact .inl (Tx.of_lifted (removeCheckpoint_moves shards consumer (shard + 1))
      (hother shard.succ_ne_self.symm) h).2

end Commits

/-! ## The shape of a shard -/

/-- The head of the shard is the length of the log, whose sequences count from one, and
the entries left are those behind `low`. -/
structure Shape (store : Store) (log : List (ℕ × JournalEntry)) (shard low : ℕ) : Prop where
  head : decodeHead (store.heads shard) = .ok log.length
  seqs : log.map Prod.fst = List.range' 1 log.length
  low_le : low ≤ log.length
  entries : ∀ seq, (store.entries shard)[seq]? =
    if low < seq then (log[seq - 1]?).map fun p => .entry p.2 else none

namespace Shape

variable {store : Store} {log : List (ℕ × JournalEntry)} {shard low low' seq : ℕ}

section

variable (h : Shape store log shard low)
include h

theorem isSome_iff : ((store.entries shard)[seq]?).isSome ↔ low < seq ∧ seq ≤ log.length := by
  rw [h.entries]
  by_cases hlow : low < seq
  · rw [if_pos hlow, Option.isSome_map]
    have hget : (log[seq - 1]?).isSome ↔ seq - 1 < log.length := by simp
    rw [hget]
    omega
  · rw [if_neg hlow]
    simp [hlow]

theorem low_unique (h' : Shape store log shard low') : low = low' := by
  have hiff : ∀ seq, low < seq ∧ seq ≤ log.length ↔ low' < seq ∧ seq ≤ log.length := fun seq => by
    rw [← h.isSome_iff, ← h'.isSome_iff]
  have hlow := h.low_le
  have hlow' := h'.low_le
  have h₁ := hiff (low + 1)
  have h₂ := hiff (low' + 1)
  omega

/-- The entries left, in order. -/
theorem keys_eq :
    (store.entries shard).toList.map Prod.fst = List.range' (low + 1) (log.length - low) := by
  rw [Std.ExtTreeMap.map_fst_toList_eq_keys]
  have hsorted := (Std.ExtTreeMap.ordered_keys (t := store.entries shard)).imp Nat.compare_eq_lt.mp
  refine List.Pairwise.eq_of_mem_iff hsorted (pairwise_lt_range' ..) fun seq => ?_
  rw [Std.ExtTreeMap.mem_keys, Std.ExtTreeMap.mem_iff_isSome_getElem?, h.isSome_iff, mem_range'_1]
  have := h.low_le
  omega

end

end Shape

/-- With sequences that count up, a bound on them is a length. -/
theorem filter_eq_take {α : Type} {l : List (ℕ × α)} {first n : ℕ} (bound : ℕ)
    (hseqs : l.map Prod.fst = List.range' (first + 1) n) :
    (l.filter fun p => p.1 ≤ bound) = l.take (bound - first) := by
  induction l generalizing first n with
  | nil => simp
  | cons p l ih =>
    obtain _ | n := n
    · cases hseqs
    have hcons := hseqs
    rw [map_cons, range'_succ] at hcons
    obtain ⟨hp, hrest⟩ := List.cons.inj hcons
    by_cases hle : p.1 ≤ bound
    · have hsucc : bound - first = (bound - (first + 1)) + 1 := by omega
      rw [filter_cons_of_pos (by simpa using hle), hsucc, take_succ_cons, ih hrest]
    · have hzero : bound - first = 0 := by omega
      rw [hzero, take_zero, filter_eq_nil_iff]
      intro q hq
      have hmem := mem_map_of_mem (f := Prod.fst) hq
      rw [hseqs, mem_range'_1] at hmem
      simp only [decide_eq_true_eq]
      omega

theorem eq_range'_of_isPrefix {l : List ℕ} {first n : ℕ} (h : l <+: List.range' first n) :
    l = List.range' first l.length ∧ l.length ≤ n := by
  have hlen := h.length_le
  rw [length_range'] at hlen
  refine ⟨?_, hlen⟩
  conv_lhs => rw [prefix_iff_eq_take.mp h]
  refine ext_getElem (by simpa using hlen) fun i _ _ => ?_
  simp

/-! ## The shape of a shard along a history -/

section Along

variable {app : App} {options : RunnerOptions} {shards shard : ℕ} {init : Store}
  {h h' : List AppCommit} {c : AppCommit}

/-- The shard has never been written. -/
structure Fresh (init : Store) (shard : ℕ) : Prop where
  head : init.heads shard = none
  entries : ∀ seq : ℕ, (init.entries shard)[seq]? = none

/-- The shard has its shape, and less of it is left than ever before. -/
def Kept (shard : ℕ) (init : Store) (h : List AppCommit) : Prop :=
  ∃ low, Shape (keyed.state init h) (log shard h) shard low ∧
    ∀ h', h' <+: h → ∀ low', Shape (keyed.state init h') (log shard h') shard low' → low' ≤ low

theorem shape_nil (hinit : Fresh init shard) :
    Shape (keyed.state init ([] : List AppCommit)) (log shard []) shard 0 where
  head := by
    show decodeHead (init.heads shard) = .ok 0
    rw [hinit.head]
    rfl
  seqs := rfl
  low_le := le_rfl
  entries seq := by
    show (init.entries shard)[seq]? = _
    rw [hinit.entries]
    split_ifs <;> rfl

/-- A step that keeps the shape and leaves no more than before. -/
theorem kept_concat {low low' : ℕ}
    (hmono : ∀ h', h' <+: h → ∀ low', Shape (keyed.state init h') (log shard h') shard low' →
      low' ≤ low)
    (hshape : Shape (keyed.state init (h ++ [c])) (log shard (h ++ [c])) shard low')
    (hle : low ≤ low') : Kept shard init (h ++ [c]) := by
  refine ⟨low', hshape, fun h' hp low'' hs => ?_⟩
  rcases prefix_concat_iff.mp hp with rfl | hp
  · exact (hs.low_unique hshape).le
  · exact (hmono h' hp low'' hs).trans hle

theorem heads_eq_get (store : Store) (shard : ℕ) :
    store.heads shard = keyed.get store (.head shard) := rfl

theorem entries_eq_get (store : Store) (shard seq : ℕ) :
    (store.entries shard)[seq]? = keyed.get store (.entry shard seq) := rfl

/-- Writes elsewhere leave the keys of the shard alone. -/
theorem get_apply_of_others {store : Store} {key : AppKey} (h : ∀ w ∈ ws, ¬ OfShard shard w.1)
    (hkey : OfShard shard key) : keyed.get (keyed.apply store ws) key = keyed.get store key := by
  refine Keyed.get_apply_of_notMem fun hmem => ?_
  obtain ⟨w, hw, rfl⟩ := mem_map.mp hmem
  exact h w hw hkey

/-- An append that found the head of the shard continues its log. -/
theorem shape_appended {low head : ℕ} {chunks : List JournalEntry}
    (hwrites : c.effect.writes = ws ++ journalWrites shard head chunks)
    (hws : ∀ w ∈ ws, ¬ OfShard shard w.1) (hhead : head = (log shard h).length)
    (hshape : Shape (keyed.state init h) (log shard h) shard low) :
    Shape (keyed.state init (h ++ [c])) (log shard (h ++ [c])) shard low := by
  have hlog : log shard (h ++ [c]) =
      log shard h ++ (List.range' (head + 1) chunks.length).zip chunks := by
    have hnil : chunksOf shard ws = [] :=
      chunksOf_eq_nil fun w hw seq hkey => absurd (.inr ⟨seq, hkey⟩) (hws w hw)
    rw [log_concat, hwrites, chunksOf_append, hnil, chunksOf_journalWrites]
    rfl
  have hlen : (log shard (h ++ [c])).length = head + chunks.length := by
    rw [hlog, length_append, length_zip, length_range', min_self, hhead]
  have hstate : keyed.state init (h ++ [c]) =
      keyed.apply (keyed.apply (keyed.state init h) ws)
        (journalWrites shard head chunks) := by
    rw [Keyed.state_concat, hwrites, Keyed.apply_append]
  refine ⟨?_, ?_, ?_, fun seq => ?_⟩
  · rw [hlen, heads_eq_get, hstate, journalWrites, Keyed.apply_concat, keyed.get_set, if_pos rfl]
    rfl
  · rw [hlen, hlog, map_append, hshape.seqs, map_fst_zip (by simp), ← hhead,
      Nat.add_comm head 1, range'_append_1]
  · have := hshape.low_le
    omega
  · subst hhead
    rw [entries_eq_get, hstate, journalWrites, Keyed.apply_concat, keyed.get_set,
      if_neg (by simp), hlog]
    refine get_chunkWrites hshape.low_le fun seq => ?_
    rw [get_apply_of_others hws (.inr ⟨seq, rfl⟩), ← entries_eq_get, hshape.entries]

/-- A pass that deleted the next sequences behind `low`. -/
theorem shape_deleted {low n : ℕ}
    (hwrites : c.effect.writes = ws ++
      (List.range' (low + 1) n).map fun seq => (.entry shard seq, none))
    (hws : ∀ w ∈ ws, ¬ OfShard shard w.1) (hn : low + n ≤ (log shard h).length)
    (hshape : Shape (keyed.state init h) (log shard h) shard low) :
    Shape (keyed.state init (h ++ [c])) (log shard (h ++ [c])) shard (low + n) := by
  have hlog : log shard (h ++ [c]) = log shard h := by
    rw [log_concat, chunksOf_eq_nil, append_nil]
    intro w hw seq hkey
    rw [hwrites] at hw
    rcases mem_append.mp hw with hw | hw
    · exact absurd (.inr ⟨seq, hkey⟩) (hws w hw)
    · obtain ⟨_, -, rfl⟩ := mem_map.mp hw
      rfl
  have hstate : keyed.state init (h ++ [c]) =
      keyed.apply (keyed.apply (keyed.state init h) ws)
        ((List.range' (low + 1) n).map fun seq => (.entry shard seq, none)) := by
    rw [Keyed.state_concat, hwrites, Keyed.apply_append]
  have hhead : keyed.get (keyed.state init (h ++ [c])) (.head shard) =
      keyed.get (keyed.state init h) (.head shard) := by
    rw [hstate, Keyed.get_apply_of_notMem (by simp), get_apply_of_others hws (.inl rfl)]
  rw [hlog]
  refine ⟨?_, hshape.seqs, hn, fun seq => ?_⟩
  · rw [heads_eq_get, hhead]
    exact hshape.head
  · rw [entries_eq_get, hstate, Keyed.get_apply_map, get_apply_of_others hws (.inr ⟨seq, rfl⟩),
      ← entries_eq_get, hshape.entries]
    simp only [mem_map, AppKey.entry.injEq, true_and, exists_eq_right, mem_range'_1]
    split_ifs <;> first | rfl | omega

theorem shape_untouched {low : ℕ} (huntouched : Untouched shard c.effect)
    (hshape : Shape (keyed.state init h) (log shard h) shard low) :
    Shape (keyed.state init (h ++ [c])) (log shard (h ++ [c])) shard low :=
  shape_deleted (n := 0) (append_nil _).symm huntouched hshape.low_le hshape

section

variable (hh : History keyed Effect.written (Tx.run app options shards) init h)
include hh

/-- The entries that a pass deletes, if it deletes any, are the oldest ones at its
commit too. -/
theorem kept_trimmed (ih : ∀ h', h' <+: h → Kept shard init h')
    (hc : Admissible keyed Effect.written (Tx.run app options shards) init h c)
    (htrimmed : Trimmed shard (keyed.snapshot init h c.start) c.effect) :
    Kept shard init (h ++ [c]) := by
  obtain ⟨low, hshape, hmono⟩ := ih h prefix_rfl
  obtain ⟨pre, post, rfl, -, -, hsnap⟩ := hh.snapshot_eq c.start
  obtain ⟨low', hshape', -⟩ := ih pre (prefix_append _ _)
  have hle : low' ≤ low := hmono pre (prefix_append _ _) low' hshape'
  obtain ⟨ws, floor, n, hwrites, hws⟩ := htrimmed.shape
  rw [hsnap] at hwrites
  -- the deleted sequences are the next ones behind `low'`
  set deleted := ((((keyed.state init pre).entries shard).toList.filter
    fun p => p.1 ≤ floor).take n).map Prod.fst with hdeleted
  have hpre : deleted <+: List.range' (low' + 1) ((log shard pre).length - low') := by
    rw [hdeleted, filter_eq_take floor hshape'.keys_eq, take_take, map_take, hshape'.keys_eq]
    exact List.take_prefix _ _
  obtain ⟨hrange, hlen⟩ := eq_range'_of_isPrefix hpre
  have hwrites' : c.effect.writes = ws ++
      (List.range' (low' + 1) deleted.length).map fun seq => (.entry shard seq, none) := by
    rw [← hrange, hwrites, hdeleted, map_map]
    rfl
  have hlonger : (log shard pre).length ≤ (log shard (pre ++ post)).length := by
    rw [log_append, length_append]
    omega
  by_cases hzero : deleted.length = 0
  · rw [hzero, range'_zero, map_nil, append_nil] at hwrites'
    refine kept_concat hmono (shape_untouched (fun w hw => ?_) hshape) le_rfl
    rw [hwrites'] at hw
    exact hws w hw
  · -- the first of them is claimed, so it is still there
    have hkey : (.entry shard (low' + 1) : AppKey) ∈ c.effect.written := by
      rw [Effect.written, hwrites', map_append, mem_append]
      right
      rw [mem_map]
      exact ⟨_, mem_map.mpr ⟨low' + 1, mem_range'_1.mpr (by omega), rfl⟩, rfl⟩
    have hsome : (((keyed.state init (pre ++ post)).entries shard)[low' + 1]?).isSome := by
      rw [entries_eq_get, hc.get_state_eq (fun _ => List.Subset.refl _) hh hkey, hsnap,
        ← entries_eq_get, hshape'.isSome_iff]
      omega
    have heq : low' = low := by
      have := hshape.isSome_iff.mp hsome
      omega
    subst heq
    have hfits : low' + deleted.length ≤ (log shard (pre ++ post)).length := by
      have := hshape'.low_le
      omega
    exact kept_concat hmono (shape_deleted hwrites' hws hfits hshape) (Nat.le_add_right _ _)

/-- Every shard keeps its shape. -/
theorem kept_of_history (hinit : Fresh init shard) : Kept shard init h := by
  refine hh.induction (P := Kept shard init) ⟨0, shape_nil hinit, fun h' hp low' hs => ?_⟩ ?_
  · rw [prefix_nil.mp hp] at hs
    exact (hs.low_unique (shape_nil hinit)).le
  · intro h c hh ih hc
    obtain ⟨low, hshape, hmono⟩ := ih h prefix_rfl
    rcases run_shard shard hc.ran with huntouched | hextended | htrimmed
    · exact kept_concat hmono (shape_untouched huntouched hshape) le_rfl
    · obtain ⟨ws, head, chunks, hwrites, hws, hhead⟩ := hextended.shape
      have hkey : (.head shard : AppKey) ∈ c.effect.written := by
        rw [Effect.written, hwrites, journalWrites]
        simp
      have hlen : head = (log shard h).length := by
        rw [heads_eq_get, ← hc.get_state_eq (fun _ => List.Subset.refl _) hh hkey, ← heads_eq_get,
          hshape.head] at hhead
        exact (Except.ok.inj hhead).symm
      exact kept_concat hmono (shape_appended hwrites hws hlen hshape) le_rfl
    · exact kept_trimmed hh ih hc htrimmed

end

end Along

end Journal

end Loams.Live
