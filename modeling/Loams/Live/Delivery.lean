/-
# Delivery of the journal
-/

import Loams.Live.Idempotency
import Loams.Live.JournalShape

namespace Loams.Live

open Loams.Data Loams.Control Loams.Tikv Program List AppKeys Store

namespace Journal

/-! ## What a read takes -/

section Read

variable {enc : Encoding} {snap : Store} {low high : List ℕ} {maxBytes : ℕ}

/-- The entry under a shard and a sequence. -/
def entryAt (snap : Store) (p : ℕ × ℕ) : Option Read :=
  match (snap.entries p.1)[p.2]? with
  | some (.entry e) => some (p.1, p.2, e)
  | _ => none

/-- The last sequences read, one shard after the other. -/
def reach (reached : List ℕ) (taken : List (ℕ × ℕ)) : List ℕ :=
  taken.foldl (fun acc p => acc.set p.1 p.2) reached

/-- What a missing entry is reported as. -/
def missing (snap : Store) (low high : List ℕ) (p : ℕ × ℕ) : LiveError :=
  if p.2 = low.getD p.1 0 + 1 then
    .journalTrimmed p.1 (low.getD p.1 0) (firstEntry snap p.1 p.2 (high.getD p.1 0))
  else .corrupt s!"journal shard {p.1}: entry {p.2} is missing"

/-- Everything stored under the wanted keys is an entry. -/
def AllEntries (snap : Store) (l : List (ℕ × ℕ)) : Prop :=
  ∀ p ∈ l, ∀ value, (snap.entries p.1)[p.2]? = some value → ∃ e, value = .entry e

/-- From `r` the read takes wanted entries in order, and reports the next one if that is
missing. -/
def Takes (snap : Store) (low high : List ℕ) (l : List (ℕ × ℕ)) (r : Reading)
    (x : Except LiveError Reading) : Prop :=
  ∃ taken rest, l = taken ++ rest ∧ (∀ p ∈ taken, (entryAt snap p).isSome) ∧
    ((∃ bytes, x = .ok ⟨r.out ++ taken.filterMap (entryAt snap), reach r.reached taken, bytes⟩) ∨
      ∃ p ∈ rest.head?, entryAt snap p = none ∧ x = .error (missing snap low high p))

variable {l l' : List (ℕ × ℕ)} {r : Reading}

theorem Takes.nothing : Takes snap low high l r (.ok r) :=
  ⟨[], l, rfl, by simp, .inl ⟨r.bytes, by simp [reach]⟩⟩

theorem Takes.cons {p : ℕ × ℕ} {e : Read} {bytes : ℕ} {x : Except LiveError Reading}
    (he : entryAt snap p = some e)
    (h : Takes snap low high l ⟨r.out ++ [e], r.reached.set p.1 p.2, bytes⟩ x) :
    Takes snap low high (p :: l) r x := by
  obtain ⟨taken, rest, rfl, hpresent, h⟩ := h
  refine ⟨p :: taken, rest, rfl, forall_mem_cons.mpr ⟨by simp [he], hpresent⟩, ?_⟩
  simpa [reach, he] using h

/-- A page is read until the budget is used up, and the next pages continue it. -/
theorem Takes.readPage {k : Reading → Except LiveError Reading}
    (hk : ∀ r, Takes snap low high l' r (k r)) (hl : AllEntries snap l) :
    Takes snap low high (l ++ l') r (do
      let (r, full) ← readPage enc snap low high maxBytes l r
      if full then return r else k r) := by
  induction l generalizing r with
  | nil => exact hk r
  | cons p l ih =>
    obtain ⟨shard, seq⟩ := p
    simp only [Journal.readPage]
    cases hvalue : (snap.entries shard)[seq]? with
    | none =>
      exact ⟨[], _, rfl, by simp, .inr ⟨(shard, seq), rfl, by simp [entryAt, hvalue], rfl⟩⟩
    | some value =>
      obtain ⟨e, rfl⟩ := hl _ mem_cons_self value hvalue
      have he : entryAt snap (shard, seq) = some (shard, seq, e) := by simp [entryAt, hvalue]
      simp only [decodeEntry, bind, Except.bind]
      split_ifs with hfull
      · exact .cons he .nothing
      · exact .cons he (ih fun p hp => hl p (mem_cons_of_mem _ hp))

/-- Reading page by page is reading on. -/
theorem Takes.readPages {fuel : ℕ} {wanted : List (ℕ × ℕ)} (hl : AllEntries snap wanted) :
    Takes snap low high wanted r (readPages enc snap low high maxBytes fuel wanted r) := by
  induction fuel generalizing wanted r with
  | zero => exact .nothing
  | succ fuel ih =>
    rw [Journal.readPages]
    split_ifs with hstop
    · exact .nothing
    · nth_rewrite 1 [← take_append_drop readPageEntries wanted]
      exact .readPage (fun r => ih fun p hp => hl p (mem_of_mem_drop hp))
        fun p hp => hl p (mem_of_mem_take hp)

end Read

/-! ## Shard by shard -/

variable {taken : List (ℕ × ℕ)}

section Shards

variable {low high : List ℕ} {shards shard : ℕ}

/-- The wanted keys of one shard. -/
theorem filter_wantedEntries (h : shard < shards) :
    ((wantedEntries low high shards).filter fun p => p.1 = shard) =
      (List.range' (low.getD shard 0 + 1) (high.getD shard 0 - low.getD shard 0)).map
        (shard, ·) := by
  have hfilter : ∀ s, (((List.range' (low.getD s 0 + 1) (high.getD s 0 - low.getD s 0)).map
      (s, ·)).filter fun p => p.1 = shard) = if s = shard then
        (List.range' (low.getD s 0 + 1) (high.getD s 0 - low.getD s 0)).map (s, ·) else [] := by
    intro s
    by_cases hs : s = shard <;> simp [filter_map, Function.comp_def, hs]
  induction shards with
  | zero => exact absurd h (Nat.not_lt_zero _)
  | succ n ih =>
    rw [wantedEntries, range_succ, flatMap_append, filter_append, flatMap_singleton, hfilter]
    by_cases hn : shard = n
    · subst hn
      rw [if_pos rfl, filter_flatMap, flatMap_eq_nil_iff.mpr, nil_append]
      exact fun s hs => (hfilter s).trans (if_neg (mem_range.mp hs).ne)
    · rw [if_neg (Ne.symm hn), append_nil]
      exact ih (by omega)

/-- What was taken of one shard are the next sequences. -/
theorem filter_taken (h : taken <+: wantedEntries low high shards)
    (hshard : shard < shards) : ∃ n ≤ high.getD shard 0 - low.getD shard 0,
      (taken.filter fun p => p.1 = shard) =
        (List.range' (low.getD shard 0 + 1) n).map (shard, ·) := by
  have hpre := h.filter fun p => decide (p.1 = shard)
  rw [filter_wantedEntries hshard] at hpre
  have hseqs := hpre.map Prod.snd
  rw [map_map] at hseqs
  have hid : (Prod.snd ∘ fun seq => (shard, seq)) = (id : ℕ → ℕ) := rfl
  rw [hid, map_id] at hseqs
  obtain ⟨heq, hlen⟩ := eq_range'_of_isPrefix hseqs
  refine ⟨_, hlen, ?_⟩
  rw [← heq, map_map]
  symm
  refine (map_congr_left fun p hp => ?_).trans (map_id _)
  have hp1 : p.1 = shard := by simpa using (mem_filter.mp hp).2
  simp [← hp1]

theorem length_reach (reached : List ℕ) (taken : List (ℕ × ℕ)) :
    (reach reached taken).length = reached.length := by
  induction taken generalizing reached with
  | nil => rfl
  | cons p taken ih => exact (ih _).trans (by simp)

theorem getD_reach {reached : List ℕ} (h : shard < reached.length) (taken : List (ℕ × ℕ)) :
    (reach reached taken).getD shard 0 =
      ((taken.filter fun p => p.1 = shard).getLast?.map Prod.snd).getD (reached.getD shard 0) := by
  induction taken using List.reverseRecOn with
  | nil => rfl
  | append_singleton taken p ih =>
    have hstep : reach reached (taken ++ [p]) = (reach reached taken).set p.1 p.2 := by
      simp [reach]
    have hlen : shard < (reach reached taken).length := by rwa [length_reach]
    rw [hstep, filter_append]
    by_cases hp : p.1 = shard
    · simp [hp, getD_eq_getElem?_getD, hlen]
    · simp only [filter_singleton, hp, decide_false, cond_false, append_nil]
      rw [← ih, getD_eq_getElem?_getD, getD_eq_getElem?_getD, List.getElem?_set_ne hp]

theorem getLast?_range' {first n : ℕ} (seqs : List (ℕ × ℕ))
    (h : seqs = (List.range' (first + 1) n).map (shard, ·)) :
    (seqs.getLast?.map Prod.snd).getD first = first + n := by
  rw [h, List.getLast?_map, List.getLast?_range']
  split_ifs with hn
  · rw [hn]
    rfl
  · simp

end Shards

/-! ## Reads and the log -/

section Log

variable {snap : Store} {shards shard trimmed : ℕ} {low high : List ℕ}

/-- The entries of one shard among those read. -/
def readsOf (shard : ℕ) (out : List Read) : List (ℕ × JournalEntry) :=
  out.filterMap fun r => if r.1 = shard then some r.2 else none

variable {log : List (ℕ × JournalEntry)} {logs : ℕ → List (ℕ × JournalEntry)}

/-- What stands under a sequence of a shard is the entry of its log, unless it was trimmed. -/
theorem entryAt_eq (h : Shape snap log shard trimmed) (seq : ℕ) :
    entryAt snap (shard, seq) = if trimmed < seq then (log[seq - 1]?).map (shard, ·) else none := by
  rw [entryAt, h.entries]
  split_ifs with hlow
  · cases hget : log[seq - 1]? with
    | none => rfl
    | some p =>
      obtain ⟨hlt, -⟩ := List.getElem?_eq_some_iff.mp hget
      have hseq : (log.map Prod.fst)[seq - 1]? = some p.1 := by
        rw [List.getElem?_map, hget]
        rfl
      rw [h.seqs, List.getElem?_range' hlt, Option.some.injEq] at hseq
      exact congrArg (fun n => some (shard, n, p.2)) (by omega : seq = p.1)
  · rfl

theorem isSome_entryAt (h : Shape snap log shard trimmed) {seq : ℕ} :
    (entryAt snap (shard, seq)).isSome ↔ trimmed < seq ∧ seq ≤ log.length := by
  rw [entryAt_eq h, ← h.isSome_iff, h.entries]
  split_ifs <;> simp

theorem readsOf_filterMap (taken : List (ℕ × ℕ)) :
    readsOf shard (taken.filterMap (entryAt snap)) =
      (taken.filter fun p => p.1 = shard).filterMap fun p => (entryAt snap p).map Prod.snd := by
  rw [readsOf, filterMap_filterMap, filterMap_filter]
  refine filterMap_congr fun p _ => ?_
  unfold entryAt
  split <;> simp

theorem filterMap_range' {first n : ℕ} (h : first + n ≤ log.length) :
    ((List.range' (first + 1) n).filterMap fun seq => log[seq - 1]?) = (log.drop first).take n := by
  induction n generalizing first with
  | zero => rfl
  | succ n ih =>
    have hlt : first < log.length := by omega
    rw [range'_succ, filterMap_cons, Nat.add_sub_cancel, List.getElem?_eq_getElem hlt,
      ih (by omega), drop_eq_getElem_cons hlt, take_succ_cons]

/-- What was taken of one shard is a piece of its log. -/
theorem readsOf_taken {first n : ℕ} (h : Shape snap log shard trimmed)
    (hpresent : ∀ p ∈ taken, (entryAt snap p).isSome)
    (hfilter : (taken.filter fun p => p.1 = shard) = (List.range' (first + 1) n).map (shard, ·))
    (hn : first + n ≤ log.length) :
    readsOf shard (taken.filterMap (entryAt snap)) = (log.drop first).take n := by
  rw [readsOf_filterMap, hfilter, filterMap_map, ← filterMap_range' hn]
  refine filterMap_congr fun seq hseq => ?_
  have hmem : (shard, seq) ∈ taken := by
    refine mem_of_mem_filter (p := fun p => decide (p.1 = shard)) ?_
    rw [hfilter]
    exact mem_map_of_mem hseq
  rw [Function.comp_apply, entryAt_eq h, if_pos ((isSome_entryAt h).mp (hpresent _ hmem)).1]
  simp

/-- The first entry that is missing is the first one wanted of its shard. -/
theorem eq_first_of_absent {rest : List (ℕ × ℕ)} {seq : ℕ} (h : Shape snap log shard trimmed)
    (hshard : shard < shards)
    (hwanted : wantedEntries low high shards = taken ++ (shard, seq) :: rest)
    (hpresent : ∀ p ∈ taken, (entryAt snap p).isSome) (habsent : entryAt snap (shard, seq) = none)
    (hhigh : high.getD shard 0 ≤ log.length) : seq = low.getD shard 0 + 1 := by
  have hfilter : ((wantedEntries low high shards).filter fun p => p.1 = shard) = _ :=
    filter_wantedEntries hshard
  have hpre : taken <+: wantedEntries low high shards := ⟨_, hwanted.symm⟩
  obtain ⟨n, -, htaken⟩ := filter_taken hpre hshard
  rw [hwanted, filter_append, htaken, filter_cons_of_pos (by simp)] at hfilter
  -- the next sequence after those taken of the shard is the missing one
  have hget := congrArg (fun l => l[n]?) hfilter
  simp only [List.getElem?_append_right, length_map, length_range', le_refl, Nat.sub_self,
    List.getElem?_cons_zero, List.getElem?_map] at hget
  obtain ⟨seq', hseq', heq⟩ := Option.map_eq_some_iff.mp hget.symm
  obtain ⟨-, rfl⟩ := Prod.mk.inj heq
  obtain ⟨hlt, hval⟩ := List.getElem?_eq_some_iff.mp hseq'
  rw [length_range'] at hlt
  rw [getElem_range'] at hval
  by_contra hne
  have hfirst : (shard, low.getD shard 0 + 1) ∈ taken := by
    refine mem_of_mem_filter (p := fun p => decide (p.1 = shard)) ?_
    rw [htaken]
    exact mem_map_of_mem (mem_range'_1.mpr (by omega))
  have htrim := (isSome_entryAt h).mp (hpresent _ hfirst)
  have hsome : (entryAt snap (shard, seq')).isSome := (isSome_entryAt h).mpr (by omega)
  rw [habsent] at hsome
  cases hsome

/-- What a bounded read returns: of every shard the next piece of its log. -/
structure Slice (logs : ℕ → List (ℕ × JournalEntry)) (shards : ℕ) (low : List ℕ)
    (out : List Read) (reached : List ℕ) : Prop where
  length_eq : reached.length = shards
  within : ∀ shard < shards, low.getD shard 0 ≤ reached.getD shard 0 ∧
    reached.getD shard 0 ≤ (logs shard).length
  reads : ∀ shard < shards, readsOf shard out =
    ((logs shard).drop (low.getD shard 0)).take (reached.getD shard 0 - low.getD shard 0)

theorem mem_wantedEntries {p : ℕ × ℕ} (h : p ∈ wantedEntries low high shards) : p.1 < shards := by
  obtain ⟨s, hs, hp⟩ := mem_flatMap.mp h
  obtain ⟨seq, -, rfl⟩ := mem_map.mp hp
  exact mem_range.mp hs

/-- A bounded read of shards with their shapes returns the next pieces of their logs, or
reports that they were trimmed. -/
theorem readBounded_spec (enc : Encoding) (maxBytes : ℕ)
    (hshape : ∀ shard < shards, ∃ trimmed, Shape snap (logs shard) shard trimmed)
    (hlow : low.length = shards) (hhigh : high.length = shards)
    (hle : ∀ shard < shards, low.getD shard 0 ≤ high.getD shard 0)
    (hlogs : ∀ shard < shards, high.getD shard 0 = (logs shard).length) :
    (∃ out reached, readBounded enc snap low high maxBytes shards = .ok (out, reached) ∧
      Slice logs shards low out reached) ∨
    ∃ shard position first, readBounded enc snap low high maxBytes shards =
      .error (.journalTrimmed shard position first) := by
  have hentries : AllEntries snap (wantedEntries low high shards) := by
    intro p hp value hvalue
    obtain ⟨trimmed, h⟩ := hshape p.1 (mem_wantedEntries hp)
    rw [h.entries] at hvalue
    split_ifs at hvalue with htrim
    obtain ⟨q, -, rfl⟩ := Option.map_eq_some_iff.mp hvalue
    exact ⟨q.2, rfl⟩
  have hchecks : readBounded enc snap low high maxBytes shards =
      (readPages enc snap low high maxBytes (wantedEntries low high shards).length
        (wantedEntries low high shards) ⟨[], low, 0⟩).map fun r => (r.out, r.reached) := by
    have hforall : ((List.range shards).forM fun shard =>
        require (low.getD shard 0 ≤ high.getD shard 0) (LiveError.invalidArgument
          (s!"journal shard {shard}: head {high.getD shard 0} is below position " ++
            s!"{low.getD shard 0}"))) = .ok () :=
      forM_eq_ok.mpr fun shard hs => require_eq_ok.mpr (hle shard (mem_range.mp hs))
    unfold readBounded
    rw [show checkPositions shards low = .ok () from require_eq_ok.mpr hlow,
      show checkPositions shards high = .ok () from require_eq_ok.mpr hhigh, hforall]
    rfl
  rw [hchecks]
  obtain ⟨taken, rest, hwanted, hpresent, ⟨bytes, hok⟩ | ⟨p, hp, habsent, herror⟩⟩ :=
    Takes.readPages hentries
  · rw [hok]
    refine .inl ⟨_, _, rfl, (length_reach _ _).trans hlow, fun shard hs => ?_, fun shard hs => ?_⟩
    all_goals
      obtain ⟨trimmed, h⟩ := hshape shard hs
      have hpre : taken <+: wantedEntries low high shards := ⟨_, hwanted.symm⟩
      obtain ⟨n, hn, hfilter⟩ := filter_taken hpre hs
      have hreach : (reach low taken).getD shard 0 = low.getD shard 0 + n := by
        rw [getD_reach (hlow.symm ▸ hs), getLast?_range' _ hfilter]
      have := hle shard hs
      have := hlogs shard hs
      dsimp only
      rw [hreach]
    · omega
    · rw [Nat.add_sub_cancel_left, nil_append]
      exact readsOf_taken h hpresent hfilter (by omega)
  · rw [herror]
    obtain ⟨rest, rfl⟩ := head?_eq_some_iff.mp hp
    have hp : p ∈ wantedEntries low high shards := by
      rw [hwanted]
      simp
    obtain ⟨trimmed, h⟩ := hshape p.1 (mem_wantedEntries hp)
    have hseq := eq_first_of_absent h (mem_wantedEntries hp) hwanted hpresent habsent
      (hlogs _ (mem_wantedEntries hp)).le
    rw [missing, if_pos hseq]
    exact .inr ⟨_, _, _, rfl⟩

theorem heads_eq (hshape : ∀ shard < shards, ∃ trimmed, Shape snap (logs shard) shard trimmed) :
    heads shards snap = .ok ((List.range shards).map fun shard => (logs shard).length) := by
  rw [heads, mapM_eq_ok, forall₂_map_right_iff, forall₂_same]
  intro shard hs
  obtain ⟨trimmed, h⟩ := hshape shard (mem_range.mp hs)
  exact h.head

end Log

end Journal

/-! ## Following the journal -/

/-- A tailer with the batches that it has read and those that were acknowledged. -/
structure Follower where
  tailer : Tailer
  read : List Batch := []
  acked : List Batch := []

namespace Follower

/-- What a follower does. -/
inductive Event
  | tick (ts : Timestamp)
  /-- Acknowledges one of the batches read so far. -/
  | ack (n : ℕ)

variable (enc : Encoding) (snapshot : Timestamp → Store)

/-- One event. -/
def step (f : Follower) : Event → Follower
  | .tick ts =>
    match f.tailer.tick enc ts (snapshot ts) with
    | .ok batch => { f with read := f.read ++ [batch] }
    | .error _ => f
  | .ack n =>
    match f.read[n]? with
    | none => f
    | some batch =>
      match f.tailer.ack batch with
      | .ok tailer => { f with tailer, acked := f.acked ++ [batch] }
      | .error _ => f

/-- The events one after the other. -/
def run (f : Follower) (events : List Event) : Follower := events.foldl (step enc snapshot) f

/-- All entries of the acknowledged batches. -/
def delivered (f : Follower) : List Journal.Read := f.acked.flatMap (·.entries)

end Follower

section Delivery

open Journal

variable {app : App} {options : RunnerOptions} {shards : ℕ} {init : Store}
  {h : List AppCommit} {enc : Encoding}

/-- The commits up to a timestamp. -/
def upTo (h : List AppCommit) (ts : Timestamp) : List AppCommit := h.filter fun c => c.ts ≤ ts

theorem upTo_upTo (h : List AppCommit) {ts ts' : Timestamp} (hts : ts ≤ ts') :
    upTo (upTo h ts') ts = upTo h ts := by
  rw [upTo, upTo, upTo, filter_filter]
  refine filter_congr fun c _ => ?_
  simp only [← Bool.decide_and, decide_eq_decide]
  exact ⟨fun hc => hc.1, fun hc => ⟨hc, hc.trans hts⟩⟩

theorem log_isPrefix (shard : ℕ) {pre h : List AppCommit} (hpre : pre <+: h) :
    log shard pre <+: log shard h := by
  obtain ⟨post, rfl⟩ := hpre
  rw [log_append]
  exact prefix_append _ _

theorem getD_map_range {f : ℕ → ℕ} {shard : ℕ} (hs : shard < shards) :
    ((List.range shards).map f).getD shard 0 = f shard := by
  simp [getD_eq_getElem?_getD, hs]

theorem splitFrom_writes {header : JournalEntry} {writes chunk : List WriteRecord} {len : ℕ}
    {chunks : List JournalEntry} (hsplit : splitFrom enc header writes chunk len = .ok chunks) :
    chunks.flatMap (·.writes) = chunk ++ writes := by
  induction writes generalizing chunk len chunks with
  | nil =>
    obtain rfl := Except.ok.inj hsplit
    simp
  | cons write writes ih =>
    obtain ⟨_, -, hsplit⟩ := except_bind_ok.mp hsplit
    split_ifs at hsplit with hfull
    · obtain ⟨rest, hrest, hpure⟩ := except_bind_ok.mp hsplit
      obtain rfl := Except.ok.inj hpure
      rw [flatMap_cons, ih hrest]
      rfl
    · rw [ih hsplit, append_assoc]
      rfl

/-! ### Pieces of a log -/

section Pieces

variable {α : Type} {l l' : List α} {a b c : ℕ}

theorem take_drop_append (hab : a ≤ b) (hbc : b ≤ c) :
    (l.drop a).take (b - a) ++ (l.drop b).take (c - b) = (l.drop a).take (c - a) := by
  have hdrop : l.drop b = (l.drop a).drop (b - a) := by
    rw [drop_drop]
    congr 1
    omega
  have hsum : c - a = (b - a) + (c - b) := by omega
  rw [hdrop, hsum, take_add]

theorem take_drop_of_isPrefix (h : l' <+: l) (hb : b ≤ l'.length) :
    (l'.drop a).take (b - a) = (l.drop a).take (b - a) := by
  obtain ⟨rest, rfl⟩ := h
  rw [← drop_take, ← drop_take, take_append_of_le_length hb]

end Pieces

/-! ### What a tick reads -/

section Shared

variable (hh : History keyed Effect.written (Tx.run app options shards) init h)
variable (hinit : ∀ shard < shards, Fresh init shard)
include hh

theorem history_upTo (ts : Timestamp) :
    History keyed Effect.written (Tx.run app options shards) init (upTo h ts) :=
  hh.of_isPrefix (hh.filter_isPrefix ts)

include hinit in
theorem snapshot_shape (ts : Timestamp) :
    ∀ shard < shards, ∃ trimmed, Shape (keyed.snapshot init h ts)
      (log shard (upTo h ts)) shard trimmed := by
  intro shard hs
  obtain ⟨trimmed, hshape, -⟩ := Journal.kept_of_history (history_upTo hh ts) (hinit shard hs)
  exact ⟨trimmed, hshape⟩

variable {ts t₀ : Timestamp} {f : Follower}

theorem log_upTo_isPrefix (shard : ℕ) {ts' : Timestamp} (hts : ts ≤ ts') :
    log shard (upTo h ts) <+: log shard (upTo h ts') := by
  rw [← upTo_upTo h hts]
  exact log_isPrefix shard ((history_upTo hh ts').filter_isPrefix ts)

theorem log_upTo_isPrefix_log (shard : ℕ) (ts : Timestamp) :
    log shard (upTo h ts) <+: log shard h :=
  log_isPrefix shard (hh.filter_isPrefix ts)

/-- The batch holds, of every shard, the piece of the log behind its low positions up to
its heads, which are the heads visible at its timestamp if it is complete. -/
structure Batch.Sound (h : List AppCommit) (shards : ℕ) (b : Batch) : Prop where
  slice : Slice (fun shard => log shard (upTo h b.ts)) shards b.low b.entries b.heads
  complete : b.complete = true → ∀ shard < shards,
    b.heads.getD shard 0 = (log shard (upTo h b.ts)).length

include hinit in
/-- A tick from positions that are visible reads a sound batch, or finds the journal
trimmed. -/
theorem tick_spec {t : Tailer} (hshards : t.shards = shards) (hlen : t.positions.length = shards)
    (hvisible : ∀ shard < shards,
      t.positions.getD shard 0 ≤ (log shard (upTo h ts)).length) :
    (∃ b, t.tick enc ts (keyed.snapshot init h ts) = .ok b ∧ b.ts = ts ∧
      b.low = t.positions ∧ b.Sound h shards) ∨
    ∃ shard position first, t.tick enc ts (keyed.snapshot init h ts) =
      .error (.journalTrimmed shard position first) := by
  have hshape := snapshot_shape hh hinit ts
  have hheads := heads_eq hshape
  set visible := (List.range shards).map fun shard => (log shard (upTo h ts)).length
    with hvis
  have hlogs : ∀ shard < shards,
      visible.getD shard 0 = (log shard (upTo h ts)).length :=
    fun shard hs => getD_map_range hs
  have hread := readBounded_spec enc t.maxBatchBytes hshape hlen (by simp [hvis])
    (fun shard hs => (hvisible shard hs).trans (hlogs shard hs).ge) hlogs
  unfold Tailer.tick
  rw [hshards, hheads]
  rcases hread with ⟨out, reached, hok, hslice⟩ | ⟨shard, position, first, herror⟩
  · left
    refine ⟨⟨ts, t.positions, reached, out, reached = visible⟩, ?_, rfl, rfl, hslice, ?_⟩
    · exact except_bind_ok.mpr ⟨visible, rfl, except_bind_ok.mpr ⟨_, hok, rfl⟩⟩
    · intro hcomplete shard hs
      have heq : reached = visible := by simpa using hcomplete
      show reached.getD shard 0 = _
      rw [heq]
      exact hlogs shard hs
  · right
    refine ⟨shard, position, first, ?_⟩
    show (readBounded enc _ t.positions visible t.maxBatchBytes shards >>= _) = _
    rw [herror]
    rfl

include hinit in
/-- Only positions that are visible are read from. -/
theorem visible_of_tick {t : Tailer} (hshards : t.shards = shards) {b : Batch}
    (htick : t.tick enc ts (keyed.snapshot init h ts) = .ok b) :
    ∀ shard < shards, t.positions.getD shard 0 ≤ (log shard (upTo h ts)).length := by
  intro shard hs
  obtain ⟨visible, hheads, htick⟩ := except_bind_ok.mp htick
  rw [hshards, heads_eq (snapshot_shape hh hinit ts)] at hheads
  obtain rfl := Except.ok.inj hheads
  obtain ⟨_, hread, -⟩ := except_bind_ok.mp htick
  unfold readBounded at hread
  obtain ⟨_, -, hread⟩ := except_bind_ok.mp hread
  obtain ⟨_, -, hread⟩ := except_bind_ok.mp hread
  obtain ⟨_, hforall, -⟩ := except_bind_ok.mp hread
  have hle := require_eq_ok.mp (forM_eq_ok.mp hforall shard (mem_range.mpr (hshards ▸ hs)))
  rwa [getD_map_range hs] at hle

/-! ### The invariant -/

/-- What holds of a follower all along. -/
structure Follower.Follows (h : List AppCommit) (shards : ℕ) (t₀ : Timestamp) (f : Follower) :
    Prop where
  shards_eq : f.tailer.shards = shards
  length_eq : f.tailer.positions.length = shards
  sound : ∀ b ∈ f.read, b.Sound h shards
  within : ∀ shard < shards, f.tailer.positions.getD shard 0 ≤ (log shard h).length
  reads : ∀ shard < shards,
    (log shard (upTo h t₀)).length ≤ f.tailer.positions.getD shard 0 ∧
    readsOf shard f.delivered =
      ((log shard h).drop (log shard (upTo h t₀)).length).take
        (f.tailer.positions.getD shard 0 - (log shard (upTo h t₀)).length)
  visible : ∀ ts, t₀ ≤ ts → (∀ b ∈ f.acked, b.ts ≤ ts) → ∀ shard < shards,
    f.tailer.positions.getD shard 0 ≤ (log shard (upTo h ts)).length
  complete : ∀ b ∈ f.acked, b.complete = true → ∀ shard < shards,
    (log shard (upTo h b.ts)).length ≤ f.tailer.positions.getD shard 0

/-- A batch read from the positions continues what was delivered. -/
theorem Follower.Follows.reads_append {b : Batch} (hf : f.Follows h shards t₀)
    (hb : b.Sound h shards) (hlow : b.low = f.tailer.positions) {shard : ℕ} (hs : shard < shards) :
    readsOf shard (f.delivered ++ b.entries) =
      ((log shard h).drop (log shard (upTo h t₀)).length).take
        (b.heads.getD shard 0 - (log shard (upTo h t₀)).length) := by
  obtain ⟨hstart, hreads⟩ := hf.reads shard hs
  obtain ⟨hle, hlen⟩ := hb.slice.within shard hs
  rw [readsOf, filterMap_append, ← readsOf, ← readsOf, hreads, hb.slice.reads shard hs,
    take_drop_of_isPrefix (log_upTo_isPrefix_log hh shard b.ts) hlen, hlow]
  rw [hlow] at hle
  exact take_drop_append hstart hle

include hinit in
/-- Every event keeps the follower on the log. -/
theorem Follower.follows_step (hf : f.Follows h shards t₀) (event : Event) :
    (f.step enc (keyed.snapshot init h) event).Follows h shards t₀ := by
  cases event with
  | tick ts =>
    unfold Follower.step
    dsimp only
    cases htick : f.tailer.tick enc ts (keyed.snapshot init h ts) with
    | error e => exact hf
    | ok b =>
      have hb : b.Sound h shards := by
        have hvisible := visible_of_tick hh hinit hf.shards_eq htick
        rcases tick_spec hh hinit hf.shards_eq hf.length_eq hvisible with
          ⟨b', hok, -, -, hsound⟩ | ⟨_, _, _, herror⟩
        · rwa [Except.ok.inj (htick.symm.trans hok)]
        · cases htick.symm.trans herror
      exact { hf with sound := forall_mem_concat.mpr ⟨hf.sound, hb⟩ }
  | ack n =>
    unfold Follower.step
    dsimp only
    cases hn : f.read[n]? with
    | none => exact hf
    | some b =>
      dsimp only
      unfold Tailer.ack
      by_cases hlow : b.low = f.tailer.positions
      · have hb := hf.sound b (mem_of_getElem? hn)
        rw [if_pos hlow]
        refine ⟨hf.shards_eq, hb.slice.length_eq, hf.sound, fun shard hs => ?_,
          fun shard hs => ⟨?_, ?_⟩, ?_, ?_⟩
        · exact (hb.slice.within shard hs).2.trans (log_upTo_isPrefix_log hh shard b.ts).length_le
        · have hle := (hb.slice.within shard hs).1
          rw [hlow] at hle
          exact (hf.reads shard hs).1.trans hle
        · rw [← hf.reads_append hh hb hlow hs, Follower.delivered, flatMap_append,
            flatMap_singleton]
          rfl
        · intro ts hts hall shard hs
          have hbts : b.ts ≤ ts := hall b (by simp)
          exact (hb.slice.within shard hs).2.trans (log_upTo_isPrefix hh shard hbts).length_le
        · intro b' hb' hcomplete shard hs
          rcases mem_concat.mp hb' with hb' | rfl
          · have hle := (hb.slice.within shard hs).1
            rw [hlow] at hle
            exact (hf.complete b' hb' hcomplete shard hs).trans hle
          · exact (hb.complete hcomplete shard hs).ge
      · rw [if_neg hlow]
        exact hf

include hinit in
/-- A tailer starts at the heads visible at its timestamp. -/
theorem start_spec (t₀ : Timestamp) : ∃ tailer,
      Tailer.start shards (keyed.snapshot init h t₀) = .ok tailer ∧
      tailer.positions = (List.range shards).map
        (fun shard => (log shard (upTo h t₀)).length) ∧ tailer.shards = shards := by
  let positions := (List.range shards).map fun shard => (log shard (upTo h t₀)).length
  refine ⟨{ shards, positions }, ?_, rfl, rfl⟩
  refine except_bind_ok.mpr ⟨_, heads_eq (snapshot_shape hh hinit t₀), ?_⟩
  exact except_bind_ok.mpr ⟨(), require_eq_ok.mpr (by simp), rfl⟩

theorem Follower.follows_start {tailer : Tailer}
    (hpositions : tailer.positions = (List.range shards).map
      fun shard => (log shard (upTo h t₀)).length) (hshards : tailer.shards = shards) :
    ({ tailer } : Follower).Follows h shards t₀ := by
  refine ⟨hshards, by simp [hpositions], by simp, fun shard hs => ?_, fun shard hs => ?_,
    fun ts hts _ shard hs => ?_, by simp⟩
  · rw [hpositions, getD_map_range hs]
    exact (log_upTo_isPrefix_log hh shard t₀).length_le
  · rw [hpositions, getD_map_range hs]
    exact ⟨le_rfl, by simp [Follower.delivered, readsOf]⟩
  · rw [hpositions, getD_map_range hs]
    exact (log_upTo_isPrefix hh shard hts).length_le

include hinit in
theorem Follower.follows_run (hf : f.Follows h shards t₀) (events : List Event) :
    (f.run enc (keyed.snapshot init h) events).Follows h shards t₀ :=
  List.foldlRecOn events _ hf fun _ hg event _ => Follower.follows_step hh hinit hg event

/-! ### Write records -/

/-- The write records of a commit are in the chunks that it wrote to one shard. -/
theorem exists_chunk_of_mem_recordsOf
    (hstored : Attempt.journalShards init.data = .ok shards) {c : AppCommit} (hc : c ∈ h)
    {w : WriteRecord} (hw : w ∈ recordsOf app init h c) :
    ∃ shard < shards, ∃ p ∈ chunksOf shard c.effect.writes, w ∈ p.2.writes := by
  obtain ⟨pre, post, rfl, hadm⟩ := hh.admissible_of_mem hc
  have hpre : History keyed Effect.written (Tx.run app options shards) init pre :=
    hh.of_isPrefix (prefix_append _ _)
  rw [recordsOf, hh.snapshot_eq_of_mem] at hw
  have hran := hadm.ran
  cases htx : c.tx with
  | mutate attempt =>
    rw [htx] at hran hw
    obtain ⟨result, -, hout, -⟩ | ⟨result, live, hlive, hcommit⟩ := Tx.mutate_eq_some hran
    · rw [hout] at hw
      cases hw
    · obtain ⟨hnone, hout, -⟩ | ⟨stored, position, hshards, hout, happended⟩ := hcommit
      · rw [hout] at hw
        dsimp only at hw
        rw [hlive.call, hnone] at hw
        cases hw
      · rw [hout] at hw
        dsimp only at hw
        rw [hlive.call] at hw
        -- the count of shards is the one the app was opened with
        have hcount : stored = shards := by
          obtain ⟨seen, _, heq, -, -, hsnap⟩ := hpre.snapshot_eq c.start
          have hseen := hpre.of_isPrefix (heq ▸ prefix_append seen _)
          have hdef := Tx.settings_state hseen
            (.inl rfl : appDef = appDef ∨ appDef = AppKeys.schema)
          have hload : Attempt.journalShards (keyed.state init seen).data = .ok shards := by
            rw [← hstored]
            unfold Attempt.journalShards Catalog.loadJournalShards
            rw [hdef]
          rw [hsnap, hload] at hshards
          exact (Except.ok.inj hshards).symm
        obtain ⟨head, chunks, -, hsplit, -, heffect⟩ := happended.shape
        refine ⟨position.1, hcount ▸ happended.shard_lt, ?_⟩
        have hmem : w ∈ chunks.flatMap (·.writes) := by
          rw [splitFrom_writes hsplit]
          exact hw
        obtain ⟨chunk, hchunk, hw⟩ := mem_flatMap.mp hmem
        have hzip : chunk ∈ ((List.range' (head + 1) chunks.length).zip chunks).map Prod.snd := by
          rwa [map_snd_zip (by simp)]
        obtain ⟨p, hp, rfl⟩ := mem_map.mp hzip
        refine ⟨p, ?_, hw⟩
        rw [heffect, chunksOf_append, chunksOf_journalWrites]
        exact mem_append_right _ hp
  | _ =>
    rw [htx] at hw
    cases hw

/-- The commits after a timestamp. -/
def after (h : List AppCommit) (ts : Timestamp) : List AppCommit := h.filter fun c => ts < c.ts

theorem upTo_append_after (ts : Timestamp) : upTo h ts ++ after h ts = h := by
  obtain ⟨pre', post', heq, hpre', hpost', -⟩ := hh.snapshot_eq ts
  have hup : upTo h ts = pre' := by
    rw [upTo, heq, filter_append, filter_eq_self.mpr (by simpa using hpre'),
      filter_eq_nil_iff.mpr (by simpa using hpost'), append_nil]
  have hafter : after h ts = post' := by
    rw [after, heq, filter_append, filter_eq_nil_iff.mpr (by simpa using hpre'),
      filter_eq_self.mpr (by simpa using hpost'), nil_append]
  rw [hup, hafter, heq]

theorem drop_log (shard : ℕ) (ts : Timestamp) :
    (log shard h).drop (log shard (upTo h ts)).length = log shard (after h ts) := by
  conv_lhs => rw [← upTo_append_after hh ts, log_append]
  rw [upTo_append_after hh ts, drop_left]

/-- Entries that reach beyond the log up to a timestamp hold all write records committed
since the start. -/
theorem exists_read_of_covered (hstored : Attempt.journalShards init.data = .ok shards)
    {reads : List Read} {position : ℕ → ℕ}
    (hreads : ∀ shard < shards, readsOf shard reads =
      ((log shard h).drop (log shard (upTo h t₀)).length).take
        (position shard - (log shard (upTo h t₀)).length))
    (hcovered : ∀ shard < shards, (log shard (upTo h ts)).length ≤ position shard)
    {c : AppCommit} (hc : c ∈ h) (hafter : t₀ < c.ts) (hts : c.ts ≤ ts) {w : WriteRecord}
    (hw : w ∈ recordsOf app init h c) : ∃ r ∈ reads, w ∈ r.2.2.writes := by
  obtain ⟨shard, hs, p, hp, hwp⟩ := exists_chunk_of_mem_recordsOf hh hstored hc hw
  have hwithin : t₀ ≤ ts := hafter.le.trans hts
  -- the chunk is in the log up to the timestamp, behind the start
  have hmem : p ∈ (log shard (upTo h ts)).drop (log shard (upTo h t₀)).length := by
    rw [← upTo_upTo h hwithin, drop_log (history_upTo hh ts)]
    refine mem_flatMap.mpr ⟨c, ?_, hp⟩
    exact mem_filter.mpr ⟨mem_filter.mpr ⟨hc, by simpa using hts⟩, by simpa using hafter⟩
  have hmem' : p ∈ readsOf shard reads := by
    have hlen := Nat.sub_le_sub_right (hcovered shard hs) (log shard (upTo h t₀)).length
    rw [← length_drop] at hlen
    rw [hreads shard hs]
    have hpre := (log_upTo_isPrefix_log hh shard ts).drop (log shard (upTo h t₀)).length
    exact (prefix_take_iff.mpr ⟨hpre, hlen⟩).subset hmem
  obtain ⟨r, hr, hrp⟩ := mem_filterMap.mp hmem'
  split_ifs at hrp
  exact ⟨r, hr, (Option.some.inj hrp) ▸ hwp⟩

/-! ### The guarantee -/

theorem seqs_after {shard : ℕ} (hfresh : Fresh init shard) (ts : Timestamp) :
    (log shard (after h ts)).map Prod.fst =
      List.range' ((log shard (upTo h ts)).length + 1)
        (log shard (after h ts)).length := by
  obtain ⟨trimmed, hshape, -⟩ := Journal.kept_of_history hh hfresh
  have hseqs := hshape.seqs
  have hlog : log shard h =
      log shard (upTo h ts) ++ log shard (after h ts) := by
    rw [← log_append, upTo_append_after hh ts]
  rw [hlog, map_append, length_append, ← range'_append_1] at hseqs
  obtain ⟨-, hseqs⟩ := append_inj hseqs (by simp)
  rw [hseqs, Nat.add_comm]

end Shared

/-- For every history, a tailer started at a timestamp delivers, in every shard, exactly
the chunks committed since then up to its position, in the order of their sequences and
without a gap; a complete batch brings the last of the write records committed up to its
timestamp; and a tick at a timestamp not before those of the acknowledged batches either
reads a batch or finds the journal trimmed. -/
theorem journal_delivered_exactly_once
    (hh : History Store.keyed Effect.written (Tx.run app options shards) init h)
    (hinit : ∀ shard < shards, Fresh init shard)
    (hstored : Attempt.journalShards init.data = .ok shards) (t₀ : Timestamp) (budget : ℕ) :
    ∃ tailer, Tailer.start shards (Store.keyed.snapshot init h t₀) = .ok tailer ∧
      ∀ events : List Follower.Event,
        let f := ({ tailer := tailer.withMaxBatchBytes budget } : Follower).run app.enc
          (Store.keyed.snapshot init h) events
        (∀ shard < shards,
          readsOf shard f.delivered = (log shard (after h t₀)).filter
            (fun p => p.1 ≤ f.tailer.positions.getD shard 0) ∧
          (readsOf shard f.delivered).map Prod.fst =
            List.range' (tailer.positions.getD shard 0 + 1)
              (f.tailer.positions.getD shard 0 - tailer.positions.getD shard 0)) ∧
        (∀ b ∈ f.acked, b.complete = true → ∀ c ∈ h, t₀ < c.ts → c.ts ≤ b.ts →
          ∀ w ∈ recordsOf app init h c, ∃ r ∈ f.delivered, w ∈ r.2.2.writes) ∧
        (∀ ts, t₀ ≤ ts → (∀ b ∈ f.acked, b.ts ≤ ts) →
          (∃ shard position first, f.tailer.tick app.enc ts (Store.keyed.snapshot init h ts) =
            .error (.journalTrimmed shard position first)) ∨
          ∃ b, f.tailer.tick app.enc ts (Store.keyed.snapshot init h ts) = .ok b ∧
            (b.complete = true → ∀ c ∈ h, t₀ < c.ts → c.ts ≤ ts →
              ∀ w ∈ recordsOf app init h c, ∃ r ∈ f.delivered ++ b.entries, w ∈ r.2.2.writes)) := by
  obtain ⟨tailer, hstart, hpositions, hshards⟩ := start_spec hh hinit t₀
  refine ⟨tailer, hstart, fun events => ?_⟩
  intro f
  have hf : f.Follows h shards t₀ := by
    apply Follower.follows_run hh hinit
    exact Follower.follows_start hh hpositions hshards
  refine ⟨fun shard hs => ?_, fun b hb hcomplete c hc hafter hts w hw => ?_,
    fun ts hts hacked => ?_⟩
  · obtain ⟨hle, hreads⟩ := hf.reads shard hs
    have hseqs := seqs_after hh (hinit shard hs) t₀
    have hlen : f.tailer.positions.getD shard 0 - (log shard (upTo h t₀)).length ≤
        (log shard (after h t₀)).length := by
      have hwithin := hf.within shard hs
      rw [← drop_log hh, length_drop]
      omega
    rw [drop_log hh] at hreads
    refine ⟨by rw [hreads, filter_eq_take _ hseqs], ?_⟩
    rw [hreads, map_take, hseqs, hpositions, getD_map_range hs]
    refine ext_getElem (by simpa using hlen) fun i _ _ => ?_
    simp
  · exact exists_read_of_covered hh hstored (fun shard hs => (hf.reads shard hs).2)
      (hf.complete b hb hcomplete) hc hafter hts hw
  · have hvisible := hf.visible ts hts hacked
    rcases tick_spec hh hinit hf.shards_eq hf.length_eq hvisible with
      ⟨b, hok, rfl, hlow, hsound⟩ | herror
    · refine .inr ⟨b, hok, fun hcomplete c hc hafter hts w hw => ?_⟩
      exact exists_read_of_covered hh hstored (fun shard hs => hf.reads_append hh hsound hlow hs)
        (fun shard hs => (hsound.complete hcomplete shard hs).ge) hc hafter hts hw
    · exact .inl herror

end Delivery

/-! ### A mutation and a tick -/

namespace Sample

theorem clock_fresh : ∀ shard < 1, Journal.Fresh clockInit shard := fun _ _ =>
  ⟨rfl, fun _ => rfl⟩

end Sample

theorem journal_delivered_exactly_once_visit : ∃ tailer,
    Tailer.start 1 (Store.keyed.snapshot Sample.clockInit [Sample.writer] 0) = .ok tailer ∧
      (Journal.readsOf 0 (({ tailer := tailer.withMaxBatchBytes 1 } : Follower).run
        Sample.clockApp.enc (Store.keyed.snapshot Sample.clockInit [Sample.writer])
          [.tick 7, .ack 0]).delivered).map Prod.fst = [1] := by
  obtain ⟨tailer, hstart, hall⟩ := journal_delivered_exactly_once Sample.writer_history
    Sample.clock_fresh rfl 0 1
  refine ⟨tailer, hstart, ?_⟩
  obtain rfl : tailer = { shards := 1, positions := [0] } :=
    (Except.ok.inj (hstart.symm.trans rfl))
  exact ((hall [.tick 7, .ack 0]).1 0 Nat.one_pos).2

end Loams.Live
