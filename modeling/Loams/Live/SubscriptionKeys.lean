/-
# One subscription for each key
-/

import Loams.Live.Subscriptions

namespace Loams.Live.Subs

open Option Loams.Data Loams.Control Loams.Tikv Std.ExtTreeMap List

variable {Q V E : Type}

/-! ## Subscribers -/

/-- The manager and the subscribers that have got an id and not left. -/
structure World (Q V E : Type) where
  manager : Manager Q V E := {}
  holders : Manager.Replies := []

/-- What can happen. -/
inductive Action (Q V E : Type)
  /-- A round of commands, with what the new keys evaluate to. -/
  | commands (evaluate : SubId → Q → Except E (Evaluation V)) (cmds : List (Cmd Q))
  | tick (env : Manager.Env Q V E)

namespace World

/-- One command, with the new keys of the round. -/
def command (s : World Q V E × List (NewSub Q)) (c : Cmd Q) : World Q V E × List (NewSub Q) :=
  let (m, fresh, replies) := Manager.command (s.1.manager, s.2, []) c
  let holders := match c with
    | .subscribe _ _ _ => s.1.holders ++ replies
    | .unsubscribe id subscriber => s.1.holders.erase (subscriber, id)
  (⟨m, holders⟩, fresh)

variable [BEq V] [BEq E]

/-- One action. -/
def step (w : World Q V E) : Action Q V E → World Q V E
  | .commands evaluate cmds =>
    let (w, fresh) := cmds.foldl command (w, [])
    let (m, replies) := w.manager.enroll evaluate fresh
    ⟨m, w.holders ++ replies⟩
  | .tick env =>
    let r := w.manager.tickOnce env
    ⟨r.manager, w.holders ++ r.replies⟩

/-- Every action from the start. -/
def run (actions : List (Action Q V E)) : World Q V E := actions.foldl step {}

end World

section Commands

variable {m : Manager Q V E} {fresh : List (NewSub Q)}

/-- Earlier answers play no role for a command. -/
theorem command_replies (replies : Manager.Replies) (c : Cmd Q) :
    Manager.command (m, fresh, replies) c =
      let r := Manager.command (m, fresh, []) c
      (r.1, r.2.1, replies ++ r.2.2) := by
  cases c with
  | subscribe key query reply =>
    simp only [Manager.command]
    split <;> simp
  | unsubscribe id subscriber => simp [Manager.command]

theorem foldl_command (cmds : List (Cmd Q)) (replies : Manager.Replies) (w : World Q V E) :
    let r := cmds.foldl Manager.command (w.manager, fresh, replies)
    let s := cmds.foldl World.command (w, fresh)
    r.1 = s.1.manager ∧ r.2.1 = s.2 := by
  induction cmds generalizing fresh replies w with
  | nil => exact ⟨rfl, rfl⟩
  | cons c cmds ih =>
    simp only [foldl_cons]
    rw [command_replies]
    exact ih _ (World.command (w, fresh) c).1

/-- The manager of the world handles a round of commands as the manager does. -/
theorem manager_step_commands [BEq V] [BEq E] (w : World Q V E)
    (evaluate : SubId → Q → Except E (Evaluation V)) (cmds : List (Cmd Q)) :
    (w.step (.commands evaluate cmds)).manager = (w.manager.commands evaluate cmds).1 := by
  obtain ⟨hm, hfresh⟩ := @foldl_command Q V E [] cmds [] w
  simp only [World.step, Manager.commands]
  rw [hm, hfresh]

end Commands

/-! ## What holds between the steps -/

section Tidy

variable (keyOf : Subscriber → SubKey) (proper : Prop)

/-- How many subscribers hold an id. -/
def holding (holders : Manager.Replies) (id : SubId) : ℕ := holders.countP fun h => h.2 = id

/-- The map from keys to ids is that of the subscriptions and new keys are told apart. If
the subscribers behaved, references are counted. -/
structure Tidy (m : Manager Q V E) (fresh : List (NewSub Q)) (holders : Manager.Replies) :
    Prop where
  byKey : ∀ k id, m.byKey k = some id ↔ ∃ sub, m.subs[id]? = some sub ∧ sub.key = k
  below : ∀ id sub, m.subs[id]? = some sub → id < m.nextId
  distinct : ((m.waiting ++ fresh).map NewSub.key).Nodup
  absent : ∀ n ∈ m.waiting ++ fresh, m.byKey n.key = none
  refs : proper → ∀ id sub, m.subs[id]? = some sub → sub.refs = holding holders id
  held : proper → ∀ h ∈ holders, ∃ sub, m.subs[h.2]? = some sub ∧ sub.key = keyOf h.1
  asked : proper → ∀ n ∈ m.waiting ++ fresh, ∀ u ∈ n.replies, keyOf u = n.key

variable {keyOf proper} {m m' : Manager Q V E} {fresh : List (NewSub Q)}
  {holders : Manager.Replies}

theorem tidy_empty : Tidy keyOf proper ({} : Manager Q V E) [] [] := by
  constructor <;> simp

variable {id : SubId} {key : SubKey} {u : Subscriber} {sub' sub : Sub Q V E}

section

variable (h : Tidy keyOf proper m fresh holders)
include h

theorem Tidy.holding_eq (hholding : m.holding key = some (id, sub)) :
    m.subs[id]? = some sub ∧ sub.key = key := by
  obtain ⟨id', hid, hmap⟩ := bind_eq_some_iff.mp hholding
  obtain ⟨sub', hsub, heq⟩ := map_eq_some_iff.mp hmap
  obtain ⟨rfl, rfl⟩ := Prod.mk.inj heq
  obtain ⟨sub, hget, hkey⟩ := (h.byKey key id').mp hid
  obtain rfl : sub' = sub := some.inj (hsub.symm.trans hget)
  exact ⟨hsub, hkey⟩

theorem Tidy.byKey_eq_none (hholding : m.holding key = none) : m.byKey key = none := by
  cases hid : m.byKey key with
  | none => rfl
  | some id =>
    obtain ⟨sub, hget, -⟩ := (h.byKey key id).mp hid
    simp [Manager.holding, hid, hget] at hholding

/-! ### Commands -/

/-- The same subscriptions as far as keys go, with references that count other holders. -/
theorem Tidy.congr {holders' : Manager.Replies}
    (hbyKey : m'.byKey = m.byKey) (hnextId : m'.nextId = m.nextId)
    (hwaiting : m'.waiting = m.waiting)
    (hkeys : ∀ id : SubId, (m'.subs[id]?).map Sub.key = (m.subs[id]?).map Sub.key)
    (hrefs : proper → ∀ id sub, m'.subs[id]? = some sub → sub.refs = holding holders' id)
    (hheld : proper → ∀ x ∈ holders', (m.subs[x.2]?).map Sub.key = some (keyOf x.1)) :
    Tidy keyOf proper m' fresh holders' where
  byKey k id := by rw [hbyKey, h.byKey, ← map_eq_some_iff, ← hkeys, map_eq_some_iff]
  below id sub hget := by
    have hmap := hkeys id
    rw [hget] at hmap
    obtain ⟨sub', hget', -⟩ := map_eq_some_iff.mp hmap.symm
    exact hnextId ▸ h.below id sub' hget'
  distinct := hwaiting ▸ h.distinct
  absent := by
    rw [hwaiting, hbyKey]
    exact h.absent
  refs := hrefs
  held hproper x hx := map_eq_some_iff.mp ((hkeys _).trans (hheld hproper x hx))
  asked := hwaiting ▸ h.asked

/-- A subscription that keeps its key and whose references are counted anew. -/
theorem Tidy.recount {holders' : Manager.Replies}
    (hget : m.subs[id]? = some sub) (hkey : sub'.key = sub.key)
    (hrefs : proper → sub'.refs = holding holders' id)
    (hother : proper → ∀ id', id' ≠ id → holding holders' id' = holding holders id')
    (hheld : proper → ∀ x ∈ holders', x ∈ holders ∨ x.2 = id ∧ keyOf x.1 = sub.key) :
    Tidy keyOf proper { m with subs := m.subs.insert id sub' } fresh holders' := by
  refine h.congr rfl rfl rfl (fun id' => ?_) (fun hproper id' s hs => ?_) fun hproper x hx => ?_
  · dsimp only
    rw [get_insert]
    split_ifs with hid
    · rw [← hid, hget, map_some, map_some, hkey]
    · rfl
  · rcases get_insert_eq_some.mp hs with ⟨rfl, rfl⟩ | ⟨hid, hs⟩
    · exact hrefs hproper
    · rw [h.refs hproper id' s hs, hother hproper id' hid.symm]
  · rcases hheld hproper x hx with hx | ⟨rfl, hkeyOf⟩
    · exact map_eq_some_iff.mpr (h.held hproper x hx)
    · rw [hget, hkeyOf]
      rfl

end

theorem holding_append (holders more : Manager.Replies) (id : SubId) :
    holding (holders ++ more) id = holding holders id + holding more id :=
  countP_append

theorem holding_erase (hmem : (u, id) ∈ holders) (id' : SubId) :
    holding (holders.erase (u, id)) id' = holding holders id' - if id' = id then 1 else 0 := by
  have hperm : holding holders id' = holding ((u, id) :: holders.erase (u, id)) id' :=
    (perm_cons_erase hmem).countP_eq _
  rw [hperm]
  by_cases hid : id' = id
  · simp [holding, hid]
  · simp [holding, hid, Ne.symm hid]

/-- One subscriber of an id leaves. -/
theorem Tidy.unsubscribe (h : Tidy keyOf proper m fresh holders)
    (hmem : proper → (u, id) ∈ holders) :
    Tidy keyOf proper (m.unsubscribe id) fresh (holders.erase (u, id)) := by
  unfold Manager.unsubscribe
  cases hget : m.subs[id]? with
  | none =>
    -- who behaves holds an id of a subscription
    have hnot : ¬proper := fun hproper => by
      obtain ⟨sub, hsub, -⟩ := h.held hproper _ (hmem hproper)
      cases hget.symm.trans hsub
    exact { h with refs := fun hp => (hnot hp).elim, held := fun hp => (hnot hp).elim }
  | some sub =>
    dsimp only
    split_ifs with hlast
    · -- nobody else holds the id
      have hnobody : proper → ∀ x ∈ holders.erase (u, id), x.2 ≠ id := by
        intro hproper x hx
        have hzero : holding (holders.erase (u, id)) id = 0 := by
          rw [holding_erase (hmem hproper), if_pos rfl, ← h.refs hproper id sub hget, hlast]
        simpa using countP_eq_zero.mp hzero x hx
      have hremoved : ∀ k, m.byKey k = some id ↔ k = sub.key := by
        intro k
        rw [h.byKey k id, hget]
        simp [eq_comm]
      constructor
      · intro k id'
        have hkept : Function.update m.byKey sub.key none k = some id' ↔
            k ≠ sub.key ∧ m.byKey k = some id' := by
          rw [Function.update_apply]
          split_ifs with hk <;> simp [hk]
        simp only [hkept, get_erase_eq_some, and_assoc, exists_and_left, ← h.byKey]
        -- the key had one subscription
        refine and_congr_left fun hid => ?_
        rw [ne_eq, ← hremoved k, hid, some.injEq, eq_comm]
      · exact fun id' s hs => h.below id' s (get_erase_eq_some.mp hs).2
      · exact h.distinct
      · exact fun n hn => by simp [Function.update_apply, h.absent n hn]
      · intro hproper id' s hs
        obtain ⟨hid, hs⟩ := get_erase_eq_some.mp hs
        rw [h.refs hproper id' s hs, holding_erase (hmem hproper), if_neg hid.symm, Nat.sub_zero]
      · intro hproper x hx
        obtain ⟨s, hs, hkey⟩ := h.held hproper x (mem_of_mem_erase hx)
        exact ⟨s, (get_erase_ne (hnobody hproper x hx).symm).trans hs, hkey⟩
      · exact h.asked
    · refine h.recount hget rfl (fun hproper => ?_) (fun hproper id' hid => ?_)
        fun _ x hx => .inl (mem_of_mem_erase hx)
      · dsimp only
        rw [holding_erase (hmem hproper), if_pos rfl, h.refs hproper id sub hget]
      · rw [holding_erase (hmem hproper), if_neg hid, Nat.sub_zero]

theorem mem_ask {query : Q} {l : List (NewSub Q)} {n : NewSub Q}
    (h : n ∈ Manager.ask key query u l) :
    n ∈ l ∨ n.key = key ∧ ∀ v ∈ n.replies, v = u ∨ ∃ n' ∈ l, n'.key = key ∧ v ∈ n'.replies := by
  induction l with
  | nil =>
    rw [mem_singleton.mp h]
    exact .inr ⟨rfl, fun v hv => .inl (mem_singleton.mp hv)⟩
  | cons a l ih =>
    unfold Manager.ask at h
    split_ifs at h with ha
    · rcases mem_cons.mp h with rfl | h
      · refine .inr ⟨ha, fun v hv => ?_⟩
        rcases mem_append.mp hv with hv | hv
        · exact .inr ⟨a, mem_cons_self, ha, hv⟩
        · exact .inl (mem_singleton.mp hv)
      · exact .inl (mem_cons_of_mem _ h)
    · rcases mem_cons.mp h with rfl | h
      · exact .inl mem_cons_self
      · refine (ih h).imp (mem_cons_of_mem _) ?_
        rintro ⟨hkey, hall⟩
        refine ⟨hkey, fun v hv => (hall v hv).imp_right ?_⟩
        rintro ⟨n', hn', hrest⟩
        exact ⟨n', mem_cons_of_mem _ hn', hrest⟩

/-- A key that is asked for again stays where it is. -/
theorem map_key_ask (key : SubKey) (query : Q) (u : Subscriber) (l : List (NewSub Q)) :
    (Manager.ask key query u l).map NewSub.key =
      if key ∈ l.map NewSub.key then l.map NewSub.key else l.map NewSub.key ++ [key] := by
  induction l with
  | nil => simp [Manager.ask]
  | cons a l ih =>
    unfold Manager.ask
    split_ifs with ha hmem hmem
    · simp
    · simp [ha] at hmem
    · have hl : key ∈ l.map NewSub.key := by simpa [Ne.symm ha] using hmem
      rw [map_cons, ih, if_pos hl, map_cons]
    · have hl : key ∉ l.map NewSub.key := fun hl => hmem (mem_cons_of_mem _ hl)
      rw [map_cons, ih, if_neg hl, map_cons, cons_append]

/-- Someone subscribes to a key that does not wait already. -/
theorem Tidy.subscribe (h : Tidy keyOf proper m fresh holders) (query : Q)
    (hu : proper → keyOf u = key) (hwaiting : ∀ n ∈ m.waiting, n.key ≠ key) :
    let r := Manager.command (m, fresh, []) (.subscribe key query u)
    Tidy keyOf proper r.1 r.2.1 (holders ++ r.2.2) := by
  unfold Manager.command
  dsimp only
  cases hholding : m.holding key with
  | some p =>
    obtain ⟨id, sub⟩ := p
    obtain ⟨hget, hkey⟩ := h.holding_eq hholding
    dsimp only
    refine h.recount hget rfl (fun hproper => ?_) (fun _ id' hid => ?_) fun hproper x hx => ?_
    · dsimp only
      rw [nil_append, holding_append, h.refs hproper id sub hget]
      simp [holding]
    · rw [nil_append, holding_append]
      simp [holding, Ne.symm hid]
    · rcases mem_append.mp hx with hx | hx
      · exact .inl hx
      · rw [mem_singleton.mp hx]
        exact .inr ⟨rfl, (hu hproper).trans hkey.symm⟩
  | none =>
    dsimp only
    rw [append_nil]
    refine { h with distinct := ?_, absent := fun n hn => ?_, asked := fun hproper n hn => ?_ }
    · have hdistinct := h.distinct
      rw [map_append] at hdistinct ⊢
      rw [map_key_ask]
      split_ifs with hmem
      · exact hdistinct
      · rw [← append_assoc]
        refine nodup_append.mpr ⟨hdistinct, nodup_singleton _, fun k hk k' hk' => ?_⟩
        rw [mem_singleton.mp hk']
        rintro rfl
        rcases mem_append.mp hk with hk | hk
        · obtain ⟨n, hn, hkey⟩ := mem_map.mp hk
          exact hwaiting n hn hkey
        · exact hmem hk
    · rcases mem_append.mp hn with hn | hn
      · exact h.absent n (mem_append_left _ hn)
      · rcases mem_ask hn with hn | ⟨hkey, -⟩
        · exact h.absent n (mem_append_right _ hn)
        · rw [hkey]
          exact h.byKey_eq_none hholding
    · rcases mem_append.mp hn with hn | hn
      · exact h.asked hproper n (mem_append_left _ hn)
      · rcases mem_ask hn with hn | ⟨hkey, hall⟩
        · exact h.asked hproper n (mem_append_right _ hn)
        · intro v hv
          rw [hkey]
          rcases hall v hv with rfl | ⟨n', hn', hkey', hv⟩
          · exact hu hproper
          · exact (h.asked hproper n' (mem_append_right _ hn') v hv).trans hkey'

/-! ### New keys -/

theorem holding_replies (replies : List Subscriber) (id id' : SubId) :
    holding (replies.map fun u => (u, id)) id' = if id' = id then replies.length else 0 := by
  induction replies with
  | nil => simp [holding]
  | cons u replies ih =>
    rw [map_cons, ← singleton_append, holding_append, ih]
    by_cases hid : id' = id
    · simp [holding, hid, Nat.add_comm]
    · simp [holding, hid, Ne.symm hid]

/-- A new key is subscribed. -/
theorem Tidy.addNew {n : NewSub Q} {replies : Manager.Replies}
    (h : Tidy keyOf proper m (n :: fresh) (holders ++ replies))
    (evaluate : SubId → Q → Except E (Evaluation V)) (ts : Timestamp) :
    let r := Manager.addNew evaluate ts (m, replies) n
    Tidy keyOf proper r.1 fresh (holders ++ r.2) := by
  unfold Manager.addNew
  dsimp only
  rw [← append_assoc]
  generalize holders ++ replies = holders at h ⊢
  have hdistinct := h.distinct
  rw [map_append, map_cons] at hdistinct
  obtain ⟨hnotMem, hrest⟩ := nodup_cons.mp (nodup_middle.mp hdistinct)
  have hmem : ∀ n' ∈ m.waiting ++ fresh, n' ∈ m.waiting ++ n :: fresh :=
    fun n' hn' => (sublist_cons_self n fresh).append_left m.waiting |>.subset hn'
  have hnone := h.absent n (by simp)
  constructor
  · intro k id
    have hold : m.byKey k = some id → m.nextId ≠ id := fun hid => by
      obtain ⟨sub, hget, -⟩ := (h.byKey k id).mp hid
      exact (h.below id sub hget).ne'
    simp only [get_insert_eq_some, or_and_right, exists_or, and_assoc, exists_and_left,
      exists_eq_left', ← h.byKey, Function.update_apply]
    by_cases hk : k = n.key
    · simp [hk, hnone]
    · simp [hk, Ne.symm hk, and_iff_right_of_imp hold]
  · intro id sub hsub
    rcases get_insert_eq_some.mp hsub with ⟨rfl, -⟩ | ⟨-, hsub⟩
    · exact Nat.lt_succ_self _
    · exact Nat.lt_succ_of_lt (h.below id sub hsub)
  · rw [map_append]
    exact hrest
  · intro n' hn'
    dsimp only
    rw [Function.update_apply, if_neg, h.absent n' (hmem n' hn')]
    intro hkey
    refine hnotMem ?_
    rw [← hkey, ← map_append]
    exact mem_map_of_mem hn'
  · intro hproper id sub hsub
    have hnobody : holding holders m.nextId = 0 := by
      refine countP_eq_zero.mpr fun x hx => ?_
      obtain ⟨sub, hget, -⟩ := h.held hproper x hx
      have hlt := h.below _ sub hget
      simpa using hlt.ne
    rw [holding_append, holding_replies]
    rcases get_insert_eq_some.mp hsub with ⟨rfl, rfl⟩ | ⟨hid, hsub⟩
    · rw [if_pos rfl, hnobody, Nat.zero_add]
    · rw [if_neg hid.symm, Nat.add_zero, h.refs hproper id sub hsub]
  · intro hproper x hx
    rcases mem_append.mp hx with hx | hx
    · obtain ⟨sub, hget, hkey⟩ := h.held hproper x hx
      exact ⟨sub, (get_insert_ne (h.below _ sub hget).ne').trans hget, hkey⟩
    · obtain ⟨u, hu, rfl⟩ := mem_map.mp hx
      exact ⟨_, getElem?_insert_self, (h.asked hproper n (by simp) u hu).symm⟩
  · exact fun hproper n' hn' => h.asked hproper n' (hmem n' hn')

section

variable (h : Tidy keyOf proper m fresh holders) (evaluate : SubId → Q → Except E (Evaluation V))
include h

theorem Tidy.evaluateNew (ts : Timestamp) : let r := m.evaluateNew evaluate fresh ts
    Tidy keyOf proper r.1 [] (holders ++ r.2) := by
  have hfold : ∀ s : Manager Q V E × Manager.Replies, Tidy keyOf proper s.1 fresh (holders ++ s.2) →
      let r := fresh.foldl (Manager.addNew evaluate ts) s
      Tidy keyOf proper r.1 [] (holders ++ r.2) := by
    clear h
    induction fresh with
    | nil => exact fun s hs => hs
    | cons n fresh ih => exact fun s hs => ih _ (hs.addNew evaluate ts)
  exact hfold (m, []) (by simpa using h)

theorem Tidy.enroll : let r := m.enroll evaluate fresh
    Tidy keyOf proper r.1 [] (holders ++ r.2) := by
  unfold Manager.enroll
  dsimp only
  split_ifs with hempty
  · rw [isEmpty_iff.mp hempty] at h
    simpa using h
  · split
    · exact h.evaluateNew evaluate _
    · refine ⟨h.byKey, h.below, ?_, ?_, ?_, ?_, ?_⟩
      · simpa using h.distinct
      · simpa using h.absent
      · simpa using h.refs
      · simpa using h.held
      · simpa using h.asked

end

/-! ### Ticks -/

/-- The same subscriptions, as far as keys and references go. -/
structure SameKeys (m m' : Manager Q V E) : Prop where
  byKey : m'.byKey = m.byKey
  nextId : m'.nextId = m.nextId
  waiting : m'.waiting = m.waiting
  subs : ∀ id : SubId, (m'.subs[id]?).map (fun s => (s.key, s.refs)) =
    (m.subs[id]?).map fun s => (s.key, s.refs)

theorem SameKeys.refl (m : Manager Q V E) : SameKeys m m := ⟨rfl, rfl, rfl, fun _ => rfl⟩

theorem SameKeys.trans {m'' : Manager Q V E} (h : SameKeys m m') (h' : SameKeys m' m'') :
    SameKeys m m'' :=
  ⟨h'.byKey.trans h.byKey, h'.nextId.trans h.nextId, h'.waiting.trans h.waiting,
    fun id => (h'.subs id).trans (h.subs id)⟩

theorem Tidy.of_sameKeys (h : Tidy keyOf proper m fresh holders) (hsame : SameKeys m m') :
    Tidy keyOf proper m' fresh holders := by
  refine h.congr hsame.byKey hsame.nextId hsame.waiting (fun id => ?_)
    (fun hproper id sub hget => ?_) fun hproper x hx => map_eq_some_iff.mpr (h.held hproper x hx)
  · simpa [Function.comp_def] using congrArg (Option.map Prod.fst) (hsame.subs id)
  · have hmap := hsame.subs id
    rw [hget] at hmap
    obtain ⟨sub', hget', heq⟩ := map_eq_some_iff.mp hmap.symm
    rw [← h.refs hproper id sub' hget', (Prod.mk.inj heq).2]

theorem readJournal_sameKeys (m : Manager Q V E) (reads : List Read) :
    SameKeys m (m.readJournal reads).1 := by
  induction reads generalizing m with
  | nil => exact .refl m
  | cons r reads ih =>
    cases r with
    | batch entries moved complete =>
      have htake : SameKeys m (m.take entries moved) := ⟨rfl, rfl, rfl, fun _ => rfl⟩
      unfold Manager.readJournal
      dsimp only
      split_ifs
      · exact htake
      · exact htake.trans (ih _)
    | trimmed => exact .refl m
    | failed => exact .refl m

/-- A tick completes and takes those that wait as new keys. -/
theorem Tidy.complete (h : Tidy keyOf proper m [] holders) (ts : Timestamp) :
    Tidy keyOf proper { m with tick := some ts, valid := true, waiting := [] } m.waiting holders :=
  { h with
    distinct := by simpa using h.distinct
    absent := by simpa using h.absent
    asked := by simpa using h.asked }

section Ticks

variable [BEq V] [BEq E]

theorem apply_sameKeys (id : SubId) (evaluated : Except E (Evaluation V)) (ts : Timestamp)
    (m : Manager Q V E) : SameKeys m (m.apply id evaluated ts).1 := by
  unfold Manager.apply
  cases hget : m.subs[id]? with
  | none => exact .refl m
  | some sub =>
    have hkept : ∀ (index : ReadSetIndex) (sub' : Sub Q V E), sub'.key = sub.key →
        sub'.refs = sub.refs → SameKeys m { m with index, subs := m.subs.insert id sub' } := by
      intro index sub' hkey hrefs
      refine ⟨rfl, rfl, rfl, fun id' => ?_⟩
      dsimp only
      rw [get_insert]
      split_ifs with hid
      · rw [← hid, hget]
        simp [hkey, hrefs]
      · rfl
    dsimp only
    split_ifs
    all_goals exact hkept _ _ rfl rfl

theorem applyAll_sameKeys (ts : Timestamp) (m : Manager Q V E)
    (evaluated : List (SubId × Except E (Evaluation V))) :
    SameKeys m (m.applyAll ts evaluated).1 := by
  refine evaluated.foldlRecOn (motive := fun s : _ × _ => SameKeys m s.1) _ (.refl m) ?_
  exact fun s hs p _ => hs.trans (apply_sameKeys p.1 p.2 ts s.1)

section

variable (h : Tidy keyOf proper m [] holders) (env : Manager.Env Q V E)
include h

theorem Tidy.restart (resync : Bool) : let r := m.restart env resync
    Tidy keyOf proper r.manager [] (holders ++ r.replies) := by
  unfold Manager.restart
  cases env.restarted with
  | none => simpa using h
  | some ts =>
    have hstarted : SameKeys m { m with tailer := some { since := ts }, pending := ∅ } :=
      ⟨rfl, rfl, rfl, fun _ => rfl⟩
    exact (h.of_sameKeys (hstarted.trans (applyAll_sameKeys ts _ _))).complete ts
      |>.evaluateNew _ ts

theorem Tidy.settle (ts : Timestamp) : let r := m.settle env ts
    Tidy keyOf proper r.manager [] (holders ++ r.replies) := by
  unfold Manager.settle
  dsimp only
  have hrerun : SameKeys m { (m.rerun (env.evaluate .rerun) m.due ts).1 with pending := ∅ } :=
    (applyAll_sameKeys ts m _).trans ⟨rfl, rfl, rfl, fun _ => rfl⟩
  generalize (m.rerun (env.evaluate .rerun) m.due ts).1 = m₁ at hrerun ⊢
  split_ifs
  · have hsafety : SameKeys m ({ m₁ with pending := ∅ }.safety (env.evaluate .safety) ts).1 :=
      hrerun.trans (applyAll_sameKeys ts _ _)
    exact (h.of_sameKeys hsafety).complete ts |>.evaluateNew _ ts
  · exact (h.of_sameKeys hrerun).complete ts |>.evaluateNew _ ts

theorem Tidy.tickOnce : let r := m.tickOnce env
    Tidy keyOf proper r.manager [] (holders ++ r.replies) := by
  unfold Manager.tickOnce
  cases m.tailer with
  | none => exact h.restart env false
  | some tailer =>
    cases env.now with
    | none => simpa using h
    | some ts =>
      have hread := h.of_sameKeys (readJournal_sameKeys m env.reads)
      dsimp only
      split
      all_goals
        rename_i m' hm'
        rw [hm'] at hread
      · simpa using hread
      · exact hread.restart env true
      · exact hread.settle env ts

end

end Ticks

end Tidy

/-! ## Runs -/

theorem waiting_unsubscribe (m : Manager Q V E) (id : SubId) :
    (m.unsubscribe id).waiting = m.waiting := by
  unfold Manager.unsubscribe
  split
  · rfl
  · split_ifs <;> rfl

/-- Commands leave those that wait alone. -/
theorem waiting_command (s : World Q V E × List (NewSub Q)) (c : Cmd Q) :
    (World.command s c).1.manager.waiting = s.1.manager.waiting := by
  cases c with
  | subscribe key query reply =>
    simp only [World.command, Manager.command]
    split <;> rfl
  | unsubscribe id subscriber => exact waiting_unsubscribe _ id

section Runs

variable (keyOf : Subscriber → SubKey)

/-- A subscriber asks for its key, and leaves only while it holds the id. -/
def ProperCmd (s : World Q V E × List (NewSub Q)) : Cmd Q → Prop
  | .subscribe key _ reply => keyOf reply = key
  | .unsubscribe id subscriber => (subscriber, id) ∈ s.1.holders

/-- The commands of the action are proper. -/
def Proper (w : World Q V E) : Action Q V E → Prop
  | .commands _ cmds => Along World.command (ProperCmd keyOf) (w, []) cmds
  | .tick _ => True

/-- Nobody subscribes to a key that waits already. -/
def NoneWaiting (w : World Q V E) : Action Q V E → Prop
  | .commands _ cmds => ∀ key query reply, .subscribe key query reply ∈ cmds →
    ∀ n ∈ w.manager.waiting, n.key ≠ key
  | .tick _ => True

variable {keyOf} {proper : Prop}

variable {s : World Q V E × List (NewSub Q)}

theorem Tidy.command (h : Tidy keyOf proper s.1.manager s.2 s.1.holders) {c : Cmd Q}
    (hproper : proper → ProperCmd keyOf s c)
    (hwaiting : ∀ key query reply, c = .subscribe key query reply →
      ∀ n ∈ s.1.manager.waiting, n.key ≠ key) :
    let r := World.command s c
    Tidy keyOf proper r.1.manager r.2 r.1.holders := by
  cases c with
  | subscribe key query reply => exact h.subscribe query hproper (hwaiting _ _ _ rfl)
  | unsubscribe id subscriber => exact h.unsubscribe hproper

theorem Tidy.foldl_command {cmds : List (Cmd Q)} (h : Tidy keyOf proper s.1.manager s.2 s.1.holders)
    (hproper : proper → Along World.command (ProperCmd keyOf) s cmds)
    (hwaiting : ∀ key query reply, .subscribe key query reply ∈ cmds →
      ∀ n ∈ s.1.manager.waiting, n.key ≠ key) :
    let r := cmds.foldl World.command s
    Tidy keyOf proper r.1.manager r.2 r.1.holders := by
  induction cmds generalizing s with
  | nil => exact h
  | cons c cmds ih =>
    refine ih (h.command (fun hp => (hproper hp).1) fun key query reply hc => ?_)
      (fun hp => (hproper hp).2) ?_
    · exact hwaiting key query reply (hc ▸ mem_cons_self)
    · rw [waiting_command]
      exact fun key query reply hmem => hwaiting key query reply (mem_cons_of_mem _ hmem)

variable [BEq V] [BEq E]

theorem Tidy.step {w : World Q V E} (h : Tidy keyOf proper w.manager [] w.holders)
    {a : Action Q V E}
    (hproper : proper → Proper keyOf w a) (hwaiting : NoneWaiting w a) :
    Tidy keyOf proper (w.step a).manager [] (w.step a).holders := by
  cases a with
  | commands evaluate cmds =>
    have hround : Tidy keyOf proper _ _ _ := Tidy.foldl_command (s := (w, [])) h hproper hwaiting
    exact hround.enroll evaluate
  | tick env => exact h.tickOnce env

theorem Tidy.run {actions : List (Action Q V E)} {w : World Q V E}
    (h : Tidy keyOf proper w.manager [] w.holders)
    (hproper : proper → Along World.step (Proper keyOf) w actions)
    (hwaiting : Along World.step NoneWaiting w actions) :
    let w' := actions.foldl World.step w
    Tidy keyOf proper w'.manager [] w'.holders := by
  induction actions generalizing w with
  | nil => exact h
  | cons a actions ih => 
    exact ih (h.step (fun hp => (hproper hp).1) hwaiting.1) (fun hp => (hproper hp).2) hwaiting.2

/-- In every run in which nobody subscribes to a key that waits already, a key has at most
one subscription, and the map names an id for a key exactly when the subscription exists and
has the key. If subscribers ask for their key and leave only what they hold, whoever got an
id and has not left is attached to a subscription of its key, whoever else leaves. -/
theorem one_subscription_per_key (keyOf : Subscriber → SubKey) {actions : List (Action Q V E)}
    (hwaiting : Along World.step NoneWaiting {} actions) :
    let w := World.run actions
    (∀ (id id' : SubId) sub sub', w.manager.subs[id]? = some sub →
      w.manager.subs[id']? = some sub' → sub.key = sub'.key → id = id') ∧
    (∀ k id, w.manager.byKey k = some id ↔ ∃ sub, w.manager.subs[id]? = some sub ∧ sub.key = k) ∧
    (Along World.step (Proper keyOf) {} actions → ∀ u id, (u, id) ∈ w.holders →
      ∃ sub, w.manager.subs[id]? = some sub ∧ sub.key = keyOf u) := by
  have htidy : Tidy keyOf (Along World.step (Proper keyOf) {} actions)
      (World.run actions).manager [] (World.run actions).holders :=
    tidy_empty.run (fun hproper => hproper) hwaiting
  refine ⟨fun id id' sub sub' hget hget' hkey => ?_, htidy.byKey,
    fun hproper u id hmem => htidy.held hproper _ hmem⟩
  have hsome := (htidy.byKey sub.key id).mpr ⟨sub, hget, rfl⟩
  have hsome' := (htidy.byKey sub.key id').mpr ⟨sub', hget', hkey.symm⟩
  exact some.inj (hsome.symm.trans hsome')

end Runs

/-! ### Two rounds before the first tick -/

namespace Sample

/-- A query. -/
def key : SubKey := ⟨"list", []⟩

/-- The first tick: the tailer starts at 5 and queries evaluate to nothing. -/
def firstTick : Manager.Env Unit Unit Unit where
  now := none
  reads := []
  restarted := some 5
  evaluate _ _ _ := .ok ⟨(), {}⟩
  safetyDue := false

/-- A subscriber comes. -/
def subscribes (u : Subscriber) : Action Unit Unit Unit :=
  .commands (fun _ _ => .ok ⟨(), {}⟩) [.subscribe key () u]

/-- A subscriber goes. -/
def leaves (id : SubId) (u : Subscriber) : Action Unit Unit Unit :=
  .commands (fun _ _ => .ok ⟨(), {}⟩) [.unsubscribe id u]

end Sample

open Subs.Sample in
/-- Two subscribers that ask for one key in two rounds before the first tick get two
subscriptions; when the second leaves, the map does not name the key of the first any
more. -/
theorem two_subscriptions_of_one_key :
    Along World.step (Proper fun _ => key) {} [subscribes 1, subscribes 2, .tick firstTick,
      leaves 2 2] ∧
    (let w := World.run [subscribes 1, subscribes 2, .tick firstTick]
     w.manager.subs[1]?.map Sub.key = some key ∧ w.manager.subs[2]?.map Sub.key = some key ∧
      w.holders = [(1, 1), (2, 2)]) ∧
    (let w := World.run [subscribes 1, subscribes 2, .tick firstTick, leaves 2 2]
     w.manager.subs[1]?.map Sub.key = some key ∧ w.manager.byKey key = none ∧
      w.holders = [(1, 1)]) := by
  refine ⟨⟨⟨rfl, trivial⟩, ⟨rfl, trivial⟩, trivial, ⟨?_, trivial⟩, trivial⟩, ⟨rfl, rfl, rfl⟩,
    rfl, rfl, rfl⟩
  exact mem_cons_of_mem _ mem_cons_self

open Subs.Sample in
/-- A subscriber before the first tick and one after it share a subscription. -/
theorem one_subscription_per_key_shared :
    let w := World.run [subscribes 1, .tick firstTick, subscribes 2, leaves 1 1]
    w.manager.byKey key = some 1 ∧ (2, 1) ∈ w.holders ∧
      ∃ sub, w.manager.subs[1]? = some sub ∧ sub.key = key := by
  have hproper : Along World.step (Proper fun _ => key) {}
      [subscribes 1, .tick firstTick, subscribes 2, leaves 1 1] :=
    ⟨⟨rfl, trivial⟩, trivial, ⟨rfl, trivial⟩, ⟨mem_cons_self, trivial⟩, trivial⟩
  have hwaiting : Along World.step NoneWaiting {}
      [subscribes 1, .tick firstTick, subscribes 2, leaves 1 1] := by
    refine ⟨?_, trivial, ?_, ?_, trivial⟩
    all_goals exact fun _ _ _ _ n hn => by cases hn
  obtain ⟨-, -, hheld⟩ := one_subscription_per_key (fun _ => key) hwaiting
  intro w
  have hmem : (2, 1) ∈ w.holders := mem_cons_self
  exact ⟨rfl, hmem, hheld hproper 2 1 hmem⟩

end Loams.Live.Subs
