/-
# What the operations of a function do to the data

An operation makes one change and records it, leaves the data alone, or leaves a new table
behind.
-/

import Loams.Live.Indexing

namespace Loams.Live

open Loams.Data Loams.Control Loams.Tikv Program Store
open List hiding range Vector

/-! ## Functions whose writes are recorded -/

/-- An operation that wrote something has added a record. -/
def LiveTxn.Recorded (s s' : LiveTxn) : Prop := s'.txn.writes = s.txn.writes ∨ s'.writes ≠ s.writes

/-- Along the run of a function from a state, every operation that writes something adds a
record. -/
def Body.Journaled (app : App) (draws : ℕ → Option (Vector UInt8 16)) : Body → LiveTxn → Prop
  | .done _, _ => True
  | .observe next, s => (next s.txn.start s.usage s.readSet).Journaled app draws s
  | .get id next, s =>
    let r := (LiveTxn.get app id).exec s
    (next r.1).Journaled app draws r.2
  | .query range next, s =>
    let r := (LiveTxn.query app range).exec s
    (next r.1).Journaled app draws r.2
  | .table name next, s =>
    let r := (LiveTxn.table name).exec s
    (next r.1).Journaled app draws r.2
  | .insert name fields next, s =>
    let r := (LiveTxn.insert app draws name fields).exec s
    s.Recorded r.2 ∧ (next r.1).Journaled app draws r.2
  | .patch id fields next, s =>
    let r := (LiveTxn.patch app id fields).exec s
    s.Recorded r.2 ∧ (next r.1).Journaled app draws r.2
  | .replace id fields next, s =>
    let r := (LiveTxn.replace app id fields).exec s
    s.Recorded r.2 ∧ (next r.1).Journaled app draws r.2
  | .delete id next, s =>
    let r := (LiveTxn.delete app id).exec s
    s.Recorded r.2 ∧ (next r.1).Journaled app draws r.2

/-! ## Operations -/

namespace LiveTxn

variable {app : App} {only : Prop} {s s' s'' : LiveTxn} {as : List Act}

/-- The operation did these acts, `only` changes where that is asked, and recorded them. -/
structure Acted (app : App) (only : Prop) (s : LiveTxn) (as : List Act) (s' : LiveTxn) :
    Prop where
  acts : Acts app.limits s.data as
  keeps : ∀ a ∈ as, a.KeepsTables
  changes : only → ∀ a ∈ as, a ∈ Set.range Act.change
  writes : s'.txn.writes = s.txn.writes ++ onData (as.flatMap Act.writes)
  view : s'.txn.view = keyed.apply s.txn.view (onData (as.flatMap Act.writes))
  records : s'.writes = s.writes ++ as.flatMap Act.records
  known : s'.Known

theorem Acted.data (h : Acted app only s as s') : s'.data = as.foldl Act.apply s.data := by
  rw [LiveTxn.data, h.view, data_apply_onData, foldl_act_eq]
  rfl

/-- An operation that leaves the data alone. -/
theorem acted_nil (htxn : s'.txn.writes = s.txn.writes) (hview : s'.txn.view = s.txn.view)
    (hrecords : s'.writes = s.writes) (hknown : s'.Known) : Acted app only s [] s' :=
  ⟨trivial, by simp, by simp, by simp [htxn, onData], by simp [hview, onData], by simp [hrecords],
    hknown⟩

theorem Acted.trans {bs : List Act} (h : Acted app only s as s') (h' : Acted app only s' bs s'') :
    Acted app only s (as ++ bs) s'' where
  acts := by
    refine along_append.mpr ⟨h.acts, ?_⟩
    rw [← h.data]
    exact h'.acts
  keeps := fun a ha => (mem_append.mp ha).elim (h.keeps a) (h'.keeps a)
  changes := fun honly a ha =>
    (mem_append.mp ha).elim (h.changes honly a) (h'.changes honly a)
  writes := by
    rw [h'.writes, h.writes, flatMap_append, onData_append, append_assoc]
  view := by rw [h'.view, h.view, flatMap_append, onData_append, Keyed.apply_append]
  records := by rw [h'.records, h.records, flatMap_append, append_assoc]
  known := h'.known

theorem OnlyReads.acted (h : OnlyReads s s') (hdata : Consistent s.data) (hknown : s.Known) :
    Acted app only s [] s' :=
  acted_nil h.txn_writes h.view h.records (h.known hknown hdata)

/-- An operation that recorded nothing leaves at most a new table. -/
theorem Stopped.acted (h : Stopped app s s') (hext : s.Writes s') (hsmall : ¬ only → app.enc.Small)
    (hrecorded : only → s.Recorded s') (hdata : Consistent s.data) (hknown : s.Known) :
    ∃ as, Acted app only s as s' := by
  obtain ⟨s₁, t, hs₁, rfl, hleft⟩ := h
  have hs₁known := hs₁.known hknown hdata
  by_cases hwrites : t.writes = s.txn.writes
  · obtain ⟨ws, hws, hview, -⟩ := hext.more
    obtain rfl : ws = [] := by simpa [hwrites] using hws
    have hview' : t.view = s.txn.view := hview
    refine ⟨[], acted_nil hwrites hview' hs₁.records (hs₁known.of_eq rfl ?_)⟩
    rw [hs₁.data]
    exact congrArg Store.data hview'
  · -- a table was created and its document refused
    have hnot : ¬ only := fun honly =>
      (hrecorded honly).elim hwrites (not_not_intro hs₁.records)
    obtain rfl | ⟨table, hbound, hnext, hname, rfl⟩ := hleft (hsmall hnot)
    · exact (hwrites rfl).elim
    · refine ⟨[.create table], ⟨⟨hbound, hnext, hname⟩, trivial⟩, by simp [Act.KeepsTables],
        fun honly => (hnot honly).elim, by simp [Act.writes, Txn.write],
        by simp [Act.writes, Txn.write], by simp [Act.records, hs₁.records], fun id t ht => ?_⟩
      have hget : s.data[AppKeys.table id]? = some (.table t) := by
        rw [← hs₁.data]
        exact hs₁known id t ht
      have heq : ({ s₁ with txn := Txn.write (onData (Change.tableWrites table)) s.txn } :
          LiveTxn).data = (Act.create table).apply s.data := data_apply_onData _ _
      rw [heq, getElem?_create_table, if_neg, hget]
      rintro rfl
      exact UInt32.lt_irrefl _ (hdata.lt_of_nextTable hnext hget)

theorem Did.acted {c : Change} (h : Did app s c s') (hknown : s.Known) :
    Acted app only s [.change c] s' :=
  ⟨⟨⟨h.fits, h.removes, h.adds⟩, trivial⟩, by simp [Act.KeepsTables], by simp,
    by simpa [Act.writes] using h.writes, by simpa [Act.writes] using h.view,
    by simpa [Act.records] using h.records, h.known hknown⟩

/-- What an operation that writes does. -/
theorem exists_acted (h : Stopped app s s' ∨ ∃ c, Did app s c s') (hext : s.Writes s')
    (hsmall : ¬ only → app.enc.Small) (hrecorded : only → s.Recorded s')
    (hdata : Consistent s.data) (hknown : s.Known) : ∃ as, Acted app only s as s' := by
  rcases h with hstopped | ⟨c, hdid⟩
  · exact hstopped.acted hext hsmall hrecorded hdata hknown
  · exact ⟨[.change c], hdid.acted hknown⟩

end LiveTxn

/-! ## Functions -/

namespace Body

variable {app : App} {draws : ℕ → Option (Vector UInt8 16)} {snapshot : Store} {only : Prop}

/-- What a function can rely on between its operations. -/
structure Ready (snapshot : Store) (s : LiveTxn) : Prop where
  known : s.Known
  consistent : Consistent s.data
  view : s.txn.view = keyed.apply snapshot s.txn.writes

/-- The rest of a function acts on what an operation left. -/
theorem Ready.andThen {s s' s'' : LiveTxn} (h : Ready snapshot s)
    (hs' : ∃ as, LiveTxn.Acted app only s as s')
    (hrest : Ready snapshot s' → ∃ bs, LiveTxn.Acted app only s' bs s'') :
    ∃ bs, LiveTxn.Acted app only s bs s'' := by
  obtain ⟨as, hs'⟩ := hs'
  obtain ⟨bs, hbs⟩ := hrest ⟨hs'.known, by rw [hs'.data]; exact h.consistent.foldl_act hs'.acts,
    by rw [hs'.view, hs'.writes, Keyed.apply_append, ← h.view]⟩
  exact ⟨as ++ bs, hs'.trans hbs⟩

/-- Whatever a function does is a sequence of acts of its snapshot. -/
theorem exists_acted (hsmall : ¬ only → app.enc.Small) {body : Body} {s : LiveTxn}
    (hjournaled : only → body.Journaled app draws s) (h : Ready snapshot s)
    (hfresh : ∀ key ∈ ((body.run app draws).exec s).2.txn.inserts, snapshot.get key = none) :
    ∃ as, LiveTxn.Acted app only s as ((body.run app draws).exec s).2 := by
  induction body generalizing s with
  | done result => exact ⟨[], LiveTxn.acted_nil rfl rfl rfl h.known⟩
  | observe next ih => exact ih _ _ _ hjournaled h hfresh
  | get id next ih =>
    exact h.andThen ⟨[], (LiveTxn.get_onlyReads app id s).acted h.consistent h.known⟩
      fun h' => ih _ hjournaled h' hfresh
  | query range next ih =>
    exact h.andThen ⟨[], (LiveTxn.query_onlyReads app range s).acted h.consistent h.known⟩
      fun h' => ih _ hjournaled h' hfresh
  | table name next ih =>
    exact h.andThen ⟨[], (LiveTxn.table_onlyReads name s).acted h.consistent h.known⟩
      fun h' => ih _ hjournaled h' hfresh
  | insert name fields next ih =>
    set r := (LiveTxn.insert app draws name fields).exec s with hr
    have hmore := (next r.1).run_moves app draws r.2
    have hinsert := LiveTxn.insert_cases h.consistent h.view rfl
      (fun key hkey => hfresh key (hmore.inserts hkey))
    exact h.andThen (LiveTxn.exists_acted hinsert (LiveTxn.insert_moves app draws name fields s)
      hsmall (fun honly => (hjournaled honly).1) h.consistent h.known)
      fun h' => ih _ (fun honly => (hjournaled honly).2) h' hfresh
  | patch id fields next ih | replace id fields next ih =>
    exact h.andThen (LiveTxn.exists_acted (LiveTxn.rewrite_cases h.known h.consistent rfl)
      (LiveTxn.rewrite_moves app id fields _ s) hsmall (fun honly => (hjournaled honly).1)
      h.consistent h.known) fun h' => ih _ (fun honly => (hjournaled honly).2) h' hfresh
  | delete id next ih =>
    exact h.andThen (LiveTxn.exists_acted (LiveTxn.delete_cases h.known h.consistent rfl)
      (LiveTxn.delete_moves app id s) hsmall (fun honly => (hjournaled honly).1)
      h.consistent h.known) fun h' => ih _ (fun honly => (hjournaled honly).2) h' hfresh

end Body

/-! ## Commits -/

/-- The writes of keys beside the data leave it alone. -/
theorem data_apply_of_not_data {store : Store} {ws : List (AppKey × Option Record)}
    (h : ∀ w ∈ ws, ∀ key, w.1 ≠ .data key) : (keyed.apply store ws).data = store.data := by
  induction ws generalizing store with
  | nil => rfl
  | cons w ws ih =>
    obtain ⟨key, r⟩ := w
    refine (ih fun w hw => h w (mem_cons_of_mem _ hw)).trans ?_
    cases key with
    | data key => exact (h (.data key, r) mem_cons_self key rfl).elim
    | _ => rfl

/-- What the commit writes of the data are these acts. -/
def Performs (effect : Effect AppKey Record) (as : List Act) : Prop :=
  ∃ rest, effect.writes = onData (as.flatMap Act.writes) ++ rest ∧
    ∀ w ∈ rest, ∀ key, w.1 ≠ .data key

namespace Performs

variable {effect : Effect AppKey Record} {as : List Act} (h : Performs effect as)
include h

/-- The keys that the acts of a commit write are keys of the commit. -/
theorem mem_written {a : Act} (ha : a ∈ as) {key : Bytes} (hkey : key ∈ a.writes.map Prod.fst) :
    AppKey.data key ∈ effect.written := by
  obtain ⟨rest, hwrites, -⟩ := h
  obtain ⟨w, hw, rfl⟩ := mem_map.mp hkey
  rw [Effect.written, hwrites, map_append]
  refine mem_append_left _ (mem_map.mpr ⟨(.data w.1, w.2), ?_, rfl⟩)
  exact mem_map.mpr ⟨w, mem_flatMap.mpr ⟨a, ha, hw⟩, rfl⟩

/-- The data after a commit. -/
theorem data_apply (store : Store) :
    (keyed.apply store effect.writes).data = as.foldl Act.apply store.data := by
  obtain ⟨rest, hwrites, hrest⟩ := h
  rw [hwrites, Keyed.apply_append, data_apply_of_not_data hrest, data_apply_onData, foldl_act_eq]

end Performs

/-- What a commit writes of the data are acts of its snapshot, and a function that ran
records them. -/
theorem Tx.run_acts {app : App} {options : RunnerOptions} {shards : ℕ} {only : Prop} {tx : Tx}
    {start : Timestamp} {snapshot : Store} {out : Answer} {effect : Effect AppKey Record}
    (hran : Tx.run app options shards tx start snapshot = some (out, effect))
    (hsmall : ¬ only → app.enc.Small)
    (hjournaled : only → ∀ attempt result journal usage, tx = .mutate attempt →
      out = .mutated (.ran result journal usage) →
        (attempt.body attempt.args).Journaled app attempt.draws
          (.forMutation (.startAt start snapshot)))
    (hsnapshot : Consistent snapshot.data)
    (hfresh : ∀ key ∈ effect.inserts, snapshot.get key = none) :
    ∃ as, Acts app.limits snapshot.data as ∧ (∀ a ∈ as, a.KeepsTables) ∧
      (only → ∀ a ∈ as, a ∈ Set.range Act.change) ∧ Performs effect as ∧
      ((as = [] ∧ ∀ result journal usage, out ≠ .mutated (.ran result journal usage)) ∨
        ∃ attempt result journal usage, tx = .mutate attempt ∧
          out = .mutated (.ran result journal usage) ∧
          (((attempt.body attempt.args).run app attempt.draws).exec
            (.forMutation (.startAt start snapshot))).2.writes = as.flatMap Act.records) := by
  obtain ⟨-, hdata, hnone⟩ |
      ⟨attempt, result, journal, live, rest, rfl, hcall, rfl, hinserts, hwrites, hrest⟩ :=
    Tx.run_writes hran
  · exact ⟨[], trivial, by simp, by simp, ⟨effect.writes, rfl, hdata⟩, .inl ⟨rfl, hnone⟩⟩
  · have hready : Body.Ready snapshot (.forMutation (.startAt start snapshot)) :=
      ⟨LiveTxn.known_forMutation _, hsnapshot, rfl⟩
    obtain ⟨as, hacted⟩ : ∃ as, LiveTxn.Acted app only (.forMutation (.startAt start snapshot)) as
        (((attempt.body attempt.args).run app attempt.draws).exec
          (.forMutation (.startAt start snapshot))).2 :=
      Body.exists_acted hsmall (fun honly => hjournaled honly attempt _ _ _ rfl rfl) hready
        (by rw [hcall.call, ← hinserts]; exact hfresh)
    have hrecords := hacted.records
    rw [hcall.call] at hacted
    exact ⟨as, hacted.acts, hacted.keeps, hacted.changes,
      ⟨rest, by rw [hwrites, hacted.writes]; rfl, hrest⟩,
      .inr ⟨attempt, result, journal, _, rfl, rfl, hrecords⟩⟩

end Loams.Live
