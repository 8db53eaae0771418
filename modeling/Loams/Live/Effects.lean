/-
# What the transactions of an app write
-/

import Loams.Live.Mutations
import Loams.Live.Reads

namespace Loams.Live

open List hiding Vector
open Loams.Data Loams.Control Loams.Tikv Program AppKeys Store Journal

/-! ## Growing transactions -/

/-- The second transaction has done more than the first, and wrote only keys of `W`. -/
structure Txn.Extends (W : AppKey → Prop) (t t' : Txn) : Prop where
  start_eq : t'.start = t.start
  inserts : t.inserts ⊆ t'.inserts
  /-- What must be absent is written. -/
  inserted : ∀ key ∈ t'.inserts, key ∈ t.inserts ∨ key ∈ t'.writes.map Prod.fst
  locks : t.locks ⊆ t'.locks
  more : ∃ ws, t'.writes = t.writes ++ ws ∧ t'.view = keyed.apply t.view ws ∧
    ∀ w ∈ ws, W w.1

namespace Txn

variable {W : AppKey → Prop} {t t' t'' : Txn}

instance : IsPreorder Txn (Txn.Extends W) where
  refl t := ⟨rfl, List.Subset.refl _, fun _ => .inl, List.Subset.refl _, [], by simp, rfl, by simp⟩
  trans t t' t'' h h' := by
    obtain ⟨ws, hws, hview, hW⟩ := h.more
    obtain ⟨ws', hws', hview', hW'⟩ := h'.more
    refine ⟨h'.start_eq.trans h.start_eq, List.Subset.trans h.inserts h'.inserts,
      fun key hkey => ?_,
      List.Subset.trans h.locks h'.locks, ws ++ ws', ?_, ?_, ?_⟩
    · rcases h'.inserted key hkey with hkey | hkey
      · refine (h.inserted key hkey).imp_right fun hwritten => ?_
        rw [hws', map_append]
        exact mem_append_left _ hwritten
      · exact .inr hkey
    · rw [hws', hws, append_assoc]
    · rw [hview', hview, Keyed.apply_append]
    · intro w hw
      exact (mem_append.mp hw).elim (hW w) (hW' w)

/-- A transaction since its start. -/
theorem Extends.of_startAt {start : Timestamp} {snapshot : Store}
    (h : (startAt start snapshot).Extends W t) :
    t.start = start ∧ t.view = keyed.apply snapshot t.writes ∧ ∀ w ∈ t.writes, W w.1 := by
  obtain ⟨ws, hws, hview, hall⟩ := h.more
  obtain rfl : ws = t.writes := hws.symm
  exact ⟨h.start_eq, hview, hall⟩

variable {key : AppKey}

theorem extends_set (hkey : W key) (r : Option Record) (t : Txn) : t.Extends W (Txn.set key r t) :=
  ⟨rfl, List.Subset.refl _, fun _ => .inl, List.Subset.refl _, [(key, r)], rfl, rfl,
    by simpa using hkey⟩

theorem moves_put (enc : Encoding) (hkey : W key) (r : Record) :
    Moves (Txn.Extends W) (Txn.put enc key r) :=
  .check fun _ => moves_update (extends_set hkey _)

theorem moves_delete (hkey : W key) : Moves (Txn.Extends W) (Txn.delete key) :=
  moves_update (extends_set hkey _)

theorem moves_insert (enc : Encoding) (hkey : W key) (r : Record) :
    Moves (Txn.Extends W) (Txn.insert enc key r) :=
  .check fun _ => .read fun _ => .check fun _ =>
    moves_update fun t =>
      ⟨rfl, subset_append_left _ _,
        fun k hk => (mem_append.mp hk).imp_right fun hk => by
          rw [mem_singleton.mp hk]
          simp [Txn.set],
        List.Subset.refl _, [(key, some r)], rfl, rfl, by simpa using hkey⟩

theorem extends_locks (locks : List AppKey) (t : Txn) :
    t.Extends W { t with locks := t.locks ++ locks } :=
  ⟨rfl, List.Subset.refl _, fun _ => .inl, subset_append_left _ _, [], by simp, rfl, by simp⟩

end Txn

open Txn

/-! ## Functions -/

/-- A key that functions write: of the tables, the documents or the indexes, not of the
app's settings or its schema. -/
def AppKey.IsData : AppKey → Prop
  | .data key => key ≠ appDef ∧ key ≠ AppKeys.schema
  | _ => False

theorem isData_catalog {kind : UInt8} (name : Bytes) (hschema : kind ≠ Kind.schema)
    (happ : kind ≠ Kind.app) : (AppKey.data (AppKeys.catalog kind name)).IsData := by
  constructor <;> intro h
  · exact happ (cons.inj (cons.inj h).2).1
  · exact hschema (cons.inj (cons.inj h).2).1

theorem isData_document (id : DocId) : (AppKey.data (document id)).IsData := by
  constructor <;> intro h <;> exact absurd (cons.inj h).1 (by decide)

theorem isData_indexEntry (index : IndexId) (values : List Tuple.Elem) (ms : UInt64) (id : DocId) :
    (AppKey.data (indexEntry index values ms id)).IsData := by
  constructor <;> intro h <;> exact absurd (cons.inj h).1 (by decide)

theorem isData_of_mem_indexKeys {table : TableDef} {limits : Limits} {doc : Doc}
    {keys : List Bytes} (h : Docs.indexKeys table limits doc = .ok keys) :
    ∀ key ∈ keys, (AppKey.data key).IsData := by
  rw [indexKeys_eq h]
  intro key hkey
  rcases mem_cons.mp hkey with rfl | hkey
  · exact isData_indexEntry _ _ _ _
  · obtain ⟨i, -, rfl⟩ := mem_map.mp hkey
    exact isData_indexEntry _ _ _ _

theorem createTable_moves (enc : Encoding) (name : String) :
    Moves (Extends AppKey.IsData) (Catalog.createTable enc name) :=
  .read fun _ => .check fun _ => .check fun _ =>
    .bind (moves_put enc (isData_catalog _ (by decide) (by decide)) _) fun _ =>
      .bind (moves_put enc (isData_catalog _ (by decide) (by decide)) _) fun _ =>
        .bind (moves_put enc (isData_catalog _ (by decide) (by decide)) _) fun _ => moves_pure _

theorem tableForInsert_moves (enc : Encoding) (name : String) :
    Moves (Extends AppKey.IsData) (Catalog.tableForInsert enc name) := by
  refine .check fun _ => .read fun _ =>
    .check fun found => ?_
  cases found with
  | some table => exact moves_pure _
  | none => exact .check fun _ => createTable_moves enc name

theorem insertSized_moves (enc : Encoding) (table : TableDef) (fields : Fields) (limits : Limits)
    (random : Option (Vector UInt8 16)) :
    Moves (Extends AppKey.IsData) (Docs.insertSized enc table fields limits random) := by
  refine .check fun _ => .read fun _ => ?_
  cases random with
  | none => exact moves_fail _
  | some bytes =>
    exact .check fun _ => moves_check_bind fun added hadded =>
      .bind (moves_insert enc (isData_document _) _) fun _ =>
        .bind (moves_forM fun key hkey =>
          moves_put enc (isData_of_mem_indexKeys hadded key hkey) _) fun _ => moves_pure _

theorem rewrite_moves (enc : Encoding) (table : TableDef) (old : Doc) (fields : Fields)
    (limits : Limits) : Moves (Extends AppKey.IsData) (Docs.rewrite enc table old fields limits) :=
  .check fun _ => moves_check_bind fun _ hremoved =>
    .check fun _ => moves_check_bind fun _ hadded =>
      .bind (moves_put enc (isData_document _) _) fun _ =>
        .bind (moves_forM fun key hkey => moves_delete
          (isData_of_mem_indexKeys hremoved key (mem_of_mem_filter hkey))) fun _ =>
          .bind (moves_forM fun key hkey => moves_put enc
            (isData_of_mem_indexKeys hadded key (mem_of_mem_filter hkey)) _) fun _ =>
            moves_pure _

theorem docs_delete_moves (text : IdText) (table : TableDef) (id : DocId) (limits : Limits) :
    Moves (Extends AppKey.IsData) (Docs.delete text table id limits) := by
  refine .check fun _ => .read fun _ =>
    .check fun found => ?_
  cases found with
  | none => exact moves_pure _
  | some old =>
    exact moves_check_bind fun removed hremoved =>
      .bind (moves_delete (isData_document _)) fun _ =>
        .bind (moves_forM fun key hkey =>
          moves_delete (isData_of_mem_indexKeys hremoved key hkey)) fun _ => moves_pure _

namespace LiveTxn

/-- What a function does to its transaction. -/
def Writes (s s' : LiveTxn) : Prop := s.txn.Extends AppKey.IsData s'.txn

instance : IsPreorder LiveTxn Writes where
  refl s := refl_of (Extends AppKey.IsData) s.txn
  trans _ _ _ h h' := trans_of (Extends AppKey.IsData) h h'

theorem moves_onTxn {α : Type} {p : TxnM α}
    (h : Moves (Extends AppKey.IsData) p) : Moves Writes (onTxn p) :=
  fun s => h s.txn

/-- Changes of the bookkeeping leave the transaction alone. -/
theorem moves_note {g : LiveTxn → LiveTxn} (h : ∀ s, (g s).txn = s.txn) :
    Moves Writes (update g : LiveM Unit) :=
  moves_update fun s => by
    rw [Writes, h s]
    exact refl_of _ _

/-- Reads only lock keys. -/
theorem OnlyReads.writes {s s' : LiveTxn} (h : OnlyReads s s') : Writes s s' := by
  obtain ⟨locks, htxn⟩ := h.txn
  rw [Writes, htxn]
  exact extends_locks locks s.txn

theorem moves_of_onlyReads {α : Type} {p : LiveM α} (h : Moves OnlyReads p) :
    Moves Writes p :=
  fun s => (h s).writes

variable (app : App)

theorem wrote_moves (record : WriteRecord) (bytes : ℕ) : Moves Writes (wrote app record bytes) :=
  .bind (moves_note fun _ => rfl) fun _ => .read fun _ =>
    .check fun _ => moves_check _

theorem insert_moves (draws : ℕ → Option (Vector UInt8 16)) (name : String) (fields : Fields) :
    Moves Writes (insert app draws name fields) :=
  .read fun _ => moves_ite
    (.bind (moves_onTxn (tableForInsert_moves app.enc name)) fun table =>
      .bind (moves_note fun _ => rfl) fun _ =>
        .bind (moves_onTxn (insertSized_moves app.enc table fields app.limits _)) fun _ =>
          .bind (moves_note fun _ => rfl) fun _ =>
            .bind (wrote_moves app _ _) fun _ => moves_pure _)
    (moves_fail _)

/-- What comes before the writes of a document that exists. -/
theorem existing_moves {α : Type} (id : DocId) {rest : TableDef → LiveM α}
    (h : ∀ table, Moves Writes (rest table)) :
    Moves Writes (do
      let table ← existingTable app id
      countScanned app 1
      rest table) := by
  refine .bind (.bind (moves_of_onlyReads (tableById_onlyReads id.table)) fun found => ?_)
    fun table => .bind (moves_of_onlyReads (countScanned_onlyReads app 1)) fun _ => h table
  cases found with
  | some table => exact moves_pure _
  | none => exact moves_fail _

theorem rewrite_moves (id : DocId) (fields : Fields) (merge : Bool) :
    Moves Writes (rewrite app id fields merge) := by
  refine .read fun s => moves_ite (existing_moves app id fun table => ?_) (moves_fail _)
  have hrewrite := fun old new => Live.rewrite_moves app.enc table old new app.limits
  cases merge with
  | true | false =>
    refine .bind (moves_onTxn (.read fun _ => .check fun _ => hrewrite _ _)) fun _ => ?_
    exact .bind (moves_note fun _ => rfl) fun _ => wrote_moves app _ _

theorem delete_moves (id : DocId) : Moves Writes (delete app id) := by
  refine .read fun s => moves_ite (existing_moves app id fun table => ?_) (moves_fail _)
  refine .bind (moves_onTxn (docs_delete_moves app.text table id app.limits)) fun record => ?_
  cases record with
  | none => exact moves_fail _
  | some record => exact .bind (moves_note fun _ => rfl) fun _ => wrote_moves app _ _

end LiveTxn

theorem Body.moves_andThen {α β : Type} {p : LiveM α}
    {next : Except LiveError α → LiveM β} (hp : Moves LiveTxn.Writes p)
    (hnext : ∀ r, Moves LiveTxn.Writes (next r)) : Moves LiveTxn.Writes (andThen p next) :=
  fun s => trans_of LiveTxn.Writes (hp s) (hnext _ _)

/-- A function writes only data. -/
theorem Body.run_moves (app : App) (draws : ℕ → Option (Vector UInt8 16)) (body : Body) :
    Moves LiveTxn.Writes (body.run app draws) := by
  induction body with
  | done result => exact moves_ofExcept _
  | observe next ih => exact fun s => ih _ _ _ s
  | get id next ih =>
    exact moves_andThen (LiveTxn.moves_of_onlyReads (LiveTxn.get_onlyReads app id)) ih
  | query range next ih =>
    exact moves_andThen (LiveTxn.moves_of_onlyReads (LiveTxn.query_onlyReads app range)) ih
  | table name next ih =>
    exact moves_andThen (LiveTxn.moves_of_onlyReads (LiveTxn.table_onlyReads name)) ih
  | insert name fields next ih =>
    exact moves_andThen (LiveTxn.insert_moves app draws name fields) ih
  | patch id fields next ih => exact moves_andThen (LiveTxn.rewrite_moves app id fields true) ih
  | replace id fields next ih => exact moves_andThen (LiveTxn.rewrite_moves app id fields false) ih
  | delete id next ih => exact moves_andThen (LiveTxn.delete_moves app id) ih

/-! ## Attempts -/

variable {shard : ℕ} {ws : List (AppKey × Option Record)} {enc : Encoding}

theorem Store.heads_apply (h : ∀ w ∈ ws, w.1 ≠ .head shard) (store : Store) :
    (keyed.apply store ws).heads shard = store.heads shard := by
  have hkey : (.head shard : AppKey) ∉ ws.map Prod.fst := by
    intro hmem
    obtain ⟨w, hw, heq⟩ := mem_map.mp hmem
    exact h w hw heq
  have hget : keyed.get (keyed.apply store ws) (.head shard) =
      keyed.get store (.head shard) := Keyed.get_apply_of_notMem hkey
  exact hget

/-- The transaction after more writes. -/
def Txn.write (ws : List (AppKey × Option Record)) (t : Txn) : Txn :=
  { t with view := keyed.apply t.view ws, writes := t.writes ++ ws }

theorem Txn.write_write (ws ws' : List (AppKey × Option Record)) (t : Txn) :
    Txn.write ws' (Txn.write ws t) = Txn.write (ws ++ ws') t := by
  simp [Txn.write, Keyed.apply_append]

@[simp] theorem Txn.write_nil (t : Txn) : Txn.write [] t = t := by
  simp [Txn.write]

theorem Txn.put_eq_ok {key : AppKey} {r : Record} {t t' : Txn} {u : Unit}
    (h : (Txn.put enc key r).exec t = (.ok u, t')) : t' = Txn.write [(key, some r)] t := by
  obtain ⟨_, -, hupdate⟩ := exec_check_bind_ok.mp h
  exact (Prod.mk.inj hupdate).2.symm

namespace Journal

/-- The entries that an append writes behind a sequence. -/
def chunkWrites (shard : ℕ) : ℕ → List JournalEntry → List (AppKey × Option Record)
  | _, [] => []
  | seq, chunk :: rest =>
    (.entry shard (seq + 1), some (.entry chunk)) :: chunkWrites shard (seq + 1) rest

variable {chunks : List JournalEntry} {w : AppKey × Option Record}

theorem appendChunks_eq_ok {seq seq' : ℕ} {t t' : Txn}
    (h : (appendChunks enc shard seq chunks).exec t = (.ok seq', t')) :
    seq' = seq + chunks.length ∧ t' = Txn.write (chunkWrites shard seq chunks) t := by
  induction chunks generalizing seq t with
  | nil =>
    cases h
    exact ⟨rfl, (write_nil _).symm⟩
  | cons chunk chunks ih =>
    obtain ⟨_, t₁, hput, hrest⟩ := exec_bind_ok.mp h
    obtain ⟨hseq, ht⟩ := ih hrest
    refine ⟨by rw [hseq, length_cons]; omega, ?_⟩
    rw [ht, put_eq_ok hput, write_write]
    rfl

/-- The writes of an append. -/
def journalWrites (shard head : ℕ) (chunks : List JournalEntry) : List (AppKey × Option Record) :=
  chunkWrites shard head chunks ++ [(.head shard, some (.head (head + chunks.length)))]

/-- What an append does. -/
theorem appendTo_eq_ok {shards : ℕ} {entry : JournalEntry} {t t' : Txn}
    {position : ℕ × ℕ} (h : (appendTo enc shards shard entry).exec t = (.ok position, t')) :
    shard < shards ∧ ∃ head chunks, decodeHead (t.view.heads shard) = .ok head ∧
      split enc { entry with commitHintMs := physicalMs t.start } = .ok chunks ∧
        position = (shard, head + chunks.length) ∧
          t' = Txn.write (journalWrites shard head chunks) t := by
  unfold appendTo at h
  simp only [↓exec_check_bind_ok, ↓exec_read_bind_ok, exec_bind_ok] at h
  obtain ⟨_, hshard, _, -, head, hhead, chunks, hchunks, seq, t₁, happend, _, t₂, hput, hpure⟩ := h
  obtain ⟨rfl, rfl⟩ := appendChunks_eq_ok happend
  cases hpure
  refine ⟨require_eq_ok.mp hshard, head, chunks, hhead, hchunks, rfl, ?_⟩
  rw [put_eq_ok hput, write_write]
  rfl

theorem chunkWrites_key {seq : ℕ} (h : w ∈ chunkWrites shard seq chunks) :
    ∃ seq', w.1 = .entry shard seq' := by
  induction chunks generalizing seq with
  | nil => cases h
  | cons chunk chunks ih =>
    rcases mem_cons.mp h with rfl | h
    · exact ⟨_, rfl⟩
    · exact ih h

/-- A key of the shard: its head or an entry. -/
def OfShard (shard : ℕ) (key : AppKey) : Prop := key = .head shard ∨ ∃ seq, key = .entry shard seq

theorem journalWrites_key {head : ℕ} (h : w ∈ journalWrites shard head chunks) :
    OfShard shard w.1 := by
  rcases mem_append.mp h with h | h
  · exact .inr (chunkWrites_key h)
  · exact .inl (by rw [mem_singleton.mp h])

end Journal

namespace Attempt

variable {app : App} {options : RunnerOptions} {attempt : Attempt} {t t' : Txn}

/-- The record that an attempt leaves. -/
def recordOf (attempt : Attempt) (idem : IdemKey) (start : Timestamp) (result : LiveValue) :
    IdempotencyRecord :=
  { result
    expiresMs := physicalMs start + idempotencyTtlMs
    function := attempt.function
    startTs := start
    argsHash := idem.args }

/-- The record of an idempotency key. -/
def recordWrites (attempt : Attempt) (start : Timestamp) (result : LiveValue) :
    List (AppKey × Option Record) :=
  match attempt.idem with
  | none => []
  | some idem =>
    [(.idempotency idem.hash, some (.idempotency (attempt.recordOf idem start result)))]

variable {result : LiveValue}

theorem record_eq_ok {u : Unit} (h : (attempt.record app result).exec t = (.ok u, t')) :
    t' = Txn.write (attempt.recordWrites t.start result) t := by
  unfold record at h
  unfold recordWrites
  cases hidem : attempt.idem with
  | none =>
    rw [hidem] at h
    rw [write_nil]
    exact (Prod.mk.inj h).2.symm
  | some idem =>
    rw [hidem] at h
    rw [exec_read_bind] at h
    obtain ⟨_, -, hput⟩ := exec_check_bind_ok.mp h
    exact put_eq_ok hput

theorem recordWrites_key {start : Timestamp} {w : AppKey × Option Record}
    (h : w ∈ attempt.recordWrites start result) :
    ∃ idem, attempt.idem = some idem ∧ w =
      (.idempotency idem.hash, some (.idempotency (attempt.recordOf idem start result))) := by
  unfold recordWrites at h
  cases hidem : attempt.idem with
  | none =>
    rw [hidem] at h
    cases h
  | some idem =>
    rw [hidem] at h
    exact ⟨idem, rfl, mem_singleton.mp h⟩

/-- The locks that an attempt takes before it appends to the journal. -/
def headLocks (options : RunnerOptions) (shards : ℕ) (live : LiveTxn) : List AppKey :=
  if options.serializableRanges ∧ live.readSet.ranges ≠ [] then (List.range shards).map .head
  else []

/-- How an attempt ends whose function wrote something. -/
structure Journaled (app : App) (options : RunnerOptions) (attempt : Attempt) (shards : ℕ)
    (result : LiveValue) (live : LiveTxn) (position : ℕ × ℕ) (t' : Txn) : Prop where
  wrote : live.writes ≠ []
  shard_lt : pickOther shards attempt.lastShard attempt.shardDraw < shards
  appended : ∃ head chunks,
    decodeHead (live.txn.view.heads position.1) = .ok head ∧
    split app.enc { attempt.entry live.writes with commitHintMs := physicalMs live.txn.start } =
      .ok chunks ∧
    position = (pickOther shards attempt.lastShard attempt.shardDraw,
      head + chunks.length) ∧
    t' = Txn.write (attempt.recordWrites live.txn.start result ++
      journalWrites position.1 head chunks)
        { live.txn with locks := live.txn.locks ++ headLocks options shards live }

/-- An attempt ends without a write, or with a journal entry. -/
theorem finish_eq_ok {shards : ℕ} {live : LiveTxn} {out : Outcome}
    (h : (attempt.finish app options shards result live).exec live.txn = (.ok out, t')) :
    (live.writes = [] ∧ out = .ran result none live.usage ∧ t' = live.txn) ∨
      ∃ position, out = .ran result (some position) live.usage ∧
        Journaled app options attempt shards result live position t' := by
  unfold finish at h
  by_cases hwrites : live.writes = []
  · rw [if_pos hwrites] at h
    cases h
    exact .inl ⟨hwrites, rfl, rfl⟩
  · rw [if_neg hwrites] at h
    obtain ⟨_, t₁, hrecord, h⟩ := exec_bind_ok.mp h
    obtain rfl := record_eq_ok hrecord
    -- with or without the locks on the heads
    have happend : ∃ position, out = .ran result (some position) live.usage ∧
        (appendTo app.enc shards
          (pickOther shards attempt.lastShard attempt.shardDraw)
            (attempt.entry live.writes)).exec
          { Txn.write (attempt.recordWrites live.txn.start result) live.txn with
            locks := live.txn.locks ++ headLocks options shards live } = (.ok position, t') := by
      unfold headLocks
      split_ifs at h ⊢ with hlock
      · obtain ⟨_, t₂, hlocks, h⟩ := exec_bind_ok.mp h
        obtain rfl := (Prod.mk.inj hlocks).2
        obtain ⟨position, t₃, happend, hpure⟩ := exec_bind_ok.mp h
        cases hpure
        exact ⟨position, rfl, happend⟩
      · obtain ⟨position, t₃, happend, hpure⟩ := exec_bind_ok.mp h
        cases hpure
        refine ⟨position, rfl, ?_⟩
        rw [append_nil]
        exact happend
    obtain ⟨position, hout, happend⟩ := happend
    obtain ⟨hshard, head, chunks, hhead, hchunks, rfl, rfl⟩ := appendTo_eq_ok happend
    refine .inr ⟨_, hout, hwrites, hshard, head, chunks, ?_, hchunks, rfl, ?_⟩
    · rw [← hhead]
      refine congrArg decodeHead (Store.heads_apply (fun w hw => ?_) _).symm
      obtain ⟨idem, -, rfl⟩ := recordWrites_key hw
      exact AppKey.noConfusion
    · simp [Txn.write, Keyed.apply_append]

theorem exec_call (ran : Except LiveError LiveValue × LiveTxn)
    (hran : ((attempt.body attempt.args).run app attempt.draws).exec (.forMutation t) = ran) :
    (attempt.call app).exec t = (ran.1.map (·, ran.2), ran.2.txn) := by
  rw [← hran]
  rfl

/-- How an attempt commits: with the answer of a record, with nothing to journal, or with
a journal entry. -/
theorem run_eq_ok {out : Outcome} (h : (attempt.run app options).exec t = (.ok out, t')) :
    ∃ shards, journalShards t.view.data = .ok shards ∧
      ((∃ result, attempt.replay t.view (physicalMs t.start) = .ok (some result) ∧
          out = .replayed result ∧ t' = t) ∨
        (attempt.replay t.view (physicalMs t.start) = .ok none ∧ ∃ result live,
          ((attempt.body attempt.args).run app attempt.draws).exec (.forMutation t) =
            (.ok result, live) ∧
          ((live.writes = [] ∧ out = .ran result none live.usage ∧ t' = live.txn) ∨
            ∃ position, out = .ran result (some position) live.usage ∧
              Journaled app options attempt shards result live position t'))) := by
  unfold run at h
  rw [exec_read_bind] at h
  obtain ⟨shards, hshards, h⟩ := exec_check_bind_ok.mp h
  obtain ⟨found, hfound, h⟩ := exec_check_bind_ok.mp h
  refine ⟨shards, hshards, ?_⟩
  cases found with
  | some result =>
    cases h
    exact .inl ⟨result, hfound, rfl, rfl⟩
  | none =>
    obtain ⟨⟨result, live⟩, t₁, hcall, hfinish⟩ := exec_bind_ok.mp h
    rcases hran : ((attempt.body attempt.args).run app attempt.draws).exec (.forMutation t) with
      ⟨_ | value, s⟩
    · rw [exec_call _ hran] at hcall
      cases hcall
    · rw [exec_call _ hran] at hcall
      cases hcall
      exact .inr ⟨hfound, _, _, rfl, finish_eq_ok hfinish⟩

end Attempt

/-! ## The janitor and checkpoints -/

namespace Journal

/-- A key of the journal's upkeep. -/
def IsUpkeep (shard : ℕ) : AppKey → Prop
  | .entry s _ => s = shard
  | .checkpoint _ _ => True
  | _ => False

theorem visitCheckpoints_moves {W : AppKey → Prop}
    (hW : ∀ shard consumer, W (.checkpoint shard consumer))
    (shards nowMs : ℕ) (values : List (String × Record)) (floor : Option ℕ) (expired : ℕ) :
    Moves (Extends W) (visitCheckpoints shards nowMs values floor expired) := by
  induction values generalizing floor expired with
  | nil => exact moves_pure _
  | cons value values ih =>
    refine .check fun _ => moves_ite ?_ (ih _ _)
    exact .bind (moves_forM fun _ _ => moves_delete (hW _ _)) fun _ => ih _ _

theorem trimEntries_moves (shard retentionMs nowMs : ℕ) (entries : List (ℕ × Record))
    (pass : TrimPass) :
    Moves (Extends (IsUpkeep shard)) (trimEntries shard retentionMs nowMs entries pass) := by
  induction entries generalizing pass with
  | nil => exact moves_pure _
  | cons entry entries ih =>
    refine .check fun _ => moves_ite (moves_pure _) ?_
    exact .bind (moves_delete (by exact rfl)) fun _ => ih _

theorem trim_moves (shards shard retentionMs : ℕ) :
    Moves (Extends (IsUpkeep shard)) (trim shards shard retentionMs) :=
  .read fun _ => .check fun _ =>
    .bind (visitCheckpoints_moves (fun _ _ => trivial) _ _ _ _ _) fun _ => .read fun _ =>
      .check fun _ => moves_ite (moves_pure _) (trimEntries_moves _ _ _ _ _)

theorem checkpoint_moves (enc : Encoding) (shards : ℕ) (consumer : String) (positions : List ℕ)
    (ttlMs : Option ℕ) (shard : ℕ) :
    Moves (Extends (IsUpkeep shard)) (checkpoint enc shards consumer positions ttlMs) :=
  .check fun _ => .check fun _ => .read fun _ =>
    moves_forM fun _ _ => moves_put enc trivial _

theorem removeCheckpoint_moves (shards : ℕ) (consumer : String) (shard : ℕ) :
    Moves (Extends (IsUpkeep shard)) (removeCheckpoint shards consumer) :=
  .check fun _ => moves_forM fun _ _ => moves_delete trivial

/-- Whether a sweep deletes the record. -/
def isExpired (nowMs : ℕ) : Record → Bool
  | .idempotency record => record.expiresMs ≤ nowMs
  | _ => false

/-- The expired records are deleted. -/
def sweepWrites (nowMs : ℕ) (records : List (Bytes × Record)) : List (AppKey × Option Record) :=
  (records.filter fun p => isExpired nowMs p.2).map fun p => (.idempotency p.1, none)

theorem sweepRecords_exec (nowMs : ℕ) (records : List (Bytes × Record)) (deleted : ℕ) (t : Txn) :
    ((sweepRecords nowMs records deleted).exec t).2 = Txn.write (sweepWrites nowMs records) t := by
  induction records generalizing deleted t with
  | nil => exact (write_nil t).symm
  | cons p records ih =>
    obtain ⟨hash, record⟩ := p
    cases record with
    | idempotency record =>
      by_cases hexpired : record.expiresMs ≤ nowMs
      · have hwrites : sweepWrites nowMs ((hash, .idempotency record) :: records) =
            (.idempotency hash, none) :: sweepWrites nowMs records := by
          simp [sweepWrites, isExpired, hexpired]
        rw [sweepRecords, if_pos hexpired, hwrites]
        exact (ih (deleted + 1) (Txn.write [(.idempotency hash, none)] t)).trans
          (write_write _ _ t)
      · have hwrites : sweepWrites nowMs ((hash, .idempotency record) :: records) =
            sweepWrites nowMs records := by
          simp [sweepWrites, isExpired, hexpired]
        rw [sweepRecords, if_neg hexpired, hwrites]
        exact ih deleted t
    | _ => exact ih deleted t

/-- What a sweep does. -/
theorem sweepIdempotency_exec (start : Bytes) (t : Txn) : ∃ records,
    (∀ p ∈ records, t.view.idempotency[p.1]? = some p.2) ∧
      ((sweepIdempotency start).exec t).2 =
        Txn.write (sweepWrites (physicalMs t.start) records) t := by
  set records := (t.view.idempotency.toList.filter fun p => (compare start p.1).isLE).take trimBatch
    with hrecords
  refine ⟨records, fun p hp => ?_, ?_⟩
  · have hmem := mem_of_mem_filter (mem_of_mem_take (hrecords ▸ hp))
    exact Std.ExtTreeMap.mem_toList_iff_getElem?_eq_some.mp hmem
  · rw [← sweepRecords_exec (physicalMs t.start) records 0 t, sweepIdempotency, exec_read_bind,
      exec_bind]
    rcases (sweepRecords (physicalMs t.start) records 0).exec t with ⟨_ | _, _⟩ <;> rfl

end Journal

/-! ## Commits -/

namespace Tx

variable {app : App} {options : RunnerOptions} {shards : ℕ} {start : Timestamp} {snapshot : Store}
  {answer : Answer} {effect : Effect AppKey Record}

theorem orRollback_eq_some {α : Type} {body : TxnM α} {wrap : α → Answer} {t : Txn}
    (h : Txn.orRollback body wrap t = some (answer, effect)) :
    ∃ a t', body.exec t = (.ok a, t') ∧ answer = wrap a ∧ effect = t'.effect := by
  unfold Txn.orRollback at h
  rcases hr : body.exec t with ⟨_ | a, t'⟩
  · rw [hr] at h
    cases h
  · rw [hr] at h
    cases h
    exact ⟨a, t', rfl, rfl, rfl⟩

theorem lifted_eq_some {α : Type} {body : TxnM α}
    {wrap : Except LiveError α → Answer} {t : Txn}
    (h : lifted body wrap t = some (answer, effect)) :
    answer = wrap (body.exec t).1 ∧ effect = (body.exec t).2.effect := by
  unfold lifted at h
  split at h
  · cases h
  · cases h
    rename_i hr
    rw [hr]
    exact ⟨rfl, rfl⟩

/-- A body writes only keys that its moves may write, and writes what it inserts. -/
theorem of_lifted {α : Type} {W P : AppKey → Prop} {body : TxnM α}
    {wrap : Except LiveError α → Answer} (hmoves : Moves (Extends W) body)
    (hW : ∀ key, W key → P key)
    (h : lifted body wrap (.startAt start snapshot) = some (answer, effect)) :
    effect.inserts ⊆ effect.written ∧ ∀ w ∈ effect.writes, P w.1 := by
  obtain ⟨-, rfl⟩ := lifted_eq_some h
  constructor
  · exact fun key hkey => ((hmoves _).inserted key hkey).resolve_left not_mem_nil
  · exact fun w hw => hW _ ((hmoves _).of_startAt.2.2 w hw)

/-- The function of an attempt has run on a snapshot. -/
structure Ran (app : App) (attempt : Attempt) (start : Timestamp) (snapshot : Store)
    (result : LiveValue) (live : LiveTxn) : Prop where
  replay : attempt.replay snapshot (physicalMs start) = .ok none
  call : ((attempt.body attempt.args).run app attempt.draws).exec
    (.forMutation (.startAt start snapshot)) = (.ok result, live)
  start_eq : live.txn.start = start
  view_eq : live.txn.view = keyed.apply snapshot live.txn.writes
  data : ∀ w ∈ live.txn.writes, w.1.IsData

/-- What is written besides the data: the record, the journal entry and the head. -/
structure Appended (app : App) (options : RunnerOptions) (attempt : Attempt) (snapshot : Store)
    (shards : ℕ) (result : LiveValue) (live : LiveTxn) (position : ℕ × ℕ)
    (effect : Effect AppKey Record) : Prop where
  wrote : live.writes ≠ []
  shard_lt : position.1 < shards
  shape : ∃ head chunks, decodeHead (snapshot.heads position.1) = .ok head ∧
    split app.enc { attempt.entry live.writes with commitHintMs := physicalMs live.txn.start } =
      .ok chunks ∧
    position = (pickOther shards attempt.lastShard attempt.shardDraw,
      head + chunks.length) ∧
    effect = ⟨(live.txn.writes ++ attempt.recordWrites live.txn.start result) ++
      journalWrites position.1 head chunks, live.txn.inserts,
      live.txn.locks ++ Attempt.headLocks options shards live⟩

/-- How a mutation commits: with the result of a record, with nothing to journal, or with
a journal entry. -/
theorem mutate_eq_some {attempt : Attempt}
    (h : (mutate attempt).run app options shards start snapshot = some (answer, effect)) :
    (∃ result, attempt.replay snapshot (physicalMs start) = .ok (some result) ∧
      answer = .mutated (.replayed result) ∧ effect = {}) ∨
    ∃ result live, Ran app attempt start snapshot result live ∧
      ((live.writes = [] ∧ answer = .mutated (.ran result none live.usage) ∧
          effect = live.txn.effect) ∨
        ∃ stored position, Attempt.journalShards snapshot.data = .ok stored ∧
          answer = .mutated (.ran result (some position) live.usage) ∧
          Appended app options attempt snapshot stored result live position effect) := by
  obtain ⟨out, t', hrun, rfl, rfl⟩ := orRollback_eq_some h
  obtain ⟨stored, hstored, ⟨result, hreplay, rfl, rfl⟩ | ⟨hreplay, result, live, hcall, hfinish⟩⟩ :=
    Attempt.run_eq_ok hrun
  · exact .inl ⟨result, hreplay, rfl, rfl⟩
  · have hmoves := (attempt.body attempt.args).run_moves app attempt.draws
      (.forMutation (.startAt start snapshot))
    rw [hcall] at hmoves
    obtain ⟨hstart, hview, hdata⟩ := Extends.of_startAt hmoves
    refine .inr ⟨result, live, ⟨hreplay, hcall, hstart, hview, hdata⟩, ?_⟩
    obtain ⟨hnone, rfl, rfl⟩ | ⟨position, rfl, hj⟩ := hfinish
    · exact .inl ⟨hnone, rfl, rfl⟩
    · obtain ⟨head, chunks, hhead, hsplit, hposition, rfl⟩ := hj.appended
      have hshard : position.1 < stored := by
        rw [hposition]
        exact hj.shard_lt
      rw [show live.txn.view = _ from hview, Store.heads_apply fun w hw heq => by
        have hkey := hdata w hw
        rw [heq] at hkey
        exact hkey] at hhead
      refine .inr ⟨stored, position, hstored, rfl, hj.wrote, hshard, head, chunks, hhead, hsplit,
        hposition, ?_⟩
      rw [append_assoc]
      rfl

variable {position : ℕ × ℕ} {result : LiveValue} {w : AppKey × Option Record} {tx : Tx}

theorem Appended.writes_key {attempt : Attempt} {live : LiveTxn}
    (h : Appended app options attempt snapshot shards result live position effect)
    (hw : w ∈ effect.writes) : w ∈ live.txn.writes ∨
      w ∈ attempt.recordWrites live.txn.start result ∨ Journal.OfShard position.1 w.1 := by
  obtain ⟨head, chunks, -, -, -, rfl⟩ := h.shape
  rcases mem_append.mp hw with hw | hw
  · exact (mem_append.mp hw).imp_right .inl
  · exact .inr (.inr (journalWrites_key hw))

/-- What an attempt writes besides its function is no data. -/
theorem Appended.ne_data {attempt : Attempt} {head : ℕ} {chunks : List JournalEntry}
    (hw : w ∈ attempt.recordWrites start result ++ journalWrites position.1 head chunks)
    (key : Bytes) : w.1 ≠ .data key := by
  rcases mem_append.mp hw with hw | hw
  · obtain ⟨idem, -, rfl⟩ := Attempt.recordWrites_key hw
    exact AppKey.noConfusion
  · rcases journalWrites_key hw with hof | ⟨seq, hof⟩ <;>
    · rw [hof]
      exact AppKey.noConfusion

section Run

variable (h : tx.run app options shards start snapshot = some (answer, effect))
include h

/-- What a transaction commits: no data if no function ran, or else the writes of its function
and others that are no data. -/
theorem run_writes :
    (effect.inserts ⊆ effect.written ∧ (∀ w ∈ effect.writes, ∀ key, w.1 ≠ .data key) ∧
      ∀ result journal usage, answer ≠ .mutated (.ran result journal usage)) ∨
    ∃ attempt result journal live rest, tx = .mutate attempt ∧
      Ran app attempt start snapshot result live ∧
      answer = .mutated (.ran result journal live.usage) ∧ effect.inserts = live.txn.inserts ∧
      effect.writes = live.txn.writes ++ rest ∧ ∀ w ∈ rest, ∀ key, w.1 ≠ .data key := by
  have hupkeep : ∀ {n key}, Journal.IsUpkeep n key → ∀ k, key ≠ .data k := by
    rintro n _ hkey k rfl
    exact hkey
  cases tx with
  | mutate attempt =>
    obtain ⟨result, -, rfl, rfl⟩ | ⟨result, live, hlive, hcommit⟩ := mutate_eq_some h
    · exact .inl ⟨nil_subset _, nofun, nofun⟩
    · obtain ⟨-, hanswer, rfl⟩ | ⟨stored, position, -, hanswer, happended⟩ := hcommit
      · exact .inr ⟨attempt, result, none, live, [], rfl, hlive, hanswer, rfl, by simp [Txn.effect],
          by simp⟩
      · obtain ⟨head, chunks, -, -, -, rfl⟩ := happended.shape
        exact .inr ⟨attempt, result, some position, live, _, rfl, hlive, hanswer, rfl,
          append_assoc _ _ _, fun w hw key => Appended.ne_data hw key⟩
  | trim shard retentionMs =>
    obtain ⟨hinserts, hdata⟩ := of_lifted (trim_moves shards shard retentionMs) (fun _ => hupkeep) h
    exact .inl ⟨hinserts, hdata, (lifted_eq_some h).1 ▸ nofun⟩
  | sweep low =>
    obtain ⟨rfl, rfl⟩ := lifted_eq_some h
    obtain ⟨records, -, hexec⟩ := sweepIdempotency_exec low (.startAt start snapshot)
    rw [hexec]
    refine .inl ⟨nil_subset _, fun w hw key => ?_, nofun⟩
    obtain ⟨p, -, rfl⟩ := mem_map.mp hw
    exact AppKey.noConfusion
  | checkpoint consumer positions ttlMs =>
    obtain ⟨hinserts, hdata⟩ :=
      of_lifted (checkpoint_moves app.enc shards consumer positions ttlMs 0) (fun _ => hupkeep) h
    exact .inl ⟨hinserts, hdata, (lifted_eq_some h).1 ▸ nofun⟩
  | removeCheckpoint consumer =>
    obtain ⟨hinserts, hdata⟩ :=
      of_lifted (Journal.removeCheckpoint_moves shards consumer 0) (fun _ => hupkeep) h
    exact .inl ⟨hinserts, hdata, (lifted_eq_some h).1 ▸ nofun⟩

/-- What a transaction inserts it writes. -/
theorem inserts_subset_written : effect.inserts ⊆ effect.written := by
  obtain ⟨hinserts, -⟩ | ⟨attempt, result, journal, live, rest, rfl, hran, -, hinserts,
    hwrites, -⟩ :=
    run_writes h
  · exact hinserts
  · have hmoves := (attempt.body attempt.args).run_moves app attempt.draws
      (.forMutation (.startAt start snapshot))
    rw [hran.call] at hmoves
    intro key hkey
    rw [hinserts] at hkey
    rw [Effect.written, hwrites, map_append]
    exact mem_append_left _ ((hmoves.inserted key hkey).resolve_left not_mem_nil)

/-- What a transaction writes of the data is a function's. -/
theorem isData_of_mem (hw : w ∈ effect.writes) {key : Bytes} (hkey : w.1 = .data key) :
    w.1.IsData := by
  obtain ⟨-, hnone, -⟩ | ⟨attempt, result, journal, live, rest, rfl, hran, -, -, hwrites, hrest⟩ :=
    run_writes h
  · exact (hnone w hw key hkey).elim
  · rw [hwrites] at hw
    exact (mem_append.mp hw).elim (hran.data w) fun hw => (hrest w hw key hkey).elim

end Run

/-- The settings and the schema of an app never change. -/
theorem settings_state {keys : Effect AppKey Record → List AppKey} {init : Store}
    {h : List AppCommit} (hh : History keyed keys (Tx.run app options shards) init h)
    {key : Bytes} (hkey : key = appDef ∨ key = AppKeys.schema) :
    (keyed.state init h).data[key]? = init.data[key]? := by
  have hget : keyed.get (keyed.state init h) (.data key) =
      keyed.get init (.data key) := by
    refine Keyed.get_state_of_forall_notMem fun c hc hmem => ?_
    obtain ⟨pre, post, rfl, hadm⟩ := hh.admissible_of_mem hc
    obtain ⟨w, hw, heq⟩ := mem_map.mp hmem
    have hdata := isData_of_mem hadm.ran hw heq
    rw [heq] at hdata
    rcases hkey with rfl | rfl
    · exact hdata.1 rfl
    · exact hdata.2 rfl
  exact hget

end Tx

/-- The write records of a commit: those of its function. -/
def recordsOf (app : App) (init : Store) (h : List AppCommit) (c : AppCommit) : List WriteRecord :=
  match c.tx, c.out with
  | .mutate attempt, .mutated (.ran _ _ _) =>
    (((attempt.body attempt.args).run app attempt.draws).exec
      (.forMutation (.startAt c.start (keyed.snapshot init h c.start)))).2.writes
  | _, _ => []

end Loams.Live
