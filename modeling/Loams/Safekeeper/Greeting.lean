/-
# Greetings

A greeting loads the head of its timeline in one step and stores what it teaches the
acceptor in a later one.
-/

import Loams.Control.Run
import Loams.Safekeeper.Store

namespace Loams.Safekeeper

open Loams.Data Loams.Control

/-! ## One greeting -/

/-- The timeline that is greeted. -/
def ProposerGreeting.timeline (msg : ProposerGreeting) : TimelineId :=
  ⟨msg.tenantId, msg.timelineId⟩

/-- The server that greets. -/
def ProposerGreeting.server (msg : ProposerGreeting) : ServerInfo :=
  ⟨msg.pgVersion, msg.systemId, msg.walSegSize⟩

/-- The tenant and the timeline. -/
def TimelineId.display (tl : TimelineId) : String :=
  tl.tenant.display ++ "/" ++ tl.timeline.display

/-- The server of a timeline after a greeting: another system id is taken over, and the
version with it, each unless the greeting does not know it. -/
def learnedServer (server : ServerInfo) (msg : ProposerGreeting) : ServerInfo :=
  if msg.systemId ≠ 0 ∧ server.systemId ≠ msg.systemId then
    { server with
      systemId := msg.systemId
      pgVersion := if msg.pgVersion ≠ 0 then msg.pgVersion else server.pgVersion }
  else server

/-- The major versions agree, where both are known. -/
def majorsAgree (server server' : ServerInfo) : Prop :=
  ∀ old ∈ server.pgMajor, ∀ new ∈ server'.pgMajor, old = new

instance (server server' : ServerInfo) : Decidable (majorsAgree server server') :=
  inferInstanceAs (Decidable (∀ old ∈ server.pgMajor, ∀ new ∈ server'.pgMajor, old = new))

/-- The configuration a greeting brings, if it is of a higher generation. -/
def learnedMconf (nodeId : NodeId) (mconf : Configuration) (msg : ProposerGreeting) :
    Except Error (Option Configuration) :=
  if mconf.generation < msg.mconf.generation then do
    require (msg.mconf.contains nodeId = true) (.protocol
      s!"refusing generation {msg.mconf.generation}: node {nodeId} is not a member")
    .ok (some msg.mconf)
  else .ok none

/-- What a greeting stores, decided from the head it loaded; nothing if it teaches
nothing. -/
def greetUpdate (nodeId : NodeId) (msg : ProposerGreeting) (st : AcceptorState) :
    Except Error (Option MetaUpdate) := do
  require (majorsAgree st.server msg.server) (.protocol
    (s!"timeline {TimelineId.display msg.timeline} is Postgres {st.server.pgMajor.getD 0}, " ++
      s!"the compute is Postgres {msg.server.pgMajor.getD 0}"))
  require (st.server.walSegSize = msg.walSegSize) (.protocol
    (s!"timeline {TimelineId.display msg.timeline} has wal_seg_size {st.server.walSegSize}, " ++
      s!"the compute {msg.walSegSize}"))
  let newServer := learnedServer st.server msg
  let newMconf ← learnedMconf nodeId st.mconf msg
  if newServer ≠ st.server ∨ newMconf.isSome then .ok (some ⟨newServer, newMconf⟩)
  else .ok none

variable {msg : ProposerGreeting}

theorem greetUpdate_eq {nodeId : NodeId} {st : AcceptorState}
    {update : MetaUpdate} (h : greetUpdate nodeId msg st = .ok (some update)) :
    update.server = learnedServer st.server msg ∧
      ∀ mconf ∈ update.mconf, st.mconf.generation < mconf.generation := by
  obtain ⟨-, -, h⟩ := except_bind_ok.mp h
  obtain ⟨-, -, h⟩ := except_bind_ok.mp h
  obtain ⟨newMconf, hmconf, h⟩ := except_bind_ok.mp h
  split_ifs at h with hnew
  · obtain rfl := Option.some.inj (Except.ok.inj h)
    refine ⟨rfl, fun mconf hmem => ?_⟩
    obtain rfl : newMconf = some mconf := hmem
    unfold learnedMconf at hmconf
    split_ifs at hmconf with hgen
    · obtain ⟨-, -, hmconf⟩ := except_bind_ok.mp hmconf
      obtain rfl := Option.some.inj (Except.ok.inj hmconf)
      exact hgen
    · cases hmconf
  · cases h

/-! ## Interleaved greetings -/

/-- Where a connection's greeting stands: none, about to create the timeline, or about
to store what it decided from the head it loaded. -/
inductive Phase
  | idle
  | creating (msg : ProposerGreeting)
  | storing (msg : ProposerGreeting) (loaded : AcceptorState) (update : MetaUpdate)

/-- The stored head of one timeline and the greetings of all connections. -/
structure Greetings where
  stored : Option AcceptorState := none
  phase : ℕ → Phase := fun _ => .idle

/-- The atomic steps of a greeting. -/
inductive GreetStep
  | load (conn : ℕ) (msg : ProposerGreeting) (allowTimelineCreation : Bool)
  | create (conn : ℕ)
  | store (conn : ℕ)

/-- The connection that takes a step. -/
def GreetStep.conn : GreetStep → ℕ
  | .load conn _ _ => conn
  | .create conn => conn
  | .store conn => conn

namespace Greetings

variable (nodeId : NodeId)

/-- A head was loaded: the greeting fails, is answered, or goes on to store. -/
def decided (sys : Greetings) (conn : ℕ) (msg : ProposerGreeting) (st : AcceptorState) :
    Greetings :=
  match greetUpdate nodeId msg st with
  | .ok (some update) =>
    { sys with phase := Function.update sys.phase conn (.storing msg st update) }
  | _ => { sys with phase := Function.update sys.phase conn .idle }

/-- A step of a connection; one that its greeting cannot take changes nothing. -/
def step (sys : Greetings) : GreetStep → Greetings
  | .load conn msg allowTimelineCreation =>
    match sys.phase conn, sys.stored with
    | .idle, some st => sys.decided nodeId conn msg st
    | .idle, none =>
      if allowTimelineCreation then
        { sys with phase := Function.update sys.phase conn (.creating msg) }
      else sys
    | _, _ => sys
  | .create conn =>
    match sys.phase conn with
    | .creating msg =>
      -- A timeline that another connection created meanwhile is returned as it is.
      let st := sys.stored.getD (AcceptorState.new msg.server 0)
      { sys with stored := some st }.decided nodeId conn msg st
    | _ => sys
  | .store conn =>
    match sys.phase conn with
    | .storing _ _ update =>
      { stored := sys.stored.map (updateMeta · update)
        phase := Function.update sys.phase conn .idle }
    | _ => sys

/-- The system after a sequence of steps, from an empty store. -/
def run (steps : List GreetStep) : Greetings := steps.foldl (step nodeId) {}

/-! ## What a greeting can replace -/

variable {nodeId} {sys : Greetings} {conn : ℕ}

/-- Every greeting that is about to store stores what it decided from its head. -/
def Decided (nodeId : NodeId) (sys : Greetings) : Prop :=
  ∀ conn msg loaded update, sys.phase conn = .storing msg loaded update →
    greetUpdate nodeId msg loaded = .ok (some update)

theorem Decided.update (h : sys.Decided nodeId) (stored : Option AcceptorState) (conn : ℕ)
    {phase : Phase} (hphase : ∀ msg loaded update, phase = .storing msg loaded update →
      greetUpdate nodeId msg loaded = .ok (some update)) :
    Decided nodeId ⟨stored, Function.update sys.phase conn phase⟩ := by
  intro conn' msg loaded update
  dsimp only
  rw [Function.update_apply]
  split_ifs
  · exact hphase msg loaded update
  · exact h conn' msg loaded update

theorem Decided.of_load (h : sys.Decided nodeId) (conn : ℕ) (msg : ProposerGreeting)
    (st : AcceptorState) : Decided nodeId (sys.decided nodeId conn msg st) := by
  unfold Greetings.decided
  split
  · next update hupdate =>
    apply h.update
    rintro msg' loaded update' ⟨⟩
    exact hupdate
  · apply h.update
    rintro msg' loaded update' ⟨⟩

/-- Every step keeps to what was decided. -/
theorem Decided.step (h : sys.Decided nodeId) (s : GreetStep) :
    Decided nodeId (sys.step nodeId s) := by
  cases s with
  | load conn msg allowTimelineCreation =>
    simp only [Greetings.step]
    split
    · next st _ _ => exact h.of_load conn msg st
    · split_ifs
      · apply h.update
        rintro msg' loaded update ⟨⟩
      · exact h
    · exact h
  | create conn =>
    simp only [Greetings.step]
    split
    · next msg _ =>
      have h' : Decided nodeId
          { sys with stored := some (sys.stored.getD (AcceptorState.new msg.server 0)) } := h
      exact h'.of_load conn msg _
    · exact h
  | store conn =>
    simp only [Greetings.step]
    split
    · apply h.update
      rintro msg' loaded update ⟨⟩
    · exact h

theorem decided_run (steps : List GreetStep) : (run nodeId steps).Decided nodeId :=
  List.foldlRecOn steps _ (by rintro conn msg loaded update ⟨⟩) fun _ h s _ => h.step s

/-- The metadata that a connection's greeting is about to change is what it loaded. -/
def FindsLoaded (sys : Greetings) (conn : ℕ) : Prop :=
  ∀ msg loaded update, sys.phase conn = .storing msg loaded update →
    ∀ st ∈ sys.stored, st.server = loaded.server ∧ st.mconf.generation = loaded.mconf.generation

theorem findsLoaded_of_eq {loaded st : AcceptorState} {update : MetaUpdate}
    (hphase : sys.phase conn = .storing msg loaded update) (hst : sys.stored = some st)
    (hserver : st.server = loaded.server)
    (hgeneration : st.mconf.generation = loaded.mconf.generation) : sys.FindsLoaded conn := by
  intro msg' loaded' update' hphase' st' hst'
  rw [hphase] at hphase'
  rw [hst] at hst'
  obtain ⟨-, rfl, -⟩ := Phase.storing.inj hphase'
  obtain rfl := Option.some.inj hst'
  exact ⟨hserver, hgeneration⟩

/-- A value of the server changes only to a known value that the storing greeting
brings, and only if that greeting had read the value it replaces. -/
def ChangedBy (phase : Phase) (field : ServerInfo → ℕ) (old new : ServerInfo) : Prop :=
  field new = field old ∨
    ∃ msg loaded update, phase = .storing msg loaded update ∧ field new = field msg.server ∧
      field new ≠ 0 ∧ field loaded.server = field old

/-- The generation does not fall, and neither the system id nor the version is replaced
by an older or an unknown one. -/
structure MetaKept (phase : Phase) (old new : AcceptorState) : Prop where
  generation : old.mconf.generation ≤ new.mconf.generation
  systemId : ChangedBy phase ServerInfo.systemId old.server new.server
  pgVersion : ChangedBy phase ServerInfo.pgVersion old.server new.server

theorem metaKept_refl (phase : Phase) (st : AcceptorState) : MetaKept phase st st :=
  ⟨le_rfl, .inl rfl, .inl rfl⟩

theorem decided_stored (conn : ℕ) (msg : ProposerGreeting) (st : AcceptorState) :
    (sys.decided nodeId conn msg st).stored = sys.stored := by
  unfold decided
  split <;> rfl

/-- What a greeting decided from a head with the stored metadata replaces nothing by an
older or an unknown value. -/
theorem metaKept_updateMeta {loaded st : AcceptorState} {update : MetaUpdate}
    (hdecided : greetUpdate nodeId msg loaded = .ok (some update))
    (hserver : st.server = loaded.server)
    (hgeneration : st.mconf.generation = loaded.mconf.generation) :
    MetaKept (.storing msg loaded update) st (updateMeta st update) := by
  obtain ⟨hnew, hmconf⟩ := greetUpdate_eq hdecided
  have hlearned : (updateMeta st update).server = learnedServer st.server msg := by
    rw [hserver, ← hnew]
    rfl
  refine ⟨?_, ?_, ?_⟩
  · cases hupdate : update.mconf with
    | none => simp [updateMeta, hupdate]
    | some mconf =>
      have hlt := hmconf mconf hupdate
      rw [← hgeneration] at hlt
      simpa [updateMeta, hupdate] using hlt.le
  · rw [ChangedBy, hlearned]
    unfold learnedServer
    by_cases hother : msg.systemId ≠ 0 ∧ st.server.systemId ≠ msg.systemId
    · rw [if_pos hother]
      exact .inr ⟨msg, loaded, update, rfl, rfl, hother.1, by rw [hserver]⟩
    · rw [if_neg hother]
      exact .inl rfl
  · rw [ChangedBy, hlearned]
    unfold learnedServer
    split_ifs with hother hversion
    · exact .inr ⟨msg, loaded, update, rfl, rfl, hversion, by rw [hserver]⟩
    · exact .inl rfl
    · exact .inl rfl

/-- One step keeps the metadata when a greeting that stores finds what it loaded. -/
theorem metaKept_step (hsys : sys.Decided nodeId) {s : GreetStep}
    (hfinds : ∀ conn, s = .store conn → sys.FindsLoaded conn) {old : AcceptorState}
    (hold : old ∈ sys.stored) :
    ∃ new ∈ (sys.step nodeId s).stored, MetaKept (sys.phase s.conn) old new := by
  have hsame : ∀ stored : Option AcceptorState, stored = sys.stored →
      ∃ new ∈ stored, MetaKept (sys.phase s.conn) old new := by
    rintro stored rfl
    exact ⟨old, hold, metaKept_refl _ old⟩
  cases s with
  | load conn msg allowTimelineCreation =>
    apply hsame
    simp only [step]
    split
    · exact decided_stored conn msg _
    · split_ifs <;> rfl
    · rfl
  | create conn =>
    apply hsame
    simp only [step]
    split
    · rw [decided_stored, hold]
      rfl
    · rfl
  | store conn =>
    cases hphase : sys.phase conn with
    | storing msg loaded update =>
      obtain ⟨hserver, hgeneration⟩ := hfinds conn rfl msg loaded update hphase old hold
      have hdecided := hsys conn msg loaded update hphase
      refine ⟨updateMeta old update, ?_, ?_⟩
      · have hstored : sys.stored = some old := hold
        simp [step, hphase, hstored]
      · rw [GreetStep.conn, hphase]
        exact metaKept_updateMeta hdecided hserver hgeneration
    | idle | creating msg =>
      apply hsame
      simp [step, hphase]

/-- In every interleaving where each greeting that stores finds the server and the
generation it loaded, no step lowers the generation of the stored configuration and
none puts back an older or an unknown system id or version. -/
theorem greetings_keep_metadata (nodeId : NodeId) (steps : List GreetStep)
    (hfinds : ∀ pre conn post, steps = pre ++ .store conn :: post →
      (run nodeId pre).FindsLoaded conn) :
    ∀ pre s post, steps = pre ++ s :: post → ∀ old ∈ (run nodeId pre).stored,
      ∃ new ∈ (run nodeId (pre ++ [s])).stored,
        MetaKept ((run nodeId pre).phase s.conn) old new := by
  rintro pre s post rfl old hold
  have hrun : run nodeId (pre ++ [s]) = (run nodeId pre).step nodeId s := by simp [run]
  rw [hrun]
  apply metaKept_step (decided_run pre) _ hold
  rintro conn rfl
  exact hfinds pre conn post rfl

/-- A greeting of one fixed timeline, by a configuration whose only member is node 1. -/
def sampleGreeting (generation systemId : ℕ) : ProposerGreeting where
  tenantId := .zero
  timelineId := .zero
  mconf := ⟨generation, [⟨1, "", 0⟩], none⟩
  pgVersion := 0
  systemId := systemId
  walSegSize := 16

/-- The timeline is created, and two greetings load it before either stores. -/
def racingGreetings : List GreetStep :=
  [.load 2 (sampleGreeting 0 0) true, .create 2,
    .load 0 (sampleGreeting 1 0) true, .load 1 (sampleGreeting 2 7) true, .store 1]

/-- The second store of two greetings that loaded the same head puts back the unknown
system id and lowers the generation that the first one stored. -/
theorem racing_greeting_puts_back :
    (run 1 racingGreetings).stored.map (fun st => (st.mconf.generation, st.server.systemId)) =
        some (2, 7) ∧
      (run 1 (racingGreetings ++ [.store 0])).stored.map
        (fun st => (st.mconf.generation, st.server.systemId)) = some (1, 0) := by
  decide

/-- The same two greetings, one after the other: each finds what it loaded. -/
theorem greetings_keep_metadata_in_turn :
    ∃ steps : List GreetStep,
      steps = [.load 2 (sampleGreeting 0 0) true, .create 2, .load 0 (sampleGreeting 1 0) true,
        .store 0, .load 1 (sampleGreeting 2 7) true, .store 1] ∧
      ∀ pre s post, steps = pre ++ s :: post → ∀ old ∈ (run 1 pre).stored,
        ∃ new ∈ (run 1 (pre ++ [s])).stored, MetaKept ((run 1 pre).phase s.conn) old new := by
  refine ⟨_, rfl, greetings_keep_metadata 1 _ ?_⟩
  intro pre conn post hsteps
  simp only [List.cons_eq_append_iff, List.cons.injEq, reduceCtorEq, false_and, and_false,
    false_or, List.nil_eq, List.append_eq_nil_iff] at hsteps
  obtain ⟨_, rfl, _, rfl, _, rfl, ⟨rfl, ⟨⟩, -⟩ | ⟨_, rfl, _, rfl, ⟨rfl, ⟨⟩, -⟩ | ⟨_, ⟨⟩⟩⟩⟩ := hsteps
  · exact findsLoaded_of_eq rfl rfl rfl rfl
  · exact findsLoaded_of_eq rfl rfl rfl rfl

end Greetings

end Loams.Safekeeper
