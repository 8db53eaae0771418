/-
# The metastore client

The commands of all clients are applied in the order of one log.
-/

import Loams.Meta.Evolution

namespace Loams.Meta.Client

open Option List Loams.Data Loams.Control MetaState Std.ExtTreeMap

/-! ## The client -/

/-- The errors after which a request is tried again. -/
inductive Retryable
  | notLeader
  | timeout
  | unavailable
  deriving DecidableEq

/-- What a client gets instead of a reply. -/
inductive MetaError
  | retryable (error : Retryable)
  | clockSkew
  | config
  | unexpectedReply
  | rejected (error : ApplyError)
  deriving DecidableEq

/-- How an attempt to write ended: refused before it was proposed, lost with its answer,
whether its command was applied at an index of the log or not, denied for good before it
was proposed, or answered once the entry at its index was applied. -/
inductive Attempt
  | refused (error : Retryable)
  | lost (error : Retryable) (index : Option ℕ)
  | denied (skew : Bool)
  | answered (index : ℕ)
  deriving DecidableEq

namespace Attempt

/-- Where the command was committed. -/
def index : Attempt → Option ℕ
  | lost _ index => index
  | answered index => some index
  | refused _ | denied _ => none

/-- The reply did not come. -/
def isLost : Attempt → Bool
  | lost .. => true
  | _ => false

/-- The client tries again. -/
def isRetryable : Attempt → Bool
  | refused _ | lost .. => true
  | denied _ | answered _ => false

/-- What the client sees of an attempt. -/
def result (reply : ℕ → Except ApplyError Reply) : Attempt → Except MetaError Reply
  | refused error | lost error _ => .error (.retryable error)
  | denied skew => .error (if skew then .clockSkew else .config)
  | answered index => (reply index).mapError .rejected

end Attempt

/-- The result of the attempts that a request made, and whether one failed with an unknown
outcome: all but the last were tried again. -/
def onLeader (reply : ℕ → Except ApplyError Reply) (unknown : Bool) :
    List Attempt → Option (Except MetaError Reply × Bool)
  | [] => none
  | attempt :: later =>
    let unknown := unknown || attempt.isLost
    if later = [] then some (attempt.result reply, unknown)
    else if attempt.isRetryable then onLeader reply unknown later
    else none

/-- What a collection is made of. -/
abbrev Ids := CollectionId × StreamId × LinkId

/-- The ids of the collection that a retried creation found: as the local node has it,
which may lag or fail, and else as the leader has it. -/
def createdCollection (near : Option MetaState) (leader : Except MetaError MetaState)
    (id : CollectionId) : Except MetaError Ids :=
  let ids (s : MetaState) : Option Ids := s.collections[id]?.map fun c => (c.id, c.stream, c.link)
  match near.bind ids with
  | some found => .ok found
  | none => leader.bind fun s => (ids s).elim (.error (.rejected (.collectionExists id))) .ok

/-- What a creation returns once its write has ended. -/
def createCollection (near : Option MetaState) (leader : Except MetaError MetaState) :
    Except MetaError Reply × Bool → Except MetaError Ids
  | (.ok (.collectionCreated id stream link), _) => .ok (id, stream, link)
  | (.ok _, _) => .error .unexpectedReply
  | (.error (.rejected (.collectionExists id)), true) => createdCollection near leader id
  | (.error error, _) => .error error

/-! ## The log -/

/-- An applied command and the call that proposed it. -/
structure Entry where
  caller : ℕ
  command : Command
  deriving DecidableEq

/-- The state of a replica that has applied a number of entries. -/
def stateAt (log : List Entry) (n : ℕ) : MetaState := after ((log.take n).map Entry.command)

/-- A call of `write_tracked` that has ended: its attempts, and which entries of the log
they are, none of them from before the call began. -/
structure Call (log : List Entry) where
  caller : ℕ
  command : Command
  start : ℕ
  attempts : List Attempt
  written : Except MetaError Reply × Bool
  proposed : ∀ a ∈ attempts, ∀ i ∈ a.index, start ≤ i ∧ log[i]? = some ⟨caller, command⟩
  accounted : ∀ i e, log[i]? = some e → e.caller = caller → ∃ a ∈ attempts, a.index = some i
  ended : onLeader (fun i => ((stateAt log i).apply command).1) false attempts = some written

variable {log : List Entry} {s s' : MetaState} {command : Command} {r : Reply}
variable {i j n start caller caller' : ℕ} {id : CollectionId} {c c' : Collection}

theorem stateAt_succ (n : ℕ) : stateAt log (n + 1) =
    (log[n]?).elim (stateAt log n) fun e => ((stateAt log n).apply e.command).2 := by
  rw [stateAt, take_add_one]
  cases log[n]? with
  | none =>
    rw [toList_none, append_nil]
    rfl
  | some e =>
    rw [toList_some, map_append]
    exact run_concat

/-! ## Where collections come from -/

/-- What a collection keeps while it exists. -/
def identity (c : Collection) : NamespaceId × String × Ids :=
  (c.namespace, c.name, c.id, c.stream, c.link)

/-- Every collection of the second state is in the first, with at most another schema. -/
def NoneNew (s s' : MetaState) : Prop :=
  s'.lastCollectionId = s.lastCollectionId ∧ ∀ (id : CollectionId) (c : Collection),
    s'.collections[id]? = some c → ∃ old, s.collections[id]? = some old ∧ identity old = identity c

theorem noneNew_of_eq (h : s'.collectionPart = s.collectionPart) : NoneNew s s' := by
  obtain ⟨hlast, heq⟩ := Prod.mk.inj h
  exact ⟨hlast, fun _ c hc => ⟨c, heq ▸ hc, rfl⟩⟩

theorem handler_noneNew (h : (handler command).exec s = (.ok r, s')) :
    NoneNew s s' ∨ ∃ ns name schema partitions,
      command = .createCollection ns name schema partitions := by
  rcases handler_collections h with ⟨hlast, hold⟩ | ⟨ns, name, schema, partitions, hcommand, -⟩
  · refine .inl ⟨hlast, fun id c hc => ?_⟩
    obtain ⟨old, hget, hsame, -⟩ := hold id c hc
    exact ⟨old, hget, by rw [hsame]; rfl⟩
  · exact .inr ⟨ns, name, schema, partitions, hcommand⟩

/-- The entry at an index created a collection. -/
structure Created (log : List Entry) (i caller : ℕ) (c : Collection) : Prop where
  entry : log[i]? = some ⟨caller, .createCollection c.namespace c.name c.schema c.partitions⟩
  next : c.id = (stateAt log i).lastCollectionId + 1
  last : (stateAt log (i + 1)).lastCollectionId = c.id
  stored : (stateAt log (i + 1)).collections = (stateAt log i).collections.insert c.id c

theorem created_of_ok {ns : NamespaceId} {name : String} {schema : CollectionSchema}
    {partitions : ℕ} (hi : log[i]? = some ⟨caller, .createCollection ns name schema partitions⟩)
    (hok : ((stateAt log i).apply
      (.createCollection ns name schema partitions)).1 = .ok r) :
    ∃ id stream link, r = .collectionCreated id stream link ∧
      Created log i caller ⟨id, ns, name, schema, partitions, stream, link⟩ := by
  obtain ⟨-, -, -, -, -, rfl, hs⟩ := createCollection_ok (s := stateAt log i) (Prod.ext hok rfl)
  have hsucc : stateAt log (i + 1) =
      ((stateAt log i).insertCollection ns name schema partitions).2 := by
    rw [stateAt_succ, hi]
    exact hs
  exact ⟨_, _, _, rfl, hi, rfl, by rw [hsucc]; rfl, by rw [hsucc]; rfl⟩

/-- One entry more creates a collection or none is new. -/
theorem step_cases (log : List Entry) (i : ℕ) :
    NoneNew (stateAt log i) (stateAt log (i + 1)) ∨ ∃ caller c, Created log i caller c := by
  cases hi : log[i]? with
  | none => exact .inl (noneNew_of_eq (by rw [stateAt_succ, hi]; rfl))
  | some e =>
    have hsucc : stateAt log (i + 1) = ((stateAt log i).apply e.command).2 := by
      rw [stateAt_succ, hi]
      rfl
    rcases apply_cases (stateAt log i) e.command with ⟨_, -, hsame⟩ | ⟨r, hok, hr⟩
    · exact .inl (noneNew_of_eq (by rw [hsucc, hsame]))
    · rcases handler_noneNew hok with hnone | ⟨_, _, _, _, hcommand⟩
      · exact .inl (hsucc ▸ hnone)
      · obtain ⟨caller, command⟩ := e
        subst hcommand
        obtain ⟨_, _, _, -, hcreated⟩ := created_of_ok hi hr
        exact .inr ⟨caller, _, hcreated⟩

/-- A collection was there or an entry since has created it. -/
theorem exists_created (h : (stateAt log (start + n)).collections[id]? = some c) :
    (∃ old, (stateAt log start).collections[id]? = some old ∧ identity old = identity c) ∨
      ∃ i caller made, start ≤ i ∧ i < start + n ∧ Created log i caller made ∧
        identity made = identity c := by
  induction n generalizing c with
  | zero => exact .inl ⟨c, h, rfl⟩
  | succ n ih =>
    rw [← Nat.add_assoc] at h
    -- The collection was there one entry before, or this entry made it.
    obtain ⟨d, hd, heq⟩ | ⟨caller, hmade⟩ : (∃ d, (stateAt log (start + n)).collections[id]? =
        some d ∧ identity d = identity c) ∨ ∃ caller, Created log (start + n) caller c := by
      rcases step_cases log (start + n) with hnone | ⟨caller, made, hmade⟩
      · exact .inl (hnone.2 id c h)
      · rw [hmade.stored] at h
        rcases get_insert_eq_some.mp h with ⟨-, rfl⟩ | ⟨-, h⟩
        · exact .inr ⟨caller, hmade⟩
        · exact .inl ⟨c, h, rfl⟩
    · rw [← heq]
      refine (ih hd).imp_right fun ⟨i, caller, made, hle, hlt, hmade⟩ => ?_
      exact ⟨i, caller, made, hle, Nat.lt_succ_of_lt hlt, hmade⟩
    · exact .inr ⟨_, caller, c, Nat.le_add_right _ _, Nat.lt_succ_self _, hmade, rfl⟩

theorem last_mono (log : List Entry) : Monotone fun n => (stateAt log n).lastCollectionId := by
  refine monotone_nat_of_le_succ fun n => ?_
  rcases step_cases log n with hnone | ⟨_, c, hc⟩
  · exact hnone.1.ge
  · rw [hc.last, hc.next]
    exact Nat.le_succ _

theorem Created.id_lt (h : Created log i caller c) (h' : Created log j caller' c') (hij : i < j) :
    c.id < c'.id := by
  rw [h'.next, ← h.last]
  exact Nat.lt_succ_of_le (last_mono log hij)

/-- Ids are not reused: a collection was created once. -/
theorem Created.eq (h : Created log i caller c) (h' : Created log j caller' c')
    (hid : c.id = c'.id) : c = c' := by
  obtain rfl : i = j := by
    rcases lt_trichotomy i j with hlt | heq | hgt
    · exact absurd hid (h.id_lt h' hlt).ne
    · exact heq
    · exact absurd hid (h'.id_lt h hgt).ne'
  have hstored := congrArg (fun m => m[c.id]?) (h.stored.symm.trans h'.stored)
  simpa [hid] using hstored

/-! ## Calls -/

theorem exists_last {reply : ℕ → Except ApplyError Reply} {unknown : Bool}
    {attempts : List Attempt} {written : Except MetaError Reply × Bool}
    (h : onLeader reply unknown attempts = some written) :
    ∃ earlier last, attempts = earlier ++ [last] ∧ (∀ a ∈ earlier, a.isRetryable = true) ∧
      written = (last.result reply, unknown || attempts.any Attempt.isLost) := by
  induction attempts generalizing unknown with
  | nil => cases h
  | cons attempt later ih =>
    rw [onLeader] at h
    split_ifs at h with hlater hretry
    · subst hlater
      exact ⟨[], attempt, rfl, by simp, by simpa using (some.inj h).symm⟩
    · obtain ⟨earlier, last, rfl, hearlier, hwritten⟩ := ih h
      refine ⟨attempt :: earlier, last, rfl, forall_mem_cons.mpr ⟨hretry, hearlier⟩, ?_⟩
      rw [hwritten, any_cons, Bool.or_assoc]

theorem exists_of_createdCollection {near : Option ℕ} {leader : Except MetaError ℕ} {ids : Ids}
    (h : createdCollection (near.map (stateAt log)) (leader.map (stateAt log)) id = .ok ids) :
    ∃ n c, (stateAt log n).collections[id]? = some c ∧ (c.id, c.stream, c.link) = ids := by
  simp only [createdCollection] at h
  split at h
  · next found hnear =>
    obtain rfl := Except.ok.inj h
    obtain ⟨_, hn, hfound⟩ := bind_eq_some_iff.mp hnear
    obtain ⟨n, -, rfl⟩ := map_eq_some_iff.mp hn
    exact ⟨n, map_eq_some_iff.mp hfound⟩
  · cases leader with
    | error e => cases h
    | ok n =>
      refine ⟨n, map_eq_some_iff.mp ?_⟩
      revert h
      simp only [Except.map, Except.bind]
      cases (stateAt log n).collections[id]? <;> simp

section Calls

variable {call : Call log} {ns : NamespaceId} {name : String}
variable {schema : CollectionSchema} {partitions : ℕ}

/-- An answer of the state machine is the answer to the last attempt. -/
theorem Call.answered (call : Call log) (result : Except ApplyError Reply) {unknown : Bool}
    (h : call.written = (result.mapError .rejected, unknown)) :
    ∃ i, call.start ≤ i ∧ log[i]? = some ⟨call.caller, call.command⟩ ∧
      ((stateAt log i).apply call.command).1 = result ∧
      (unknown = true → ∃ error i, Attempt.lost error i ∈ call.attempts) := by
  obtain ⟨earlier, last, hattempts, -, hwritten⟩ := exists_last call.ended
  obtain ⟨hresult, rfl⟩ := Prod.mk.inj (h.symm.trans hwritten)
  have hmem : last ∈ call.attempts := hattempts ▸ mem_append_right _ (mem_singleton_self _)
  cases last with
  | refused error | lost error _ => cases result <;> cases hresult
  | denied skew => cases skew <;> cases result <;> cases hresult
  | answered i =>
    obtain ⟨hstart, hentry⟩ := call.proposed _ hmem i rfl
    refine ⟨i, hstart, hentry, ?_, fun hunknown => ?_⟩
    · change result.mapError MetaError.rejected = ((stateAt log i).apply call.command).1.mapError _
        at hresult
      generalize ((stateAt log i).apply call.command).1 = answer at hresult
      cases result <;> cases answer <;> cases hresult <;> rfl
    · obtain ⟨a, ha, hlost⟩ := any_eq_true.mp ((Bool.false_or _).symm.trans hunknown)
      cases a with
      | lost error i => exact ⟨error, i, ha⟩
      | _ => cases hlost

/-- The name is free when the call starts, and no other call creates the collection since. -/
structure Call.Undisturbed (call : Call log) (ns : NamespaceId) (name : String) :
    Prop where
  free : (stateAt log call.start).collectionNames[(ns, name)]? = none
  alone : ∀ i caller schema partitions, call.start ≤ i →
    log[i]? = some ⟨caller, .createCollection ns name schema partitions⟩ →
    caller = call.caller

/-- A creation that is refused with a collection finds the one that an attempt of its own
created. -/
theorem Call.Undisturbed.created_of_exists (h : call.Undisturbed ns name)
    (hcommand : call.command = .createCollection ns name schema partitions)
    (hstart : call.start ≤ j)
    (hexists : ((stateAt log j).apply call.command).1 = .error (.collectionExists id)) :
    ∃ i stream link,
      Created log i call.caller ⟨id, ns, name, schema, partitions, stream, link⟩ := by
  rw [hcommand] at hexists
  obtain ⟨found, c, hname, hc, rfl⟩ :=
    createCollection_exists (s := stateAt log j) (Prod.ext hexists rfl)
  obtain ⟨n, rfl⟩ := Nat.exists_eq_add_of_le hstart
  obtain ⟨d, hd, hkey⟩ := (catalogInv_after _).collections.key _ _ hname
  obtain rfl := some.inj (hc.symm.trans hd)
  obtain ⟨hns, hname'⟩ := Prod.mk.inj hkey
  rcases exists_created hc with ⟨old, hold, heq⟩ | ⟨i, caller, made, hle, -, hmade, heq⟩
  · -- The name was taken when the call started.
    have hold := ((catalogInv_after _).collections.record _ _ hold).2
    simp only [identity, Prod.mk.injEq] at heq
    rw [heq.1, heq.2.1, hns, hname'] at hold
    cases hold.symm.trans h.free
  · simp only [identity, Prod.mk.injEq] at heq
    obtain ⟨id, _, _, _, _, stream, link⟩ := made
    obtain ⟨rfl, rfl, rfl, rfl, rfl⟩ := heq
    subst hns hname'
    obtain rfl := h.alone i caller _ _ hle hmade.entry
    obtain ⟨a, ha, hi⟩ := call.accounted i _ hmade.entry rfl
    have hentry := hmade.entry.symm.trans (call.proposed a ha i hi).2
    rw [hcommand, some.injEq, Entry.mk.injEq, Command.createCollection.injEq] at hentry
    obtain ⟨-, -, -, rfl, rfl⟩ := hentry
    exact ⟨i, _, _, hmade⟩

end Calls

/-- What a client reports of its own writes. A created collection, whether answered or found
after an answer was lost, was created by an entry of the call, if no other call disturbs one
whose answer was lost. And after an error that is known to be final, no entry of the call has
changed the state. -/
theorem client_reports_own_writes (log : List Entry) :
    (∀ (call : Call log) (ns : NamespaceId) (name : String) (schema : CollectionSchema)
        (partitions : ℕ) (near : Option ℕ) (leader : Except MetaError ℕ)
        (id : CollectionId) (stream : StreamId) (link : LinkId),
      call.command = .createCollection ns name schema partitions →
      ((∃ error i, Attempt.lost error i ∈ call.attempts) → call.Undisturbed ns name) →
      createCollection (near.map (stateAt log)) (leader.map (stateAt log)) call.written =
        .ok (id, stream, link) →
      ∃ i, Created log i call.caller ⟨id, ns, name, schema, partitions, stream, link⟩) ∧
    ∀ (call : Call log) (error : MetaError), call.written = (.error error, false) →
      (∀ e, error ≠ .retryable e) → ∀ (i : ℕ) (e : Entry), log[i]? = some e →
        e.caller = call.caller → stateAt log (i + 1) = stateAt log i := by
  constructor
  · intro call ns name schema partitions near leader id stream link hcommand hcond hok
    unfold createCollection at hok
    split at hok
    · next hwritten =>
      cases hok
      obtain ⟨i, -, hentry, happly, -⟩ := call.answered (.ok _) hwritten
      rw [hcommand] at hentry happly
      obtain ⟨_, _, _, hr, hcreated⟩ := created_of_ok hentry happly
      cases hr
      exact ⟨i, hcreated⟩
    · cases hok
    · next found hwritten =>
      obtain ⟨j, hstart, -, happly, hlost⟩ :=
        call.answered (.error (.collectionExists found)) hwritten
      obtain ⟨i, _, _, hmade⟩ := (hcond (hlost rfl)).created_of_exists hcommand hstart happly
      obtain ⟨n, c, hc, hids⟩ := exists_of_createdCollection hok
      have hid := ((catalogInv_after _).collections.record found c hc).1
      rw [← Nat.zero_add n] at hc
      rcases exists_created hc with ⟨_, hnone, -⟩ | ⟨_, _, made, -, -, hmade', heq⟩
      · simp [stateAt] at hnone
      · -- The collection that was read is the one that the call created.
        simp only [identity, Prod.mk.injEq] at heq hids
        have hsame := hmade.eq hmade' (hid.symm.trans heq.2.2.1.symm)
        rw [← hsame] at heq
        obtain ⟨rfl, rfl, rfl⟩ := hids
        rw [← heq.2.2.1, ← heq.2.2.2.1, ← heq.2.2.2.2]
        exact ⟨i, hmade⟩
    · cases hok
  · intro call error hwritten hfinal i e hi hcaller
    obtain ⟨earlier, last, hattempts, hearlier, heq⟩ := exists_last call.ended
    obtain ⟨a, ha, hindex⟩ := call.accounted i e hi hcaller
    obtain ⟨hresult, hlost⟩ := Prod.mk.inj (hwritten.symm.trans heq)
    have hnone := any_eq_false.mp (hlost.symm.trans rfl) a ha
    obtain rfl : a = last := by
      rcases mem_append.mp (hattempts ▸ ha) with hearly | hlast
      · have hretry := hearlier a hearly
        cases a with
        | lost error _ => exact absurd rfl hnone
        | refused error => cases hindex
        | denied _ | answered _ => cases hretry
      · exact mem_singleton.mp hlast
    cases a with
    | refused _ | denied _ => cases hindex
    | lost _ _ => exact absurd rfl hnone
    | answered index =>
      obtain rfl := some.inj hindex
      obtain rfl := some.inj (hi.symm.trans (call.proposed _ ha _ rfl).2)
      rw [stateAt_succ, hi]
      rcases apply_cases (stateAt log index) call.command with ⟨_, -, hsame⟩ | ⟨r, -, hr⟩
      · exact hsame
      · rw [Attempt.result, hr] at hresult
        cases hresult

/-- A collection of one partition. -/
def sampleCreate : Command := .createCollection 1 "docs" ⟨1, [], [], [], .strict, 10, ∅⟩ 1

/-- Two attempts to create one collection, the first by the given caller, and a command
that is rejected. -/
def sampleLog (first : ℕ) : List Entry :=
  [⟨0, .createNamespace "default"⟩, ⟨first, sampleCreate⟩, ⟨2, sampleCreate⟩,
    ⟨3, .createNamespace "default"⟩]

/-- A call whose side conditions are checked by evaluation. -/
def sampleCall (log : List Entry) (caller : ℕ) (command : Command) (attempts : List Attempt)
    (written : Except MetaError Reply × Bool)
    (h : (∀ a ∈ attempts, ∀ i ∈ a.index, 1 ≤ i ∧ log[i]? = some ⟨caller, command⟩) ∧
      (∀ p ∈ log.zipIdx, p.1.caller = caller → ∃ a ∈ attempts, a.index = some p.2) ∧
      onLeader (fun i => ((stateAt log i).apply command).1) false attempts = some written) :
    Call log where
  caller := caller
  command := command
  start := 1
  attempts := attempts
  written := written
  proposed := h.1
  accounted i e hi := h.2.1 (e, i) (mem_zipIdx_iff_getElem?.mpr hi)
  ended := h.2.2

/-- The lost attempt was never applied, and the call returns the collection of another. -/
theorem retried_creation_returns_another :
    ∃ call : Call (sampleLog 1), call.command = sampleCreate ∧
      createCollection none (.ok (stateAt (sampleLog 1) 3)) call.written = .ok (1, 1, 1) ∧
      ∀ i c, ¬Created (sampleLog 1) i call.caller c := by
  refine ⟨sampleCall _ 2 sampleCreate [.lost .timeout none, .answered 2]
    (.error (.rejected (.collectionExists 1)), true) (by decide +kernel), rfl,
    by decide +kernel, fun i c hc => ?_⟩
  have hi : i < 4 := (List.getElem?_eq_some_iff.mp hc.entry).1
  have hcaller : (sampleLog 1)[i]?.map Entry.caller = some 2 := by
    rw [hc.entry]
    rfl
  have hlast := hc.last.trans hc.next
  clear hc
  revert i
  decide +kernel

theorem client_reports_own_writes_sample :
    (∃ i, Created (sampleLog 2) i 2 ⟨1, 1, "docs", ⟨1, [], [], [], .strict, 10, ∅⟩, 1, 1, 1⟩) ∧
      stateAt (sampleLog 2) 4 = stateAt (sampleLog 2) 3 := by
  constructor
  · refine (client_reports_own_writes (sampleLog 2)).1
      (sampleCall _ 2 sampleCreate [.lost .timeout (some 1), .answered 2]
        (.error (.rejected (.collectionExists 1)), true) (by decide +kernel))
      1 "docs" _ _ none (.ok 4) _ _ _ rfl (fun _ => ⟨by decide +kernel, ?_⟩) (by decide +kernel)
    rintro (_ | _ | _ | _ | i) _ _ _ hi ⟨⟩
    all_goals rfl
  · exact (client_reports_own_writes (sampleLog 2)).2
      (sampleCall _ 3 (.createNamespace "default") [.refused .notLeader, .answered 3]
        (.error (.rejected (.namespaceExists 1)), false) (by decide +kernel))
      _ rfl (fun _ => MetaError.noConfusion) 3 _ rfl rfl

end Loams.Meta.Client
