/-
# Collections and aliases
-/

import Loams.Meta.Catalog

namespace Loams.Meta

open Loams.Data Loams.Control Program ApplyError

/-- The pending effect of an alias update: the new target, or `none` to remove
the alias. -/
abbrev AliasChanges := BTreeMap String (Option CollectionId)

/-- Working copies of the aliases a target update touched. -/
abbrev WorkingAliases := BTreeMap String AliasMembers

namespace MetaState

/-! ## Alias maps -/

variable (s : MetaState) (ns : NamespaceId)

/-- The members of an alias from either map; none when there is no such alias. -/
def aliasMembers («alias» : String) : AliasMembers :=
  match s.aliases[(ns, «alias»)]? with
  | some id => (∅ : AliasMembers).insert id none
  | none => (s.aliasTargets[(ns, «alias»)]?).elim ∅ AliasTargets.members

/-- Puts an alias in its canonical map. -/
def putAlias («alias» : String) (members : AliasMembers) : MetaState :=
  let key := (ns, «alias»)
  let s := { s with aliases := s.aliases.erase key, aliasTargets := s.aliasTargets.erase key }
  match members.toList with
  | [] => s
  | [(id, none)] => { s with aliases := s.aliases.insert key id }
  | _ => { s with aliasTargets := s.aliasTargets.insert key ⟨members⟩ }

/-! ## Creation and schema changes -/

/-- Whether the name of a new collection is free: retries and clashes with
another collection are told apart. -/
def checkCollectionFree (name : String) (schema : CollectionSchema) (partitions : ℕ) :
    Except ApplyError Unit := do
  match (s.collectionNames[(ns, name)]?).bind fun id => s.collections[id]? with
  | some existing =>
    .error (if existing.schema = schema ∧ existing.partitions = partitions
      then .collectionExists existing.id else .nameTaken name)
  | none => .ok ()
  require (¬((ns, name) ∈ s.aliases ∨ (ns, name) ∈ s.aliasTargets))
    (nameTaken name)

/-- The state with a new collection, its stream and its link, and their ids. -/
def insertCollection (name : String) (schema : CollectionSchema) (partitions : ℕ) :
    (CollectionId × StreamId × LinkId) × MetaState :=
  let id := s.lastCollectionId + 1
  let s := { s with lastCollectionId := id }
  let implicit := implicitName name id
  let streamed := s.insertStream ns implicit partitions .standard {}
  let linked := streamed.2.insertLink ns implicit streamed.1 ⟨collectionKind, name⟩ ∅
  ((id, streamed.1, linked.1), { linked.2 with
    collectionNames := linked.2.collectionNames.insert (ns, name) id
    collections := linked.2.collections.insert id
      ⟨id, ns, name, schema, partitions, streamed.1, linked.1⟩ })

/-- A collection with its stream and link. -/
def createCollection (name : String) (schema : CollectionSchema) (partitions : ℕ) :
    Handler Reply := do
  let s ← read
  require (ns ∈ s.namespaces) (namespaceNotFound ns)
  validateName "collection" name
  requireArg (name.utf8ByteSize ≤ maxCollectionNameLen)
    s!"a collection name is at most {maxCollectionNameLen} bytes, got {name.utf8ByteSize}"
  refuseReserved name
  checkPartitions partitions
  schema.validate.mapError fun e => invalidArgument e.display
  requireArg (schema.version = 1)
    s!"a new collection's schema is at version 1, got {schema.version}"
  s.checkCollectionFree ns name schema partitions
  let created := s.insertCollection ns name schema partitions
  update fun _ => created.2
  return .collectionCreated created.1.1 created.1.2.1 created.1.2.2

/-- The message of a schema error without its kind. -/
def schemaMessage : SchemaError → String
  | .invalid message => message
  | .incompatible message => message

/-- The next version of a schema. -/
def updateCollectionSchema (collection : CollectionId) (expectedVersion : ℕ)
    (schema : CollectionSchema) : Handler Reply := do
  let s ← read
  match s.collections[collection]? with
  | none => fail (.collectionNotFound collection)
  | some c =>
    schema.validate.mapError fun e => invalidArgument e.display
    -- A retry of an update that was applied.
    if expectedVersion + 1 ≤ u64Max ∧ expectedVersion + 1 = c.schema.version ∧
        c.schema.sameIgnoringVersion schema then
      return .schemaUpdated c.schema.version
    else
      require (c.schema.version = expectedVersion)
        (schemaVersionMismatch collection c.schema.version)
      (c.schema.checkAdditive schema).mapError fun e =>
        incompatibleSchema (schemaMessage e)
      requireArg (expectedVersion + 1 ≤ u64Max) "the schema version cannot grow past u64::MAX"
      update fun s => { s with
        collections := s.collections.insert collection
          { c with schema := { schema with version := expectedVersion + 1 } } }
      return .schemaUpdated (expectedVersion + 1)

/-! ## Drops -/

/-- Takes a collection out of every alias. -/
def dropFromAliases (id : CollectionId) : MetaState :=
  let s := { s with aliases := s.aliases.filter fun _ target => target ≠ id }
  let changed := (s.aliasTargets.filter fun _ targets => id ∈ targets.members).keys
  changed.foldl (fun s key => s.putAlias key.1 key.2 ((s.aliasMembers key.1 key.2).erase id)) s

/-- Takes a collection out of the catalog: its name, its aliases and its hot
configuration. -/
def dropEntry (name : String) (id : CollectionId) : MetaState :=
  let s := { s with
    collectionNames := s.collectionNames.erase (ns, name)
    collections := s.collections.erase id }
  let s := s.dropFromAliases id
  { s with collectionHot := s.collectionHot.erase id }

/-- The part of a drop that follows once the collection is found. -/
def dropFound (name : String) (id : CollectionId) (collection : Collection) : MetaState :=
  let s := ((s.dropEntry ns name id).removeStream collection.stream).removeLink
    collection.link
  { s with
    pointers := s.pointers.erase (ns, collectionPointerKey id)
    retired := (s.retired.insert (collectionPrefix ns id) s.clockMs).insert
      (collectionPkPrefix ns id) s.clockMs }

/-- The collection goes with all that is its own. -/
def dropCollection (name : String) (nowMs : ℕ) : Handler Reply := do
  update fun s => s.advance nowMs
  let s ← read
  match s.collectionNames[(ns, name)]? with
  | none => return .collectionDropped none
  | some id =>
    match s.collections[id]? with
    | none =>
      update fun s => { s with collectionNames := s.collectionNames.erase (ns, name) }
      return .collectionDropped none
    | some collection =>
      update fun s => s.dropFound ns name id collection
      return .collectionDropped (some id)

/-! ## Alias updates -/

/-- The checks on the alias and the collection an action adds; the id of the
collection. -/
def checkAliasTarget («alias» collection : String) : Except ApplyError CollectionId := do
  validateName "alias" «alias»
  refuseReserved «alias»
  require ((ns, «alias») ∉ s.collectionNames) (nameTaken «alias»)
  match s.collectionNames[(ns, collection)]? with
  | some id => .ok id
  | none => .error (.unknownCollection collection)

/-- An alias update carries 1 to 100 actions. -/
def checkActionCount (count : ℕ) : Except ApplyError Unit :=
  requireArg (1 ≤ count ∧ count ≤ maxAliasActions)
    s!"an alias update takes 1..={maxAliasActions} actions, got {count}"

/-- The effect of the actions, gathered before anything is written. -/
def aliasChanges : List AliasAction → AliasChanges → Except ApplyError AliasChanges
  | [], changes => .ok changes
  | .create «alias» collection :: actions, changes => do
    let id ← s.checkAliasTarget ns «alias» collection
    aliasChanges actions (changes.insert «alias» (some id))
  | .delete «alias» :: actions, changes =>
    aliasChanges actions (changes.insert «alias» none)

/-- Writes one gathered change. -/
def applyAliasChange (s : MetaState) (change : String × Option CollectionId) : MetaState :=
  let key := (ns, change.1)
  { s with
    aliasTargets := s.aliasTargets.erase key
    aliases :=
      match change.2 with
      | some id => s.aliases.insert key id
      | none => s.aliases.erase key }

/-- All actions or none. -/
def updateAliases (actions : List AliasAction) : Handler Reply := do
  let s ← read
  require (ns ∈ s.namespaces) (namespaceNotFound ns)
  checkActionCount actions.length
  let changes ← s.aliasChanges ns actions ∅
  update fun s => changes.toList.foldl (applyAliasChange ns) s
  return .aliasesUpdated

/-- The working copy of an alias, taken from the state the first time. -/
def workingMembers (working : WorkingAliases) (ns : NamespaceId) («alias» : String) :
    AliasMembers :=
  (working[«alias»]?).getD (s.aliasMembers ns «alias»)

/-- The working copies after the actions. -/
def workingAliases : List AliasTargetAction → WorkingAliases → Except ApplyError WorkingAliases
  | [], working => .ok working
  | .add «alias» collection isWriteIndex :: actions, working => do
    let id ← s.checkAliasTarget ns «alias» collection
    let members := s.workingMembers working ns «alias»
    workingAliases actions (working.insert «alias» (members.insert id isWriteIndex))
  | .remove «alias» collection :: actions, working =>
    let members := s.workingMembers working ns «alias»
    let members :=
      match s.collectionNames[(ns, collection)]? with
      | some id => members.erase id
      | none => members
    workingAliases actions (working.insert «alias» members)
  | .removeAlias «alias» :: actions, working =>
    workingAliases actions (working.insert «alias» ∅)

/-- The names of the collections an alias would write to. -/
def writers (members : AliasMembers) : List String :=
  (members.toList.filter fun m => m.2 = some true).filterMap fun m =>
    (s.collections[m.1]?).map Collection.name

/-- An alias has at most 100 members and one write index. -/
def checkWorking («alias» : String) (members : AliasMembers) : Except ApplyError Unit := do
  requireArg (members.size ≤ maxAliasTargets)
    ("alias [" ++ «alias» ++ s!"] would name {members.size} collections; the limit is " ++
      toString maxAliasTargets)
  requireArg ((s.writers members).length ≤ 1)
    ("alias [" ++ «alias» ++ "] has more than one write index [" ++
      String.intercalate "," ((s.writers members).insertionSort (· ≤ ·)) ++ "]")

/-- Checks every alias that was touched. -/
def checkAllWorking (working : WorkingAliases) : Except ApplyError Unit :=
  working.toList.forM fun w => s.checkWorking w.1 w.2

/-- All actions or none. -/
def updateAliasTargets (actions : List AliasTargetAction) : Handler Reply := do
  let s ← read
  require (ns ∈ s.namespaces) (namespaceNotFound ns)
  checkActionCount actions.length
  let working ← s.workingAliases ns actions ∅
  s.checkAllWorking working
  update fun s => working.toList.foldl (fun s w => s.putAlias ns w.1 w.2) s
  return .aliasesUpdated

/-! ## What a successful command did -/

variable {s s' : MetaState} {r : Reply} {name : String} {partitions expectedVersion nowMs : ℕ}
  {schema : CollectionSchema} {ns : NamespaceId} {collection : CollectionId}

theorem checkCollectionFree_eq_ok {u : Unit} :
    s.checkCollectionFree ns name schema partitions = .ok u ↔
      ((s.collectionNames[(ns, name)]?).bind fun id => s.collections[id]?) = none ∧
      (ns, name) ∉ s.aliases ∧ (ns, name) ∉ s.aliasTargets := by
  unfold checkCollectionFree
  cases (s.collectionNames[(ns, name)]?).bind fun id => s.collections[id]? with
  | some existing | none => simp [except_bind_ok]

theorem createCollection_ok
    (h : (createCollection ns name schema partitions).exec s = (.ok r, s')) :
    startsWithChar name '_' = false ∧ schema.version = 1 ∧
      ((s.collectionNames[(ns, name)]?).bind fun id => s.collections[id]?) = none ∧
      (ns, name) ∉ s.aliases ∧ (ns, name) ∉ s.aliasTargets ∧
      r = .collectionCreated (s.lastCollectionId + 1) (s.lastStreamId + 1) (s.lastLinkId + 1) ∧
      s' = (s.insertCollection ns name schema partitions).2 := by
  simp only [createCollection, refuseReserved, exec_check_bind_ok, exec_read_bind,
    requireArg_eq_ok, checkCollectionFree_eq_ok, exec_update_bind, exec_pure,
    Prod.mk.injEq] at h
  obtain ⟨_, -, _, -, _, -, _, hname, _, -, _, -, _, hversion, _, ⟨hfree, halias, htargets⟩,
    hr, hs⟩ := h
  exact ⟨hname, hversion, hfree, halias, htargets, (Except.ok.inj hr).symm, hs.symm⟩

/-- A creation is refused with the collection that has its name. -/
theorem createCollection_exists {id : CollectionId}
    (h : (createCollection ns name schema partitions).exec s =
      (.error (.collectionExists id), s')) :
    ∃ found c, s.collectionNames[(ns, name)]? = some found ∧
      s.collections[found]? = some c ∧ c.id = id := by
  rw [createCollection, exec_read_bind] at h
  iterate 5 obtain ⟨_, h⟩ := exec_check_bind_error h (require_ne_error nofun)
  obtain ⟨_, h⟩ := exec_check_bind_error h (by cases schema.validate <;> nofun)
  obtain ⟨_, h⟩ := exec_check_bind_error h (require_ne_error nofun)
  by_cases hfree : s.checkCollectionFree ns name schema partitions =
    .error (.collectionExists id)
  · unfold checkCollectionFree at hfree
    cases hfound : (s.collectionNames[(ns, name)]?).bind fun id => s.collections[id]? with
    | none =>
      rw [hfound] at hfree
      exact absurd hfree (require_ne_error nofun)
    | some existing =>
      rw [hfound] at hfree
      obtain ⟨found, hname, hc⟩ := Option.bind_eq_some_iff.mp hfound
      have herror := Except.error.inj hfree
      split_ifs at herror
      exact ⟨found, existing, hname, hc, collectionExists.inj herror⟩
  · obtain ⟨_, h⟩ := exec_check_bind_error h hfree
    cases h

/-- A schema update finds itself applied or replaces the schema. -/
theorem updateCollectionSchema_ok
    (h : (updateCollectionSchema collection expectedVersion schema).exec s = (.ok r, s')) :
    ∃ c, s.collections[collection]? = some c ∧
      (s' = s ∧ c.schema.version = expectedVersion + 1 ∧ c.schema.sameIgnoringVersion schema ∨
        c.schema.version = expectedVersion ∧ c.schema.checkAdditive schema = .ok () ∧ s' = { s with
          collections := s.collections.insert collection
            { c with schema := { schema with version := expectedVersion + 1 } } }) := by
  rw [updateCollectionSchema, exec_read_bind] at h
  cases hc : s.collections[collection]? with
  | none => simp [hc] at h
  | some c =>
    simp only [hc, exec_check_bind_ok] at h
    obtain ⟨_, -, h⟩ := h
    refine ⟨c, rfl, ?_⟩
    split_ifs at h with hretry
    · exact .inl ⟨(Prod.mk.inj h).2.symm, hretry.2.1.symm, hretry.2.2⟩
    · simp only [exec_check_bind_ok, exec_update_bind, exec_pure, Prod.mk.injEq,
        require_eq_ok] at h
      obtain ⟨_, hversion, _, hadditive, _, -, -, hs⟩ := h
      refine .inr ⟨hversion, ?_, hs.symm⟩
      cases hcheck : c.schema.checkAdditive schema with
      | ok => rfl
      | error e =>
        rw [hcheck] at hadditive
        cases hadditive

/-- A drop finds no collection of the name, or drops it. -/
theorem dropCollection_ok
    (h : (dropCollection ns name nowMs).exec s = (.ok r, s')) :
    s' = s.advance nowMs ∨ ∃ id, s.collectionNames[(ns, name)]? = some id ∧
      (s.collections[id]? = none ∧ s' = { s.advance nowMs with
          collectionNames := s.collectionNames.erase (ns, name) } ∨
        ∃ c, s.collections[id]? = some c ∧
          s' = (s.advance nowMs).dropFound ns name id c) := by
  rw [dropCollection, exec_update_bind, exec_read_bind] at h
  split at h
  case h_1 => exact .inl (Prod.mk.inj h).2.symm
  case h_2 id hid =>
    split at h
    case h_1 hnone => exact .inr ⟨id, hid, .inl ⟨hnone, (Prod.mk.inj h).2.symm⟩⟩
    case h_2 c hc => exact .inr ⟨id, hid, .inr ⟨c, hc, (Prod.mk.inj h).2.symm⟩⟩

/-! ## What each part of a command leaves alone -/

theorem putAlias_eq (ns : NamespaceId) («alias» : String) (members : AliasMembers) :
    ∃ aliases targets, s.putAlias ns «alias» members =
      { s with aliases := aliases, aliasTargets := targets } := by
  unfold putAlias
  simp only
  split <;> exact ⟨_, _, rfl⟩

/-- Whatever writes aliases one at a time writes only aliases. -/
theorem foldl_aliases_eq {α : Type} {f : MetaState → α → MetaState}
    (hf : ∀ s a, ∃ aliases targets, f s a =
      { s with aliases := aliases, aliasTargets := targets }) (as : List α) :
    ∃ aliases targets, as.foldl f s =
      { s with aliases := aliases, aliasTargets := targets } := by
  refine as.foldlRecOn f (motive := fun t => ∃ aliases targets,
    t = { s with aliases := aliases, aliasTargets := targets }) ⟨s.aliases, s.aliasTargets, rfl⟩ ?_
  rintro _ ⟨aliases, targets, rfl⟩ a -
  exact hf _ a

theorem dropFromAliases_eq (id : CollectionId) : ∃ aliases targets,
    s.dropFromAliases id = { s with aliases := aliases, aliasTargets := targets } := by
  unfold dropFromAliases
  obtain ⟨aliases, targets, hfold⟩ := foldl_aliases_eq
    (s := { s with aliases := s.aliases.filter fun _ target => target ≠ id })
    (fun s (key : NamespaceId × String) => putAlias_eq (s := s) key.1 key.2
      ((s.aliasMembers key.1 key.2).erase id))
    (s.aliasTargets.filter fun _ targets => id ∈ targets.members).keys
  exact ⟨aliases, targets, hfold⟩

theorem removeLink_eq (id : LinkId) : ∃ links linkNames,
    s.removeLink id = { s with links := links, linkNames := linkNames } := by
  unfold removeLink
  split <;> exact ⟨_, _, rfl⟩

/-- A drop takes the collection out of the catalog, which leaves everything else alone, and
then removes the stream and the link, forgets the pointer and retires the prefixes. -/
theorem dropFound_eq (ns : NamespaceId) (name : String) (id : CollectionId) (c : Collection) :
    ∃ aliases targets links linkNames t u, t = { s with
        collectionNames := s.collectionNames.erase (ns, name)
        collections := s.collections.erase id
        aliases := aliases, aliasTargets := targets
        collectionHot := s.collectionHot.erase id } ∧
      u = t.removeStream c.stream ∧ s.dropFound ns name id c = { u with
        links := links, linkNames := linkNames
        pointers := u.pointers.erase (ns, collectionPointerKey id)
        retired := (u.retired.insert (collectionPrefix ns id) u.clockMs).insert
          (collectionPkPrefix ns id) u.clockMs } := by
  obtain ⟨aliases, targets, haliases⟩ := dropFromAliases_eq (s := { s with
    collectionNames := s.collectionNames.erase (ns, name)
    collections := s.collections.erase id }) id
  obtain ⟨links, linkNames, hlink⟩ := removeLink_eq
    (s := (s.dropEntry ns name id).removeStream c.stream) c.link
  refine ⟨aliases, targets, links, linkNames, _, _, rfl, rfl, ?_⟩
  unfold dropFound
  simp only [hlink]
  simp only [dropEntry, haliases]

/-! ## A refused command changed nothing -/

theorem createCollection_failsClean :
    (createCollection ns name schema partitions).FailsClean s := by
  simp only [createCollection, failsClean_check_bind, failsClean_read_bind]
  intros
  exact failsClean_write

theorem updateCollectionSchema_failsClean :
    (updateCollectionSchema collection expectedVersion schema).FailsClean s := by
  rw [updateCollectionSchema, failsClean_read_bind]
  split
  · exact failsClean_fail
  · simp only [failsClean_check_bind]
    intro _ _
    split_ifs
    · exact failsClean_pure
    · simp only [failsClean_check_bind]
      intros
      exact failsClean_write

theorem dropCollection_failsClean : (dropCollection ns name nowMs).FailsClean s := by
  refine Succeeds.failsClean (succeeds_update_bind fun s => ?_)
  rw [exec_read_bind]
  split
  · exact ⟨_, _, rfl⟩
  · split <;> exact ⟨_, _, rfl⟩

theorem updateAliases_failsClean {actions : List AliasAction} :
    (updateAliases ns actions).FailsClean s := by
  simp only [updateAliases, failsClean_check_bind, failsClean_read_bind]
  intros
  exact failsClean_write

theorem updateAliasTargets_failsClean {actions : List AliasTargetAction} :
    (updateAliasTargets ns actions).FailsClean s := by
  simp only [updateAliasTargets, failsClean_check_bind, failsClean_read_bind]
  intros
  exact failsClean_write

end MetaState

end Loams.Meta
