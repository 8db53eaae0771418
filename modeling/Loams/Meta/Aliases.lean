/-
# Aliases in two maps
-/

import Loams.Meta.Collections

namespace Loams.Meta

open Loams.Data Loams.Control Program Std.ExtTreeMap

/-- How the members of an alias are stored: what the single-target map and the map
of targets have under its key. -/
inductive AliasStored (members : AliasMembers) :
    Option CollectionId → Option AliasTargets → Prop
  | absent (empty : members = ∅) : AliasStored members none none
  | single (id : CollectionId) (one : members = (∅ : AliasMembers).insert id none) :
      AliasStored members (some id) none
  | targets (nonempty : members ≠ ∅) (many : ∀ id, members ≠ (∅ : AliasMembers).insert id none) :
      AliasStored members none (some ⟨members⟩)

theorem toList_singleton (id : CollectionId) :
    ((∅ : AliasMembers).insert id none).toList = [(id, none)] := by
  have hperm := toList_insert_perm (∅ : AliasMembers) id none
  have hempty : (∅ : AliasMembers).erase id = ∅ := erase_eq_self (by simp)
  rw [hempty] at hperm
  exact List.perm_singleton.mp hperm

variable {members : AliasMembers} {single single' : Option CollectionId}
variable {many many' : Option AliasTargets} {id : CollectionId}

/-- The members determine how they are stored. -/
theorem AliasStored.unique (h : AliasStored members single many)
    (h' : AliasStored members single' many') : single = single' ∧ many = many' := by
  have hne : ∀ id, (∅ : AliasMembers).insert id none ≠ ∅ := fun id => insert_ne_empty
  have hinj : ∀ id id', (∅ : AliasMembers).insert id none = (∅ : AliasMembers).insert id' none →
      id = id' := fun id id' heq => by
    have hlist := congrArg Std.ExtTreeMap.toList heq
    simpa only [toList_singleton, List.cons.injEq, Prod.mk.injEq, and_true] using hlist
  cases h <;> cases h' <;> grind

/-- Without the collection, the single-target map stores what it stored of the
other aliases. -/
theorem AliasStored.filter (id : CollectionId) (h : AliasStored members single many) :
    AliasStored (if single = some id then ∅ else members) (single.filter (· ≠ id)) many := by
  cases h with
  | absent empty => exact .absent (by simpa using empty)
  | single id' one =>
    by_cases hid : id' = id
    · simpa [Option.filter, hid] using AliasStored.absent rfl
    · simpa [Option.filter, hid] using AliasStored.single id' one
  | targets nonempty many => simpa using AliasStored.targets nonempty many

namespace MetaState

variable {s s' : MetaState} {key : NamespaceId × String}

/-- The members of an alias by its key. -/
def membersOf (s : MetaState) (key : NamespaceId × String) : AliasMembers :=
  s.aliasMembers key.1 key.2

/-- Every alias is stored in the one map it belongs in. -/
def AliasesCanonical (s : MetaState) : Prop :=
  ∀ key : NamespaceId × String, AliasStored (s.membersOf key) s.aliases[key]? s.aliasTargets[key]?

/-- What is stored under a key determines the members read from it. -/
theorem membersOf_eq (h : AliasStored members s.aliases[key]? s.aliasTargets[key]?) :
    s.membersOf key = members := by
  rw [membersOf, aliasMembers]
  generalize s.aliases[key]? = single at h
  generalize s.aliasTargets[key]? = many at h
  cases h with
  | absent empty => exact empty.symm
  | single id one => exact one.symm
  | targets => rfl

/-! ## Writing one alias -/

/-- One alias got new members and is stored where it belongs; the others are as they
were, and so is the rest of the state. -/
structure AliasWrite (s s' : MetaState) (key : NamespaceId × String) (members : AliasMembers) :
    Prop where
  stored : AliasStored members s'.aliases[key]? s'.aliasTargets[key]?
  other : ∀ key' : NamespaceId × String, key' ≠ key → s'.aliases[key']? = s.aliases[key']? ∧
    s'.aliasTargets[key']? = s.aliasTargets[key']?
  rest : ∃ aliases targets, s' = { s with aliases := aliases, aliasTargets := targets }

namespace AliasWrite

theorem membersOf_self (h : AliasWrite s s' key members) : s'.membersOf key = members :=
  membersOf_eq h.stored

theorem membersOf_ne (h : AliasWrite s s' key members) {key' : NamespaceId × String}
    (hne : key' ≠ key) : s'.membersOf key' = s.membersOf key' := by
  simp only [membersOf, aliasMembers, Prod.mk.eta, h.other key' hne]

/-- Members written where they are change nothing. -/
theorem eq_self (h : AliasWrite s s' key (s.membersOf key)) (hs : s.AliasesCanonical) : s' = s := by
  have hget : ∀ key' : NamespaceId × String, s'.aliases[key']? = s.aliases[key']? ∧
      s'.aliasTargets[key']? = s.aliasTargets[key']? := fun key' => by
    by_cases hkey : key' = key
    · exact hkey ▸ h.stored.unique (hs key)
    · exact h.other key' hkey
  obtain ⟨aliases, targets, rfl⟩ := h.rest
  obtain rfl : aliases = s.aliases := ext_getElem? fun key' => (hget key').1
  obtain rfl : targets = s.aliasTargets := ext_getElem? fun key' => (hget key').2
  rfl

theorem canonical (h : AliasWrite s s' key members) (hs : s.AliasesCanonical) :
    s'.AliasesCanonical := by
  intro key'
  by_cases hkey : key' = key
  · subst hkey
    rw [h.membersOf_self]
    exact h.stored
  · rw [h.membersOf_ne hkey, (h.other key' hkey).1, (h.other key' hkey).2]
    exact hs key'

end AliasWrite

theorem aliasWrite_putAlias (ns : NamespaceId) («alias» : String) (members : AliasMembers) :
    AliasWrite s (s.putAlias ns «alias» members) (ns, «alias») members := by
  refine ⟨?_, fun key' hne => ?_, putAlias_eq _ _ _⟩
  · unfold putAlias
    simp only
    split
    · rename_i hnil
      simp only [getElem?_erase_self]
      exact .absent (toList_eq_nil_iff.mp hnil)
    · rename_i id hone
      simp only [getElem?_insert_self, getElem?_erase_self]
      exact .single id (ext_toList (by rw [hone, toList_singleton]))
    · rename_i hnil hone
      simp only [getElem?_insert_self, getElem?_erase_self]
      refine .targets (fun hempty => hnil (toList_eq_nil_iff.mpr hempty)) fun id hid => ?_
      exact hone id (hid ▸ toList_singleton id)
  · unfold putAlias
    simp only
    split <;> exact ⟨by simp [getElem?_insert, getElem?_erase, hne.symm],
      by simp [getElem?_insert, getElem?_erase, hne.symm]⟩

/-- The members a gathered change of an alias update writes. -/
def changeMembers : Option CollectionId → AliasMembers
  | some id => (∅ : AliasMembers).insert id none
  | none => ∅

/-- A gathered change is written as its members are. -/
theorem applyAliasChange_eq_putAlias (ns : NamespaceId) (change : String × Option CollectionId) :
    applyAliasChange ns s change = s.putAlias ns change.1 (changeMembers change.2) := by
  obtain ⟨«alias», target⟩ := change
  cases target with
  | none => rfl
  | some id =>
    have herased : (s.aliases.erase (ns, «alias»)).insert (ns, «alias») id =
        s.aliases.insert (ns, «alias») id := ext_getElem? fun key => by
      simp only [get_insert, get_erase]
      split_ifs <;> rfl
    simp only [applyAliasChange, putAlias, changeMembers, toList_singleton, herased]

/-- Writes the members of some aliases of a namespace. -/
abbrev putAliases (s : MetaState) (ns : NamespaceId) (ws : List (String × AliasMembers)) :
    MetaState :=
  ws.foldl (fun s w => s.putAlias ns w.1 w.2) s

/-- The members after writes that agree on what the members are to be. -/
theorem membersOf_putAliases {ns : NamespaceId} {ws : List (String × AliasMembers)}
    {all : NamespaceId × String → AliasMembers} (hws : ∀ w ∈ ws, all (ns, w.1) = w.2)
    (hrest : ∀ key, (∀ w ∈ ws, (ns, w.1) ≠ key) → s.membersOf key = all key) :
    (s.putAliases ns ws).membersOf = all := by
  induction ws generalizing s with
  | nil => exact funext fun key => hrest key (by simp)
  | cons w ws ih =>
    rw [List.forall_mem_cons] at hws
    have hwrite := aliasWrite_putAlias (s := s) ns w.1 w.2
    refine ih hws.2 fun key hkey => ?_
    by_cases heq : key = (ns, w.1)
    · rw [heq, hwrite.membersOf_self, hws.1]
    · rw [hwrite.membersOf_ne heq]
      exact hrest key (List.forall_mem_cons.mpr ⟨Ne.symm heq, hkey⟩)

/-! ## What holds of every alias -/

/-- The number of write indexes among the members. -/
def writerCount (members : AliasMembers) : ℕ := members.toList.countP fun m => m.2 = some true

/-- The members are collections of the alias's namespace, and unless there are none
it has no collection of that name. -/
structure AliasNamed (s : MetaState) (key : NamespaceId × String) (members : AliasMembers) :
    Prop where
  exist : ∀ id ∈ members, ∃ c : Collection, s.collections[id]? = some c ∧ c.namespace = key.1
  free : members ≠ ∅ → key ∉ s.collectionNames

/-- In addition there are not too many members or write indexes. -/
structure AliasOk (s : MetaState) (key : NamespaceId × String) (members : AliasMembers) : Prop
    extends AliasNamed s key members where
  size : members.size ≤ maxAliasTargets
  writers : writerCount members ≤ 1

/-- Aliases are stored canonically and are all right. -/
structure AliasInv (s : MetaState) : Prop where
  canonical : s.AliasesCanonical
  ok : ∀ key, s.AliasOk key (s.membersOf key)

theorem aliasOk_empty (s : MetaState) (key : NamespaceId × String) : s.AliasOk key ∅ where
  exist id h := by simp at h
  free h := absurd rfl h
  size := by simp
  writers := Nat.zero_le _

theorem AliasOk.congr {t : MetaState} (h : s.AliasOk key members)
    (hcollections : t.collections = s.collections)
    (hnames : t.collectionNames = s.collectionNames) : t.AliasOk key members :=
  ⟨⟨hcollections ▸ h.exist, hnames ▸ h.free⟩, h.size, h.writers⟩

theorem AliasWrite.aliasOk {key' : NamespaceId × String} {members' : AliasMembers}
    (h : AliasWrite s s' key members) (hok : s.AliasOk key' members') :
    s'.AliasOk key' members' := by
  obtain ⟨aliases, targets, rfl⟩ := h.rest
  exact hok.congr rfl rfl

theorem AliasInv.write (h : s.AliasInv) (hwrite : AliasWrite s s' key members)
    (hok : s.AliasOk key members) : s'.AliasInv := by
  refine ⟨hwrite.canonical h.canonical, fun key' => hwrite.aliasOk ?_⟩
  by_cases hkey : key' = key
  · rwa [hkey, hwrite.membersOf_self]
  · rw [hwrite.membersOf_ne hkey]
    exact h.ok key'

theorem membersOf_congr (haliases : s'.aliases = s.aliases)
    (htargets : s'.aliasTargets = s.aliasTargets) : s'.membersOf = s.membersOf := by
  funext key
  simp only [membersOf, aliasMembers, haliases, htargets]

/-- Aliases stay all right when collections stay where they are and no alias gets the
name of one. -/
theorem AliasInv.mono (h : s.AliasInv) (haliases : s'.aliases = s.aliases)
    (htargets : s'.aliasTargets = s.aliasTargets)
    (hcollections : ∀ (id : CollectionId) (c : Collection), s.collections[id]? = some c →
      ∃ c', s'.collections[id]? = some c' ∧ c'.namespace = c.namespace)
    (hnames : ∀ key, s.membersOf key ≠ ∅ → key ∉ s.collectionNames → key ∉ s'.collectionNames) :
    s'.AliasInv := by
  have hmembers := membersOf_congr haliases htargets
  refine ⟨fun key => ?_, fun key => ?_⟩
  · rw [hmembers, haliases, htargets]
    exact h.canonical key
  · have hok := h.ok key
    rw [hmembers]
    refine ⟨⟨fun id hid => ?_, fun hne => hnames key hne (hok.free hne)⟩, hok.size, hok.writers⟩
    obtain ⟨c, hc, hnamespace⟩ := hok.exist id hid
    obtain ⟨c', hc', heq⟩ := hcollections id c hc
    exact ⟨c', hc', heq.trans hnamespace⟩

/-- A batch of writes, each of members that are all right. -/
theorem AliasInv.putAliases (h : s.AliasInv) {ns : NamespaceId} {ws : List (String × AliasMembers)}
    (hok : ∀ w ∈ ws, s.AliasOk (ns, w.1) w.2) : (s.putAliases ns ws).AliasInv := by
  induction ws generalizing s with
  | nil => exact h
  | cons w ws ih =>
    rw [List.forall_mem_cons] at hok
    have hwrite := aliasWrite_putAlias (s := s) ns w.1 w.2
    exact ih (h.write hwrite hok.1) fun w hw => hwrite.aliasOk (hok.2 w hw)

/-! ## Drops -/

theorem writerCount_erase_le (members : AliasMembers) (id : CollectionId) :
    writerCount (members.erase id) ≤ writerCount members := by
  cases h : members[id]? with
  | none => rw [erase_eq_self h]
  | some w =>
    rw [writerCount, writerCount, (toList_perm_of_get h).countP_eq, List.countP_cons]
    exact Nat.le_add_right _ _

/-- Taking a collection out of some aliases, one after the other. -/
theorem foldl_eraseMember (id : CollectionId) (keys : List (NamespaceId × String))
    (hs : s.AliasesCanonical) :
    let t := keys.foldl
      (fun s key => s.putAlias key.1 key.2 ((s.aliasMembers key.1 key.2).erase id)) s
    t.AliasesCanonical ∧ ∀ key, t.membersOf key =
      if key ∈ keys then (s.membersOf key).erase id else s.membersOf key := by
  induction keys generalizing s with
  | nil => exact ⟨hs, fun key => rfl⟩
  | cons k keys ih =>
    have hwrite : AliasWrite s (s.putAlias k.1 k.2 ((s.aliasMembers k.1 k.2).erase id)) k
        ((s.membersOf k).erase id) := aliasWrite_putAlias _ _ _
    obtain ⟨hcanonical, hmembers⟩ := ih (hwrite.canonical hs)
    refine ⟨hcanonical, fun key => ?_⟩
    rw [List.foldl_cons, hmembers key]
    have htwice : ((s.membersOf k).erase id).erase id = (s.membersOf k).erase id :=
      erase_eq_self (by simp)
    by_cases hkey : key = k
    · subst hkey
      simp [hwrite.membersOf_self, htwice]
    · simp [hkey, hwrite.membersOf_ne hkey]

/-- A drop takes the collection out of every alias. -/
theorem dropFromAliases_spec (id : CollectionId) (hs : s.AliasesCanonical) :
    (s.dropFromAliases id).AliasesCanonical ∧
      ∀ key, (s.dropFromAliases id).membersOf key = (s.membersOf key).erase id := by
  have hfilter : ∀ key : NamespaceId × String,
      AliasStored (if s.aliases[key]? = some id then ∅ else s.membersOf key)
        (s.aliases.filter fun _ target => target ≠ id)[key]? s.aliasTargets[key]? := fun key => by
    rw [getElem?_filter']
    exact (hs key).filter id
  have hmembers : ∀ key : NamespaceId × String,
      membersOf { s with aliases := s.aliases.filter fun _ target => target ≠ id } key =
        if s.aliases[key]? = some id then ∅ else s.membersOf key :=
    fun key => membersOf_eq (hfilter key)
  have hcanonical : AliasesCanonical
      { s with aliases := s.aliases.filter fun _ target => target ≠ id } := fun key => by
    rw [hmembers]
    exact hfilter key
  obtain ⟨hfold, hfinal⟩ := foldl_eraseMember id
    (s.aliasTargets.filter fun _ targets => id ∈ targets.members).keys hcanonical
  refine ⟨hfold, fun key => (hfinal key).trans ?_⟩
  rw [hmembers]
  have hstored := hs key
  have hchanged : key ∈ (s.aliasTargets.filter fun _ targets => id ∈ targets.members).keys ↔
      ∃ t : AliasTargets, s.aliasTargets[key]? = some t ∧ id ∈ t.members := by
    rw [mem_keys, mem_iff_get]
    simp only [getElem?_filter', Option.filter_eq_some_iff, decide_eq_true_eq]
  simp only [hchanged]
  generalize s.membersOf key = members at hstored
  generalize s.aliases[key]? = single at hstored
  generalize s.aliasTargets[key]? = many at hstored
  cases hstored with
  | absent empty => simp [empty, erase_eq_self]
  | single id' one =>
    subst one
    simp only [reduceCtorEq, false_and, exists_false, if_false, Option.some.injEq]
    split_ifs with hid
    · refine ext_getElem? fun id' => ?_
      simp [hid]
    · exact (erase_eq_self (by simp [hid])).symm
  | targets nonempty many =>
    by_cases hmem : id ∈ members
    · simp [hmem]
    · have hnone := not_mem_iff_get.mp hmem
      simp [hmem, erase_eq_self hnone]

/-! ## Updates -/

theorem checkAliasTarget_eq_ok {ns : NamespaceId} {«alias» collection : String}
    (h : s.checkAliasTarget ns «alias» collection = .ok id) :
    (ns, «alias») ∉ s.collectionNames ∧ s.collectionNames[(ns, collection)]? = some id := by
  simp only [checkAliasTarget, except_bind_ok, require_eq_ok] at h
  obtain ⟨_, -, _, -, _, hfree, h⟩ := h
  refine ⟨hfree, ?_⟩
  cases hid : s.collectionNames[(ns, collection)]? with
  | none => simp [hid] at h
  | some id' => simpa [hid] using h

section Updates

-- The names of collections lead to collections.
variable (hnames : ∀ (k : NamespaceId × String) (id : CollectionId),
  s.collectionNames[k]? = some id →
    ∃ c, s.collections[id]? = some c ∧ (c.namespace, c.name) = k)
variable {ns : NamespaceId} {actions : List AliasTargetAction} {working final : WorkingAliases}

theorem workingMembers_of_mem {w : String × AliasMembers} (hw : w ∈ working.toList) :
    s.workingMembers working ns w.1 = w.2 := by
  rw [workingMembers, mem_toList_iff_getElem?_eq_some.mp hw, Option.getD_some]

include hnames in
/-- The working copies of a target update name collections that exist. -/
theorem workingAliases_named
    (hworking : ∀ a, s.AliasNamed (ns, a) (s.workingMembers working ns a))
    (h : s.workingAliases ns actions working = .ok final) (a : String) :
    s.AliasNamed (ns, a) (s.workingMembers final ns a) := by
  induction actions generalizing working with
  | nil =>
    obtain rfl := Except.ok.inj h
    exact hworking a
  | cons action actions ih =>
    have hinsert : ∀ «alias» members, s.AliasNamed (ns, «alias») members →
        ∀ a, s.AliasNamed (ns, a) (s.workingMembers (working.insert «alias» members) ns a) := by
      intro «alias» members hok a
      rw [workingMembers, get_insert]
      split_ifs with halias
      · exact halias ▸ hok
      · exact hworking a
    have herase : ∀ «alias» id, s.AliasNamed (ns, «alias»)
        ((s.workingMembers working ns «alias»).erase id) := by
      intro «alias» id
      have hcopy := hworking «alias»
      refine ⟨fun id' hid' => hcopy.exist id' (mem_of_mem_erase hid'), fun hne => ?_⟩
      refine hcopy.free fun hempty => hne ?_
      rw [hempty, erase_eq_self (by simp)]
    cases action with
    | add «alias» collection isWriteIndex =>
      simp only [workingAliases, except_bind_ok] at h
      obtain ⟨id, hcheck, h⟩ := h
      obtain ⟨hfree, hid⟩ := checkAliasTarget_eq_ok hcheck
      obtain ⟨c, hc, hkey⟩ := hnames _ _ hid
      refine ih (hinsert _ _ ⟨fun id' hid' => ?_, fun _ => hfree⟩) h
      rcases mem_insert_iff.mp hid' with rfl | hid'
      · exact ⟨c, hc, congrArg Prod.fst hkey⟩
      · exact (hworking «alias»).exist id' hid'
    | remove «alias» collection =>
      rw [workingAliases] at h
      refine ih (hinsert _ _ ?_) h
      cases s.collectionNames[(ns, collection)]? with
      | none => exact hworking «alias»
      | some id => exact herase «alias» id
    | removeAlias «alias» => exact ih (hinsert _ _ (aliasOk_empty _ _).toAliasNamed) h

/-- The check of a working copy counts its write indexes by the collections' names. -/
theorem checkWorking_eq_ok {«alias» : String} (hnamed : s.AliasNamed (ns, «alias») members) :
    s.checkWorking «alias» members = .ok () ↔ s.AliasOk (ns, «alias») members := by
  have hwriters : (s.writers members).length = writerCount members := by
    rw [writers, List.length_filterMap_eq_countP, List.countP_filter, writerCount]
    refine List.countP_congr fun m hm => ?_
    obtain ⟨c, hc, -⟩ := hnamed.exist m.1 (mem_of_get (mem_toList_iff_getElem?_eq_some.mp hm))
    simp [hc]
  simp only [checkWorking, except_bind_ok, requireArg_eq_ok, hwriters]
  exact ⟨fun ⟨_, hsize, hone⟩ => ⟨hnamed, hsize, hone⟩, fun h => ⟨(), h.size, h.writers⟩⟩

/-- A target update went through on its working copies. -/
def UpdatesTargets (s s' : MetaState) (ns : NamespaceId) (actions : List AliasTargetAction) :
    Prop :=
  ∃ working, s.workingAliases ns actions ∅ = .ok working ∧ s.checkAllWorking working = .ok () ∧
    s' = s.putAliases ns working.toList

include hnames in
theorem UpdatesTargets.aliasInv (h : s.UpdatesTargets s' ns actions) (hs : s.AliasInv) :
    s'.AliasInv := by
  obtain ⟨working, h, hcheck, rfl⟩ := h
  refine hs.putAliases fun w hw => ?_
  have hnamed := workingAliases_named hnames
    (fun a => by simpa [workingMembers, membersOf] using (hs.ok (ns, a)).toAliasNamed) h w.1
  rw [workingMembers_of_mem hw] at hnamed
  exact (checkWorking_eq_ok hnamed).mp (forM_eq_ok.mp hcheck w hw)

end Updates

/-! ## One action after the other -/

/-- The members of the aliases by their keys. -/
abbrev Memberships := NamespaceId × String → AliasMembers

section Runs

variable (names : BTreeMap (NamespaceId × String) CollectionId) (ns : NamespaceId)

/-- An action of an alias update: the alias leads to the collection of the name only,
or to nothing. -/
def runAliasAction (m : Memberships) : AliasAction → Memberships
  | .create «alias» collection =>
    Function.update m (ns, «alias») (changeMembers names[(ns, collection)]?)
  | .delete «alias» => Function.update m (ns, «alias») ∅

/-- The alias an action is about. -/
def actionAlias : AliasAction → String
  | .create «alias» _ | .delete «alias» => «alias»

@[inherit_doc actionAlias]
def targetAlias : AliasTargetAction → String
  | .add «alias» _ _ | .remove «alias» _ | .removeAlias «alias» => «alias»

/-- What an action of an alias-target update does to the members of its alias. -/
def editMembers (members : AliasMembers) : AliasTargetAction → AliasMembers
  | .add _ collection isWriteIndex =>
    (names[(ns, collection)]?).elim members fun id => members.insert id isWriteIndex
  | .remove _ collection => (names[(ns, collection)]?).elim members members.erase
  | .removeAlias _ => ∅

/-- An action edits the members of its alias. -/
def runTargetAction (m : Memberships) (action : AliasTargetAction) : Memberships :=
  Function.update m (ns, targetAlias action)
    (editMembers names ns (m (ns, targetAlias action)) action)

/-- The target actions that do what an action of an alias update does. -/
def targetActions : AliasAction → List AliasTargetAction
  | .create «alias» collection => [.removeAlias «alias», .add «alias» collection none]
  | .delete «alias» => [.removeAlias «alias»]

theorem foldl_targetActions (actions : List AliasAction) (m : Memberships) :
    (actions.flatMap targetActions).foldl (runTargetAction names ns) m =
      actions.foldl (runAliasAction names ns) m := by
  rw [List.foldl_flatMap]
  congr
  funext m action
  cases action with
  | create «alias» collection =>
    cases h : names[(ns, collection)]? <;>
      simp [targetActions, runTargetAction, targetAlias, editMembers, runAliasAction,
        changeMembers, h]
  | delete => rfl

/-- Of every alias an action sets each member to what does not depend on the members
there are, or keeps it. -/
theorem runTargetAction_override (action : AliasTargetAction) (m m' : Memberships)
    (key : NamespaceId × String) (id : CollectionId) :
    (runTargetAction names ns m action key)[id]? = (runTargetAction names ns m' action key)[id]? ∨
      (runTargetAction names ns m action key)[id]? = (m key)[id]? ∧
        (runTargetAction names ns m' action key)[id]? = (m' key)[id]? := by
  by_cases hkey : key = (ns, targetAlias action)
  · subst hkey
    simp only [runTargetAction, Function.update_self]
    cases action with
    | removeAlias => exact .inl rfl
    | add _ collection | remove _ collection =>
      simp only [editMembers]
      cases names[(ns, collection)]? with
      | none => exact .inr ⟨rfl, rfl⟩
      | some => simp only [Option.elim, get_insert, get_erase]; grind
  · simp [runTargetAction, hkey]

/-- So do several, and executing them again changes nothing. -/
theorem foldl_runTargetAction_override (actions : List AliasTargetAction) (m m' : Memberships)
    (key : NamespaceId × String) (id : CollectionId) :
    let run := actions.foldl (runTargetAction names ns)
    (run m key)[id]? = (run m' key)[id]? ∨
      (run m key)[id]? = (m key)[id]? ∧ (run m' key)[id]? = (m' key)[id]? := by
  induction actions generalizing m m' with
  | nil => exact .inr ⟨rfl, rfl⟩
  | cons action actions ih =>
    have hstep := runTargetAction_override names ns action m m' key id
    have hrest := ih (runTargetAction names ns m action) (runTargetAction names ns m' action)
    simp only [List.foldl_cons] at hrest ⊢
    grind

theorem foldl_runTargetAction_idempotent (actions : List AliasTargetAction) (m : Memberships) :
    let run := actions.foldl (runTargetAction names ns)
    run (run m) = run m := by
  funext key
  refine ext_getElem? fun id => ?_
  rcases foldl_runTargetAction_override names ns actions _ m key id with h | ⟨h, -⟩ <;> exact h

/-- Actions leave the aliases alone that none of them is about. -/
theorem foldl_runTargetAction_of_notMem {actions : List AliasTargetAction} (m : Memberships)
    (h : ∀ action ∈ actions, key ≠ (ns, targetAlias action)) :
    actions.foldl (runTargetAction names ns) m key = m key := by
  refine List.foldlRecOn (motive := fun m' : Memberships => m' key = m key) actions _ rfl
    fun m' hm' action haction => ?_
  rw [runTargetAction, Function.update_of_ne (h action haction), hm']

end Runs

/-- The members of the aliases, with the working copies of a namespace in place. -/
def withWorking (s : MetaState) (ns : NamespaceId) (working : WorkingAliases) : Memberships :=
  fun key => if key.1 = ns then s.workingMembers working ns key.2 else s.membersOf key

section Working

variable {ns : NamespaceId} {actions : List AliasTargetAction} {working final : WorkingAliases}
  {r : Reply}

theorem withWorking_empty (s : MetaState) (ns : NamespaceId) :
    s.withWorking ns ∅ = s.membersOf := by
  funext key
  rw [withWorking]
  split_ifs with h
  · simp [workingMembers, membersOf, h]
  · rfl

theorem withWorking_self («alias» : String) :
    s.withWorking ns working (ns, «alias») = s.workingMembers working ns «alias» := if_pos rfl

theorem withWorking_insert («alias» : String) (members : AliasMembers) :
    s.withWorking ns (working.insert «alias» members) =
      Function.update (s.withWorking ns working) (ns, «alias») members := by
  funext ⟨ns', a⟩
  by_cases hns : ns' = ns
  · by_cases ha : a = «alias»
    · simp [withWorking, workingMembers, hns, ha]
    · simp [withWorking, workingMembers, hns, ha, get_insert_ne (Ne.symm ha)]
  · simp [withWorking, hns]

/-- The working copies are the members with the actions executed one after the other. -/
theorem withWorking_eq_foldl (h : s.workingAliases ns actions working = .ok final) :
    s.withWorking ns final =
      actions.foldl (runTargetAction s.collectionNames ns) (s.withWorking ns working) := by
  induction actions generalizing working with
  | nil => rw [Except.ok.inj h]; rfl
  | cons action actions ih =>
    rw [List.foldl_cons]
    cases action with
    | add «alias» collection isWriteIndex =>
      simp only [workingAliases, except_bind_ok] at h
      obtain ⟨id, hcheck, h⟩ := h
      simp only [ih h, withWorking_insert, runTargetAction, targetAlias, editMembers,
        (checkAliasTarget_eq_ok hcheck).2, withWorking_self, Option.elim]
    | remove «alias» collection =>
      rw [ih h, withWorking_insert, runTargetAction, targetAlias, withWorking_self, editMembers]
      cases s.collectionNames[(ns, collection)]? <;> rfl
    | removeAlias «alias» => rw [ih h, withWorking_insert]; rfl

/-- The checks of the actions read nothing but the names of the collections. -/
theorem workingAliases_of_names (hnames : s'.collectionNames = s.collectionNames)
    (h : s.workingAliases ns actions working = .ok final) (working' : WorkingAliases) :
    ∃ final', s'.workingAliases ns actions working' = .ok final' := by
  induction actions generalizing working working' with
  | nil => exact ⟨working', rfl⟩
  | cons action actions ih =>
    cases action with
    | add «alias» collection isWriteIndex =>
      simp only [workingAliases, except_bind_ok] at h ⊢
      obtain ⟨id, hcheck, h⟩ := h
      obtain ⟨final', hfinal⟩ := ih h _
      refine ⟨final', id, ?_, hfinal⟩
      rwa [checkAliasTarget, hnames]
    | remove | removeAlias => exact ih h _

namespace UpdatesTargets

variable (h : s.UpdatesTargets s' ns actions)
include h

theorem rest : ∃ aliases targets, s' = { s with aliases := aliases, aliasTargets := targets } := by
  obtain ⟨working, -, -, rfl⟩ := h
  exact foldl_aliases_eq
    (fun t (w : String × AliasMembers) => putAlias_eq (s := t) _ w.1 w.2) working.toList

theorem membersOf_eq :
    s'.membersOf = actions.foldl (runTargetAction s.collectionNames ns) s.membersOf := by
  obtain ⟨working, hworking, -, rfl⟩ := h
  rw [← withWorking_empty s ns, ← withWorking_eq_foldl hworking]
  refine membersOf_putAliases (fun w hw => ?_) fun key hkey => ?_
  · rw [withWorking_self, workingMembers_of_mem hw]
  · rw [withWorking]
    split_ifs with hns
    · subst hns
      cases hget : working[key.2]? with
      | none => rw [workingMembers, hget, Option.getD_none, membersOf]
      | some members =>
        exact absurd rfl (hkey (key.2, members) (mem_toList_iff_getElem?_eq_some.mpr hget))
    · rfl

/-- What is stored of the other aliases is what it was. -/
theorem untouched (hs : s.AliasInv) (hs' : s'.AliasInv)
    (hkey : ∀ action ∈ actions, key ≠ (ns, targetAlias action)) :
    s'.aliases[key]? = s.aliases[key]? ∧ s'.aliasTargets[key]? = s.aliasTargets[key]? := by
  have hstored := hs'.canonical key
  rw [h.membersOf_eq, foldl_runTargetAction_of_notMem _ _ _ hkey] at hstored
  exact hstored.unique (hs.canonical key)

/-- The same update goes through again and finds nothing to change. -/
theorem again (hs' : s'.AliasInv) : s'.UpdatesTargets s' ns actions := by
  have hnames : s'.collectionNames = s.collectionNames := by
    obtain ⟨_, _, rfl⟩ := h.rest
    rfl
  obtain ⟨final, hfinal⟩ := workingAliases_of_names hnames h.choose_spec.1 ∅
  have hsame : s'.withWorking ns final = s'.membersOf := by
    rw [withWorking_eq_foldl hfinal, withWorking_empty, h.membersOf_eq, hnames]
    exact foldl_runTargetAction_idempotent _ _ _ _
  have hentry : ∀ w ∈ final.toList, w.2 = s'.membersOf (ns, w.1) := fun w hw => by
    rw [← hsame, withWorking_self, workingMembers_of_mem hw]
  refine ⟨final, hfinal, forM_eq_ok.mpr fun w hw => ?_, Eq.symm ?_⟩
  · rw [hentry w hw]
    exact (checkWorking_eq_ok (hs'.ok _).toAliasNamed).mpr (hs'.ok _)
  · refine List.foldlRecOn (motive := fun t => t = s') _ _ rfl fun t ht w hw => ?_
    rw [ht, hentry w hw]
    exact (aliasWrite_putAlias ns w.1 _).eq_self hs'.canonical

end UpdatesTargets

/-! ## The commands -/

theorem updateAliasTargets_ok : (updateAliasTargets ns actions).exec s = (.ok r, s') ↔
    ns ∈ s.namespaces ∧ checkActionCount actions.length = .ok () ∧
      s.UpdatesTargets s' ns actions ∧ r = .aliasesUpdated := by
  simp only [updateAliasTargets, exec_check_bind_ok, exec_read_bind, exec_update_bind, exec_pure,
    require_eq_ok, Prod.mk.injEq, Except.ok.injEq, UpdatesTargets]
  grind

theorem checkWorking_changeMembers («alias» : String) (change : Option CollectionId) :
    s.checkWorking «alias» (changeMembers change) = .ok () := by
  have hlist : (changeMembers change).toList.length ≤ 1 ∧
      s.writers (changeMembers change) = [] := by
    cases change with
    | none => exact ⟨Nat.zero_le 1, rfl⟩
    | some id => simp [changeMembers, writers, toList_singleton]
  rw [length_toList] at hlist
  simp only [checkWorking, except_bind_ok, requireArg_eq_ok, hlist.2]
  exact ⟨(), hlist.1.trans (by decide), Nat.zero_le 1⟩

/-- An alias update gathers what the target update with its target actions does. -/
theorem map_aliasChanges (s : MetaState) (ns : NamespaceId) (actions : List AliasAction)
    (changes : AliasChanges) :
    (s.aliasChanges ns actions changes).map (·.map fun _ => changeMembers) =
      s.workingAliases ns (actions.flatMap targetActions) (changes.map fun _ => changeMembers) := by
  have hinsert : ∀ (changes : AliasChanges) a change,
      (changes.insert a change).map (fun _ => changeMembers) =
        (changes.map fun _ => changeMembers).insert a (changeMembers change) :=
    fun changes a change => ext_getElem? fun a' => by
      simp only [getElem?_map, get_insert]
      split_ifs <;> rfl
  have hinsert_insert : ∀ (working : WorkingAliases) a (m m' : AliasMembers),
      (working.insert a m).insert a m' = working.insert a m' :=
    fun working a m m' => ext_getElem? fun a' => by
      simp only [get_insert]
      split_ifs <;> rfl
  induction actions generalizing changes with
  | nil => rfl
  | cons action actions ih =>
    cases action with
    | create «alias» collection =>
      simp only [aliasChanges, List.flatMap_cons, targetActions, List.cons_append, List.nil_append,
        workingAliases, workingMembers, getElem?_insert_self, Option.getD_some, hinsert_insert]
      cases s.checkAliasTarget ns «alias» collection with
      | error => rfl
      | ok id => exact (ih _).trans (by rw [hinsert]; rfl)
    | delete «alias» => exact (ih _).trans (by rw [hinsert]; rfl)

theorem updateAliases_ok {actions : List AliasAction} :
    (updateAliases ns actions).exec s = (.ok r, s') ↔
      ns ∈ s.namespaces ∧ checkActionCount actions.length = .ok () ∧
        s.UpdatesTargets s' ns (actions.flatMap targetActions) ∧ r = .aliasesUpdated := by
  have hmap := map_aliasChanges s ns actions ∅
  rw [map_eq_empty_iff.mpr rfl] at hmap
  simp only [updateAliases, exec_check_bind_ok, exec_read_bind, exec_update_bind, exec_pure,
    require_eq_ok, Prod.mk.injEq, Except.ok.injEq, UpdatesTargets, ← hmap]
  cases s.aliasChanges ns actions ∅ with
  | error e => simp [Except.map]
  | ok changes =>
    have hcheck : s.checkAllWorking (changes.map fun _ => changeMembers) = .ok () :=
      forM_eq_ok.mpr fun w hw => by
        rw [toList_map, List.mem_map] at hw
        obtain ⟨c, -, rfl⟩ := hw
        exact checkWorking_changeMembers _ _
    have hput : changes.toList.foldl (applyAliasChange ns) s =
        s.putAliases ns (changes.map fun _ => changeMembers).toList := by
      rw [toList_map, putAliases, List.foldl_map]
      congr
      funext t c
      exact applyAliasChange_eq_putAlias ns c
    simp only [Except.map, Except.ok.injEq, exists_eq_left', hcheck, hput]
    grind

end Working

end MetaState

end Loams.Meta
