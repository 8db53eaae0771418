/-
# The invariants of the catalog
-/

import Loams.Data.Registry
import Loams.Meta.LogEffects

namespace Loams.Meta

open Option Loams.Data Loams.Control Std.ExtTreeMap

/-! ## Implicit names -/

/-- The id is the part of an implicit name behind its last dot. -/
theorem implicitName_id_inj {name name' : String} {id id' : CollectionId}
    (h : implicitName name id = implicitName name' id') : id = id' := by
  have hlist := congrArg String.toList h
  simp only [implicitName, String.toList_append, List.append_assoc] at hlist
  have hdot : ".".toList = ['.'] := by decide
  rw [hdot] at hlist
  have hsplit : ("_collection.".toList ++ name.toList) ++ '.' :: (toString id).toList =
      ("_collection.".toList ++ name'.toList) ++ '.' :: (toString id').toList := by
    simpa using hlist
  have htail : (toString id).toList = (toString id').toList :=
    eq_of_append_cons_eq (not_mem_toString id (by decide)) (not_mem_toString id' (by decide)) hsplit
  have hvalue := congrArg (fun digits => Nat.ofDigitChars 10 digits 0) htail
  simpa [Nat.toString_eq_repr, Nat.toList_repr] using hvalue

theorem startsWithChar_implicitName (name : String) (id : CollectionId) :
    startsWithChar (implicitName name id) '_' = true := by
  rw [implicitName, String.append_assoc, String.append_assoc]
  exact startsWithChar_append (by decide)

/-- The stream is the implicit one of the collection. -/
structure ImplicitStream (c : Collection) (st : Stream) : Prop where
  namespace_eq : st.namespace = c.namespace
  name_eq : st.name = implicitName c.name c.id
  partitions_eq : st.partitions = c.partitions
  class_eq : st.class = .standard
  retention_eq : st.retention = {}

/-- The link is the implicit one of the collection. -/
structure ImplicitLink (c : Collection) (l : Link) : Prop where
  namespace_eq : l.namespace = c.namespace
  name_eq : l.name = implicitName c.name c.id
  source_eq : l.source = c.stream
  target_eq : l.target = ⟨collectionKind, c.name⟩

section Implicit

variable {ρ : Type} {Is : Collection → ρ → Prop} {nameOf : ρ → String} {ref : Collection → ℕ}
  {collections : BTreeMap CollectionId Collection} {records : BTreeMap ℕ ρ} {id rid : ℕ}
  {c c' : Collection} {r : ρ}

/-- The streams, or the links, that go with collections: each collection has one, of its
implicit name, and one whose name has an underscore belongs to a collection. -/
structure Implicit (Is : Collection → ρ → Prop) (nameOf : ρ → String) (ref : Collection → ℕ)
    (collections : BTreeMap CollectionId Collection) (records : BTreeMap ℕ ρ) : Prop where
  named : ∀ c r, Is c r → nameOf r = implicitName c.name c.id
  found : ∀ (id : CollectionId) (c : Collection), collections[id]? = some c →
    ∃ r, records[ref c]? = some r ∧ Is c r
  owned : ∀ (rid : ℕ) (r : ρ), records[rid]? = some r → startsWithChar (nameOf r) '_' = true →
    ∃ (id : CollectionId) (c : Collection), collections[id]? = some c ∧ ref c = rid

namespace Implicit

section

variable (h : Implicit Is nameOf ref collections records)
include h

theorem underscore (hr : Is c r) : startsWithChar (nameOf r) '_' = true := by
  rw [h.named c r hr]
  exact startsWithChar_implicitName _ _

/-- Two collections with one record have one implicit name. -/
theorem name_eq {id' : CollectionId} (hc : collections[id]? = some c)
    (hc' : collections[id']? = some c') (hshared : ref c = ref c') :
    implicitName c.name c.id = implicitName c'.name c'.id := by
  obtain ⟨r, hr, his⟩ := h.found id c hc
  obtain ⟨r', hr', his'⟩ := h.found id' c' hc'
  rw [hshared, hr'] at hr
  obtain rfl := some.inj hr
  exact (h.named c _ his).symm.trans (h.named c' _ his')

/-- A name that no collection implies is not taken by an implicit record. -/
theorem free {name : String} {cid : CollectionId}
    (hnone : ∀ (id : CollectionId) (c : Collection), collections[id]? = some c →
      implicitName c.name c.id ≠ implicitName name cid) (hr : records[rid]? = some r) :
    nameOf r ≠ implicitName name cid := by
  intro hname
  obtain ⟨id, c, hc, rfl⟩ := h.owned rid r hr (hname.symm ▸ startsWithChar_implicitName _ _)
  obtain ⟨r', hr', his⟩ := h.found id c hc
  obtain rfl := some.inj (hr.symm.trans hr')
  exact hnone id c hc ((h.named c r his).symm.trans hname)

/-- A record of a user, new or in the place of one of a user. -/
theorem insertUser (hold : ∀ r', records[rid]? = some r' → startsWithChar (nameOf r') '_' = false)
    (hname : startsWithChar (nameOf r) '_' = false) :
    Implicit Is nameOf ref collections (records.insert rid r) where
  named := h.named
  found id c hc := by
    obtain ⟨r', hr', his⟩ := h.found id c hc
    have hne : rid ≠ ref c := fun heq => by
      have hunderscore := h.underscore his
      rw [hold r' (heq ▸ hr')] at hunderscore
      cases hunderscore
    exact ⟨r', (get_insert_ne hne).trans hr', his⟩
  owned rid' r' hr' hunderscore := by
    rcases get_insert_eq_some.mp hr' with ⟨rfl, rfl⟩ | ⟨-, hr'⟩
    · rw [hname] at hunderscore
      cases hunderscore
    · exact h.owned rid' r' hr' hunderscore

/-- A collection that keeps its record. -/
theorem replace (hc : collections[id]? = some c) (href : ref c' = ref c)
    (his : ∀ r, Is c r → Is c' r) :
    Implicit Is nameOf ref (collections.insert id c') records where
  named := h.named
  found id' c'' hc'' := by
    rcases get_insert_eq_some.mp hc'' with ⟨rfl, rfl⟩ | ⟨-, hc''⟩
    · obtain ⟨r, hr, hcr⟩ := h.found id c hc
      exact ⟨r, href ▸ hr, his r hcr⟩
    · exact h.found id' c'' hc''
  owned rid r hr hunderscore := by
    obtain ⟨id', c'', hc'', hrid⟩ := h.owned rid r hr hunderscore
    by_cases heq : id = id'
    · subst heq
      obtain rfl := some.inj (hc.symm.trans hc'')
      exact ⟨id, c', getElem?_insert_self, href.trans hrid⟩
    · exact ⟨id', c'', (get_insert_ne heq).trans hc'', hrid⟩

/-- A new collection with a new record. -/
theorem create (hnew : collections[id]? = none) (hfresh : records[ref c]? = none) (his : Is c r) :
    Implicit Is nameOf ref (collections.insert id c) (records.insert (ref c) r) where
  named := h.named
  found id' c' hc' := by
    rcases get_insert_eq_some.mp hc' with ⟨rfl, rfl⟩ | ⟨-, hc'⟩
    · exact ⟨r, getElem?_insert_self, his⟩
    · obtain ⟨r', hr', his'⟩ := h.found id' c' hc'
      exact ⟨r', get_insert_of_get hfresh hr', his'⟩
  owned rid r' hr' hunderscore := by
    rcases get_insert_eq_some.mp hr' with ⟨rfl, rfl⟩ | ⟨-, hr'⟩
    · exact ⟨id, c, getElem?_insert_self, rfl⟩
    · obtain ⟨id', c', hc', href⟩ := h.owned rid r' hr' hunderscore
      exact ⟨id', c', get_insert_of_get hnew hc', href⟩

/-- A collection goes with its record, which no other collection has. -/
theorem drop (hc : collections[id]? = some c)
    (hown : ∀ (id' : CollectionId) (c' : Collection), collections[id']? = some c' →
      ref c = ref c' → id = id') :
    Implicit Is nameOf ref (collections.erase id) (records.erase (ref c)) where
  named := h.named
  found id' c' hc' := by
    obtain ⟨hid, hc'⟩ := get_erase_eq_some.mp hc'
    obtain ⟨r, hr, his⟩ := h.found id' c' hc'
    exact ⟨r, (get_erase_ne fun heq => hid (hown id' c' hc' heq)).trans hr, his⟩
  owned rid r hr hunderscore := by
    obtain ⟨hrid, hr⟩ := get_erase_eq_some.mp hr
    obtain ⟨id', c', hc', rfl⟩ := h.owned rid r hr hunderscore
    refine ⟨id', c', ?_, rfl⟩
    rw [get_erase_ne, hc']
    rintro rfl
    exact hrid (by rw [some.inj (hc.symm.trans hc')])

end

end Implicit

end Implicit

/-! ## What is claimed of the catalog -/

/-- The catalog's invariants. -/
structure MetaState.CatalogValid (s : MetaState) : Prop where
  namespaces : Consistent Namespace.id Namespace.name s.lastNamespaceId s.namespaces
    s.namespaceNames
  streams : Consistent Stream.id (fun st => (st.namespace, st.name)) s.lastStreamId s.streams
    s.streamNames
  links : Consistent Link.id (fun l => (l.namespace, l.name)) s.lastLinkId s.links s.linkNames
  collections : Consistent Collection.id (fun c => (c.namespace, c.name)) s.lastCollectionId
    s.collections s.collectionNames
  implicit : ∀ (id : CollectionId) (c : Collection), s.collections[id]? = some c →
    (∃ st, s.streams[c.stream]? = some st ∧ ImplicitStream c st) ∧
      ∃ l, s.links[c.link]? = some l ∧ ImplicitLink c l
  own : ∀ (id id' : CollectionId) (c c' : Collection), s.collections[id]? = some c →
    s.collections[id']? = some c' → c.stream = c'.stream ∨ c.link = c'.link → id = id'
  partitions : ∀ k : StreamId × ℕ, k ∈ s.partitions ↔
    ∃ st, s.streams[k.1]? = some st ∧ k.2 < st.partitions
  aliasName : ∀ key, key ∈ s.aliases ∨ key ∈ s.aliasTargets → key ∉ s.collectionNames
  aliasMap : ∀ key, key ∈ s.aliases → key ∉ s.aliasTargets
  singleTarget : ∀ (key : NamespaceId × String) (id : CollectionId), s.aliases[key]? = some id →
    ∃ c, s.collections[id]? = some c ∧ c.namespace = key.1
  targets : ∀ (key : NamespaceId × String) (t : AliasTargets), s.aliasTargets[key]? = some t →
    t.members ≠ ∅ ∧ (∀ id, t.members ≠ (∅ : AliasMembers).insert id none) ∧
      MetaState.writerCount t.members ≤ 1 ∧
      ∀ id ∈ t.members, ∃ c, s.collections[id]? = some c ∧ c.namespace = key.1
  hot : ∀ id, id ∈ s.collectionHot → id ∈ s.collections
  pointers : ∀ key ∈ s.pointers, ∀ rest, stripPrefix? collectionPointerPrefix key.2 = some rest →
    ∃ (id : CollectionId) (c : Collection), rest = toString id ∧ s.collections[id]? = some c ∧
      c.namespace = key.1

namespace MetaState

variable {s s' : MetaState} {r : Reply} {command : Command}

/-- The catalog's invariants with what they rest on. -/
structure CatalogInv (s : MetaState) : Prop where
  namespaces : Consistent Namespace.id Namespace.name s.lastNamespaceId s.namespaces
    s.namespaceNames
  streams : Consistent Stream.id (fun st => (st.namespace, st.name)) s.lastStreamId s.streams
    s.streamNames
  links : Consistent Link.id (fun l => (l.namespace, l.name)) s.lastLinkId s.links s.linkNames
  collections : Consistent Collection.id (fun c => (c.namespace, c.name)) s.lastCollectionId
    s.collections s.collectionNames
  stream : Implicit ImplicitStream Stream.name Collection.stream s.collections s.streams
  link : Implicit ImplicitLink Link.name Collection.link s.collections s.links
  partitions : ∀ k : StreamId × ℕ, k ∈ s.partitions ↔
    ∃ st, s.streams[k.1]? = some st ∧ k.2 < st.partitions
  aliases : s.AliasInv
  hot : ∀ id, id ∈ s.collectionHot → id ∈ s.collections
  pointers : ∀ key ∈ s.pointers, ∀ rest, stripPrefix? collectionPointerPrefix key.2 = some rest →
    ∃ (id : CollectionId) (c : Collection), rest = toString id ∧ s.collections[id]? = some c ∧
      c.namespace = key.1

/-- Two collections with one stream or link have one implicit name, and so one id. -/
theorem CatalogInv.own (h : s.CatalogInv) {id id' : CollectionId} {c c' : Collection}
    (hc : s.collections[id]? = some c) (hc' : s.collections[id']? = some c')
    (hshared : c.stream = c'.stream ∨ c.link = c'.link) : id = id' := by
  have hname : implicitName c.name c.id = implicitName c'.name c'.id :=
    hshared.elim (h.stream.name_eq hc hc') (h.link.name_eq hc hc')
  have hid := implicitName_id_inj hname
  rw [(h.collections.record id c hc).1, (h.collections.record id' c' hc').1] at hid
  exact hid

/-! ## Commands that leave the catalog alone -/

theorem AliasInv.congr (h : s.AliasInv) (haliases : s'.aliases = s.aliases := by rfl)
    (htargets : s'.aliasTargets = s.aliasTargets := by rfl)
    (hcollections : s'.collections = s.collections := by rfl)
    (hnames : s'.collectionNames = s.collectionNames := by rfl) : s'.AliasInv :=
  h.mono haliases htargets (fun _ c hc => ⟨c, hcollections ▸ hc, rfl⟩)
    fun _ _ hfree => hnames ▸ hfree

theorem CatalogInv.congr (h : s.CatalogInv) (hcatalog : s'.catalogPart = s.catalogPart)
    (hkeys : ∀ k, k ∈ s'.partitions ↔ k ∈ s.partitions) : s'.CatalogInv := by
  cases s
  cases s'
  simp only [catalogPart, Prod.mk.injEq] at hcatalog
  obtain ⟨⟨rfl, rfl, rfl⟩, ⟨rfl, rfl, rfl⟩, ⟨rfl, rfl, rfl⟩, ⟨rfl, rfl, rfl⟩, rfl, rfl, rfl, rfl⟩ :=
    hcatalog
  exact { h with
    partitions := fun k => (hkeys k).trans (h.partitions k)
    aliases := h.aliases.congr }

/-- Commands that write no catalog keep the set of partitions. -/
theorem mem_partitions_of_not_writesCatalog (hwrites : command.writesCatalog = false)
    (h : (handler command).exec s = (.ok r, s')) (k : StreamId × ℕ) :
    k ∈ s'.partitions ↔ k ∈ s.partitions := by
  cases hlog : command.writesLog with
  | false =>
    have hpart := (handler_frame h).log hlog
    simp only [logPart, Prod.mk.injEq] at hpart
    rw [hpart.2.2.1]
  | true =>
    cases command with
    | commitWal =>
      rcases commitWal_ok h with ⟨_, -, -, rfl⟩ | ⟨-, -, -, -, -, _, _, hplaced, -, rfl⟩
      · rfl
      · exact hplaced.mem_iff
    | swapSegment =>
      obtain ⟨-, p, base, -, hp, -, ⟨-, rfl⟩ | ⟨-, -, -, records, -, rfl⟩⟩ := swapSegment_ok h
      · rfl
      · rw [withRun, releaseEntries_partitions]
        exact mem_insert_iff_of_get hp
    | trimPartition =>
      obtain ⟨p, -, hp, -, -, rfl⟩ := trimPartition_ok h
      rw [releaseEntries_partitions]
      exact mem_insert_iff_of_get hp
    | pruneWalCommits =>
      obtain ⟨-, rfl⟩ := pruneWalCommits_ok h
      rfl
    | forgetObjects =>
      obtain ⟨-, rfl⟩ := forgetObjects_ok h
      rfl
    | _ => simp_all [Command.writesCatalog, Command.writesLog]

/-! ## Namespaces, streams and links -/

variable {name : String} {ns : NamespaceId} {key : NamespaceId × String} {st : Stream}

/-- The partitions of a new stream are those below its count. -/
theorem mem_addPartitions_iff {m : Partitions} {streams : BTreeMap StreamId Stream}
    {id : StreamId} (st : Stream) (hm : ∀ k : StreamId × ℕ, k ∈ m ↔
      ∃ st, streams[k.1]? = some st ∧ k.2 < st.partitions) (hnew : streams[id]? = none)
    (k : StreamId × ℕ) : k ∈ addPartitions m id st.partitions ↔
      ∃ st', (streams.insert id st)[k.1]? = some st' ∧ k.2 < st'.partitions := by
  rw [get_insert, mem_iff_get]
  simp only [addPartitions_get]
  by_cases hk : id = k.1
  · have hnone : m[k]? = none := not_mem_iff_get.mp fun hmem => by
      obtain ⟨st', hst', -⟩ := (hm k).mp hmem
      rw [← hk, hnew] at hst'
      cases hst'
    by_cases hlt : k.2 < st.partitions <;> simp [hk.symm, hlt, hnone]
  · have hne : ¬(k.1 = id ∧ k.2 < st.partitions) := fun hand => hk hand.1.symm
    simp only [hne, hk, if_false]
    rw [← mem_iff_get, hm k]

/-- A name that no alias map has is an alias without members. -/
theorem membersOf_eq_empty (haliases : key ∉ s.aliases) (htargets : key ∉ s.aliasTargets) :
    s.membersOf key = ∅ := by
  refine membersOf_eq ?_
  rw [not_mem_iff_get.mp haliases, not_mem_iff_get.mp htargets]
  exact .absent rfl

section

variable (h : s.CatalogInv)
include h

theorem CatalogInv.createNamespace (hfree : s.namespaceNames[name]? = none) :
    CatalogInv { s with
      lastNamespaceId := s.lastNamespaceId + 1
      namespaceNames := s.namespaceNames.insert name (s.lastNamespaceId + 1)
      namespaces := s.namespaces.insert (s.lastNamespaceId + 1)
        ⟨s.lastNamespaceId + 1, name⟩ } :=
  { h with
    namespaces := h.namespaces.insert hfree rfl
    aliases := h.aliases.congr }

/-- A user's stream has no implicit name. -/
theorem CatalogInv.insertStream {partitions : ℕ} {«class» : WalClass}
    {retention : Retention} (hname : startsWithChar name '_' = false)
    (hfree : s.streamNames[(ns, name)]? = none) :
    (s.insertStream ns name partitions «class» retention).2.CatalogInv := by
  refine { h with
    streams := h.streams.insert hfree rfl
    stream := h.stream.insertUser (fun st hst => ?_) hname
    partitions := ?_
    aliases := h.aliases.congr }
  · cases h.streams.get_succ_last.symm.trans hst
  · exact mem_addPartitions_iff ⟨s.lastStreamId + 1, ns, name, partitions, «class», retention⟩
      h.partitions h.streams.get_succ_last

theorem CatalogInv.insertLink {source : StreamId} {target : TargetRef}
    {options : BTreeMap String String} (hname : startsWithChar name '_' = false)
    (hfree : s.linkNames[(ns, name)]? = none) :
    (s.insertLink ns name source target options).2.CatalogInv := by
  refine { h with
    links := h.links.insert hfree rfl
    link := h.link.insertUser (fun l hl => ?_) hname
    aliases := h.aliases.congr }
  cases h.links.get_succ_last.symm.trans hl

theorem CatalogInv.setRetention {stream : StreamId} {retention : Retention}
    (hst : s.streams[stream]? = some st) (hname : startsWithChar st.name '_' = false) :
    CatalogInv { s with streams := s.streams.insert stream { st with retention } } := by
  refine { h with
    streams := h.streams.replace hst rfl rfl
    stream := h.stream.insertUser (fun st' hst' => ?_) hname
    partitions := ?_
    aliases := h.aliases.congr }
  · rw [← some.inj (hst.symm.trans hst'), hname]
  · intro k
    rw [h.partitions k]
    simp only [get_insert]
    by_cases heq : stream = k.1
    · subst heq
      simp [hst]
    · simp [heq]

/-! ## Pointers, hot configurations and aliases -/

theorem CatalogInv.casPointer {key : String} {pointer : Pointer}
    (hcheck : s.checkCollectionPointer ns key = .ok ()) :
    CatalogInv { s with pointers := s.pointers.insert (ns, key) pointer } := by
  refine { h with aliases := h.aliases.congr, pointers := ?_ }
  intro key' hkey' rest hrest
  rcases mem_insert_iff.mp hkey' with rfl | hkey'
  · simp only [checkCollectionPointer, hrest] at hcheck
    cases hparse : parseCanonical? (u64Max + 1) rest with
    | none => simp [hparse] at hcheck
    | some id =>
      simp only [hparse] at hcheck
      cases hc : s.collections[id]? with
      | none => simp [hc] at hcheck
      | some c =>
        simp only [hc, require_eq_ok] at hcheck
        exact ⟨id, c, (eq_toString_of_parseCanonical? hparse).1, hc, hcheck⟩
  · exact h.pointers key' hkey' rest hrest

theorem CatalogInv.setCollectionHot {collection : CollectionId}
    (hot : HotConfig) (hmem : collection ∈ s.collections) :
    CatalogInv { s with
      collectionHot :=
        if hot.any then s.collectionHot.insert collection hot
        else s.collectionHot.erase collection } := by
  refine { h with aliases := h.aliases.congr, hot := ?_ }
  intro id hid
  dsimp only at hid
  split_ifs at hid
  · rw [mem_insert_iff] at hid
    rcases hid with rfl | hid
    · exact hmem
    · exact h.hot id hid
  · exact h.hot id (mem_of_mem_erase hid)

/-- Aliases are written without touching the rest. -/
theorem CatalogInv.updatesTargets {ns : NamespaceId}
    {actions : List AliasTargetAction} (hupdate : s.UpdatesTargets s' ns actions) :
    s'.CatalogInv := by
  have haliases := hupdate.aliasInv h.collections.key h.aliases
  obtain ⟨aliases, targets, rfl⟩ := hupdate.rest
  exact { h with aliases := haliases }

/-- A collection may be replaced by one that differs in its schema only. -/
theorem CatalogInv.updateSchema {id : CollectionId} {c : Collection}
    (schema : CollectionSchema) (hc : s.collections[id]? = some c) :
    CatalogInv { s with collections := s.collections.insert id { c with schema } } := by
  -- What the old map has, the new one has with another schema.
  have hforth : ∀ (id' : CollectionId) (c' : Collection), s.collections[id']? = some c' →
      ∃ c'' : Collection, (s.collections.insert id { c with schema })[id']? = some c'' ∧
        c''.namespace = c'.namespace := by
    intro id' c' hc'
    by_cases heq : id = id'
    · subst heq
      obtain rfl := some.inj (hc.symm.trans hc')
      exact ⟨_, getElem?_insert_self, rfl⟩
    · exact ⟨c', (get_insert_ne heq).trans hc', rfl⟩
  refine { h with
    collections := h.collections.replace hc rfl rfl
    stream := h.stream.replace hc rfl fun _ hst => { hst with }
    link := h.link.replace hc rfl fun _ hl => { hl with }
    aliases := ?_
    hot := ?_
    pointers := ?_ }
  · refine h.aliases.mono rfl rfl (fun id' c' hc' => ?_) fun _ _ hfree => hfree
    exact hforth id' c' hc'
  · intro id' hid'
    obtain ⟨c', hc'⟩ := mem_iff_get.mp (h.hot id' hid')
    obtain ⟨c'', hc'', -⟩ := hforth id' c' hc'
    exact mem_of_get hc''
  · intro key hkey rest hrest
    obtain ⟨id', c', hid', hc', hns⟩ := h.pointers key hkey rest hrest
    obtain ⟨c'', hc'', hns'⟩ := hforth id' c' hc'
    exact ⟨id', c'', hid', hc'', hns'.trans hns⟩

/-- The implicit names of a new collection are free: what has such a name belongs to
a collection, whose id is an older one. -/
theorem CatalogInv.implicit_free (ns : NamespaceId) (name : String) :
    s.streamNames[(ns, implicitName name (s.lastCollectionId + 1))]? = none ∧
      s.linkNames[(ns, implicitName name (s.lastCollectionId + 1))]? = none := by
  have hold : ∀ (cid : CollectionId) (c : Collection), s.collections[cid]? = some c →
      implicitName c.name c.id ≠ implicitName name (s.lastCollectionId + 1) := by
    intro cid c hc heq
    have hid := implicitName_id_inj heq
    rw [(h.collections.record cid c hc).1] at hid
    have hbound := h.collections.bound cid (mem_of_get hc)
    exact absurd hid (Nat.ne_of_lt (Nat.lt_succ_of_le hbound))
  constructor
  · refine eq_none_iff_forall_ne_some.mpr fun sid hsid => ?_
    obtain ⟨st, hst, hkey⟩ := h.streams.key _ _ hsid
    exact h.stream.free hold hst (congrArg Prod.snd hkey)
  · refine eq_none_iff_forall_ne_some.mpr fun lid hlid => ?_
    obtain ⟨l, hl, hkey⟩ := h.links.key _ _ hlid
    exact h.link.free hold hl (congrArg Prod.snd hkey)

/-- A new collection keeps the invariants. -/
theorem CatalogInv.insertCollection {schema : CollectionSchema} {partitions : ℕ}
    (hfree : ((s.collectionNames[(ns, name)]?).bind fun id => s.collections[id]?) = none)
    (haliases : (ns, name) ∉ s.aliases) (htargets : (ns, name) ∉ s.aliasTargets) :
    (s.insertCollection ns name schema partitions).2.CatalogInv := by
  obtain ⟨hstreamFree, hlinkFree⟩ := h.implicit_free ns name
  have hnew := h.collections.get_succ_last
  have hname : s.collectionNames[(ns, name)]? = none := by
    refine eq_none_iff_forall_ne_some.mpr fun id hid => ?_
    obtain ⟨c, hc, -⟩ := h.collections.key _ _ hid
    simp [hid, hc] at hfree
  refine ⟨h.namespaces, h.streams.insert hstreamFree rfl, h.links.insert hlinkFree rfl,
    h.collections.insert hname rfl, ?_, ?_, ?_, ?_, ?_, ?_⟩
  · exact h.stream.create hnew h.streams.get_succ_last ⟨rfl, rfl, rfl, rfl, rfl⟩
  · exact h.link.create hnew h.links.get_succ_last ⟨rfl, rfl, rfl, rfl⟩
  · exact mem_addPartitions_iff ⟨s.lastStreamId + 1, ns, implicitName name (s.lastCollectionId + 1),
      partitions, .standard, {}⟩ h.partitions h.streams.get_succ_last
  · refine h.aliases.mono rfl rfl (fun id c hc => ⟨c, get_insert_of_get hnew hc, rfl⟩) ?_
    intro key hne hkey hmem
    simp only [MetaState.insertCollection, MetaState.insertStream, MetaState.insertLink,
      mem_insert_iff] at hmem
    rcases hmem with rfl | hmem
    · exact hne (membersOf_eq_empty haliases htargets)
    · exact hkey hmem
  · intro id hid
    exact mem_insert.mpr (.inr (h.hot id hid))
  · intro key hkey rest hrest
    obtain ⟨id, c, hid, hc, hns⟩ := h.pointers key hkey rest hrest
    exact ⟨id, c, hid, get_insert_of_get hnew hc, hns⟩

end

/-! ## Drops -/

theorem removePartition_get (id : StreamId) (partition : ℕ) (k : StreamId × ℕ) :
    (removePartition id s partition).partitions[k]? =
      if (id, partition) = k then none else s.partitions[k]? := by
  unfold removePartition
  split
  · rename_i hnone
    split_ifs with hk
    · rw [← hk, hnone]
    · rfl
  · rw [releaseEntries_partitions, get_erase]

/-- A stream goes with its name and its partitions. -/
theorem removeStream_found {id : StreamId} (hst : s.streams[id]? = some st) :
    ∃ kept live retired idempotency, s.removeStream id = { s with
        streams := s.streams.erase id
        streamNames := s.streamNames.erase (st.namespace, st.name)
        partitions := kept, walLiveChunks := live, retired := retired
        idempotency := idempotency } ∧
      ∀ k : StreamId × ℕ, kept[k]? =
        if k.1 = id ∧ k.2 < st.partitions then none else s.partitions[k]? := by
  set t := dropStreamIdempotency { s with
    streams := s.streams.erase id
    streamNames := s.streamNames.erase (st.namespace, st.name) } id with ht
  have hget := get_foldl_range (fun (t : MetaState) k => t.partitions[k]?)
    (fun _ => removePartition_get id) t st.partitions
  obtain ⟨kept, live, retired, hfold⟩ :=
    foldl_removePartition_eq (s := t) id (List.range st.partitions)
  rw [hfold] at hget
  refine ⟨kept, live, retired, (s.dropStreamIdempotency id).idempotency, ?_, hget⟩
  simp only [removeStream, hst]
  rw [← ht, hfold]
  rfl

/-- The state without a collection and its name. -/
abbrev withoutCollection (s : MetaState) (key : NamespaceId × String) (id : CollectionId) :
    MetaState :=
  { s with collectionNames := s.collectionNames.erase key, collections := s.collections.erase id }

/-- What is left of the catalog after a drop. -/
theorem dropFound_catalog (ns : NamespaceId) (name : String) (id : CollectionId)
    {c : Collection} {l : Link} (hst : s.streams[c.stream]? = some st)
    (hl : s.links[c.link]? = some l) :
    ∃ (t : MetaState) (kept : Partitions),
      t = dropFromAliases (s.withoutCollection (ns, name) id) id ∧
      (∀ k : StreamId × ℕ, kept[k]? =
        if k.1 = c.stream ∧ k.2 < st.partitions then none else s.partitions[k]?) ∧
      ∃ live retired idempotency, s.dropFound ns name id c = { s with
        streams := s.streams.erase c.stream
        streamNames := s.streamNames.erase (st.namespace, st.name)
        links := s.links.erase c.link
        linkNames := s.linkNames.erase (l.namespace, l.name)
        collections := s.collections.erase id
        collectionNames := s.collectionNames.erase (ns, name)
        aliases := t.aliases, aliasTargets := t.aliasTargets
        collectionHot := s.collectionHot.erase id
        pointers := s.pointers.erase (ns, collectionPointerKey id)
        partitions := kept, walLiveChunks := live, retired := retired
        idempotency := idempotency } := by
  obtain ⟨aliases, targets, haliases⟩ := dropFromAliases_eq
    (s := s.withoutCollection (ns, name) id) id
  have hst' : (s.dropEntry ns name id).streams[c.stream]? = some st := by
    rw [dropEntry, haliases]
    exact hst
  obtain ⟨kept, live, retired, idempotency, hremove, hkept⟩ := removeStream_found hst'
  refine ⟨_, kept, rfl, fun k => ?_, live,
    (retired.insert (collectionPrefix ns id) s.clockMs).insert
      (collectionPkPrefix ns id) s.clockMs, idempotency, ?_⟩
  · rw [hkept, dropEntry, haliases]
  · rw [dropFound, hremove]
    simp only [removeLink, dropEntry, haliases, hl]

/-- Aliases lose a dropped collection and keep the others. -/
theorem AliasInv.drop (h : s.AliasInv) {t : MetaState} {id : CollectionId}
    {name : NamespaceId × String}
    (haliases : t.aliases = (dropFromAliases (s.withoutCollection name id) id).aliases)
    (htargets : t.aliasTargets = (dropFromAliases (s.withoutCollection name id) id).aliasTargets)
    (hcollections : t.collections = s.collections.erase id)
    (hnames : t.collectionNames = s.collectionNames.erase name) : t.AliasInv := by
  obtain ⟨hcanonical, hmembers⟩ := dropFromAliases_spec (s := s.withoutCollection name id) id
    h.canonical
  have hsame := membersOf_congr haliases htargets
  refine ⟨fun key => ?_, fun key => ?_⟩
  · rw [hsame, haliases, htargets]
    exact hcanonical key
  · have hok : s.AliasOk key (s.membersOf key) := h.ok key
    rw [hsame, hmembers]
    refine ⟨⟨fun id' hid' => ?_, fun hne hmem => ?_⟩, ?_, ?_⟩
    · rw [mem_erase_iff] at hid'
      obtain ⟨c, hc, hns⟩ := hok.exist id' hid'.2
      exact ⟨c, by rw [hcollections, get_erase_ne hid'.1, hc], hns⟩
    · refine hok.free (fun hempty => hne ?_) ?_
      · refine (congrArg (fun m : AliasMembers => m.erase id) hempty).trans ?_
        exact erase_eq_self (by simp)
      · rw [hnames] at hmem
        exact mem_of_mem_erase hmem
    · exact size_erase_le.trans hok.size
    · exact (writerCount_erase_le _ _).trans hok.writers

/-- So does the drop of a collection. -/
theorem CatalogInv.dropFound (h : s.CatalogInv) {id : CollectionId} {c : Collection}
    (hname : s.collectionNames[(ns, name)]? = some id) (hc : s.collections[id]? = some c) :
    (s.dropFound ns name id c).CatalogInv := by
  obtain ⟨st, hst, -⟩ := h.stream.found id c hc
  obtain ⟨l, hl, -⟩ := h.link.found id c hc
  have hkey : (c.namespace, c.name) = (ns, name) := by
    obtain ⟨c', hc', hkey⟩ := h.collections.key _ _ hname
    obtain rfl := some.inj (hc.symm.trans hc')
    exact hkey
  obtain ⟨t, kept, ht, hkept, live, retired, idempotency, hdrop⟩ :=
    dropFound_catalog ns name id hst hl
  have hcollections := h.collections.erase hc
  rw [hkey] at hcollections
  rw [hdrop]
  -- Every other collection has another stream and another link.
  refine ⟨h.namespaces, h.streams.erase hst, h.links.erase hl, hcollections,
    h.stream.drop hc fun cid c' hc' heq => h.own hc hc' (.inl heq),
    h.link.drop hc fun cid c' hc' heq => h.own hc hc' (.inr heq), ?_,
    h.aliases.drop (ht ▸ rfl) (ht ▸ rfl) rfl rfl, ?_, ?_⟩
  · intro k
    rw [mem_iff_get]
    simp only [hkept, get_erase]
    by_cases hk : c.stream = k.1
    · have hnone : st.partitions ≤ k.2 → ∀ p, ¬s.partitions[k]? = some p := by
        intro hle p hp
        obtain ⟨st', hst', hlt⟩ := (h.partitions k).mp (mem_of_get hp)
        rw [← hk] at hst'
        obtain rfl := some.inj (hst.symm.trans hst')
        omega
      simpa [hk] using hnone
    · simp only [Ne.symm hk, hk, false_and, if_false]
      rw [← mem_iff_get]
      exact h.partitions k
  · intro cid hcid
    rw [mem_erase_iff] at hcid ⊢
    exact ⟨hcid.1, h.hot cid hcid.2⟩
  · intro key hpointer rest hrest
    rw [mem_erase_iff] at hpointer
    obtain ⟨cid, c', hcid, hc', hns⟩ := h.pointers key hpointer.2 rest hrest
    refine ⟨cid, c', hcid, (get_erase_ne ?_).trans hc', hns⟩
    -- A pointer of the dropped collection has the key that was erased.
    rintro rfl
    obtain rfl := some.inj (hc.symm.trans hc')
    refine hpointer.1 (Prod.ext ?_ ?_)
    · exact (congrArg Prod.fst hkey).symm.trans hns
    · rw [stripPrefix?_eq_some.mp hrest, hcid, collectionPointerKey]

/-! ## Every history -/

theorem catalogInv_empty : CatalogInv {} where
  namespaces := .empty
  streams := .empty
  links := .empty
  collections := .empty
  stream := ⟨fun _ _ h => h.name_eq, by simp, by simp⟩
  link := ⟨fun _ _ h => h.name_eq, by simp, by simp⟩
  partitions k := by simp
  aliases := by
    have hnone : ∀ key, membersOf {} key = ∅ := fun key => membersOf_eq_empty (by simp) (by simp)
    refine ⟨fun key => ?_, fun key => ?_⟩
    · simpa [hnone] using AliasStored.absent rfl
    · rw [hnone]
      exact aliasOk_empty _ _
  hot id h := by simp at h
  pointers key h := by simp at h

/-- Every command keeps the invariants. -/
theorem CatalogInv.handler (h : s.CatalogInv) (hok : (handler command).exec s = (.ok r, s')) :
    s'.CatalogInv := by
  cases hwrites : command.writesCatalog with
  | false =>
    exact h.congr ((handler_frame hok).catalog hwrites)
      (mem_partitions_of_not_writesCatalog hwrites hok)
  | true =>
    cases command with
    | createNamespace =>
      obtain ⟨hfree, -, rfl⟩ := createNamespace_ok hok
      exact h.createNamespace hfree
    | createStream =>
      obtain ⟨hname, hfree, -, rfl⟩ := createStream_ok hok
      exact h.insertStream hname hfree
    | createLink =>
      obtain ⟨hname, hfree, -, -, rfl⟩ := createLink_ok hok
      exact h.insertLink hname hfree
    | setRetention =>
      obtain ⟨st, hst, hname, rfl⟩ := setRetention_ok hok
      exact h.setRetention hst hname
    | casPointer =>
      obtain ⟨hcheck, -, version, -, rfl⟩ := casPointer_ok hok
      exact h.casPointer hcheck
    | createCollection =>
      obtain ⟨-, -, hfree, haliases, htargets, -, rfl⟩ := createCollection_ok hok
      exact h.insertCollection hfree haliases htargets
    | updateCollectionSchema =>
      obtain ⟨c, hc, ⟨rfl, -⟩ | ⟨-, -, rfl⟩⟩ := updateCollectionSchema_ok hok
      · exact h
      · exact h.updateSchema _ hc
    | setCollectionHot _ hot =>
      obtain ⟨hmem, rfl⟩ := setCollectionHot_ok hok
      exact h.setCollectionHot hot hmem
    | updateAliases =>
      exact h.updatesTargets (updateAliases_ok.mp hok).2.2.1
    | updateAliasTargets =>
      exact h.updatesTargets (updateAliasTargets_ok.mp hok).2.2.1
    | dropCollection ns name nowMs =>
      have hclock : (s.advance nowMs).CatalogInv := h.congr rfl fun _ => Iff.rfl
      rcases dropCollection_ok hok with rfl | ⟨id, hid, ⟨hnone, -⟩ | ⟨c, hc, rfl⟩⟩
      · exact hclock
      · -- A name leads to a collection, so there is nothing to clean up.
        obtain ⟨c, hc, -⟩ := h.collections.key _ _ hid
        rw [hnone] at hc
        cases hc
      · exact hclock.dropFound hid hc
    | _ => cases hwrites

theorem catalogInv_after (commands : List Command) : (after commands).CatalogInv :=
  after_induction catalogInv_empty fun _ _ _ _ _ h hok => h.handler hok

theorem CatalogInv.alias_single (h : s.CatalogInv) {id : CollectionId}
    (hid : s.aliases[key]? = some id) : id ∈ s.membersOf key ∧ s.aliasTargets[key]? = none := by
  have hstored := h.aliases.canonical key
  rw [hid] at hstored
  generalize s.aliasTargets[key]? = many at hstored ⊢
  cases hstored with
  | single id one => exact ⟨one ▸ mem_insert_self, rfl⟩

theorem CatalogInv.alias_targets (h : s.CatalogInv) {t : AliasTargets}
    (ht : s.aliasTargets[key]? = some t) : t.members = s.membersOf key ∧ t.members ≠ ∅ ∧
      ∀ id, t.members ≠ (∅ : AliasMembers).insert id none := by
  have hstored := h.aliases.canonical key
  rw [ht] at hstored
  generalize s.aliases[key]? = single at hstored
  cases hstored with
  | targets nonempty many => exact ⟨rfl, nonempty, many⟩

theorem CatalogInv.catalogValid (h : s.CatalogInv) : s.CatalogValid :=
  { h with
    implicit id c hc := ⟨h.stream.found id c hc, h.link.found id c hc⟩
    own id id' c c' hc hc' hshared := h.own hc hc' hshared
    aliasName key hkey := by
      refine (h.aliases.ok key).free fun hempty => ?_
      rcases hkey with hkey | hkey
      · obtain ⟨id, hid⟩ := mem_iff_get.mp hkey
        have hmem := (h.alias_single hid).1
        simp [hempty] at hmem
      · obtain ⟨t, ht⟩ := mem_iff_get.mp hkey
        obtain ⟨hmembers, hne, -⟩ := h.alias_targets ht
        exact hne (hmembers.trans hempty)
    aliasMap key hkey := by
      obtain ⟨id, hid⟩ := mem_iff_get.mp hkey
      exact not_mem_iff_get.mpr (h.alias_single hid).2
    singleTarget key id hid := (h.aliases.ok key).exist id (h.alias_single hid).1
    targets key t ht := by
      obtain ⟨hmembers, hne, hmany⟩ := h.alias_targets ht
      have hok := h.aliases.ok key
      rw [← hmembers] at hok
      exact ⟨hne, hmany, hok.writers, hok.exist⟩ }

/-- **The catalog's invariants hold after every history.** Names and ids of
namespaces, streams, links and collections are in bijection, every collection has
its own stream and link of its implicit name, partitions are those of the streams,
each alias is in the one map it belongs in and has no collection's name, and its
members, hot configurations and collection pointers name collections that exist. -/
theorem catalog_invariants_hold (commands : List Command) : (after commands).CatalogValid :=
  (catalogInv_after commands).catalogValid

/-- A command from `s` to `s'` gave the aliases these members, left what is stored of
the aliases outside `named` alone, and does nothing when it is applied again. -/
structure UpdatesExactly (s s' : MetaState) (command : Command) (r : Reply)
    (named : List (NamespaceId × String)) (members : Memberships) : Prop where
  members : s'.membersOf = members
  untouched : ∀ key ∉ named, s'.aliases[key]? = s.aliases[key]? ∧
    s'.aliasTargets[key]? = s.aliasTargets[key]?
  again : s'.apply command = (.ok r, s')

/-- **Alias updates are exact and idempotent.** After every history, an update that
goes through gives each alias the members its actions give it one after the other,
leaves the aliases alone that it does not mention, and succeeds without any change
when it is applied a second time. -/
theorem alias_updates_exact (commands : List Command) (ns : NamespaceId) (r : Reply)
    (s' : MetaState) :
    let s := after commands
    (∀ actions, s.apply (.updateAliases ns actions) = (.ok r, s') →
      UpdatesExactly s s' (.updateAliases ns actions) r (actions.map fun a => (ns, actionAlias a))
        (actions.foldl (runAliasAction s.collectionNames ns) s.membersOf)) ∧
    ∀ actions, s.apply (.updateAliasTargets ns actions) = (.ok r, s') →
      UpdatesExactly s s' (.updateAliasTargets ns actions) r
        (actions.map fun a => (ns, targetAlias a))
        (actions.foldl (runTargetAction s.collectionNames ns) s.membersOf) := by
  intro s
  have hs : s.CatalogInv := catalogInv_after commands
  constructor
  · intro actions h
    obtain ⟨hns, hcount, hupdate, hr⟩ := updateAliases_ok.mp h
    have hs' := (hs.updatesTargets hupdate).aliases
    refine ⟨by rw [hupdate.membersOf_eq, foldl_targetActions], fun key hkey => ?_, ?_⟩
    · refine hupdate.untouched hs.aliases hs' fun target htarget heq => hkey ?_
      obtain ⟨action, haction, htarget⟩ := List.mem_flatMap.mp htarget
      refine List.mem_map.mpr ⟨action, haction, heq ▸ ?_⟩
      cases action <;> simp only [targetActions, List.mem_cons, List.not_mem_nil, or_false]
        at htarget
      · rcases htarget with rfl | rfl <;> rfl
      · rw [htarget]; rfl
    · obtain ⟨_, _, hrest⟩ := hupdate.rest
      exact updateAliases_ok.mpr ⟨hrest ▸ hns, hcount, hupdate.again hs', hr⟩
  · intro actions h
    obtain ⟨hns, hcount, hupdate, hr⟩ := updateAliasTargets_ok.mp h
    have hs' := (hs.updatesTargets hupdate).aliases
    refine ⟨hupdate.membersOf_eq, fun key hkey => ?_, ?_⟩
    · refine hupdate.untouched hs.aliases hs' fun action haction heq => hkey ?_
      exact List.mem_map.mpr ⟨action, haction, heq.symm⟩
    · obtain ⟨_, _, hrest⟩ := hupdate.rest
      exact updateAliasTargets_ok.mpr ⟨hrest ▸ hns, hcount, hupdate.again hs', hr⟩

end MetaState

end Loams.Meta
