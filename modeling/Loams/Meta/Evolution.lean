/-
# Schemas only grow
-/

import Loams.Meta.CatalogInvariant

namespace Loams.Meta

open Loams.Data Loams.Control Std.ExtTreeMap

namespace CollectionSchema

variable {a b c : CollectionSchema}

/-- Fields and dense vectors are kept in their places, and sparse vectors as they are. -/
structure Extends (next old : CollectionSchema) : Prop where
  fields : old.fields <+: next.fields
  vectors : old.vectors <+: next.vectors
  sparse : next.sparseVectors = old.sparseVectors

theorem Extends.refl (a : CollectionSchema) : a.Extends a :=
  ⟨List.prefix_rfl, List.prefix_rfl, rfl⟩

theorem Extends.trans (h : c.Extends b) (h' : b.Extends a) : c.Extends a :=
  ⟨h'.fields.trans h.fields, h'.vectors.trans h.vectors, h.sparse.trans h'.sparse⟩

theorem extends_of_checkAdditive (h : a.checkAdditive b = .ok ()) : b.Extends a := by
  simp only [checkAdditive, except_bind_ok, require_eq_ok] at h
  obtain ⟨_, hfields, _, hvectors, _, hsparse, -⟩ := h
  exact ⟨hfields, hvectors, hsparse⟩

end CollectionSchema

namespace MetaState

variable {s s' : MetaState} {command : Command} {r : Reply}

/-- The collections of the second state are in the first, each as it was or with the
schema that the command sent as an update of the version stored. -/
def Keeps (command : Command) (s s' : MetaState) : Prop :=
  s'.lastCollectionId = s.lastCollectionId ∧ ∀ (id : CollectionId) (c : Collection),
    s'.collections[id]? = some c → ∃ old, s.collections[id]? = some old ∧
      c = { old with schema := c.schema } ∧ c.schema.Extends old.schema ∧
      (c.schema = old.schema ∨
        ∃ sent, command = .updateCollectionSchema id old.schema.version sent ∧
          c.schema = { sent with version := old.schema.version + 1 })

theorem keeps_of_subset (hlast : s'.lastCollectionId = s.lastCollectionId)
    (h : ∀ (id : CollectionId) (c : Collection), s'.collections[id]? = some c →
      s.collections[id]? = some c) : Keeps command s s' :=
  ⟨hlast, fun id c hc => ⟨c, h id c hc, rfl, .refl _, .inl rfl⟩⟩

/-- A command creates a collection, or those behind it were there before. -/
theorem handler_collections (h : (handler command).exec s = (.ok r, s')) : Keeps command s s' ∨
    ∃ ns name schema partitions, command = .createCollection ns name schema partitions ∧
      schema.version = 1 ∧ s' = (s.insertCollection ns name schema partitions).2 := by
  cases hwrites : command.writesCollections with
  | false =>
    obtain ⟨hlast, heq⟩ := Prod.mk.inj ((handler_frame h).collections hwrites)
    exact .inl (keeps_of_subset hlast fun _ _ hc => heq ▸ hc)
  | true =>
    cases command with
    | createCollection ns name schema partitions =>
      obtain ⟨-, hversion, -, -, -, -, rfl⟩ := createCollection_ok h
      exact .inr ⟨ns, name, schema, partitions, rfl, hversion, rfl⟩
    | updateCollectionSchema =>
      obtain ⟨c, hc, ⟨rfl, -⟩ | ⟨rfl, hadditive, rfl⟩⟩ := updateCollectionSchema_ok h
      · exact .inl (keeps_of_subset rfl fun _ _ hc => hc)
      · refine .inl ⟨rfl, fun id d hd => ?_⟩
        rcases get_insert_eq_some.mp hd with ⟨rfl, rfl⟩ | ⟨-, hd⟩
        · have hext := CollectionSchema.extends_of_checkAdditive hadditive
          exact ⟨c, hc, rfl, { hext with }, .inr ⟨_, rfl, rfl⟩⟩
        · exact ⟨d, hd, rfl, .refl _, .inl rfl⟩
    | dropCollection ns name nowMs =>
      rcases dropCollection_ok h with rfl | ⟨_, -, ⟨-, rfl⟩ | ⟨_, -, rfl⟩⟩
      · exact .inl (keeps_of_subset rfl fun _ _ hc => hc)
      · exact .inl (keeps_of_subset rfl fun _ _ hc => hc)
      · obtain ⟨hlast, heq⟩ := Prod.mk.inj
          (dropFound_frame (s := s.advance nowMs) ns name _ _).2.2.2.2
        exact .inl (keeps_of_subset hlast fun id c hc => (get_erase_eq_some.mp (heq ▸ hc)).2)
    | _ => cases hwrites

/-- Every collection that was there before has a schema that the later one extends, and
the others have new ids. -/
structure SchemasGrow (s s' : MetaState) : Prop where
  last : s.lastCollectionId ≤ s'.lastCollectionId
  grow : ∀ (id : CollectionId) (c' : Collection), s'.collections[id]? = some c' →
    id ≤ s.lastCollectionId → ∃ c, s.collections[id]? = some c ∧ c'.schema.Extends c.schema

theorem SchemasGrow.handler (h : (handler command).exec s = (.ok r, s')) : SchemasGrow s s' := by
  rcases handler_collections h with ⟨hlast, hold⟩ | ⟨ns, name, schema, partitions, -, -, rfl⟩
  · refine ⟨hlast.ge, fun id c' hc' _ => ?_⟩
    obtain ⟨c, hc, -, hext, -⟩ := hold id c' hc'
    exact ⟨c, hc, hext⟩
  · refine ⟨Nat.le_succ _, fun id c' hc' hid => ?_⟩
    rcases get_insert_eq_some.mp hc' with ⟨rfl, -⟩ | ⟨-, hc'⟩
    · exact absurd hid (Nat.not_succ_le_self _)
    · exact ⟨c', hc', .refl _⟩

theorem schemasGrow_append (commands more : List Command) :
    SchemasGrow (after commands) (after (commands ++ more)) := by
  refine after_append_induction commands ⟨le_rfl, fun _ c hc _ => ⟨c, hc, .refl _⟩⟩
    fun t command _ r t' ht hok => ?_
  have hstep := SchemasGrow.handler hok
  refine ⟨ht.last.trans hstep.last, fun id c'' hc'' hid => ?_⟩
  obtain ⟨c', hc', hext'⟩ := hstep.grow id c'' hc'' (hid.trans ht.last)
  obtain ⟨c, hc, hext⟩ := ht.grow id c' hc' hid
  exact ⟨c, hc, hext'.trans hext⟩

/-- An update among the commands found the collection, and put this schema in the place of
the one it had, one version on. -/
def UpdatedTo (commands : List Command) (id : CollectionId) (schema : CollectionSchema) : Prop :=
  ∃ pre sent post old,
    commands = pre ++ .updateCollectionSchema id old.schema.version sent :: post ∧
    (after pre).collections[id]? = some old ∧
    (after (pre ++ [.updateCollectionSchema id old.schema.version sent])).collections[id]? =
      some { old with schema } ∧
    schema = { sent with version := old.schema.version + 1 }

theorem UpdatedTo.concat {commands : List Command} {id : CollectionId} {schema : CollectionSchema}
    (h : UpdatedTo commands id schema) (command : Command) :
    UpdatedTo (commands ++ [command]) id schema := by
  obtain ⟨pre, sent, post, old, rfl, h⟩ := h
  exact ⟨pre, sent, post ++ [command], old, by simp, h⟩

/-- A schema is that of the creation or the work of an update. -/
theorem version_one_or_updatedTo (commands : List Command) (id : CollectionId) (c : Collection)
    (hc : (after commands).collections[id]? = some c) :
    c.schema.version = 1 ∨ UpdatedTo commands id c.schema := by
  induction commands using List.reverseRecOn generalizing c with
  | nil => simp at hc
  | append_singleton commands command ih =>
    have hkeep : ∀ old, (after commands).collections[id]? = some old → c.schema = old.schema →
        c.schema.version = 1 ∨ UpdatedTo (commands ++ [command]) id c.schema := fun old hold heq =>
      heq ▸ (ih old hold).imp_right (·.concat command)
    have hc' := hc
    rw [after, run_concat] at hc
    rcases apply_cases (after commands) command with ⟨e, -, hsame⟩ | ⟨r, hok, -⟩
    · exact hkeep c (hsame ▸ hc) rfl
    rcases handler_collections hok with ⟨-, hold⟩ | ⟨ns, name, schema, partitions, -, hone, hs⟩
    · obtain ⟨old, hget, heq, -, hsame | ⟨sent, rfl, hsent⟩⟩ := hold id c hc
      · exact hkeep old hget hsame
      · exact .inr ⟨commands, sent, [], old, rfl, hget, heq ▸ hc', hsent⟩
    · rw [hs] at hc
      rcases get_insert_eq_some.mp hc with ⟨-, rfl⟩ | ⟨-, hc⟩
      · exact .inl hone
      · exact hkeep c hc rfl

/-- **Schemas only grow.** After every history, an update that expects version 1 or a later
one and succeeds changes nothing, because an update of the history took effect and stored
its schema, or it raises the version by one and extends the schema. Every later schema of
the collection extends every earlier one, so a field has the definition that it had. -/
theorem schemas_only_grow (commands : List Command) :
    (∀ id expectedVersion schema r s', 1 ≤ expectedVersion →
      (after commands).apply (.updateCollectionSchema id expectedVersion schema) = (.ok r, s') →
      ∃ c, (after commands).collections[id]? = some c ∧
        (s' = after commands ∧ c.schema.version = expectedVersion + 1 ∧
            c.schema.sameIgnoringVersion schema ∧ UpdatedTo commands id c.schema ∨
          ∃ c', s'.collections[id]? = some c' ∧ c'.schema.version = c.schema.version + 1 ∧
            c'.schema.Extends c.schema)) ∧
    ∀ (more : List Command) (id : CollectionId) (c c' : Collection),
      (after commands).collections[id]? = some c →
      (after (commands ++ more)).collections[id]? = some c' → c'.schema.Extends c.schema ∧
        ∀ name f, c.schema.fields.find? (fun f => f.name = name) = some f →
          c'.schema.fields.find? (fun f => f.name = name) = some f := by
  constructor
  · intro id expectedVersion schema r s' hexpected h
    obtain ⟨c, hc, ⟨hs, hversion, hsame⟩ | ⟨hversion, hadditive, rfl⟩⟩ :=
      updateCollectionSchema_ok h
    · have horigin := (version_one_or_updatedTo commands id c hc).resolve_left (by omega)
      exact ⟨c, hc, .inl ⟨hs, hversion, hsame, horigin⟩⟩
    · have hext := CollectionSchema.extends_of_checkAdditive hadditive
      exact ⟨c, hc, .inr ⟨_, getElem?_insert_self, by rw [hversion], { hext with }⟩⟩
  · intro more id c c' hc hc'
    have hgrow := schemasGrow_append commands more
    have hbound := (catalogInv_after commands).collections.bound id (mem_of_get hc)
    obtain ⟨old, hold, hext⟩ := hgrow.grow id c' hc' hbound
    obtain rfl := Option.some.inj (hc.symm.trans hold)
    exact ⟨hext, fun name f hf => hext.fields.find?_eq_some hf⟩

/-- The schema of a new collection sent as an update of version 0 is answered as if an
update had stored it. -/
theorem update_of_new_collection_answered :
    let schema : CollectionSchema := ⟨1, [], [], [], .strict, 10, ∅⟩
    let s := after [.createNamespace "n", .createCollection 1 "a" schema 1]
    (s.apply (.updateCollectionSchema 1 0 schema)).1 = .ok (.schemaUpdated 1) ∧
      (s.apply (.updateCollectionSchema 1 0 schema)).2.collections.toList =
        s.collections.toList := by
  decide +kernel

end MetaState

end Loams.Meta
