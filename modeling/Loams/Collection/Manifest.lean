/-
# Manifests of a collection
-/

import Loams.Collection.Resolve
import Loams.Meta.Types

namespace Loams.Collection

open Loams.Data Std

/-- Where an object of a collection lives, below the prefix of the collection. -/
inductive ObjectPath
  | manifest (version : ℕ) (ulid : Ulid)
  | split (ulid : Ulid)
  | deleteBitmap (owner ulid : Ulid)
  | pkDelta (version : ℕ) (ulid : Ulid)
  | deadLetters (version : ℕ) (ulid : Ulid)
  | lance (relative : String)
  deriving DecidableEq

/-- Where the objects of a collection lie. -/
def collectionPrefix (ns cid : ℕ) : String := s!"ns/{ns}/collections/{cid}/"

/-- The path in the object store. -/
def ObjectPath.text (ns cid : ℕ) : ObjectPath → String
  | .manifest version ulid =>
    collectionPrefix ns cid ++ s!"manifests/{padded version}-{ulid.text}.pb"
  | .split ulid => collectionPrefix ns cid ++ s!"text/splits/{ulid.text}.split"
  | .deleteBitmap owner ulid =>
    collectionPrefix ns cid ++ s!"text/deletes/{owner.text}/{ulid.text}.bitmap"
  | .pkDelta version ulid =>
    collectionPrefix ns cid ++ s!"pkdelta/{padded version}-{ulid.text}.pkd"
  | .deadLetters version ulid =>
    collectionPrefix ns cid ++ s!"deadletters/{padded version}-{ulid.text}.dlq"
  | .lance relative => collectionPrefix ns cid ++ s!"lance/{relative}"

/-- The row ids from `start` up to `stop`, which is not one of them. -/
structure RowRange where
  start : ℕ
  stop : ℕ
  deriving DecidableEq

/-- One split of a manifest. Its ranges list the rows of its documents in the order of
the document ids. -/
structure SplitRef where
  ulid : Ulid
  docCount : ℕ
  deletedCount : ℕ
  rowIdRanges : List RowRange
  /-- None when no document is deleted. -/
  deleteBitmap : Option ObjectPath
  deriving DecidableEq

/-- What a commit is for. -/
inductive CommitKind
  | linkApply
  | indexBuild
  | maintenance
  deriving DecidableEq

/-- A version of a collection. -/
structure CollectionManifest where
  /-- The version of the pointer that names the manifest. -/
  version : ℕ
  parentVersion : ℕ
  /-- None for version 1. -/
  parentManifest : Option ObjectPath
  collectionId : ℕ
  /-- The writer's clock when the commit started. -/
  createdAtMs : ℕ
  /-- Zero when there is no dataset yet. -/
  lanceVersion : ℕ
  splits : List SplitRef
  /-- The next offset to apply of each partition. -/
  applied : BTreeMap ℕ ℕ
  liveDocCount : ℕ
  kind : CommitKind
  pkDelta : Option ObjectPath
  deadLetters : Option ObjectPath
  deadLettersTotal : ℕ
  skippedOffsetsTotal : ℕ

namespace CollectionManifest

/-- The state before the first commit. -/
def empty (collection : ℕ) : CollectionManifest where
  version := 0
  parentVersion := 0
  parentManifest := none
  collectionId := collection
  createdAtMs := 0
  lanceVersion := 0
  splits := []
  applied := ∅
  liveDocCount := 0
  kind := .linkApply
  pkDelta := none
  deadLetters := none
  deadLettersTotal := 0
  skippedOffsetsTotal := 0

/-- The next offset to apply of a partition. -/
def appliedAt (m : CollectionManifest) (partition : ℕ) : ℕ := m.applied.getD partition 0

end CollectionManifest

/-- The pointer of a collection. -/
structure Pointer where
  version : ℕ
  value : ObjectPath
  deriving DecidableEq

end Loams.Collection
