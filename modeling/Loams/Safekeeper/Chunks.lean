/-
# Runs of WAL
-/

import Loams.Data.Tiling
import Loams.Safekeeper.Types

namespace Loams.Safekeeper

open Loams.Data

/-- The end of a run of WAL. -/
def runStop (p : Lsn × Bytes) : Lsn := p.1 + p.2.length

/-- Runs that follow one another, with the WAL's bytes. -/
structure Spells (wal : Lsn → UInt8) (start : Lsn) (runs : List (Lsn × Bytes)) (stop : Lsn) :
    Prop where
  tiles : Tiles Prod.fst runStop start runs stop
  bytes : ∀ p ∈ runs, ∀ i < p.2.length, p.2[i]? = some (wal (p.1 + i))

end Loams.Safekeeper
