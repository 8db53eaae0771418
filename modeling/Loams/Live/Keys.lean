/-
# The key layout of an app
-/

import Loams.Live.ReadSet
import Loams.Live.Values

namespace Loams.Live

open Loams.Data Loams.Tikv

namespace Tag

def catalog : UInt8 := 0x01
def document : UInt8 := 0x02
def index : UInt8 := 0x03

end Tag

namespace Kind

def counter : UInt8 := 0x00
def tableName : UInt8 := 0x01
def table : UInt8 := 0x02
def schema : UInt8 := 0x04
def app : UInt8 := 0x05

end Kind

/-- The range as scan bounds. -/
def KeyRange.bounds (range : KeyRange) : Bytes × Option Bytes :=
  (range.lo, if range.hi = [] then none else some range.hi)

/-- The range of the keys that start with a prefix. -/
def prefixRange (pre : Bytes) : KeyRange := ⟨pre, successor pre⟩

/-- The smallest key greater than `key`. -/
def keyAfter (key : Bytes) : Bytes := key ++ [0x00]

namespace AppKeys

def catalog (kind : UInt8) (name : Bytes) : Bytes := Tag.catalog :: kind :: name

/-- The counter of table ids. -/
def tableCounter : Bytes := catalog Kind.counter (utf8 "table")

def tableName (name : String) : Bytes := catalog Kind.tableName (utf8 name)

def table (id : TableId) : Bytes := catalog Kind.table (beBytes 4 id.toNat)

def schema : Bytes := catalog Kind.schema []

/-- The app's settings. -/
def appDef : Bytes := catalog Kind.app []

variable (table : TableId)

/-- All documents of a table, which is the index by id. -/
def documents : KeyRange :=
  prefixRange (Tag.document :: beBytes 4 table.toNat)

def document (id : DocId) : Bytes := (documents id.table).lo ++ id.bytes.toList

def indexPrefix (index : IndexId) : Bytes :=
  Tag.index :: (beBytes 4 table.toNat ++ beBytes 4 index.toNat)

/-- All index entries of a table. -/
def tableIndexes : KeyRange := prefixRange (Tag.index :: beBytes 4 table.toNat)

/-- An index entry: the values, the creation time and the document id's bytes. -/
def indexEntry (index : IndexId) (values : List Tuple.Elem) (creationMs : UInt64) (id : DocId) :
    Bytes :=
  indexPrefix id.table index ++
    (Tuple.encodeAll values ++ (beBytes 8 creationMs.toNat ++ id.bytes.toList))

/-- The index entries of every table whose id is `first` or above. -/
def tablesFrom (first : TableId) : KeyRange :=
  ⟨Tag.index :: beBytes 4 first.toNat, successor [Tag.index]⟩

/-- Sixteen bytes as an id of a table. -/
def docIdOf (bytes : Bytes) : Option DocId :=
  if h : bytes.length = 16 then some ⟨table, ⟨bytes.toArray, h⟩⟩ else none

/-- The document that a document key of the table names. -/
def docIdOfDocument (key : Bytes) : Option DocId :=
  let lo := (documents table).lo
  if lo.isPrefixOf key then docIdOf table (key.drop lo.length) else none

/-- The document and the creation time that an index entry of the table names, which are
its last 24 bytes. -/
def docOfIndexEntry (key : Bytes) : Option (DocId × ℕ) :=
  if key.length < 1 + 8 + 8 + 16 || !(tableIndexes table).lo.isPrefixOf key then none
  else
    let tail := key.drop (key.length - 8 - 16)
    (docIdOf table (tail.drop 8)).map fun id => (id, ofBeBytes (tail.take 8))

end AppKeys

end Loams.Live
