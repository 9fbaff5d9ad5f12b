import Noms.Types.Value
import Noms.Lib.SortedMap

/-!
# The graph builder's op cache (`opcache.go`, `opcache_compare.go`)

`GraphMapSet`, `GraphSetInsert` and `GraphListAppend` each store one operation in a leveldb, under
a key made of the graph keys followed by one more value: the map key, the set element, or
`Number(idx)` for a list, where `idx` counts the appends of the whole cache. `GraphOp` reads an
operation back as the path of the collection it acts on, the collection's kind and the item to
append to it.

The bytes of a key are left abstract. Within one graph (one `colId`), `opCacheComparer` compares
two keys value by value with `compareEncodedKey` and, when one key list is a prefix of the other,
puts the shorter first; the kind byte of the operation is not compared. That is the lexicographic
order on lists of values, so a key is a `List V` over a linearly ordered type of values (the value
order of `less.go`, a strict total order away from NaN and hash collisions), and the leveldb is a
list in ascending key order where a `Put` of an equal key overwrites (`SortedMap.put`). The kind
byte travels with the value: the entry read back is the one of the latest `Put`.
-/

namespace Noms.Types

open Noms.Lib

mutual
/-- A finished collection (`newMap`, `newSet` or `newList` of a chunker's sequence): its kind and
the items appended to its `sequenceChunker`, in order. -/
inductive Coll (V : Type) where
  | mk (kind : NomsKind) (items : List (Item V))

/-- A `sequenceItem` appended to a chunker. -/
inductive Item (V : Type) where
  /-- A set element or a list element. -/
  | value (v : V)
  /-- `mapEntry{key, val}`. -/
  | entry (k v : V)
  /-- `mapEntry{key, col}`: a finished child collection under its key. -/
  | child (k : V) (c : Coll V)
end

variable {V : Type}

def Coll.kind : Coll V → NomsKind
  | .mk kind _ => kind

def Coll.items : Coll V → List (Item V)
  | .mk _ items => items

/-- An operation in the cache: the full key list, the op's kind and the value it stores. -/
abbrev LdbOp (V : Type) := List V × NomsKind × V

/-- `ldbOpCache` of one graph: its leveldb entries in iteration order, and `listIdx`. -/
structure OpCache (V : Type) where
  ldb : List (LdbOp V)
  listIdx : Nat

variable [LinearOrder V]

namespace OpCache

/-- `insertLdbOp`: panics on more than 255 keys, otherwise `Put`s the op under its keys. -/
def insertLdbOp (opc : OpCache V) (allKeys : List V) (opKind : NomsKind) (val : V) :
    Option (OpCache V) :=
  if allKeys.length > 0xFF then none
  else some { opc with ldb := SortedMap.put allKeys (opKind, val) opc.ldb }

def GraphMapSet (opc : OpCache V) (graphKeys : List V) (mapKey mapVal : V) : Option (OpCache V) :=
  opc.insertLdbOp (graphKeys ++ [mapKey]) .MapKind mapVal

def GraphSetInsert (opc : OpCache V) (graphKeys : List V) (val : V) : Option (OpCache V) :=
  opc.insertLdbOp (graphKeys ++ [val]) .SetKind val

/-- `GraphListAppend`; `number idx` is the key `Number(idx)`. -/
def GraphListAppend (number : Nat → V) (opc : OpCache V) (graphKeys : List V) (val : V) :
    Option (OpCache V) :=
  let idx := opc.listIdx + 1
  { opc with listIdx := idx }.insertLdbOp (graphKeys ++ [number idx]) .ListKind val

end OpCache

/-- `ldbOpCacheIterator.GraphOp`: the last key is the map key, the set element or the list index,
and the path is what comes before it. A kind other than the three leaves `item` nil, which `Build`
can neither append nor push, so it is `none` here; no call stores one. -/
def GraphOp (op : LdbOp V) : Option (List V × NomsKind × Item V) :=
  match op.1.getLast?, op.2.1 with
  | some key, .MapKind => some (op.1.dropLast, .MapKind, .entry key op.2.2)
  | some key, .SetKind => some (op.1.dropLast, .SetKind, .value key)
  | some _, .ListKind => some (op.1.dropLast, .ListKind, .value op.2.2)
  | _, _ => none

end Noms.Types
