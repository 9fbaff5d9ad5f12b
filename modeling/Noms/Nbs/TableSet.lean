import Noms.Nbs.TableQueries

/-!
# Table sets and their chunk sources (`go/nbs/table_set.go`, `compacting_chunk_source.go`)

A table set is a list of chunk sources, newest first. `Prepend` puts a memtable in front as a
`compactingChunkSource`: a goroutine writes it with `fsTablePersister.Compact`, asking the sources
that were already in the set which of its chunks they hold, and from then on the source answers
through the table it wrote. Until then it answers through the memtable. `ChunkSource` is what a
source answers through: `compacting mt` before the compaction finishes, the table it wrote
(`mmapTableReader`) or `emptyChunkSource` after. A source's `haver` is always the sources behind
it in the set, as nothing but `Prepend` adds to a set here.

The multi-source queries go newest first: `has` and `get` stop at the first source that has the
chunk, `hasMany` and `getMany` stop at the first source that reports nothing remaining. `count`
adds up the `uint32` counts.
-/

namespace Noms.Nbs

open Noms.Lib

/-- What a chunk source of a table set answers through. -/
inductive ChunkSource
  | compacting (mt : MemTable)
  | table (tr : TableReader)
  | empty

namespace ChunkSource

variable (L : TableLib)

def has : ChunkSource → Addr → Option Bool
  | compacting mt, h => some (mt.has h)
  | table tr, h => tr.has h
  | empty, _ => some false

def hasMany : ChunkSource → List HasRecord → Option (List HasRecord × Bool)
  | compacting mt, addrs => some (mt.hasMany addrs)
  | table tr, addrs => tr.hasMany addrs
  | empty, addrs => some (addrs, true)

def get : ChunkSource → Addr → Option (Option (List UInt8))
  | compacting mt, h => some (mt.get h)
  | table tr, h => tr.get L h
  | empty, _ => some none

def getMany : ChunkSource → List GetRecord → Option (List GetRecord × Bool)
  | compacting mt, reqs => some (mt.getMany reqs)
  | table tr, reqs => tr.getMany L reqs
  | empty, reqs => some (reqs, true)

def count : ChunkSource → Nat
  | compacting mt => mt.count
  | table tr => tr.count
  | empty => 0

end ChunkSource

namespace ChunkSources

variable (L : TableLib)

/-- `chunkSources.has`. -/
def has : List ChunkSource → Addr → Option Bool
  | [], _ => some false
  | haver :: css, h => do
    if ← haver.has h then some true else has css h

/-- `chunkSources.hasMany`. -/
def hasMany : List ChunkSource → List HasRecord → Option (List HasRecord × Bool)
  | [], addrs => some (addrs, true)
  | haver :: css, addrs => do
    let (addrs, remaining) ← haver.hasMany addrs
    if !remaining then some (addrs, false) else hasMany css addrs

/-- `chunkSources.get`. -/
def get : List ChunkSource → Addr → Option (Option (List UInt8))
  | [], _ => some none
  | haver :: css, h => do
    match ← haver.get L h with
    | some data => some (some data)
    | none => get css h

/-- `chunkSources.getMany`. -/
def getMany : List ChunkSource → List GetRecord → Option (List GetRecord × Bool)
  | [], reqs => some (reqs, true)
  | haver :: css, reqs => do
    let (reqs, remaining) ← haver.getMany L reqs
    if !remaining then some (reqs, false) else getMany css reqs

/-- `chunkSources.count`, summed in a `uint32`. -/
def count (css : List ChunkSource) : Nat :=
  (css.map ChunkSource.count).sum % 2 ^ 32

end ChunkSources

/-- `fileReadAmpThresh`, `fileBlockSize` and `fileMaxReadSize`. -/
def fileReadAmpThresh : Nat := 2
def fileBlockSize : Nat := 2 ^ 12
def fileMaxReadSize : Nat := 2 ^ 28

/-- `indexSize`. -/
def indexSize (numChunks : Nat) : Nat := numChunks * (addrSuffixSize + lengthSize + prefixTupleSize)

/-- `newMmapTableReader` over the table file `buff`: the index is parsed from the bytes that start
at the index, and must hold the chunk count the table was written with. -/
def newMmapTableReader (buff : List UInt8) (chunkCount : Nat) : Option TableReader := do
  guard (footerSize + indexSize chunkCount ≤ buff.length)
  let indexOffset := buff.length - footerSize - indexSize chunkCount
  let index ← parseTableIndex (buff.drop indexOffset)
  guard (chunkCount = index.chunkCount)
  some (newTableReader index buff fileBlockSize fileMaxReadSize fileReadAmpThresh)

/-- `fsTablePersister.Compact`: write `mt` without the chunks `haver` holds, and open what was
written, or `emptyChunkSource` when nothing was. -/
def Compact (L : TableLib) (mt : MemTable) (haver : List ChunkSource) : Option ChunkSource := do
  let (_, data, chunkCount) ← mt.write L (some (ChunkSources.hasMany haver))
  if chunkCount = 0 then some .empty
  else (newMmapTableReader data chunkCount).map .table

/-- `tableSet`, with the file table persister. -/
structure TableSet where
  chunkSources : List ChunkSource

namespace TableSet

/-- `tableSet.Prepend`. -/
def Prepend (ts : TableSet) (mt : MemTable) : TableSet :=
  ⟨.compacting mt :: ts.chunkSources⟩

/-- The compaction of the source at `i` finishes: it now answers through what `Compact` made of
its memtable, given the sources behind it. -/
def compactAt (L : TableLib) (ts : TableSet) (i : Nat) : Option TableSet := do
  let .compacting mt ← ts.chunkSources[i]? | none
  let cs ← Compact L mt (ts.chunkSources.drop (i + 1))
  some ⟨ts.chunkSources.set i cs⟩

/-- What `ToSpecs` waits for, front to back: every compaction of a memtable with a non-zero
count finishes, each against the sources behind it as they are at that moment. -/
def finishCompactionsFrom (L : TableLib) : List ChunkSource → Option (List ChunkSource)
  | [] => some []
  | .compacting mt :: rest =>
    if mt.count ≠ 0 then do
      let cs ← Compact L mt rest
      let rest ← finishCompactionsFrom L rest
      some (cs :: rest)
    else (finishCompactionsFrom L rest).map (.compacting mt :: ·)
  | cs :: rest => (finishCompactionsFrom L rest).map (cs :: ·)

def finishCompactions (L : TableLib) (ts : TableSet) : Option TableSet :=
  (finishCompactionsFrom L ts.chunkSources).map TableSet.mk

end TableSet

end Noms.Nbs
