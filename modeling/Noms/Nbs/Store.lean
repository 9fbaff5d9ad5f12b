import Noms.Nbs.TableSet

/-!
# The block store (`go/nbs/store.go`)

`NomsBlockStore` keeps the chunks put since the last flush in a memtable and everything older in
its table set. A chunk that does not fit the memtable spills it: the memtable is prepended to the
tables (its compaction starts) and a fresh one takes the chunk. `UpdateRoot` prepends a non-empty
memtable and then, through `ToSpecs`, waits until every compaction of a non-empty memtable has
finished, before it hands the table specs to the manifest.

The store is modelled with one writer: the manifest accepts every update, so `UpdateRoot`
succeeds once its `last` check passes, and no other process adds tables. `Get` and `GetMany`
return the data of the chunk, `none` for `EmptyChunk`; a panic is the outer `none`. `Step` is the
store as a transition system: the calls that change it, and a compaction goroutine finishing
at any moment.
-/

namespace Noms.Nbs

open Noms.Lib

/-- `chunks.Chunk`: its hash, as an `addr`, and its data. -/
structure Chunk where
  r : Addr
  data : List UInt8
deriving DecidableEq

/-- `defaultMemTableSize`: 512MB. -/
def defaultMemTableSize : Nat := 512 * 2 ^ 20

/-- `NomsBlockStore`; the root is kept as an `addr`. -/
structure NomsBlockStore where
  mt : Option MemTable
  mtSize : Nat
  tables : TableSet
  root : Addr
  putCount : Nat

/-- `toGetRecords`. -/
def toGetRecords (hashes : List Addr) : List GetRecord :=
  hashes.mapIdx fun i a => ⟨a, a.Prefix, i, false, none, rfl⟩

namespace NomsBlockStore

variable (L : TableLib)

/-- `newNomsBlockStore` for a store whose manifest does not exist yet. -/
def newNomsBlockStore (memTableSize : Nat) : NomsBlockStore where
  mt := none
  mtSize := if memTableSize = 0 then defaultMemTableSize else memTableSize
  tables := ⟨[]⟩
  root := Addr.zero
  putCount := 0

/-- `NomsBlockStore.addChunk`: `none` is the memtable's panic on empty data. -/
def addChunk (nbs : NomsBlockStore) (h : Addr) (data : List UInt8) :
    Option (Bool × NomsBlockStore) := do
  let mt := nbs.mt.getD (MemTable.newMemTable nbs.mtSize)
  let (ok, mt) ← mt.addChunk h data
  if ok then some (true, { nbs with mt := some mt })
  else
    let tables := nbs.tables.Prepend mt
    let (ok, mt') ← (MemTable.newMemTable nbs.mtSize).addChunk h data
    some (ok, { nbs with mt := some mt', tables := tables })

/-- `NomsBlockStore.Put`: a chunk that `addChunk` refuses is a panic. -/
def Put (nbs : NomsBlockStore) (c : Chunk) : Option NomsBlockStore := do
  let (ok, nbs) ← nbs.addChunk c.r c.data
  guard ok
  some { nbs with putCount := nbs.putCount + 1 }

/-- `NomsBlockStore.PutMany`: the store, and the hashes of the chunks from the first one refused
on (the backpressure error). -/
def PutMany (nbs : NomsBlockStore) : List Chunk → Option (NomsBlockStore × List Addr)
  | [] => some (nbs, [])
  | c :: chunx => do
    let (ok, nbs') ← nbs.addChunk c.r c.data
    if ok then PutMany { nbs' with putCount := nbs'.putCount + 1 } chunx
    else some (nbs', (c :: chunx).map Chunk.r)

/-- `NomsBlockStore.Get`: the memtable first, then the tables. -/
def Get (nbs : NomsBlockStore) (h : Addr) : Option (Option (List UInt8)) :=
  match nbs.mt.bind (·.get h) with
  | some data => some (some data)
  | none => ChunkSources.get L nbs.tables.chunkSources h

/-- `NomsBlockStore.GetMany`: the memtable fills in what it has; the tables are asked, in prefix
order, only when it reports something remaining. -/
def GetMany (nbs : NomsBlockStore) (hashes : List Addr) : Option (List (Option (List UInt8))) := do
  let (reqs, remaining) := match nbs.mt with
    | some mt => mt.getMany (toGetRecords hashes)
    | none => (toGetRecords hashes, true)
  let reqs := L.sortBy GetRecord.Prefix reqs
  let reqs ← if remaining then (ChunkSources.getMany L nbs.tables.chunkSources reqs).map Prod.fst
    else some reqs
  some ((L.sortBy GetRecord.order reqs).map GetRecord.data)

/-- `NomsBlockStore.Count`, a `uint32`. -/
def Count (nbs : NomsBlockStore) : Nat :=
  ((nbs.mt.map MemTable.count).getD 0 + ChunkSources.count nbs.tables.chunkSources) % 2 ^ 32

/-- `NomsBlockStore.Has`. -/
def Has (nbs : NomsBlockStore) (h : Addr) : Option Bool :=
  if (nbs.mt.map (·.has h)).getD false then some true
  else ChunkSources.has nbs.tables.chunkSources h

/-- `NomsBlockStore.UpdateRoot` with a manifest that accepts the update. -/
def UpdateRoot (nbs : NomsBlockStore) (current last : Addr) : Option (NomsBlockStore × Bool) := do
  guard (nbs.root = last)
  let nbs := match nbs.mt with
    | some mt => if mt.count > 0 then { nbs with tables := nbs.tables.Prepend mt, mt := none } else nbs
    | none => nbs
  -- `ToSpecs` waits for the compactions
  let tables ← nbs.tables.finishCompactions L
  some ({ nbs with tables := tables, root := current }, true)

/-- `NomsBlockStore.Flush`. -/
def Flush (nbs : NomsBlockStore) : Option NomsBlockStore := do
  let (nbs, success) ← nbs.UpdateRoot L nbs.root nbs.root
  guard success
  some nbs

end NomsBlockStore

/-- One step of a store: a call that changes it, or a compaction finishing. -/
inductive Step (L : TableLib) : NomsBlockStore → NomsBlockStore → Prop
  | put {s s' : NomsBlockStore} (c : Chunk) : s.Put c = some s' → Step L s s'
  | putMany {s s' : NomsBlockStore} (chunx : List Chunk) (errs : List Addr) :
      s.PutMany chunx = some (s', errs) → Step L s s'
  | updateRoot {s s' : NomsBlockStore} (current last : Addr) (ok : Bool) :
      s.UpdateRoot L current last = some (s', ok) → Step L s s'
  | compact {s : NomsBlockStore} {ts : TableSet} (i : Nat) :
      s.tables.compactAt L i = some ts → Step L s { s with tables := ts }

end Noms.Nbs
