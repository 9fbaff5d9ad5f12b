import Noms.Nbs.TableWriter
import Noms.Lib.AssocList

/-!
# The memtable (`go/nbs/mem_table.go`)

A `memTable` buffers the chunks of a store before they are written as a table. Its map of
chunks is kept here as a list in insertion order, which is also the order of the code's
`order` slice: the code appends to both at once, and `write` restores `order` to insertion
order after sorting it by prefix for `hasMany`. The structure carries what `addChunk` keeps
true: the addresses are distinct, no chunk is empty, and `totalData` is the size of the chunks
and stays within `maxData`.

`hasRecord` and `getRecord` are the requests the stores pass down to their sources; their
`Prefix` field is the prefix of their address, as every constructor of the code sets it.
-/

namespace Noms.Nbs

open Noms.Lib

/-- `hasRecord`. -/
structure HasRecord where
  a : Addr
  Prefix : Nat
  order : Nat
  has : Bool
  prefix_eq : Prefix = a.Prefix
deriving DecidableEq

/-- `getRecord`; `data = none` is the code's `nil`. -/
structure GetRecord where
  a : Addr
  Prefix : Nat
  order : Nat
  found : Bool
  data : Option (List UInt8)
  prefix_eq : Prefix = a.Prefix
deriving DecidableEq

/-- `maxChunkSize`: snappy does not compress slices larger than this. -/
def maxChunkSize : Nat := 0xffffffff

/-- `memTable`; `chunks` is the map together with its insertion order. -/
structure MemTable where
  chunks : List (Addr × List UInt8)
  maxData : Nat
  totalData : Nat
  nodup : (chunks.map Prod.fst).Nodup
  data_ne : ∀ c ∈ chunks, c.2 ≠ []
  total_eq : totalData = (chunks.map fun c => c.2.length).sum
  total_le : totalData ≤ maxData

namespace MemTable

/-- `newMemTable`. -/
def newMemTable (memTableSize : Nat) : MemTable where
  chunks := []
  maxData := memTableSize
  totalData := 0
  nodup := List.nodup_nil
  data_ne := fun _ h => absurd h List.not_mem_nil
  total_eq := rfl
  total_le := Nat.zero_le _

/-- `mt.chunks[h]`: the data stored under `h`, `none` for the code's `nil`. -/
def get (mt : MemTable) (h : Addr) : Option (List UInt8) := mt.chunks.lookup h

def has (mt : MemTable) (h : Addr) : Bool := (mt.get h).isSome

/-- `memTable.count`, a `uint32`. -/
def count (mt : MemTable) : Nat := mt.chunks.length % 2 ^ 32

/-- `mt.order`: a record per chunk in insertion order, none of them marked. -/
def order (mt : MemTable) : List HasRecord :=
  mt.chunks.mapIdx fun i c => ⟨c.1, c.1.Prefix, i, false, rfl⟩

/-- `memTable.addChunk`: `none` is the panic on empty data, `false` that the chunk does not fit.
A chunk already present is not added again. -/
def addChunk (mt : MemTable) (h : Addr) (data : List UInt8) : Option (Bool × MemTable) :=
  if hd : data.length = 0 then none
  else if hh : h ∈ mt.chunks.map Prod.fst then some (true, mt)
  else if ht : mt.totalData + data.length > mt.maxData then some (false, mt)
  else some (true, {
    chunks := mt.chunks ++ [(h, data)]
    maxData := mt.maxData
    totalData := mt.totalData + data.length
    nodup := by
      rw [List.map_append, List.nodup_append]
      refine ⟨mt.nodup, List.nodup_singleton _, fun a ha b hb hab => ?_⟩
      rw [List.map_singleton, List.mem_singleton] at hb
      rw [hab, hb] at ha
      exact hh ha
    data_ne := by
      intro c hc
      rcases List.mem_append.mp hc with hc | hc
      · exact mt.data_ne c hc
      · rw [List.mem_singleton.mp hc]
        exact fun he => hd (by rw [show data = [] from he, List.length_nil])
    total_eq := by simp [mt.total_eq]
    total_le := by omega })

/-- `memTable.hasMany`: mark the records whose chunk is here; `true` when one is left unmarked. -/
def hasMany (mt : MemTable) : List HasRecord → List HasRecord × Bool
  | [] => ([], false)
  | addr :: rest =>
    let (rest', remaining) := mt.hasMany rest
    if addr.has then (addr :: rest', remaining)
    else if mt.has addr.a then ({ addr with has := true } :: rest', remaining)
    else (addr :: rest', true)

/-- `memTable.getMany`: fill in every request whose chunk is here, found or not; `true` when one
of them is not here. -/
def getMany (mt : MemTable) : List GetRecord → List GetRecord × Bool
  | [] => ([], false)
  | r :: rest =>
    let (rest', remaining) := mt.getMany rest
    match mt.get r.a with
    | some data => ({ r with data := some data } :: rest', remaining)
    | none => (r :: rest', true)

/-- `memTable.write`: the table of the chunks `haver` does not mark, its name, and how many it
holds (a `uint32`). `maxTableSize` divides by the number of chunks and checks the average size;
`haver` is `none` for the code's `nil` reader. -/
def write (L : TableLib) (mt : MemTable)
    (haver : Option (List HasRecord → Option (List HasRecord × Bool))) :
    Option (Addr × List UInt8 × Nat) := do
  guard (mt.chunks.length ≠ 0)
  guard (mt.totalData / mt.chunks.length < maxChunkSize)
  let order ← match haver with
    | none => some mt.order
    | some hasMany => do
      -- `hasMany` requires addresses sorted by prefix; then restore insertion order
      let (marked, _) ← hasMany (L.sortBy HasRecord.Prefix mt.order)
      some (L.sortBy HasRecord.order marked)
  let kept := order.filter fun r => !r.has
  let tw ← newTableWriter.addChunks L (kept.map fun r => (r.a, (mt.get r.a).getD []))
  let (tw, name) := tw.finish L
  some (name, tw.buff.read 0 tw.pos, kept.length % 2 ^ 32)

/-! ## What the memtable answers -/

section Answers

variable (mt : MemTable)

theorem get_eq_some_iff {h : Addr} {data : List UInt8} :
    mt.get h = some data ↔ (h, data) ∈ mt.chunks :=
  lookup_eq_some_iff_mem mt.nodup

theorem get_eq_none_iff {h : Addr} : mt.get h = none ↔ h ∉ mt.chunks.map Prod.fst :=
  lookup_eq_none_iff_not_mem

theorem has_iff {h : Addr} : mt.has h = true ↔ h ∈ mt.chunks.map Prod.fst :=
  lookup_isSome_iff_mem

/-- `hasMany` marks the records whose chunk is here, and reports whether one is left unmarked. -/
theorem hasMany_eq (addrs : List HasRecord) :
    mt.hasMany addrs = (addrs.map fun r => { r with has := r.has || mt.has r.a },
      addrs.any fun r => !r.has && !mt.has r.a) := by
  induction addrs with
  | nil => rfl
  | cons r rest ih =>
    obtain ⟨a, p, o, has, hp⟩ := r
    rw [hasMany, ih]
    cases has <;> cases hm : mt.has a <;> simp [hm]

/-- `getMany` fills in the data of every request whose chunk is here, and reports whether one is
not here. -/
theorem getMany_eq (reqs : List GetRecord) :
    mt.getMany reqs = (reqs.map fun r => { r with data := (mt.get r.a).or r.data },
      reqs.any fun r => (mt.get r.a).isNone) := by
  induction reqs with
  | nil => rfl
  | cons r rest ih =>
    obtain ⟨a, p, o, found, data, hp⟩ := r
    rw [getMany, ih]
    cases hg : mt.get a <;> simp [hg]

/-- Everything `addChunk` can do: refuse empty data (panic), keep a chunk already present, refuse
a chunk that does not fit, or append it. -/
theorem addChunk_eq_some {mt' : MemTable} {h : Addr} {data : List UInt8} {ok : Bool}
    (hadd : mt.addChunk h data = some (ok, mt')) :
    data ≠ [] ∧ mt'.maxData = mt.maxData ∧
      ((h ∈ mt.chunks.map Prod.fst ∧ ok = true ∧ mt' = mt) ∨
        (h ∉ mt.chunks.map Prod.fst ∧ mt.maxData < mt.totalData + data.length ∧ ok = false ∧
          mt' = mt) ∨
        (h ∉ mt.chunks.map Prod.fst ∧ ok = true ∧ mt'.chunks = mt.chunks ++ [(h, data)])) := by
  unfold addChunk at hadd
  split at hadd
  · cases hadd
  · rename_i hd
    have hne : data ≠ [] := fun he => hd (by rw [he, List.length_nil])
    split at hadd
    · rename_i hh
      cases hadd
      exact ⟨hne, rfl, .inl ⟨hh, rfl, rfl⟩⟩
    · rename_i hh
      split at hadd
      · rename_i ht
        cases hadd
        exact ⟨hne, rfl, .inr (.inl ⟨hh, ht, rfl, rfl⟩)⟩
      · cases hadd
        exact ⟨hne, rfl, .inr (.inr ⟨hh, rfl, rfl⟩)⟩

@[simp] theorem length_order : mt.order.length = mt.chunks.length := List.length_mapIdx

theorem map_a_order : mt.order.map HasRecord.a = mt.chunks.map Prod.fst := by
  apply List.ext_getElem (by simp)
  intro i h₁ h₂
  simp [order]

theorem map_order_order : mt.order.map HasRecord.order = List.range mt.chunks.length := by
  apply List.ext_getElem (by simp)
  intro i h₁ h₂
  simp [order]

theorem has_of_mem_order {r : HasRecord} (hr : r ∈ mt.order) : r.has = false := by
  obtain ⟨i, hi, rfl⟩ := List.mem_mapIdx.mp hr
  rfl

end Answers

/-! ## What `write` writes -/

section Write

variable {L : TableLib} (mt : MemTable)

/-- Sorting the marked records back by insertion order gives the records in insertion order. -/
theorem sortBy_order_marked (hL : L.Lawful) (mark : HasRecord → HasRecord)
    (hmark : ∀ r, (mark r).order = r.order) :
    L.sortBy HasRecord.order ((L.sortBy HasRecord.Prefix mt.order).map mark) = mt.order.map mark := by
  refine L.sortBy_eq_of_perm hL _ ((hL.sortBy_perm _ _).map mark) ?_
  have hrange : (mt.order.map mark).map HasRecord.order = List.range mt.chunks.length := by
    have horder : HasRecord.order ∘ mark = HasRecord.order := funext hmark
    rw [List.map_map, horder, map_order_order]
  exact List.pairwise_map.mp (hrange ▸ List.pairwise_lt_range)

/-- The chunks whose record is left unmarked, with their data looked up again. -/
theorem kept_chunks (f : Addr → Bool) :
    (((mt.order.map fun r => { r with has := r.has || f r.a }).filter fun r => !r.has).map
      fun r => (r.a, (mt.get r.a).getD [])) = mt.chunks.filter fun c => !f c.1 := by
  -- a record of `order` is unmarked, so marking sets `has` to `f` of its address
  have hfilter : (mt.order.map fun r => { r with has := r.has || f r.a }).filter (fun r => !r.has) =
      (mt.order.filter fun r => !f r.a).map fun r => { r with has := r.has || f r.a } := by
    rw [List.filter_map]
    congr 1
    refine List.filter_congr fun r hr => ?_
    simp [has_of_mem_order mt hr]
  have hkeys : (mt.order.filter fun r => !f r.a).map HasRecord.a =
      (mt.chunks.filter fun c => !f c.1).map Prod.fst := by
    show (mt.order.filter ((fun a => !f a) ∘ HasRecord.a)).map HasRecord.a = _
    rw [← List.filter_map, map_a_order, List.filter_map]
    rfl
  calc _ = ((mt.order.filter fun r => !f r.a).map HasRecord.a).map
        fun a => (a, (mt.get a).getD []) := by
        rw [hfilter, List.map_map, List.map_map]
        rfl
    _ = (mt.chunks.filter fun c => !f c.1).map fun c => (c.1, (mt.get c.1).getD []) := by
        rw [hkeys, List.map_map]
        rfl
    _ = mt.chunks.filter fun c => !f c.1 := by
        conv_rhs => rw [← List.map_id (mt.chunks.filter _)]
        refine List.map_congr_left fun c hc => ?_
        rw [(get_eq_some_iff mt).mpr (List.mem_filter.mp hc).1, Option.getD_some, id]

/-- With a `haver` that marks the chunks satisfying `f`, `write` writes the table of the other
chunks in insertion order, and counts them. -/
theorem write_eq (hL : L.Lawful) (hne : mt.chunks ≠ [])
    (havg : mt.totalData / mt.chunks.length < maxChunkSize)
    (haver : List HasRecord → Option (List HasRecord × Bool)) (f : Addr → Bool)
    (hhaver : ∃ rem, haver (L.sortBy HasRecord.Prefix mt.order) =
      some ((L.sortBy HasRecord.Prefix mt.order).map fun r => { r with has := r.has || f r.a }, rem)) :
    mt.write L (some haver) = (writeTable L (mt.chunks.filter fun c => !f c.1)).map
      fun (bytes, name) => (name, bytes, (mt.chunks.filter fun c => !f c.1).length % 2 ^ 32) := by
  obtain ⟨rem, hrem⟩ := hhaver
  have hlen : mt.chunks.length ≠ 0 := fun h => hne (List.length_eq_zero_iff.mp h)
  have hcount : ((mt.order.map fun r => { r with has := r.has || f r.a }).filter
      fun r => !r.has).length = (mt.chunks.filter fun c => !f c.1).length := by
    rw [← kept_chunks mt f, List.length_map]
  simp only [write, guard, hlen, havg, if_true, ne_eq, not_false_eq_true, pure_bind, hrem,
    Option.bind_eq_bind, Option.bind_some]
  rw [sortBy_order_marked mt hL (fun r => { r with has := r.has || f r.a }) (fun _ => rfl),
    kept_chunks mt f, hcount, writeTable]
  cases newTableWriter.addChunks L (mt.chunks.filter fun c => !f c.1) <;> rfl

end Write

end MemTable

end Noms.Nbs
