import Noms.Nbs.StoreSpec
import Mathlib

/-!
# What a flushed store shows of the chunks put into it

A store at rest (`Settled`) has no memtable and no compaction pending, and each of its sources
holds a list of chunks, no address twice across them. `Get`, `Has` and `Count` of such a store are
then lookups in the concatenation of the lists, newest first, and `Put` followed by `Flush` keeps
the store at rest, writing the chunk to a table of its own unless an older table holds it
(`Settled.put_flush`).

`GetMany` does not follow `Get` there. A table's `findOffsets` reports a request as remaining only
when the table lacks the request's prefix, and `chunkSources.getMany` stops at the first table that
reports nothing remaining. A chunk written to an older table is therefore missed by `GetMany` as
soon as a newer table holds another chunk with the same 8-byte prefix, while `Get` finds it
(`getMany_misses_shared_prefix`).
-/

namespace Noms.Nbs

open Noms.Lib

variable {L : TableLib}

/-- A store at rest, answering as `contents`: no memtable, no compaction pending, every source
holding its list, and no address in two places. -/
structure Settled (L : TableLib) (s : NomsBlockStore) (contents : List (List (Addr × List UInt8))) :
    Prop where
  mt_none : s.mt = none
  done : ∀ cs ∈ s.tables.chunkSources, ∀ mt, cs ≠ .compacting mt
  holds : List.Forall₂ (ChunkSource.Holds L) s.tables.chunkSources contents
  nodup : (contents.flatten.map Prod.fst).Nodup

theorem settled_newNomsBlockStore (memTableSize : Nat) :
    Settled L (NomsBlockStore.newNomsBlockStore memTableSize) [] where
  mt_none := rfl
  done := fun _ h => absurd h List.not_mem_nil
  holds := List.Forall₂.nil
  nodup := List.nodup_nil

namespace Settled

variable {s : NomsBlockStore} {contents : List (List (Addr × List UInt8))}

theorem Get (hs : Settled L s contents) (hL : L.Lawful) (h : Addr) :
    s.Get L h = some (contents.flatten.lookup h) := by
  rw [NomsBlockStore.Get_of_no_mt hs.mt_none, ChunkSources.get_of_holds hL hs.holds]

theorem Has (hs : Settled L s contents) (hL : L.Lawful) (h : Addr) :
    s.Has h = some (decide (h ∈ contents.flatten.map Prod.fst)) := by
  simp only [NomsBlockStore.Has, hs.mt_none, Option.map_none, Option.getD_none, Bool.false_eq_true,
    if_false, ChunkSources.has_of_holds hL hs.holds]

/-- At rest, `Count` is the number of distinct chunks the store holds, as a `uint32`. -/
theorem Count (hs : Settled L s contents) :
    s.Count = (contents.flatten.map Prod.fst).length % 2 ^ 32 := by
  have hsum : (contents.map List.length).sum = (contents.flatten.map Prod.fst).length := by
    rw [List.length_map, List.length_flatten]
  simp only [NomsBlockStore.Count, hs.mt_none, Option.map_none, Option.getD_none, Nat.zero_add,
    ChunkSources.count_of_holds hs.holds, Nat.mod_mod, hsum]

/-- The chunk `c` unless `contents` already holds its address. -/
def keptChunk (c : Chunk) (contents : List (List (Addr × List UInt8))) : List (Addr × List UInt8) :=
  [(c.r, c.data)].filter fun p => !decide (p.1 ∈ contents.flatten.map Prod.fst)

theorem keptChunk_of_not_mem {c : Chunk} (hc : c.r ∉ contents.flatten.map Prod.fst) :
    keptChunk c contents = [(c.r, c.data)] := by
  simp only [keptChunk, List.filter_singleton, decide_eq_false hc, Bool.not_false, cond_true]

/-- `Put` then `Flush` keeps a store at rest: the chunk goes into a table of its own in front of
the others, unless an older table holds its address. -/
theorem put_flush (hs : Settled L s contents) (hL : L.Lawful) {c : Chunk}
    (hfits : FitsFormat L [(c.r, c.data)]) (hle : c.data.length ≤ s.mtSize)
    (hmax : c.data.length < maxChunkSize) :
    ∃ s', (s.Put c).bind (·.Flush L) = some s' ∧ s'.mtSize = s.mtSize ∧
      s'.tables.chunkSources = compacted L (keptChunk c contents) :: s.tables.chunkSources ∧
      Settled L s' (keptChunk c contents :: contents) := by
  obtain ⟨mt, hput, hchunks, htotal⟩ :=
    NomsBlockStore.Put_of_no_mt hs.mt_none (hfits.data_ne _ List.mem_cons_self) hle
  have hfits' : FitsFormat L mt.chunks := hchunks ▸ hfits
  have hne : mt.chunks ≠ [] := by simp [hchunks]
  have havg : mt.totalData / mt.chunks.length < maxChunkSize := by
    simpa [hchunks, htotal] using hmax
  have hcount : mt.count ≠ 0 := by simp [MemTable.count, hchunks]
  have hkept : keptChunks mt contents.flatten = keptChunk c contents := by
    rw [keptChunks, hchunks, keptChunk]
  have hcs := compact_eq hL hfits' hne havg hs.holds
  have hmt : ({ s with mt := some mt, putCount := s.putCount + 1 } : NomsBlockStore).mt = some mt :=
    rfl
  have hflush := NomsBlockStore.Flush_of_done hmt hcount hs.done hcs
  rw [hput, Option.bind_some, hflush, hkept]
  refine ⟨_, rfl, rfl, rfl, ⟨rfl, ?_, ?_, ?_⟩⟩
  · -- the new source is a table or the empty source, the others were already done
    intro cs hcs' mt'
    rcases List.mem_cons.mp hcs' with rfl | hold
    · unfold compacted
      split <;> simp
    · exact hs.done cs hold mt'
  · exact .cons (hkept ▸ compacted_holds hfits' _) hs.holds
  · -- the kept chunk is new to the older sources
    rw [List.flatten_cons, List.map_append, List.nodup_append]
    refine ⟨(List.filter_sublist.map Prod.fst).nodup (by simp), hs.nodup, ?_⟩
    intro a ha b hb hab
    subst hab
    obtain ⟨p, hp, rfl⟩ := List.mem_map.mp ha
    simp only [keptChunk, List.mem_filter, Bool.not_eq_eq_eq_not, Bool.not_true,
      decide_eq_false_iff_not] at hp
    exact hp.2 hb

end Settled

/-! ## `GetMany` misses what `Get` finds -/

/-- A table written from chunks that share `h`'s prefix but lack `h` ends the table set's
`getMany` of `h`, unfound. -/
theorem ChunkSources.getMany_written_miss (hL : L.Lawful) {chunks : List (Addr × List UInt8)}
    (hfits : FitsFormat L chunks) {h : Addr} (habsent : h ∉ chunks.map Prod.fst)
    {c : Addr × List UInt8} (hc : c ∈ chunks) (hp : c.1.Prefix = h.Prefix) (rest : List ChunkSource) :
    ChunkSources.getMany L (.table (writtenReader L chunks) :: rest) (toGetRecords [h]) =
      some (toGetRecords [h], false) := by
  let req : GetRecord := ⟨h, h.Prefix, 0, false, none, rfl⟩
  have hmiss : (writtenReader L chunks).index.findOffsets [req] = some ([], false, [req]) :=
    findOffsets_written_miss hL hfits rfl habsent hc hp
  rw [show toGetRecords [h] = [req] from rfl, ChunkSources.getMany, ChunkSource.getMany,
    TableReader.getMany_of_no_offsets hL hmiss]
  rfl

/-- Put a chunk and flush, then put another chunk with the same prefix and flush: `Get` finds the
first chunk, and `GetMany` of its hash does not. -/
theorem getMany_misses_shared_prefix (hL : L.Lawful) {older newer : Chunk} (hr : older.r ≠ newer.r)
    (hp : older.r.Prefix = newer.r.Prefix)
    (hfo : FitsFormat L [(older.r, older.data)]) (hfn : FitsFormat L [(newer.r, newer.data)])
    (hlo : older.data.length ≤ defaultMemTableSize) (hln : newer.data.length ≤ defaultMemTableSize) :
    ∃ s, ((((NomsBlockStore.newNomsBlockStore 0).Put older).bind (·.Flush L)).bind
        (·.Put newer)).bind (·.Flush L) = some s ∧
      s.Get L older.r = some (some older.data) ∧ s.GetMany L [older.r] = some [none] := by
  have hmax : defaultMemTableSize < maxChunkSize := by decide
  obtain ⟨s1, h1, hsz1, -, hs1⟩ := (settled_newNomsBlockStore (L := L) 0).put_flush hL hfo hlo
    (Nat.lt_of_le_of_lt hlo hmax)
  have hk1 : Settled.keptChunk older [] = [(older.r, older.data)] :=
    Settled.keptChunk_of_not_mem (by simp)
  have hnew : newer.r ∉ ([Settled.keptChunk older []].flatten).map Prod.fst := by
    simp [hk1, Ne.symm hr]
  obtain ⟨s2, h2, -, htab2, hs2⟩ := hs1.put_flush hL hfn (by rw [hsz1]; exact hln)
    (Nat.lt_of_le_of_lt hln hmax)
  rw [Settled.keptChunk_of_not_mem hnew] at htab2 hs2
  refine ⟨s2, by rw [h1, Option.bind_some, h2], ?_, ?_⟩
  · have hbeq : (older.r == newer.r) = false := beq_false_of_ne hr
    rw [hs2.Get hL, hk1]
    simp [List.lookup, hbeq]
  · have htable : compacted L [(newer.r, newer.data)] = .table (writtenReader L [(newer.r, newer.data)]) :=
      if_neg (List.cons_ne_nil _ _)
    have hmiss := ChunkSources.getMany_written_miss hL hfn (h := older.r) (by simp [hr])
      List.mem_cons_self hp.symm s1.tables.chunkSources
    rw [← htable, ← htab2] at hmiss
    exact NomsBlockStore.GetMany_single_of_no_mt hL hs2.mt_none older.r hmiss

/-- Two chunks whose addresses differ only in their last byte. -/
def sharedPrefixOlder : Chunk := ⟨⟨List.replicate 19 0 ++ [2], by decide⟩, [2, 2]⟩
def sharedPrefixNewer : Chunk := ⟨⟨List.replicate 19 0 ++ [1], by decide⟩, [1]⟩

theorem getMany_misses_sharedPrefixOlder :
    ∃ s, ((((NomsBlockStore.newNomsBlockStore 0).Put sharedPrefixOlder).bind
        (·.Flush TableLib.plain)).bind (·.Put sharedPrefixNewer)).bind (·.Flush TableLib.plain) =
          some s ∧
      s.Get TableLib.plain sharedPrefixOlder.r = some (some [2, 2]) ∧
      s.GetMany TableLib.plain [sharedPrefixOlder.r] = some [none] :=
  getMany_misses_shared_prefix TableLib.plain_lawful (by decide) (by decide)
    ⟨by decide, by decide, by decide⟩ ⟨by decide, by decide, by decide⟩ (by decide) (by decide)

end Noms.Nbs
