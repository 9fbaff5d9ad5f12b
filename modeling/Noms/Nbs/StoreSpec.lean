import Noms.Nbs.Store
import Noms.Nbs.Compaction

/-!
# The store's operations, one at a time

What a single call of the store does, stated once per call so that the runs below never unfold
the code: `Put` on a store without a memtable starts one holding the chunk; `Flush` with finished
tables prepends the memtable's compaction; `GetMany` of one hash reads the request back from the
tables. For the tables' side of `GetMany`, `findOffsets_written_miss` is the request whose prefix
a table holds under another address: `findOffsets` locates nothing and reports nothing remaining,
so the table set does not ask the tables behind it.
-/

namespace Noms.Nbs

open Noms.Lib

/-! ## One table's `getMany` -/

section TableGetMany

variable {L : TableLib} (hL : L.Lawful)
include hL

/-- With nothing located, `getMany` reads nothing. -/
theorem TableReader.getMany_of_no_offsets {tr : TableReader} {reqs reqs' : List GetRecord}
    {rem : Bool} (h : tr.index.findOffsets reqs = some ([], rem, reqs')) :
    tr.getMany L reqs = some (reqs', rem) := by
  have hsort : L.sortBy OffsetRec.offset ([] : List OffsetRec) = [] :=
    List.Perm.nil_eq (hL.sortBy_perm _ _).symm |>.symm
  simp only [TableReader.getMany, h, hsort, Option.bind_eq_bind, Option.bind_some]
  rw [TableReader.batchReads]
  rfl

/-- A request for an address a written table lacks, under a prefix it holds: nothing is located
and nothing is reported remaining. -/
theorem findOffsets_written_miss {chunks : List (Addr × List UInt8)} (hfits : FitsFormat L chunks)
    {req : GetRecord} (hfound : req.found = false) (habsent : req.a ∉ chunks.map Prod.fst)
    {c : Addr × List UInt8} (hc : c ∈ chunks) (hp : c.1.Prefix = req.a.Prefix) :
    (tableIndexOf L chunks).findOffsets [req] = some ([], false, [req]) := by
  have hwf := wellFormed_tableIndexOf hL hfits
  have hnot : ¬ (tableIndexOf L chunks).Contains req.a := fun hcon =>
    habsent ((contains_tableIndexOf_iff hL).mp hcon)
  have hmem : req.Prefix ∈ (tableIndexOf L chunks).prefixes := by
    rw [req.prefix_eq, ← hp]
    exact TableIndex.mem_of_contains hwf
      ((contains_tableIndexOf_iff hL).mpr (List.mem_map_of_mem hc))
  obtain ⟨ors, heq, hiff, -⟩ := TableIndex.findOffsetsFrom_spec hwf (length_offsets_tableIndexOf chunks)
    [req] (List.pairwise_singleton _ _) 0 0 (fun k hk => absurd hk (Nat.not_lt_zero k)) (Nat.zero_le _)
  have hors : ors = [] := hiff.mpr fun r hr _ => by
    rw [List.mem_singleton.mp hr]
    exact hnot
  rw [TableIndex.findOffsets, heq, hors, List.map_singleton,
    TableIndex.markFound_of_not_contains hnot]
  simp [hfound, hmem]

end TableGetMany

namespace NomsBlockStore

variable {L : TableLib}

/-! ## `Put` -/

theorem addChunk_newMemTable {size : Nat} {h : Addr} {data : List UInt8} (hd : data ≠ [])
    (hle : data.length ≤ size) :
    ∃ mt, (MemTable.newMemTable size).addChunk h data = some (true, mt) ∧
      mt.chunks = [(h, data)] ∧ mt.totalData = data.length := by
  have hlen : ¬ data.length = 0 := fun h0 => hd (List.length_eq_zero_iff.mp h0)
  unfold MemTable.addChunk
  rw [dif_neg hlen, dif_neg (by simp [MemTable.newMemTable]),
    dif_neg (by simp only [MemTable.newMemTable]; omega)]
  exact ⟨_, rfl, rfl, by simp [MemTable.newMemTable]⟩

/-- `Put` on a store without a memtable starts one that holds the chunk. -/
theorem Put_of_no_mt {s : NomsBlockStore} (hmt : s.mt = none) {c : Chunk} (hd : c.data ≠ [])
    (hle : c.data.length ≤ s.mtSize) :
    ∃ mt, s.Put c = some { s with mt := some mt, putCount := s.putCount + 1 } ∧
      mt.chunks = [(c.r, c.data)] ∧ mt.totalData = c.data.length := by
  obtain ⟨mt, hadd, hchunks, htotal⟩ := addChunk_newMemTable (h := c.r) hd hle
  refine ⟨mt, ?_, hchunks, htotal⟩
  simp [Put, addChunk, hmt, hadd, guard]

/-! ## `Flush` -/

/-- With every source finished, there is no compaction to wait for. -/
theorem finishCompactionsFrom_of_done {css : List ChunkSource}
    (hdone : ∀ cs ∈ css, ∀ mt, cs ≠ .compacting mt) : TableSet.finishCompactionsFrom L css = some css := by
  induction css with
  | nil => rfl
  | cons cs rest ih =>
    have ih' := ih fun cs' hcs' => hdone cs' (List.mem_cons_of_mem _ hcs')
    cases cs with
    | compacting mt => exact absurd rfl (hdone _ List.mem_cons_self mt)
    | table tr => simp [TableSet.finishCompactionsFrom, ih']
    | empty => simp [TableSet.finishCompactionsFrom, ih']

/-- `Flush` with a non-empty memtable and finished tables: the memtable's compaction goes in
front of the tables, and the store is left without a memtable. -/
theorem Flush_of_done {s : NomsBlockStore} {mt : MemTable} (hmt : s.mt = some mt)
    (hcount : mt.count ≠ 0) (hdone : ∀ cs ∈ s.tables.chunkSources, ∀ mt', cs ≠ .compacting mt')
    {cs : ChunkSource} (hcs : Compact L mt s.tables.chunkSources = some cs) :
    s.Flush L = some { s with mt := none, tables := ⟨cs :: s.tables.chunkSources⟩ } := by
  have hpos : mt.count > 0 := Nat.pos_of_ne_zero hcount
  simp only [Flush, UpdateRoot, hmt, hpos, if_true, guard, TableSet.finishCompactions,
    TableSet.Prepend, TableSet.finishCompactionsFrom, hcount, ne_eq, not_false_eq_true, hcs,
    finishCompactionsFrom_of_done hdone, Option.bind_eq_bind, Option.bind_some, Option.map_some,
    pure_bind]
  rfl

/-! ## `Get` and `GetMany` from the tables -/

theorem Get_of_no_mt {s : NomsBlockStore} (hmt : s.mt = none) (h : Addr) :
    s.Get L h = ChunkSources.get L s.tables.chunkSources h := by
  simp [Get, hmt]

/-- `GetMany` of one hash on a store without a memtable asks the tables, and answers with what
they leave in the request. -/
theorem GetMany_single_of_no_mt (hL : L.Lawful) {s : NomsBlockStore} (hmt : s.mt = none)
    (h : Addr) {r : GetRecord} {rem : Bool}
    (hget : ChunkSources.getMany L s.tables.chunkSources (toGetRecords [h]) = some ([r], rem)) :
    s.GetMany L [h] = some [r.data] := by
  have hsort : ∀ {α : Type} (key : α → Nat) (x : α), L.sortBy key [x] = [x] :=
    fun key x => List.perm_singleton.mp (hL.sortBy_perm key [x])
  have hreqs : toGetRecords [h] = [⟨h, h.Prefix, 0, false, none, rfl⟩] := rfl
  simp only [GetMany, hmt, hreqs, hsort, if_true] at hget ⊢
  simp [hget, hsort]

end NomsBlockStore

end Noms.Nbs
