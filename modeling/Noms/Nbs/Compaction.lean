import Noms.Nbs.TableSet
import Noms.Nbs.BatchLookup
import Noms.Nbs.TableRoundTrip

/-!
# What a chunk source holds, and what compaction makes of a memtable

Every chunk source of a table set answers as a list of chunks with distinct addresses
(`ChunkSource.Holds`): a source still compacting through its memtable, a table written from the
chunks and opened as `Compact` opens it, or the empty source. From the round trip of tables,
`get`, `has`, `hasMany` and `count` of a source are then lookups in that list, and those of a whole
table set are lookups in the concatenation of the lists, newest first
(`ChunkSources.get_of_holds` and the lemmas after it).

`compact_holds` is the compaction step: `Compact` writes the memtable's chunks that no source
behind it holds, and the source it returns holds exactly those.
-/

namespace Noms.Nbs

open Noms.Lib

/-! ## Written tables, opened as the file persister opens them -/

section Opened

variable {L : TableLib}

/-- The reader `Compact` opens on the table written from `chunks`. -/
def writtenReader (L : TableLib) (chunks : List (Addr × List UInt8)) : TableReader :=
  newTableReader (tableIndexOf L chunks) (tableLayout L chunks) fileBlockSize fileMaxReadSize
    fileReadAmpThresh

theorem length_indexSection (hL : L.Lawful) (chunks : List (Addr × List UInt8)) :
    (indexSection L chunks).length = indexSize chunks.length + footerSize := by
  have hSZ : ((indexRecs L 0 chunks).map fun r => beBytes 4 r.size).flatten.length =
      chunks.length * lengthSize := by
    rw [length_flatten_uniform (k := lengthSize) (by simp [lengthSize, uint32Size]),
      List.length_map, length_indexRecs]
  simp only [indexSection, List.length_append, length_flatten_tuplePieces,
    length_sortBy_indexRecs hL, hSZ, length_suffixes_indexRecs, footerPieces, List.flatten_cons,
    List.flatten_nil, List.append_nil, length_beBytes, indexSize, footerSize, magicNumberSize,
    magicNumber, List.length_cons, List.length_nil, prefixTupleSize, lengthSize, addrSuffixSize,
    addrPrefixSize, ordinalSize, addrSize, uint32Size, uint64Size]
  ring

/-- `newMmapTableReader` finds the index of a written table where the writer put it. -/
theorem newMmapTableReader_layout (hL : L.Lawful) {chunks : List (Addr × List UInt8)}
    (hfits : FitsFormat L chunks) (hne : chunks ≠ []) :
    newMmapTableReader (tableLayout L chunks) chunks.length = some (writtenReader L chunks) := by
  have hlen : (tableLayout L chunks).length =
      (dataSection L chunks).length + (indexSize chunks.length + footerSize) := by
    rw [tableLayout_eq, List.length_append, length_indexSection hL]
  have hoff : (tableLayout L chunks).length - footerSize - indexSize chunks.length =
      (dataSection L chunks).length := by omega
  have hdrop : (tableLayout L chunks).drop (dataSection L chunks).length = [] ++ indexSection L chunks := by
    rw [tableLayout_eq, List.drop_left, List.nil_append]
  have hcount : (tableIndexOf L chunks).chunkCount = chunks.length := rfl
  simp only [newMmapTableReader, guard, hlen, show footerSize + indexSize chunks.length ≤
      (dataSection L chunks).length + (indexSize chunks.length + footerSize) by omega, if_true,
    pure_bind, Option.bind_eq_bind]
  rw [← hlen, hoff, hdrop, parse_indexSection hL hfits hne, Option.bind_some, hcount, if_pos rfl]
  rfl

theorem contains_tableIndexOf_iff (hL : L.Lawful) {chunks : List (Addr × List UInt8)} {h : Addr} :
    (tableIndexOf L chunks).Contains h ↔ h ∈ chunks.map Prod.fst := by
  rw [TableIndex.contains_iff_stores]
  constructor
  · rintro ⟨o, hs⟩
    obtain ⟨ho, rfl⟩ := (stores_tableIndexOf_iff hL).mp hs
    exact List.mem_map.mpr ⟨_, List.getElem_mem ho, rfl⟩
  · intro hm
    obtain ⟨c, hc, rfl⟩ := List.mem_map.mp hm
    obtain ⟨o, ho, rfl⟩ := List.getElem_of_mem hc
    exact ⟨o, (stores_tableIndexOf_iff hL).mpr ⟨ho, rfl⟩⟩

theorem length_offsets_tableIndexOf (chunks : List (Addr × List UInt8)) :
    (tableIndexOf L chunks).offsets.length = (tableIndexOf L chunks).chunkCount := by
  simp [tableIndexOf, recordSizes]

end Opened

/-! ## Sources as lists of chunks -/

/-- `mark f` sets `has` on a record whose address `f` holds. -/
def HasRecord.mark (f : Addr → Bool) (r : HasRecord) : HasRecord :=
  { r with has := r.has || f r.a }

namespace HasRecord

@[simp] theorem mark_a (f : Addr → Bool) (r : HasRecord) : (r.mark f).a = r.a := rfl

@[simp] theorem mark_Prefix (f : Addr → Bool) (r : HasRecord) : (r.mark f).Prefix = r.Prefix := rfl

@[simp] theorem mark_has (f : Addr → Bool) (r : HasRecord) : (r.mark f).has = (r.has || f r.a) :=
  rfl

theorem mark_mark (f g : Addr → Bool) (r : HasRecord) :
    (r.mark f).mark g = r.mark fun a => f a || g a := by
  simp [mark, Bool.or_assoc]

theorem mark_of_has {f : Addr → Bool} {r : HasRecord} (h : r.has = true) : r.mark f = r := by
  cases r
  simp_all [mark]

end HasRecord

/-- A source answers as `chunks`, whose addresses are distinct: a compacting source through its
memtable, a table written from `chunks` and opened by `Compact`, or the empty source. -/
inductive ChunkSource.Holds (L : TableLib) : ChunkSource → List (Addr × List UInt8) → Prop
  | compacting (mt : MemTable) : Holds L (.compacting mt) mt.chunks
  | table {chunks : List (Addr × List UInt8)} (hfits : FitsFormat L chunks) (hne : chunks ≠ [])
      (hnodup : (chunks.map Prod.fst).Nodup) : Holds L (.table (writtenReader L chunks)) chunks
  | empty : Holds L .empty []

namespace ChunkSource

variable {L : TableLib} (hL : L.Lawful) {cs : ChunkSource} {chunks : List (Addr × List UInt8)}
include hL

omit hL in
theorem Holds.nodup (hh : cs.Holds L chunks) : (chunks.map Prod.fst).Nodup := by
  cases hh with
  | compacting mt => exact mt.nodup
  | table _ _ hnodup => exact hnodup
  | empty => exact List.nodup_nil

theorem Holds.get (hh : cs.Holds L chunks) (h : Addr) : cs.get L h = some (chunks.lookup h) := by
  cases hh with
  | compacting mt => rfl
  | table hfits hne hnodup =>
    by_cases hm : h ∈ chunks.map Prod.fst
    · obtain ⟨c, hc, rfl⟩ := List.mem_map.mp hm
      obtain ⟨o, ho, rfl⟩ := List.getElem_of_mem hc
      have hl : chunks.lookup chunks[o].1 = some chunks[o].2 :=
        (lookup_eq_some_iff_mem hnodup).mpr (List.getElem_mem ho)
      rw [ChunkSource.get, writtenReader, get_written hL hfits _ _ _ hnodup ho, hl]
    · rw [ChunkSource.get, writtenReader, get_absent hL hfits _ _ _ hm,
        lookup_eq_none_iff_not_mem.mpr hm]
  | empty => rfl

theorem Holds.has (hh : cs.Holds L chunks) (h : Addr) :
    cs.has h = some (decide (h ∈ chunks.map Prod.fst)) := by
  cases hh with
  | compacting mt =>
    rw [ChunkSource.has]
    exact congrArg some (Bool.eq_iff_iff.mpr ((MemTable.has_iff mt).trans decide_eq_true_iff.symm))
  | table hfits hne hnodup =>
    by_cases hm : h ∈ chunks.map Prod.fst
    · obtain ⟨c, hc, rfl⟩ := List.mem_map.mp hm
      obtain ⟨o, ho, rfl⟩ := List.getElem_of_mem hc
      rw [ChunkSource.has, writtenReader, has_written hL hfits _ _ _ ho, decide_eq_true hm]
    · rw [ChunkSource.has, writtenReader, has_absent hL hfits _ _ _ hm, decide_eq_false hm]
  | empty => rfl

/-- A source marks the records it holds; when it reports nothing remaining, every record is
marked. -/
theorem Holds.hasMany (hh : cs.Holds L chunks) (addrs : List HasRecord)
    (hsorted : addrs.Pairwise fun r r' => r.Prefix ≤ r'.Prefix) :
    ∃ rem, cs.hasMany addrs =
        some (addrs.map (HasRecord.mark fun a => decide (a ∈ chunks.map Prod.fst)), rem) ∧
      (rem = false → ∀ r ∈ addrs, (r.mark fun a => decide (a ∈ chunks.map Prod.fst)).has = true) := by
  cases hh with
  | compacting mt =>
    have hmark : (HasRecord.mark fun a => decide (a ∈ mt.chunks.map Prod.fst)) =
        fun r => { r with has := r.has || mt.has r.a } := by
      funext r
      simp only [HasRecord.mark]
      congr 2
      exact Bool.eq_iff_iff.mpr (decide_eq_true_iff.trans (MemTable.has_iff mt).symm)
    refine ⟨_, by rw [ChunkSource.hasMany, MemTable.hasMany_eq, hmark], fun hrem r hr => ?_⟩
    rw [hmark]
    have := List.any_eq_false.mp hrem r hr
    cases hrh : r.has <;> cases hmh : mt.has r.a <;> simp_all
  | table hfits hne hnodup =>
    have hwf := wellFormed_tableIndexOf hL hfits
    have hmark : (tableIndexOf L chunks).markHas =
        HasRecord.mark fun a => decide (a ∈ chunks.map Prod.fst) := by
      funext r
      simp only [TableIndex.markHas, HasRecord.mark]
      congr 2
      simp only [contains_tableIndexOf_iff hL]
    have hspec := TableIndex.hasManyFrom_spec hwf addrs hsorted 0
      (fun k hk => absurd hk (Nat.not_lt_zero k)) (Nat.zero_le _)
    rw [hmark] at hspec
    refine ⟨_, by rw [ChunkSource.hasMany, TableReader.hasMany]; exact hspec, fun hrem r hr => ?_⟩
    have := List.any_eq_false.mp hrem _ (List.mem_map_of_mem hr)
    cases hrh : r.has <;> simp_all
  | empty =>
    refine ⟨true, ?_, fun h => absurd h (by decide)⟩
    have hid : ∀ r ∈ addrs,
        r.mark (fun a => decide (a ∈ ([] : List (Addr × List UInt8)).map Prod.fst)) = r := by
      intro r _
      cases r
      simp [HasRecord.mark]
    rw [ChunkSource.hasMany, List.map_congr_left hid, List.map_id']

omit hL in
theorem Holds.count (hh : cs.Holds L chunks) : cs.count = chunks.length % 2 ^ 32 := by
  cases hh with
  | compacting mt => rfl
  | table hfits _ _ => exact (Nat.mod_eq_of_lt hfits.count_lt).symm
  | empty => rfl

end ChunkSource

/-! ## Table sets as the concatenation of their sources' chunks -/

namespace ChunkSources

variable {L : TableLib} (hL : L.Lawful) {css : List ChunkSource}
  {contents : List (List (Addr × List UInt8))} (hh : List.Forall₂ (ChunkSource.Holds L) css contents)
include hL hh

/-- `get` answers from the newest source that has the chunk: the first pair of the
concatenation. -/
theorem get_of_holds (h : Addr) : get L css h = some (contents.flatten.lookup h) := by
  induction hh with
  | nil => rfl
  | cons hcs _ ih =>
    rw [get, hcs.get hL h, List.flatten_cons, List.lookup_append]
    simp only [Option.bind_eq_bind, Option.bind_some]
    cases h' : List.lookup h _ with
    | some data => rfl
    | none => exact ih

theorem has_of_holds (h : Addr) :
    has css h = some (decide (h ∈ contents.flatten.map Prod.fst)) := by
  induction hh with
  | nil => rfl
  | @cons cs chunks css rest hcs _ ih =>
    rw [has, hcs.has hL h, List.flatten_cons, List.map_append]
    simp only [Option.bind_eq_bind, Option.bind_some]
    by_cases hm : h ∈ chunks.map Prod.fst
    · simp [hm]
    · simp only [hm, decide_false, Bool.false_eq_true, if_false, ih, List.mem_append, false_or]

/-- `hasMany` marks every record whose chunk some source holds; when it reports nothing
remaining, every record is marked. -/
theorem hasMany_of_holds (addrs : List HasRecord)
    (hsorted : addrs.Pairwise fun r r' => r.Prefix ≤ r'.Prefix) :
    ∃ rem, hasMany css addrs =
        some (addrs.map (HasRecord.mark fun a => decide (a ∈ contents.flatten.map Prod.fst)), rem) ∧
      (rem = false → ∀ r ∈ addrs,
        (r.mark fun a => decide (a ∈ contents.flatten.map Prod.fst)).has = true) := by
  induction hh generalizing addrs with
  | nil =>
    refine ⟨true, ?_, fun h => absurd h (by decide)⟩
    have hid : ∀ r ∈ addrs, r.mark (fun a => decide (a ∈ ([] : List (List (Addr × List UInt8))).flatten.map Prod.fst)) = r := by
      intro r _
      cases r
      simp [HasRecord.mark]
    rw [hasMany, List.map_congr_left hid, List.map_id']
  | @cons cs chunks css rest hcs _ ih =>
    obtain ⟨rem, hrem, hall⟩ := hcs.hasMany hL addrs hsorted
    -- marking by the first source, then by the rest, is marking by the union
    have hunion : ∀ r : HasRecord,
        ((r.mark fun a => decide (a ∈ chunks.map Prod.fst)).mark
          fun a => decide (a ∈ rest.flatten.map Prod.fst)) =
        r.mark fun a => decide (a ∈ (chunks :: rest).flatten.map Prod.fst) := by
      intro r
      rw [HasRecord.mark_mark]
      congr 1
      funext a
      simp only [List.flatten_cons, List.map_append, List.mem_append, Bool.decide_or]
    rw [hasMany, hrem]
    simp only [Option.bind_eq_bind, Option.bind_some]
    cases rem with
    | false =>
      refine ⟨false, ?_, fun _ r hr => ?_⟩
      · rw [if_pos (show (!false) = true from rfl)]
        congr 2
        refine List.map_congr_left fun r hr => ?_
        rw [← hunion, HasRecord.mark_of_has (hall rfl r hr)]
      · rw [← hunion, HasRecord.mark_of_has (hall rfl r hr)]
        exact hall rfl r hr
    | true =>
      have hsorted' : (addrs.map (HasRecord.mark fun a => decide (a ∈ chunks.map Prod.fst))).Pairwise
          fun r r' => r.Prefix ≤ r'.Prefix := List.pairwise_map.mpr (by simpa using hsorted)
      obtain ⟨rem', hrem', hall'⟩ := ih _ hsorted'
      refine ⟨rem', ?_, fun h r hr => ?_⟩
      · rw [if_neg (by decide), hrem', List.map_map]
        congr 2
        exact List.map_congr_left fun r _ => hunion r
      · rw [← hunion]
        exact hall' h _ (List.mem_map_of_mem hr)

omit hL in
theorem count_of_holds : count css = (contents.map List.length).sum % 2 ^ 32 := by
  have hmap : css.map ChunkSource.count = contents.map fun c => c.length % 2 ^ 32 := by
    induction hh with
    | nil => rfl
    | cons hcs _ ih => rw [List.map_cons, List.map_cons, hcs.count, ih]
  rw [count, hmap]
  clear hmap hh
  induction contents with
  | nil => rfl
  | cons c rest ih =>
    rw [List.map_cons, List.sum_cons, List.map_cons, List.sum_cons]
    conv_lhs => rw [Nat.add_mod]
    rw [ih, Nat.mod_mod, ← Nat.add_mod]

end ChunkSources

/-! ## The compaction -/

/-- The chunks of `mt` that `held` does not hold. -/
def keptChunks (mt : MemTable) (held : List (Addr × List UInt8)) : List (Addr × List UInt8) :=
  mt.chunks.filter fun c => !decide (c.1 ∈ held.map Prod.fst)

/-- The source a compaction leaves: the table written from `chunks`, or the empty source. -/
def compacted (L : TableLib) (chunks : List (Addr × List UInt8)) : ChunkSource :=
  if chunks = [] then .empty else .table (writtenReader L chunks)

section Compact

variable {L : TableLib} (hL : L.Lawful) {mt : MemTable} (hfits : FitsFormat L mt.chunks)
include hL hfits

omit hL in
theorem compacted_holds (held : List (Addr × List UInt8)) :
    (compacted L (keptChunks mt held)).Holds L (keptChunks mt held) := by
  have hfk : FitsFormat L (keptChunks mt held) := hfits.sublist List.filter_sublist
  have hnodup : ((keptChunks mt held).map Prod.fst).Nodup :=
    mt.nodup.sublist (List.filter_sublist.map Prod.fst)
  unfold compacted
  split
  · rename_i hk
    exact hk ▸ .empty
  · rename_i hk
    exact .table hfk hk hnodup

variable (hne : mt.chunks ≠ []) (havg : mt.totalData / mt.chunks.length < maxChunkSize)
  {haver : List ChunkSource} {contents : List (List (Addr × List UInt8))}
  (hh : List.Forall₂ (ChunkSource.Holds L) haver contents)
include hne havg hh

/-- `Compact` writes the memtable's chunks that no source behind it holds, and opens the table, or
gives the empty source when there are none. -/
theorem compact_eq : Compact L mt haver = some (compacted L (keptChunks mt contents.flatten)) := by
  obtain ⟨rem, hrem, -⟩ := ChunkSources.hasMany_of_holds hL hh (L.sortBy HasRecord.Prefix mt.order)
    (hL.sortBy_sorted _ _)
  have hwrite := MemTable.write_eq mt hL hne havg (ChunkSources.hasMany haver)
    (fun a => decide (a ∈ contents.flatten.map Prod.fst)) ⟨rem, hrem⟩
  have hfk : FitsFormat L (keptChunks mt contents.flatten) := hfits.sublist List.filter_sublist
  obtain ⟨name, htable⟩ := writeTable_eq hL hfk
  rw [Compact, hwrite, show (mt.chunks.filter fun c => !(fun a => decide (a ∈ contents.flatten.map
    Prod.fst)) c.1) = keptChunks mt contents.flatten from rfl, htable]
  simp only [Option.map_some, Option.bind_eq_bind, Option.bind_some, Nat.mod_eq_of_lt hfk.count_lt,
    compacted]
  by_cases hk : keptChunks mt contents.flatten = []
  · rw [if_pos (by rw [hk, List.length_nil]), if_pos hk]
  · rw [if_neg (fun h => hk (List.length_eq_zero_iff.mp h)), if_neg hk,
      newMmapTableReader_layout hL hfk hk]
    rfl

/-- The source `Compact` returns holds exactly the memtable's chunks that no source behind it
holds. -/
theorem compact_holds :
    ∃ cs, Compact L mt haver = some cs ∧ cs.Holds L (keptChunks mt contents.flatten) :=
  ⟨_, compact_eq hL hfits hne havg hh, compacted_holds hfits _⟩

end Compact

end Noms.Nbs
