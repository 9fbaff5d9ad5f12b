import Noms.Nbs.TableWriter
import Noms.Lib.Fields

/-!
# What the table writer lays out

`tableLayout` is the byte layout of a table as `table.go` documents it: the chunk records in
insertion order, the prefix tuples in the order the sort left them, the lengths and the suffixes
in insertion order, and the footer. `writeTable_eq` proves that the writer produces exactly this
layout, for tables of fewer than `2^32` chunks whose records are shorter than `2^32` bytes (the
`uint32` ordinals and lengths of the format do not wrap).

The proof follows the writer's buffer: `addChunks` leaves the records written end to end
(`addChunks_spec`); one pass of `writeIndex` performs four writes per record, and these are a
permutation of writing the tuples, the lengths and the suffixes end to end (`indexWrites_perm`),
since each length and suffix lands at its ordinal and the ordinals are `0, …, n-1`. All the
writes are to disjoint ranges, so their order does not matter (`Buffer.writeAll_perm`).
-/

namespace Noms.Nbs

open Noms.Lib Noms.Lib.Buffer

section Layout

variable (L : TableLib)

/-- The record of one chunk: its snappy encoding, then the big-endian CRC of the data. -/
def chunkRecord (data : List UInt8) : List UInt8 :=
  L.snappyEncode data ++ beBytes 4 (L.crc data).toNat

/-- The index entries of `chunks`, the first at ordinal `k`. -/
def indexRecs : Nat → List (Addr × List UInt8) → List PrefixIndexRec
  | _, [] => []
  | k, (h, data) :: cs => ⟨h.Prefix, h.suffix, k, (chunkRecord L data).length⟩ :: indexRecs (k + 1) cs

/-- The chunk records, end to end. -/
def dataSection (chunks : List (Addr × List UInt8)) : List UInt8 :=
  (chunks.map fun c => chunkRecord L c.2).flatten

/-- The total compressed size, the footer's "total chunk data". -/
def totalData (chunks : List (Addr × List UInt8)) : Nat :=
  (chunks.map fun c => (L.snappyEncode c.2).length).sum

/-- The prefix tuples of `rs`, in the order of `rs`. -/
def tuplePieces (rs : List PrefixIndexRec) : List (List UInt8) :=
  rs.flatMap fun r => [beBytes 8 r.Prefix, beBytes 4 r.order]

def footerPieces (count total : Nat) : List (List UInt8) :=
  [beBytes 4 count, beBytes 8 total, magicNumber]

/-- The documented layout of a table holding `chunks`. -/
def tableLayout (chunks : List (Addr × List UInt8)) : List UInt8 :=
  let recs := indexRecs L 0 chunks
  dataSection L chunks
    ++ (tuplePieces (L.sortBy PrefixIndexRec.Prefix recs)).flatten
    ++ (recs.map fun r => beBytes 4 r.size).flatten
    ++ (recs.map PrefixIndexRec.suffix).flatten
    ++ (footerPieces chunks.length (totalData L chunks)).flatten

/-- The index and the footer, which follow the chunk records. -/
def indexSection (chunks : List (Addr × List UInt8)) : List UInt8 :=
  let recs := indexRecs L 0 chunks
  (tuplePieces (L.sortBy PrefixIndexRec.Prefix recs)).flatten
    ++ (recs.map fun r => beBytes 4 r.size).flatten
    ++ (recs.map PrefixIndexRec.suffix).flatten
    ++ (footerPieces chunks.length (totalData L chunks)).flatten

theorem tableLayout_eq (chunks : List (Addr × List UInt8)) :
    tableLayout L chunks = dataSection L chunks ++ indexSection L chunks := by
  simp only [tableLayout, indexSection, List.append_assoc]

/-- The bounds of the format's `uint32` fields: the chunk count and every record length. -/
structure FitsFormat (chunks : List (Addr × List UInt8)) : Prop where
  count_lt : chunks.length < 2 ^ 32
  record_lt : ∀ c ∈ chunks, (chunkRecord L c.2).length < 2 ^ 32
  data_ne : ∀ c ∈ chunks, c.2 ≠ []

variable {L} in
theorem FitsFormat.sublist {chunks chunks' : List (Addr × List UInt8)} (hfits : FitsFormat L chunks)
    (hs : chunks'.Sublist chunks) : FitsFormat L chunks' where
  count_lt := Nat.lt_of_le_of_lt hs.length_le hfits.count_lt
  record_lt := fun c hc => hfits.record_lt c (hs.subset hc)
  data_ne := fun c hc => hfits.data_ne c (hs.subset hc)

end Layout

/-! ## The chunk records -/

section AddChunks

variable {L : TableLib}

@[simp] theorem length_indexRecs (k : Nat) (cs : List (Addr × List UInt8)) :
    (indexRecs L k cs).length = cs.length := by
  induction cs generalizing k with
  | nil => rfl
  | cons c cs ih => simp [indexRecs, ih]

theorem indexRecs_append (k : Nat) (as cs : List (Addr × List UInt8)) :
    indexRecs L k (as ++ cs) = indexRecs L k as ++ indexRecs L (k + as.length) cs := by
  induction as generalizing k with
  | nil => rfl
  | cons a as ih =>
    obtain ⟨h, d⟩ := a
    simp only [List.cons_append, indexRecs, ih, List.length_cons]
    congr 3
    omega

theorem length_chunkRecord (data : List UInt8) :
    (chunkRecord L data).length = (L.snappyEncode data).length + checksumSize := by
  simp [chunkRecord, checksumSize, uint32Size]

/-- What the writer holds after adding `done`: the records end to end, and their entries. -/
structure AddedChunks (L : TableLib) (tw : TableWriter) (done : List (Addr × List UInt8)) :
    Prop where
  buff_eq : tw.buff = Buffer.zero.write 0 (dataSection L done)
  pos_eq : tw.pos = (dataSection L done).length
  total_eq : tw.totalPhysicalData = totalData L done
  prefixes_eq : tw.prefixes = indexRecs L 0 done
  blockHash_eq : tw.blockHash = []

theorem addedChunks_new : AddedChunks L newTableWriter [] :=
  ⟨rfl, rfl, rfl, rfl, rfl⟩

theorem addChunk_spec {tw : TableWriter} {done : List (Addr × List UInt8)} {h : Addr}
    {data : List UInt8} (hw : AddedChunks L tw done) (hne : data ≠ [])
    (hcount : done.length < 2 ^ 32) (hrec : (chunkRecord L data).length < 2 ^ 32) :
    ∃ tw', tw.addChunk L h data = some tw' ∧ AddedChunks L tw' (done ++ [(h, data)]) := by
  have hlen : data.length ≠ 0 := by simpa using hne
  refine ⟨_, by rw [TableWriter.addChunk, if_neg hlen], ?_⟩
  have hrec' : checksumSize + (L.snappyEncode data).length < 2 ^ 32 := by
    rw [length_chunkRecord] at hrec
    omega
  constructor
  · dsimp only
    rw [hw.buff_eq, hw.pos_eq, ← write_append]
    simp [dataSection, chunkRecord, write_append]
  · simp [hw.pos_eq, dataSection, chunkRecord, checksumSize, uint32Size, Nat.add_assoc]
  · simp [hw.total_eq, totalData]
  · rw [hw.prefixes_eq, indexRecs_append, length_indexRecs, Nat.mod_eq_of_lt hcount,
      Nat.mod_eq_of_lt hrec']
    simp [indexRecs, length_chunkRecord, Nat.add_comm]
  · exact hw.blockHash_eq

theorem addChunks_spec {tw : TableWriter} {done : List (Addr × List UInt8)}
    (rest : List (Addr × List UInt8)) (hw : AddedChunks L tw done)
    (hfits : FitsFormat L (done ++ rest)) :
    ∃ tw', tw.addChunks L rest = some tw' ∧ AddedChunks L tw' (done ++ rest) := by
  induction rest generalizing tw done with
  | nil => exact ⟨tw, rfl, by simpa using hw⟩
  | cons c rest ih =>
    obtain ⟨h, data⟩ := c
    have hmem : (h, data) ∈ done ++ (h, data) :: rest := by simp
    have hcount : done.length < 2 ^ 32 := by
      have := hfits.count_lt
      simp only [List.length_append, List.length_cons] at this
      omega
    obtain ⟨tw₁, h₁, hw₁⟩ := addChunk_spec (h := h) hw (hfits.data_ne _ hmem) hcount
      (hfits.record_lt _ hmem)
    obtain ⟨tw₂, h₂, hw₂⟩ := ih hw₁ (by simpa using hfits)
    refine ⟨tw₂, ?_, by simpa using hw₂⟩
    simp [TableWriter.addChunks, h₁, h₂]

end AddChunks

/-! ## The index pass -/

section Index

variable {L : TableLib}

/-- The writes of the index loop over `rs`, the first tuple at `p`. -/
def indexWrites (lo so : Nat) : Nat → List PrefixIndexRec → List (Nat × List UInt8)
  | _, [] => []
  | p, r :: rs =>
    (p, beBytes 8 r.Prefix) :: (p + addrPrefixSize, beBytes 4 r.order) ::
      (lo + r.order * lengthSize, beBytes 4 r.size) ::
      (so + r.order * addrSuffixSize, r.suffix) :: indexWrites lo so (p + prefixTupleSize) rs

theorem foldl_writeIndexRec (lo so : Nat) (rs : List PrefixIndexRec) (buf : Buffer) (p : Nat)
    (hashed : List UInt8) :
    rs.foldl (writeIndexRec lo so) (buf, p, hashed) =
      (buf.writeAll (indexWrites lo so p rs), p + rs.length * prefixTupleSize,
        hashed ++ (rs.map fun r => beBytes 8 r.Prefix ++ r.suffix).flatten) := by
  induction rs generalizing buf p hashed with
  | nil => simp [indexWrites]
  | cons r rs ih =>
    have hp : p + addrPrefixSize + ordinalSize = p + prefixTupleSize := by
      simp only [prefixTupleSize]
      omega
    simp only [List.foldl_cons, writeIndexRec, hp, ih, indexWrites, writeAll_cons, List.length_cons,
      List.map_cons, List.flatten_cons, List.append_assoc, Prod.mk.injEq, true_and]
    exact ⟨by ring, trivial⟩

private theorem perm_regroup {α : Type} (a b c d : α) {W T Ls Ss : List α}
    (h : W.Perm (T ++ Ls ++ Ss)) :
    (a :: b :: c :: d :: W).Perm (a :: b :: (T ++ c :: Ls ++ d :: Ss)) := by
  refine ((((h.cons d).cons c).cons b).cons a).trans ?_
  refine ((?_ : List.Perm _ _).cons b).cons a
  have h₁ : (T ++ c :: Ls ++ d :: Ss).Perm (d :: (T ++ c :: Ls ++ Ss)) := List.perm_middle
  have h₂ : (T ++ c :: Ls ++ Ss).Perm (c :: (T ++ Ls ++ Ss)) := by
    rw [List.append_assoc, List.cons_append, List.append_assoc]
    exact List.perm_middle
  exact (List.Perm.swap d c _).trans ((h₂.symm.cons d).trans h₁.symm)

/-- The index writes, regrouped: the tuples end to end, then each length and each suffix. -/
theorem indexWrites_perm (lo so p : Nat) (rs : List PrefixIndexRec) :
    (indexWrites lo so p rs).Perm
      (consecutive p (tuplePieces rs)
        ++ rs.map (fun r => (lo + r.order * lengthSize, beBytes 4 r.size))
        ++ rs.map (fun r => (so + r.order * addrSuffixSize, r.suffix))) := by
  induction rs generalizing p with
  | nil => simp [indexWrites, tuplePieces, consecutive]
  | cons r rs ih =>
    have hp : p + 8 + 4 = p + prefixTupleSize := by
      simp [prefixTupleSize, addrPrefixSize, ordinalSize, uint32Size]
    simp only [indexWrites, tuplePieces, List.flatMap_cons, List.cons_append, List.nil_append,
      consecutive, length_beBytes, List.map_cons, hp]
    exact perm_regroup _ _ _ _ (ih _)

theorem suffix_mem_indexRecs {k : Nat} {cs : List (Addr × List UInt8)} {r : PrefixIndexRec}
    (hr : r ∈ indexRecs L k cs) : r.suffix.length = addrSuffixSize := by
  induction cs generalizing k with
  | nil => simp [indexRecs] at hr
  | cons c cs ih =>
    obtain ⟨h, d⟩ := c
    simp only [indexRecs, List.mem_cons] at hr
    rcases hr with rfl | hr
    · exact h.length_suffix
    · exact ih hr

/-- Blocks written at their ordinal slots, for records numbered from `k`, lie end to end. -/
theorem indexRecs_map_slot (base size k : Nat) (f : PrefixIndexRec → List UInt8)
    (hf : ∀ (h : Addr) (d : List UInt8) (k : Nat),
      (f ⟨h.Prefix, h.suffix, k, (chunkRecord L d).length⟩).length = size)
    (cs : List (Addr × List UInt8)) :
    (indexRecs L k cs).map (fun r => (base + r.order * size, f r)) =
      consecutive (base + k * size) ((indexRecs L k cs).map f) := by
  induction cs generalizing k with
  | nil => rfl
  | cons c cs ih =>
    obtain ⟨h, d⟩ := c
    simp only [indexRecs, List.map_cons, consecutive, hf, ih]
    congr 2
    ring

@[simp] theorem length_flatten_tuplePieces (rs : List PrefixIndexRec) :
    (tuplePieces rs).flatten.length = rs.length * prefixTupleSize := by
  induction rs with
  | nil => rfl
  | cons r rs ih =>
    simp only [tuplePieces, List.flatMap_cons, List.flatten_append] at ih ⊢
    simp [ih, prefixTupleSize, addrPrefixSize, ordinalSize, uint32Size]
    ring

end Index

/-! ## The whole table -/

section Finish

variable {L : TableLib}

variable (L) in
/-- Where `writeIndex` starts the lengths, for the table of `chunks`. -/
def lengthsOffset (chunks : List (Addr × List UInt8)) : Nat :=
  (dataSection L chunks).length + chunks.length * prefixTupleSize

variable (L) in
def suffixesOffset (chunks : List (Addr × List UInt8)) : Nat :=
  lengthsOffset L chunks + chunks.length * lengthSize

variable (L) in
def footerOffset (chunks : List (Addr × List UInt8)) : Nat :=
  suffixesOffset L chunks + chunks.length * addrSuffixSize

variable (L) in
/-- Every write the writer performs, in the order it performs them. -/
def tableWrites (chunks : List (Addr × List UInt8)) : List (Nat × List UInt8) :=
  (0, dataSection L chunks) ::
    (indexWrites (lengthsOffset L chunks) (suffixesOffset L chunks) (dataSection L chunks).length
        (L.sortBy PrefixIndexRec.Prefix (indexRecs L 0 chunks)) ++
      consecutive (footerOffset L chunks) (footerPieces chunks.length (totalData L chunks)))

theorem length_sortBy_indexRecs (hL : L.Lawful) (chunks : List (Addr × List UInt8)) :
    (L.sortBy PrefixIndexRec.Prefix (indexRecs L 0 chunks)).length = chunks.length := by
  rw [(hL.sortBy_perm _ _).length_eq, length_indexRecs]

/-- `finish` performs `tableWrites` and stops at the end of the footer. -/
theorem finish_spec (hL : L.Lawful) {tw : TableWriter} {chunks : List (Addr × List UInt8)}
    (hw : AddedChunks L tw chunks) (hcount : chunks.length < 2 ^ 32) :
    (tw.finish L).1.buff = Buffer.zero.writeAll (tableWrites L chunks) ∧
      (tw.finish L).1.pos = footerOffset L chunks + footerSize := by
  have hn := length_sortBy_indexRecs hL chunks
  simp only [TableWriter.finish, TableWriter.writeIndex, TableWriter.writeFooter, hw.prefixes_eq,
    hw.buff_eq, hw.pos_eq, hw.total_eq, hw.blockHash_eq, foldl_writeIndexRec, hn,
    Nat.mod_eq_of_lt hcount]
  constructor
  · simp [tableWrites, writeAll_append, consecutive, footerPieces, lengthsOffset, suffixesOffset,
      footerOffset, uint32Size, uint64Size, Nat.add_assoc]
  · simp [footerOffset, suffixesOffset, lengthsOffset, footerSize, Nat.add_assoc]

/-- The writer lays out `tableLayout`. -/
theorem writeTable_eq (hL : L.Lawful) {chunks : List (Addr × List UInt8)}
    (hfits : FitsFormat L chunks) :
    ∃ name, writeTable L chunks = some (tableLayout L chunks, name) := by
  obtain ⟨tw, htw, hw⟩ := @addChunks_spec L _ [] chunks addedChunks_new (by simpa using hfits)
  simp only [List.nil_append] at hw
  set recs := indexRecs L 0 chunks with hrecs
  set sorted := L.sortBy PrefixIndexRec.Prefix recs with hsorted
  set D := dataSection L chunks
  have hn : sorted.length = chunks.length := by
    rw [(hL.sortBy_perm _ _).length_eq, hrecs, length_indexRecs]
  set lo := D.length + chunks.length * prefixTupleSize
  set so := lo + chunks.length * lengthSize
  set fpos := so + chunks.length * addrSuffixSize
  set ours := (0, D) :: (indexWrites lo so D.length sorted ++
    consecutive fpos (footerPieces chunks.length (totalData L chunks)))
  set pieces := [D] ++ tuplePieces sorted ++ recs.map (fun r => beBytes 4 r.size) ++
    recs.map PrefixIndexRec.suffix ++ footerPieces chunks.length (totalData L chunks)
  have hlayout : pieces.flatten = tableLayout L chunks := by
    simp [pieces, tableLayout, recs, sorted, D, List.append_assoc]
  have hsizes := indexRecs_map_slot (L := L) lo lengthSize 0 (fun r => beBytes 4 r.size)
    (fun _ _ _ => by simp [lengthSize, uint32Size]) chunks
  have hsufs := indexRecs_map_slot (L := L) so addrSuffixSize 0 PrefixIndexRec.suffix
    (fun h _ _ => h.length_suffix) chunks
  simp only [Nat.zero_mul, Nat.add_zero] at hsizes hsufs
  have hT : (tuplePieces sorted).flatten.length = chunks.length * prefixTupleSize := by
    rw [length_flatten_tuplePieces, hn]
  have hSz : (recs.map fun r => beBytes 4 r.size).flatten.length = chunks.length * lengthSize := by
    have hu : ∀ b ∈ recs.map (fun r => beBytes 4 r.size), b.length = lengthSize := by
      intro b hb
      obtain ⟨r, -, rfl⟩ := List.mem_map.mp hb
      simp [lengthSize, uint32Size]
    rw [length_flatten_uniform hu, List.length_map, hrecs, length_indexRecs]
  have hSf : (recs.map PrefixIndexRec.suffix).flatten.length = chunks.length * addrSuffixSize := by
    have hu : ∀ b ∈ recs.map PrefixIndexRec.suffix, b.length = addrSuffixSize := by
      intro b hb
      obtain ⟨r, hr, rfl⟩ := List.mem_map.mp hb
      rw [hrecs] at hr
      exact suffix_mem_indexRecs hr
    rw [length_flatten_uniform hu, List.length_map, hrecs, length_indexRecs]
  have hcons : consecutive 0 pieces = (0, D) :: (consecutive D.length (tuplePieces sorted) ++
      consecutive lo (recs.map fun r => beBytes 4 r.size) ++
      consecutive so (recs.map PrefixIndexRec.suffix) ++
      consecutive fpos (footerPieces chunks.length (totalData L chunks))) := by
    simp only [pieces, List.singleton_append, List.append_assoc, consecutive, Nat.zero_add,
      consecutive_append, List.flatten_cons, List.length_append, hT, hSz, hSf, lo, so, fpos]
    simp only [Nat.add_assoc, List.cons_append]
  -- the index writes regroup into the layout's pieces, written end to end
  have hperm : (consecutive 0 pieces).Perm ours := by
    rw [hcons, ← hsizes, ← hsufs]
    refine List.Perm.cons _ (List.Perm.append ?_ (List.Perm.refl _))
    refine (List.Perm.append (List.Perm.append (List.Perm.refl _) ?_) ?_).trans
      (indexWrites_perm lo so D.length sorted).symm
    · exact ((hL.sortBy_perm _ recs).map _).symm
    · exact ((hL.sortBy_perm _ recs).map _).symm
  have hbuff : Buffer.zero.writeAll ours = Buffer.zero.write 0 (tableLayout L chunks) := by
    rw [← writeAll_perm _ hperm (pairwise_apart_consecutive 0 pieces), writeAll_consecutive,
      hlayout]
  obtain ⟨hbuf, hpos⟩ := finish_spec hL hw hfits.count_lt
  have hours : ours = tableWrites L chunks := rfl
  have hlen : footerOffset L chunks + footerSize = (tableLayout L chunks).length := by
    rw [← hlayout]
    simp [pieces, D, footerOffset, suffixesOffset, lengthsOffset, hT, hSz, hSf,
      footerPieces, footerSize, uint32Size, uint64Size, magicNumberSize, Nat.add_assoc]
    omega
  refine ⟨(tw.finish L).2, ?_⟩
  simp only [writeTable, htw, Option.map_some, hbuf, hpos, ← hours, hbuff, hlen]
  rw [read_write_self]

end Finish

/-! ## The footer, whatever the chunks -/

section Footer

variable {L : TableLib}

theorem addChunk_prefixes (tw : TableWriter) (h : Addr) {data : List UInt8} (hne : data ≠ []) :
    ∃ tw', tw.addChunk L h data = some tw' ∧ tw'.prefixes.length = tw.prefixes.length + 1 := by
  have hlen : data.length ≠ 0 := by simpa using hne
  refine ⟨_, by rw [TableWriter.addChunk, if_neg hlen], ?_⟩
  simp

theorem addChunks_prefixes (tw : TableWriter) (rest : List (Addr × List UInt8))
    (hdata : ∀ c ∈ rest, c.2 ≠ []) :
    ∃ tw', tw.addChunks L rest = some tw' ∧ tw'.prefixes.length = tw.prefixes.length + rest.length := by
  induction rest generalizing tw with
  | nil => exact ⟨tw, rfl, rfl⟩
  | cons c rest ih =>
    obtain ⟨h, data⟩ := c
    obtain ⟨tw₁, h₁, hl₁⟩ := addChunk_prefixes (L := L) tw h (hdata _ List.mem_cons_self)
    obtain ⟨tw₂, h₂, hl₂⟩ := ih tw₁ (fun c hc => hdata c (List.mem_cons_of_mem _ hc))
    refine ⟨tw₂, by simp [TableWriter.addChunks, h₁, h₂], ?_⟩
    rw [hl₂, hl₁, List.length_cons]
    omega

/-- Whatever the chunks, the table ends with the footer: the chunk count as a `uint32`, the
total data and the magic number. -/
theorem writeTable_footer (hL : L.Lawful) {chunks : List (Addr × List UInt8)}
    (hdata : ∀ c ∈ chunks, c.2 ≠ []) :
    ∃ bytes name total, writeTable L chunks = some (bytes, name) ∧ footerSize ≤ bytes.length ∧
      bytes.drop (bytes.length - footerSize) =
        beBytes 4 (chunks.length % 2 ^ 32) ++ beBytes 8 total ++ magicNumber := by
  obtain ⟨tw, htw, hlen⟩ := addChunks_prefixes (L := L) newTableWriter chunks hdata
  set tw₁ := tw.writeIndex L
  have hn : tw₁.prefixes.length = chunks.length := by
    simp [tw₁, TableWriter.writeIndex, (hL.sortBy_perm _ _).length_eq, hlen, newTableWriter]
  set F := beBytes 4 (chunks.length % 2 ^ 32) ++ beBytes 8 tw₁.totalPhysicalData ++ magicNumber
  have hF : F.length = footerSize := by
    simp [F, footerSize, magicNumberSize, uint32Size, uint64Size]
    omega
  -- the footer is the last write, at the position where the index pass stopped
  have hbuff : (tw.finish L).1.buff = tw₁.buff.write tw₁.pos F := by
    simp [TableWriter.finish, TableWriter.writeFooter, F, write_append, hn, tw₁, uint32Size,
      uint64Size, Nat.add_assoc]
  have hpos : (tw.finish L).1.pos = tw₁.pos + footerSize := by
    simp [TableWriter.finish, TableWriter.writeFooter, tw₁, footerSize, Nat.add_assoc]
  have hwrite : writeTable L chunks =
      some ((tw.finish L).1.buff.read 0 (tw.finish L).1.pos, (tw.finish L).2) := by
    simp [writeTable, htw]
  refine ⟨_, _, tw₁.totalPhysicalData, hwrite, by simp [hpos], ?_⟩
  rw [length_read, hpos, Nat.add_sub_cancel, hbuff, read_add, List.drop_left' (length_read _ _ _),
    ← hF, Nat.zero_add, read_write_self]

end Footer

end Noms.Nbs
