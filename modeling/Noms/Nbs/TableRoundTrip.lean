import Noms.Nbs.TableLayout
import Noms.Nbs.IndexLookup
import Noms.Lib.Fields

/-!
# Reading back a written table

`parseTableIndex` recovers from `tableLayout` exactly the index `tableIndexOf` (the prefixes and
ordinals in sorted order, the lengths, offsets and suffixes in insertion order): `parse_layout`.
Over that index a lookup of a written address returns its insertion ordinal and a lookup of any
other address returns the chunk count (`lookupOrdinal_written`, `lookupOrdinal_absent`); the
second rests on an address being determined by its prefix and suffix, so a prefix collision is
resolved by the suffix compare. `get`, `has`, `count` and `extract` then read each record where
the offsets say (`table_roundtrip`).
-/

namespace Noms.Nbs

open Noms.Lib

section Index

variable (L : TableLib)

/-- The lengths of the records in insertion order. -/
def recordSizes (chunks : List (Addr × List UInt8)) : List Nat :=
  (indexRecs L 0 chunks).map PrefixIndexRec.size

/-- The index a table holding `chunks` is read into. -/
def tableIndexOf (chunks : List (Addr × List UInt8)) : TableIndex :=
  let sorted := L.sortBy PrefixIndexRec.Prefix (indexRecs L 0 chunks)
  { chunkCount := chunks.length
    prefixes := sorted.map PrefixIndexRec.Prefix
    offsets := prefixSums 0 (recordSizes L chunks)
    lengths := recordSizes L chunks
    ordinals := sorted.map PrefixIndexRec.order
    suffixes := ((indexRecs L 0 chunks).map PrefixIndexRec.suffix).flatten }

end Index

/-! ## Fields -/

theorem readUint32_beBytes (v : Nat) (rest : List UInt8) :
    readUint32 (beBytes 4 v ++ rest) = some (v % 256 ^ 4) := by
  simp [readUint32, uint32Size]

theorem readUint64_beBytes (v : Nat) (rest : List UInt8) :
    readUint64 (beBytes 8 v ++ rest) = some (v % 256 ^ 8) := by
  simp [readUint64, uint64Size]

section Parse

variable {L : TableLib}

theorem mem_indexRecs_bounds {k : Nat} {cs : List (Addr × List UInt8)} {r : PrefixIndexRec}
    (hr : r ∈ indexRecs L k cs) (hfits : ∀ c ∈ cs, (chunkRecord L c.2).length < 2 ^ 32) :
    r.size < 2 ^ 32 ∧ r.suffix.length = addrSuffixSize := by
  induction cs generalizing k with
  | nil => simp [indexRecs] at hr
  | cons c cs ih =>
    obtain ⟨h, d⟩ := c
    simp only [indexRecs, List.mem_cons] at hr
    rcases hr with rfl | hr
    · exact ⟨hfits _ List.mem_cons_self, h.length_suffix⟩
    · exact ih hr (fun c hc => hfits c (List.mem_cons_of_mem _ hc))

theorem getElem_indexRecs (k : Nat) (cs : List (Addr × List UInt8)) (i : Nat)
    (hi : i < (indexRecs L k cs).length) (hi' : i < cs.length) :
    (indexRecs L k cs)[i] =
      ⟨cs[i].1.Prefix, cs[i].1.suffix, k + i, (chunkRecord L cs[i].2).length⟩ := by
  induction cs generalizing k i with
  | nil => simp at hi'
  | cons c cs ih =>
    obtain ⟨h, d⟩ := c
    cases i with
    | zero => simp [indexRecs]
    | succ i =>
      simp only [indexRecs, List.getElem_cons_succ]
      rw [ih _ _ (by simpa using hi') (by simpa using hi')]
      simp [Nat.add_assoc, Nat.add_comm 1 i]

theorem mem_indexRecs {cs : List (Addr × List UInt8)} {r : PrefixIndexRec}
    (hr : r ∈ indexRecs L 0 cs) :
    ∃ i, ∃ hi : i < cs.length, r = ⟨cs[i].1.Prefix, cs[i].1.suffix, i, (chunkRecord L cs[i].2).length⟩ := by
  obtain ⟨i, hi, rfl⟩ := List.getElem_of_mem hr
  have hi' : i < cs.length := by simpa using hi
  refine ⟨i, hi', ?_⟩
  rw [getElem_indexRecs _ _ _ hi hi', Nat.zero_add]

theorem computeOffsets_layout {chunks : List (Addr × List UInt8)} (hfits : FitsFormat L chunks)
    (hne : chunks ≠ []) :
    computeOffsets chunks.length (((indexRecs L 0 chunks).map fun r => beBytes 4 r.size).flatten) =
      some (recordSizes L chunks, prefixSums 0 (recordSizes L chunks)) := by
  have hn : chunks.length ≠ 0 := by simpa using hne
  have hlen : (recordSizes L chunks).length = chunks.length := by simp [recordSizes]
  have hread : ∀ i < chunks.length,
      readUint32 ((((indexRecs L 0 chunks).map fun r => beBytes 4 r.size).flatten).drop
        (i * lengthSize)) = some ((recordSizes L chunks).getD i 0) := by
    intro i hi
    have hi' : i < (indexRecs L 0 chunks).length := by simpa using hi
    rw [drop_flatten_uniform (k := lengthSize) (by simp [lengthSize, uint32Size]),
      ← List.map_drop, List.drop_eq_getElem_cons (by simpa using hi'), List.map_cons,
      List.flatten_cons, readUint32_beBytes, Nat.mod_eq_of_lt]
    · simp [recordSizes, List.getD_eq_getElem?_getD, List.getElem?_eq_getElem hi']
    · exact (mem_indexRecs_bounds (List.getElem_mem hi') hfits.record_lt).1
  rw [computeOffsets, if_neg hn, mapM_range_eq_some _ _ _ hread, ← hlen, getD_range_map]
  rfl

theorem flatten_tuplePieces (rs : List PrefixIndexRec) :
    (tuplePieces rs).flatten = (rs.map fun r => beBytes 8 r.Prefix ++ beBytes 4 r.order).flatten := by
  induction rs with
  | nil => rfl
  | cons r rs ih =>
    simp only [tuplePieces, List.flatMap_cons, List.flatten_append, List.map_cons,
      List.flatten_cons] at ih ⊢
    rw [ih]
    simp

/-- The bounds every index entry of a table that fits the format meets. -/
theorem sorted_bounds (hL : L.Lawful) {chunks : List (Addr × List UInt8)}
    (hfits : FitsFormat L chunks) {r : PrefixIndexRec}
    (hr : r ∈ L.sortBy PrefixIndexRec.Prefix (indexRecs L 0 chunks)) :
    r.Prefix < 256 ^ 8 ∧ r.order < chunks.length ∧ r.order < 256 ^ 4 := by
  obtain ⟨i, hi, rfl⟩ := mem_indexRecs ((hL.sortBy_perm _ _).mem_iff.mp hr)
  exact ⟨by simpa using Addr.prefix_lt _, hi, by simpa using hi.trans hfits.count_lt⟩

theorem computePrefixes_layout (hL : L.Lawful) {chunks : List (Addr × List UInt8)}
    (hfits : FitsFormat L chunks) :
    let sorted := L.sortBy PrefixIndexRec.Prefix (indexRecs L 0 chunks)
    computePrefixes chunks.length (tuplePieces sorted).flatten =
      some (sorted.map PrefixIndexRec.Prefix, sorted.map PrefixIndexRec.order) := by
  intro sorted
  have hn : sorted.length = chunks.length := length_sortBy_indexRecs hL chunks
  have hread : ∀ i < chunks.length,
      (do
        let p ← readUint64 ((tuplePieces sorted).flatten.drop (i * prefixTupleSize))
        let o ← readUint32 ((tuplePieces sorted).flatten.drop (i * prefixTupleSize + addrPrefixSize))
        some (p, o)) =
      some ((sorted.map PrefixIndexRec.Prefix).getD i 0, (sorted.map PrefixIndexRec.order).getD i 0) := by
    intro i hi
    have hi' : i < sorted.length := by omega
    have hdrop : (tuplePieces sorted).flatten.drop (i * prefixTupleSize) =
        beBytes 8 sorted[i].Prefix ++ beBytes 4 sorted[i].order ++
          ((sorted.drop (i + 1)).map fun r => beBytes 8 r.Prefix ++ beBytes 4 r.order).flatten := by
      rw [flatten_tuplePieces, drop_flatten_uniform (k := prefixTupleSize)
        (by simp [prefixTupleSize, addrPrefixSize, ordinalSize, uint32Size]),
        ← List.map_drop, List.drop_eq_getElem_cons hi', List.map_cons, List.flatten_cons]
    obtain ⟨hp, -, ho⟩ := sorted_bounds hL hfits (List.getElem_mem hi')
    have hd8 : (beBytes 8 sorted[i].Prefix).drop 8 = [] := by simp
    rw [← List.drop_drop, hdrop]
    simp only [readUint64_beBytes, hd8, List.nil_append, List.append_assoc, List.drop_append_of_le_length,
      length_beBytes, addrPrefixSize, le_refl, readUint32_beBytes,
      Nat.mod_eq_of_lt hp, Nat.mod_eq_of_lt ho, Option.bind_eq_bind, Option.bind_some]
    simp [List.getD_eq_getElem?_getD, List.getElem?_eq_getElem hi']
  rw [computePrefixes, mapM_range_eq_some _ _ _ hread]
  have hp : (List.range chunks.length).map (fun i => (sorted.map PrefixIndexRec.Prefix).getD i 0) =
      sorted.map PrefixIndexRec.Prefix := by
    rw [← hn, ← List.length_map PrefixIndexRec.Prefix, getD_range_map]
  have ho : (List.range chunks.length).map (fun i => (sorted.map PrefixIndexRec.order).getD i 0) =
      sorted.map PrefixIndexRec.order := by
    rw [← hn, ← List.length_map PrefixIndexRec.order, getD_range_map]
  simp only [Option.bind_eq_bind, Option.bind_some, List.map_map, Function.comp_def, hp, ho]

theorem length_suffixes_indexRecs (chunks : List (Addr × List UInt8)) :
    ((indexRecs L 0 chunks).map PrefixIndexRec.suffix).flatten.length =
      chunks.length * addrSuffixSize := by
  rw [length_flatten_uniform (k := addrSuffixSize)
    (fun b hb => by
      obtain ⟨r, hr, rfl⟩ := List.mem_map.mp hb
      exact suffix_mem_indexRecs hr),
    List.length_map, length_indexRecs]

/-- The index section and the footer are read back from their offsets, whatever precedes them. -/
theorem parse_indexSection (hL : L.Lawful) {chunks : List (Addr × List UInt8)}
    (hfits : FitsFormat L chunks) (hne : chunks ≠ []) (D : List UInt8) :
    parseTableIndex (D ++ indexSection L chunks) = some (tableIndexOf L chunks) := by
  set n := chunks.length with hn_def
  set sorted := L.sortBy PrefixIndexRec.Prefix (indexRecs L 0 chunks)
  set TP := (tuplePieces sorted).flatten
  set SZ := ((indexRecs L 0 chunks).map fun r => beBytes 4 r.size).flatten
  set SF := ((indexRecs L 0 chunks).map PrefixIndexRec.suffix).flatten
  set B := D ++ indexSection L chunks
  have hTP : TP.length = n * prefixTupleSize := by
    rw [length_flatten_tuplePieces, length_sortBy_indexRecs hL]
  have hSZ : SZ.length = n * lengthSize := by
    rw [length_flatten_uniform (k := lengthSize) (by simp [lengthSize, uint32Size]),
      List.length_map, length_indexRecs]
  have hSF : SF.length = n * addrSuffixSize := length_suffixes_indexRecs chunks
  have hlayout : B =
      D ++ (TP ++ (SZ ++ (SF ++ (beBytes 4 n ++ (beBytes 8 (totalData L chunks) ++ magicNumber))))) := by
    simp [B, indexSection, footerPieces, TP, SZ, SF, sorted, n]
  have hlen : B.length = D.length + TP.length + SZ.length + SF.length + 20 := by
    rw [hlayout]
    simp [magicNumber]
    omega
  have hcountLt : n < 256 ^ 4 := by simpa using hfits.count_lt
  -- each field sits at its offset from the end
  have e1 : B.length - magicNumberSize = D.length + TP.length + SZ.length + SF.length + 12 := by
    simp only [hlen, magicNumberSize, magicNumber, List.length_cons, List.length_nil]
    omega
  have e2 : D.length + TP.length + SZ.length + SF.length + 12 - uint64Size - uint32Size =
      D.length + TP.length + SZ.length + SF.length := by
    simp only [uint64Size, uint32Size]
    omega
  have e3 : D.length + TP.length + SZ.length + SF.length - n * addrSuffixSize =
      D.length + TP.length + SZ.length := by omega
  have e4 : D.length + TP.length + SZ.length - n * lengthSize = D.length + TP.length := by omega
  have e5 : D.length + TP.length - n * prefixTupleSize = D.length := by omega
  set T := beBytes 8 (totalData L chunks)
  have hmagic : B.drop (D.length + TP.length + SZ.length + SF.length + 12) = magicNumber := by
    rw [show B = (D ++ TP ++ SZ ++ SF ++ beBytes 4 n ++ T) ++ magicNumber by simp [hlayout]]
    exact List.drop_left' (by simp [T]; omega)
  have hcount : readUint32 (B.drop (D.length + TP.length + SZ.length + SF.length)) = some n := by
    rw [show B = (D ++ TP ++ SZ ++ SF) ++ (beBytes 4 n ++ (T ++ magicNumber)) by simp [hlayout],
      List.drop_left' (by simp [Nat.add_assoc]), readUint32_beBytes, Nat.mod_eq_of_lt hcountLt]
  have hsuffixes : (B.drop (D.length + TP.length + SZ.length)).take (n * addrSuffixSize) = SF := by
    rw [show B = (D ++ TP ++ SZ) ++ (SF ++ (beBytes 4 n ++ (T ++ magicNumber))) by simp [hlayout],
      List.drop_left' (by simp [Nat.add_assoc]), List.take_left' hSF]
  have hlengths : (B.drop (D.length + TP.length)).take (n * lengthSize) = SZ := by
    rw [show B = (D ++ TP) ++ (SZ ++ (SF ++ (beBytes 4 n ++ (T ++ magicNumber)))) by simp [hlayout],
      List.drop_left' (by simp), List.take_left' hSZ]
  have htuples : (B.drop D.length).take (n * prefixTupleSize) = TP := by
    rw [hlayout, List.drop_left' rfl, List.take_left' hTP]
  have g1 : magicNumberSize ≤ B.length := by
    simp only [hlen, magicNumberSize, magicNumber, List.length_cons, List.length_nil]
    omega
  have g2 : uint64Size + uint32Size ≤ D.length + TP.length + SZ.length + SF.length + 12 := by
    simp only [uint64Size, uint32Size]
    omega
  have g3 : n * addrSuffixSize ≤ D.length + TP.length + SZ.length + SF.length := by omega
  have g4 : n * lengthSize ≤ D.length + TP.length + SZ.length := by omega
  have g5 : n * prefixTupleSize ≤ D.length + TP.length := by omega
  have hoffs : computeOffsets n SZ = some (recordSizes L chunks, prefixSums 0 (recordSizes L chunks)) :=
    computeOffsets_layout hfits hne
  have hprefs : computePrefixes n TP =
      some (sorted.map PrefixIndexRec.Prefix, sorted.map PrefixIndexRec.order) :=
    computePrefixes_layout hL hfits
  simp only [parseTableIndex, e1, e2, hmagic, hcount, guard, g1, g2, if_true, pure_bind,
    Option.bind_eq_bind, Option.bind_some, e3, e4, e5, g3, g4, g5, hsuffixes, hlengths, htuples, hoffs,
    hprefs]
  rfl

/-- The index section and the footer of a written table are read back from their offsets. -/
theorem parse_layout (hL : L.Lawful) {chunks : List (Addr × List UInt8)}
    (hfits : FitsFormat L chunks) (hne : chunks ≠ []) :
    parseTableIndex (tableLayout L chunks) = some (tableIndexOf L chunks) := by
  rw [tableLayout_eq]
  exact parse_indexSection hL hfits hne _

end Parse

/-! ## Lookups in the recovered index -/

section Lookup

variable {L : TableLib}

theorem getD_map_zero {α : Type} (f : α → Nat) {l : List α} {i : Nat} (hi : i < l.length) :
    (l.map f).getD i 0 = f l[i] := by
  simp [List.getD_eq_getElem?_getD, List.getElem?_eq_getElem hi]

theorem wellFormed_tableIndexOf (hL : L.Lawful) {chunks : List (Addr × List UInt8)}
    (hfits : FitsFormat L chunks) : (tableIndexOf L chunks).WellFormed where
  prefixes_length := by simp [tableIndexOf, length_sortBy_indexRecs hL]
  ordinals_length := by simp [tableIndexOf, length_sortBy_indexRecs hL]
  ordinal_lt := by
    intro o ho
    obtain ⟨r, hr, rfl⟩ := List.mem_map.mp ho
    exact (sorted_bounds hL hfits hr).2.1
  suffixes_length := length_suffixes_indexRecs chunks
  sorted := List.pairwise_map.mpr (hL.sortBy_sorted _ _)

/-- The suffixes section holds each address's suffix at its insertion ordinal. -/
theorem suffixAt_tableIndexOf {chunks : List (Addr × List UInt8)} {o : Nat}
    (ho : o < chunks.length) : (tableIndexOf L chunks).suffixAt o = chunks[o].1.suffix := by
  have ho' : o < (indexRecs L 0 chunks).length := by simpa using ho
  simp only [TableIndex.suffixAt, tableIndexOf]
  rw [drop_flatten_uniform (k := addrSuffixSize) (fun b hb => by
      obtain ⟨r, hr, rfl⟩ := List.mem_map.mp hb
      exact suffix_mem_indexRecs hr),
    ← List.map_drop, List.drop_eq_getElem_cons ho', List.map_cons, List.flatten_cons,
    List.take_left' (suffix_mem_indexRecs (List.getElem_mem ho')), getElem_indexRecs _ _ _ ho' ho]

/-- Position `idx` of the sorted index holds the prefix of the chunk its ordinal names. -/
theorem entry_tableIndexOf (hL : L.Lawful) {chunks : List (Addr × List UInt8)} {idx : Nat}
    (hidx : idx < chunks.length) :
    ∃ i, ∃ hi : i < chunks.length, (tableIndexOf L chunks).ordinals.getD idx 0 = i ∧
      (tableIndexOf L chunks).prefixes.getD idx 0 = chunks[i].1.Prefix := by
  have hidx' : idx < (L.sortBy PrefixIndexRec.Prefix (indexRecs L 0 chunks)).length := by
    rw [length_sortBy_indexRecs hL]
    exact hidx
  obtain ⟨i, hi, hr⟩ :=
    mem_indexRecs ((hL.sortBy_perm _ _).mem_iff.mp (List.getElem_mem hidx'))
  refine ⟨i, hi, ?_, ?_⟩
  · simp only [tableIndexOf]
    rw [getD_map_zero _ hidx', hr]
  · simp only [tableIndexOf]
    rw [getD_map_zero _ hidx', hr]

/-- The index of a written table stores exactly the written addresses, each at its insertion
ordinal. -/
theorem stores_tableIndexOf_iff (hL : L.Lawful) {chunks : List (Addr × List UInt8)} {h : Addr}
    {o : Nat} :
    (tableIndexOf L chunks).Stores h o ↔ ∃ ho : o < chunks.length, chunks[o].1 = h := by
  constructor
  · rintro ⟨idx, hidx, hp, ho, hs⟩
    -- position `idx` holds the entry of some chunk `i`; its ordinal says `i = o`
    obtain ⟨i, hi, hord, hpre⟩ := entry_tableIndexOf hL hidx
    rw [hord] at ho
    subst ho
    exact ⟨hi, Addr.ext_prefix_suffix (hpre.symm.trans hp) ((suffixAt_tableIndexOf hi).symm.trans hs)⟩
  · rintro ⟨ho, rfl⟩
    have hn := length_sortBy_indexRecs hL chunks
    have ho' : o < (indexRecs L 0 chunks).length := by simpa using ho
    obtain ⟨idx, hidx, hr⟩ := List.getElem_of_mem
      ((hL.sortBy_perm PrefixIndexRec.Prefix _).mem_iff.mpr (List.getElem_mem ho'))
    rw [getElem_indexRecs _ _ _ ho' ho] at hr
    have hidx' : idx < (tableIndexOf L chunks).chunkCount := by
      show idx < chunks.length
      rw [← hn]
      exact hidx
    refine ⟨idx, hidx', ?_, ?_, suffixAt_tableIndexOf ho⟩
    · simp only [tableIndexOf]
      rw [getD_map_zero _ hidx, hr]
    · simp only [tableIndexOf]
      rw [getD_map_zero _ hidx, hr, Nat.zero_add]

theorem lookupOrdinal_written (hL : L.Lawful) {chunks : List (Addr × List UInt8)}
    (hfits : FitsFormat L chunks) (hnodup : (chunks.map Prod.fst).Nodup) {o : Nat}
    (ho : o < chunks.length) : (tableIndexOf L chunks).lookupOrdinal chunks[o].1 = some o := by
  refine TableIndex.lookupOrdinal_of_stores (wellFormed_tableIndexOf hL hfits)
    ((stores_tableIndexOf_iff hL).mpr ⟨ho, rfl⟩) (fun o' hs => ?_)
  obtain ⟨ho', heq⟩ := (stores_tableIndexOf_iff hL).mp hs
  -- distinct addresses sit at distinct ordinals
  have hlo' : o' < (chunks.map Prod.fst).length := by simpa using ho'
  have hlo : o < (chunks.map Prod.fst).length := by simpa using ho
  have hmap : (chunks.map Prod.fst)[o'] = (chunks.map Prod.fst)[o] := by
    simpa using heq
  exact (hnodup.getElem_inj_iff).mp hmap

theorem not_stores_absent (hL : L.Lawful) {chunks : List (Addr × List UInt8)} {b : Addr} (hb : b ∉ chunks.map Prod.fst) (o : Nat) :
    ¬ (tableIndexOf L chunks).Stores b o := by
  intro hs
  obtain ⟨ho, heq⟩ := (stores_tableIndexOf_iff hL).mp hs
  exact hb (heq ▸ List.mem_map_of_mem (List.getElem_mem ho))

theorem lookupOrdinal_absent (hL : L.Lawful) {chunks : List (Addr × List UInt8)}
    (hfits : FitsFormat L chunks) {b : Addr} (hb : b ∉ chunks.map Prod.fst) :
    (tableIndexOf L chunks).lookupOrdinal b = some chunks.length :=
  TableIndex.lookupOrdinal_of_not_stores (wellFormed_tableIndexOf hL hfits) (not_stores_absent hL hb)

end Lookup

/-! ## Reading the records -/

section Records

variable {L : TableLib}

theorem map_size_indexRecs (k : Nat) (cs : List (Addr × List UInt8)) :
    (indexRecs L k cs).map PrefixIndexRec.size = cs.map fun c => (chunkRecord L c.2).length := by
  induction cs generalizing k with
  | nil => rfl
  | cons c cs ih =>
    obtain ⟨h, d⟩ := c
    simp [indexRecs, ih]

/-- The record lengths are the lengths of the blocks of the data section. -/
theorem recordSizes_eq (chunks : List (Addr × List UInt8)) :
    recordSizes L chunks = (chunks.map fun c => chunkRecord L c.2).map List.length := by
  rw [recordSizes, map_size_indexRecs, List.map_map]
  rfl

@[simp] theorem length_prefixSums (acc : Nat) (ls : List Nat) :
    (prefixSums acc ls).length = ls.length := by
  induction ls generalizing acc with
  | nil => rfl
  | cons l ls ih => simp [prefixSums, ih]

theorem getElem?_prefixSums (acc : Nat) (ls : List Nat) {i : Nat} (hi : i < ls.length) :
    (prefixSums acc ls)[i]? = some (acc + (ls.take i).sum) := by
  induction ls generalizing acc i with
  | nil => simp at hi
  | cons l ls ih =>
    cases i with
    | zero => simp [prefixSums]
    | succ i =>
      rw [prefixSums, List.getElem?_cons_succ, ih _ (by simpa using hi)]
      simp [Nat.add_assoc]

theorem getElem?_recordSizes {chunks : List (Addr × List UInt8)} {o : Nat}
    (ho : o < chunks.length) :
    (recordSizes L chunks)[o]? = some (chunkRecord L chunks[o].2).length := by
  simp [recordSizes_eq, ho]

/-- Record `o` is cut out of the data section by its offset and length, whatever follows. -/
theorem take_drop_dataSection (chunks : List (Addr × List UInt8)) (rest : List UInt8) {o : Nat}
    (ho : o < chunks.length) :
    ((dataSection L chunks ++ rest).drop ((recordSizes L chunks).take o).sum).take
        (chunkRecord L chunks[o].2).length =
      chunkRecord L chunks[o].2 := by
  have ho' : o < (chunks.map fun c => chunkRecord L c.2).length := by simpa using ho
  have h := take_drop_flatten (chunks.map fun c => chunkRecord L c.2) rest o ho'
  simp only [List.getElem_map] at h
  rw [recordSizes_eq, ← List.map_take]
  exact h

/-- Record `o` ends inside the data section. -/
theorem record_end_le (chunks : List (Addr × List UInt8)) {o : Nat} (ho : o < chunks.length) :
    ((recordSizes L chunks).take o).sum + (chunkRecord L chunks[o].2).length ≤
      (dataSection L chunks).length := by
  have ho' : o < (recordSizes L chunks).length := by simpa [recordSizes] using ho
  have hsum : (dataSection L chunks).length = (recordSizes L chunks).sum := by
    rw [recordSizes_eq, dataSection, List.length_flatten]
  have hat : (recordSizes L chunks)[o] = (chunkRecord L chunks[o].2).length := by
    simp [recordSizes_eq]
  rw [hsum, ← hat, ← List.sum_take_succ _ _ ho']
  exact (List.take_sublist _ _).sum_le_sum (fun _ _ => Nat.zero_le _)

/-- The last record ends where the data section does. -/
theorem last_record_end (chunks : List (Addr × List UInt8)) {k : Nat} (hk : k + 1 = chunks.length) :
    ((recordSizes L chunks).take k).sum + (chunkRecord L chunks[k].2).length =
      (dataSection L chunks).length := by
  have hk' : k < (recordSizes L chunks).length := by simp [recordSizes]; omega
  have hsum : (dataSection L chunks).length = (recordSizes L chunks).sum := by
    rw [recordSizes_eq, dataSection, List.length_flatten]
  have hat : (recordSizes L chunks)[k] = (chunkRecord L chunks[k].2).length := by
    simp [recordSizes_eq]
  rw [hsum, ← hat, ← List.sum_take_succ _ _ hk', List.take_of_length_le (by simp [recordSizes]; omega)]

theorem parseChunk_chunkRecord (hL : L.Lawful) (data : List UInt8) :
    TableReader.parseChunk L (chunkRecord L data) = some data := by
  have hcrc : (L.crc data).toNat < 256 ^ 4 := (L.crc data).toNat_lt
  have hlen : (chunkRecord L data).length - checksumSize = (L.snappyEncode data).length := by
    rw [length_chunkRecord, Nat.add_sub_cancel]
  have henc : (chunkRecord L data).take (L.snappyEncode data).length = L.snappyEncode data :=
    List.take_left' rfl
  have hsum : (chunkRecord L data).drop (L.snappyEncode data).length =
      beBytes 4 (L.crc data).toNat :=
    List.drop_left' rfl
  have hguard : checksumSize ≤ (chunkRecord L data).length := by
    rw [length_chunkRecord]
    exact Nat.le_add_left _ _
  have hread : readUint32 (beBytes 4 (L.crc data).toNat) = some (L.crc data).toNat := by
    simpa [Nat.mod_eq_of_lt hcrc] using readUint32_beBytes (L.crc data).toNat []
  simp only [TableReader.parseChunk, hlen, henc, hsum, hL.decode_encode, guard, hguard, if_true,
    hread, Option.bind_eq_bind, Option.bind_some, pure_bind]
  rfl

end Records

/-! ## The reader over a written table -/

section Reader

variable {L : TableLib}

theorem tableLayout_eq_append (chunks : List (Addr × List UInt8)) :
    ∃ rest, tableLayout L chunks = dataSection L chunks ++ rest ∧ footerSize ≤ rest.length := by
  refine ⟨_, by simp only [tableLayout, List.append_assoc]; rfl, ?_⟩
  simp only [List.length_append, footerPieces, List.flatten_cons, List.flatten_nil, List.append_nil,
    length_beBytes, footerSize, magicNumberSize, uint32Size, uint64Size]
  omega

theorem readAt_record (chunks : List (Addr × List UInt8)) {o : Nat} (ho : o < chunks.length) :
    readAt (tableLayout L chunks) ((recordSizes L chunks).take o).sum
        (chunkRecord L chunks[o].2).length =
      some (chunkRecord L chunks[o].2) := by
  obtain ⟨rest, hlayout, hrest⟩ := tableLayout_eq_append (L := L) chunks
  have hend := record_end_le (L := L) chunks ho
  have hfoot : 0 < footerSize := by simp [footerSize, magicNumberSize, magicNumber]
  have hlen : (tableLayout L chunks).length = (dataSection L chunks).length + rest.length := by
    rw [hlayout, List.length_append]
  rw [readAt, if_pos ⟨by omega, by omega⟩, hlayout, take_drop_dataSection _ _ ho]

variable (hL : L.Lawful) {chunks : List (Addr × List UInt8)} (hfits : FitsFormat L chunks)
  (blockSize maxReadSize readAmpThresh : Nat)
include hL hfits

theorem get_written (hnodup : (chunks.map Prod.fst).Nodup) {o : Nat} (ho : o < chunks.length) :
    (newTableReader (tableIndexOf L chunks) (tableLayout L chunks) blockSize maxReadSize
      readAmpThresh).get L chunks[o].1 = some (some chunks[o].2) := by
  have hoff : (tableIndexOf L chunks).offsets[o]? = some ((recordSizes L chunks).take o).sum := by
    simp only [tableIndexOf]
    rw [getElem?_prefixSums _ _ (by simpa [recordSizes] using ho), Nat.zero_add]
  have hlen : (tableIndexOf L chunks).lengths[o]? = some (chunkRecord L chunks[o].2).length :=
    getElem?_recordSizes ho
  have hdata : chunks[o].2 ≠ [] := hfits.data_ne _ (List.getElem_mem ho)
  simp only [TableReader.get, newTableReader, TableReader.count, lookupOrdinal_written hL hfits hnodup ho,
    hoff, hlen, readAt_record chunks ho, parseChunk_chunkRecord hL, guard, Option.bind_eq_bind,
    Option.bind_some]
  have hne : o ≠ (tableIndexOf L chunks).chunkCount := Nat.ne_of_lt ho
  rw [if_neg hne, if_pos hdata]
  rfl

theorem has_written {o : Nat} (ho : o < chunks.length) :
    (newTableReader (tableIndexOf L chunks) (tableLayout L chunks) blockSize maxReadSize
      readAmpThresh).has chunks[o].1 = some true :=
  TableReader.has_of_stores (wellFormed_tableIndexOf hL hfits)
    ((stores_tableIndexOf_iff hL).mpr ⟨ho, rfl⟩)

theorem has_absent {b : Addr} (hb : b ∉ chunks.map Prod.fst) :
    (newTableReader (tableIndexOf L chunks) (tableLayout L chunks) blockSize maxReadSize
      readAmpThresh).has b = some false :=
  TableReader.has_of_not_stores (wellFormed_tableIndexOf hL hfits) (not_stores_absent hL hb)

theorem get_absent {b : Addr} (hb : b ∉ chunks.map Prod.fst) :
    (newTableReader (tableIndexOf L chunks) (tableLayout L chunks) blockSize maxReadSize
      readAmpThresh).get L b = some none :=
  TableReader.get_of_not_stores L (wellFormed_tableIndexOf hL hfits) (not_stores_absent hL hb)

/-- `extract` rebuilds the address at each ordinal from the sorted index. -/
theorem extractHashes_tableIndexOf :
    TableReader.extractHashes (tableIndexOf L chunks) = some (chunks.map Prod.fst) := by
  have hwf := wellFormed_tableIndexOf hL hfits
  have hplen : (tableIndexOf L chunks).prefixes.length = chunks.length := hwf.prefixes_length
  set σ : Nat → Nat := fun idx => (tableIndexOf L chunks).ordinals.getD idx 0
  set v : Nat → Addr := fun j => (chunks.map Prod.fst).getD j Addr.zero
  rw [TableReader.extractHashes]
  refine (foldlM_eq_some_of_inv (fun acc => acc.length = chunks.length) _
    (fun acc idx => acc.set (σ idx) (v (σ idx))) _ ?_ _ (by simp [hplen])).trans ?_
  · -- one step sets the slot of the ordinal at `idx` to the address of that chunk
    intro acc hacc idx hidx
    have hidx' : idx < chunks.length := by
      rw [← hplen]
      exact List.mem_range.mp hidx
    obtain ⟨i, hi, hord, hpre⟩ := entry_tableIndexOf hL hidx'
    have hp : (tableIndexOf L chunks).prefixes[idx]? = some chunks[i].1.Prefix := by
      rw [← hpre, List.getElem?_eq_getElem (by rw [hplen]; exact hidx'), List.getElem_eq_getD 0]
    have hfit : i * addrSuffixSize + addrSuffixSize ≤ (tableIndexOf L chunks).suffixes.length := by
      rw [hwf.suffixes_length, ← Nat.succ_mul]
      exact Nat.mul_le_mul_right _ hi
    have hv : v i = chunks[i].1 := by
      simp [v, List.getD_eq_getElem?_getD, hi]
    have haddr : ∀ hb : (beBytes 8 chunks[i].1.Prefix ++
        ((tableIndexOf L chunks).suffixes.drop (i * addrSuffixSize)).take addrSuffixSize).length =
          addrSize, (⟨_, hb⟩ : Addr) = chunks[i].1 :=
      fun _ => Addr.ext_bytes (by rw [Addr.bytes_eq chunks[i].1, ← suffixAt_tableIndexOf hi]; rfl)
    refine ⟨?_, by simp [hacc]⟩
    simp only [TableIndex.prefixIdxToOrdinal_eq hwf hidx', hord, hp, Option.bind_eq_bind,
      Option.bind_some, guard, hacc, hi, if_true, dif_pos hfit, σ, Option.pure_def, haddr, hv]
  · -- every ordinal is the ordinal of some position, so every slot is set
    have hcover : ∀ j < (List.replicate (tableIndexOf L chunks).prefixes.length Addr.zero).length,
        j ∈ (List.range (tableIndexOf L chunks).prefixes.length).map σ := by
      intro j hj
      rw [List.length_replicate, hplen] at hj
      obtain ⟨idx, hidx, -, hord, -⟩ := (stores_tableIndexOf_iff hL).mpr ⟨hj, rfl⟩
      exact List.mem_map.mpr ⟨idx, List.mem_range.mpr (hplen ▸ hidx), hord⟩
    rw [foldl_set_eq_map_range σ v _ _ hcover, List.length_replicate, hplen]
    have hlen : chunks.length = (chunks.map Prod.fst).length := (List.length_map _).symm
    rw [hlen, getD_range_map]

theorem extract_written (hne : chunks ≠ []) (order : EnumerationOrder) :
    (newTableReader (tableIndexOf L chunks) (tableLayout L chunks) blockSize maxReadSize
      readAmpThresh).extract L order =
      some (match order with
        | .InsertOrder => chunks
        | .ReverseOrder => chunks.reverse) := by
  have hn : 0 < chunks.length := List.length_pos_of_ne_nil hne
  have hlast : chunks.length - 1 < chunks.length := Nat.sub_lt hn Nat.one_pos
  have hk : chunks.length - 1 + 1 = chunks.length := Nat.sub_add_cancel hn
  have hcount : (tableIndexOf L chunks).chunkCount = chunks.length := rfl
  have hoff : ∀ i < chunks.length,
      (tableIndexOf L chunks).offsets[i]? = some ((recordSizes L chunks).take i).sum := by
    intro i hi
    simp only [tableIndexOf]
    rw [getElem?_prefixSums _ _ (by simpa [recordSizes] using hi), Nat.zero_add]
  have hlen : ∀ i (hi : i < chunks.length),
      (tableIndexOf L chunks).lengths[i]? = some (chunkRecord L chunks[i].2).length :=
    fun i hi => getElem?_recordSizes hi
  -- the one read covers the data section
  have hbuff : readAt (tableLayout L chunks) 0 (dataSection L chunks).length =
      some (dataSection L chunks) := by
    obtain ⟨rest, hlayout, hrest⟩ := tableLayout_eq_append (L := L) chunks
    have hfoot : 0 < footerSize := by simp [footerSize, magicNumberSize, magicNumber]
    have hlen : (tableLayout L chunks).length = (dataSection L chunks).length + rest.length := by
      rw [hlayout, List.length_append]
    rw [readAt, if_pos ⟨by omega, by omega⟩, hlayout, List.drop_zero, List.take_left' rfl]
  simp only [TableReader.extract, newTableReader, TableReader.count, extractHashes_tableIndexOf hL hfits,
    Option.bind_eq_bind, Option.bind_some, guard, hcount, hn, if_true, hoff _ hlast, hlen _ hlast,
    hoff 0 hn, List.take_zero, List.sum_nil, last_record_end chunks hk, hbuff, Nat.sub_zero, Option.pure_def]
  cases order <;>
  · simp only []
    refine (mapM_eq_some_of _ _ (fun i => chunks.getD i (Addr.zero, [])) ?_).trans ?_
    · intro i hi
      have hi' : i < chunks.length := by simpa using hi
      have hslice := take_drop_dataSection (L := L) chunks [] hi'
      rw [List.append_nil] at hslice
      simp only [hoff i hi', hlen i hi', record_end_le chunks hi', hslice, parseChunk_chunkRecord hL,
        Option.bind_some, if_true]
      simp [List.getD_eq_getElem?_getD, hi']
    · simp only [List.map_reverse, getD_range_map]

end Reader

/-! ## The round trip -/

section RoundTrip

variable {L : TableLib}

/-- A table written from distinct addresses, within the format's `uint32` bounds, and read back
through `parseTableIndex` and `newTableReader`, answers every query as the chunks say. -/
theorem table_roundtrip (hL : L.Lawful) {chunks : List (Addr × List UInt8)}
    (hfits : FitsFormat L chunks) (hne : chunks ≠ []) (hnodup : (chunks.map Prod.fst).Nodup)
    (blockSize maxReadSize readAmpThresh : Nat) :
    ∃ bytes name index, writeTable L chunks = some (bytes, name) ∧
      parseTableIndex bytes = some index ∧
      (∀ c ∈ chunks,
        (newTableReader index bytes blockSize maxReadSize readAmpThresh).get L c.1 = some (some c.2) ∧
        (newTableReader index bytes blockSize maxReadSize readAmpThresh).has c.1 = some true) ∧
      (∀ b, b ∉ chunks.map Prod.fst →
        (newTableReader index bytes blockSize maxReadSize readAmpThresh).get L b = some none ∧
        (newTableReader index bytes blockSize maxReadSize readAmpThresh).has b = some false) ∧
      (newTableReader index bytes blockSize maxReadSize readAmpThresh).count = chunks.length ∧
      (newTableReader index bytes blockSize maxReadSize readAmpThresh).extract L .InsertOrder =
        some chunks ∧
      (newTableReader index bytes blockSize maxReadSize readAmpThresh).extract L .ReverseOrder =
        some chunks.reverse := by
  obtain ⟨name, hwrite⟩ := writeTable_eq hL hfits
  refine ⟨_, name, _, hwrite, parse_layout hL hfits hne, ?_, ?_, rfl,
    extract_written hL hfits _ _ _ hne .InsertOrder, extract_written hL hfits _ _ _ hne .ReverseOrder⟩
  · intro c hc
    obtain ⟨o, ho, rfl⟩ := List.getElem_of_mem hc
    exact ⟨get_written hL hfits _ _ _ hnodup ho, has_written hL hfits _ _ _ ho⟩
  · intro b hb
    exact ⟨get_absent hL hfits _ _ _ hb, has_absent hL hfits _ _ _ hb⟩

/-- Two chunks whose addresses share their 8-byte prefix. -/
def sharedPrefixChunks : List (Addr × List UInt8) :=
  [(⟨List.replicate 19 0 ++ [1], rfl⟩, [1]), (⟨List.replicate 19 0 ++ [2], rfl⟩, [2, 2])]

theorem table_roundtrip_sharedPrefix :
    FitsFormat TableLib.plain sharedPrefixChunks ∧ sharedPrefixChunks ≠ [] ∧
      (sharedPrefixChunks.map Prod.fst).Nodup ∧
      ∃ bytes name index, writeTable TableLib.plain sharedPrefixChunks = some (bytes, name) ∧
        parseTableIndex bytes = some index ∧
        (∀ c ∈ sharedPrefixChunks,
          (newTableReader index bytes 0 0 0).get TableLib.plain c.1 = some (some c.2) ∧
          (newTableReader index bytes 0 0 0).has c.1 = some true) ∧
        (∀ b, b ∉ sharedPrefixChunks.map Prod.fst →
          (newTableReader index bytes 0 0 0).get TableLib.plain b = some none ∧
          (newTableReader index bytes 0 0 0).has b = some false) ∧
        (newTableReader index bytes 0 0 0).count = sharedPrefixChunks.length ∧
        (newTableReader index bytes 0 0 0).extract TableLib.plain .InsertOrder =
          some sharedPrefixChunks ∧
        (newTableReader index bytes 0 0 0).extract TableLib.plain .ReverseOrder =
          some sharedPrefixChunks.reverse :=
  have hfits : FitsFormat TableLib.plain sharedPrefixChunks := ⟨by decide, by decide, by decide⟩
  have hne : sharedPrefixChunks ≠ [] := by decide
  have hnodup : (sharedPrefixChunks.map Prod.fst).Nodup := by decide
  ⟨hfits, hne, hnodup, table_roundtrip TableLib.plain_lawful hfits hne hnodup 0 0 0⟩

/-- A footer whose chunk count reads as zero sends `computeOffsets` to its empty-table panic. -/
theorem parseTableIndex_count_zero {buff t : List UInt8} (ht : t.length = uint64Size)
    (hlen : footerSize ≤ buff.length)
    (hfoot : buff.drop (buff.length - footerSize) = beBytes 4 0 ++ t ++ magicNumber) :
    parseTableIndex buff = none := by
  have hsplit : buff.length - magicNumberSize = buff.length - footerSize + 12 := by
    simp only [footerSize, magicNumberSize, magicNumber, uint32Size, uint64Size,
      List.length_cons, List.length_nil] at hlen ⊢
    omega
  have hmagic : buff.drop (buff.length - magicNumberSize) = magicNumber := by
    rw [hsplit, ← List.drop_drop, hfoot, List.drop_left' (by simp [ht, uint64Size])]
  have hcount_pos : buff.length - magicNumberSize - uint64Size - uint32Size = buff.length - footerSize := by
    simp only [footerSize, magicNumberSize, uint32Size, uint64Size] at hlen ⊢
    omega
  have hcount : readUint32 (buff.drop (buff.length - footerSize)) = some 0 := by
    rw [hfoot, List.append_assoc, readUint32_beBytes, Nat.zero_mod]
  have g1 : magicNumberSize ≤ buff.length := by
    simp only [footerSize] at hlen
    omega
  have g2 : uint64Size + uint32Size ≤ buff.length - magicNumberSize := by
    simp only [footerSize, uint32Size, uint64Size] at hlen ⊢
    omega
  simp only [parseTableIndex, hmagic, g1, g2, guard, if_true, hcount_pos, hcount, Option.bind_eq_bind,
    Option.bind_some, pure_bind, Nat.zero_mul, Nat.zero_le, Nat.sub_zero, computeOffsets]
  rfl

/-- Four bytes tell apart the first `2^32` addresses. -/
def countAddr (i : Nat) : Addr :=
  ⟨List.replicate 16 0 ++ beBytes 4 i, by simp [addrSize]⟩

theorem countAddr_injOn {i j : Nat} (hi : i < 2 ^ 32) (hj : j < 2 ^ 32)
    (h : countAddr i = countAddr j) : i = j := by
  have hb : beBytes 4 i = beBytes 4 j := by
    simpa [countAddr] using congrArg Addr.bytes h
  have := congrArg beNat hb
  rw [beNat_beBytes, beNat_beBytes, Nat.mod_eq_of_lt (by simpa using hi),
    Nat.mod_eq_of_lt (by simpa using hj)] at this
  exact this

/-- A table of `2^32` chunks: the footer's `uint32` count wraps to zero and the reader cannot
parse what the writer wrote. -/
theorem table_roundtrip_count_wraps :
    ∃ chunks : List (Addr × List UInt8), chunks ≠ [] ∧ (chunks.map Prod.fst).Nodup ∧
      (∀ c ∈ chunks, c.2 ≠ []) ∧
      ∃ bytes name, writeTable TableLib.plain chunks = some (bytes, name) ∧
        parseTableIndex bytes = none := by
  set chunks := (List.range (2 ^ 32)).map fun i => (countAddr i, [(0 : UInt8)])
  have hdata : ∀ c ∈ chunks, c.2 ≠ [] := by simp [chunks]
  have hlen : chunks.length = 2 ^ 32 := by simp [chunks]
  refine ⟨chunks, ?_, ?_, hdata, ?_⟩
  · simp [chunks]
  · have hmap : chunks.map Prod.fst = (List.range (2 ^ 32)).map countAddr := by simp [chunks]
    rw [hmap]
    exact List.Nodup.map_on (fun i hi j hj h =>
      countAddr_injOn (List.mem_range.mp hi) (List.mem_range.mp hj) h) List.nodup_range
  · obtain ⟨bytes, name, total, hwrite, hfoot_le, hfoot⟩ :=
      writeTable_footer TableLib.plain_lawful hdata
    rw [hlen, Nat.mod_self] at hfoot
    exact ⟨bytes, name, hwrite, parseTableIndex_count_zero (by simp [uint64Size]) hfoot_le hfoot⟩

end RoundTrip

end Noms.Nbs
