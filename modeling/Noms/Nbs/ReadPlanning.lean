import Noms.Nbs.LocatedRecords
import Noms.Nbs.TableRoundTrip
import Noms.Lib.Scatter

/-!
# The reads of `getMany`, and the plan `calcReads` makes of them

`getMany` groups the located records, sorted by offset, into reads (`batchReads`). On a table
whose records lie end to end (`TableReader.Layout`) every read covers each record it serves and
lies within the table (`batchReads_covers`), so the bounds checks of `readAtOffsets` hold, and
the reads together serve every located record once. Each read scatters the parsed chunks of its
records onto their requests (`readAtOffsets_eq`), so `getMany` scatters the chunk of every
located record onto the requests (`getMany_eq`), whatever the grouping.

`calcReads` walks the same sorted records with another loop: a read starts at each record whose
request is not yet satisfied and marks satisfied every request it can also serve. The scan ahead
of a read takes exactly the records that `batchReads` adds to the open batch (`scanAhead_grow`),
so when no located request starts out satisfied the two count the same reads
(`calcReadsFrom_eq_length`).
-/

namespace Noms.Nbs

open Noms.Lib

/-! ## Records laid out end to end -/

theorem sum_take_le_sum_take (ls : List Nat) {m n : Nat} (h : m ≤ n) :
    (ls.take m).sum ≤ (ls.take n).sum := by
  rw [show n = m + (n - m) by omega, List.take_add, List.sum_append]
  exact Nat.le_add_right _ _

/-- The records of two ordinals `o₁ < o₂` do not overlap. -/
theorem sum_take_add_le_sum_take (ls : List Nat) {o₁ o₂ : Nat} (h : o₁ < o₂)
    (ho : o₁ < ls.length) : (ls.take o₁).sum + ls[o₁] ≤ (ls.take o₂).sum := by
  rw [← List.sum_take_succ _ _ ho]
  exact sum_take_le_sum_take ls h

/-- What the reads of `getMany` rely on of a table: a valid index whose records lie end to end
from offset 0 in insertion order, as `computeOffsets` reads them, with table bytes past the last
record. -/
structure TableReader.Layout (tr : TableReader) : Prop where
  valid : tr.index.Valid
  offsets_eq : tr.index.offsets = prefixSums 0 tr.index.lengths
  data_lt : tr.index.lengths.sum < tr.r.length


/-- `rec` is a record of the table: its ordinal is one of the table's, and its offset is that
ordinal's. -/
def TableIndex.Locates (ti : TableIndex) (rec : OffsetRec) : Prop :=
  rec.ordinal < ti.chunkCount ∧ ti.offsets[rec.ordinal]? = some rec.offset

/-! ## Written tables are laid out -/

section Written

variable {L : TableLib} (hL : L.Lawful) {chunks : List (Addr × List UInt8)}
include hL

/-- The ordinals of a written index are the insertion positions, each once. -/
theorem nodup_ordinals_tableIndexOf (chunks : List (Addr × List UInt8)) :
    (tableIndexOf L chunks).ordinals.Nodup := by
  have hrange : (indexRecs L 0 chunks).map PrefixIndexRec.order = List.range chunks.length := by
    refine List.ext_getElem (by simp) fun i h1 h2 => ?_
    have hi : i < chunks.length := by simpa using h1
    rw [List.getElem_map, getElem_indexRecs _ _ _ (by simpa using hi) hi, List.getElem_range,
      Nat.zero_add]
  simp only [tableIndexOf]
  rw [((hL.sortBy_perm _ _).map _).nodup_iff, hrange]
  exact List.nodup_range

theorem unique_tableIndexOf (hnodup : (chunks.map Prod.fst).Nodup) :
    (tableIndexOf L chunks).Unique := by
  intro idx idx' h o o' he he'
  obtain ⟨ho, rfl⟩ := (stores_tableIndexOf_iff hL).mp ⟨idx, he⟩
  obtain ⟨ho', heq⟩ := (stores_tableIndexOf_iff hL).mp ⟨idx', he'⟩
  -- one address, one ordinal
  have hoo : o' = o := by
    have hlo' : o' < (chunks.map Prod.fst).length := by simpa using ho'
    have hlo : o < (chunks.map Prod.fst).length := by simpa using ho
    have hmap : (chunks.map Prod.fst)[o'] = (chunks.map Prod.fst)[o] := by simpa using heq
    exact (hnodup.getElem_inj_iff).mp hmap
  -- and the ordinals name each position once
  have hlen : (tableIndexOf L chunks).ordinals.length = chunks.length := by
    simp [tableIndexOf, length_sortBy_indexRecs hL]
  have hi : idx < (tableIndexOf L chunks).ordinals.length := by rw [hlen]; exact he.1
  have hi' : idx' < (tableIndexOf L chunks).ordinals.length := by rw [hlen]; exact he'.1
  have h1 : (tableIndexOf L chunks).ordinals[idx] = o := (List.getElem_eq_getD 0).trans he.2.2.1
  have h2 : (tableIndexOf L chunks).ordinals[idx'] = o' := (List.getElem_eq_getD 0).trans he'.2.2.1
  exact ((nodup_ordinals_tableIndexOf hL chunks).getElem_inj_iff).mp (h1.trans (hoo ▸ h2.symm))

/-- A table written from distinct addresses, read as `newTableReader` reads it, is laid out. -/
theorem layout_tableIndexOf (hfits : FitsFormat L chunks) (hnodup : (chunks.map Prod.fst).Nodup)
    (blockSize maxReadSize readAmpThresh : Nat) :
    (newTableReader (tableIndexOf L chunks) (tableLayout L chunks) blockSize maxReadSize
      readAmpThresh).Layout where
  valid := ⟨wellFormed_tableIndexOf hL hfits, unique_tableIndexOf hL hnodup,
    by simp [newTableReader, tableIndexOf, recordSizes],
    by simp [newTableReader, tableIndexOf, recordSizes]⟩
  offsets_eq := rfl
  data_lt := by
    obtain ⟨rest, hlayout, hrest⟩ := tableLayout_eq_append (L := L) chunks
    have hsum : (recordSizes L chunks).sum = (dataSection L chunks).length := by
      rw [recordSizes_eq, dataSection, List.length_flatten]
    have hfoot : 0 < footerSize := by simp [footerSize, magicNumberSize, magicNumber]
    show (recordSizes L chunks).sum < (tableLayout L chunks).length
    rw [hsum, hlayout, List.length_append]
    omega

end Written

namespace TableIndex

variable {ti : TableIndex} (hv : ti.Valid)
include hv

theorem Valid.length_of_lt {o : Nat} (ho : o < ti.chunkCount) :
    ti.lengths[o]? = some (ti.lengths.getD o 0) := by
  rw [List.getElem?_eq_getElem (by rw [hv.lengths_length]; exact ho), List.getElem_eq_getD 0]

theorem locates_of_offsetRecOf {i : Nat} {a : Addr} {o : OffsetRec} (h : ti.offsetRecOf i a = some o) :
    ti.Locates o := by
  by_cases hc : ti.Contains a
  · obtain ⟨o', idx, he⟩ := contains_iff_stores.mp hc
    rw [offsetRecOf_of_entryAt hv i he, Option.some.injEq] at h
    subst h
    have hlt : o' < ti.chunkCount := he.2.2.1 ▸ hv.wf.ordinal_getD_lt he.1
    exact ⟨hlt, by rw [List.getElem?_eq_getElem (by rw [hv.offsets_length]; exact hlt),
      List.getElem_eq_getD 0]⟩
  · rw [offsetRecOf_of_not_contains hv i hc] at h
    cases h

theorem locates_of_mem_offsetRecsOf {i : Nat} {reqs : List GetRecord} {rec : OffsetRec}
    (h : rec ∈ ti.offsetRecsOf i reqs) : ti.Locates rec := by
  obtain ⟨k, r, -, -, ho⟩ := mem_offsetRecsOf.mp h
  exact locates_of_offsetRecOf hv ho

end TableIndex

namespace TableReader

variable {tr : TableReader} (hlay : tr.Layout)
include hlay

theorem Layout.offset_eq {o : Nat} (ho : o < tr.index.chunkCount) :
    tr.index.offsets[o]? = some (tr.index.lengths.take o).sum := by
  rw [hlay.offsets_eq, getElem?_prefixSums _ _ (by rw [hlay.valid.lengths_length]; exact ho),
    Nat.zero_add]

/-- Every record ends within the data section. -/
theorem Layout.end_le {rec : OffsetRec} (hloc : tr.index.Locates rec) {len : Nat}
    (hlen : tr.index.lengths[rec.ordinal]? = some len) : rec.offset + len ≤ tr.index.lengths.sum := by
  have ho : rec.ordinal < tr.index.lengths.length := by
    rw [hlay.valid.lengths_length]; exact hloc.1
  rw [List.getElem?_eq_getElem ho, Option.some.injEq] at hlen
  have hoff := hloc.2
  rw [hlay.offset_eq hloc.1, Option.some.injEq] at hoff
  calc rec.offset + len = (tr.index.lengths.take (rec.ordinal + 1)).sum := by
        rw [List.sum_take_succ _ _ ho, hoff, hlen]
    _ ≤ (tr.index.lengths.take tr.index.lengths.length).sum := sum_take_le_sum_take _ ho
    _ = tr.index.lengths.sum := by rw [List.take_length]

/-- A record that starts inside another ends inside it: records of distinct ordinals are
disjoint. -/
theorem Layout.end_le_of_overlap {l rec : OffsetRec} (hl : tr.index.Locates l)
    (hr : tr.index.Locates rec) {ll lr : Nat} (hll : tr.index.lengths[l.ordinal]? = some ll)
    (hlr : tr.index.lengths[rec.ordinal]? = some lr) (hlt : rec.offset < l.offset + ll) : rec.offset + lr ≤ l.offset + ll := by
  have hlo := hl.2
  have hro := hr.2
  rw [hlay.offset_eq hl.1, Option.some.injEq] at hlo
  rw [hlay.offset_eq hr.1, Option.some.injEq] at hro
  rcases Nat.lt_trichotomy l.ordinal rec.ordinal with hlt' | heq | hgt
  · have hl' : l.ordinal < tr.index.lengths.length := by rw [hlay.valid.lengths_length]; exact hl.1
    rw [List.getElem?_eq_getElem hl', Option.some.injEq] at hll
    have := sum_take_add_le_sum_take _ hlt' hl'
    omega
  · -- the same record
    rw [heq, hlr, Option.some.injEq] at hll
    rw [heq] at hlo
    omega
  · have hr' : rec.ordinal < tr.index.lengths.length := by rw [hlay.valid.lengths_length]; exact hr.1
    rw [List.getElem?_eq_getElem hr', Option.some.injEq] at hlr
    have := sum_take_add_le_sum_take _ hgt hr'
    omega

end TableReader

/-! ## The reads of `getMany` -/

/-- Each record a read serves lies within the read. -/
def ReadBatch.Serves (ti : TableIndex) (b : ReadBatch) : Prop :=
  ∀ rec ∈ b.batch, ∃ len, ti.lengths[rec.ordinal]? = some len ∧ b.readStart ≤ rec.offset ∧
    rec.offset + len ≤ b.readEnd

/-- A read serves its records and lies within the table's bytes: the bounds checks of
`readAtOffsets` hold. -/
structure ReadBatch.Covers (tr : TableReader) (b : ReadBatch) : Prop where
  serves : b.Serves tr.index
  start_le : b.readStart ≤ b.readEnd
  end_le : b.readEnd ≤ tr.r.length
  start_lt : b.readStart < tr.r.length

/-- The open batch of `batchReads` serves its records and ends where its record `l` ends. -/
structure ReadBatch.EndsAt (ti : TableIndex) (b : ReadBatch) (l : OffsetRec) : Prop where
  serves : b.Serves ti
  locates : ti.Locates l
  start_le : b.readStart ≤ l.offset
  offset_le : l.offset ≤ b.readEnd
  length_eq : ti.lengths[l.ordinal]? = some (b.readEnd - l.offset)

/-- `canReadAhead` takes a record either inside the read, leaving its end, or past it, ending the
read with the record. -/
theorem canReadAhead_true {fRec : OffsetRec} {fLength readStart readEnd readAmp blockSize
    maxReadSize ampThresh newEnd newAmp : Nat}
    (h : canReadAhead fRec fLength readStart readEnd readAmp blockSize maxReadSize ampThresh =
      (newEnd, newAmp, true)) :
    (fRec.offset < readEnd ∧ newEnd = readEnd) ∨
      (readEnd ≤ fRec.offset ∧ newEnd = fRec.offset + fLength) := by
  unfold canReadAhead at h
  dsimp only at h
  by_cases hin : fRec.offset < readEnd
  · rw [if_pos hin] at h
    exact Or.inl ⟨hin, (Prod.mk.inj h).1.symm⟩
  · rw [if_neg hin] at h
    refine Or.inr ⟨Nat.le_of_not_lt hin, ?_⟩
    -- every other branch refuses the record
    split_ifs at h <;> first | exact (Prod.mk.inj h).1.symm | simp at h

namespace ReadBatch

theorem endsAt_single {ti : TableIndex} {rec : OffsetRec} (hloc : ti.Locates rec) {len : Nat}
    (hlen : ti.lengths[rec.ordinal]? = some len) :
    EndsAt ti ⟨rec.offset, rec.offset + len, [rec]⟩ rec where
  serves := by
    intro r hr
    rw [List.mem_singleton.mp hr]
    exact ⟨len, hlen, Nat.le_refl _, Nat.le_refl _⟩
  locates := hloc
  start_le := Nat.le_refl _
  offset_le := Nat.le_add_right _ _
  length_eq := by rw [Nat.add_sub_cancel_left]; exact hlen

variable {tr : TableReader} (hlay : tr.Layout)
include hlay

theorem EndsAt.covers {b : ReadBatch} {l : OffsetRec} (h : b.EndsAt tr.index l) : b.Covers tr := by
  have hend := hlay.end_le h.locates h.length_eq
  have := hlay.data_lt
  exact ⟨h.serves, h.start_le.trans h.offset_le, by omega, by have := h.start_le; omega⟩

/-- A record `canReadAhead` takes into the open batch keeps it ending at one of its records. -/
theorem EndsAt.extend {b : ReadBatch} {l rec : OffsetRec} (h : b.EndsAt tr.index l)
    (hloc : tr.index.Locates rec) {len : Nat} (hlen : tr.index.lengths[rec.ordinal]? = some len)
    (hle : l.offset ≤ rec.offset) {readAmp blockSize maxReadSize ampThresh newEnd newAmp : Nat}
    (hcan : canReadAhead rec len b.readStart b.readEnd readAmp blockSize maxReadSize ampThresh =
      (newEnd, newAmp, true)) :
    ∃ l', EndsAt tr.index ⟨b.readStart, newEnd, b.batch ++ [rec]⟩ l' ∧
      l.offset ≤ l'.offset ∧ l'.offset ≤ rec.offset := by
  rcases canReadAhead_true hcan with ⟨hin, rfl⟩ | ⟨hpast, rfl⟩
  · -- inside the read: the record ends no later than `l`, by the layout
    have hfit := hlay.end_le_of_overlap h.locates hloc h.length_eq hlen (by
      have := h.offset_le; omega)
    refine ⟨l, ⟨fun r hr => ?_, h.locates, h.start_le, h.offset_le, h.length_eq⟩, Nat.le_refl _, hle⟩
    rcases List.mem_append.mp hr with hr | hr
    · exact h.serves r hr
    · rw [List.mem_singleton.mp hr]
      exact ⟨len, hlen, h.start_le.trans hle, by dsimp only; omega⟩
  · refine ⟨rec, ⟨fun r hr => ?_, hloc, h.start_le.trans hle, Nat.le_add_right _ _,
      by rw [Nat.add_sub_cancel_left]; exact hlen⟩, hle, Nat.le_refl _⟩
    rcases List.mem_append.mp hr with hr | hr
    · obtain ⟨len', hlen', hs, he⟩ := h.serves r hr
      exact ⟨len', hlen', hs, by dsimp only at he ⊢; omega⟩
    · rw [List.mem_singleton.mp hr]
      exact ⟨len, hlen, h.start_le.trans hle, Nat.le_refl _⟩

end ReadBatch

namespace TableReader

variable {tr : TableReader} (hlay : tr.Layout)
include hlay

/-- `batchReads` over records of the table sorted by offset: the reads serve the records of the
open batch and then `recs`, in order, and each covers the records it serves. -/
theorem batchReads_covers (cur : Option (ReadBatch × Nat)) (recs : List OffsetRec)
    (hsorted : recs.Pairwise fun r r' => r.offset ≤ r'.offset)
    (hloc : ∀ rec ∈ recs, tr.index.Locates rec)
    (hcur : ∀ b readAmp, cur = some (b, readAmp) →
      ∃ l, b.EndsAt tr.index l ∧ ∀ rec ∈ recs, l.offset ≤ rec.offset) :
    ∃ bs, tr.batchReads cur recs = some bs ∧
      bs.flatMap ReadBatch.batch = (cur.map fun c => c.1.batch).getD [] ++ recs ∧
      ∀ b ∈ bs, b.Covers tr := by
  induction cur, recs using batchReads.induct with
  | case1 cur =>
    cases cur with
    | none => exact ⟨[], by rw [batchReads], rfl, fun b hb => absurd hb List.not_mem_nil⟩
    | some c =>
      obtain ⟨b, readAmp⟩ := c
      obtain ⟨l, hl, -⟩ := hcur b readAmp rfl
      refine ⟨[b], by rw [batchReads], by simp, fun b' hb' => ?_⟩
      rw [List.mem_singleton.mp hb']
      exact hl.covers hlay
  | case2 cur rec rest ih =>
    obtain ⟨hr, hs⟩ := List.pairwise_cons.mp hsorted
    have hrec := hloc rec List.mem_cons_self
    have hrest : ∀ r ∈ rest, tr.index.Locates r := fun r hr => hloc r (List.mem_cons_of_mem _ hr)
    have hlen := hlay.valid.length_of_lt hrec.1
    cases cur with
    | none =>
      -- the record opens a batch of its own
      obtain ⟨bs, hbs, hflat, hcov⟩ := ih (tr.index.lengths.getD rec.ordinal 0) hs hrest
        fun b _ hb => by
          cases hb
          exact ⟨rec, ReadBatch.endsAt_single hrec hlen, hr⟩
      refine ⟨bs, ?_, by simpa using hflat, hcov⟩
      rw [batchReads, hlen]
      exact hbs
    | some c =>
      obtain ⟨b, readAmp⟩ := c
      obtain ⟨l, hl, hlrest⟩ := hcur b readAmp rfl
      obtain ⟨ihgrow, ihclose⟩ := ih (tr.index.lengths.getD rec.ordinal 0)
      rw [batchReads, hlen]
      simp only [Option.bind_eq_bind, Option.bind_some]
      cases hcan : canReadAhead rec (tr.index.lengths.getD rec.ordinal 0) b.readStart b.readEnd
          readAmp tr.blockSize tr.maxReadSize tr.readAmpThresh with
      | mk newEnd rest' =>
        obtain ⟨newAmp, canRead⟩ := rest'
        cases canRead with
        | true =>
          -- the open batch takes the record
          obtain ⟨l', hl', hll', hl'r⟩ := hl.extend hlay hrec hlen (hlrest rec List.mem_cons_self)
            hcan
          obtain ⟨bs, hbs, hflat, hcov⟩ := ihgrow newEnd newAmp hs hrest fun b' _ hb' => by
            cases hb'
            exact ⟨l', hl', fun r hr' => hl'r.trans (hr r hr')⟩
          refine ⟨bs, hbs, by simpa using hflat, hcov⟩
        | false =>
          -- the open batch is read, and the record is looked at again
          obtain ⟨bs, hbs, hflat, hcov⟩ := ihclose hsorted hloc fun _ _ hb' => by cases hb'
          refine ⟨b :: bs, by simp [hbs], by simp [hflat], fun b' hb' => ?_⟩
          rcases List.mem_cons.mp hb' with rfl | hb'
          · exact hl.covers hlay
          · exact hcov b' hb'

/-- The chunk of the record `rec`: its bytes in the table, parsed. -/
def recordData (L : TableLib) (tr : TableReader) (rec : OffsetRec) : Option (List UInt8) := do
  let len ← tr.index.lengths[rec.ordinal]?
  parseChunk L ((tr.r.drop rec.offset).take len)

end TableReader

/-- A slice of a slice is a slice of the whole. -/
theorem take_drop_take_drop {α : Type} (l : List α) {s e o n : Nat} (hs : s ≤ o)
    (he : o + n ≤ e) : (((l.drop s).take (e - s)).drop (o - s)).take n = (l.drop o).take n := by
  rw [List.drop_take, List.drop_drop, List.take_take, Nat.add_sub_cancel' hs,
    Nat.min_eq_left (by omega)]

namespace TableReader

variable (L : TableLib) {tr : TableReader}

/-- `readAtOffsets` writes into each request its record's chunk. -/
abbrev setData (tr : TableReader) (rec : OffsetRec) (r : GetRecord) : GetRecord :=
  { r with data := tr.recordData L rec }

/-- A read that covers its records scatters their chunks onto their requests. -/
theorem readAtOffsets_eq {b : ReadBatch} (hb : b.Covers tr) (reqs : List GetRecord)
    (hidx : ∀ rec ∈ b.batch, rec.reqIdx < reqs.length)
    (hdata : ∀ rec ∈ b.batch, ∃ d, tr.recordData L rec = some d) :
    tr.readAtOffsets L b reqs = some (scatter OffsetRec.reqIdx (setData L tr) reqs b.batch) := by
  have hread : readAt tr.r b.readStart (b.readEnd - b.readStart) =
      some ((tr.r.drop b.readStart).take (b.readEnd - b.readStart)) := by
    rw [readAt, if_pos ⟨hb.start_lt, by have := hb.start_le; have := hb.end_le; omega⟩]
  rw [readAtOffsets, hread, Option.bind_eq_bind, Option.bind_some]
  -- the loop over the batch, from any requests of the same length
  suffices h : ∀ recs ⊆ b.batch, ∀ reqs : List GetRecord, (∀ rec ∈ recs, rec.reqIdx < reqs.length) →
      recs.foldlM (fun reqs rec => do
        guard (b.readStart ≤ rec.offset)
        let len ← tr.index.lengths[rec.ordinal]?
        guard (rec.offset - b.readStart + len ≤ b.readEnd - b.readStart)
        let data ← parseChunk L ((((tr.r.drop b.readStart).take (b.readEnd - b.readStart)).drop
          (rec.offset - b.readStart)).take len)
        guard (rec.reqIdx < reqs.length)
        some (reqs.modify rec.reqIdx fun r => { r with data := some data })) reqs =
      some (scatter OffsetRec.reqIdx (setData L tr) reqs recs) from
    h b.batch (List.Subset.refl _) reqs hidx
  intro recs hsub
  induction recs with
  | nil => intro reqs _; rfl
  | cons rec recs ih =>
    intro reqs hidx'
    have hrec : rec ∈ b.batch := hsub List.mem_cons_self
    obtain ⟨len, hlen, hs, he⟩ := hb.serves rec hrec
    obtain ⟨d, hrd⟩ := hdata rec hrec
    have hd := hrd
    rw [recordData, hlen, Option.bind_eq_bind, Option.bind_some] at hd
    have hlt := hidx' rec List.mem_cons_self
    have hmod : (reqs.modify rec.reqIdx fun r => { r with data := some d }) =
        reqs.modify rec.reqIdx (setData L tr rec) := by
      unfold setData
      rw [hrd]
    simp only [List.foldlM_cons, guard, if_pos hs, hlen, if_pos (show rec.offset - b.readStart + len ≤
      b.readEnd - b.readStart by omega), take_drop_take_drop _ hs (show rec.offset + len ≤ b.readEnd
      from he), hd, if_pos hlt, hmod, Option.bind_eq_bind, Option.bind_some]
    exact ih (fun r hr => hsub (List.mem_cons_of_mem _ hr)) _ fun r hr => by
      rw [List.length_modify]; exact hidx' r (List.mem_cons_of_mem _ hr)

/-- The reads of `getMany`, one after the other, scatter the chunks of all the records they
serve. -/
theorem foldlM_readAtOffsets (bs : List ReadBatch) (hcov : ∀ b ∈ bs, b.Covers tr)
    (reqs : List GetRecord) (hidx : ∀ rec ∈ bs.flatMap ReadBatch.batch, rec.reqIdx < reqs.length)
    (hdata : ∀ rec ∈ bs.flatMap ReadBatch.batch, ∃ d, tr.recordData L rec = some d) :
    bs.foldlM (fun reqs b => tr.readAtOffsets L b reqs) reqs =
      some (scatter OffsetRec.reqIdx (setData L tr) reqs (bs.flatMap ReadBatch.batch)) := by
  induction bs generalizing reqs with
  | nil => rfl
  | cons b bs ih =>
    rw [List.flatMap_cons] at hidx hdata
    rw [List.foldlM_cons, readAtOffsets_eq L (hcov b List.mem_cons_self) reqs
      (fun rec h => hidx rec (List.mem_append_left _ h))
      (fun rec h => hdata rec (List.mem_append_left _ h)), Option.bind_eq_bind, Option.bind_some,
      ih (fun b' h => hcov b' (List.mem_cons_of_mem _ h)) _
        (fun rec h => by rw [length_scatter]; exact hidx rec (List.mem_append_right _ h))
        (fun rec h => hdata rec (List.mem_append_right _ h)),
      List.flatMap_cons, scatter_append]

variable {L} (hlay : tr.Layout) (hL : L.Lawful)
include hlay hL

/-- The reads of `getMany` over the located records cover them, in offset order. -/
theorem batchReads_offsetRecsOf (reqs : List GetRecord) :
    ∃ bs, tr.batchReads none (L.sortBy OffsetRec.offset (tr.index.offsetRecsOf 0 reqs)) = some bs ∧
      bs.flatMap ReadBatch.batch = L.sortBy OffsetRec.offset (tr.index.offsetRecsOf 0 reqs) ∧
      ∀ b ∈ bs, b.Covers tr := by
  have hperm := hL.sortBy_perm OffsetRec.offset (tr.index.offsetRecsOf 0 reqs)
  obtain ⟨bs, hbs, hflat, hcov⟩ := batchReads_covers hlay none _ (hL.sortBy_sorted _ _)
    (fun rec h => TableIndex.locates_of_mem_offsetRecsOf hlay.valid (hperm.subset h))
    fun _ _ h => by cases h
  rw [Option.map_none, Option.getD_none, List.nil_append] at hflat
  exact ⟨bs, hbs, hflat, hcov⟩

/-- `getMany` on a laid-out table and requests sorted by prefix: its reads scatter the chunk of
every located record, in offset order, onto the requests marked found. -/
theorem getMany_eq_sorted (reqs : List GetRecord)
    (hsorted : reqs.Pairwise fun r r' => r.Prefix ≤ r'.Prefix)
    (hdata : ∀ rec ∈ tr.index.offsetRecsOf 0 reqs, ∃ d, tr.recordData L rec = some d) :
    tr.getMany L reqs = some (scatter OffsetRec.reqIdx (setData L tr) (reqs.map tr.index.markFound)
      (L.sortBy OffsetRec.offset (tr.index.offsetRecsOf 0 reqs)),
      reqs.any fun r => !r.found && !decide (r.Prefix ∈ tr.index.prefixes)) := by
  obtain ⟨bs, hbs, hflat, hcov⟩ := batchReads_offsetRecsOf hlay hL reqs
  have hmem : ∀ rec ∈ bs.flatMap ReadBatch.batch, rec ∈ tr.index.offsetRecsOf 0 reqs :=
    fun rec h => (hL.sortBy_perm _ _).subset (hflat ▸ h)
  have hidx : ∀ rec ∈ bs.flatMap ReadBatch.batch,
      rec.reqIdx < (reqs.map tr.index.markFound).length := fun rec h => by
    rw [List.length_map]
    exact TableIndex.reqIdx_lt_of_mem_offsetRecsOf (hmem rec h)
  rw [getMany, TableIndex.findOffsets_eq hlay.valid reqs hsorted]
  simp only [Option.bind_eq_bind, Option.bind_some, hbs]
  rw [foldlM_readAtOffsets L bs hcov _ hidx (fun rec h => hdata rec (hmem rec h)),
    Option.bind_some, hflat]

/-- With fewer than `2^32` requests the records serve distinct requests, so the order of the reads
does not show. -/
theorem getMany_eq (reqs : List GetRecord) (hsorted : reqs.Pairwise fun r r' => r.Prefix ≤ r'.Prefix)
    (hfit : reqs.length ≤ 2 ^ 32)
    (hdata : ∀ rec ∈ tr.index.offsetRecsOf 0 reqs, ∃ d, tr.recordData L rec = some d) :
    tr.getMany L reqs = some (scatter OffsetRec.reqIdx (setData L tr) (reqs.map tr.index.markFound)
      (tr.index.offsetRecsOf 0 reqs),
      reqs.any fun r => !r.found && !decide (r.Prefix ∈ tr.index.prefixes)) := by
  have hperm := hL.sortBy_perm OffsetRec.offset (tr.index.offsetRecsOf 0 reqs)
  have hnd : ((L.sortBy OffsetRec.offset (tr.index.offsetRecsOf 0 reqs)).map
      OffsetRec.reqIdx).Nodup :=
    (hperm.map _).nodup_iff.mpr (tr.index.nodup_reqIdx_offsetRecsOf (by rw [Nat.zero_add]; exact hfit))
  rw [getMany_eq_sorted hlay hL reqs hsorted hdata, scatter_perm hperm hnd]

omit hlay hL in
/-- The record `findOffsets` locates for an address is where `get` reads its chunk. -/
theorem recordData_of_get {i : Nat} {a : Addr} {rec : OffsetRec}
    (hrec : tr.index.offsetRecOf i a = some rec) {d : List UInt8} (hget : tr.get L a = some (some d)) :
    tr.recordData L rec = some d := by
  unfold TableIndex.offsetRecOf at hrec
  cases hl : tr.index.lookupOrdinal a with
  | none => simp [hl] at hrec
  | some o =>
    have hlt : o < tr.index.chunkCount := by
      by_contra hge
      simp [hl, hge] at hrec
    simp only [hl, Option.bind_eq_bind, Option.bind_some, if_pos hlt, Option.map_eq_some_iff] at hrec
    obtain ⟨off, hoff, rfl⟩ := hrec
    simp only [get, hl, count, Nat.ne_of_lt hlt, if_false, hoff, Option.bind_eq_bind,
      Option.bind_some] at hget
    obtain ⟨len, hlen, hget⟩ := Option.bind_eq_some_iff.mp hget
    obtain ⟨buff, hbuff, hget⟩ := Option.bind_eq_some_iff.mp hget
    obtain ⟨data, hdata, hget⟩ := Option.bind_eq_some_iff.mp hget
    have hbuff' : buff = (tr.r.drop off).take len := by
      unfold readAt at hbuff
      split_ifs at hbuff
      exact (Option.some.inj hbuff).symm
    have hd : data = d := by
      simp only [guard] at hget
      split_ifs at hget
      · simpa using hget
      · simp at hget
    rw [recordData, hlen, Option.bind_eq_bind, Option.bind_some, ← hbuff', hdata, hd]

omit hlay hL in
theorem has_eq_contains (hwf : tr.index.WellFormed) (a : Addr) :
    tr.has a = some (decide (tr.index.Contains a)) := by
  by_cases hc : tr.index.Contains a
  · obtain ⟨o, hs⟩ := TableIndex.contains_iff_stores.mp hc
    rw [has_of_stores hwf hs, decide_eq_true hc]
  · rw [has_of_not_stores hwf fun o hs => hc (TableIndex.contains_iff_stores.mpr ⟨o, hs⟩),
      decide_eq_false hc]

/-- `getMany` request by request: an unfound request whose address the table holds is found with
the chunk `get` returns, and every other request is left as it was. -/
theorem getElem?_getMany (reqs : List GetRecord)
    (hsorted : reqs.Pairwise fun r r' => r.Prefix ≤ r'.Prefix) (hfit : reqs.length ≤ 2 ^ 32)
    (hget : ∀ r ∈ reqs, r.found = false → tr.index.Contains r.a → ∃ d, tr.get L r.a = some (some d)) :
    ∃ reqs', tr.getMany L reqs = some (reqs',
        reqs.any fun r => !r.found && !decide (r.Prefix ∈ tr.index.prefixes)) ∧
      reqs'.length = reqs.length ∧
      ∀ (k : Nat) (r : GetRecord), reqs[k]? = some r →
        (r.found = false → tr.index.Contains r.a →
          ∃ d, tr.get L r.a = some (some d) ∧ reqs'[k]? = some { r with found := true, data := some d }) ∧
        (r.found = true ∨ ¬ tr.index.Contains r.a → reqs'[k]? = some r) := by
  have hv := hlay.valid
  -- the record of the request at `k`, when there is one
  have hrec : ∀ x ∈ tr.index.offsetRecsOf 0 reqs, ∃ r, reqs[x.reqIdx]? = some r ∧
      r.found = false ∧ tr.index.Contains r.a ∧ tr.index.offsetRecOf x.reqIdx r.a = some x := by
    intro x hx
    obtain ⟨r, hr, hf, hx'⟩ := TableIndex.mem_offsetRecsOf_zero hfit hx
    refine ⟨r, hr, hf, by_contra fun hc => ?_, hx'⟩
    rw [TableIndex.offsetRecOf_of_not_contains hv _ hc] at hx'
    cases hx'
  have hdata : ∀ x ∈ tr.index.offsetRecsOf 0 reqs, ∃ d, tr.recordData L x = some d := by
    intro x hx
    obtain ⟨r, hr, hf, hc, hx'⟩ := hrec x hx
    obtain ⟨d, hd⟩ := hget r (List.mem_of_getElem? hr) hf hc
    exact ⟨d, recordData_of_get hx' hd⟩
  refine ⟨_, getMany_eq hlay hL reqs hsorted hfit hdata, by simp, fun k r hk => ⟨?_, ?_⟩⟩
  · -- found here: its one record carries the chunk `get` reads
    intro hf hc
    obtain ⟨d, hd⟩ := hget r (List.mem_of_getElem? hk) hf hc
    obtain ⟨o, idx, he⟩ := TableIndex.contains_iff_stores.mp hc
    have hx := TableIndex.offsetRecOf_of_entryAt hv k he
    have hklt : k < 2 ^ 32 := by have := (List.getElem?_eq_some_iff.mp hk).1; omega
    have hmem : (⟨k % 2 ^ 32, o, tr.index.offsets.getD o 0⟩ : OffsetRec) ∈
        tr.index.offsetRecsOf 0 reqs :=
      TableIndex.mem_offsetRecsOf.mpr ⟨k, r, hk, hf, by rw [Nat.zero_add, hx]⟩
    have hnd : ((tr.index.offsetRecsOf 0 reqs).map OffsetRec.reqIdx).Nodup :=
      tr.index.nodup_reqIdx_offsetRecsOf (by omega)
    rw [Nat.mod_eq_of_lt hklt] at hx hmem
    have hrd := recordData_of_get hx hd
    have hat := getElem?_scatter_of_mem (f := setData L tr) (l := reqs.map tr.index.markFound) hnd hmem
    dsimp only at hat
    refine ⟨d, hd, ?_⟩
    rw [hat, List.getElem?_map, hk, Option.map_some, Option.map_some]
    simp only [setData, hrd, TableIndex.markFound, hf, decide_eq_true hc, Bool.false_or]
  · -- no record serves it
    intro hout
    have hnone : ∀ x ∈ tr.index.offsetRecsOf 0 reqs, x.reqIdx ≠ k := by
      intro x hx heq
      obtain ⟨r', hr', hf', hc', -⟩ := hrec x hx
      rw [heq, hk, Option.some.injEq] at hr'
      subst hr'
      rcases hout with hf | hc
      · rw [hf] at hf'
        cases hf'
      · exact hc hc'
    rw [getElem?_scatter_of_not_mem hnone, List.getElem?_map, hk, Option.map_some]
    rcases hout with hf | hc
    · rw [TableIndex.markFound_of_found hf]
    · rw [TableIndex.markFound_of_not_contains hc]

end TableReader

/-! ## The plan of `calcReads` -/

/-- The request of `rec` is there and not yet satisfied. -/
def OffsetRec.Pending (reqs : List GetRecord) (rec : OffsetRec) : Prop :=
  ∃ q, reqs[rec.reqIdx]? = some q ∧ q.data = none

/-- What `calcReads` writes into a request it plans a read for. -/
abbrev markSatisfied (_ : OffsetRec) (r : GetRecord) : GetRecord := { r with data := some [0x01] }

namespace OffsetRec

theorem Pending.scatter {reqs : List GetRecord} {rec : OffsetRec} (h : rec.Pending reqs)
    {f : OffsetRec → GetRecord → GetRecord} {xs : List OffsetRec}
    (hout : ∀ x ∈ xs, x.reqIdx ≠ rec.reqIdx) : rec.Pending (scatter OffsetRec.reqIdx f reqs xs) := by
  rw [Pending, getElem?_scatter_of_not_mem hout]
  exact h

theorem Pending.modify {reqs : List GetRecord} {rec : OffsetRec} (h : rec.Pending reqs) {i : Nat}
    (f : GetRecord → GetRecord) (hne : i ≠ rec.reqIdx) : rec.Pending (reqs.modify i f) := by
  obtain ⟨q, hq, hqd⟩ := h
  refine ⟨q, ?_, hqd⟩
  rw [List.getElem?_modify, hq]
  simp [hne]

theorem satisfied_scatter {reqs : List GetRecord} {xs : List OffsetRec}
    (hnd : (xs.map OffsetRec.reqIdx).Nodup) {x : OffsetRec} (hx : x ∈ xs) (hp : x.Pending reqs) :
    ∃ q, (scatter OffsetRec.reqIdx markSatisfied reqs xs)[x.reqIdx]? = some q ∧ q.data.isSome := by
  obtain ⟨q, hq, -⟩ := hp
  rw [getElem?_scatter_of_mem hnd hx, hq]
  exact ⟨_, rfl, rfl⟩

end OffsetRec

namespace TableReader

variable (tr : TableReader)

/-- The scan ahead of `calcReads` from an open batch marks satisfied exactly the records that
`batchReads` adds to that batch: a prefix `taken` of the records, after which `batchReads` reads
the batch and starts over at the rest. -/
theorem scanAhead_grow (b : ReadBatch) (readAmp : Nat) (rest : List OffsetRec)
    (reqs : List GetRecord) (hpend : ∀ rec ∈ rest, rec.Pending reqs)
    (hlen : ∀ rec ∈ rest, ∃ len, tr.index.lengths[rec.ordinal]? = some len)
    (hnd : (rest.map OffsetRec.reqIdx).Nodup) :
    ∃ taken rest', rest = taken ++ rest' ∧
      tr.scanAhead tr.blockSize tr.maxReadSize tr.readAmpThresh b.readStart b.readEnd readAmp rest
        reqs = some (scatter OffsetRec.reqIdx markSatisfied reqs taken) ∧
      ∃ b', tr.batchReads (some (b, readAmp)) rest = (tr.batchReads none rest').map (b' :: ·) := by
  induction rest generalizing b readAmp reqs with
  | nil => exact ⟨[], [], rfl, by rw [scanAhead]; rfl, b, by rw [batchReads, batchReads]; rfl⟩
  | cons f rest ih =>
    obtain ⟨q, hq, hqd⟩ := hpend f List.mem_cons_self
    obtain ⟨len, hlenf⟩ := hlen f List.mem_cons_self
    rw [List.map_cons, List.nodup_cons] at hnd
    rcases hcan : canReadAhead f len b.readStart b.readEnd readAmp tr.blockSize tr.maxReadSize
      tr.readAmpThresh with ⟨newEnd, newAmp, canRead⟩
    have hscan : tr.scanAhead tr.blockSize tr.maxReadSize tr.readAmpThresh b.readStart b.readEnd
        readAmp (f :: rest) reqs = if canRead then tr.scanAhead tr.blockSize tr.maxReadSize
          tr.readAmpThresh b.readStart newEnd newAmp rest
          (reqs.modify f.reqIdx fun r => { r with data := some [0x01] })
        else some reqs := by
      simp only [scanAhead, hq, Option.bind_eq_bind, Option.bind_some, hqd, Option.isSome_none,
        Bool.false_eq_true, if_false, hlenf, hcan]
    have hbatch : tr.batchReads (some (b, readAmp)) (f :: rest) = if canRead then
          tr.batchReads (some (⟨b.readStart, newEnd, b.batch ++ [f]⟩, newAmp)) rest
        else (tr.batchReads none (f :: rest)).map (b :: ·) := by
      rw [batchReads, hlenf, Option.bind_eq_bind, Option.bind_some]
      simp only [hcan]
    cases canRead with
    | true =>
      -- the batch takes `f`: so does the scan, and both go on from the grown batch
      have hpend' : ∀ rec ∈ rest, rec.Pending (reqs.modify f.reqIdx (markSatisfied f)) :=
        fun rec hrec => (hpend rec (List.mem_cons_of_mem _ hrec)).modify _ fun heq =>
          hnd.1 (heq ▸ List.mem_map_of_mem hrec)
      obtain ⟨taken, rest', hsplit, hs, b', hb⟩ := ih ⟨b.readStart, newEnd, b.batch ++ [f]⟩ newAmp
        _ hpend' (fun rec h => hlen rec (List.mem_cons_of_mem _ h)) hnd.2
      exact ⟨f :: taken, rest', by rw [hsplit]; rfl, by rw [hscan]; exact hs, b', by
        rw [hbatch]; exact hb⟩
    | false =>
      exact ⟨[], f :: rest, rfl, by rw [hscan]; rfl, b, by rw [hbatch]; rfl⟩

/-- `calcReads` passes over records whose requests are satisfied. -/
theorem calcReadsFrom_skip (blockSize maxReadSize ampThresh : Nat) (taken rest : List OffsetRec)
    (reqs : List GetRecord) (hsat : ∀ rec ∈ taken, ∃ q, reqs[rec.reqIdx]? = some q ∧ q.data.isSome) :
    tr.calcReadsFrom blockSize maxReadSize ampThresh (taken ++ rest) reqs =
      tr.calcReadsFrom blockSize maxReadSize ampThresh rest reqs := by
  induction taken with
  | nil => rfl
  | cons t taken ih =>
    obtain ⟨q, hq, hqd⟩ := hsat t List.mem_cons_self
    rw [List.cons_append, calcReadsFrom, hq, Option.bind_eq_bind, Option.bind_some, if_pos hqd]
    exact ih fun rec h => hsat rec (List.mem_cons_of_mem _ h)

/-- Over records whose requests are all pending and distinct, `calcReads` plans one read for each
read of `batchReads`. -/
theorem calcReadsFrom_eq_length (recs : List OffsetRec) (reqs : List GetRecord)
    (hpend : ∀ rec ∈ recs, rec.Pending reqs)
    (hlen : ∀ rec ∈ recs, ∃ len, tr.index.lengths[rec.ordinal]? = some len)
    (hnd : (recs.map OffsetRec.reqIdx).Nodup) :
    ∃ bs reqs', tr.batchReads none recs = some bs ∧
      tr.calcReadsFrom tr.blockSize tr.maxReadSize tr.readAmpThresh recs reqs =
        some (bs.length, reqs') := by
  -- strong induction on the number of records: a read passes over the records it takes
  suffices h : ∀ n, ∀ recs : List OffsetRec, recs.length ≤ n → ∀ reqs : List GetRecord,
      (∀ rec ∈ recs, rec.Pending reqs) →
      (∀ rec ∈ recs, ∃ len, tr.index.lengths[rec.ordinal]? = some len) →
      (recs.map OffsetRec.reqIdx).Nodup →
      ∃ bs reqs', tr.batchReads none recs = some bs ∧
        tr.calcReadsFrom tr.blockSize tr.maxReadSize tr.readAmpThresh recs reqs =
          some (bs.length, reqs') from
    h _ recs (Nat.le_refl _) reqs hpend hlen hnd
  intro n
  induction n with
  | zero =>
    intro recs hle reqs _ _ _
    rw [List.length_eq_zero_iff.mp (Nat.le_zero.mp hle)]
    exact ⟨[], reqs, by rw [batchReads], rfl⟩
  | succ n ih =>
    intro recs hle reqs hpend hlen hnd
    cases recs with
    | nil => exact ⟨[], reqs, by rw [batchReads], rfl⟩
    | cons rec rest =>
      obtain ⟨q, hq, hqd⟩ := hpend rec List.mem_cons_self
      obtain ⟨len, hlenr⟩ := hlen rec List.mem_cons_self
      rw [List.map_cons, List.nodup_cons] at hnd
      -- the read starting at `rec` marks it, then scans ahead
      have hpend1 : ∀ r ∈ rest, r.Pending (reqs.modify rec.reqIdx (markSatisfied rec)) :=
        fun r hr => (hpend r (List.mem_cons_of_mem _ hr)).modify _ fun heq =>
          hnd.1 (heq ▸ List.mem_map_of_mem hr)
      obtain ⟨taken, rest', hsplit, hscan, b', hb⟩ := tr.scanAhead_grow
        ⟨rec.offset, rec.offset + len, [rec]⟩ 0 rest _ hpend1
        (fun r h => hlen r (List.mem_cons_of_mem _ h)) hnd.2
      have hnd' := hnd.2
      rw [hsplit, List.map_append, List.nodup_append] at hnd'
      have hsat : ∀ t ∈ taken, ∃ q, (scatter OffsetRec.reqIdx markSatisfied
          (reqs.modify rec.reqIdx (markSatisfied rec)) taken)[t.reqIdx]? = some q ∧ q.data.isSome :=
        fun t ht => OffsetRec.satisfied_scatter hnd'.1 ht
          (hpend1 t (hsplit ▸ List.mem_append_left _ ht))
      have hpend2 : ∀ r ∈ rest', r.Pending (scatter OffsetRec.reqIdx markSatisfied
          (reqs.modify rec.reqIdx (markSatisfied rec)) taken) :=
        fun r hr => (hpend1 r (hsplit ▸ List.mem_append_right _ hr)).scatter fun x hx heq =>
          hnd'.2.2 _ (List.mem_map_of_mem hx) _ (List.mem_map_of_mem hr) heq
      have hlen' : rest'.length ≤ n := by
        have := congrArg List.length hsplit
        simp only [List.length_append, List.length_cons] at this hle
        omega
      obtain ⟨bs, reqs', hbs, hcalc⟩ := ih rest' hlen' _ hpend2
        (fun r h => hlen r (List.mem_cons_of_mem _ (hsplit ▸ List.mem_append_right _ h))) hnd'.2.1
      refine ⟨b' :: bs, reqs', ?_, ?_⟩
      · rw [batchReads, hlenr, Option.bind_eq_bind, Option.bind_some]
        exact hb.trans (by rw [hbs]; rfl)
      · simp only [calcReadsFrom, hq, Option.bind_eq_bind, Option.bind_some, hqd, Option.isSome_none,
          Bool.false_eq_true, if_false, hlenr]
        rw [show (reqs.modify rec.reqIdx fun r => { r with data := some [0x01] }) =
          reqs.modify rec.reqIdx (markSatisfied rec) from rfl, hscan, Option.bind_some, hsplit,
          tr.calcReadsFrom_skip _ _ _ _ _ _ hsat, hcalc]
        rfl

variable {L : TableLib} {tr} (hv : tr.index.Valid) (hL : L.Lawful)
include hv hL

/-- `calcReads` on requests sorted by prefix, none of them unfound with data already: as many
reads as `batchReads` groups the located records into, and the `remaining` of `findOffsets`. -/
theorem calcReads_eq_length (reqs : List GetRecord)
    (hsorted : reqs.Pairwise fun r r' => r.Prefix ≤ r'.Prefix) (hfit : reqs.length ≤ 2 ^ 32)
    (hpend : ∀ r ∈ reqs, r.found = false → r.data = none) :
    ∃ bs reqs', tr.batchReads none (L.sortBy OffsetRec.offset (tr.index.offsetRecsOf 0 reqs)) =
        some bs ∧
      tr.calcReads L reqs tr.blockSize tr.maxReadSize tr.readAmpThresh = some (bs.length,
        reqs.any (fun r => !r.found && !decide (r.Prefix ∈ tr.index.prefixes)), reqs') := by
  have hperm := hL.sortBy_perm OffsetRec.offset (tr.index.offsetRecsOf 0 reqs)
  have hpend' : ∀ rec ∈ L.sortBy OffsetRec.offset (tr.index.offsetRecsOf 0 reqs),
      rec.Pending (reqs.map tr.index.markFound) := by
    intro rec h
    obtain ⟨r, hr, hf, -⟩ := TableIndex.mem_offsetRecsOf_zero hfit (hperm.subset h)
    exact ⟨tr.index.markFound r, by rw [List.getElem?_map, hr, Option.map_some],
      hpend r (List.mem_of_getElem? hr) hf⟩
  have hlen : ∀ rec ∈ L.sortBy OffsetRec.offset (tr.index.offsetRecsOf 0 reqs),
      ∃ len, tr.index.lengths[rec.ordinal]? = some len := by
    intro rec h
    exact ⟨_, hv.length_of_lt (TableIndex.locates_of_mem_offsetRecsOf hv (hperm.subset h)).1⟩
  have hnd := (hperm.map OffsetRec.reqIdx).nodup_iff.mpr
    (tr.index.nodup_reqIdx_offsetRecsOf (by rw [Nat.zero_add]; exact hfit))
  obtain ⟨bs, reqs', hbs, hcalc⟩ := tr.calcReadsFrom_eq_length _ _ hpend' hlen hnd
  refine ⟨bs, reqs', hbs, ?_⟩
  rw [calcReads, TableIndex.findOffsets_eq hv reqs hsorted]
  simp only [Option.bind_eq_bind, Option.bind_some, hcalc]

end TableReader

end Noms.Nbs
