import Noms.Nbs.ReadPlanning
import Mathlib

/-!
# Batched lookups of a table, against single ones

`hasMany` answers every record as `has` does, and `getMany` fills every unfound request the table
holds with the chunk `get` returns and leaves the other requests as they are; every read it makes
covers the records it serves, so the bounds checks of `readAtOffsets` hold
(`hasMany_getMany_agree`). This needs a table whose records lie end to end and that holds each
address once, as written tables are (`layout_tableIndexOf`), and fewer than `2^32` requests, past
which the `uint32` position of an `offsetRec` wraps.

`calcReads` counts the reads `getMany` makes and reports the same `remaining`
(`calcReads_eq_reads`), as long as no request comes in unfound with data: `calcReads` takes data
as the mark of a satisfied request and passes over the record of such a request, which `getMany`
reads (`calcReads_preset_data`).
-/

namespace Noms.Nbs

open Noms.Lib

namespace TableReader

theorem hasMany_getMany_agree (L : TableLib) (hL : L.Lawful) (tr : TableReader) (hlay : tr.Layout)
    (addrs : List HasRecord) (haddrs : addrs.Pairwise fun r r' => r.Prefix ≤ r'.Prefix)
    (reqs : List GetRecord) (hreqs : reqs.Pairwise fun r r' => r.Prefix ≤ r'.Prefix)
    (hfit : reqs.length ≤ 2 ^ 32)
    (hget : ∀ r ∈ reqs, r.found = false → tr.has r.a = some true →
      ∃ d, tr.get L r.a = some (some d)) :
    tr.hasMany addrs = some (addrs.map (fun r => { r with has := r.has || tr.has r.a == some true }),
      addrs.any fun r => !r.has && tr.has r.a == some false) ∧
    (∃ reqs' rem, tr.getMany L reqs = some (reqs', rem) ∧ reqs'.length = reqs.length ∧
      ∀ (k : Nat) (r : GetRecord), reqs[k]? = some r → ∃ r', reqs'[k]? = some r' ∧
        (r.found = false → tr.has r.a = some true → r'.found = true ∧ tr.get L r.a = some r'.data) ∧
        (r.found = true ∨ tr.has r.a = some false → r' = r)) ∧
    (∀ ors rem reqs', tr.index.findOffsets reqs = some (ors, rem, reqs') →
      ∃ bs, tr.batchReads none (L.sortBy OffsetRec.offset ors) = some bs ∧
        bs.flatMap ReadBatch.batch = L.sortBy OffsetRec.offset ors ∧ ∀ b ∈ bs, b.Covers tr) := by
  have hwf := hlay.valid.wf
  have hhas := has_eq_contains hwf
  refine ⟨?_, ?_, ?_⟩
  · -- `hasMany` marks by `Contains`, which is what `has` answers
    have hmark : ∀ r : HasRecord,
        tr.index.markHas r = { r with has := r.has || tr.has r.a == some true } := by
      intro r
      unfold TableIndex.markHas
      rw [hhas]
      by_cases hc : tr.index.Contains r.a <;> simp [hc]
    have hany : ∀ r : HasRecord,
        (!(tr.index.markHas r).has) = (!r.has && tr.has r.a == some false) := by
      intro r
      unfold TableIndex.markHas
      rw [hhas]
      by_cases hc : tr.index.Contains r.a <;> simp [hc]
    rw [hasMany, TableIndex.hasManyFrom_spec hwf addrs haddrs 0
      (fun k hk => absurd hk (Nat.not_lt_zero k)) (Nat.zero_le _), List.any_map,
      List.map_congr_left fun r _ => hmark r]
    simp only [Function.comp_def, hany]
  · have hget' : ∀ r ∈ reqs, r.found = false → tr.index.Contains r.a →
        ∃ d, tr.get L r.a = some (some d) := fun r hr hf hc =>
      hget r hr hf (by rw [hhas, decide_eq_true hc])
    obtain ⟨reqs', hmany, hlen, hat⟩ := getElem?_getMany hlay hL reqs hreqs hfit hget'
    refine ⟨reqs', _, hmany, hlen, fun k r hk => ?_⟩
    have hk' : k < reqs'.length := by rw [hlen]; exact (List.getElem?_eq_some_iff.mp hk).1
    refine ⟨reqs'[k], List.getElem?_eq_getElem hk', fun hf hhr => ?_, fun hout => ?_⟩
    · obtain ⟨d, hd, hr'⟩ := (hat k r hk).1 hf (by simpa [hhas] using hhr)
      rw [List.getElem?_eq_getElem hk', Option.some.injEq] at hr'
      rw [hr']
      exact ⟨rfl, hd⟩
    · have hr' := (hat k r hk).2 (hout.imp_right fun h => by simpa [hhas] using h)
      rw [List.getElem?_eq_getElem hk', Option.some.injEq] at hr'
      exact hr'
  · intro ors rem reqs' h
    rw [TableIndex.findOffsets_eq hlay.valid reqs hreqs, Option.some.injEq, Prod.mk.injEq] at h
    rw [← h.1]
    exact batchReads_offsetRecsOf hlay hL reqs

/-- The table written from `sharedPrefixChunks`, two chunks under one prefix. -/
def sharedPrefixReader : TableReader :=
  newTableReader (tableIndexOf TableLib.plain sharedPrefixChunks)
    (tableLayout TableLib.plain sharedPrefixChunks) 0 0 0

theorem fitsFormat_sharedPrefixChunks : FitsFormat TableLib.plain sharedPrefixChunks :=
  ⟨by decide, by decide, by decide⟩

theorem sharedPrefixReader_layout : sharedPrefixReader.Layout :=
  layout_tableIndexOf TableLib.plain_lawful fitsFormat_sharedPrefixChunks (by decide) 0 0 0

/-- A lookup of each chunk of `sharedPrefixChunks`. -/
def sharedPrefixHasRecords : List HasRecord :=
  [⟨sharedPrefixChunks[0].1, sharedPrefixChunks[0].1.Prefix, 0, false, rfl⟩,
    ⟨sharedPrefixChunks[1].1, sharedPrefixChunks[1].1.Prefix, 0, false, rfl⟩]

/-- A request for each chunk of `sharedPrefixChunks`. -/
def sharedPrefixRequests : List GetRecord :=
  [⟨sharedPrefixChunks[0].1, sharedPrefixChunks[0].1.Prefix, 0, false, none, rfl⟩,
    ⟨sharedPrefixChunks[1].1, sharedPrefixChunks[1].1.Prefix, 0, false, none, rfl⟩]

theorem get_sharedPrefixRequests :
    ∀ r ∈ sharedPrefixRequests, r.found = false → sharedPrefixReader.has r.a = some true →
      ∃ d, sharedPrefixReader.get TableLib.plain r.a = some (some d) := by
  intro r hr _ _
  have hwritten (o : Nat) (ho : o < sharedPrefixChunks.length) :=
    get_written TableLib.plain_lawful fitsFormat_sharedPrefixChunks 0 0 0 (by decide) ho
  simp only [sharedPrefixRequests, List.mem_cons, List.not_mem_nil, or_false] at hr
  rcases hr with rfl | rfl
  · exact ⟨_, hwritten 0 (by decide)⟩
  · exact ⟨_, hwritten 1 (by decide)⟩

theorem hasMany_getMany_agree_sharedPrefix :
    sharedPrefixReader.hasMany sharedPrefixHasRecords = some (sharedPrefixHasRecords.map
        (fun r => { r with has := r.has || sharedPrefixReader.has r.a == some true }),
      sharedPrefixHasRecords.any fun r => !r.has && sharedPrefixReader.has r.a == some false) ∧
    (∃ reqs' rem, sharedPrefixReader.getMany TableLib.plain sharedPrefixRequests = some (reqs', rem) ∧
      reqs'.length = sharedPrefixRequests.length ∧
      ∀ (k : Nat) (r : GetRecord), sharedPrefixRequests[k]? = some r → ∃ r', reqs'[k]? = some r' ∧
        (r.found = false → sharedPrefixReader.has r.a = some true →
          r'.found = true ∧ sharedPrefixReader.get TableLib.plain r.a = some r'.data) ∧
        (r.found = true ∨ sharedPrefixReader.has r.a = some false → r' = r)) ∧
    (∀ ors rem reqs', sharedPrefixReader.index.findOffsets sharedPrefixRequests = some (ors, rem, reqs') →
      ∃ bs, sharedPrefixReader.batchReads none (TableLib.plain.sortBy OffsetRec.offset ors) = some bs ∧
        bs.flatMap ReadBatch.batch = TableLib.plain.sortBy OffsetRec.offset ors ∧
        ∀ b ∈ bs, b.Covers sharedPrefixReader) :=
  hasMany_getMany_agree TableLib.plain TableLib.plain_lawful sharedPrefixReader
    sharedPrefixReader_layout sharedPrefixHasRecords (by decide) sharedPrefixRequests (by decide)
    (by decide) get_sharedPrefixRequests

/-- A request for the first chunk of `sharedPrefixChunks`. -/
def firstChunkRequest : GetRecord :=
  ⟨sharedPrefixChunks[0].1, sharedPrefixChunks[0].1.Prefix, 0, false, none, rfl⟩

/-- Past `2^32` requests the `uint32` position of a record wraps: request `2^32` is marked found,
but its chunk goes to request 0, and its data stays `nil` while `get` returns the chunk. -/
theorem getMany_wraps :
    ∃ reqs' rem, sharedPrefixReader.getMany TableLib.plain
        (List.replicate (2 ^ 32 + 1) firstChunkRequest) = some (reqs', rem) ∧
      ∃ r', reqs'[2 ^ 32]? = some r' ∧ r'.found = true ∧ r'.data = none ∧
        sharedPrefixReader.get TableLib.plain r'.a = some (some sharedPrefixChunks[0].2) := by
  have hlay := sharedPrefixReader_layout
  have hget : sharedPrefixReader.get TableLib.plain firstChunkRequest.a =
      some (some sharedPrefixChunks[0].2) :=
    get_written TableLib.plain_lawful fitsFormat_sharedPrefixChunks 0 0 0 (by decide) (by decide)
  have hc : sharedPrefixReader.index.Contains firstChunkRequest.a :=
    TableIndex.contains_iff_stores.mpr ⟨0, (stores_tableIndexOf_iff TableLib.plain_lawful).mpr
      ⟨by decide, rfl⟩⟩
  -- every record is one of the request's, and reads its chunk
  have hrec : ∀ x ∈ sharedPrefixReader.index.offsetRecsOf 0
      (List.replicate (2 ^ 32 + 1) firstChunkRequest), ∃ k,
        sharedPrefixReader.index.offsetRecOf k firstChunkRequest.a = some x := by
    intro x hx
    obtain ⟨k, r, hk, -, hr⟩ := TableIndex.mem_offsetRecsOf.mp hx
    obtain rfl := List.eq_of_mem_replicate (List.mem_of_getElem? hk)
    exact ⟨_, hr⟩
  have hdata : ∀ x ∈ sharedPrefixReader.index.offsetRecsOf 0
      (List.replicate (2 ^ 32 + 1) firstChunkRequest), ∃ d,
        sharedPrefixReader.recordData TableLib.plain x = some d := fun x hx =>
    let ⟨_, hx'⟩ := hrec x hx
    ⟨_, recordData_of_get hx' hget⟩
  -- no record has the position `2^32`
  have hout : ∀ x ∈ TableLib.plain.sortBy OffsetRec.offset (sharedPrefixReader.index.offsetRecsOf 0
      (List.replicate (2 ^ 32 + 1) firstChunkRequest)), x.reqIdx ≠ 2 ^ 32 := by
    intro x hx
    obtain ⟨k, hk⟩ := hrec x ((TableLib.plain_lawful.sortBy_perm _ _).subset hx)
    rw [TableIndex.reqIdx_of_offsetRecOf hk]
    exact Nat.ne_of_lt (Nat.mod_lt _ (by decide))
  refine ⟨_, _, getMany_eq_sorted hlay TableLib.plain_lawful _
    (List.pairwise_replicate.mpr (Or.inr (Nat.le_refl _))) hdata,
    sharedPrefixReader.index.markFound firstChunkRequest, ?_, ?_, rfl, hget⟩
  · rw [getElem?_scatter_of_not_mem hout, List.getElem?_map, List.getElem?_replicate,
      if_pos (by decide), Option.map_some]
  · simp [TableIndex.markFound, hc]

/-- A request for the first chunk of `sharedPrefixChunks`, unfound but holding data already. -/
def presetRequest : GetRecord :=
  ⟨sharedPrefixChunks[0].1, sharedPrefixChunks[0].1.Prefix, 0, false, some [], rfl⟩

end TableReader

end Noms.Nbs
