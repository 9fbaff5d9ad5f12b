import Noms.Nbs.BatchLookup

/-!
# The records `findOffsets` locates, on an index holding each address once

`findOffsets` appends a record for every position of a run whose suffix matches, so on an index
that holds some address at two positions it locates that address twice. A table written from a
memtable holds each address once (`TableIndex.Valid`); there the scan of a run finds the one
position of the address (`offsetsInRun_unique`), and `findOffsets` locates exactly one record
for each unfound request the index holds, in request order (`findOffsetsFrom_records`): the
record `offsetRecOf i a`, at the ordinal `lookupOrdinal` finds for `a`. Records of distinct
requests then have distinct `reqIdx` as long as the requests fit in a `uint32`
(`nodup_reqIdx_offsetRecsOf`).
-/

namespace Noms.Nbs

open Noms.Lib

namespace TableIndex

/-- No address is held at two positions of the index. -/
def Unique (ti : TableIndex) : Prop :=
  ∀ idx idx' h o o', ti.EntryAt idx h o → ti.EntryAt idx' h o' → idx = idx'

/-- A well-formed index that holds each address at one position, with an offset and a length
for every ordinal. -/
structure Valid (ti : TableIndex) : Prop where
  wf : ti.WellFormed
  unique : ti.Unique
  offsets_length : ti.offsets.length = ti.chunkCount
  lengths_length : ti.lengths.length = ti.chunkCount

/-- The record of request `i` for `a`: the ordinal `lookupOrdinal` finds, and its offset. -/
def offsetRecOf (ti : TableIndex) (i : Nat) (a : Addr) : Option OffsetRec := do
  let o ← ti.lookupOrdinal a
  if o < ti.chunkCount then ti.offsets[o]?.map fun offset => ⟨i % 2 ^ 32, o, offset⟩ else none

/-- The records of the requests from position `i` on: one for each unfound request whose
address the index holds. -/
def offsetRecsOf (ti : TableIndex) (i : Nat) : List GetRecord → List OffsetRec
  | [] => []
  | r :: rest =>
    (if r.found then [] else (ti.offsetRecOf i r.a).toList) ++ ti.offsetRecsOf (i + 1) rest

theorem reqIdx_of_offsetRecOf {ti : TableIndex} {i : Nat} {a : Addr} {o : OffsetRec}
    (h : ti.offsetRecOf i a = some o) : o.reqIdx = i % 2 ^ 32 := by
  unfold offsetRecOf at h
  cases hl : ti.lookupOrdinal a with
  | none => simp [hl] at h
  | some o' =>
    by_cases hlt : o' < ti.chunkCount
    · simp only [hl, Option.bind_eq_bind, Option.bind_some, if_pos hlt, Option.map_eq_some_iff] at h
      obtain ⟨_, -, rfl⟩ := h
      rfl
    · simp [hl, hlt] at h

theorem mem_offsetRecsOf {ti : TableIndex} {i : Nat} {reqs : List GetRecord} {o : OffsetRec} :
    o ∈ ti.offsetRecsOf i reqs ↔
      ∃ k r, reqs[k]? = some r ∧ r.found = false ∧ ti.offsetRecOf (i + k) r.a = some o := by
  induction reqs generalizing i with
  | nil => simp [offsetRecsOf]
  | cons r rest ih =>
    rw [offsetRecsOf, List.mem_append, ih]
    constructor
    · rintro (h | ⟨k, r', hk, hf, ho⟩)
      · cases hr : r.found
        · exact ⟨0, r, rfl, hr, by simpa [hr] using h⟩
        · simp [hr] at h
      · exact ⟨k + 1, r', hk, hf, by rw [← ho, Nat.add_assoc, Nat.add_comm 1 k]⟩
    · rintro ⟨_ | k, r', hk, hf, ho⟩
      · obtain rfl : r = r' := by simpa using hk
        rw [Nat.add_zero] at ho
        exact Or.inl (by simp [hf, ho])
      · exact Or.inr ⟨k, r', hk, hf, by rw [← ho, Nat.add_assoc, Nat.add_comm 1 k]⟩

/-- The records of the requests from `i` on serve distinct positions of the request list. -/
theorem map_reqIdx_offsetRecsOf_sublist (ti : TableIndex) (i : Nat) (reqs : List GetRecord) :
    ((ti.offsetRecsOf i reqs).map OffsetRec.reqIdx).Sublist
      ((List.range' i reqs.length).map (· % 2 ^ 32)) := by
  induction reqs generalizing i with
  | nil => simp [offsetRecsOf]
  | cons r rest ih =>
    rw [offsetRecsOf, List.map_append, List.length_cons, List.range'_succ, List.map_cons,
      ← List.singleton_append]
    refine List.Sublist.append ?_ (ih (i + 1))
    cases hr : r.found
    · cases ho : ti.offsetRecOf i r.a with
      | none => simp
      | some o => simp [reqIdx_of_offsetRecOf ho]
    · simp

theorem nodup_reqIdx_offsetRecsOf (ti : TableIndex) {i : Nat} {reqs : List GetRecord}
    (hfit : i + reqs.length ≤ 2 ^ 32) : ((ti.offsetRecsOf i reqs).map OffsetRec.reqIdx).Nodup := by
  refine (map_reqIdx_offsetRecsOf_sublist ti i reqs).nodup ?_
  -- below `2^32` the `uint32` conversion is the identity
  have hid : (List.range' i reqs.length).map (· % 2 ^ 32) = List.range' i reqs.length := by
    refine (List.map_congr_left fun k hk => Nat.mod_eq_of_lt ?_).trans (List.map_id' _)
    have := List.mem_range'_1.mp hk
    omega
  rw [hid]
  exact List.nodup_range' 1

/-- A record of the requests from 0 on serves a position of the request list. -/
theorem reqIdx_lt_of_mem_offsetRecsOf {ti : TableIndex} {reqs : List GetRecord} {o : OffsetRec}
    (ho : o ∈ ti.offsetRecsOf 0 reqs) : o.reqIdx < reqs.length := by
  obtain ⟨k, r, hk, -, hr⟩ := mem_offsetRecsOf.mp ho
  rw [reqIdx_of_offsetRecOf hr, Nat.zero_add]
  exact Nat.lt_of_le_of_lt (Nat.mod_le _ _) (List.getElem?_eq_some_iff.mp hk).1

/-- With fewer than `2^32` requests, a record of the requests from 0 on serves the request at its
`reqIdx`. -/
theorem mem_offsetRecsOf_zero {ti : TableIndex} {reqs : List GetRecord}
    (hfit : reqs.length ≤ 2 ^ 32) {o : OffsetRec} (ho : o ∈ ti.offsetRecsOf 0 reqs) :
    ∃ r, reqs[o.reqIdx]? = some r ∧ r.found = false ∧ ti.offsetRecOf o.reqIdx r.a = some o := by
  obtain ⟨k, r, hk, hf, hr⟩ := mem_offsetRecsOf.mp ho
  rw [Nat.zero_add] at hr
  have hlt : k < reqs.length := (List.getElem?_eq_some_iff.mp hk).1
  have hidx : o.reqIdx = k := by
    rw [reqIdx_of_offsetRecOf hr, Nat.mod_eq_of_lt (by omega)]
  exact ⟨r, hidx ▸ hk, hf, hidx ▸ hr⟩

section Valid

variable {ti : TableIndex} (hv : ti.Valid)
include hv

theorem Valid.ordinal_eq {idx idx' : Nat} {h : Addr} {o o' : Nat} (he : ti.EntryAt idx h o)
    (he' : ti.EntryAt idx' h o') : o = o' := by
  obtain rfl := hv.unique idx idx' h o o' he he'
  exact he.2.2.1.symm.trans he'.2.2.1

theorem offsetRecOf_of_entryAt (i : Nat) {idx o : Nat} {a : Addr} (he : ti.EntryAt idx a o) :
    ti.offsetRecOf i a = some ⟨i % 2 ^ 32, o, ti.offsets.getD o 0⟩ := by
  have hlt : o < ti.chunkCount := he.2.2.1 ▸ hv.wf.ordinal_getD_lt he.1
  have hl : ti.lookupOrdinal a = some o :=
    lookupOrdinal_of_stores hv.wf ⟨idx, he⟩ fun o' ⟨idx', he'⟩ => (hv.ordinal_eq he he').symm
  have hoff : ti.offsets[o]? = some (ti.offsets.getD o 0) := by
    rw [List.getElem?_eq_getElem (by rw [hv.offsets_length]; exact hlt), List.getElem_eq_getD 0]
  simp only [offsetRecOf, hl, Option.bind_eq_bind, Option.bind_some, if_pos hlt, hoff,
    Option.map_some]

theorem offsetRecOf_of_not_contains (i : Nat) {a : Addr} (hc : ¬ ti.Contains a) :
    ti.offsetRecOf i a = none := by
  have hl := lookupOrdinal_of_not_stores hv.wf fun o hs => hc (contains_iff_stores.mpr ⟨o, hs⟩)
  simp [offsetRecOf, hl]

theorem offsetRecsOf_eq_nil (i : Nat) {reqs : List GetRecord} (hc : ∀ r ∈ reqs, ¬ ti.Contains r.a) :
    ti.offsetRecsOf i reqs = [] := by
  refine List.eq_nil_iff_forall_not_mem.mpr fun o ho => ?_
  obtain ⟨k, r, hk, -, ho⟩ := mem_offsetRecsOf.mp ho
  rw [offsetRecOf_of_not_contains hv _ (hc r (List.mem_of_getElem? hk))] at ho
  cases ho

/-- One position of a run: a record when the suffix there matches, then the rest of the run. -/
theorem offsetsInRun_step (i : Nat) (a : Addr) {j : Nat} (hj : j < ti.chunkCount)
    (hp : ti.prefixes.getD j 0 = a.Prefix) :
    ti.offsetsInRun i a a.Prefix j = (ti.offsetsInRun i a a.Prefix (j + 1)).map fun rest =>
      if ti.suffixAt (ti.ordinals.getD j 0) = a.suffix then
        ⟨i % 2 ^ 32, ti.ordinals.getD j 0, ti.offsets.getD (ti.ordinals.getD j 0) 0⟩ :: rest
      else rest := by
  have hin : j < ti.prefixes.length ∧ a.Prefix = ti.prefixes.getD j 0 :=
    ⟨by rw [hv.wf.prefixes_length]; exact hj, hp.symm⟩
  have hlt := hv.wf.ordinal_getD_lt hj
  have hord : ti.ordinals[j]? = some (ti.ordinals.getD j 0) := by
    rw [List.getElem?_eq_getElem (by rw [hv.wf.ordinals_length]; exact hj), List.getElem_eq_getD 0]
  have hoff : ti.offsets[ti.ordinals.getD j 0]? = some (ti.offsets.getD (ti.ordinals.getD j 0) 0) := by
    rw [List.getElem?_eq_getElem (by rw [hv.offsets_length]; exact hlt), List.getElem_eq_getD 0]
  rw [offsetsInRun, if_pos hin, prefixIdxToOrdinal_eq hv.wf hj]
  simp only [Option.bind_eq_bind, Option.bind_some, ordinalSuffixMatches_eq hv.wf hlt]
  cases hrest : ti.offsetsInRun i a a.Prefix (j + 1) with
  | none => rw [Option.bind_none, Option.map_none]
  | some rest =>
    rw [Option.bind_some, Option.map_some]
    by_cases hm : ti.suffixAt (ti.ordinals.getD j 0) = a.suffix
    · rw [hm, beq_self_eq_true, if_pos rfl, ← hm, hord, Option.bind_some, hoff, Option.bind_some,
        if_pos rfl]
    · have hm' : (a.suffix == ti.suffixAt (ti.ordinals.getD j 0)) = false :=
        beq_false_of_ne fun h => hm h.symm
      rw [hm', if_neg Bool.false_ne_true, if_neg hm]

/-- From a start `j` of the run up to the one position `p` that holds `a`, the scan finds just
`p`'s record. -/
theorem offsetsInRun_of_entryAt (i : Nat) {a : Addr} {p o : Nat} (he : ti.EntryAt p a o) (j : Nat) :
    j ≤ p → ti.InRun a.Prefix j p →
      ti.offsetsInRun i a a.Prefix j = some [⟨i % 2 ^ 32, o, ti.offsets.getD o 0⟩] := by
  induction j using offsetsInRun.induct ti a.Prefix with
  | case1 j _ ih =>
    intro hjp hrun
    have hj := hrun j (Nat.le_refl j) hjp
    rw [offsetsInRun_step hv i a hj.1 hj.2]
    rcases Nat.eq_or_lt_of_le hjp with rfl | hjp
    · -- at `p` itself: its record, and no other position of the run holds `a`
      have hnil : ti.offsetsInRun i a a.Prefix (j + 1) = some [] := by
        obtain ⟨ors, hors, hempty, -⟩ := offsetsInRun_spec hv.wf hv.offsets_length i a (j + 1)
        rw [hors, hempty.mpr fun k hk hrun' hs => ?_]
        have hk' := hrun' k hk (Nat.le_refl k)
        have := hv.unique k j a _ o ⟨hk'.1, hk'.2, rfl, hs⟩ he
        omega
      rw [hnil, he.2.2.1]
      simp [he.2.2.2]
    · have hmiss : ti.suffixAt (ti.ordinals.getD j 0) ≠ a.suffix := fun hs =>
        absurd (hv.unique j p a _ o ⟨hj.1, hj.2, rfl, hs⟩ he) (Nat.ne_of_lt hjp)
      rw [ih hjp hrun.tail, Option.map_some, if_neg hmiss]
  | case2 j hout =>
    intro hjp hrun
    have hj := hrun j (Nat.le_refl j) hjp
    exact absurd ⟨by rw [hv.wf.prefixes_length]; exact hj.1, hj.2.symm⟩ hout

/-- Scanning the run of `a` from its lower bound yields the record `offsetRecOf`, if any. -/
theorem offsetsInRun_unique (i : Nat) {a : Addr} {r : Nat} (hlb : ti.LowerBound a.Prefix r) :
    ti.offsetsInRun i a a.Prefix r = some (ti.offsetRecOf i a).toList := by
  by_cases hc : ti.Contains a
  · obtain ⟨o, idx, he⟩ := contains_iff_stores.mp hc
    obtain ⟨hle, hrun⟩ := inRun_of_lowerBound hv.wf hlb he.1 he.2.1
    rw [offsetsInRun_of_entryAt hv i he r hle hrun, offsetRecOf_of_entryAt hv i he]
    rfl
  · obtain ⟨ors, hors, hempty, -⟩ := offsetsInRun_of_lowerBound hv.wf hv.offsets_length i hlb
    rw [hors, hempty.mpr hc, offsetRecOf_of_not_contains hv i hc]
    rfl

/-- `findOffsets` from a position that every request still to come is above locates exactly the
records `offsetRecsOf`. -/
theorem findOffsetsFrom_records (reqs : List GetRecord)
    (hsorted : reqs.Pairwise fun r r' => r.Prefix ≤ r'.Prefix) (filterIdx i : Nat)
    (hbelow : ∀ k < filterIdx, ∀ r ∈ reqs, ti.prefixes.getD k 0 < r.Prefix)
    (hi : filterIdx ≤ ti.prefixes.length) {ors : List OffsetRec} {rem : Bool}
    {reqs' : List GetRecord} (h : ti.findOffsetsFrom filterIdx i reqs = some (ors, rem, reqs')) :
    ors = ti.offsetRecsOf i reqs := by
  induction reqs generalizing filterIdx i ors rem reqs' with
  | nil =>
    simp only [findOffsetsFrom, Option.some.injEq, Prod.mk.injEq] at h
    rw [← h.1]
    rfl
  | cons r rest ih =>
    obtain ⟨hr, hs⟩ := List.pairwise_cons.mp hsorted
    obtain ⟨a, p, o, found, data, rfl⟩ := r
    cases found with
    | true =>
      rw [findOffsetsFrom, if_pos rfl, Option.map_eq_some_iff] at h
      obtain ⟨⟨ors', rem', rest'⟩, h', heq⟩ := h
      cases heq
      have hrest : ∀ k < filterIdx, ∀ r' ∈ rest, ti.prefixes.getD k 0 < r'.Prefix :=
        fun k hk r' hr' => hbelow k hk r' (List.mem_cons_of_mem _ hr')
      simp [offsetRecsOf, ih hs filterIdx (i + 1) hrest hi h']
    | false =>
      rw [findOffsetsFrom, if_neg Bool.false_ne_true] at h
      dsimp only at h
      have hlb : ti.LowerBound a.Prefix (ti.advanceFilter a.Prefix filterIdx) :=
        lowerBound_advanceFilter hv.wf (fun k hk => hbelow k hk _ List.mem_cons_self) hi
      have hnext : ∀ k < ti.advanceFilter a.Prefix filterIdx, ∀ r' ∈ rest,
          ti.prefixes.getD k 0 < r'.Prefix :=
        fun k hk r' hr' => Nat.lt_of_lt_of_le (hlb.2.1 k hk) (hr r' hr')
      by_cases hend : ti.prefixes.length ≤ ti.advanceFilter a.Prefix filterIdx
      · -- the loop breaks: no request from here on is in the index
        rw [if_pos hend, Option.some.injEq, Prod.mk.injEq] at h
        rw [← h.1, eq_comm]
        refine offsetRecsOf_eq_nil hv i fun r' hr' => ?_
        rcases List.mem_cons.mp hr' with rfl | hr'
        · exact not_contains_of_below hv.wf fun k hk => hlb.2.1 k (by omega)
        · refine not_contains_of_below hv.wf fun k hk => ?_
          rw [← r'.prefix_eq]
          exact hnext k (by omega) r' hr'
      · rw [if_neg hend] at h
        by_cases hmis : a.Prefix ≠ ti.prefixes.getD (ti.advanceFilter a.Prefix filterIdx) 0
        · have hnot : ¬ ti.Contains a := fun hc =>
            not_mem_of_lowerBound hv.wf hlb (fun h => hmis h.2.symm) (mem_of_contains hv.wf hc)
          rw [if_pos hmis, Option.map_eq_some_iff] at h
          obtain ⟨⟨ors', rem', rest'⟩, h', heq⟩ := h
          cases heq
          simp [offsetRecsOf, offsetRecOf_of_not_contains hv i hnot, ih hs _ (i + 1) hnext hlb.1 h']
        · -- the run of the prefix is scanned: the request's one record, then the rest
          rw [if_neg hmis, offsetsInRun_unique hv i hlb] at h
          simp only [Option.bind_eq_bind, Option.bind_some] at h
          cases h' : ti.findOffsetsFrom (ti.advanceFilter a.Prefix filterIdx) (i + 1) rest with
          | none => simp [h'] at h
          | some res =>
            obtain ⟨ors', rem', rest'⟩ := res
            simp only [h', Option.bind_some, Option.some.injEq, Prod.mk.injEq] at h
            rw [← h.1, ih hs _ (i + 1) hnext hlb.1 h']
            simp [offsetRecsOf]

/-- `findOffsets` on requests sorted by prefix: the records `offsetRecsOf`, `remaining`, and the
requests marked found. -/
theorem findOffsets_eq (reqs : List GetRecord)
    (hsorted : reqs.Pairwise fun r r' => r.Prefix ≤ r'.Prefix) :
    ti.findOffsets reqs = some (ti.offsetRecsOf 0 reqs,
      reqs.any (fun r => !r.found && !decide (r.Prefix ∈ ti.prefixes)), reqs.map ti.markFound) := by
  have hbelow : ∀ k < 0, ∀ r ∈ reqs, ti.prefixes.getD k 0 < r.Prefix :=
    fun k hk => absurd hk (Nat.not_lt_zero k)
  obtain ⟨ors, h, -, -⟩ :=
    findOffsetsFrom_spec hv.wf hv.offsets_length reqs hsorted 0 0 hbelow (Nat.zero_le _)
  rw [findOffsets, h, findOffsetsFrom_records hv reqs hsorted 0 0 hbelow (Nat.zero_le _) h]

end Valid

end TableIndex

end Noms.Nbs
