import Noms.Nbs.TableQueries
import Noms.Nbs.IndexLookup

/-!
# What the batched queries of a table answer

`hasMany` and `findOffsets` walk the sorted prefixes once for a whole batch of requests sorted by
prefix. Their loop keeps one invariant: every position before `filterIdx` holds a prefix below
the prefix of every request still to come. From it, `advanceFilter` lands on the lower bound of
the request's prefix (`lowerBound_advanceFilter`), the first position whose prefix is not below
it; when the prefix is there, its whole run starts at that position (`inRun_of_lowerBound`), and
the scan of the run decides whether the index holds the address (`hasInRun_of_lowerBound`,
`offsetsInRun_of_lowerBound`).

So `hasMany` marks exactly the addresses the index holds, and reports something remaining exactly
when an address is left unmarked (`hasManyFrom_spec`). `findOffsets` marks the same addresses as
found, but its `remaining` only counts requests whose prefix the index lacks
(`findOffsetsFrom_spec`): a request whose prefix is in the index under another address is left
unfound without being reported.
-/

namespace Noms.Nbs

open Noms.Lib

namespace TableIndex

/-- The index holds an entry for `h`. -/
def Contains (ti : TableIndex) (h : Addr) : Prop :=
  ∃ idx < ti.chunkCount, ti.prefixes.getD idx 0 = h.Prefix ∧
    ti.suffixAt (ti.ordinals.getD idx 0) = h.suffix

instance (ti : TableIndex) (h : Addr) : Decidable (ti.Contains h) :=
  inferInstanceAs (Decidable (∃ idx < ti.chunkCount, _))

theorem contains_iff_stores {ti : TableIndex} {h : Addr} : ti.Contains h ↔ ∃ o, ti.Stores h o := by
  constructor
  · rintro ⟨idx, hidx, hp, hs⟩
    exact ⟨_, idx, hidx, hp, rfl, hs⟩
  · rintro ⟨o, idx, hidx, hp, rfl, hs⟩
    exact ⟨idx, hidx, hp, hs⟩

/-- `r` is where the prefixes stop being below `p`. -/
def LowerBound (ti : TableIndex) (p r : Nat) : Prop :=
  r ≤ ti.prefixes.length ∧ (∀ k < r, ti.prefixes.getD k 0 < p) ∧
    ∀ k, r ≤ k → k < ti.prefixes.length → p ≤ ti.prefixes.getD k 0

theorem advanceFilter_spec (ti : TableIndex) (p i : Nat) :
    i ≤ ti.advanceFilter p i ∧
      (∀ k, i ≤ k → k < ti.advanceFilter p i → ti.prefixes.getD k 0 < p) ∧
      (i ≤ ti.prefixes.length → ti.advanceFilter p i ≤ ti.prefixes.length) ∧
      (ti.advanceFilter p i < ti.prefixes.length → p ≤ ti.prefixes.getD (ti.advanceFilter p i) 0) := by
  induction i using advanceFilter.induct ti p with
  | case1 i hin ih =>
    rw [advanceFilter, if_pos hin]
    obtain ⟨hle, hbelow, hlen, hat⟩ := ih
    refine ⟨by omega, fun k hik hk => ?_, fun _ => hlen hin.1, hat⟩
    rcases Nat.eq_or_lt_of_le hik with rfl | hik
    · exact hin.2
    · exact hbelow k hik hk
  | case2 i hout =>
    rw [advanceFilter, if_neg hout]
    refine ⟨Nat.le_refl i, fun k hik hk => absurd hk (by omega), id, fun hi => ?_⟩
    -- the loop stopped inside the prefixes: the prefix there is not below `p`
    exact Nat.le_of_not_lt fun hlt => hout ⟨hi, hlt⟩

/-- What `hasMany` does to a record: mark it when the index holds its address. -/
def markHas (ti : TableIndex) (r : HasRecord) : HasRecord :=
  { r with has := r.has || decide (ti.Contains r.a) }

/-- What `findOffsets` does to a request: mark it found when the index holds its address. -/
def markFound (ti : TableIndex) (r : GetRecord) : GetRecord :=
  { r with found := r.found || decide (ti.Contains r.a) }

theorem markHas_of_has {ti : TableIndex} {r : HasRecord} (h : r.has = true) : ti.markHas r = r := by
  cases r
  simp_all [markHas]

theorem markHas_of_not_contains {ti : TableIndex} {r : HasRecord} (h : ¬ ti.Contains r.a) :
    ti.markHas r = r := by
  cases r
  simp_all [markHas]

theorem markFound_of_found {ti : TableIndex} {r : GetRecord} (h : r.found = true) :
    ti.markFound r = r := by
  cases r
  simp_all [markFound]

theorem markFound_of_not_contains {ti : TableIndex} {r : GetRecord} (h : ¬ ti.Contains r.a) :
    ti.markFound r = r := by
  cases r
  simp_all [markFound]

/-- A record located for the request at position `k` of the tail is located for position `k + 1`
of the whole batch. -/
private theorem located_cons {i : Nat} {o : OffsetRec} {r : GetRecord} {rest : List GetRecord}
    {P : GetRecord → Prop} (h : ∃ k r', rest[k]? = some r' ∧ o.reqIdx = (i + 1 + k) % 2 ^ 32 ∧ P r') :
    ∃ k r', (r :: rest)[k]? = some r' ∧ o.reqIdx = (i + k) % 2 ^ 32 ∧ P r' := by
  obtain ⟨k, r', hk, hidx, hP⟩ := h
  refine ⟨k + 1, r', hk, ?_, hP⟩
  rw [hidx, Nat.add_assoc, Nat.add_comm 1 k]

section WellFormed

variable {ti : TableIndex} (hwf : ti.WellFormed)
include hwf

/-- With every position before `i` below `p`, `advanceFilter` from `i` lands on the lower bound
of `p`. -/
theorem lowerBound_advanceFilter {p i : Nat} (hbelow : ∀ k < i, ti.prefixes.getD k 0 < p)
    (hi : i ≤ ti.prefixes.length) : ti.LowerBound p (ti.advanceFilter p i) := by
  obtain ⟨hle, hscan, hlen, hat⟩ := ti.advanceFilter_spec p i
  refine ⟨hlen hi, fun k hk => ?_, fun k hrk hk => ?_⟩
  · rcases Nat.lt_or_ge k i with hki | hki
    · exact hbelow k hki
    · exact hscan k hki hk
  · exact Nat.le_trans (hat (by omega)) (getD_le_of_sorted hwf.sorted hrk hk)

/-- Every position holding `p` lies in the run that starts at the lower bound of `p`. -/
theorem inRun_of_lowerBound {p r idx : Nat} (hlb : ti.LowerBound p r) (hidx : idx < ti.chunkCount)
    (hp : ti.prefixes.getD idx 0 = p) : r ≤ idx ∧ ti.InRun p r idx := by
  obtain ⟨-, hbelow, habove⟩ := hlb
  have hidx' : idx < ti.prefixes.length := by rw [hwf.prefixes_length]; exact hidx
  have hle : r ≤ idx := by
    by_contra hlt
    have := hbelow idx (by omega)
    omega
  refine ⟨hle, fun k hk hkj => ⟨by omega, ?_⟩⟩
  have hkle := getD_le_of_sorted hwf.sorted hkj hidx'
  have hge := habove k hk (by omega)
  omega

/-- When the lower bound of `p` does not hold `p`, no position does. -/
theorem not_mem_of_lowerBound {p r : Nat} (hlb : ti.LowerBound p r)
    (hnot : ¬ (r < ti.prefixes.length ∧ ti.prefixes.getD r 0 = p)) : p ∉ ti.prefixes := by
  intro hp
  obtain ⟨idx, hidx, hidxp⟩ := List.getElem_of_mem hp
  have hidx' : idx < ti.chunkCount := by rw [← hwf.prefixes_length]; exact hidx
  obtain ⟨hle, hrun⟩ := inRun_of_lowerBound hwf hlb hidx' (by rw [List.getD_eq_getElem?_getD,
    List.getElem?_eq_getElem hidx, Option.getD_some, hidxp])
  have hr := hrun r (Nat.le_refl r) hle
  exact hnot ⟨by rw [hwf.prefixes_length]; exact hr.1, hr.2⟩

theorem mem_of_contains {h : Addr} (hc : ti.Contains h) : h.Prefix ∈ ti.prefixes := by
  obtain ⟨idx, hidx, hp, -⟩ := hc
  have hidx' : idx < ti.prefixes.length := by rw [hwf.prefixes_length]; exact hidx
  rw [← hp, List.getD_eq_getElem?_getD, List.getElem?_eq_getElem hidx', Option.getD_some]
  exact List.getElem_mem hidx'

/-- No position before the end holds a prefix as large as the address's: the index does not
hold it. -/
theorem not_contains_of_below {h : Addr} (hall : ∀ k < ti.prefixes.length, ti.prefixes.getD k 0 < h.Prefix) :
    ¬ ti.Contains h := by
  rintro ⟨idx, hidx, hp, -⟩
  have := hall idx (by rw [hwf.prefixes_length]; exact hidx)
  omega

/-- The scan of `hasMany` from `j`: `true` exactly when a suffix of the run from `j` matches. -/
theorem hasInRun_spec (a : Addr) (j : Nat) :
    (ti.hasInRun a a.Prefix j = some true ∧
      ∃ k, j ≤ k ∧ ti.InRun a.Prefix j k ∧ ti.suffixAt (ti.ordinals.getD k 0) = a.suffix) ∨
    (ti.hasInRun a a.Prefix j = some false ∧
      ∀ k, j ≤ k → ti.InRun a.Prefix j k → ti.suffixAt (ti.ordinals.getD k 0) ≠ a.suffix) := by
  induction j using hasInRun.induct ti a.Prefix with
  | case1 j hin ih =>
    have hj : j < ti.chunkCount := by rw [← hwf.prefixes_length]; exact hin.1
    have hlt := hwf.ordinal_getD_lt hj
    rw [hasInRun, if_pos hin, prefixIdxToOrdinal_eq hwf hj]
    simp only [Option.bind_eq_bind, Option.bind_some, ordinalSuffixMatches_eq hwf hlt]
    by_cases hm : (a.suffix == ti.suffixAt (ti.ordinals.getD j 0)) = true
    · rw [if_pos hm]
      refine .inl ⟨rfl, j, Nat.le_refl j, fun k hjk hkj => ?_, (beq_iff_eq.mp hm).symm⟩
      rw [Nat.le_antisymm hkj hjk]
      exact ⟨hj, hin.2.symm⟩
    · rw [if_neg hm]
      rcases ih with ⟨hr, k, hjk, hrun, hs⟩ | ⟨hr, hmiss⟩
      · refine .inl ⟨hr, k, by omega, fun k' hk' hk'k => ?_, hs⟩
        rcases Nat.eq_or_lt_of_le hk' with rfl | hk'
        · exact ⟨hj, hin.2.symm⟩
        · exact hrun k' hk' hk'k
      · refine .inr ⟨hr, fun k hjk hrun => ?_⟩
        rcases Nat.eq_or_lt_of_le hjk with rfl | hjk
        · exact fun heq => hm (beq_iff_eq.mpr heq.symm)
        · exact hmiss k hjk hrun.tail
  | case2 j hout =>
    rw [hasInRun, if_neg hout]
    refine .inr ⟨rfl, fun k hjk hrun => absurd ?_ hout⟩
    have hj := hrun j (Nat.le_refl j) hjk
    exact ⟨by rw [hwf.prefixes_length]; exact hj.1, hj.2.symm⟩

/-- Scanning a run found by its lower bound decides whether the index holds the address. -/
theorem hasInRun_of_lowerBound {a : Addr} {r : Nat} (hlb : ti.LowerBound a.Prefix r) :
    ti.hasInRun a a.Prefix r = some (decide (ti.Contains a)) := by
  rcases hasInRun_spec hwf a r with ⟨hres, k, hrk, hrun, hs⟩ | ⟨hres, hmiss⟩
  · have hk := hrun k hrk (Nat.le_refl k)
    rw [hres, decide_eq_true ⟨k, hk.1, hk.2, hs⟩]
  · rw [hres, decide_eq_false]
    rintro ⟨idx, hidx, hp, hs⟩
    obtain ⟨hle, hrun⟩ := inRun_of_lowerBound hwf hlb hidx hp
    exact hmiss idx hle hrun hs

/-- The scan of `findOffsets` from `j`: a record for every matching suffix of the run from `j`,
each at an ordinal where the index stores the address. -/
theorem offsetsInRun_spec (hoffs : ti.offsets.length = ti.chunkCount) (i : Nat) (a : Addr)
    (j : Nat) :
    ∃ ors, ti.offsetsInRun i a a.Prefix j = some ors ∧
      (ors = [] ↔
        ∀ k, j ≤ k → ti.InRun a.Prefix j k → ti.suffixAt (ti.ordinals.getD k 0) ≠ a.suffix) ∧
      ∀ o ∈ ors, o.reqIdx = i % 2 ^ 32 ∧ ti.Stores a o.ordinal ∧
        ti.offsets[o.ordinal]? = some o.offset := by
  induction j using offsetsInRun.induct ti a.Prefix with
  | case1 j hin ih =>
    have hj : j < ti.chunkCount := by rw [← hwf.prefixes_length]; exact hin.1
    have hlt := hwf.ordinal_getD_lt hj
    obtain ⟨ors, hors, hempty, hmem⟩ := ih
    rw [offsetsInRun, if_pos hin, prefixIdxToOrdinal_eq hwf hj]
    simp only [Option.bind_eq_bind, Option.bind_some, ordinalSuffixMatches_eq hwf hlt, hors]
    by_cases hm : (a.suffix == ti.suffixAt (ti.ordinals.getD j 0)) = true
    · -- position `j` matches: one more record, at its ordinal
      have hord : ti.ordinals[j]? = some (ti.ordinals.getD j 0) := by
        rw [List.getElem?_eq_getElem (by rw [hwf.ordinals_length]; exact hj), List.getElem_eq_getD 0]
      have hoff : ti.offsets[ti.ordinals.getD j 0]? =
          some (ti.offsets.getD (ti.ordinals.getD j 0) 0) := by
        rw [List.getElem?_eq_getElem (by rw [hoffs]; exact hlt), List.getElem_eq_getD 0]
      rw [if_pos hm, hord, Option.bind_some, hoff, Option.bind_some]
      refine ⟨_, rfl, ⟨fun h => absurd h (List.cons_ne_nil _ _), fun hmiss => ?_⟩, ?_⟩
      · exact absurd (beq_iff_eq.mp hm).symm (hmiss j (Nat.le_refl j)
          (fun k hjk hkj => by rw [Nat.le_antisymm hkj hjk]; exact ⟨hj, hin.2.symm⟩))
      · intro o ho
        rcases List.mem_cons.mp ho with rfl | ho
        · exact ⟨rfl, ⟨j, hj, hin.2.symm, rfl, (beq_iff_eq.mp hm).symm⟩, hoff⟩
        · exact hmem o ho
    · rw [if_neg hm]
      refine ⟨ors, rfl, ⟨fun hnil k hjk hrun => ?_, fun hmiss => hempty.mpr ?_⟩, hmem⟩
      · rcases Nat.eq_or_lt_of_le hjk with rfl | hjk
        · exact fun heq => hm (beq_iff_eq.mpr heq.symm)
        · exact hempty.mp hnil k hjk hrun.tail
      · -- a run from `j + 1` extends to `j`, which holds the prefix too
        intro k hjk hrun
        refine hmiss k (by omega) fun k' hk' hk'k => ?_
        rcases Nat.eq_or_lt_of_le hk' with rfl | hk'
        · exact ⟨hj, hin.2.symm⟩
        · exact hrun k' hk' hk'k
  | case2 j hout =>
    rw [offsetsInRun, if_neg hout]
    refine ⟨[], rfl, ⟨fun _ k hjk hrun => absurd ?_ hout, fun _ => rfl⟩, fun o ho => absurd ho List.not_mem_nil⟩
    have hj := hrun j (Nat.le_refl j) hjk
    exact ⟨by rw [hwf.prefixes_length]; exact hj.1, hj.2.symm⟩

/-- Scanning a run found by its lower bound yields records exactly when the index holds the
address. -/
theorem offsetsInRun_of_lowerBound (hoffs : ti.offsets.length = ti.chunkCount) (i : Nat)
    {a : Addr} {r : Nat} (hlb : ti.LowerBound a.Prefix r) :
    ∃ ors, ti.offsetsInRun i a a.Prefix r = some ors ∧ (ors = [] ↔ ¬ ti.Contains a) ∧
      ∀ o ∈ ors, o.reqIdx = i % 2 ^ 32 ∧ ti.Stores a o.ordinal ∧
        ti.offsets[o.ordinal]? = some o.offset := by
  obtain ⟨ors, hors, hempty, hmem⟩ := offsetsInRun_spec hwf hoffs i a r
  refine ⟨ors, hors, hempty.trans ⟨fun hmiss => ?_, fun hnot k hrk hrun hs => ?_⟩, hmem⟩
  · rintro ⟨idx, hidx, hp, hs⟩
    obtain ⟨hle, hrun⟩ := inRun_of_lowerBound hwf hlb hidx hp
    exact hmiss idx hle hrun hs
  · have hk := hrun k hrk (Nat.le_refl k)
    exact hnot ⟨k, hk.1, hk.2, hs⟩

/-- `hasMany` from a position that every record still to come is above: it marks exactly the
addresses the index holds, and reports something remaining exactly when a record stays unmarked. -/
theorem hasManyFrom_spec (addrs : List HasRecord)
    (hsorted : addrs.Pairwise fun r r' => r.Prefix ≤ r'.Prefix) (i : Nat)
    (hbelow : ∀ k < i, ∀ r ∈ addrs, ti.prefixes.getD k 0 < r.Prefix)
    (hi : i ≤ ti.prefixes.length) :
    ti.hasManyFrom i addrs =
      some (addrs.map ti.markHas, (addrs.map ti.markHas).any fun r => !r.has) := by
  induction addrs generalizing i with
  | nil => rfl
  | cons r rest ih =>
    obtain ⟨hr, hs⟩ := List.pairwise_cons.mp hsorted
    obtain ⟨a, p, o, has, rfl⟩ := r
    cases has with
    | true =>
      rw [hasManyFrom, if_pos rfl, ih hs i (fun k hk r' hr' => hbelow k hk r' (List.mem_cons_of_mem _ hr')) hi]
      simp [markHas]
    | false =>
      rw [hasManyFrom, if_neg Bool.false_ne_true]
      dsimp only
      have hlb : ti.LowerBound a.Prefix (ti.advanceFilter a.Prefix i) :=
        lowerBound_advanceFilter hwf (fun k hk => hbelow k hk _ List.mem_cons_self) hi
      have hnext : ∀ k < ti.advanceFilter a.Prefix i, ∀ r' ∈ rest, ti.prefixes.getD k 0 < r'.Prefix :=
        fun k hk r' hr' => Nat.lt_of_lt_of_le (hlb.2.1 k hk) (hr r' hr')
      by_cases hend : ti.prefixes.length ≤ ti.advanceFilter a.Prefix i
      · -- past the last prefix: neither this address nor any after it is in the index
        have hkeep : ∀ r' ∈ rest, ti.markHas r' = r' := by
          intro r' hr'
          refine markHas_of_not_contains (not_contains_of_below hwf fun k hk => ?_)
          rw [← r'.prefix_eq]
          exact hnext k (by omega) r' hr'
        have hnot : ¬ ti.Contains a := not_contains_of_below hwf fun k hk => hlb.2.1 k (by omega)
        simp only [if_pos hend, List.map_cons, List.map_congr_left hkeep, List.map_id']
        simp [markHas, hnot]
      · have hend' : ti.advanceFilter a.Prefix i < ti.prefixes.length := Nat.lt_of_not_le hend
        by_cases hmis : a.Prefix ≠ ti.prefixes.getD (ti.advanceFilter a.Prefix i) 0
        · -- the lower bound holds a larger prefix, so the index lacks this one
          have hnot : ¬ ti.Contains a := fun hc =>
            not_mem_of_lowerBound hwf hlb (fun h => hmis h.2.symm) (mem_of_contains hwf hc)
          rw [if_neg hend, if_pos hmis, ih hs _ hnext hlb.1]
          simp [markHas, hnot]
        · -- the run of this prefix starts at the lower bound
          rw [if_neg hend, if_neg hmis]
          simp only [Option.bind_eq_bind, hasInRun_of_lowerBound hwf hlb, Option.bind_some,
            ih hs _ hnext hlb.1]
          simp [markHas, Bool.or_comm]

/-- `findOffsets` from a position that every request still to come is above. It marks found
exactly the addresses the index holds and locates them at ordinals that store them, but it
reports something remaining only for an unfound request whose prefix the index lacks. -/
theorem findOffsetsFrom_spec (hoffs : ti.offsets.length = ti.chunkCount) (reqs : List GetRecord)
    (hsorted : reqs.Pairwise fun r r' => r.Prefix ≤ r'.Prefix) (filterIdx i : Nat)
    (hbelow : ∀ k < filterIdx, ∀ r ∈ reqs, ti.prefixes.getD k 0 < r.Prefix)
    (hi : filterIdx ≤ ti.prefixes.length) :
    ∃ ors, ti.findOffsetsFrom filterIdx i reqs =
        some (ors, reqs.any (fun r => !r.found && !decide (r.Prefix ∈ ti.prefixes)),
          reqs.map ti.markFound) ∧
      (ors = [] ↔ ∀ r ∈ reqs, r.found = false → ¬ ti.Contains r.a) ∧
      ∀ o ∈ ors, ∃ k r, reqs[k]? = some r ∧ o.reqIdx = (i + k) % 2 ^ 32 ∧ r.found = false ∧
        ti.Stores r.a o.ordinal ∧ ti.offsets[o.ordinal]? = some o.offset := by
  induction reqs generalizing filterIdx i with
  | nil => exact ⟨[], rfl, ⟨fun _ r hr => absurd hr List.not_mem_nil, fun _ => rfl⟩,
      fun o ho => absurd ho List.not_mem_nil⟩
  | cons r rest ih =>
    obtain ⟨hr, hs⟩ := List.pairwise_cons.mp hsorted
    obtain ⟨a, p, o, found, data, rfl⟩ := r
    cases found with
    | true =>
      obtain ⟨ors, heq, hiff, hmem⟩ := ih hs filterIdx (i + 1)
        (fun k hk r' hr' => hbelow k hk r' (List.mem_cons_of_mem _ hr')) hi
      refine ⟨ors, ?_, ?_, fun o ho => located_cons (hmem o ho)⟩
      · rw [findOffsetsFrom, if_pos rfl, heq]
        simp [markFound]
      · simpa using hiff
    | false =>
      rw [findOffsetsFrom, if_neg Bool.false_ne_true]
      dsimp only
      have hlb : ti.LowerBound a.Prefix (ti.advanceFilter a.Prefix filterIdx) :=
        lowerBound_advanceFilter hwf (fun k hk => hbelow k hk _ List.mem_cons_self) hi
      have hnext : ∀ k < ti.advanceFilter a.Prefix filterIdx, ∀ r' ∈ rest,
          ti.prefixes.getD k 0 < r'.Prefix :=
        fun k hk r' hr' => Nat.lt_of_lt_of_le (hlb.2.1 k hk) (hr r' hr')
      by_cases hend : ti.prefixes.length ≤ ti.advanceFilter a.Prefix filterIdx
      · -- past the last prefix: nothing here or after is in the index, and the loop breaks
        have hrest : ∀ r' ∈ rest, ¬ ti.Contains r'.a := fun r' hr' =>
          not_contains_of_below hwf fun k hk => by
            rw [← r'.prefix_eq]
            exact hnext k (by omega) r' hr'
        have hnot : ¬ ti.Contains a := not_contains_of_below hwf fun k hk => hlb.2.1 k (by omega)
        have hnotmem : a.Prefix ∉ ti.prefixes := not_mem_of_lowerBound hwf hlb (fun h => by omega)
        refine ⟨[], ?_, ⟨fun _ => ?_, fun _ => rfl⟩, fun o ho => absurd ho List.not_mem_nil⟩
        · rw [if_pos hend, List.map_cons,
            List.map_congr_left fun r' hr' => markFound_of_not_contains (hrest r' hr'), List.map_id']
          simp [markFound, hnot, hnotmem]
        · simpa [hnot] using fun r' hr' _ => hrest r' hr'
      · have hlt : ti.advanceFilter a.Prefix filterIdx < ti.prefixes.length := Nat.lt_of_not_le hend
        obtain ⟨ors, heq, hiff, hmem⟩ := ih hs _ (i + 1) hnext hlb.1
        by_cases hmis : a.Prefix ≠ ti.prefixes.getD (ti.advanceFilter a.Prefix filterIdx) 0
        · -- the lower bound holds a larger prefix: remaining, and this request is not here
          have hnotmem : a.Prefix ∉ ti.prefixes :=
            not_mem_of_lowerBound hwf hlb (fun h => hmis h.2.symm)
          have hnot : ¬ ti.Contains a := fun hc => hnotmem (mem_of_contains hwf hc)
          refine ⟨ors, ?_, ?_, fun o ho => located_cons (hmem o ho)⟩
          · rw [if_neg hend, if_pos hmis, heq]
            simp [markFound, hnot, hnotmem]
          · rw [hiff]
            simp [hnot]
        · -- the prefix is here: its run is scanned, and `remaining` is left as it was
          have hat : a.Prefix = ti.prefixes.getD (ti.advanceFilter a.Prefix filterIdx) 0 :=
            not_not.mp hmis
          have hmemp : a.Prefix ∈ ti.prefixes := by
            rw [hat, ← List.getElem_eq_getD (h := hlt) 0]
            exact List.getElem_mem hlt
          obtain ⟨found, hf, hfiff, hfmem⟩ := offsetsInRun_of_lowerBound hwf hoffs i hlb
          refine ⟨found ++ ors, ?_, ?_, ?_⟩
          · rw [if_neg hend, if_neg hmis]
            simp only [Option.bind_eq_bind, hf, Option.bind_some, heq]
            by_cases hc : ti.Contains a
            · have hne : found ≠ [] := fun h => hfiff.mp h hc
              simp [markFound, hc, hne, hmemp]
            · simp [markFound, hc, hfiff.mpr hc, hmemp]
          · rw [List.append_eq_nil_iff, hfiff, hiff]
            simp
          · intro o ho
            rcases List.mem_append.mp ho with ho | ho
            · obtain ⟨hidx, hst, hoff⟩ := hfmem o ho
              exact ⟨0, _, rfl, by rw [hidx, Nat.add_zero], rfl, hst, hoff⟩
            · exact located_cons (hmem o ho)

end WellFormed

end TableIndex

end Noms.Nbs
