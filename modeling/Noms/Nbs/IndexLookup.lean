import Noms.Nbs.TableReader

/-!
# What an index stores, and what a lookup returns

A table index is read as a relation between addresses and insertion ordinals: position `idx`
of the sorted prefix array holds the address whose prefix is `prefixes[idx]` and whose suffix
is the one stored at the ordinal `ordinals[idx]` (`TableIndex.Stores`). On a well-formed index
(the arrays have `chunkCount` entries, every ordinal is below `chunkCount`, the prefixes are
ascending) `lookupOrdinal` is a query of that relation (`lookupOrdinal_spec`): it returns an
ordinal at which the index stores the address, or `chunkCount` when there is none. The binary
search lands on the first entry of the run of equal prefixes and the scan walks the whole run,
so a prefix shared by other addresses only costs suffix compares.

`has` and `get` then answer for a stored address and for an absent one.
-/

namespace Noms.Nbs

open Noms.Lib

namespace TableIndex

/-- The suffix stored for insertion ordinal `o`. -/
def suffixAt (ti : TableIndex) (o : Nat) : List UInt8 :=
  (ti.suffixes.drop (o * addrSuffixSize)).take addrSuffixSize

/-- Position `idx` of the sorted index holds `h`, at ordinal `o`. -/
def EntryAt (ti : TableIndex) (idx : Nat) (h : Addr) (o : Nat) : Prop :=
  idx < ti.chunkCount ∧ ti.prefixes.getD idx 0 = h.Prefix ∧ ti.ordinals.getD idx 0 = o ∧
    ti.suffixAt o = h.suffix

/-- The index stores `h` at ordinal `o`. -/
def Stores (ti : TableIndex) (h : Addr) (o : Nat) : Prop :=
  ∃ idx, ti.EntryAt idx h o

/-- Positions `i` to `j` all hold the prefix `p`. -/
def InRun (ti : TableIndex) (p i j : Nat) : Prop :=
  ∀ k, i ≤ k → k ≤ j → k < ti.chunkCount ∧ ti.prefixes.getD k 0 = p

theorem InRun.tail {ti : TableIndex} {p i j : Nat} (hrun : ti.InRun p i j) :
    ti.InRun p (i + 1) j :=
  fun k hik hkj => hrun k (by omega) hkj

/-- What the reader relies on of an index. -/
structure WellFormed (ti : TableIndex) : Prop where
  prefixes_length : ti.prefixes.length = ti.chunkCount
  ordinals_length : ti.ordinals.length = ti.chunkCount
  ordinal_lt : ∀ o ∈ ti.ordinals, o < ti.chunkCount
  suffixes_length : ti.suffixes.length = ti.chunkCount * addrSuffixSize
  sorted : ti.prefixes.Pairwise (· ≤ ·)

section WellFormed

variable {ti : TableIndex} (hwf : ti.WellFormed)
include hwf

theorem WellFormed.ordinal_getD_lt {idx : Nat} (hidx : idx < ti.chunkCount) :
    ti.ordinals.getD idx 0 < ti.chunkCount := by
  have hidx' : idx < ti.ordinals.length := by rw [hwf.ordinals_length]; exact hidx
  rw [← List.getElem_eq_getD (h := hidx') 0]
  exact hwf.ordinal_lt _ (List.getElem_mem hidx')

theorem prefixIdxToOrdinal_eq {idx : Nat} (hidx : idx < ti.chunkCount) :
    ti.prefixIdxToOrdinal idx = some (ti.ordinals.getD idx 0) := by
  have hidx' : idx < ti.ordinals.length := by rw [hwf.ordinals_length]; exact hidx
  rw [prefixIdxToOrdinal, List.getElem?_eq_getElem hidx', List.getElem_eq_getD 0]

theorem ordinalSuffixMatches_eq {o : Nat} (ho : o < ti.chunkCount) (h : Addr) :
    ti.ordinalSuffixMatches o h = some (h.suffix == ti.suffixAt o) := by
  have hfit : o * addrSuffixSize + addrSuffixSize ≤ ti.suffixes.length := by
    rw [hwf.suffixes_length, ← Nat.succ_mul]
    exact Nat.mul_le_mul_right _ ho
  rw [ordinalSuffixMatches, if_pos hfit, suffixAt]

/-- The scan from `i`: it returns an ordinal that stores `h`, or `chunkCount` after walking the
whole run of `h`'s prefix from `i` without a suffix match. -/
theorem lookupOrdinalFrom_spec (h : Addr) (i : Nat) :
    ∃ r, ti.lookupOrdinalFrom h i = some r ∧
      ((r < ti.chunkCount ∧ ti.Stores h r) ∨
        (r = ti.chunkCount ∧ ∀ j, i ≤ j → ti.InRun h.Prefix i j →
          ti.suffixAt (ti.ordinals.getD j 0) ≠ h.suffix)) := by
  induction i using lookupOrdinalFrom.induct ti h with
  | case1 i hin ih =>
    have hlt := hwf.ordinal_getD_lt hin.1
    rw [lookupOrdinalFrom, if_pos hin, prefixIdxToOrdinal_eq hwf hin.1]
    simp only [Option.bind_eq_bind, Option.bind_some, ordinalSuffixMatches_eq hwf hlt]
    by_cases hm : (h.suffix == ti.suffixAt (ti.ordinals.getD i 0)) = true
    · -- the suffix at position `i` matches: `i` itself is the entry
      rw [if_pos hm]
      exact ⟨_, rfl, Or.inl ⟨hlt, i, hin.1, hin.2, rfl, (beq_iff_eq.mp hm).symm⟩⟩
    · rw [if_neg hm]
      obtain ⟨r, hr, hit | ⟨rfl, hmiss⟩⟩ := ih
      · exact ⟨r, hr, Or.inl hit⟩
      · refine ⟨_, hr, Or.inr ⟨rfl, fun j hij hrun => ?_⟩⟩
        rcases Nat.eq_or_lt_of_le hij with rfl | hij
        · exact fun heq => hm (beq_iff_eq.mpr heq.symm)
        · exact hmiss j hij hrun.tail
  | case2 i hout =>
    rw [lookupOrdinalFrom, if_neg hout]
    -- position `i` already leaves the run, so no run from `i` is non-empty
    exact ⟨_, rfl, Or.inr ⟨rfl, fun j hij hrun => absurd (hrun i (Nat.le_refl i) hij) hout⟩⟩

theorem prefixIdx_spec (p : Nat) :
    ti.prefixIdx p ≤ ti.chunkCount ∧ (∀ k < ti.prefixIdx p, ti.prefixes.getD k 0 < p) ∧
      ∀ k, ti.prefixIdx p ≤ k → k < ti.chunkCount → p ≤ ti.prefixes.getD k 0 := by
  have h := search_lowerBound hwf.sorted p
  rw [hwf.prefixes_length] at h
  exact h

/-- Every position of `h`'s prefix lies in the run the scan walks from `prefixIdx`. -/
theorem inRun_prefixIdx {h : Addr} {idx : Nat} (hidx : idx < ti.chunkCount)
    (hp : ti.prefixes.getD idx 0 = h.Prefix) :
    ti.prefixIdx h.Prefix ≤ idx ∧ ti.InRun h.Prefix (ti.prefixIdx h.Prefix) idx := by
  obtain ⟨-, hbelow, habove⟩ := prefixIdx_spec hwf h.Prefix
  have hle : ti.prefixIdx h.Prefix ≤ idx := by
    by_contra hlt
    have := hbelow idx (by omega)
    omega
  refine ⟨hle, fun k hk hkj => ⟨by omega, ?_⟩⟩
  have hkle := getD_le_of_sorted hwf.sorted hkj (by rw [hwf.prefixes_length]; exact hidx)
  have hge := habove k hk (by omega)
  omega

/-- `lookupOrdinal` queries `Stores`: it returns an ordinal storing `h`, or `chunkCount` when
the index stores `h` nowhere. -/
theorem lookupOrdinal_spec (h : Addr) :
    ∃ r, ti.lookupOrdinal h = some r ∧
      ((r < ti.chunkCount ∧ ti.Stores h r) ∨ (r = ti.chunkCount ∧ ∀ o, ¬ ti.Stores h o)) := by
  obtain ⟨r, hr, hit | ⟨rfl, hmiss⟩⟩ := lookupOrdinalFrom_spec hwf h (ti.prefixIdx h.Prefix)
  · exact ⟨r, hr, Or.inl hit⟩
  · refine ⟨_, hr, Or.inr ⟨rfl, ?_⟩⟩
    rintro o ⟨idx, hidx, hp, ho, hs⟩
    obtain ⟨hle, hrun⟩ := inRun_prefixIdx hwf hidx hp
    exact hmiss idx hle hrun (ho ▸ hs)

theorem lookupOrdinal_of_stores {h : Addr} {o : Nat} (hs : ti.Stores h o)
    (huniq : ∀ o', ti.Stores h o' → o' = o) : ti.lookupOrdinal h = some o := by
  obtain ⟨r, hr, ⟨-, hrs⟩ | ⟨-, hnone⟩⟩ := lookupOrdinal_spec hwf h
  · rw [hr, huniq r hrs]
  · exact absurd hs (hnone o)

theorem lookupOrdinal_of_not_stores {h : Addr} (hnone : ∀ o, ¬ ti.Stores h o) :
    ti.lookupOrdinal h = some ti.chunkCount := by
  obtain ⟨r, hr, ⟨-, hrs⟩ | ⟨rfl, -⟩⟩ := lookupOrdinal_spec hwf h
  · exact absurd hrs (hnone r)
  · exact hr

end WellFormed

end TableIndex

namespace TableReader

variable (L : TableLib) {tr : TableReader} (hwf : tr.index.WellFormed)
include hwf

theorem has_of_stores {h : Addr} {o : Nat} (hs : tr.index.Stores h o) : tr.has h = some true := by
  obtain ⟨r, hr, ⟨hlt, -⟩ | ⟨-, hnone⟩⟩ := TableIndex.lookupOrdinal_spec hwf h
  · simp [has, hr, count, hlt]
  · exact absurd hs (hnone o)

theorem has_of_not_stores {h : Addr} (hnone : ∀ o, ¬ tr.index.Stores h o) :
    tr.has h = some false := by
  simp [has, TableIndex.lookupOrdinal_of_not_stores hwf hnone, count]

theorem get_of_not_stores {h : Addr} (hnone : ∀ o, ¬ tr.index.Stores h o) :
    tr.get L h = some none := by
  simp [get, TableIndex.lookupOrdinal_of_not_stores hwf hnone, count]

end TableReader

end Noms.Nbs
