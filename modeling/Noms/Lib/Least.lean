import Mathlib.Data.Finset.Max
import Mathlib.Data.List.Nodup

/-!
# A finite set read in ascending order

`least R` is the least value of a finite set of a linear order, `none` when it is empty, and
`dropLeast R` is what is left after it: reading a finite set in order is taking `least` and going
on with `dropLeast`. The lemmas say how the two read a set made of parts: a value below a set in
front of it (`least_insert_of_lt`), a union or an intersection whose parts start at known values
(`least_union_of_lt`, `least_union_of_eq`, `least_inter_of_eq`), a filter that keeps the least
(`filter_le_of_le_least`), and a suffix of a strictly ascending list (`least_toFinset_drop`).
-/

namespace Noms.Lib

variable {α : Type} [LinearOrder α]

/-- The least value of `R`; `none` when `R` is empty. -/
def least (R : Finset α) : Option α :=
  if h : R.Nonempty then some (R.min' h) else none

/-- `R` without its least value. -/
def dropLeast (R : Finset α) : Finset α :=
  match least R with
  | some x => R.erase x
  | none => ∅

variable {R P Q : Finset α} {x y v : α}

theorem least_eq_some_iff : least R = some x ↔ x ∈ R ∧ ∀ y ∈ R, x ≤ y := by
  unfold least
  split_ifs with h
  · rw [Option.some.injEq]
    constructor
    · rintro rfl
      exact ⟨R.min'_mem h, fun y hy => R.min'_le y hy⟩
    · rintro ⟨hx, hle⟩
      exact le_antisymm (R.min'_le x hx) (R.le_min' h x hle)
  · simp only [false_iff, not_and, not_forall, not_le]
    intro hx
    exact absurd ⟨x, hx⟩ h

theorem least_eq_none_iff : least R = none ↔ R = ∅ := by
  unfold least
  split_ifs with h
  · simp [Finset.nonempty_iff_ne_empty.mp h]
  · simpa [Finset.not_nonempty_iff_eq_empty] using h

@[simp] theorem least_empty : least (∅ : Finset α) = none := least_eq_none_iff.mpr rfl

@[simp] theorem dropLeast_empty : dropLeast (∅ : Finset α) = ∅ := by
  simp [dropLeast]

theorem dropLeast_of_least (h : least R = some x) : dropLeast R = R.erase x := by
  simp [dropLeast, h]

theorem insert_least_dropLeast (h : least R = some x) : insert x (dropLeast R) = R := by
  rw [dropLeast_of_least h, Finset.insert_erase (least_eq_some_iff.mp h).1]

theorem lt_of_mem_dropLeast (h : least R = some x) (hy : y ∈ dropLeast R) : x < y := by
  rw [dropLeast_of_least h, Finset.mem_erase] at hy
  exact lt_of_le_of_ne ((least_eq_some_iff.mp h).2 y hy.2) hy.1.symm

theorem least_insert_of_lt (h : ∀ y ∈ R, x < y) :
    least (insert x R) = some x ∧ dropLeast (insert x R) = R := by
  have hl : least (insert x R) = some x := by
    refine least_eq_some_iff.mpr ⟨Finset.mem_insert_self x R, fun y hy => ?_⟩
    rcases Finset.mem_insert.mp hy with rfl | hy
    · exact le_rfl
    · exact (h y hy).le
  refine ⟨hl, ?_⟩
  rw [dropLeast_of_least hl, Finset.erase_insert fun hx => lt_irrefl x (h x hx)]

/-- A part that starts below the other gives the least of a union. -/
theorem least_union_of_lt (hP : least P = some x) (hQ : ∀ y ∈ Q, x < y) :
    least (P ∪ Q) = some x ∧ dropLeast (P ∪ Q) = dropLeast P ∪ Q := by
  have hl : least (P ∪ Q) = some x := by
    refine least_eq_some_iff.mpr ⟨Finset.mem_union_left Q (least_eq_some_iff.mp hP).1, ?_⟩
    intro y hy
    rcases Finset.mem_union.mp hy with hy | hy
    · exact (least_eq_some_iff.mp hP).2 y hy
    · exact (hQ y hy).le
  refine ⟨hl, ?_⟩
  rw [dropLeast_of_least hl, dropLeast_of_least hP, Finset.erase_union_distrib,
    Finset.erase_eq_of_notMem fun hx => lt_irrefl x (hQ x hx)]

/-- Parts that start at one value both give it up. -/
theorem least_union_of_eq (hP : least P = some x) (hQ : least Q = some x) :
    least (P ∪ Q) = some x ∧ dropLeast (P ∪ Q) = dropLeast P ∪ dropLeast Q := by
  have hl : least (P ∪ Q) = some x := by
    refine least_eq_some_iff.mpr ⟨Finset.mem_union_left Q (least_eq_some_iff.mp hP).1, ?_⟩
    intro y hy
    rcases Finset.mem_union.mp hy with hy | hy
    · exact (least_eq_some_iff.mp hP).2 y hy
    · exact (least_eq_some_iff.mp hQ).2 y hy
  refine ⟨hl, ?_⟩
  rw [dropLeast_of_least hl, dropLeast_of_least hP, dropLeast_of_least hQ,
    Finset.erase_union_distrib]

theorem least_inter_of_eq (hP : least P = some x) (hQ : least Q = some x) :
    least (P ∩ Q) = some x ∧ dropLeast (P ∩ Q) = dropLeast P ∩ dropLeast Q := by
  have hl : least (P ∩ Q) = some x := by
    refine least_eq_some_iff.mpr ⟨Finset.mem_inter.mpr ⟨(least_eq_some_iff.mp hP).1,
      (least_eq_some_iff.mp hQ).1⟩, fun y hy => ?_⟩
    exact (least_eq_some_iff.mp hP).2 y (Finset.mem_inter.mp hy).1
  refine ⟨hl, ?_⟩
  rw [dropLeast_of_least hl, dropLeast_of_least hP, dropLeast_of_least hQ]
  ext z
  simp only [Finset.mem_erase, Finset.mem_inter]
  tauto

/-- The values of `P` below the least of `Q` are not in `P ∩ Q`. -/
theorem inter_eq_filter_inter (hQ : least Q = some y) :
    P ∩ Q = P.filter (fun z => y ≤ z) ∩ Q := by
  ext z
  simp only [Finset.mem_inter, Finset.mem_filter]
  constructor
  · rintro ⟨hp, hq⟩
    exact ⟨⟨hp, (least_eq_some_iff.mp hQ).2 z hq⟩, hq⟩
  · rintro ⟨⟨hp, _⟩, hq⟩
    exact ⟨hp, hq⟩

/-- A filter that keeps the least value keeps everything. -/
theorem filter_le_of_le_least (h : least R = some x) (hv : v ≤ x) :
    R.filter (fun z => v ≤ z) = R :=
  Finset.filter_true_of_mem fun z hz => hv.trans ((least_eq_some_iff.mp h).2 z hz)

/-- A filter that drops the least value gives the same from what follows it. -/
theorem filter_dropLeast_of_lt (h : least R = some x) (hv : x < v) :
    (dropLeast R).filter (fun z => v ≤ z) = R.filter (fun z => v ≤ z) := by
  conv_rhs => rw [← insert_least_dropLeast h]
  rw [Finset.filter_insert, if_neg (not_le.mpr hv)]

/-- The suffix from `k` of a strictly ascending list is its `k`-th value in front of the
suffix from `k + 1`. -/
theorem toFinset_drop_of_getElem? {l : List α} (hs : l.Pairwise (· < ·)) {k : Nat}
    (hk : l[k]? = some x) :
    (l.drop k).toFinset = insert x (l.drop (k + 1)).toFinset ∧
      ∀ y ∈ (l.drop (k + 1)).toFinset, x < y := by
  have hd : l.drop k = x :: l.drop (k + 1) := by
    rw [List.drop_eq_getElem_cons (List.getElem?_eq_some_iff.mp hk).1]
    simp [(List.getElem?_eq_some_iff.mp hk).2]
  refine ⟨by rw [hd, List.toFinset_cons], fun y hy => ?_⟩
  have hs' := hs.sublist (List.drop_sublist k l)
  rw [hd, List.pairwise_cons] at hs'
  exact hs'.1 y (List.mem_toFinset.mp hy)

theorem least_toFinset_drop {l : List α} (hs : l.Pairwise (· < ·)) (k : Nat) :
    least (l.drop k).toFinset = l[k]? := by
  cases hk : l[k]? with
  | none =>
    rw [List.getElem?_eq_none_iff] at hk
    rw [List.drop_eq_nil_of_le hk]
    rfl
  | some x =>
    obtain ⟨hd, hrest⟩ := toFinset_drop_of_getElem? hs hk
    rw [hd]
    exact (least_insert_of_lt hrest).1

theorem dropLeast_toFinset_drop {l : List α} (hs : l.Pairwise (· < ·)) (k : Nat) :
    dropLeast (l.drop k).toFinset = (l.drop (k + 1)).toFinset := by
  cases hk : l[k]? with
  | none =>
    rw [List.getElem?_eq_none_iff] at hk
    rw [List.drop_eq_nil_of_le hk, List.drop_eq_nil_of_le (by omega)]
    rfl
  | some x =>
    obtain ⟨hd, hrest⟩ := toFinset_drop_of_getElem? hs hk
    rw [hd]
    exact (least_insert_of_lt hrest).2

end Noms.Lib
