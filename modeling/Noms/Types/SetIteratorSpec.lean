import Noms.Types.SetIterator
import Noms.Lib.Least

/-!
# What a set iterator gives

An iterator still holds a finite set of values (`SetIter.Holds`): a `setIterator` the elements
after its cursor, a union or an intersection what its two `iterState`s hold, each state its
buffered value in front of what its child holds (`StateHolds`). `callSpec` is the
`SetIterator` doc: `Next()` gives the least value held, `SkipTo(v)` the least not below `v`, the
smaller ones dropped, or `nil` with nothing left.

A `setIterator` answers every call so (`setNext_spec`, `setSkipTo_spec`); a union answers so
whenever its children do (`unionNext_spec`, `unionSkipTo_spec`); hence every tree of sets and
unions, in every call (`run_spec`). An intersection's `Next()` answers so whenever its
children do (`intersectionNext_spec`), but its `SkipTo(v)` hands `v` to a child whose buffered
value is `v`, which that child has returned already and so skips: the nested intersection of
`{3, 5}`, `{3, 5}` and `{5}` holds `5` and its first `Next()` gives `nil`
(`intersection_next_drops_buffered`).
-/

namespace Noms.Types

open Noms.Lib

variable {α : Type} [LinearOrder α]

/-- What a call gives and leaves of what an iterator holds, by the `SetIterator` doc. -/
def callSpec : IterCall α → Finset α → Option α × Finset α
  | .next, R => (least R, dropLeast R)
  | .skipTo v, R => (least (R.filter fun x => v ≤ x), dropLeast (R.filter fun x => v ≤ x))

/-- The elements a cursor has passed: none before the first call. -/
def consumed : Option Nat → Nat
  | none => 0
  | some i => i + 1

/-- What an `iterState` holds: its buffered value in front of what its child holds; nothing
once its value is `nil`. -/
def stateHolds : Option α → Finset α → Finset α
  | none, _ => ∅
  | some x, R => insert x R

/-- A buffered value is below what its child still holds. -/
def Ahead : Option α → Finset α → Prop
  | none, _ => True
  | some x, R => ∀ y ∈ R, x < y

instance (v : Option α) (R : Finset α) : Decidable (Ahead v R) :=
  match v with
  | none => isTrue trivial
  | some x => inferInstanceAs (Decidable (∀ y ∈ R, x < y))

namespace SetIter

/-- What an iterator still holds. -/
def Holds : SetIter α → Finset α → Prop
  | .set elems cursor, R => elems.Pairwise (· < ·) ∧ R = (elems.drop (consumed cursor)).toFinset
  | .union a av b bv, R => ∃ Ra Rb, a.Holds Ra ∧ b.Holds Rb ∧ Ahead av Ra ∧ Ahead bv Rb ∧
      R = stateHolds av Ra ∪ stateHolds bv Rb
  | .intersection a av b bv, R => ∃ Ra Rb, a.Holds Ra ∧ b.Holds Rb ∧ Ahead av Ra ∧
      Ahead bv Rb ∧ R = stateHolds av Ra ∩ stateHolds bv Rb

/-- Built of sets and unions. -/
def UnionOnly : SetIter α → Prop
  | .set _ _ => True
  | .union a _ b _ => a.UnionOnly ∧ b.UnionOnly
  | .intersection _ _ _ _ => False

def height : SetIter α → Nat
  | .set _ _ => 0
  | .union a _ b _ => max a.height b.height + 1
  | .intersection a _ b _ => max a.height b.height + 1

end SetIter

/-- The state `s` holds `S`, with a child that satisfies `P`. -/
def StateHolds (P : SetIter α → Prop) (s : IterState α) (S : Finset α) : Prop :=
  ∃ R, s.1.Holds R ∧ P s.1 ∧ Ahead s.2 R ∧ S = stateHolds s.2 R

/-- `r` answers every call on `i`, which holds `R`, as the doc says, and leaves an iterator
that satisfies `P`. -/
def Answers (P : SetIter α → Prop) (r : Runner α) (i : SetIter α) (R : Finset α) : Prop :=
  ∀ c, ∃ i', r c i = some ((callSpec c R).1, i') ∧ i'.Holds (callSpec c R).2 ∧ P i'

/-! ## `compareValue` and `stateHolds` -/

@[simp] theorem compareValue_some_eq_lt {a b : α} : compareValue (some a) (some b) = .lt ↔ a < b := by
  simp only [compareValue]
  split_ifs with h₁ <;> simp [h₁]

@[simp] theorem compareValue_some_eq_gt {a b : α} : compareValue (some a) (some b) = .gt ↔ b < a := by
  simp only [compareValue]
  split_ifs with h₁ h₂
  · simp [not_lt_of_gt h₁]
  · simp [h₂]
  · simp [h₂]

@[simp] theorem compareValue_some_eq_eq {a b : α} : compareValue (some a) (some b) = .eq ↔ a = b := by
  simp only [compareValue]
  split_ifs with h₁ h₂
  · simp [h₁.ne]
  · simp [h₂.ne']
  · simp [le_antisymm (not_lt.mp h₂) (not_lt.mp h₁)]

theorem compareValue_eq_lt_iff {a b : Option α} :
    compareValue a b = .lt ↔ ∃ x, a = some x ∧ ∀ y ∈ b, x < y := by
  cases a with
  | none => cases b <;> simp [compareValue]
  | some x =>
    cases b with
    | none => simp [compareValue]
    | some y => simp

theorem compareValue_eq_eq_iff {a b : Option α} : compareValue a b = .eq ↔ a = b := by
  cases a with
  | none => cases b <;> simp [compareValue]
  | some x =>
    cases b with
    | none => simp [compareValue]
    | some y => simp

theorem compareValue_eq_gt_iff {a b : Option α} :
    compareValue a b = .gt ↔ ∃ y, b = some y ∧ ∀ x ∈ a, y < x := by
  cases a with
  | none => cases b <;> simp [compareValue]
  | some x =>
    cases b with
    | none => simp [compareValue]
    | some y => simp

theorem least_stateHolds {v : Option α} {R : Finset α} (h : Ahead v R) :
    least (stateHolds v R) = v := by
  cases v with
  | none => exact least_empty
  | some x => exact (least_insert_of_lt h).1

theorem stateHolds_least_dropLeast (R : Finset α) :
    stateHolds (least R) (dropLeast R) = R ∧ Ahead (least R) (dropLeast R) := by
  cases h : least R with
  | none => exact ⟨(least_eq_none_iff.mp h).symm, trivial⟩
  | some x => exact ⟨insert_least_dropLeast h, fun _ hy => lt_of_mem_dropLeast h hy⟩

/-- A state's least value is its buffered one, and nothing it holds is below. -/
theorem StateHolds.least_eq {P : SetIter α → Prop} {s : IterState α} {S : Finset α}
    (h : StateHolds P s S) : least S = s.2 := by
  obtain ⟨R, _, _, hah, rfl⟩ := h
  exact least_stateHolds hah

/-! ## One child -/

section State

variable {P : SetIter α → Prop} {r : Runner α}
  (hr : ∀ i R, P i → i.Holds R → Answers P r i R)
include hr

/-- `iterState.Next()` gives the least value the state holds and drops it. -/
theorem stateNext_spec {s : IterState α} {S : Finset α} (hs : StateHolds P s S) :
    ∃ s', stateNext r s = some (least S, s') ∧ StateHolds P s' (dropLeast S) := by
  obtain ⟨i, v⟩ := s
  obtain ⟨R, hR, hP, hah, rfl⟩ := hs
  cases v with
  | none => exact ⟨(i, none), rfl, R, hR, hP, trivial, by simp [stateHolds]⟩
  | some x =>
    obtain ⟨i', hrun, hR', hP'⟩ := hr i R hP hR .next
    obtain ⟨hleast, hdrop⟩ := least_insert_of_lt hah
    have hnew := stateHolds_least_dropLeast R
    refine ⟨(i', least R), ?_, dropLeast R, hR', hP', hnew.2, ?_⟩
    · simp only [stateHolds, hleast, stateNext, hrun, callSpec, Option.map_some]
    · exact hdrop.trans hnew.1.symm

/-- `iterState.SkipTo(v)` hands `v` to the child, which skips from after the buffered value. -/
theorem stateSkipTo_spec {s : IterState α} {S : Finset α} (hs : StateHolds P s S) (w : α) :
    ∃ s', stateSkipTo r s (some w) =
        some (least ((dropLeast S).filter fun x => w ≤ x), s') ∧
      StateHolds P s' ((dropLeast S).filter fun x => w ≤ x) := by
  obtain ⟨i, v⟩ := s
  obtain ⟨R, hR, hP, hah, rfl⟩ := hs
  cases v with
  | none => exact ⟨(i, none), by simp [stateSkipTo, stateHolds], R, hR, hP, trivial, by simp [stateHolds]⟩
  | some x =>
    obtain ⟨i', hrun, hR', hP'⟩ := hr i R hP hR (.skipTo w)
    have hdrop : dropLeast (stateHolds (some x) R) = R := (least_insert_of_lt hah).2
    have hnew := stateHolds_least_dropLeast (R.filter fun x => w ≤ x)
    rw [hdrop]
    refine ⟨(i', least (R.filter fun x => w ≤ x)), ?_, _, hR', hP', hnew.2, hnew.1.symm⟩
    simp only [stateSkipTo, hrun, callSpec, Option.map_some]

omit hr in
/-- `iterState.SkipTo(nil)` empties the state. -/
theorem stateSkipTo_none {s : IterState α} {S : Finset α} (hs : StateHolds P s S) :
    stateSkipTo r s none = some (none, (s.1, none)) ∧ StateHolds P (s.1, none) ∅ := by
  obtain ⟨i, v⟩ := s
  obtain ⟨R, hR, hP, _, rfl⟩ := hs
  refine ⟨by cases v <;> rfl, R, hR, hP, trivial, rfl⟩

/-- The skip of a union's `SkipTo(v)`: taken below `v`, it leaves what is not below `v`. -/
theorem skipIf_lt_spec {s : IterState α} {S : Finset α} (hs : StateHolds P s S) (v : α) :
    ∃ s', skipIf r (compareValue s.2 (some v) == .lt) s v = some s' ∧
      StateHolds P s' (S.filter fun x => v ≤ x) := by
  by_cases hlt : compareValue s.2 (some v) = .lt
  · obtain ⟨x, hx, hxv⟩ := compareValue_eq_lt_iff.mp hlt
    obtain ⟨s', hskip, hs'⟩ := stateSkipTo_spec hr hs v
    -- the buffered value is below `v`, so skipping from after it is skipping from it
    have hfilter := filter_dropLeast_of_lt (hs.least_eq.trans hx) (hxv v rfl)
    refine ⟨s', by simp [skipIf, hlt, hskip], hfilter ▸ hs'⟩
  · refine ⟨s, by simp [skipIf, hlt], ?_⟩
    cases hv : s.2 with
    | none =>
      have hS : S = ∅ := least_eq_none_iff.mp (hs.least_eq.trans hv)
      rw [hS, Finset.filter_empty]
      exact hS ▸ hs
    | some x =>
      have hxv : v ≤ x := by
        rw [hv] at hlt
        simpa using hlt
      rw [filter_le_of_le_least (hs.least_eq.trans hv) hxv]
      exact hs

end State

/-! ## Unions -/

section Union

variable {Pa Pb : SetIter α → Prop} {r : Runner α}
  (hra : ∀ i R, Pa i → i.Holds R → Answers Pa r i R)
  (hrb : ∀ i R, Pb i → i.Holds R → Answers Pb r i R)
include hra hrb

/-- The `switch` of `UnionIterator.Next()` gives the least value of the union and drops it from
the state or states that hold it. -/
theorem unionNext_spec {a b : IterState α} {Sa Sb : Finset α} (ha : StateHolds Pa a Sa)
    (hb : StateHolds Pb b Sb) :
    ∃ a' b' Sa' Sb', unionNext r a b = some (least (Sa ∪ Sb), a', b') ∧
      StateHolds Pa a' Sa' ∧ StateHolds Pb b' Sb' ∧ Sa' ∪ Sb' = dropLeast (Sa ∪ Sb) := by
  obtain ⟨a', hna, ha'⟩ := stateNext_spec hra ha
  obtain ⟨b', hnb, hb'⟩ := stateNext_spec hrb hb
  unfold unionNext
  split
  · -- `a` is lower
    rename_i hcmp
    obtain ⟨x, hx, hxb⟩ := compareValue_eq_lt_iff.mp hcmp
    have hla : least Sa = some x := ha.least_eq.trans hx
    have hbelow : ∀ y ∈ Sb, x < y := by
      intro y hy
      cases hbv : b.2 with
      | none => simp [least_eq_none_iff.mp (hb.least_eq.trans hbv)] at hy
      | some z =>
        have hlb : least Sb = some z := hb.least_eq.trans hbv
        exact lt_of_lt_of_le (hxb z hbv) ((least_eq_some_iff.mp hlb).2 y hy)
    obtain ⟨hl, hd⟩ := least_union_of_lt hla hbelow
    exact ⟨a', b, _, Sb, by simp [hna, hl, hla], ha', hb, hd.symm⟩
  · -- both at one value, or both done
    rename_i hcmp
    have heq := compareValue_eq_eq_iff.mp hcmp
    have hl : least (Sa ∪ Sb) = least Sb ∧ dropLeast (Sa ∪ Sb) = dropLeast Sa ∪ dropLeast Sb := by
      cases hv : b.2 with
      | none =>
        have hSa : Sa = ∅ := least_eq_none_iff.mp (ha.least_eq.trans (heq.trans hv))
        have hSb : Sb = ∅ := least_eq_none_iff.mp (hb.least_eq.trans hv)
        subst hSa hSb
        simp
      | some x =>
        have hla : least Sa = some x := ha.least_eq.trans (heq.trans hv)
        have hlb : least Sb = some x := hb.least_eq.trans hv
        obtain ⟨hl, hd⟩ := least_union_of_eq hla hlb
        exact ⟨hl.trans hlb.symm, hd⟩
    exact ⟨a', b', _, _, by simp [hna, hnb, hl.1], ha', hb', hl.2.symm⟩
  · -- `b` is lower
    rename_i hcmp
    obtain ⟨y, hy, hya⟩ := compareValue_eq_gt_iff.mp hcmp
    have hlb : least Sb = some y := hb.least_eq.trans hy
    have hbelow : ∀ z ∈ Sa, y < z := by
      intro z hz
      cases hav : a.2 with
      | none => simp [least_eq_none_iff.mp (ha.least_eq.trans hav)] at hz
      | some w =>
        have hla : least Sa = some w := ha.least_eq.trans hav
        exact lt_of_lt_of_le (hya w hav) ((least_eq_some_iff.mp hla).2 z hz)
    obtain ⟨hl, hd⟩ := least_union_of_lt hlb hbelow
    rw [Finset.union_comm] at hl hd
    refine ⟨a, b', Sa, _, by simp [hnb, hl, hlb], ha, hb', ?_⟩
    rw [hd, Finset.union_comm]

/-- `UnionIterator.SkipTo(v)` gives the least value of the union not below `v`, and drops it
and the values below `v`. -/
theorem unionSkipTo_spec {a b : IterState α} {Sa Sb : Finset α} (ha : StateHolds Pa a Sa)
    (hb : StateHolds Pb b Sb) (v : α) :
    ∃ a' b' Sa' Sb', unionSkipTo r a b v =
        some (least ((Sa ∪ Sb).filter fun x => v ≤ x), a', b') ∧
      StateHolds Pa a' Sa' ∧ StateHolds Pb b' Sb' ∧
      Sa' ∪ Sb' = dropLeast ((Sa ∪ Sb).filter fun x => v ≤ x) := by
  obtain ⟨a₁, hska, ha₁⟩ := skipIf_lt_spec hra ha v
  obtain ⟨b₁, hskb, hb₁⟩ := skipIf_lt_spec hrb hb v
  obtain ⟨a', b', Sa', Sb', hnext, ha', hb', hd⟩ := unionNext_spec hra hrb ha₁ hb₁
  rw [Finset.filter_union]
  exact ⟨a', b', Sa', Sb', by simp [unionSkipTo, hska, hskb, hnext], ha', hb', hd⟩

end Union

/-! ## Sets -/

section Set

variable {elems : List α}

theorem cursorAtValue_le_iff (hs : elems.Pairwise (· < ·)) (v : α) {k : Nat}
    (hk : k < elems.length) : cursorAtValue elems v ≤ k ↔ v ≤ elems[k] := by
  unfold cursorAtValue
  constructor
  · intro hle
    have hlt : elems.findIdx (fun x => decide (v ≤ x)) < elems.length := lt_of_le_of_lt hle hk
    have hfound := List.findIdx_getElem (w := hlt)
    rw [decide_eq_true_iff] at hfound
    rcases Nat.lt_or_eq_of_le hle with hlt' | heq
    · exact hfound.trans (List.pairwise_iff_getElem.mp hs _ _ hlt hk hlt').le
    · simp only [heq] at hfound
      exact hfound
  · intro hv
    by_contra hgt
    have := List.not_of_lt_findIdx (not_le.mp hgt)
    simp [hv] at this

/-- The elements after `k` not below `v` are those after the later of `k` and `v`'s position. -/
theorem filter_toFinset_drop (hs : elems.Pairwise (· < ·)) (k : Nat) (v : α) :
    (elems.drop k).toFinset.filter (fun x => v ≤ x) =
      (elems.drop (max k (cursorAtValue elems v))).toFinset := by
  ext x
  simp only [Finset.mem_filter, List.mem_toFinset, List.mem_drop_iff_getElem]
  constructor
  · rintro ⟨⟨i, hi, rfl⟩, hv⟩
    have hc := (cursorAtValue_le_iff hs v (by omega)).mpr hv
    refine ⟨k + i - max k (cursorAtValue elems v), by omega, ?_⟩
    congr 1
    omega
  · rintro ⟨i, hi, rfl⟩
    refine ⟨⟨max k (cursorAtValue elems v) + i - k, by omega, by congr 1; omega⟩, ?_⟩
    exact (cursorAtValue_le_iff hs v (by omega)).mp (by omega)

theorem setNext_spec (hs : elems.Pairwise (· < ·)) (cursor : Option Nat) :
    (setNext elems cursor).1 = least (elems.drop (consumed cursor)).toFinset ∧
      (elems.drop (consumed (setNext elems cursor).2)).toFinset =
        dropLeast (elems.drop (consumed cursor)).toFinset := by
  cases cursor with
  | none => exact ⟨(least_toFinset_drop hs 0).symm, (dropLeast_toFinset_drop hs 0).symm⟩
  | some i =>
    simp only [setNext, consumed]
    split_ifs with hi
    · exact ⟨(least_toFinset_drop hs (i + 1)).symm, (dropLeast_toFinset_drop hs (i + 1)).symm⟩
    · -- the cursor is past the end and stays there
      have hnil : elems.drop (i + 1) = [] := List.drop_eq_nil_of_le (by omega)
      rw [hnil, List.getElem?_eq_none (by omega)]
      exact ⟨rfl, rfl⟩

theorem setSkipTo_spec (hs : elems.Pairwise (· < ·)) (v : α) (cursor : Option Nat) :
    (setSkipTo elems v cursor).1 =
        least ((elems.drop (consumed cursor)).toFinset.filter fun x => v ≤ x) ∧
      (elems.drop (consumed (setSkipTo elems v cursor).2)).toFinset =
        dropLeast ((elems.drop (consumed cursor)).toFinset.filter fun x => v ≤ x) := by
  cases cursor with
  | none =>
    rw [consumed, filter_toFinset_drop hs, Nat.zero_max]
    exact ⟨(least_toFinset_drop hs _).symm, (dropLeast_toFinset_drop hs _).symm⟩
  | some i =>
    simp only [setSkipTo, consumed]
    cases hcur : elems[i]? with
    | none =>
      have hnil : elems.drop (i + 1) = [] :=
        List.drop_eq_nil_of_le (by rw [List.getElem?_eq_none_iff] at hcur; omega)
      simp [hnil]
    | some cur =>
      obtain ⟨hi, hcur'⟩ := List.getElem?_eq_some_iff.mp hcur
      simp only
      split_ifs with hle
      · -- at or below the last value returned: everything after the cursor is kept
        have hvc : v ≤ cur := by simpa using hle
        have hkeep : (elems.drop (i + 1)).toFinset.filter (fun x => v ≤ x) =
            (elems.drop (i + 1)).toFinset := by
          refine Finset.filter_true_of_mem fun x hx => ?_
          obtain ⟨j, hj, rfl⟩ := List.mem_drop_iff_getElem.mp (List.mem_toFinset.mp hx)
          exact hvc.trans (hcur' ▸ (List.pairwise_iff_getElem.mp hs _ _ hi _ (by omega)).le)
        rw [hkeep]
        have := setNext_spec hs (some i)
        simpa only [consumed] using this
      · -- above it: the cursor moves to `v`'s position, past the last value returned
        have hcv : cur < v := by simpa using hle
        have hpos : i + 1 ≤ cursorAtValue elems v := by
          by_contra hlt
          have := (cursorAtValue_le_iff hs v hi).mp (by omega)
          rw [hcur'] at this
          exact absurd hcv (not_lt.mpr this)
        rw [filter_toFinset_drop hs, max_eq_right hpos]
        exact ⟨(least_toFinset_drop hs _).symm, (dropLeast_toFinset_drop hs _).symm⟩

/-- A set answers every call as the doc says, and stays a set. -/
theorem run_set {cursor : Option Nat} {R : Finset α} (hR : (SetIter.set elems cursor).Holds R)
    (fuel : Nat) (c : IterCall α) :
    ∃ cursor', run (fuel + 1) c (.set elems cursor) =
        some ((callSpec c R).1, .set elems cursor') ∧
      (SetIter.set elems cursor').Holds (callSpec c R).2 := by
  obtain ⟨hs, rfl⟩ := hR
  cases c with
  | next =>
    obtain ⟨hres, hrest⟩ := setNext_spec hs cursor
    exact ⟨_, by simp [run, callSpec, ← hres], hs, hrest.symm⟩
  | skipTo v =>
    obtain ⟨hres, hrest⟩ := setSkipTo_spec hs v cursor
    exact ⟨_, by simp [run, callSpec, ← hres], hs, hrest.symm⟩

end Set

/-! ## Trees of sets and unions -/

theorem StateHolds.union {Pa Pb : SetIter α → Prop} {a b : IterState α} {Sa Sb : Finset α}
    (ha : StateHolds Pa a Sa) (hb : StateHolds Pb b Sb) :
    (SetIter.union a.1 a.2 b.1 b.2).Holds (Sa ∪ Sb) := by
  obtain ⟨Ra, hRa, _, haa, rfl⟩ := ha
  obtain ⟨Rb, hRb, _, hab, rfl⟩ := hb
  exact ⟨Ra, Rb, hRa, hRb, haa, hab, rfl⟩

theorem StateHolds.inter {Pa Pb : SetIter α → Prop} {a b : IterState α} {Sa Sb : Finset α}
    (ha : StateHolds Pa a Sa) (hb : StateHolds Pb b Sb) :
    (SetIter.intersection a.1 a.2 b.1 b.2).Holds (Sa ∩ Sb) := by
  obtain ⟨Ra, hRa, _, haa, rfl⟩ := ha
  obtain ⟨Rb, hRb, _, hab, rfl⟩ := hb
  exact ⟨Ra, Rb, hRa, hRb, haa, hab, rfl⟩

theorem StateHolds.child {P : SetIter α → Prop} {s : IterState α} {S : Finset α}
    (h : StateHolds P s S) : P s.1 := by
  obtain ⟨_, _, hP, _⟩ := h
  exact hP

/-- Every call on a tree of sets and unions answers as the `SetIterator` doc says, given fuel
above the tree's height; the tree keeps its shape. -/
theorem run_spec : ∀ (fuel : Nat) (it : SetIter α), it.UnionOnly → it.height < fuel →
    ∀ R, it.Holds R → Answers (fun i => i.UnionOnly ∧ i.height = it.height) (run fuel) it R
  | 0, _, _, hh, _, _ => absurd hh (Nat.not_lt_zero _)
  | fuel + 1, .set elems cursor, _, _, R, hR => by
    intro c
    obtain ⟨cursor', hrun, hR'⟩ := run_set hR fuel c
    exact ⟨_, hrun, hR', trivial, rfl⟩
  | fuel + 1, .union a av b bv, ⟨hua, hub⟩, hh, R, ⟨Ra, Rb, hRa, hRb, haa, hab, hR⟩ => by
    intro c
    -- the children, and every tree of their shape, answer on the fuel left
    have hchild : ∀ t : SetIter α, t.height < fuel → ∀ (i : SetIter α) (R : Finset α),
        (i.UnionOnly ∧ i.height = t.height) → i.Holds R →
          Answers (fun i => i.UnionOnly ∧ i.height = t.height) (run fuel) i R := by
      rintro t ht i R ⟨hu, hi⟩ hR
      rw [← hi]
      exact run_spec fuel i hu (by omega) R hR
    have hta : a.height < fuel := by simp only [SetIter.height] at hh; omega
    have htb : b.height < fuel := by simp only [SetIter.height] at hh; omega
    have ha : StateHolds (fun i => i.UnionOnly ∧ i.height = a.height) (a, av) (stateHolds av Ra) :=
      ⟨Ra, hRa, ⟨hua, rfl⟩, haa, rfl⟩
    have hb : StateHolds (fun i => i.UnionOnly ∧ i.height = b.height) (b, bv) (stateHolds bv Rb) :=
      ⟨Rb, hRb, ⟨hub, rfl⟩, hab, rfl⟩
    subst hR
    cases c with
    | next =>
      obtain ⟨a', b', Sa', Sb', hnext, ha', hb', hrest⟩ :=
        unionNext_spec (hchild a hta) (hchild b htb) ha hb
      refine ⟨_, by simp [run, hnext, callSpec], hrest ▸ ha'.union hb', ?_⟩
      exact ⟨⟨ha'.child.1, hb'.child.1⟩, by simp [SetIter.height, ha'.child.2, hb'.child.2]⟩
    | skipTo v =>
      obtain ⟨a', b', Sa', Sb', hskip, ha', hb', hrest⟩ :=
        unionSkipTo_spec (hchild a hta) (hchild b htb) ha hb v
      refine ⟨_, by simp [run, hskip, callSpec], hrest ▸ ha'.union hb', ?_⟩
      exact ⟨⟨ha'.child.1, hb'.child.1⟩, by simp [SetIter.height, ha'.child.2, hb'.child.2]⟩
  | fuel + 1, .intersection _ _ _ _, hu, _, _, _ => hu.elim

/-! ## Intersections -/

/-- A turn of `IntersectionIterator.Next()`'s loop: the lower state skips to the other's
buffered value. It loses nothing of the intersection and holds fewer values. -/
theorem stateSkipTo_lower {P Q : SetIter α → Prop} {r : Runner α}
    (hr : ∀ i R, P i → i.Holds R → Answers P r i R) {a b : IterState α} {Sa Sb : Finset α}
    (ha : StateHolds P a Sa) (hb : StateHolds Q b Sb) (hlt : compareValue a.2 b.2 = .lt) :
    ∃ v a' Sa', stateSkipTo r a b.2 = some (v, a') ∧ StateHolds P a' Sa' ∧
      Sa'.card < Sa.card ∧ Sa' ∩ Sb = Sa ∩ Sb := by
  obtain ⟨x, hx, hxb⟩ := compareValue_eq_lt_iff.mp hlt
  have hla : least Sa = some x := ha.least_eq.trans hx
  have hxSa : x ∈ Sa := (least_eq_some_iff.mp hla).1
  cases hbv : b.2 with
  | none =>
    -- the other state is done, and so is the intersection
    have hSb : Sb = ∅ := least_eq_none_iff.mp (hb.least_eq.trans hbv)
    obtain ⟨hskip, ha'⟩ := stateSkipTo_none ha
    refine ⟨_, _, _, hskip, ha', Finset.card_pos.mpr ⟨x, hxSa⟩, ?_⟩
    simp [hSb]
  | some y =>
    obtain ⟨a', hskip, ha'⟩ := stateSkipTo_spec hr ha y
    have hxy : x < y := hxb y hbv
    refine ⟨_, a', _, hskip, ha', ?_, ?_⟩
    · calc ((dropLeast Sa).filter fun z => y ≤ z).card
          ≤ (dropLeast Sa).card := Finset.card_le_card (Finset.filter_subset _ _)
        _ < Sa.card := by
          rw [dropLeast_of_least hla]
          exact Finset.card_erase_lt_of_mem hxSa
    · have hlb : least Sb = some y := hb.least_eq.trans hbv
      rw [filter_dropLeast_of_lt hla hxy, ← inter_eq_filter_inter hlb]

section Intersection

variable {Pa Pb : SetIter α → Prop} {r : Runner α}
  (hra : ∀ i R, Pa i → i.Holds R → Answers Pa r i R)
  (hrb : ∀ i R, Pb i → i.Holds R → Answers Pb r i R)
include hra hrb

/-- The loop of `IntersectionIterator.Next()` stops with both states at one value and the
intersection unchanged, on fuel above the values the two states hold. -/
theorem intersectionLoop_spec : ∀ (fuel : Nat) {a b : IterState α} {Sa Sb : Finset α},
    StateHolds Pa a Sa → StateHolds Pb b Sb → Sa.card + Sb.card < fuel →
    ∃ a' b' Sa' Sb', intersectionLoop r fuel a b = some (a', b') ∧ StateHolds Pa a' Sa' ∧
      StateHolds Pb b' Sb' ∧ a'.2 = b'.2 ∧ Sa' ∩ Sb' = Sa ∩ Sb
  | 0, _, _, _, _, _, _, hf => absurd hf (Nat.not_lt_zero _)
  | fuel + 1, a, b, Sa, Sb, ha, hb, hf => by
    unfold intersectionLoop
    split
    · -- `a` is lower and skips to `b`'s value
      rename_i hcmp
      obtain ⟨v, a₁, Sa₁, hskip, ha₁, hcard, hinter⟩ := stateSkipTo_lower hra ha hb hcmp
      obtain ⟨a', b', Sa', Sb', hloop, ha', hb', heq, hinter'⟩ :=
        intersectionLoop_spec fuel ha₁ hb (by omega)
      exact ⟨a', b', Sa', Sb', by simp [hskip, hloop], ha', hb', heq, hinter'.trans hinter⟩
    · rename_i hcmp
      exact ⟨a, b, Sa, Sb, rfl, ha, hb, compareValue_eq_eq_iff.mp hcmp, rfl⟩
    · -- `b` is lower and skips to `a`'s value
      rename_i hcmp
      have hlt : compareValue b.2 a.2 = .lt :=
        compareValue_eq_lt_iff.mpr (compareValue_eq_gt_iff.mp hcmp)
      obtain ⟨v, b₁, Sb₁, hskip, hb₁, hcard, hinter⟩ := stateSkipTo_lower hrb hb ha hlt
      obtain ⟨a', b', Sa', Sb', hloop, ha', hb', heq, hinter'⟩ :=
        intersectionLoop_spec fuel ha hb₁ (by omega)
      refine ⟨a', b', Sa', Sb', by simp [hskip, hloop], ha', hb', heq, ?_⟩
      rw [hinter', Finset.inter_comm, hinter, Finset.inter_comm]

/-- `IntersectionIterator.Next()` gives the least value of the intersection and drops it, when
its children answer as the doc says. -/
theorem intersectionNext_spec {fuel : Nat} {a b : IterState α} {Sa Sb : Finset α}
    (ha : StateHolds Pa a Sa) (hb : StateHolds Pb b Sb) (hf : Sa.card + Sb.card < fuel) :
    ∃ a' b' Sa' Sb', intersectionNext r fuel a b = some (least (Sa ∩ Sb), a', b') ∧
      StateHolds Pa a' Sa' ∧ StateHolds Pb b' Sb' ∧ Sa' ∩ Sb' = dropLeast (Sa ∩ Sb) := by
  obtain ⟨a₁, b₁, Sa₁, Sb₁, hloop, ha₁, hb₁, heq, hinter⟩ :=
    intersectionLoop_spec hra hrb fuel ha hb hf
  obtain ⟨a', hna, ha'⟩ := stateNext_spec hra ha₁
  obtain ⟨b', hnb, hb'⟩ := stateNext_spec hrb hb₁
  -- both states stand at one value, which is the least of the intersection
  have hl : least (Sa₁ ∩ Sb₁) = a₁.2 ∧
      dropLeast (Sa₁ ∩ Sb₁) = dropLeast Sa₁ ∩ dropLeast Sb₁ := by
    cases hv : a₁.2 with
    | none =>
      have hSa : Sa₁ = ∅ := least_eq_none_iff.mp (ha₁.least_eq.trans hv)
      subst hSa
      simp
    | some x =>
      exact least_inter_of_eq (ha₁.least_eq.trans hv) (hb₁.least_eq.trans (heq.symm.trans hv))
  rw [← hinter]
  exact ⟨a', b', _, _, by simp [intersectionNext, hloop, hna, hnb, hl.1], ha', hb', hl.2.symm⟩

/-- `IntersectionIterator.SkipTo(v)` at a value both states have buffered never gives it, though
it is the least value of the intersection not below `v`: each child is sent `v`, and a child
skips what it has returned already. -/
theorem intersectionSkipTo_drops_buffered {fuel : Nat} {a b : IterState α} {Sa Sb : Finset α}
    {v : α} (ha : StateHolds Pa a Sa) (hb : StateHolds Pb b Sb) (hav : a.2 = some v)
    (hbv : b.2 = some v) (hf : Sa.card + Sb.card < fuel) :
    least ((Sa ∩ Sb).filter fun x => v ≤ x) = some v ∧
      ∃ res a' b', intersectionSkipTo r fuel a b v = some (res, a', b') ∧ res ≠ some v := by
  have hla : least Sa = some v := ha.least_eq.trans hav
  have hlb : least Sb = some v := hb.least_eq.trans hbv
  obtain ⟨a₁, hska, ha₁⟩ := stateSkipTo_spec hra ha v
  obtain ⟨b₁, hskb, hb₁⟩ := stateSkipTo_spec hrb hb v
  have hcard : ((dropLeast Sa).filter fun x => v ≤ x).card +
      ((dropLeast Sb).filter fun x => v ≤ x).card < fuel := by
    have h₁ := Finset.card_le_card (Finset.filter_subset (fun x => v ≤ x) (dropLeast Sa))
    have h₂ := Finset.card_le_card (Finset.filter_subset (fun x => v ≤ x) (dropLeast Sb))
    have h₃ := Finset.card_le_card (Finset.erase_subset v Sa)
    have h₄ := Finset.card_le_card (Finset.erase_subset v Sb)
    rw [← dropLeast_of_least hla] at h₃
    rw [← dropLeast_of_least hlb] at h₄
    omega
  obtain ⟨a', b', Sa', Sb', hnext, -, -, -⟩ := intersectionNext_spec hra hrb ha₁ hb₁ hcard
  refine ⟨?_, least (((dropLeast Sa).filter fun x => v ≤ x) ∩
    (dropLeast Sb).filter fun x => v ≤ x), a', b', ?_, ?_⟩
  · rw [filter_le_of_le_least (least_inter_of_eq hla hlb).1 le_rfl]
    exact (least_inter_of_eq hla hlb).1
  · simp [intersectionSkipTo, hav, hbv, skipIf, hska, hskb, hnext]
  · -- what is left starts above `v`
    intro hres
    have hmem := (least_eq_some_iff.mp hres).1
    rw [Finset.mem_inter, Finset.mem_filter, dropLeast_of_least hla, Finset.mem_erase] at hmem
    exact hmem.1.1.1 rfl

end Intersection

/-- The nested intersection of `{3, 5}`, `{3, 5}` and `{5}`, built as `NewIntersectionIterator`
builds it, still holds `5`, and its first `Next()` gives `nil`: the outer loop sends the inner
intersection to `5`, which both inner sets have buffered and so skip. -/
theorem intersection_next_drops_buffered (fuel : Nat) (hfuel : 4 ≤ fuel) :
    ∃ I O O', newIntersectionIterator fuel (setIterator [3, 5]) (setIterator [3, 5]) = some I ∧
      newIntersectionIterator fuel I (setIterator [5]) = some O ∧ O.Holds {5} ∧
      run fuel .next O = some (none, O') := by
  let inner : SetIter Nat := .intersection (.set [3, 5] (some 1)) (some 5) (.set [3, 5] (some 1)) (some 5)
  have hinner : inner.Holds {5} :=
    ⟨∅, ∅, ⟨by decide, by decide⟩, ⟨by decide, by decide⟩, by decide, by decide, by decide⟩
  refine ⟨_, .intersection inner (some 3) (.set [5] (some 0)) (some 5), _,
    newIntersectionIterator_mono hfuel rfl, newIntersectionIterator_mono hfuel rfl,
    ⟨{5}, ∅, hinner, ⟨by decide, by decide⟩, by decide, by decide, by decide⟩,
    run_mono hfuel rfl⟩

theorem intersection_next_drops_buffered_four :
    4 ≤ 4 ∧ ∃ I O O', newIntersectionIterator 4 (setIterator [3, 5]) (setIterator [3, 5]) = some I ∧
      newIntersectionIterator 4 I (setIterator [5]) = some O ∧ O.Holds {5} ∧
      run 4 .next O = some (none, O') :=
  ⟨le_rfl, intersection_next_drops_buffered 4 le_rfl⟩

end Noms.Types
