import Mathlib.Data.List.Sort
import Mathlib.Data.List.Dedup
import Mathlib.Data.List.TakeWhile

/-!
# Queues of refs by height (`ref_heap.go`)

`RefByHeight` is a slice of refs kept sorted by `HeightOrder`: taller refs first, and at one
height the smaller target hash first. Go keeps the tallest ref at the end of the slice, where
`PeekEnd`, `PopBack` and `PopRefsOfHeight` work; here the queue is a list whose head is that
end. A ref is its target hash: a ref's height is a function of its target (`height`), so two
refs to one chunk are one ref.

`sort` is `sort.Sort` on the queue. Its order is total, so the sorted queue does not depend on
the order the refs were pushed in (`sort_eq_of_perm`); `PopRefsOfHeight` of the tallest height
takes every ref of that height and leaves only shorter ones (`Sorted.PopRefsOfHeight_snd_lt`).
-/

namespace Noms.Types

variable {H : Type} [LinearOrder H] (height : H → Nat)

/-- `HeightOrder(a, b)`: `a` is higher than `b`, or as high with a smaller target hash. -/
def HeightOrder (a b : H) : Bool :=
  if height a = height b then decide (a < b) else decide (height b < height a)

/-- The order of a sorted queue: `b` is not higher than `a`. -/
def HigherOrSame (a b : H) : Prop := HeightOrder height b a = false

instance : DecidableRel (HigherOrSame height) := fun a b =>
  inferInstanceAs (Decidable (HeightOrder height b a = false))

theorem higherOrSame_iff {a b : H} :
    HigherOrSame height a b ↔ height b < height a ∨ (height a = height b ∧ a ≤ b) := by
  unfold HigherOrSame HeightOrder
  by_cases hh : height b = height a
  · simp [hh, not_lt]
  · have hne : height a ≠ height b := Ne.symm hh
    simp only [hh, if_false, decide_eq_false_iff_not, not_lt, hne, false_and, or_false]
    omega

instance : Std.Total (HigherOrSame height) where
  total a b := by
    simp only [higherOrSame_iff]
    rcases lt_trichotomy (height a) (height b) with h | h | h
    · exact .inr (.inl h)
    · rcases le_total a b with hab | hab
      · exact .inl (.inr ⟨h, hab⟩)
      · exact .inr (.inr ⟨h.symm, hab⟩)
    · exact .inl (.inl h)

instance : IsTrans H (HigherOrSame height) where
  trans a b c := by
    simp only [higherOrSame_iff]
    rintro (hab | ⟨hab, hab'⟩) (hbc | ⟨hbc, hbc'⟩)
    · exact .inl (by omega)
    · exact .inl (by omega)
    · exact .inl (by omega)
    · exact .inr ⟨hab.trans hbc, hab'.trans hbc'⟩

theorem HigherOrSame.antisymm {a b : H} (hab : HigherOrSame height a b)
    (hba : HigherOrSame height b a) : a = b := by
  rw [higherOrSame_iff] at hab hba
  rcases hab with hab | ⟨hab, hab'⟩ <;> rcases hba with hba | ⟨hba, hba'⟩
  · omega
  · omega
  · omega
  · exact le_antisymm hab' hba'

theorem HigherOrSame.height_le {a b : H} (h : HigherOrSame height a b) : height b ≤ height a := by
  rw [higherOrSame_iff] at h
  omega

namespace RefByHeight

/-- `sort.Sort(q)`: the tallest first. -/
def sort (q : List H) : List H := q.insertionSort (HigherOrSame height)

/-- `MaxHeight()`: the height of the zero `Ref` for an empty queue. -/
def MaxHeight : List H → Nat
  | [] => 0
  | r :: _ => height r

/-- `PopRefsOfHeight(h)`: the refs of height `h` at the top, and the rest of the queue. -/
def PopRefsOfHeight (q : List H) (h : Nat) : List H × List H :=
  (q.takeWhile fun r => height r = h, q.dropWhile fun r => height r = h)

/-- `Unique()`: one ref per target, the first in Go's slice order, which is the last here. -/
def Unique (q : List H) : List H := q.dedup

/-- A queue in the order `sort` leaves. -/
def Sorted (q : List H) : Prop := q.Pairwise (HigherOrSame height)

variable {height}

theorem mem_sort {q : List H} {r : H} : r ∈ sort height q ↔ r ∈ q :=
  (List.perm_insertionSort _ q).mem_iff

theorem sorted_sort (q : List H) : Sorted height (sort height q) :=
  List.pairwise_insertionSort _ q

/-- The sorted queue does not depend on the order of the pushes. -/
theorem sort_eq_of_perm {q q' : List H} (h : q.Perm q') : sort height q = sort height q' :=
  List.Perm.eq_of_pairwise (fun _ _ _ _ hab hba => HigherOrSame.antisymm height hab hba)
    (sorted_sort q) (sorted_sort q')
    (((List.perm_insertionSort _ q).trans h).trans (List.perm_insertionSort _ q').symm)

theorem mem_Unique {q : List H} {r : H} : r ∈ Unique q ↔ r ∈ q := List.mem_dedup

theorem Sorted.Unique {q : List H} (hq : Sorted height q) : Sorted height (Unique q) :=
  hq.sublist (List.dedup_sublist q)

/-- Every ref of a sorted queue is at most as high as its head. -/
theorem Sorted.le_MaxHeight {q : List H} (hq : Sorted height q) {r : H} (hr : r ∈ q) :
    height r ≤ MaxHeight height q := by
  cases q with
  | nil => cases hr
  | cons a q =>
    rcases List.mem_cons.mp hr with rfl | hr
    · exact le_refl _
    · exact ((List.pairwise_cons.mp hq).1 r hr).height_le

omit [LinearOrder H] in
/-- A queue no higher than `b` has `MaxHeight` at most `b`. -/
theorem MaxHeight_le {q : List H} {b : Nat} (h : ∀ r ∈ q, height r ≤ b) :
    MaxHeight height q ≤ b := by
  cases q with
  | nil => exact Nat.zero_le b
  | cons r q => exact h r List.mem_cons_self

omit [LinearOrder H] in
theorem PopRefsOfHeight_append (q : List H) (h : Nat) :
    (PopRefsOfHeight height q h).1 ++ (PopRefsOfHeight height q h).2 = q :=
  List.takeWhile_append_dropWhile

omit [LinearOrder H] in
theorem mem_PopRefsOfHeight {q : List H} {h : Nat} {r : H} :
    r ∈ q ↔ r ∈ (PopRefsOfHeight height q h).1 ∨ r ∈ (PopRefsOfHeight height q h).2 := by
  rw [← List.mem_append, PopRefsOfHeight_append]

omit [LinearOrder H] in
theorem height_of_mem_PopRefsOfHeight_fst {q : List H} {h : Nat} {r : H}
    (hr : r ∈ (PopRefsOfHeight height q h).1) : height r = h := by
  simpa using List.mem_takeWhile_imp hr

theorem Sorted.PopRefsOfHeight_snd {q : List H} (hq : Sorted height q) (h : Nat) :
    Sorted height (PopRefsOfHeight height q h).2 :=
  hq.sublist (List.dropWhile_suffix _).sublist

/-- Past the refs of height `h` at the top of a sorted queue no higher than `h`, every ref is
shorter than `h`. -/
theorem Sorted.dropWhile_lt {l : List H} (hl : Sorted height l) {h : Nat}
    (hle : ∀ r ∈ l, height r ≤ h) {r : H} (hr : r ∈ l.dropWhile fun r => height r = h) :
    height r < h := by
  induction l with
  | nil => cases hr
  | cons b l ih =>
    have hb := hle b List.mem_cons_self
    by_cases hbh : height b = h
    · rw [List.dropWhile_cons_of_pos (by simpa using hbh)] at hr
      exact ih hl.of_cons (fun x hx => hle x (List.mem_cons_of_mem _ hx)) hr
    · rw [List.dropWhile_cons_of_neg (by simpa using hbh)] at hr
      rcases List.mem_cons.mp hr with rfl | hr
      · omega
      · have := ((List.pairwise_cons.mp hl).1 r hr).height_le
        omega

/-- Popping the tallest height of a sorted queue leaves only shorter refs. -/
theorem Sorted.PopRefsOfHeight_snd_lt {q : List H} (hq : Sorted height q) {r : H}
    (hr : r ∈ (PopRefsOfHeight height q (MaxHeight height q)).2) :
    height r < MaxHeight height q :=
  hq.dropWhile_lt (fun _ hx => hq.le_MaxHeight hx) hr

/-- In a sorted queue no higher than `h`, the refs of height `h` are the ones at the top:
`PopRefsOfHeight` takes exactly them and leaves exactly the others. -/
theorem Sorted.PopRefsOfHeight_eq_filter {q : List H} (hq : Sorted height q) {h : Nat}
    (hle : ∀ r ∈ q, height r ≤ h) :
    PopRefsOfHeight height q h = (q.filter fun r => height r = h, q.filter fun r => height r ≠ h) := by
  induction q with
  | nil => rfl
  | cons b l ih =>
    have hl := ih hq.of_cons (fun r hr => hle r (List.mem_cons_of_mem b hr))
    unfold PopRefsOfHeight at hl ⊢
    by_cases hbh : height b = h
    · rw [List.takeWhile_cons_of_pos (by simpa using hbh),
        List.dropWhile_cons_of_pos (by simpa using hbh), List.filter_cons_of_pos (by simpa using hbh),
        List.filter_cons_of_neg (by simpa using hbh)]
      rw [Prod.mk.injEq] at hl ⊢
      exact ⟨congrArg (b :: ·) hl.1, hl.2⟩
    · -- `b` is below `h`, and so is every ref after it
      have hlt : ∀ r ∈ b :: l, height r < h := by
        intro r hr
        have hrb : height r ≤ height b := by
          rcases List.mem_cons.mp hr with rfl | hr
          · exact le_refl _
          · exact ((List.pairwise_cons.mp hq).1 r hr).height_le
        have := hle b List.mem_cons_self
        omega
      rw [List.takeWhile_cons_of_neg (by simpa using hbh),
        List.dropWhile_cons_of_neg (by simpa using hbh), Prod.mk.injEq]
      constructor
      · symm
        rw [List.filter_eq_nil_iff]
        intro r hr
        simpa using (hlt r hr).ne
      · symm
        rw [List.filter_eq_self]
        intro r hr
        simpa using (hlt r hr).ne

/-- Every ref of a sorted queue is at most as high as its head, and after it in the order. -/
theorem Sorted.higherOrSame_head {s x : H} {l : List H} (hl : Sorted height (s :: l))
    (hx : x ∈ s :: l) : HigherOrSame height s x := by
  rcases List.mem_cons.mp hx with rfl | hx
  · unfold HigherOrSame HeightOrder
    simp
  · exact (List.pairwise_cons.mp hl).1 x hx

/-- A ref that `HeightOrder` puts above the head of a sorted queue is not in the queue. -/
theorem Sorted.not_mem_of_heightOrder {t s : H} {l : List H} (hl : Sorted height (s :: l))
    (h : HeightOrder height t s = true) : t ∉ s :: l := by
  intro ht
  have hst : HeightOrder height t s = false := hl.higherOrSame_head ht
  rw [h] at hst
  cases hst

/-- A ref no lower than the head of a sorted queue and not the head is not in the queue. -/
theorem Sorted.not_mem_of_higherOrSame {t s : H} {l : List H} (hl : Sorted height (t :: l))
    (hst : HigherOrSame height s t) (hne : s ≠ t) : s ∉ t :: l :=
  fun hs => hne (hst.antisymm height (hl.higherOrSame_head hs))

end RefByHeight

end Noms.Types
