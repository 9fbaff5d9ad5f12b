import Mathlib.Data.List.Sublists
import Mathlib.Data.List.MinMax

/-!
# Longest common subsequences

`lcsLength l₁ l₂` is the length of a longest list that is a sublist of both `l₁` and `l₂`,
computed as the maximum over the sublists of `l₁`. It is characterised by two facts: every common
sublist is at most that long (`length_le_lcsLength`), and some common sublist is that long
(`exists_lcsLength`). Everything else follows from these: the recurrence on the first elements and,
through `reverse`, on the last; that a shared prefix or suffix adds its length; and that a table
satisfying the insert/delete edit-distance recurrence holds `i + j - 2 * lcsLength` of the
prefixes (`eq_lcsLength_of_recurrence`), which is how an edit-distance matrix is shown minimal.
-/

namespace Noms.Lib

open scoped List

variable {α : Type} [DecidableEq α]

/-- The length of a longest common subsequence of `l₁` and `l₂`. -/
def lcsLength (l₁ l₂ : List α) : Nat :=
  ((l₁.sublists.filter fun s => decide (s <+ l₂)).map List.length).foldr max 0

/-- The maximum of a list of naturals is `0` or one of them. -/
theorem foldr_max_mem : ∀ l : List Nat, l.foldr max 0 = 0 ∨ l.foldr max 0 ∈ l
  | [] => .inl rfl
  | y :: l => by
    rcases max_choice y (l.foldr max 0) with h | h <;> simp only [List.foldr_cons, h]
    · exact .inr List.mem_cons_self
    · rcases foldr_max_mem l with h' | h'
      · exact .inl h'
      · exact .inr (List.mem_cons_of_mem _ h')

variable {l₁ l₂ s : List α} {a b : α}

theorem length_le_lcsLength (h₁ : s <+ l₁) (h₂ : s <+ l₂) : s.length ≤ lcsLength l₁ l₂ :=
  List.le_max_of_le' 0
    (List.mem_map_of_mem (List.mem_filter.mpr ⟨List.mem_sublists.mpr h₁, decide_eq_true h₂⟩))
    le_rfl

theorem exists_lcsLength (l₁ l₂ : List α) :
    ∃ s, s <+ l₁ ∧ s <+ l₂ ∧ s.length = lcsLength l₁ l₂ := by
  rcases foldr_max_mem ((l₁.sublists.filter fun s => decide (s <+ l₂)).map List.length) with h | h
  · exact ⟨[], List.nil_sublist _, List.nil_sublist _, h.symm⟩
  · obtain ⟨s, hs, hlen⟩ := List.mem_map.mp h
    obtain ⟨h₁, h₂⟩ := List.mem_filter.mp hs
    exact ⟨s, List.mem_sublists.mp h₁, of_decide_eq_true h₂, hlen⟩

/-- Two lengths of `lcsLength` are equal when each bounds the other's common sublists. -/
theorem lcsLength_eq_of {n : Nat} (hle : ∀ s, s <+ l₁ → s <+ l₂ → s.length ≤ n)
    (hex : ∃ s, s <+ l₁ ∧ s <+ l₂ ∧ n ≤ s.length) : lcsLength l₁ l₂ = n := by
  obtain ⟨s, h₁, h₂, hs⟩ := exists_lcsLength l₁ l₂
  obtain ⟨t, ht₁, ht₂, ht⟩ := hex
  have := hle s h₁ h₂
  have := length_le_lcsLength ht₁ ht₂
  omega

theorem lcsLength_comm (l₁ l₂ : List α) : lcsLength l₁ l₂ = lcsLength l₂ l₁ := by
  obtain ⟨s, h₁, h₂, hs⟩ := exists_lcsLength l₂ l₁
  exact lcsLength_eq_of (fun t ht₁ ht₂ => hs ▸ length_le_lcsLength ht₂ ht₁) ⟨s, h₂, h₁, hs.ge⟩

theorem lcsLength_le_left (l₁ l₂ : List α) : lcsLength l₁ l₂ ≤ l₁.length := by
  obtain ⟨s, h₁, -, hs⟩ := exists_lcsLength l₁ l₂
  exact hs ▸ h₁.length_le

theorem lcsLength_le_right (l₁ l₂ : List α) : lcsLength l₁ l₂ ≤ l₂.length :=
  lcsLength_comm l₁ l₂ ▸ lcsLength_le_left l₂ l₁

@[simp] theorem lcsLength_nil_left (l : List α) : lcsLength [] l = 0 :=
  Nat.le_zero.mp (lcsLength_le_left [] l)

@[simp] theorem lcsLength_nil_right (l : List α) : lcsLength l [] = 0 :=
  Nat.le_zero.mp (lcsLength_le_right l [])

theorem lcsLength_reverse (l₁ l₂ : List α) : lcsLength l₁.reverse l₂.reverse = lcsLength l₁ l₂ := by
  obtain ⟨s, h₁, h₂, hs⟩ := exists_lcsLength l₁ l₂
  refine lcsLength_eq_of (fun t ht₁ ht₂ => ?_) ⟨s.reverse, List.reverse_sublist.mpr h₁,
    List.reverse_sublist.mpr h₂, by simp [hs]⟩
  have h₁' : t.reverse <+ l₁ := by simpa using List.reverse_sublist.mpr ht₁
  have h₂' : t.reverse <+ l₂ := by simpa using List.reverse_sublist.mpr ht₂
  simpa using length_le_lcsLength h₁' h₂'

/-! ## Recurrences -/

/-- A common sublist of `a :: l₁` and `l₂` loses at most its head without `a`. -/
theorem lcsLength_cons_le (a : α) (l₁ l₂ : List α) : lcsLength (a :: l₁) l₂ ≤ lcsLength l₁ l₂ + 1 := by
  obtain ⟨s, h₁, h₂, hs⟩ := exists_lcsLength (a :: l₁) l₂
  have htail : s.tail.length ≤ lcsLength l₁ l₂ :=
    length_le_lcsLength h₁.tail ((List.tail_sublist s).trans h₂)
  rw [List.length_tail] at htail
  omega

theorem le_lcsLength_cons (a : α) (l₁ l₂ : List α) : lcsLength l₁ l₂ ≤ lcsLength (a :: l₁) l₂ := by
  obtain ⟨s, h₁, h₂, hs⟩ := exists_lcsLength l₁ l₂
  exact hs ▸ length_le_lcsLength (h₁.cons a) h₂

/-- Equal first elements are matched. -/
theorem lcsLength_cons_cons_self (a : α) (l₁ l₂ : List α) :
    lcsLength (a :: l₁) (a :: l₂) = lcsLength l₁ l₂ + 1 := by
  obtain ⟨s, h₁, h₂, hs⟩ := exists_lcsLength l₁ l₂
  refine lcsLength_eq_of (fun t ht₁ ht₂ => ?_) ⟨a :: s, h₁.cons_cons a, h₂.cons_cons a, by simp [hs]⟩
  -- whatever the head of `t` matched, its tail is common to both tails
  have htail : t.tail.length ≤ lcsLength l₁ l₂ := length_le_lcsLength ht₁.tail ht₂.tail
  rw [List.length_tail] at htail
  omega

/-- Different first elements: one of them is left out. -/
theorem lcsLength_cons_cons_of_ne (h : a ≠ b) (l₁ l₂ : List α) :
    lcsLength (a :: l₁) (b :: l₂) = max (lcsLength l₁ (b :: l₂)) (lcsLength (a :: l₁) l₂) := by
  refine le_antisymm ?_ (max_le ?_ ?_)
  · obtain ⟨t, ht₁, ht₂, ht⟩ := exists_lcsLength (a :: l₁) (b :: l₂)
    rw [← ht]
    rcases List.sublist_cons_iff.mp ht₁ with ht₁ | ⟨r, rfl, hr⟩
    · exact le_max_of_le_left (length_le_lcsLength ht₁ ht₂)
    · -- `t` starts with `a`, which cannot be `b`, so `t` lies in `l₂`
      rcases List.sublist_cons_iff.mp ht₂ with ht₂ | ⟨r', hr', -⟩
      · exact le_max_of_le_right (length_le_lcsLength ((hr.cons_cons a)) ht₂)
      · exact absurd (List.cons.inj hr').1 h
  · exact le_lcsLength_cons a _ _
  · rw [lcsLength_comm, lcsLength_comm (a :: l₁)]
    exact le_lcsLength_cons b _ _

/-- `lcsLength` read through `reverse`, with a last element moved to the front. -/
theorem lcsLength_append_singleton (l₁ l₂ : List α) :
    lcsLength (l₁ ++ [a]) (l₂ ++ [b]) = lcsLength (a :: l₁.reverse) (b :: l₂.reverse) := by
  rw [← lcsLength_reverse]
  simp

/-- Equal last elements are matched. -/
theorem lcsLength_append_singleton_self (a : α) (l₁ l₂ : List α) :
    lcsLength (l₁ ++ [a]) (l₂ ++ [a]) = lcsLength l₁ l₂ + 1 := by
  rw [lcsLength_append_singleton, lcsLength_cons_cons_self, lcsLength_reverse]

/-- Different last elements: one of them is left out. -/
theorem lcsLength_append_singleton_of_ne (h : a ≠ b) (l₁ l₂ : List α) :
    lcsLength (l₁ ++ [a]) (l₂ ++ [b]) =
      max (lcsLength l₁ (l₂ ++ [b])) (lcsLength (l₁ ++ [a]) l₂) := by
  have e₁ : lcsLength l₁ (l₂ ++ [b]) = lcsLength l₁.reverse (b :: l₂.reverse) := by
    rw [← lcsLength_reverse]
    simp
  have e₂ : lcsLength (l₁ ++ [a]) l₂ = lcsLength (a :: l₁.reverse) l₂.reverse := by
    rw [← lcsLength_reverse]
    simp
  rw [lcsLength_append_singleton, lcsLength_cons_cons_of_ne h, e₁, e₂]

/-- One more last element adds at most one. -/
theorem lcsLength_append_singleton_le (a : α) (l₁ l₂ : List α) :
    lcsLength (l₁ ++ [a]) l₂ ≤ lcsLength l₁ l₂ + 1 := by
  have h := lcsLength_cons_le a l₁.reverse l₂.reverse
  rw [lcsLength_reverse] at h
  rw [← lcsLength_reverse]
  simpa using h

theorem le_lcsLength_append_singleton (a : α) (l₁ l₂ : List α) :
    lcsLength l₁ l₂ ≤ lcsLength (l₁ ++ [a]) l₂ := by
  have h := le_lcsLength_cons a l₁.reverse l₂.reverse
  rw [lcsLength_reverse] at h
  rw [← lcsLength_reverse (l₁ ++ [a])]
  simpa using h

/-- A shared prefix is part of every longest common subsequence. -/
theorem lcsLength_append_left (p l₁ l₂ : List α) :
    lcsLength (p ++ l₁) (p ++ l₂) = p.length + lcsLength l₁ l₂ := by
  induction p with
  | nil => simp
  | cons a p ih =>
    rw [List.cons_append, List.cons_append, lcsLength_cons_cons_self, ih, List.length_cons]
    omega

/-- So is a shared suffix. -/
theorem lcsLength_append_right (l₁ l₂ q : List α) :
    lcsLength (l₁ ++ q) (l₂ ++ q) = lcsLength l₁ l₂ + q.length := by
  rw [← lcsLength_reverse, List.reverse_append, List.reverse_append, lcsLength_append_left,
    lcsLength_reverse, List.length_reverse]
  omega

/-! ## The edit-distance table -/

/-- A table `D` with `D 0 j = j`, `D i 0 = i` and the insert/delete recurrence on the last
elements of the prefixes holds, at `(i, j)`, the fewest insertions and deletions that turn the
first `i` elements of `A` into the first `j` of `B`: `i + j - 2 * lcsLength`. -/
theorem eq_lcsLength_of_recurrence (A B : List α) (D : Nat → Nat → Nat)
    (hcol : ∀ i ≤ A.length, D i 0 = i) (hrow : ∀ j ≤ B.length, D 0 j = j)
    (hstep : ∀ i j (hi : i < A.length) (hj : j < B.length),
      D (i + 1) (j + 1) = if A[i] = B[j] then D i j else min (D i (j + 1)) (D (i + 1) j) + 1) :
    ∀ i ≤ A.length, ∀ j ≤ B.length, D i j = i + j - 2 * lcsLength (A.take i) (B.take j) := by
  intro i
  induction i with
  | zero => intro _ j hj; simp [hrow j hj]
  | succ i ihi =>
    intro hi j
    induction j with
    | zero => intro _; simp [hcol (i + 1) hi]
    | succ j ihj =>
      intro hj
      have hA : A.take (i + 1) = A.take i ++ [A[i]] := List.take_succ_eq_append_getElem (by omega)
      have hB : B.take (j + 1) = B.take j ++ [B[j]] := List.take_succ_eq_append_getElem (by omega)
      have hLi := lcsLength_le_left (A.take i) (B.take j)
      have hLj := lcsLength_le_right (A.take i) (B.take j)
      have hlenA : (A.take i).length = i := List.length_take_of_le (by omega)
      have hlenB : (B.take j).length = j := List.length_take_of_le (by omega)
      rw [hstep i j (by omega) (by omega), hA, hB]
      by_cases heq : A[i] = B[j]
      · rw [if_pos heq, heq, lcsLength_append_singleton_self, ihi (by omega) j (by omega)]
        omega
      · rw [if_neg heq, lcsLength_append_singleton_of_ne heq, ihi (by omega) (j + 1) hj,
          ihj (by omega), hA, hB]
        -- both candidates are bounded by both prefixes, so no subtraction truncates
        have h₁ := lcsLength_le_left (A.take i) (B.take j ++ [B[j]])
        have h₂ := lcsLength_le_right (A.take i) (B.take j ++ [B[j]])
        have h₃ := lcsLength_le_left (A.take i ++ [A[i]]) (B.take j)
        have h₄ := lcsLength_le_right (A.take i ++ [A[i]]) (B.take j)
        simp only [List.length_append, List.length_singleton, hlenA, hlenB] at h₁ h₂ h₃ h₄
        omega

end Noms.Lib
