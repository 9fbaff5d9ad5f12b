import Mathlib.Data.List.Basic

/-!
# Common prefixes and agreeing runs of two lists

`commonPrefixLength xs ys` is the length of the longest common prefix of `xs` and `ys`. A run on
which the two lists agree, ended where one list ends or their items differ, is that length
(`commonPrefixLength_eq`). `Agree l₁ l₂ i j k` says that `l₁` from `i` and `l₂` from `j` agree on
their next `k` items: agreeing runs come from a common infix (`agree_of_infix`), follow one
another (`Agree.append`) and can be entered later (`Agree.drop`).
-/

namespace Noms.Lib

variable {α : Type}

/-- The length of the longest common prefix of two lists. -/
def commonPrefixLength [DecidableEq α] : List α → List α → Nat
  | x :: xs, y :: ys => if x = y then commonPrefixLength xs ys + 1 else 0
  | _, _ => 0

/-- A run on which two lists agree, ended where one of them ends or their items differ, is their
longest common prefix. -/
theorem commonPrefixLength_eq [DecidableEq α] :
    ∀ {xs ys : List α} {k : Nat}, xs.take k = ys.take k → k ≤ xs.length → k ≤ ys.length →
      k = xs.length ∨ k = ys.length ∨ xs[k]? ≠ ys[k]? → commonPrefixLength xs ys = k
  | [], ys, k, _, hk, _, _ => by
    cases ys <;> simp_all [commonPrefixLength]
  | _ :: _, [], k, _, _, hk, _ => by
    simp_all [commonPrefixLength]
  | x :: xs, y :: ys, 0, _, _, _, hstop => by
    have hxy : x ≠ y := by simpa using hstop
    simp [commonPrefixLength, hxy]
  | x :: xs, y :: ys, k + 1, htake, hkx, hky, hstop => by
    simp only [List.take_succ_cons, List.cons.injEq] at htake
    obtain ⟨rfl, htake⟩ := htake
    simp only [List.length_cons, Nat.add_right_cancel_iff, List.getElem?_cons_succ] at hkx hky hstop
    rw [commonPrefixLength, if_pos rfl,
      commonPrefixLength_eq htake (by omega) (by omega) hstop]

/-- `l₁` from `i` and `l₂` from `j` agree on their next `k` items, which both lists have. -/
def Agree (l₁ l₂ : List α) (i j k : Nat) : Prop :=
  i + k ≤ l₁.length ∧ j + k ≤ l₂.length ∧ (l₁.drop i).take k = (l₂.drop j).take k

variable {l₁ l₂ : List α} {i j k m : Nat}

theorem agree_zero (h₁ : i ≤ l₁.length) (h₂ : j ≤ l₂.length) : Agree l₁ l₂ i j 0 :=
  ⟨by omega, by omega, by simp⟩

/-- Two lists agree on a common infix. -/
theorem agree_of_infix {p₁ p₂ x s₁ s₂ : List α} (h₁ : l₁ = p₁ ++ x ++ s₁)
    (h₂ : l₂ = p₂ ++ x ++ s₂) : Agree l₁ l₂ p₁.length p₂.length x.length := by
  subst h₁ h₂
  refine ⟨by simp, by simp, ?_⟩
  simp

/-- A run that follows an agreeing run extends it. -/
theorem Agree.append (h : Agree l₁ l₂ i j k) (h' : Agree l₁ l₂ (i + k) (j + k) m) :
    Agree l₁ l₂ i j (k + m) := by
  obtain ⟨hi, hj, htake⟩ := h
  obtain ⟨hi', hj', htake'⟩ := h'
  refine ⟨by omega, by omega, ?_⟩
  rw [List.take_add, List.take_add, htake, List.drop_drop, List.drop_drop, htake']

/-- An agreeing run entered `m` items later. -/
theorem Agree.drop (h : Agree l₁ l₂ i j k) (hx : m ≤ k) : Agree l₁ l₂ (i + m) (j + m) (k - m) := by
  obtain ⟨hi, hj, htake⟩ := h
  refine ⟨by omega, by omega, ?_⟩
  have := congrArg (List.drop m) htake
  rwa [List.drop_take, List.drop_take, List.drop_drop, List.drop_drop] at this

/-- An agreeing run from `i` and `j`, ended where a list ends or the items differ, is the longest
common prefix of what follows `i` and `j`. -/
theorem commonPrefixLength_drop_eq [DecidableEq α] (h : Agree l₁ l₂ i j k)
    (hstop : i + k = l₁.length ∨ j + k = l₂.length ∨ l₁[i + k]? ≠ l₂[j + k]?) :
    commonPrefixLength (l₁.drop i) (l₂.drop j) = k := by
  obtain ⟨hi, hj, htake⟩ := h
  refine commonPrefixLength_eq htake (by simp; omega) (by simp; omega) ?_
  simp only [List.length_drop, List.getElem?_drop]
  rcases hstop with hend | hend | hne
  · exact .inl (by omega)
  · exact .inr (.inl (by omega))
  · exact .inr (.inr hne)

end Noms.Lib
