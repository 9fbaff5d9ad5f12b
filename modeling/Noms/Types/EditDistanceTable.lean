import Noms.Types.EditDistance
import Noms.Lib.Lcs
import Mathlib

/-!
# The edit-distance matrix and the walk back

`calcEditDistances` fills the matrix row by row; `dist_calcEditDistances_succ` states the
recurrence it satisfies, which is all the rest uses of it. For two sequences `A` and `B` that
`eqFn` compares, that recurrence is the one of `Noms.Lib.eq_lcsLength_of_recurrence`, so the
matrix holds `i + j - 2 * lcsLength` of the prefixes, and neighbouring entries differ by one.

`operationsFromEditDistances` walks the matrix back from the corner. `editsFrom_spec` says what
the walk produces: read forwards, an edit `Script` that turns the first `i` elements of `A` into
the first `j` of `B` (an `UNCHANGED` step only where the elements are equal), whose `cost` (two
for `UPDATED`, one for `INSERTED` and `REMOVED`) is the matrix entry it started from.
-/

namespace Noms.Types

open Noms.Lib

theorem uint64Min_eq (a b : Nat) : uint64Min a b = min a b := by
  unfold uint64Min
  split <;> omega

theorem uint64Min3_eq (a b c : Nat) : uint64Min3 a b c = min (min a b) c := by
  unfold uint64Min3
  split_ifs <;> omega

/-! ## The matrix -/

section Matrix

variable (eq : Nat → Bool)

theorem length_rowFrom : ∀ (j w : Nat) (north : List Nat),
    (rowFrom eq j w north).length = north.length - 1
  | j, w, _ :: n :: rest => by
    simp only [rowFrom, List.length_cons, length_rowFrom (j + 1) _ (n :: rest)]
    omega
  | _, _, [] => rfl
  | _, _, [_] => rfl

/-- Entry `k + 1` of a row, counting the null column, from the row above and entry `k`. -/
theorem rowFrom_getD : ∀ (north : List Nat) (j w k : Nat), k + 1 < north.length →
    (w :: rowFrom eq j w north).getD (k + 1) 0 =
      if eq (j + k) then north.getD k 0
      else min (north.getD (k + 1) 0) ((w :: rowFrom eq j w north).getD k 0) + 1
  | nw :: n :: rest, j, w, 0, _ => by
    simp only [rowFrom, List.getD_cons_succ, List.getD_cons_zero, Nat.add_zero, uint64Min_eq,
      Nat.add_min_add_right]
  | nw :: n :: rest, j, w, k + 1, hk => by
    have ih := rowFrom_getD (n :: rest) (j + 1)
      (if eq j then nw else uint64Min (n + 1) (w + 1)) k (by simp at hk ⊢; omega)
    simp only [rowFrom, List.getD_cons_succ] at ih ⊢
    rw [ih, show j + 1 + k = j + (k + 1) by omega]
  | [], _, _, _, hk => absurd hk (by simp)
  | [_], _, _, _, hk => absurd hk (by simp)

variable (eqFn : Nat → Nat → Bool) (ps cs cl : Nat)

theorem length_distanceRows (i : Nat) : (distanceRows eqFn ps cs cl i).length = i + 1 := by
  induction i with
  | zero => rfl
  | succ i ih => simp [distanceRows, ih]

/-- Row `i` of the matrix. -/
def matrixRow (i : Nat) : List Nat := (distanceRows eqFn ps cs cl i).headD []

theorem getD_reverse_distanceRows (i : Nat) : ∀ i' ≤ i,
    (distanceRows eqFn ps cs cl i).reverse.getD i' [] = matrixRow eqFn ps cs cl i' := by
  induction i with
  | zero => intro i' hi; simp [Nat.le_zero.mp hi, matrixRow, distanceRows]
  | succ i ih =>
    intro i' hi
    simp only [distanceRows, List.reverse_cons]
    rcases Nat.lt_or_ge i' (i + 1) with hlt | hge
    · rw [List.getD_append _ _ _ _ (by simp [length_distanceRows]; omega), ih i' (by omega)]
    · have hi' : i' = i + 1 := by omega
      subst hi'
      rw [List.getD_append_right _ _ _ _ (by simp [length_distanceRows])]
      simp [length_distanceRows, matrixRow, distanceRows]

theorem length_matrixRow (i : Nat) : (matrixRow eqFn ps cs cl i).length = cl + 1 := by
  induction i with
  | zero => simp [matrixRow, distanceRows]
  | succ i ih =>
    simp only [matrixRow, distanceRows, List.headD_cons, distanceRow, List.length_cons,
      length_rowFrom] at ih ⊢
    omega

theorem matrixRow_succ (i : Nat) :
    matrixRow eqFn ps cs cl (i + 1) = distanceRow eqFn ps cs (i + 1) (matrixRow eqFn ps cs cl i) :=
  rfl

variable {eqFn ps cs cl} {pl : Nat}

theorem dist_calcEditDistances (i j : Nat) (hi : i ≤ pl) :
    dist (calcEditDistances eqFn ps pl cs cl) i j = (matrixRow eqFn ps cs cl i).getD j 0 := by
  rw [dist, calcEditDistances, getD_reverse_distanceRows _ _ _ _ _ _ hi]

theorem dist_calcEditDistances_zero_left (j : Nat) (hj : j ≤ cl) :
    dist (calcEditDistances eqFn ps pl cs cl) 0 j = j := by
  rw [dist_calcEditDistances _ _ (Nat.zero_le _)]
  simp [matrixRow, distanceRows, List.getD_eq_getElem?_getD, List.getElem?_range (by omega : j < cl + 1)]

theorem dist_calcEditDistances_zero_right (i : Nat) (hi : i ≤ pl) :
    dist (calcEditDistances eqFn ps pl cs cl) i 0 = i := by
  rw [dist_calcEditDistances _ _ hi]
  cases i with
  | zero => simp [matrixRow, distanceRows]
  | succ i => rw [matrixRow_succ, distanceRow, List.getD_cons_zero]

/-- The recurrence of `calcEditDistances`: a match copies the diagonal, anything else is one more
than the smaller of the entries above and to the left. -/
theorem dist_calcEditDistances_succ (i j : Nat) (hi : i < pl) (hj : j < cl) :
    dist (calcEditDistances eqFn ps pl cs cl) (i + 1) (j + 1) =
      if eqFn (ps + i) (cs + j) then dist (calcEditDistances eqFn ps pl cs cl) i j
      else min (dist (calcEditDistances eqFn ps pl cs cl) i (j + 1))
        (dist (calcEditDistances eqFn ps pl cs cl) (i + 1) j) + 1 := by
  simp only [dist_calcEditDistances _ _ (Nat.le_of_lt hi), dist_calcEditDistances _ _ hi]
  rw [matrixRow_succ, distanceRow, rowFrom_getD _ _ _ _ _ (by rw [length_matrixRow]; omega)]
  simp only [show ps + (i + 1) - 1 = ps + i by omega, show cs + (1 + j) - 1 = cs + j by omega]

theorem length_calcEditDistances :
    (calcEditDistances eqFn ps pl cs cl).length = pl + 1 := by
  simp [calcEditDistances, length_distanceRows]

theorem length_getD_calcEditDistances_zero :
    ((calcEditDistances eqFn ps pl cs cl).getD 0 []).length = cl + 1 := by
  rw [calcEditDistances, getD_reverse_distanceRows _ _ _ _ _ _ (Nat.zero_le _), length_matrixRow]

end Matrix

/-! ## Edit scripts -/

/-- `ops`, read forwards, turn `A` into `B`: an `UNCHANGED` step keeps an element both have, an
`UPDATED` step replaces one, `INSERTED` adds one of `B`'s and `REMOVED` drops one of `A`'s. The
relation grows at the end, as `operationsFromEditDistances` finds the steps. -/
inductive Script {α : Type} : List EditOp → List α → List α → Prop
  | nil : Script [] [] []
  | unchanged {ops A B} (a : α) : Script ops A B → Script (ops ++ [.UNCHANGED]) (A ++ [a]) (B ++ [a])
  | updated {ops A B} (a b : α) : Script ops A B → Script (ops ++ [.UPDATED]) (A ++ [a]) (B ++ [b])
  | inserted {ops A B} (b : α) : Script ops A B → Script (ops ++ [.INSERTED]) A (B ++ [b])
  | removed {ops A B} (a : α) : Script ops A B → Script (ops ++ [.REMOVED]) (A ++ [a]) B

/-- What a step adds to `SpRemoved + SpAdded`. -/
def EditOp.cost : EditOp → Nat
  | .UNCHANGED => 0
  | .UPDATED => 2
  | .INSERTED => 1
  | .REMOVED => 1

def cost (ops : List EditOp) : Nat := (ops.map EditOp.cost).sum

@[simp] theorem cost_nil : cost [] = 0 := rfl

@[simp] theorem cost_cons (o : EditOp) (ops : List EditOp) : cost (o :: ops) = o.cost + cost ops := by
  simp [cost]

@[simp] theorem cost_append (ops ops' : List EditOp) : cost (ops ++ ops') = cost ops + cost ops' := by
  simp [cost]

@[simp] theorem cost_reverse (ops : List EditOp) : cost ops.reverse = cost ops := by
  simp [cost, List.sum_reverse]

/-! ## The walk back -/

section Walk

variable {α : Type} [DecidableEq α] (A B : List α) {d : List (List Nat)}
  (hcol : ∀ i ≤ A.length, dist d i 0 = i) (hrow : ∀ j ≤ B.length, dist d 0 j = j)
  (hstep : ∀ i j (hi : i < A.length) (hj : j < B.length), dist d (i + 1) (j + 1) =
    if A[i] = B[j] then dist d i j else min (dist d i (j + 1)) (dist d (i + 1) j) + 1)

include hcol hrow hstep

/-- Moving one column changes an entry by exactly one. -/
theorem dist_succ_right (i j : Nat) (hi : i ≤ A.length) (hj : j < B.length) :
    dist d i (j + 1) = dist d i j + 1 ∨ dist d i j = dist d i (j + 1) + 1 := by
  have hD := eq_lcsLength_of_recurrence A B (dist d) hcol hrow hstep
  rw [hD i hi j (by omega), hD i hi (j + 1) hj, List.take_succ_eq_append_getElem hj]
  have h₁ : lcsLength (A.take i) (B.take j) ≤ lcsLength (A.take i) (B.take j ++ [B[j]]) := by
    rw [lcsLength_comm, lcsLength_comm (A.take i)]
    exact le_lcsLength_append_singleton _ _ _
  have h₂ : lcsLength (A.take i) (B.take j ++ [B[j]]) ≤ lcsLength (A.take i) (B.take j) + 1 := by
    rw [lcsLength_comm, lcsLength_comm (A.take i)]
    exact lcsLength_append_singleton_le _ _ _
  have h₃ := lcsLength_le_left (A.take i) (B.take j)
  have h₄ := lcsLength_le_right (A.take i) (B.take j)
  have h₅ := lcsLength_le_left (A.take i) (B.take j ++ [B[j]])
  have h₆ := lcsLength_le_right (A.take i) (B.take j ++ [B[j]])
  simp only [List.length_append, List.length_singleton, List.length_take_of_le hi,
    List.length_take_of_le (Nat.le_of_lt hj)] at h₃ h₄ h₅ h₆
  omega

/-- Moving one row changes an entry by exactly one. -/
theorem dist_succ_down (i j : Nat) (hi : i < A.length) (hj : j ≤ B.length) :
    dist d (i + 1) j = dist d i j + 1 ∨ dist d i j = dist d (i + 1) j + 1 := by
  have hD := eq_lcsLength_of_recurrence A B (dist d) hcol hrow hstep
  rw [hD i (by omega) j hj, hD (i + 1) hi j hj, List.take_succ_eq_append_getElem hi]
  have h₁ := le_lcsLength_append_singleton A[i] (A.take i) (B.take j)
  have h₂ := lcsLength_append_singleton_le A[i] (A.take i) (B.take j)
  have h₃ := lcsLength_le_left (A.take i) (B.take j)
  have h₄ := lcsLength_le_right (A.take i) (B.take j)
  have h₅ := lcsLength_le_left (A.take i ++ [A[i]]) (B.take j)
  have h₆ := lcsLength_le_right (A.take i ++ [A[i]]) (B.take j)
  simp only [List.length_append, List.length_singleton, List.length_take_of_le hj,
    List.length_take_of_le (Nat.le_of_lt hi)] at h₃ h₄ h₅ h₆
  omega

/-- The walk from `(i, j)`, read forwards, is a script from the first `i` elements of `A` to the
first `j` of `B` that costs the entry it started from. -/
theorem editsFrom_spec : ∀ fuel i j current, i + j ≤ fuel → i ≤ A.length → j ≤ B.length →
    (i = 0 ∨ j = 0 ∨ current = dist d i j) →
    Script (editsFrom d fuel i j current).reverse (A.take i) (B.take j) ∧
      cost (editsFrom d fuel i j current) = dist d i j := by
  intro fuel
  induction fuel with
  | zero =>
    intro i j current hfuel _ _ _
    obtain ⟨rfl, rfl⟩ : i = 0 ∧ j = 0 := by omega
    exact ⟨by simpa [editsFrom] using Script.nil, by simp [editsFrom, hrow 0 (Nat.zero_le _)]⟩
  | succ fuel ih =>
    intro i j current hfuel hi hj hcur
    unfold editsFrom
    by_cases h00 : i = 0 ∧ j = 0
    · obtain ⟨rfl, rfl⟩ := h00
      exact ⟨by simpa using Script.nil, by simp [hrow 0 (Nat.zero_le _)]⟩
    rw [if_neg h00]
    by_cases hi0 : i = 0
    · -- only insertions are left
      subst hi0
      obtain ⟨j, rfl⟩ : ∃ j', j = j' + 1 := ⟨j - 1, by omega⟩
      obtain ⟨hs, hc⟩ := ih 0 j current (by omega) hi (by omega) (.inl rfl)
      rw [if_pos rfl]
      refine ⟨?_, ?_⟩
      · rw [List.reverse_cons, List.take_succ_eq_append_getElem (by omega)]
        exact hs.inserted _
      · simp [hc, hrow j (by omega), hrow (j + 1) hj, EditOp.cost]
        omega
    rw [if_neg hi0]
    by_cases hj0 : j = 0
    · -- only removals are left
      subst hj0
      obtain ⟨i, rfl⟩ : ∃ i', i = i' + 1 := ⟨i - 1, by omega⟩
      obtain ⟨hs, hc⟩ := ih i 0 current (by omega) (by omega) hj (.inr (.inl rfl))
      rw [if_pos rfl]
      refine ⟨?_, ?_⟩
      · rw [List.reverse_cons, List.take_succ_eq_append_getElem (by omega)]
        exact hs.removed _
      · simp [hc, hcol i (by omega), hcol (i + 1) hi, EditOp.cost]
        omega
    rw [if_neg hj0]
    obtain ⟨i, rfl⟩ : ∃ i', i = i' + 1 := ⟨i - 1, by omega⟩
    obtain ⟨j, rfl⟩ : ∃ j', j = j' + 1 := ⟨j - 1, by omega⟩
    have hcur : current = dist d (i + 1) (j + 1) := by omega
    simp only [Nat.add_sub_cancel, uint64Min3_eq]
    have hA : A.take (i + 1) = A.take i ++ [A[i]] := List.take_succ_eq_append_getElem (by omega)
    have hB : B.take (j + 1) = B.take j ++ [B[j]] := List.take_succ_eq_append_getElem (by omega)
    have hrec := hstep i j (by omega) (by omega)
    have hw := dist_succ_right A B hcol hrow hstep i j (by omega) (by omega)
    have hn := dist_succ_down A B hcol hrow hstep i j (by omega) (by omega)
    -- the step is decided by which neighbour is smallest, diagonal first
    split_ifs with hnw hunch hwest
    · -- `UNCHANGED`: only a match keeps the distance along the diagonal
      have heq : A[i] = B[j] := by
        by_contra hne
        rw [if_neg hne] at hrec
        omega
      obtain ⟨hs, hc⟩ := ih i j current (by omega) (by omega) (by omega) (.inr (.inr (by omega)))
      refine ⟨?_, ?_⟩
      · rw [List.reverse_cons, hA, hB, heq]
        exact hs.unchanged _
      · simp [hc, EditOp.cost]
        omega
    · -- `UPDATED`: a mismatch two above the diagonal
      obtain ⟨hs, hc⟩ := ih i j _ (by omega) (by omega) (by omega) (.inr (.inr rfl))
      have hne : ¬A[i] = B[j] := fun heq => by rw [if_pos heq] at hrec; omega
      rw [if_neg hne] at hrec
      refine ⟨?_, ?_⟩
      · rw [List.reverse_cons, hA, hB]
        exact hs.updated _ _
      · simp [hc, EditOp.cost]
        omega
    · -- `REMOVED`: the entry above is smaller
      obtain ⟨hs, hc⟩ := ih i (j + 1) _ (by omega) (by omega) (by omega) (.inr (.inr rfl))
      refine ⟨?_, ?_⟩
      · rw [List.reverse_cons, hA]
        exact hs.removed _
      · simp only [cost_cons, hc, EditOp.cost]
        split_ifs at hrec <;> omega
    · -- `INSERTED`: the entry to the left is smaller
      obtain ⟨hs, hc⟩ := ih (i + 1) j _ (by omega) (by omega) (by omega) (.inr (.inr rfl))
      refine ⟨?_, ?_⟩
      · rw [List.reverse_cons, hB]
        exact hs.inserted _
      · simp only [cost_cons, hc, EditOp.cost]
        split_ifs at hrec <;> omega

end Walk

end Noms.Types
