import Mathlib.Order.Basic

/-!
# The halving search for the first index where a monotone predicate holds

`search f i j` is the loop of Go's `sort.Search` (and of every hand-inlined copy of it): keep
`[i, j)` as the window in which the answer lies, test the midpoint `h = i + (j - i) / 2`, and
continue on `[h + 1, j)` when `f h` fails and on `[i, h)` when it holds. For a predicate that is
monotone on `[0, n)` the result from `[0, n)` is the least index where `f` holds, or `n`
(`search_spec`): everything before it fails, and it holds there when it is in range.
-/

namespace Noms.Lib

/-- The halving loop of `sort.Search` over the window `[i, j)`. -/
def search (f : Nat → Bool) (i j : Nat) : Nat :=
  if i < j then
    let h := i + (j - i) / 2
    if f h then search f i h else search f (h + 1) j
  else i
termination_by j - i

/-- `f` is monotone on `[0, n)`: once it holds it keeps holding. -/
def MonotoneBelow (f : Nat → Bool) (n : Nat) : Prop :=
  ∀ a b, a ≤ b → b < n → f a = true → f b = true

theorem search_le (f : Nat → Bool) (i j : Nat) (hij : i ≤ j) : search f i j ≤ j := by
  induction i, j using search.induct f with
  | case1 i j hlt h hf ih =>
    rw [search, if_pos hlt, if_pos hf]
    exact Nat.le_trans (ih (by omega)) (by omega)
  | case2 i j hlt h hf ih =>
    rw [search, if_pos hlt, if_neg hf]
    exact ih (by omega)
  | case3 i j hge =>
    rw [search, if_neg hge]
    exact hij

/-- The loop keeps its two invariants: every index below `i` fails, and `f` holds at `j` when
`j` is in range. The result is where they meet. -/
theorem search_inv (f : Nat → Bool) {n : Nat} (hmono : MonotoneBelow f n) (i j : Nat)
    (hij : i ≤ j) (hjn : j ≤ n) (hlo : ∀ k < i, f k = false) (hhi : j < n → f j = true) :
    (∀ k < search f i j, f k = false) ∧ (search f i j < n → f (search f i j) = true) := by
  induction i, j using search.induct f with
  | case1 i j hlt h hf ih =>
    rw [search, if_pos hlt, if_pos hf]
    exact ih (by omega) (by omega) hlo (fun _ => hf)
  | case2 i j hlt h hf ih =>
    rw [search, if_pos hlt, if_neg hf]
    refine ih (by omega) hjn ?_ hhi
    intro k hk
    rcases Nat.lt_or_ge k i with hki | hki
    · exact hlo k hki
    · -- below the failing midpoint, monotonicity forbids `f` to hold
      cases hfk : f k
      · rfl
      · exact absurd (hmono k _ (by omega) (by omega) hfk) hf
  | case3 i j hge =>
    rw [search, if_neg hge]
    have hji : j = i := by omega
    subst hji
    exact ⟨hlo, hhi⟩

/-- The search from `[0, n)` finds the least index where a monotone `f` holds, or `n`. -/
theorem search_spec (f : Nat → Bool) {n : Nat} (hmono : MonotoneBelow f n) :
    search f 0 n ≤ n ∧ (∀ k < search f 0 n, f k = false) ∧
      (search f 0 n < n → f (search f 0 n) = true) :=
  ⟨search_le f 0 n (Nat.zero_le n),
    search_inv f hmono 0 n (Nat.zero_le n) (Nat.le_refl n) (fun _ hk => absurd hk (Nat.not_lt_zero _))
      (fun h => absurd h (Nat.lt_irrefl n))⟩

/-- The search result is characterised by its two properties. -/
theorem search_eq_of {f : Nat → Bool} {n r : Nat} (hmono : MonotoneBelow f n) (hr : r ≤ n)
    (hlt : ∀ k < r, f k = false) (hat : r < n → f r = true) : search f 0 n = r := by
  obtain ⟨hle, hbelow, hon⟩ := search_spec f hmono
  rcases Nat.lt_trichotomy (search f 0 n) r with h | h | h
  · have := hlt _ h
    have := hon (by omega)
    simp_all
  · exact h
  · have := hbelow r h
    have := hat (by omega)
    simp_all

example : search (fun k => decide (3 ≤ [1, 2, 3, 3, 5].getD k 0)) 0 5 = 2 := by simp [search]

/-! ## Searching sorted keys -/

theorem getD_le_of_sorted {keys : List Nat} (hs : keys.Pairwise (· ≤ ·)) {k j : Nat} (hkj : k ≤ j)
    (hj : j < keys.length) : keys.getD k 0 ≤ keys.getD j 0 := by
  have hk : k < keys.length := by omega
  rw [← List.getElem_eq_getD (h := hk) 0, ← List.getElem_eq_getD (h := hj) 0]
  rcases Nat.lt_or_eq_of_le hkj with hlt | rfl
  · exact List.pairwise_iff_getElem.mp hs k j hk hj hlt
  · exact Nat.le_refl _

/-- On ascending keys, "not below `p`" is monotone. -/
theorem monotoneBelow_of_sorted {keys : List Nat} (hs : keys.Pairwise (· ≤ ·)) (p : Nat) :
    MonotoneBelow (fun k => !decide (keys.getD k 0 < p)) keys.length := by
  intro a b hab hb ha
  have hle := getD_le_of_sorted hs hab hb
  simp only [Bool.not_eq_eq_eq_not, Bool.not_true, decide_eq_false_iff_not, Nat.not_lt] at ha ⊢
  omega

/-- On ascending keys the search finds the first key that is not below `p`: every key before
it is below `p`, every key from it on is not. -/
theorem search_lowerBound {keys : List Nat} (hs : keys.Pairwise (· ≤ ·)) (p : Nat) :
    let r := search (fun k => !decide (keys.getD k 0 < p)) 0 keys.length
    r ≤ keys.length ∧ (∀ k < r, keys.getD k 0 < p) ∧
      ∀ k, r ≤ k → k < keys.length → p ≤ keys.getD k 0 := by
  intro r
  have hmono := monotoneBelow_of_sorted hs p
  obtain ⟨hle, hbelow, hat⟩ := search_spec _ hmono
  refine ⟨hle, fun k hk => ?_, fun k hrk hk => ?_⟩
  · simpa using hbelow k hk
  · have hk' := hmono r k hrk hk (hat (by omega))
    simpa using hk'

end Noms.Lib
