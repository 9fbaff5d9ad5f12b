import Mathlib.Logic.Function.Iterate

/-!
# A `for` loop with a test and a body, run on fuel

`loopWhile test body fuel s` runs `for test(s) { s = body(s) }` from `s`, testing at most
`fuel` times, and is `none` when the fuel runs out with the test still true. The loop leaves at
the `j`-th iterate of the body, the first at which the test fails; more than `n` tests are
enough whenever the test fails at the `n`-th iterate (`loopWhile_of_test_false`). A loop whose
test holds at every iterate never leaves, whatever the fuel (`loopWhile_eq_none`).
-/

namespace Noms.Lib

variable {α : Type} (test : α → Bool) (body : α → α)

/-- `for test(s) { s = body(s) }`, with at most `fuel` tests. -/
def loopWhile : Nat → α → Option α
  | 0, _ => none
  | fuel + 1, s => if test s then loopWhile fuel (body s) else some s

/-- The loop leaves at the first iterate where the test fails, once the fuel covers an iterate
where it does. -/
theorem loopWhile_of_test_false {fuel n : Nat} {s : α} (hn : n < fuel)
    (h : test (body^[n] s) = false) :
    ∃ j ≤ n, loopWhile test body fuel s = some (body^[j] s) ∧ test (body^[j] s) = false ∧
      ∀ i < j, test (body^[i] s) = true := by
  induction fuel generalizing n s with
  | zero => omega
  | succ fuel ih =>
    cases hs : test s with
    | false =>
      exact ⟨0, Nat.zero_le _, by simp [loopWhile, hs], hs, fun i hi => absurd hi (Nat.not_lt_zero i)⟩
    | true =>
      -- the test holds at `s`, so the iterate where it fails is a later one
      obtain ⟨m, rfl⟩ : ∃ m, n = m + 1 := Nat.exists_eq_succ_of_ne_zero (by rintro rfl; simp_all)
      obtain ⟨j, hj, hrun, hstop, hmin⟩ := ih (by omega)
        (show test (body^[m] (body s)) = false from h)
      refine ⟨j + 1, by omega, by simp [loopWhile, hs, hrun], hstop, ?_⟩
      rintro (_ | i) hi
      · exact hs
      · exact hmin i (by omega)

variable {test body}

/-- A loop whose test holds at every iterate of its body never leaves. -/
theorem loopWhile_eq_none {s : α} (h : ∀ n, test (body^[n] s) = true) (fuel : Nat) :
    loopWhile test body fuel s = none := by
  induction fuel generalizing s with
  | zero => rfl
  | succ fuel ih =>
    rw [loopWhile, if_pos (show test s = true from h 0)]
    exact ih fun n => h (n + 1)

end Noms.Lib
