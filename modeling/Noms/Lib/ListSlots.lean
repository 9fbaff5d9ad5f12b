import Mathlib

/-!
# A list updated one slot at a time

The program counters of a pool of goroutines are a list, and a step of one goroutine sets its own
slot. These lemmas say what `l.set i w'` keeps of `l` when slot `i` held `w`: the other slots
(`getElem?_set_of_getElem?`), every other element (`mem_set_or`), and a count or a sum that
changes only by the slot (`countP_set_add`, `sum_map_set_add`).
-/

namespace Noms.Lib

variable {α : Type} {l : List α} {i : Nat} {w w' v : α}

theorem getElem?_set_of_getElem? (hi : l[i]? = some w) (j : Nat) :
    (l.set i w')[j]? = if i = j then some w' else l[j]? := by
  obtain ⟨hlt, -⟩ := List.getElem?_eq_some_iff.mp hi
  rw [List.getElem?_set]
  by_cases hij : i = j
  · rw [if_pos hij, if_pos hij, if_pos hlt]
  · rw [if_neg hij, if_neg hij]

theorem mem_set_of_getElem? (hi : l[i]? = some w) : w' ∈ l.set i w' :=
  List.mem_set (List.getElem?_eq_some_iff.mp hi).1 w'

/-- An element of `l` is the one replaced, or stays. -/
theorem mem_set_or (hi : l[i]? = some w) (hv : v ∈ l) : v = w ∨ v ∈ l.set i w' := by
  obtain ⟨j, hj⟩ := List.mem_iff_getElem?.mp hv
  by_cases hij : i = j
  · subst hij
    rw [hi, Option.some.injEq] at hj
    exact .inl hj.symm
  · refine .inr (List.mem_of_getElem? (i := j) ?_)
    rw [getElem?_set_of_getElem? hi j, if_neg hij, hj]

/-- A count over the list changes by the slot only. -/
theorem countP_set_add (p : α → Bool) (w' : α) (hi : l[i]? = some w) :
    (l.set i w').countP p + (if p w then 1 else 0) = l.countP p + (if p w' then 1 else 0) := by
  obtain ⟨hlt, hget⟩ := List.getElem?_eq_some_iff.mp hi
  have hle : (if p l[i] then 1 else 0) ≤ l.countP p := List.boole_getElem_le_countP hlt
  rw [List.countP_set hlt, hget] at *
  omega

/-- A sum over the list changes by the slot only. -/
theorem sum_map_set_add (f : α → Nat) (w' : α) (hi : l[i]? = some w) :
    ((l.set i w').map f).sum + f w = (l.map f).sum + f w' := by
  induction l generalizing i with
  | nil => simp at hi
  | cons a l ih =>
    cases i with
    | zero =>
      rw [List.getElem?_cons_zero, Option.some.injEq] at hi
      subst hi
      simp only [List.set_cons_zero, List.map_cons, List.sum_cons]
      omega
    | succ i =>
      rw [List.getElem?_cons_succ] at hi
      have := ih hi
      simp only [List.set_cons_succ, List.map_cons, List.sum_cons]
      omega

end Noms.Lib
