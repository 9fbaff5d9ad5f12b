import Mathlib.Logic.Function.Basic

/-!
# Content-addressed stores

A content-addressed store keeps each item under its own key, `key x`: a partial map
`κ → Option α` that `put` writes one item into and `putAll` a list of items, in order. `Sub` is
inclusion of partial maps. When `key` is injective, a store that keeps every item under its key
(`Addressed`) is only extended by a `put`, never overwritten (`Addressed.sub_put`), and after
`putAll` every item of the list is found under its key (`Addressed.putAll_key`).
-/

namespace Noms.Lib.ContentStore

variable {κ α : Type}

/-- Everything `m` holds, `m'` holds under the same key. -/
def Sub (m m' : κ → Option α) : Prop := ∀ k x, m k = some x → m' k = some x

theorem Sub.refl (m : κ → Option α) : Sub m m := fun _ _ h => h

theorem Sub.trans {m₁ m₂ m₃ : κ → Option α} (h₁₂ : Sub m₁ m₂) (h₂₃ : Sub m₂ m₃) : Sub m₁ m₃ :=
  fun k x h => h₂₃ k x (h₁₂ k x h)

variable [DecidableEq κ] (key : α → κ)

/-- Write `x` under its key. -/
def put (m : κ → Option α) (x : α) : κ → Option α := Function.update m (key x) (some x)

/-- Write the items of `xs`, first to last. -/
def putAll (m : κ → Option α) (xs : List α) : κ → Option α := xs.foldl (put key) m

/-- Every item is kept under its own key. -/
def Addressed (m : κ → Option α) : Prop := ∀ k x, m k = some x → key x = k

variable {key}

@[simp] theorem put_self (m : κ → Option α) (x : α) : put key m x (key x) = some x := by
  simp [put]

theorem put_of_ne {m : κ → Option α} {x : α} {k : κ} (hk : k ≠ key x) : put key m x k = m k := by
  simp [put, hk]

@[simp] theorem putAll_nil (m : κ → Option α) : putAll key m [] = m := rfl

@[simp] theorem putAll_cons (m : κ → Option α) (x : α) (xs : List α) :
    putAll key m (x :: xs) = putAll key (put key m x) xs := rfl

theorem putAll_append (m : κ → Option α) (xs ys : List α) :
    putAll key m (xs ++ ys) = putAll key (putAll key m xs) ys :=
  List.foldl_append

theorem Sub.put {m m' : κ → Option α} (h : Sub m m') (x : α) :
    Sub (ContentStore.put key m x) (ContentStore.put key m' x) := by
  intro k y hk
  by_cases hkx : k = key x
  · subst hkx
    simpa using hk
  · rw [put_of_ne hkx] at hk ⊢
    exact h k y hk

theorem Sub.putAll {m m' : κ → Option α} (h : Sub m m') (xs : List α) :
    Sub (ContentStore.putAll key m xs) (ContentStore.putAll key m' xs) := by
  induction xs generalizing m m' with
  | nil => exact h
  | cons x xs ih => exact ih (h.put x)

theorem Addressed.put {m : κ → Option α} (h : Addressed key m) (x : α) :
    Addressed key (ContentStore.put key m x) := by
  intro k y hk
  by_cases hkx : k = key x
  · subst hkx
    simp only [put_self, Option.some.injEq] at hk
    rw [hk]
  · rw [put_of_ne hkx] at hk
    exact h k y hk

theorem Addressed.putAll {m : κ → Option α} (h : Addressed key m) (xs : List α) :
    Addressed key (ContentStore.putAll key m xs) := by
  induction xs generalizing m with
  | nil => exact h
  | cons x xs ih => exact ih (h.put x)

section Injective

variable (hinj : Function.Injective key)
include hinj

/-- A `put` into an addressed store only adds: an item already under `key x` is `x` itself. -/
theorem Addressed.sub_put {m : κ → Option α} (h : Addressed key m) (x : α) :
    Sub m (ContentStore.put key m x) := by
  intro k y hk
  by_cases hkx : k = key x
  · subst hkx
    rw [put_self, hinj (h _ y hk)]
  · rw [put_of_ne hkx]
    exact hk

theorem Addressed.sub_putAll {m : κ → Option α} (h : Addressed key m) (xs : List α) :
    Sub m (ContentStore.putAll key m xs) := by
  induction xs generalizing m with
  | nil => exact Sub.refl m
  | cons x xs ih => exact (h.sub_put hinj x).trans (ih (h.put x))

/-- After `putAll`, every item of the list is under its key. -/
theorem Addressed.putAll_key {m : κ → Option α} (h : Addressed key m) {xs : List α} {x : α}
    (hx : x ∈ xs) : ContentStore.putAll key m xs (key x) = some x := by
  induction xs generalizing m with
  | nil => cases hx
  | cons y xs ih =>
    rw [putAll_cons]
    rcases List.mem_cons.mp hx with rfl | hx
    · exact (h.put x).sub_putAll hinj xs _ _ (put_self m x)
    · exact ih (h.put y) hx

end Injective

end Noms.Lib.ContentStore
