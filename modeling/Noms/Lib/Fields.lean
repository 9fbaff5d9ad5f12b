import Mathlib.Data.List.Basic
import Mathlib.Tactic.Ring

/-!
# Reading fixed-width fields out of a byte string

A section of a binary format that stores `n` fields of `k` bytes each is the concatenation of
`n` blocks of length `k`; field `i` starts at byte `i * k` (`drop_flatten_uniform`). A loop that
reads field `i` for every `i < n`, failing as a whole if one read fails, is `mapM` over
`List.range n`, and it succeeds with the list of the values when every read does
(`mapM_range_eq_some`); a loop that succeeds returns what each step must give
(`eq_map_of_mapM_eq_some`); it succeeds when every step does (`exists_mapM_eq_some`), and one
failing step fails it (`mapM_eq_none_of_mem`). Slices of a concatenation are taken with
`drop_append_take`.
-/

namespace Noms.Lib

theorem drop_flatten_uniform {α : Type} {k : Nat} {bs : List (List α)}
    (hk : ∀ b ∈ bs, b.length = k) (i : Nat) :
    bs.flatten.drop (i * k) = (bs.drop i).flatten := by
  induction bs generalizing i with
  | nil => simp
  | cons b bs ih =>
    cases i with
    | zero => simp
    | succ i =>
      have hb : b.length = k := hk b List.mem_cons_self
      have hdrop : (b ++ bs.flatten).drop k = bs.flatten := by
        rw [← hb]
        exact List.drop_left
      rw [List.flatten_cons, Nat.succ_mul, Nat.add_comm, ← List.drop_drop, hdrop,
        ih (fun x hx => hk x (List.mem_cons_of_mem _ hx))]
      rfl

theorem length_flatten_uniform {α : Type} {k : Nat} {bs : List (List α)}
    (hk : ∀ b ∈ bs, b.length = k) : bs.flatten.length = bs.length * k := by
  induction bs with
  | nil => simp
  | cons b bs ih =>
    rw [List.flatten_cons, List.length_append, hk b List.mem_cons_self,
      ih (fun x hx => hk x (List.mem_cons_of_mem _ hx)), List.length_cons]
    ring

theorem mapM_eq_some_of {α β : Type} (xs : List α) (f : α → Option β) (g : α → β)
    (h : ∀ x ∈ xs, f x = some (g x)) : xs.mapM f = some (xs.map g) := by
  induction xs with
  | nil => rfl
  | cons x xs ih =>
    rw [List.mapM_cons, h x List.mem_cons_self, ih (fun y hy => h y (List.mem_cons_of_mem _ hy))]
    rfl

/-- A loop that succeeds returns, for each element, the value the element's step must give. -/
theorem eq_map_of_mapM_eq_some {α β : Type} {f : α → Option β} {g : α → β} :
    ∀ {xs : List α} {r : List β}, (∀ x ∈ xs, ∀ b, f x = some b → b = g x) →
      xs.mapM f = some r → r = xs.map g
  | [], r, _, h => by
    simp only [List.mapM_nil, Option.pure_def, Option.some.injEq] at h
    exact h.symm
  | x :: xs, r, hg, h => by
    simp only [List.mapM_cons, Option.pure_def, Option.bind_eq_bind,
      Option.bind_eq_some_iff, Option.some.injEq] at h
    obtain ⟨b, hb, rs, hrs, rfl⟩ := h
    rw [List.map_cons, hg x List.mem_cons_self b hb,
      eq_map_of_mapM_eq_some (fun y hy => hg y (List.mem_cons_of_mem _ hy)) hrs]

/-- A loop whose every step succeeds succeeds. -/
theorem exists_mapM_eq_some {α β : Type} {f : α → Option β} :
    ∀ {xs : List α}, (∀ x ∈ xs, ∃ b, f x = some b) → ∃ r, xs.mapM f = some r
  | [], _ => ⟨[], rfl⟩
  | x :: xs, h => by
    obtain ⟨b, hb⟩ := h x List.mem_cons_self
    obtain ⟨r, hr⟩ := exists_mapM_eq_some (fun y hy => h y (List.mem_cons_of_mem _ hy))
    exact ⟨b :: r, by rw [List.mapM_cons, hb, hr]; rfl⟩

/-- One failing step fails the loop. -/
theorem mapM_eq_none_of_mem {α β : Type} {f : α → Option β} :
    ∀ {xs : List α} {x : α}, x ∈ xs → f x = none → xs.mapM f = none
  | y :: xs, x, hx, hf => by
    rw [List.mapM_cons]
    rcases List.mem_cons.mp hx with rfl | hx
    · simp [hf]
    · cases f y with
      | none => rfl
      | some b => simp [mapM_eq_none_of_mem hx hf]

theorem mapM_range_eq_some {β : Type} (n : Nat) (f : Nat → Option β) (g : Nat → β)
    (h : ∀ i < n, f i = some (g i)) : (List.range n).mapM f = some ((List.range n).map g) :=
  mapM_eq_some_of _ f g (fun i hi => h i (List.mem_range.mp hi))

theorem getD_range_map {α : Type} {l : List α} {d : α} :
    (List.range l.length).map (fun i => l.getD i d) = l := by
  apply List.ext_getElem (by simp)
  intro i h₁ h₂
  simp [List.getD_eq_getElem?_getD, h₂]

/-- Block `i` of a concatenation starts after the lengths of the blocks before it. -/
theorem take_drop_flatten {α : Type} (bs : List (List α)) (rest : List α) (i : Nat)
    (hi : i < bs.length) :
    ((bs.flatten ++ rest).drop ((bs.take i).map List.length).sum).take bs[i].length = bs[i] := by
  induction bs generalizing i with
  | nil => simp at hi
  | cons b bs ih =>
    cases i with
    | zero => simp
    | succ i =>
      simp only [List.flatten_cons, List.take_succ_cons, List.map_cons, List.sum_cons,
        List.append_assoc, List.getElem_cons_succ]
      rw [← List.drop_drop, List.drop_left]
      exact ih i (by simpa using hi)

/-- The middle of a concatenation, cut out by its offset and length. -/
theorem drop_append_take {α : Type} (a b c : List α) :
    ((a ++ b ++ c).drop a.length).take b.length = b := by
  simp [List.append_assoc]

/-! ## Loops that succeed at every step -/

/-- A monadic fold in `Option` whose every step succeeds while an invariant holds is the pure
fold. -/
theorem foldlM_eq_some_of_inv {α β : Type} (P : β → Prop) (f : β → α → Option β) (g : β → α → β)
    (xs : List α) (hstep : ∀ acc, P acc → ∀ x ∈ xs, f acc x = some (g acc x) ∧ P (g acc x))
    (init : β) (h0 : P init) : xs.foldlM f init = some (xs.foldl g init) := by
  induction xs generalizing init with
  | nil => rfl
  | cons x xs ih =>
    obtain ⟨hx, hP⟩ := hstep init h0 x List.mem_cons_self
    rw [List.foldlM_cons, hx, Option.bind_eq_bind, Option.bind_some, List.foldl_cons]
    exact ih (fun acc hacc y hy => hstep acc hacc y (List.mem_cons_of_mem _ hy)) _ hP

/-! ## Filling a list by positions -/

/-- The list after setting position `σ x` to `v (σ x)` for each `x` of `xs`: a position some
`x` names holds `v` of it, any other keeps its entry. -/
theorem getElem?_foldl_set {α β : Type} (σ : α → Nat) (v : Nat → β) (xs : List α)
    (init : List β) (j : Nat) :
    (xs.foldl (fun acc x => acc.set (σ x) (v (σ x))) init)[j]? =
      if j ∈ xs.map σ then init[j]?.map (fun _ => v j) else init[j]? := by
  induction xs generalizing init with
  | nil => simp
  | cons x xs ih =>
    rw [List.foldl_cons, ih, List.getElem?_set]
    by_cases hx : σ x = j
    · -- the position `x` sets: whether a later element sets it again, it holds `v j`
      subst hx
      by_cases hlt : σ x < init.length
      · simp [hlt]
      · simp [hlt]
    · simp [hx, Ne.symm hx]

/-- Setting every position of the list covers it: the result is `v` at each position. -/
theorem foldl_set_eq_map_range {α β : Type} (σ : α → Nat) (v : Nat → β) (xs : List α)
    (init : List β) (hcover : ∀ j < init.length, j ∈ xs.map σ) :
    xs.foldl (fun acc x => acc.set (σ x) (v (σ x))) init = (List.range init.length).map v := by
  apply List.ext_getElem?
  intro j
  rw [getElem?_foldl_set]
  by_cases hj : j < init.length
  · simp [hcover j hj, hj]
  · have hj' : init.length ≤ j := Nat.le_of_not_lt hj
    simp [hj']

end Noms.Lib
