import Mathlib.Data.List.Nodup

/-!
# Scatters: a loop of updates at computed positions of a list

`scatter pos f l xs` is `for _, x := range xs { l[pos(x)] = f(x, l[pos(x)]) }`. Read back
position by position, a scatter leaves every position outside `xs.map pos` as it was
(`getElem?_scatter_of_not_mem`), and when no position repeats it applies `f x` exactly once at
the position of each `x` (`getElem?_scatter_of_mem`); so the order of `xs` is irrelevant
(`scatter_perm`).
-/

namespace Noms.Lib

variable {α ι : Type} (pos : ι → Nat) (f : ι → α → α)

/-- `for _, x := range xs { l[pos(x)] = f(x, l[pos(x)]) }`. -/
def scatter (l : List α) (xs : List ι) : List α :=
  xs.foldl (fun l x => l.modify (pos x) (f x)) l

@[simp] theorem scatter_nil (l : List α) : scatter pos f l [] = l := rfl

@[simp] theorem scatter_cons (l : List α) (x : ι) (xs : List ι) :
    scatter pos f l (x :: xs) = scatter pos f (l.modify (pos x) (f x)) xs := rfl

theorem scatter_append (l : List α) (xs ys : List ι) :
    scatter pos f l (xs ++ ys) = scatter pos f (scatter pos f l xs) ys :=
  List.foldl_append

@[simp] theorem length_scatter (l : List α) (xs : List ι) :
    (scatter pos f l xs).length = l.length := by
  induction xs generalizing l with
  | nil => rfl
  | cons x xs ih => rw [scatter_cons, ih, List.length_modify]

variable {pos f}

theorem getElem?_scatter_of_not_mem {l : List α} {xs : List ι} {k : Nat}
    (h : ∀ x ∈ xs, pos x ≠ k) : (scatter pos f l xs)[k]? = l[k]? := by
  induction xs generalizing l with
  | nil => rfl
  | cons x xs ih =>
    rw [scatter_cons, ih fun y hy => h y (List.mem_cons_of_mem _ hy), List.getElem?_modify]
    simp [h x List.mem_cons_self]

theorem getElem?_scatter_of_mem {l : List α} {xs : List ι} (hnd : (xs.map pos).Nodup) {x : ι}
    (hx : x ∈ xs) : (scatter pos f l xs)[pos x]? = l[pos x]?.map (f x) := by
  induction xs generalizing l with
  | nil => exact absurd hx List.not_mem_nil
  | cons y xs ih =>
    rw [List.map_cons, List.nodup_cons] at hnd
    rw [scatter_cons]
    rcases List.mem_cons.mp hx with rfl | hx
    · -- the only visit of this position is the first
      have hout : ∀ z ∈ xs, pos z ≠ pos x := fun z hz heq =>
        hnd.1 (heq ▸ List.mem_map_of_mem hz)
      rw [getElem?_scatter_of_not_mem hout, List.getElem?_modify]
      simp
    · have hne : pos y ≠ pos x := fun heq => hnd.1 (heq ▸ List.mem_map_of_mem hx)
      rw [ih hnd.2 hx, List.getElem?_modify]
      simp [hne]

/-- With no position repeated, a scatter does not depend on the order of its updates. -/
theorem scatter_perm {l : List α} {xs ys : List ι} (hp : xs.Perm ys) (hnd : (xs.map pos).Nodup) :
    scatter pos f l xs = scatter pos f l ys := by
  have hnd' : (ys.map pos).Nodup := (hp.map pos).nodup_iff.mp hnd
  refine List.ext_getElem? fun k => ?_
  by_cases hk : ∃ x ∈ xs, pos x = k
  · obtain ⟨x, hx, rfl⟩ := hk
    rw [getElem?_scatter_of_mem hnd hx, getElem?_scatter_of_mem hnd' (hp.subset hx)]
  · have hout : ∀ x ∈ xs, pos x ≠ k := fun x hx heq => hk ⟨x, hx, heq⟩
    rw [getElem?_scatter_of_not_mem hout,
      getElem?_scatter_of_not_mem fun x hx => hout x (hp.symm.subset hx)]

end Noms.Lib
