import Mathlib

/-!
# A priority queue read at its least key

A binary heap is used through its contract only: `Push` adds an element and `Pop` takes one of
least key. `extractMin key l` is that contract on a list: an element of least key and the others
(`extractMin_perm`, `extractMin_le`), `none` only on the empty queue (`extractMin_eq_none_iff`).
-/

namespace Noms.Lib

variable {α κ : Type} [LinearOrder κ] (key : α → κ)

/-- An element of least `key` (the first of them) and the rest. -/
def extractMin : List α → Option (α × List α)
  | [] => none
  | a :: l =>
    match extractMin l with
    | none => some (a, l)
    | some (b, rest) => if key b < key a then some (b, a :: rest) else some (a, l)

variable {key}

theorem extractMin_eq_none_iff {l : List α} : extractMin key l = none ↔ l = [] := by
  cases l with
  | nil => exact iff_of_true rfl rfl
  | cons a l =>
    simp only [extractMin, reduceCtorEq, iff_false]
    split
    · exact Option.some_ne_none _
    · split <;> exact Option.some_ne_none _

theorem extractMin_spec : ∀ {l : List α} {a : α} {rest : List α},
    extractMin key l = some (a, rest) → l.Perm (a :: rest) ∧ ∀ b ∈ l, key a ≤ key b
  | [], _, _, h => by simp [extractMin] at h
  | c :: l, a, rest, h => by
    unfold extractMin at h
    split at h
    · -- `l` is empty: `c` is the only element
      rename_i hnone
      rw [extractMin_eq_none_iff] at hnone
      subst hnone
      have he : (c, []) = (a, rest) := Option.some.inj h
      cases he
      exact ⟨List.Perm.refl _, by simp⟩
    · rename_i b rest' hsome
      obtain ⟨hperm, hle⟩ := extractMin_spec hsome
      split at h
      · -- the least of `l` is below `c`
        rename_i hlt
        have he : (b, c :: rest') = (a, rest) := Option.some.inj h
        cases he
        refine ⟨(hperm.cons c).trans (List.Perm.swap a c rest'), ?_⟩
        intro d hd
        rcases List.mem_cons.mp hd with rfl | hd
        · exact le_of_lt hlt
        · exact hle d hd
      · rename_i hge
        have he : (c, l) = (a, rest) := Option.some.inj h
        cases he
        refine ⟨List.Perm.refl _, ?_⟩
        intro d hd
        rcases List.mem_cons.mp hd with rfl | hd
        · exact le_refl _
        · exact le_trans (not_lt.mp hge) (hle d hd)

theorem extractMin_perm {l : List α} {a : α} {rest : List α}
    (h : extractMin key l = some (a, rest)) : l.Perm (a :: rest) :=
  (extractMin_spec h).1

theorem extractMin_le {l : List α} {a : α} {rest : List α}
    (h : extractMin key l = some (a, rest)) {b : α} (hb : b ∈ l) : key a ≤ key b :=
  (extractMin_spec h).2 b hb

theorem mem_of_extractMin {l : List α} {a : α} {rest : List α}
    (h : extractMin key l = some (a, rest)) : a ∈ l :=
  (extractMin_perm h).symm.subset List.mem_cons_self

end Noms.Lib
