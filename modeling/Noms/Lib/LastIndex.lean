import Mathlib.Data.List.Infix

/-!
# The last occurrence of a separator

`lastIndex sep s` is `strings.LastIndex(s, sep)`: where the last occurrence of `sep` in `s`
starts, `none` where there is none (`lastIndex_eq_none_iff`). An occurrence in a suffix is the
last of the whole (`lastIndex_append`), and one at the front is the last when none follows
(`lastIndex_cons_of_none`).
-/

namespace Noms.Lib

variable {α : Type} [DecidableEq α]

/-- `strings.LastIndex(s, sep)`. -/
def lastIndex (sep : List α) : List α → Option Nat
  | [] => if sep.isPrefixOf [] then some 0 else none
  | c :: s =>
    match lastIndex sep s with
    | some i => some (i + 1)
    | none => if sep.isPrefixOf (c :: s) then some 0 else none

variable {sep s t : List α}

theorem lastIndex_eq_none_iff : lastIndex sep s = none ↔ ¬sep <:+: s := by
  induction s with
  | nil =>
    simp only [lastIndex, List.isPrefixOf_iff_prefix, List.infix_nil, List.prefix_nil]
    split <;> simp_all
  | cons c s ih =>
    simp only [lastIndex]
    split
    · rename_i i hi
      have hin : sep <:+: s := by
        by_contra hn
        rw [← ih] at hn
        rw [hn] at hi
        cases hi
      simp only [reduceCtorEq, false_iff, not_not]
      exact hin.trans (List.suffix_cons c s).isInfix
    · rename_i hnone
      have hns : ¬sep <:+: s := ih.mp hnone
      rw [List.infix_cons_iff, ← List.isPrefixOf_iff_prefix]
      split <;> simp_all

/-- An occurrence at the front is the last one when none follows it. -/
theorem lastIndex_cons_of_none {c : α} (h : lastIndex sep s = none) (hp : sep <+: c :: s) :
    lastIndex sep (c :: s) = some 0 := by
  rw [lastIndex, h, if_pos (List.isPrefixOf_iff_prefix.mpr hp)]

/-- The last occurrence in a suffix is the last of the whole. -/
theorem lastIndex_append {j : Nat} (h : lastIndex sep t = some j) :
    ∀ D : List α, lastIndex sep (D ++ t) = some (D.length + j)
  | [] => by rw [List.nil_append, List.length_nil, Nat.zero_add, h]
  | c :: D => by
    rw [List.cons_append, lastIndex, lastIndex_append h D, List.length_cons]
    simp only [Option.some.injEq]
    omega

end Noms.Lib
