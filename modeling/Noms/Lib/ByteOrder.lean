import Mathlib.Data.List.Lex

/-!
# Lexicographic comparison of byte strings

`bytesCompare` is Go's `bytes.Compare`: the first differing byte decides, and a proper prefix
comes first. It is the lexicographic order of the byte values (`bytesCompare_eq_lt_iff`), so it
inherits the linear order of `List ℕ`; it answers `.eq` exactly on equal strings and is
antisymmetric (`bytesCompare_swap`).
-/

namespace Noms.Lib

/-- Go's `bytes.Compare`. -/
def bytesCompare : List UInt8 → List UInt8 → Ordering
  | [], [] => .eq
  | [], _ :: _ => .lt
  | _ :: _, [] => .gt
  | a :: as, b :: bs => if a < b then .lt else if b < a then .gt else bytesCompare as bs

/-- The bytes as the numbers they hold. -/
def byteVals (bs : List UInt8) : List Nat := bs.map UInt8.toNat

@[simp] theorem byteVals_nil : byteVals [] = [] := rfl

@[simp] theorem byteVals_cons (b : UInt8) (bs : List UInt8) :
    byteVals (b :: bs) = b.toNat :: byteVals bs := rfl

theorem byteVals_injective : Function.Injective byteVals :=
  List.map_injective_iff.mpr (fun _ _ h => UInt8.toNat_inj.mp h)

theorem bytesCompare_eq_lt_iff (a b : List UInt8) :
    bytesCompare a b = .lt ↔ byteVals a < byteVals b := by
  induction a generalizing b with
  | nil => cases b <;> simp [bytesCompare, List.nil_lt_cons]
  | cons x as ih =>
    cases b with
    | nil => simp [bytesCompare, List.not_lt_nil]
    | cons y bs =>
      simp only [bytesCompare, byteVals_cons, List.cons_lt_cons_iff]
      by_cases hxy : x < y
      · simp [hxy, UInt8.lt_iff_toNat_lt.mp hxy]
      · by_cases hyx : y < x
        · have h₁ : ¬ x.toNat < y.toNat := fun h => hxy (UInt8.lt_iff_toNat_lt.mpr h)
          have h₂ : x.toNat ≠ y.toNat := Nat.ne_of_gt (UInt8.lt_iff_toNat_lt.mp hyx)
          simp [hxy, hyx, h₁, h₂]
        · -- neither byte is below the other: they are equal and the tails decide
          have heq : x.toNat = y.toNat := by
            rw [UInt8.lt_iff_toNat_lt] at hxy hyx
            omega
          simp [hxy, hyx, heq, ih]

theorem bytesCompare_eq_eq_iff (a b : List UInt8) : bytesCompare a b = .eq ↔ a = b := by
  induction a generalizing b with
  | nil => cases b <;> simp [bytesCompare]
  | cons x as ih =>
    cases b with
    | nil => simp [bytesCompare]
    | cons y bs =>
      simp only [bytesCompare, List.cons.injEq]
      by_cases hxy : x < y
      · simp [hxy, UInt8.ne_of_lt hxy]
      · by_cases hyx : y < x
        · simp [hxy, hyx, (UInt8.ne_of_lt hyx).symm]
        · have heq : x = y := by
            rw [UInt8.lt_iff_toNat_lt] at hxy hyx
            exact UInt8.toNat_inj.mp (by omega)
          subst heq
          simp [ih]

theorem bytesCompare_swap (a b : List UInt8) : bytesCompare b a = (bytesCompare a b).swap := by
  induction a generalizing b with
  | nil => cases b <;> rfl
  | cons x as ih =>
    cases b with
    | nil => rfl
    | cons y bs =>
      simp only [bytesCompare]
      by_cases hxy : x < y
      · have hyx : ¬ y < x := fun h => absurd (UInt8.lt_iff_toNat_lt.mp h)
          (Nat.lt_asymm (UInt8.lt_iff_toNat_lt.mp hxy))
        simp [hxy, hyx, Ordering.swap]
      · by_cases hyx : y < x
        · simp [hxy, hyx, Ordering.swap]
        · simp [hxy, hyx, ih]

example : bytesCompare [1, 2] [1, 3] = .lt := by decide

end Noms.Lib
