import Noms.Types.Value
import Mathlib.Data.Sum.Order
import Mathlib.Order.WithBot
import Mathlib.Algebra.Order.Ring.Rat

/-!
# The value order is a key order

What `Less` computes, stated once: a value's key is its kind's rank (`Bool`, then `Number`,
then `String`, then every hashed kind) followed by the value itself for the three primitive
kinds and by the hash for the others, and `Less` is `<` on keys (`less_iff_orderKey`). The key
lives in a lexicographic sum of linear orders, so `Less` is a strict total order, and `Equals`
is equality of keys (`equals_iff_orderKey`), as long as no NaN is compared and a hashed value
does not share its hash with another value.

NaN is the exception: `Number.Less` and `Number.Equals` are both false on NaN and NaN
(`value_order_nan`), so on a NaN neither `Less` nor `Equals` holds.
-/

namespace Noms.Types

open Noms.Lib

/-- The order of a value's key: rank, then value or hash. -/
abbrev OrderKey := Bool ⊕ₗ (WithBot (WithTop ℚ) ⊕ₗ (List ℕ ⊕ₗ List ℕ))

namespace Float64

/-- Where a non-NaN `float64` sits on the extended line; NaN has no place (it is sent to `⊥`
and kept out by hypothesis). -/
def ext : Float64 → WithBot (WithTop ℚ)
  | nan => ⊥
  | negInf => ⊥
  | finite q => ((q : WithTop ℚ) : WithBot (WithTop ℚ))
  | posInf => ((⊤ : WithTop ℚ) : WithBot (WithTop ℚ))

theorem lt_iff_ext {x y : Float64} (hx : x ≠ nan) (hy : y ≠ nan) :
    x.lt y = true ↔ x.ext < y.ext := by
  cases x <;> cases y <;> simp_all [lt, ext, WithBot.bot_lt_coe]
  exact WithBot.coe_lt_coe.mpr (WithTop.coe_lt_top _)

theorem eq_iff_ext {x y : Float64} (hx : x ≠ nan) (hy : y ≠ nan) :
    x.eq y = true ↔ x.ext = y.ext := by
  cases x <;> cases y <;> simp_all [eq, ext]

end Float64

namespace Value

variable {C : Type} (hashOf : Value C → Hash)

/-- A NaN number, the one value the order has no place for. -/
def isNaN : Value C → Bool
  | number .nan => true
  | _ => false

/-- The key `Less` compares. -/
def orderKey : Value C → OrderKey
  | bool b => toLex (Sum.inl b)
  | number x => toLex (Sum.inr (toLex (Sum.inl x.ext)))
  | string s => toLex (Sum.inr (toLex (Sum.inr (toLex (Sum.inl (byteVals s))))))
  | v@(hashed _ _) =>
    toLex (Sum.inr (toLex (Sum.inr (toLex (Sum.inr (byteVals (hashOf v).bytes))))))

theorem float_ne_nan {x : Float64} (h : (number x : Value C).isNaN = false) : x ≠ .nan := by
  rintro rfl
  simp [isNaN] at h

@[simp] theorem valueLess_bool (v : Value C) (b : Bool) : valueLess hashOf v (bool b) = false := rfl

@[simp] theorem valueLess_number (v : Value C) (x : Float64) :
    valueLess hashOf v (number x) = false := rfl

@[simp] theorem valueLess_string (v : Value C) (s : List UInt8) :
    valueLess hashOf v (string s) = false := rfl

@[simp] theorem valueLess_hashed (v : Value C) (k : HashedKind) (c : C) :
    valueLess hashOf v (hashed k c) = (hashOf v).Less (hashOf (hashed k c)) := by
  cases k <;> rfl

/-- A number is below every hashed value: `NumberKind` is below every hashed kind. -/
@[simp] theorem numberLess_hashed (x : Float64) (k : HashedKind) (c : C) :
    numberLess x (hashed k c) = true := by
  cases k <;> rfl

@[simp] theorem stringLess_hashed (s : List UInt8) (k : HashedKind) (c : C) :
    stringLess s (hashed k c) = true := by
  cases k <;> rfl

theorem hash_less_iff (h₁ h₂ : Hash) : h₁.Less h₂ = true ↔ byteVals h₁.bytes < byteVals h₂.bytes := by
  simp [Hash.Less, bytesCompare_eq_lt_iff]

/-- `Less` is `<` on keys: rank first, then the value for the primitive kinds and the hash for
the hashed ones. -/
theorem less_iff_orderKey {a b : Value C} (ha : a.isNaN = false) (hb : b.isNaN = false) :
    a.Less hashOf b = true ↔ a.orderKey hashOf < b.orderKey hashOf := by
  cases a with
  | bool v =>
    cases b with
    | bool v₂ =>
      simp only [Less, boolLess, orderKey, Sum.Lex.inl_lt_inl_iff]
      cases v <;> cases v₂ <;> decide
    | _ => simp [Less, boolLess, orderKey]
  | number x =>
    have hx := float_ne_nan ha
    cases b with
    | number y =>
      simp [Less, numberLess, orderKey, Float64.lt_iff_ext hx (float_ne_nan hb)]
    | hashed k c =>
      cases k <;> simp [Less, numberLess, orderKey, kind, HashedKind.kind, NomsKind.lt_iff,
        NomsKind.toNat]
    | _ => simp [Less, numberLess, orderKey, kind, NomsKind.lt_iff, NomsKind.toNat]
  | string s =>
    cases b with
    | string s₂ => simp [Less, stringLess, orderKey, bytesCompare_eq_lt_iff]
    | hashed k c =>
      cases k <;> simp [Less, stringLess, orderKey, kind, HashedKind.kind, NomsKind.lt_iff,
        NomsKind.toNat]
    | _ => simp [Less, stringLess, orderKey, kind, NomsKind.lt_iff, NomsKind.toNat]
  | hashed k c =>
    cases b with
    | hashed k₂ c₂ =>
      cases k₂ <;> simp [Less, valueLess, orderKey, kind, HashedKind.kind, hash_less_iff]
    | _ => simp [Less, valueLess, orderKey, kind]

theorem hash_eq_iff (h₁ h₂ : Hash) : h₁ = h₂ ↔ byteVals h₁.bytes = byteVals h₂.bytes := by
  rw [byteVals_injective.eq_iff]
  constructor
  · rintro rfl
    rfl
  · intro h
    cases h₁
    cases h₂
    simp_all

/-- `Equals` is equality of keys, once a hashed value does not share its hash with the other
value. -/
theorem equals_iff_orderKey {a b : Value C} (ha : a.isNaN = false) (hb : b.isNaN = false)
    (hsep : hashOf a = hashOf b → a = b) :
    a.Equals hashOf b = true ↔ a.orderKey hashOf = b.orderKey hashOf := by
  cases a with
  | bool v => cases b <;> simp [Equals, orderKey]
  | number x =>
    cases b with
    | number y =>
      simp [Equals, orderKey, Float64.eq_iff_ext (float_ne_nan ha) (float_ne_nan hb)]
    | _ => simp [Equals, orderKey]
  | string s =>
    cases b with
    | string s₂ => simp [Equals, orderKey, byteVals_injective.eq_iff]
    | _ => simp [Equals, orderKey]
  | hashed k c =>
    cases b with
    | hashed k₂ c₂ => simp [Equals, orderKey, hash_eq_iff]
    | _ =>
      -- a hashed value and a primitive one: their hashes differ, and so do their keys' ranks
      simp only [Equals, orderKey, beq_iff_eq]
      simp only [reduceCtorEq, imp_false] at hsep
      simp [hsep]

@[simp] theorem orderedByValue_hashed (k : HashedKind) (c : C) :
    isKindOrderedByValue (hashed k c : Value C).kind = false := by
  cases k <;> rfl

@[simp] theorem orderedByValue_bool (v : Bool) :
    isKindOrderedByValue (bool v : Value C).kind = true := rfl

@[simp] theorem orderedByValue_number (x : Float64) :
    isKindOrderedByValue (number x : Value C).kind = true := rfl

@[simp] theorem orderedByValue_string (s : List UInt8) :
    isKindOrderedByValue (string s : Value C).kind = true := rfl

/-- `newOrderedKey` orders keys as `Less` orders their values. -/
theorem newOrderedKey_less {a b : Value C} (hempty : (hashOf a).IsEmpty = false)
    (hempty₂ : (hashOf b).IsEmpty = false) :
    (OrderedKey.newOrderedKey hashOf a).Less hashOf (OrderedKey.newOrderedKey hashOf b) =
      some (a.Less hashOf b) := by
  -- first place each key on its side of the by-value / by-hash split
  cases a <;> cases b <;>
    simp only [OrderedKey.newOrderedKey, orderedByValue_hashed, orderedByValue_bool,
      orderedByValue_number, orderedByValue_string, if_true, Bool.false_eq_true, if_false]
  all_goals simp [OrderedKey.Less, Less, boolLess, hempty, hempty₂]

/-- Of `a < b`, `b < a` and `a = b` on a linear order, exactly one holds. -/
theorem count_trichotomy {α : Type} [LinearOrder α] (x y : α) :
    [decide (x < y), decide (y < x), decide (x = y)].count true = 1 := by
  rcases lt_trichotomy x y with h | h | h
  · simp [h, h.ne, not_lt_of_gt h]
  · simp [h]
  · simp [h, h.ne', not_lt_of_gt h]

/-- Values without NaN, where a hashed value does not share its hash with the other value,
are in a strict total order consistent with `Equals`: the key order, which puts `Bool` before
`Number` before `String` before the hashed kinds, orders the first three by value and the rest
by hash; `orderedKey.Less` orders the values' keys the same way. -/
theorem value_order {a b c : Value C} (ha : a.isNaN = false) (hb : b.isNaN = false)
    (hc : c.isNaN = false) (hsep : hashOf a = hashOf b → a = b)
    (hempty : (hashOf a).IsEmpty = false) (hempty₂ : (hashOf b).IsEmpty = false) :
    [a.Less hashOf b, b.Less hashOf a, a.Equals hashOf b].count true = 1 ∧
      (a.Less hashOf b = true → b.Less hashOf c = true → a.Less hashOf c = true) ∧
      (a.Less hashOf b = true ↔ a.orderKey hashOf < b.orderKey hashOf) ∧
      (OrderedKey.newOrderedKey hashOf a).Less hashOf (OrderedKey.newOrderedKey hashOf b) =
        some (a.Less hashOf b) := by
  have hab := less_iff_orderKey hashOf ha hb
  have hba := less_iff_orderKey hashOf hb ha
  have heq := equals_iff_orderKey hashOf ha hb hsep
  refine ⟨?_, ?_, hab, newOrderedKey_less hashOf hempty hempty₂⟩
  · -- each of the three answers is the decision of its key comparison
    have h₁ : a.Less hashOf b = decide (a.orderKey hashOf < b.orderKey hashOf) := by
      rw [Bool.eq_iff_iff, hab, decide_eq_true_iff]
    have h₂ : b.Less hashOf a = decide (b.orderKey hashOf < a.orderKey hashOf) := by
      rw [Bool.eq_iff_iff, hba, decide_eq_true_iff]
    have h₃ : a.Equals hashOf b = decide (a.orderKey hashOf = b.orderKey hashOf) := by
      rw [Bool.eq_iff_iff, heq, decide_eq_true_iff]
    rw [h₁, h₂, h₃]
    exact count_trichotomy _ _
  · intro h₁ h₂
    rw [less_iff_orderKey hashOf ha hc]
    exact lt_trans (hab.mp h₁) ((less_iff_orderKey hashOf hb hc).mp h₂)

/-- The hash a test gives a value: its kind's constant, then nineteen zero bytes. -/
def kindHash : Value Unit → Hash :=
  fun v => ⟨(v.kind.toNat + 1).toUInt8 :: List.replicate 19 0, rfl⟩

theorem value_order_kinds :
    (bool true : Value Unit).isNaN = false ∧ (number (.finite 1) : Value Unit).isNaN = false ∧
      (hashed .Blob () : Value Unit).isNaN = false ∧
      (kindHash (bool true) = kindHash (number (.finite 1)) →
        (bool true : Value Unit) = number (.finite 1)) ∧
      (kindHash (bool true)).IsEmpty = false ∧ (kindHash (number (.finite 1))).IsEmpty = false ∧
      [(bool true).Less kindHash (number (.finite 1)), (number (.finite 1)).Less kindHash (bool true),
        (bool true).Equals kindHash (number (.finite 1))].count true = 1 ∧
      ((bool true).Less kindHash (number (.finite 1)) = true →
        (number (.finite 1)).Less kindHash (hashed .Blob ()) = true →
        (bool true).Less kindHash (hashed .Blob ()) = true) ∧
      ((bool true).Less kindHash (number (.finite 1)) = true ↔
        (bool true).orderKey kindHash < (number (.finite 1)).orderKey kindHash) ∧
      (OrderedKey.newOrderedKey kindHash (bool true)).Less kindHash
          (OrderedKey.newOrderedKey kindHash (number (.finite 1))) =
        some ((bool true).Less kindHash (number (.finite 1))) :=
  have ha : (bool true : Value Unit).isNaN = false := rfl
  have hb : (number (.finite 1) : Value Unit).isNaN = false := rfl
  have hc : (hashed .Blob () : Value Unit).isNaN = false := rfl
  have hsep : kindHash (bool true) = kindHash (number (.finite 1)) →
      (bool true : Value Unit) = number (.finite 1) := by decide
  have hempty : (kindHash (bool true)).IsEmpty = false := by decide
  have hempty₂ : (kindHash (number (.finite 1))).IsEmpty = false := by decide
  ⟨ha, hb, hc, hsep, hempty, hempty₂, value_order kindHash ha hb hc hsep hempty hempty₂⟩

/-- A NaN is neither below itself nor equal to itself, so no one of the three holds. -/
theorem value_order_nan :
    [(number .nan : Value Unit).Less kindHash (number .nan),
      (number .nan).Less kindHash (number .nan),
      (number .nan).Equals kindHash (number .nan)].count true = 0 := by
  rfl

end Value

end Noms.Types
