import Noms.Lib.Loop
import Noms.Types.RollingValueHasher
import Noms.Types.Value
import Mathlib.Algebra.Order.Field.Rat
import Mathlib.Algebra.Order.Field.Power

/-!
# Numbers on the wire (`number_util.go`, `writeNumber` and `readNumber` in `codec.go`)

A `Number` is written as two signed varints `i` and `exp` whose value is `i / 2^exp`.
`float64ToIntExp` scales the value by powers of two: down while it exceeds `maxSafeInteger`,
then up until it is an integer. `intExpToFloat64` divides by `math.Pow(2, exp)`.

The arithmetic is a rounding-free model of `float64`. A finite value is exact: it is a `Binary64`,
`mant * 2^exp` with `|mant| < 2^53` and `-1074 ≤ exp ≤ 971`. Halving and doubling are exact, as
they are on every value the encoder scales. `math.Pow(2, k)` is `2^k` from `k = -1074` to
`k = 1023`, `+Inf` above and `0` below, and a finite value divided by `+Inf` is `0`. Each loop
runs on `loopFuel` rounds (`loopWhile`); no finite value uses them up, and on NaN and the
infinities the loops never end.

Every finite `x` is encoded (`float64ToIntExp_binary64`): `|i| < 2^53` and `i = x * 2^exp`. It
decodes to itself exactly when `exp ≤ 1023`, that is when `x * 2^1023` is an integer. Below that
the divisor overflows to `+Inf`, and the reader gets `0`.
-/

namespace Noms.Types

open Noms.Lib

/-! ## The `float64` operations the encoder uses -/

namespace Float64

/-- `f / 2`. -/
def half : Float64 → Float64
  | finite q => finite (q / 2)
  | f => f

/-- `f * 2`. -/
def twice : Float64 → Float64
  | finite q => finite (q * 2)
  | f => f

/-- `f * -1`. -/
def neg : Float64 → Float64
  | negInf => posInf
  | finite q => finite (-q)
  | posInf => negInf
  | nan => nan

/-- `math.Abs`. -/
def abs : Float64 → Float64
  | negInf => posInf
  | finite q => finite |q|
  | f => f

/-- `math.Signbit`. A zero is `+0` here, and NaN's sign bit is taken clear. -/
def signbit : Float64 → Bool
  | negInf => true
  | finite q => decide (q < 0)
  | _ => false

/-- `math.Trunc`: the integer part, rounded towards zero. -/
def trunc : Float64 → Float64
  | finite q => finite (q.num.tdiv q.den)
  | f => f

/-- `int64(f)`, for the finite integers `float64ToIntExp` converts; NaN and the infinities
never reach it. -/
def toInt64 : Float64 → Int
  | finite q => q.num.tdiv q.den
  | _ => 0

/-- Go's `/`, signs of zero aside; the quotient of two finite values is exact. -/
def div : Float64 → Float64 → Float64
  | finite a, finite b =>
    if b ≠ 0 then finite (a / b) else if a = 0 then nan else if 0 < a then posInf else negInf
  | finite _, posInf | finite _, negInf => finite 0
  | posInf, finite b => if b < 0 then negInf else posInf
  | negInf, finite b => if b < 0 then posInf else negInf
  | _, _ => nan

@[simp] theorem half_finite (q : ℚ) : (finite q).half = finite (q / 2) := rfl
@[simp] theorem twice_finite (q : ℚ) : (finite q).twice = finite (q * 2) := rfl
@[simp] theorem neg_finite (q : ℚ) : (finite q).neg = finite (-q) := rfl
@[simp] theorem abs_finite (q : ℚ) : (finite q).abs = finite |q| := rfl
@[simp] theorem signbit_finite (q : ℚ) : (finite q).signbit = decide (q < 0) := rfl
@[simp] theorem lt_finite (p q : ℚ) : (finite p).lt (finite q) = decide (p < q) := rfl
@[simp] theorem eq_finite (p q : ℚ) : (finite p).eq (finite q) = decide (p = q) := rfl

/-- `int64` of an integral value is that integer. -/
@[simp] theorem toInt64_intCast (z : ℤ) : (finite (z : ℚ)).toInt64 = z := by
  simp [toInt64]

end Float64

open Float64

/-- `maxSafeInteger`, `2^53 - 1`. -/
def maxSafeInteger : ℚ := 9007199254740991

/-- `float64IsInt`: `math.Trunc(f) == f`. -/
def float64IsInt (f : Float64) : Bool := f.trunc.eq f

/-- A finite value is integral exactly when it is an integer. -/
theorem float64IsInt_finite (q : ℚ) : float64IsInt (finite q) = true ↔ ∃ z : ℤ, q = z := by
  constructor
  · intro h
    exact ⟨q.num.tdiv q.den, (of_decide_eq_true h).symm⟩
  · rintro ⟨z, rfl⟩
    simp [float64IsInt, trunc]

/-! ## `float64ToIntExp` and `intExpToFloat64` -/

/-- One round of `for f > maxSafeInteger { f /= 2; exp-- }`. -/
def halveStep (s : Float64 × Int) : Float64 × Int := (s.1.half, s.2 - 1)

/-- One round of `for !float64IsInt(f) { f *= 2; exp++ }`. -/
def doubleStep (s : Float64 × Int) : Float64 × Int := (s.1.twice, s.2 + 1)

/-- `for f > maxSafeInteger { f /= 2; exp-- }`. -/
def bringDown : Nat → Float64 × Int → Option (Float64 × Int) :=
  loopWhile (fun s => (finite maxSafeInteger).lt s.1) halveStep

/-- `for !float64IsInt(f) { f *= 2; exp++ }`. -/
def makeInt : Nat → Float64 × Int → Option (Float64 × Int) :=
  loopWhile (fun s => !float64IsInt s.1) doubleStep

/-- The rounds each loop of `float64ToIntExp` is given: a finite value needs at most 972 halvings
or 1074 doublings. -/
def loopFuel : Nat := 1100

/-- `float64ToIntExp`: `(i, exp)` with `f = i / 2^exp`; `none` where the Go loops never end. -/
def float64ToIntExp (f : Float64) : Option (Int × Int) :=
  if f.eq (finite 0) then some (0, 0)
  else do
    let isNegative := f.signbit
    let (f, exp) ← bringDown loopFuel (f.abs, 0)
    let (f, exp) ← makeInt loopFuel (f, exp)
    let f := if isNegative then f.neg else f
    pure (f.toInt64, exp)

/-- `math.Pow(2, float64(k))` at an integer `k`: `2^k` while that is a `float64`, `+Inf` above
`2^1023`, and `0` below the least subnormal `2^-1074`. -/
def pow2 (k : Int) : Float64 :=
  if 1023 < k then posInf else if k < -1074 then finite 0 else finite (2 ^ k)

/-- `intExpToFloat64`: `float64(i) / math.Pow(2, float64(exp))`, with `float64(i)` exact. -/
def intExpToFloat64 (i exp : Int) : Float64 :=
  if exp = 0 then finite i else (finite i).div (pow2 exp)

/-! ## The varints of `writeNumber` and `readNumber` (`encoding/binary`) -/

/-- `binary.Uvarint` from byte `i` on, `x` holding the groups read so far (`x |= uint64(b&0x7f) << s`
with `s = 7 * i`; the groups are disjoint, so `|` adds). `none` where Go returns a count `≤ 0`:
the buffer ends inside the number, or the number overflows 64 bits. -/
def uvarintFrom : Nat → Nat → List UInt8 → Option (Nat × List UInt8)
  | _, _, [] => none
  | i, x, b :: rest =>
    if b < 0x80 then
      if i > 9 || i == 9 && b > 1 then none
      else some (x + b.toNat * 2 ^ (7 * i), rest)
    else uvarintFrom (i + 1) (x + b.toNat % 0x80 * 2 ^ (7 * i)) rest

/-- `binary.Uvarint`: the value and the bytes after it. -/
def uvarint (buf : List UInt8) : Option (Nat × List UInt8) := uvarintFrom 0 0 buf

/-- `binary.Varint`: `x := int64(ux >> 1)`, complemented when `ux & 1 != 0`. -/
def varint (buf : List UInt8) : Option (Int × List UInt8) :=
  (uvarint buf).map fun (ux, rest) =>
    (if ux % 2 = 0 then ((ux / 2 : Nat) : Int) else -((ux / 2 : Nat) : Int) - 1, rest)

/-- `binaryNomsWriter.writeNumber`: the bytes it appends; `none` where `float64ToIntExp` never
returns. -/
def writeNumber (v : Float64) : Option (List UInt8) :=
  (float64ToIntExp v).map fun (i, exp) => binaryNomsWriter.bytes (.writeNumber i exp)

/-- `binaryNomsReader.readNumber`: the number at the front of the buffer and the bytes after it;
`none` where a varint is malformed, which Go does not check. -/
def readNumber (buf : List UInt8) : Option (Float64 × List UInt8) := do
  let (i, buf) ← varint buf
  let (exp, buf) ← varint buf
  pure (intExpToFloat64 i exp, buf)

/-! ## A finite `float64` -/

/-- A finite `float64`: `mant * 2^exp` with a 53-bit mantissa, in the exponent range of binary64
with its subnormals. A value has several such forms; only `val` is observed. -/
structure Binary64 where
  mant : Int
  exp : Int
  mant_lt : mant.natAbs < 2 ^ 53
  exp_ge : -1074 ≤ exp
  exp_le : exp ≤ 971

namespace Binary64

/-- The value. -/
def val (x : Binary64) : ℚ := x.mant * 2 ^ x.exp

variable (x : Binary64)

theorem abs_val : |x.val| = (x.mant.natAbs : ℚ) * 2 ^ x.exp := by
  rw [val, abs_mul, abs_of_pos (zpow_pos (two_pos : (0 : ℚ) < 2) x.exp), ← Int.cast_natCast,
    Int.natCast_natAbs, Int.cast_abs]

theorem mant_le_maxSafeInteger : (x.mant.natAbs : ℚ) ≤ maxSafeInteger := by
  have := x.mant_lt
  rw [maxSafeInteger]
  exact_mod_cast (show x.mant.natAbs ≤ 9007199254740991 by omega)

/-- Scaled by `2^d`, the value is an integer once `d` cancels the exponent, -/
theorem isInt_abs_mul_zpow {d : ℤ} (hd : 0 ≤ x.exp + d) : ∃ z : ℤ, |x.val| * 2 ^ d = z := by
  obtain ⟨k, hk⟩ := Int.eq_ofNat_of_zero_le hd
  refine ⟨x.mant.natAbs * 2 ^ k, ?_⟩
  rw [abs_val, mul_assoc, ← zpow_add₀ two_ne_zero, hk, zpow_natCast]
  push_cast
  rw [← Int.cast_abs, ← Int.natCast_natAbs, Int.cast_natCast]

/-- and no larger than the mantissa while it does not. -/
theorem abs_mul_zpow_le {d : ℤ} (hd : x.exp + d ≤ 0) : |x.val| * 2 ^ d ≤ x.mant.natAbs := by
  rw [abs_val, mul_assoc, ← zpow_add₀ two_ne_zero]
  exact mul_le_of_le_one_right (by positivity) (zpow_le_one_of_nonpos₀ one_le_two hd)

end Binary64

/-! ## The two loops on a finite value -/

theorem halveStep_iterate (q : ℚ) (e : ℤ) (k : ℕ) :
    halveStep^[k] (finite q, e) = (finite (q * 2 ^ (-(k : ℤ))), e - k) := by
  induction k with
  | zero => simp
  | succ k ih =>
    rw [Function.iterate_succ_apply', ih, halveStep, half_finite, Prod.mk.injEq, finite.injEq]
    constructor
    · rw [show -((k + 1 : ℕ) : ℤ) = -(k : ℤ) + -1 by push_cast; ring, zpow_add₀ two_ne_zero,
        zpow_neg_one]
      ring
    · push_cast; ring

theorem doubleStep_iterate (q : ℚ) (e : ℤ) (j : ℕ) :
    doubleStep^[j] (finite q, e) = (finite (q * 2 ^ j), e + j) := by
  induction j with
  | zero => simp
  | succ j ih =>
    rw [Function.iterate_succ_apply', ih, doubleStep, twice_finite, pow_succ, Prod.mk.injEq,
      finite.injEq]
    constructor
    · ring
    · push_cast; ring

/-- A value at most `maxSafeInteger` is not halved. -/
theorem bringDown_of_le {q : ℚ} (h : q ≤ maxSafeInteger) (fuel : ℕ) (e : ℤ) :
    bringDown (fuel + 1) (finite q, e) = some (finite q, e) := by
  simp [bringDown, loopWhile, not_lt.mpr h]

/-- A larger value is halved `k` times, the first `k` that brings it down, if the fuel covers a
count `n` that does. -/
theorem bringDown_finite {q : ℚ} {e : ℤ} {n : ℕ} (hn : n < loopFuel)
    (h : q * 2 ^ (-(n : ℤ)) ≤ maxSafeInteger) :
    ∃ k ≤ n, bringDown loopFuel (finite q, e) = some (finite (q * 2 ^ (-(k : ℤ))), e - k) ∧
      q * 2 ^ (-(k : ℤ)) ≤ maxSafeInteger ∧ ∀ i < k, maxSafeInteger < q * 2 ^ (-(i : ℤ)) := by
  obtain ⟨k, hk, hrun, hstop, hmin⟩ := loopWhile_of_test_false
    (fun s => (finite maxSafeInteger).lt s.1) halveStep hn (s := (finite q, e))
    (by simpa [halveStep_iterate] using h)
  refine ⟨k, hk, by rw [bringDown, hrun, halveStep_iterate], ?_, fun i hi => ?_⟩
  · simpa [halveStep_iterate] using hstop
  · simpa [halveStep_iterate] using hmin i hi

/-- An integer is not doubled. -/
theorem makeInt_of_isInt {q : ℚ} (h : ∃ z : ℤ, q = z) (fuel : ℕ) (e : ℤ) :
    makeInt (fuel + 1) (finite q, e) = some (finite q, e) := by
  simp [makeInt, loopWhile, (float64IsInt_finite q).mpr h]

/-- A value is doubled `j` times, the first `j` that makes it an integer, if the fuel covers a
count `n` that does. -/
theorem makeInt_finite {q : ℚ} {e : ℤ} {n : ℕ} (hn : n < loopFuel) (h : ∃ z : ℤ, q * 2 ^ n = z) :
    ∃ j ≤ n, makeInt loopFuel (finite q, e) = some (finite (q * 2 ^ j), e + j) ∧
      (∃ z : ℤ, q * 2 ^ j = z) ∧ ∀ i < j, ¬∃ z : ℤ, q * 2 ^ i = z := by
  obtain ⟨j, hj, hrun, hstop, hmin⟩ := loopWhile_of_test_false
    (fun s => !float64IsInt s.1) doubleStep hn (s := (finite q, e))
    (by simpa [doubleStep_iterate, float64IsInt_finite] using h)
  refine ⟨j, hj, by rw [makeInt, hrun, doubleStep_iterate], ?_, fun i hi => ?_⟩
  · simpa [doubleStep_iterate, float64IsInt_finite] using hstop
  · intro hz
    have := hmin i hi
    simp [doubleStep_iterate, (float64IsInt_finite _).mpr hz] at this

/-- `PutUvarint` writes what `Uvarint` reads back, from any byte index `i` that leaves room for
the encoding and any bytes after it. -/
theorem uvarintFrom_putUvarint (rest : List UInt8) :
    ∀ (fuel i x n : Nat), i + fuel + 1 ≤ 10 → n < 2 ^ (7 * (fuel + 1)) → n * 2 ^ (7 * i) < 2 ^ 64 →
      uvarintFrom i x (putUvarint (fuel + 1) n ++ rest) = some (x + n * 2 ^ (7 * i), rest)
  | fuel, i, x, n, hi, hn, hov => by
    have hb (m : Nat) : (UInt8.ofNat m).toNat = m % 256 := UInt8.toNat_ofNat'
    by_cases hsmall : n < 0x80
    · -- the last byte: below `0x80`, and at most `1` at index 9
      have h63 : i = 9 → n ≤ 1 := by
        rintro rfl
        by_contra hn1
        have : 2 * 2 ^ (7 * 9) ≤ n * 2 ^ (7 * 9) := Nat.mul_le_mul_right _ (by omega)
        omega
      have hlast : ¬(i > 9 || i == 9 && UInt8.ofNat n > 1) = true := by
        simp only [Bool.or_eq_true, decide_eq_true_eq, Bool.and_eq_true, beq_iff_eq,
          UInt8.lt_iff_toNat_lt, hb, UInt8.toNat_one]
        omega
      have hlt : UInt8.ofNat n < 0x80 := by
        rw [UInt8.lt_iff_toNat_lt, hb]; simp only [UInt8.reduceToNat]; omega
      simp only [putUvarint, if_pos hsmall, List.singleton_append, uvarintFrom, if_pos hlt,
        if_neg hlast, hb, Nat.mod_eq_of_lt (by omega : n < 256)]
    · -- a continuation byte: the low seven bits, then the rest from index `i + 1`
      obtain ⟨fuel, rfl⟩ : ∃ f, fuel = f + 1 := Nat.exists_eq_succ_of_ne_zero (by
        rintro rfl; simp at hn; omega)
      have hcont : ¬UInt8.ofNat (n % 0x80 + 0x80) < 0x80 := by
        rw [UInt8.lt_iff_toNat_lt, hb]; simp only [UInt8.reduceToNat]; omega
      have hbyte : (UInt8.ofNat (n % 0x80 + 0x80)).toNat % 0x80 = n % 0x80 := by
        rw [hb]; omega
      have hpow (k : Nat) : 2 ^ (7 * (k + 1)) = 2 ^ (7 * k) * 128 := by
        rw [Nat.mul_succ, Nat.pow_add]
      have hdiv : n / 0x80 < 2 ^ (7 * (fuel + 1)) := by
        rw [Nat.div_lt_iff_lt_mul (by norm_num), ← hpow]; exact hn
      have hov' : n / 0x80 * 2 ^ (7 * (i + 1)) < 2 ^ 64 := by
        have : n / 128 * 128 * 2 ^ (7 * i) ≤ n * 2 ^ (7 * i) :=
          Nat.mul_le_mul_right _ (Nat.div_mul_le_self n 128)
        rw [hpow, Nat.mul_comm (2 ^ (7 * i)), ← Nat.mul_assoc]
        omega
      have hrest := uvarintFrom_putUvarint rest fuel (i + 1) (x + n % 0x80 * 2 ^ (7 * i)) (n / 0x80)
        (by omega) hdiv hov'
      rw [putUvarint, if_neg hsmall, List.cons_append, uvarintFrom, if_neg hcont, hbyte, hrest,
        hpow]
      have := Nat.mod_add_div n 128
      congr 2
      calc x + n % 128 * 2 ^ (7 * i) + n / 128 * (2 ^ (7 * i) * 128)
          = x + (n % 128 + 128 * (n / 128)) * 2 ^ (7 * i) := by ring
        _ = x + n * 2 ^ (7 * i) := by rw [this]

/-- `Varint` reads back what `PutVarint` writes, for every `int64`. -/
theorem varint_putVarint (z : Int) (hz : z.natAbs < 2 ^ 63) (rest : List UInt8) :
    varint (putVarint z ++ rest) = some (z, rest) := by
  -- the zig-zag code `ux` of `z`, below `2^64`
  set ux := if 0 ≤ z then 2 * z.toNat else 2 * (-z).toNat - 1 with hux
  have hzz : ux < 2 ^ 64 := by rw [hux]; split <;> omega
  have h := uvarintFrom_putUvarint rest 9 0 0 ux (by norm_num) (lt_of_lt_of_le hzz (by norm_num))
    (by simpa using hzz)
  simp only [varint, uvarint, putVarint, ← hux, h, Option.map_some, Option.some.injEq,
    Prod.mk.injEq, and_true, zero_add, Nat.mul_zero, pow_zero, Nat.mul_one]
  by_cases hz0 : 0 ≤ z
  · simp only [hux, if_pos hz0]; omega
  · simp only [hux, if_neg hz0]; omega

/-! ## Encoding a finite value -/

/-- What the two loops of `float64ToIntExp` leave of `|x|`: an integer `z` below `2^53` with
`z = |x| * 2^exp`, and an exponent that `intExpToFloat64` can undo exactly when `x * 2^1023` is
an integer. -/
structure Scaled (x : Binary64) (z exp : ℤ) : Prop where
  run : (bringDown loopFuel (finite |x.val|, 0)).bind (makeInt loopFuel) = some (finite z, exp)
  eq : (z : ℚ) = |x.val| * 2 ^ exp
  small : z.natAbs < 2 ^ 53
  exp_ge : -971 ≤ exp
  exp_le : exp ≤ 1074
  decodes : exp ≤ 1023 ↔ ∃ w : ℤ, |x.val| * 2 ^ (1023 : ℤ) = w

theorem natAbs_lt_of_le_maxSafeInteger {z : ℤ} (h0 : (0 : ℚ) ≤ z) (h : (z : ℚ) ≤ maxSafeInteger) :
    z.natAbs < 2 ^ 53 := by
  rw [maxSafeInteger] at h
  have h0' : 0 ≤ z := by exact_mod_cast h0
  have h' : z ≤ 9007199254740991 := by exact_mod_cast h
  omega

/-- Up to `maxSafeInteger`, `|x|` is not halved, and doubled until it is an integer. -/
theorem Binary64.scaled_of_le (x : Binary64) (h : |x.val| ≤ maxSafeInteger) :
    ∃ z exp, Scaled x z exp := by
  have h1074 : ∃ z : ℤ, |x.val| * 2 ^ (1074 : ℕ) = z := by
    simpa using x.isInt_abs_mul_zpow (d := 1074) (by linarith [x.exp_ge])
  obtain ⟨j, hj, hrun, ⟨z, hz⟩, hmin⟩ := makeInt_finite (e := 0) (by decide) h1074
  have hz' : (z : ℚ) = |x.val| * 2 ^ (j : ℤ) := by rw [zpow_natCast, hz]
  refine ⟨z, j, ⟨?_, hz', ?_, by omega, by omega, ?_⟩⟩
  · rw [zero_add] at hrun
    rw [show loopFuel = 1099 + 1 from rfl, bringDown_of_le h, Option.bind_some, ← hz]
    exact hrun
  · -- past the first doubling, the exponent has not turned positive: `z` is at most the mantissa
    have hz0 : (0 : ℚ) ≤ z := by rw [hz']; positivity
    rcases Nat.eq_zero_or_pos j with rfl | hjpos
    · exact natAbs_lt_of_le_maxSafeInteger hz0 (by simpa [hz'] using h)
    · have hneg : x.exp + (j : ℤ) ≤ 0 := by
        by_contra hpos
        obtain ⟨w, hw⟩ := x.isInt_abs_mul_zpow (d := ((j - 1 : ℕ) : ℤ)) (by omega)
        exact hmin (j - 1) (by omega) ⟨w, by rw [← zpow_natCast, hw]⟩
      exact natAbs_lt_of_le_maxSafeInteger hz0
        ((hz'.trans_le (x.abs_mul_zpow_le hneg)).trans x.mant_le_maxSafeInteger)
  · constructor
    · -- `|x| * 2^1023` is `z * 2^(1023 - j)`
      intro hle
      obtain ⟨k, hk⟩ : ∃ k : ℕ, (1023 : ℤ) = j + k := ⟨1023 - j, by omega⟩
      refine ⟨z * 2 ^ k, ?_⟩
      rw [hk, zpow_add₀ two_ne_zero, ← mul_assoc, ← hz', zpow_natCast]
      push_cast
      ring
    · -- the doubling stops at the first integer, so at `1023` at the latest
      rintro ⟨w, hw⟩
      by_contra hgt
      exact hmin 1023 (by omega) ⟨w, by rw [← hw, ← zpow_natCast]; rfl⟩

/-- Above `maxSafeInteger`, `|x|` is halved until it is at most `maxSafeInteger`; it is then an
integer, so it is not doubled. -/
theorem Binary64.scaled_of_gt (x : Binary64) (h : maxSafeInteger < |x.val|) :
    ∃ z exp, Scaled x z exp := by
  obtain ⟨k, hk, hrun, hle, hmin⟩ := bringDown_finite (q := |x.val|) (e := 0) (n := 971)
    (by decide) ((x.abs_mul_zpow_le (by have := x.exp_le; push_cast; omega)).trans
      x.mant_le_maxSafeInteger)
  have hk0 : k ≠ 0 := by
    rintro rfl
    simp only [Nat.cast_zero, neg_zero, zpow_zero, mul_one] at hle
    exact absurd h (not_lt.mpr hle)
  -- the last halving started above `maxSafeInteger`, so the exponent was still positive there
  have hexp : 0 ≤ x.exp + -(k : ℤ) := by
    by_contra hneg
    have hlast := hmin (k - 1) (by omega)
    have hmant := x.abs_mul_zpow_le (d := -((k - 1 : ℕ) : ℤ)) (by omega)
    linarith [x.mant_le_maxSafeInteger]
  obtain ⟨z, hz⟩ := x.isInt_abs_mul_zpow hexp
  have hz0 : (0 : ℚ) ≤ z := by rw [← hz]; positivity
  refine ⟨z, -(k : ℤ), ⟨?_, hz.symm, natAbs_lt_of_le_maxSafeInteger hz0 (hz ▸ hle), by omega,
    by omega, ⟨fun _ => x.isInt_abs_mul_zpow (by omega), fun _ => by omega⟩⟩⟩
  rw [hrun, Option.bind_some, zero_sub, hz, show loopFuel = 1099 + 1 from rfl,
    makeInt_of_isInt ⟨z, rfl⟩]

theorem Binary64.scaled (x : Binary64) : ∃ z exp, Scaled x z exp := by
  rcases le_or_gt |x.val| maxSafeInteger with h | h
  · exact x.scaled_of_le h
  · exact x.scaled_of_gt h

/-- `float64ToIntExp` puts the sign back on the scaled `|x|`. -/
theorem float64ToIntExp_of_scaled {x : Binary64} {z exp : ℤ} (hx : x.val ≠ 0)
    (hs : Scaled x z exp) :
    float64ToIntExp (finite x.val) = some (if x.val < 0 then -z else z, exp) := by
  obtain ⟨⟨f, e⟩, h1, h2⟩ := Option.bind_eq_some_iff.mp hs.run
  by_cases hneg : x.val < 0
  · simp [float64ToIntExp, hx, h1, h2, hneg]
    rw [← Int.cast_neg, toInt64_intCast]
  · simp [float64ToIntExp, hx, h1, h2, hneg]

/-- Every finite value is encoded: `|i| < 2^53`, `i = x * 2^exp`, and `exp ≤ 1023` exactly
when `x * 2^1023` is an integer. -/
theorem float64ToIntExp_binary64 (x : Binary64) :
    ∃ i exp, float64ToIntExp (finite x.val) = some (i, exp) ∧ (i : ℚ) = x.val * 2 ^ exp ∧
      i.natAbs < 2 ^ 53 ∧ -971 ≤ exp ∧ exp ≤ 1074 ∧
      (exp ≤ 1023 ↔ ∃ w : ℤ, x.val * 2 ^ (1023 : ℤ) = w) := by
  by_cases hx : x.val = 0
  · refine ⟨0, 0, by simp [float64ToIntExp, hx], by simp [hx], by norm_num, by norm_num,
      by norm_num, ⟨fun _ => ⟨0, by simp [hx]⟩, fun _ => by norm_num⟩⟩
  obtain ⟨z, exp, hs⟩ := x.scaled
  -- `x * c` is an integer exactly when `|x| * c` is
  have hint (c : ℚ) : (∃ w : ℤ, x.val * c = w) ↔ ∃ w : ℤ, |x.val| * c = w := by
    rcases abs_choice x.val with habs | habs <;> rw [habs]
    exact ⟨fun ⟨w, hw⟩ => ⟨-w, by push_cast; rw [← hw]; ring⟩,
        fun ⟨w, hw⟩ => ⟨-w, by push_cast; rw [← hw]; ring⟩⟩
  refine ⟨if x.val < 0 then -z else z, exp, float64ToIntExp_of_scaled hx hs, ?_, ?_, hs.exp_ge,
    hs.exp_le, hs.decodes.trans (hint _).symm⟩
  · split_ifs with hneg
    · push_cast; rw [hs.eq, abs_of_neg hneg]; ring
    · rw [hs.eq, abs_of_nonneg (not_lt.mp hneg)]
  · split_ifs
    · rw [Int.natAbs_neg]; exact hs.small
    · exact hs.small

/-! ## Decoding -/

theorem intExpToFloat64_of_le {i exp : ℤ} {q : ℚ} (hi : (i : ℚ) = q * 2 ^ exp)
    (hge : -1074 ≤ exp) (hle : exp ≤ 1023) : intExpToFloat64 i exp = finite q := by
  unfold intExpToFloat64
  split_ifs with h0
  · subst h0
    simp [hi]
  · rw [pow2, if_neg (by omega), if_neg (by omega), div, if_pos (zpow_ne_zero _ two_ne_zero), hi,
      mul_div_cancel_right₀ _ (zpow_ne_zero _ two_ne_zero)]

/-- Past `2^1023` the divisor is `+Inf`, and the quotient `0`. -/
theorem intExpToFloat64_of_gt (i : ℤ) {exp : ℤ} (h : 1023 < exp) :
    intExpToFloat64 i exp = finite 0 := by
  rw [intExpToFloat64, if_neg (by omega), pow2, if_pos h]
  rfl

/-- `readNumber` reads the two varints `writeNumber` writes, for every pair of `int64`s. -/
theorem readNumber_writeNumber_bytes (i exp : ℤ) (hi : i.natAbs < 2 ^ 63) (he : exp.natAbs < 2 ^ 63)
    (rest : List UInt8) :
    readNumber (binaryNomsWriter.bytes (.writeNumber i exp) ++ rest) =
      some (intExpToFloat64 i exp, rest) := by
  simp [readNumber, binaryNomsWriter.bytes, List.append_assoc, varint_putVarint _ hi,
    varint_putVarint _ he]

/-! ## The round trip -/

/-- `readNumber` after `writeNumber`, for every finite value and any bytes after it: the value
comes back while `exp ≤ 1023`, that is while `x * 2^1023` is an integer, and `0` past that. -/
theorem readNumber_writeNumber (x : Binary64) (rest : List UInt8) :
    ∃ i exp bytes, float64ToIntExp (finite x.val) = some (i, exp) ∧ i.natAbs < 2 ^ 53 ∧
      (i : ℚ) = x.val * 2 ^ exp ∧ writeNumber (finite x.val) = some bytes ∧
      (exp ≤ 1023 → readNumber (bytes ++ rest) = some (finite x.val, rest)) ∧
      (1023 < exp → readNumber (bytes ++ rest) = some (finite 0, rest)) ∧
      (exp ≤ 1023 ↔ ∃ w : ℤ, x.val * 2 ^ (1023 : ℤ) = w) := by
  obtain ⟨i, exp, henc, hi, hsmall, hge, hle, hdec⟩ := float64ToIntExp_binary64 x
  have hread := readNumber_writeNumber_bytes i exp (by omega) (by omega) rest
  refine ⟨i, exp, binaryNomsWriter.bytes (.writeNumber i exp), henc, hsmall, hi,
    by simp [writeNumber, henc], fun h => ?_, fun h => ?_, hdec⟩
  · rw [hread, intExpToFloat64_of_le hi (by omega) h]
  · rw [hread, intExpToFloat64_of_gt i h]

/-- A finite value with no integer `x * 2^1023` is read back as `0`. -/
theorem readNumber_writeNumber_of_not_isInt (x : Binary64)
    (h : ¬∃ w : ℤ, x.val * 2 ^ (1023 : ℤ) = w) :
    ∃ bytes, writeNumber (finite x.val) = some bytes ∧ readNumber bytes = some (finite 0, []) := by
  obtain ⟨i, exp, bytes, -, -, -, hw, -, hgt, hdec⟩ := readNumber_writeNumber x []
  refine ⟨bytes, hw, ?_⟩
  simpa using hgt (not_le.mp (mt hdec.mp h))

/-- The halving loop never ends on `+Inf`. -/
theorem bringDown_posInf (fuel : ℕ) (e : ℤ) : bringDown fuel (posInf, e) = none := by
  have hit (n : ℕ) : (halveStep^[n] (posInf, e)).1 = posInf := by
    induction n with
    | zero => rfl
    | succ n ih => rw [Function.iterate_succ_apply', halveStep, ih]; rfl
  exact loopWhile_eq_none (fun n => by rw [hit]; rfl) fuel

/-- The doubling loop never ends on NaN, which equals no `math.Trunc`. -/
theorem makeInt_nan (fuel : ℕ) (e : ℤ) : makeInt fuel (nan, e) = none := by
  have hit (n : ℕ) : (doubleStep^[n] (nan, e)).1 = nan := by
    induction n with
    | zero => rfl
    | succ n ih => rw [Function.iterate_succ_apply', doubleStep, ih]; rfl
  exact loopWhile_eq_none (fun n => by rw [hit]; rfl) fuel

/-- `writeNumber` never returns on NaN or an infinity. -/
theorem writeNumber_nonfinite :
    writeNumber nan = none ∧ writeNumber posInf = none ∧ writeNumber negInf = none := by
  have hnan : bringDown loopFuel (nan, 0) = some (nan, 0) := rfl
  refine ⟨?_, ?_, ?_⟩ <;>
    simp [writeNumber, float64ToIntExp, Float64.eq, Float64.abs, hnan, makeInt_nan, bringDown_posInf]

/-- The `Number` round trip loses every value whose last mantissa bit lies below `2^-1023`. Every
finite `x` is written as `(i, exp)` with `|i| < 2^53` and `i = x * 2^exp`, and read back as `x`
while `exp ≤ 1023`, that is while `x * 2^1023` is an integer; past that it is read back as `0`.
So the least subnormal `2^-1074`, and `1e-300`, which is `6032057205060441 * 2^-1049`, are
read back as `0`. -/
theorem readNumber_writeNumber_underflow :
    (∀ (x : Binary64) (rest : List UInt8), ∃ i exp bytes,
      float64ToIntExp (finite x.val) = some (i, exp) ∧ i.natAbs < 2 ^ 53 ∧
      (i : ℚ) = x.val * 2 ^ exp ∧ writeNumber (finite x.val) = some bytes ∧
      (exp ≤ 1023 → readNumber (bytes ++ rest) = some (finite x.val, rest)) ∧
      (1023 < exp → readNumber (bytes ++ rest) = some (finite 0, rest)) ∧
      (exp ≤ 1023 ↔ ∃ w : ℤ, x.val * 2 ^ (1023 : ℤ) = w)) ∧
    (∃ bytes, writeNumber (finite (2 ^ (-1074 : ℤ))) = some bytes ∧
      readNumber bytes = some (finite 0, [])) ∧
    (∃ bytes, writeNumber (finite (6032057205060441 * 2 ^ (-1049 : ℤ))) = some bytes ∧
      readNumber bytes = some (finite 0, [])) := by
  refine ⟨readNumber_writeNumber, ?_, ?_⟩
  · -- `2^-1074 * 2^1023 = 2^-51` lies strictly between `0` and `1`
    have h := readNumber_writeNumber_of_not_isInt ⟨1, -1074, by norm_num, le_rfl, by norm_num⟩ ?_
    · simpa [Binary64.val] using h
    rintro ⟨w, hw⟩
    rw [Binary64.val, Int.cast_one, one_mul, ← zpow_add₀ two_ne_zero] at hw
    norm_num at hw
    have hpos : (0 : ℚ) < w := by rw [← hw]; norm_num
    have hlt : (w : ℚ) < 1 := by rw [← hw]; norm_num
    have : (0 : ℤ) < w := by exact_mod_cast hpos
    have : w < (1 : ℤ) := by exact_mod_cast hlt
    omega
  · -- `6032057205060441 * 2^-26` is not an integer: the mantissa is odd
    have h := readNumber_writeNumber_of_not_isInt ⟨6032057205060441, -1049, by norm_num, by norm_num,
      by norm_num⟩ ?_
    · simpa [Binary64.val] using h
    rintro ⟨w, hw⟩
    rw [Binary64.val, mul_assoc, ← zpow_add₀ two_ne_zero] at hw
    norm_num at hw
    have hmul : (6032057205060441 : ℚ) = w * 2 ^ 26 := by rw [← hw]; norm_num
    have : (6032057205060441 : ℤ) = w * 2 ^ 26 := by exact_mod_cast hmul
    omega

end Noms.Types
