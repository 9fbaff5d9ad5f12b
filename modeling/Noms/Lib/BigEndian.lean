import Mathlib.Tactic.Ring
import Mathlib.Tactic.Positivity
import Mathlib.Tactic.Linarith

/-!
# Big-endian byte strings of bounded naturals

A fixed-width unsigned integer written most significant byte first (`beBytes k n`, the `k`
bytes of `n mod 256^k`) and read back (`beNat`). The two are inverse on `k`-byte strings and on
naturals below `256^k` (`beNat_beBytes`, `beBytes_beNat`). Nothing here is specific to one
program: these are the laws every fixed-width big-endian field of a binary format is read by.
-/

namespace Noms.Lib

/-- The `k` big-endian bytes of `n mod 256^k`. -/
def beBytes : Nat → Nat → List UInt8
  | 0, _ => []
  | k + 1, n => UInt8.ofNat (n / 256 ^ k % 256) :: beBytes k n

/-- The natural number a big-endian byte string denotes. -/
def beNat : List UInt8 → Nat
  | [] => 0
  | b :: bs => b.toNat * 256 ^ bs.length + beNat bs

@[simp] theorem beBytes_zero (n : Nat) : beBytes 0 n = [] := rfl

@[simp] theorem beNat_nil : beNat [] = 0 := rfl

@[simp] theorem beNat_cons (b : UInt8) (bs : List UInt8) :
    beNat (b :: bs) = b.toNat * 256 ^ bs.length + beNat bs := rfl

@[simp] theorem length_beBytes (k n : Nat) : (beBytes k n).length = k := by
  induction k with
  | zero => rfl
  | succ k ih => simp [beBytes, ih]

theorem beNat_lt (bs : List UInt8) : beNat bs < 256 ^ bs.length := by
  induction bs with
  | nil => simp
  | cons b bs ih =>
    have hb : b.toNat < 256 := b.toNat_lt
    have hstep : (b.toNat + 1) * 256 ^ bs.length ≤ 256 * 256 ^ bs.length :=
      Nat.mul_le_mul_right _ hb
    simp only [beNat_cons, List.length_cons, pow_succ]
    nlinarith

/-- The written bytes depend on the value only modulo `256^k`. -/
theorem beBytes_mod (k n : Nat) : beBytes k (n % 256 ^ k) = beBytes k n := by
  induction k generalizing n with
  | zero => rfl
  | succ k ih =>
    have hdigit : n % 256 ^ (k + 1) / 256 ^ k % 256 = n / 256 ^ k % 256 := by
      rw [pow_succ, Nat.mod_mul_right_div_self, Nat.mod_mod]
    have htail : beBytes k (n % 256 ^ (k + 1)) = beBytes k n := by
      rw [← ih (n % 256 ^ (k + 1)), Nat.mod_mod_of_dvd _ (pow_dvd_pow 256 (Nat.le_succ k)), ih]
    simp only [beBytes, hdigit, htail]

/-- Reading back `k` written bytes gives the written value modulo `256^k`. -/
@[simp] theorem beNat_beBytes (k n : Nat) : beNat (beBytes k n) = n % 256 ^ k := by
  induction k with
  | zero => simp [Nat.mod_one]
  | succ k ih =>
    have hdigit : (UInt8.ofNat (n / 256 ^ k % 256)).toNat = n / 256 ^ k % 256 := by
      simp [Nat.mod_mod_of_dvd]
    rw [beBytes, beNat_cons, length_beBytes, ih, hdigit, Nat.mod_pow_succ]
    ring

theorem beNat_beBytes_of_lt {k n : Nat} (h : n < 256 ^ k) : beNat (beBytes k n) = n := by
  rw [beNat_beBytes, Nat.mod_eq_of_lt h]

/-- Writing back what was read reproduces the bytes. -/
@[simp] theorem beBytes_beNat (bs : List UInt8) : beBytes bs.length (beNat bs) = bs := by
  induction bs with
  | nil => rfl
  | cons b bs ih =>
    have hlt := beNat_lt bs
    have hpos : 0 < 256 ^ bs.length := by positivity
    have hdiv : (b.toNat * 256 ^ bs.length + beNat bs) / 256 ^ bs.length = b.toNat := by
      rw [Nat.add_comm, Nat.add_mul_div_right _ _ hpos, Nat.div_eq_of_lt hlt, Nat.zero_add]
    have hmod : (b.toNat * 256 ^ bs.length + beNat bs) % 256 ^ bs.length = beNat bs := by
      rw [Nat.add_comm, Nat.add_mul_mod_self_right, Nat.mod_eq_of_lt hlt]
    have htail : beBytes bs.length (b.toNat * 256 ^ bs.length + beNat bs) = bs := by
      rw [← beBytes_mod, hmod, ih]
    simp only [List.length_cons, beBytes, beNat_cons, hdiv, htail,
      Nat.mod_eq_of_lt b.toNat_lt, UInt8.ofNat_toNat]

theorem beBytes_injective {k m n : Nat} (hm : m < 256 ^ k) (hn : n < 256 ^ k)
    (h : beBytes k m = beBytes k n) : m = n := by
  rw [← beNat_beBytes_of_lt hm, ← beNat_beBytes_of_lt hn, h]

example : beBytes 4 258 = [0, 0, 1, 2] := by decide

end Noms.Lib
