import Noms.Lib.BigEndian
import Noms.Lib.ByteOrder

/-!
# Fixed-width big-endian digits

`beDigits b k n` are the `k` digits of `n mod b^k` in base `b`, most significant first, and
`digitsValue b` reads digits back. On digits below `b` the two are inverse
(`digitsValue_beDigits`, `beDigits_digitsValue`), and two digit strings of one width compare
lexicographically as the numbers they denote (`lt_iff_digitsValue_lt`): the first differing digit
outweighs all that follow it. A byte string is the base-256 case (`digitsValue_byteVals`), so
`bytes.Compare` on strings of one length is the order of their big-endian values.

A map that is strictly monotone on the symbols in use carries the lexicographic order over
(`map_lt_map_iff`).
-/

namespace Noms.Lib

/-- The `k` digits of `n mod b^k` in base `b`, most significant first. -/
def beDigits (b : Nat) : Nat → Nat → List Nat
  | 0, _ => []
  | k + 1, n => n / b ^ k % b :: beDigits b k n

/-- The number that base-`b` digits denote, most significant first. -/
def digitsValue (b : Nat) : List Nat → Nat
  | [] => 0
  | d :: ds => d * b ^ ds.length + digitsValue b ds

section Digits

variable {b : Nat}

@[simp]
theorem length_beDigits (k n : Nat) : (beDigits b k n).length = k := by
  induction k with
  | zero => rfl
  | succ k ih => simp [beDigits, ih]

theorem lt_of_mem_beDigits (hb : 0 < b) {k n d : Nat} (h : d ∈ beDigits b k n) : d < b := by
  induction k with
  | zero => cases h
  | succ k ih =>
    rcases List.mem_cons.mp h with rfl | h
    · exact Nat.mod_lt _ hb
    · exact ih h

theorem digitsValue_lt {ds : List Nat} (h : ∀ d ∈ ds, d < b) : digitsValue b ds < b ^ ds.length := by
  induction ds with
  | nil => simp [digitsValue]
  | cons d ds ih =>
    have hd : d + 1 ≤ b := h d List.mem_cons_self
    have hv := ih fun e he => h e (List.mem_cons_of_mem _ he)
    -- the head digit and everything after it stay below one more unit of the head's place
    have hstep : (d + 1) * b ^ ds.length ≤ b * b ^ ds.length := Nat.mul_le_mul_right _ hd
    rw [Nat.succ_mul] at hstep
    rw [digitsValue, List.length_cons, Nat.pow_succ, Nat.mul_comm (b ^ ds.length) b]
    omega

theorem beDigits_mod (k n : Nat) : beDigits b k (n % b ^ k) = beDigits b k n := by
  induction k generalizing n with
  | zero => rfl
  | succ k ih =>
    have hdigit : n % b ^ (k + 1) / b ^ k % b = n / b ^ k % b := by
      rw [Nat.pow_succ, Nat.mod_mul_right_div_self, Nat.mod_mod]
    have htail : beDigits b k (n % b ^ (k + 1)) = beDigits b k n := by
      rw [← ih (n % b ^ (k + 1)), Nat.mod_mod_of_dvd _ (Nat.pow_dvd_pow b (Nat.le_succ k)), ih]
    simp only [beDigits, hdigit, htail]

@[simp]
theorem digitsValue_beDigits (k n : Nat) : digitsValue b (beDigits b k n) = n % b ^ k := by
  induction k with
  | zero => simp [beDigits, digitsValue, Nat.mod_one]
  | succ k ih =>
    rw [beDigits, digitsValue, length_beDigits, ih, Nat.mod_pow_succ, Nat.add_comm, Nat.mul_comm]

theorem beDigits_digitsValue {ds : List Nat} (h : ∀ d ∈ ds, d < b) :
    beDigits b ds.length (digitsValue b ds) = ds := by
  induction ds with
  | nil => rfl
  | cons d ds ih =>
    have hd : d < b := h d List.mem_cons_self
    have hv := digitsValue_lt fun e he => h e (List.mem_cons_of_mem _ he)
    have hpos : 0 < b ^ ds.length := Nat.pos_of_ne_zero fun h0 => by simp [h0] at hv
    have hdiv : (d * b ^ ds.length + digitsValue b ds) / b ^ ds.length = d := by
      rw [Nat.add_comm, Nat.add_mul_div_right _ _ hpos, Nat.div_eq_of_lt hv, Nat.zero_add]
    have hmod : (d * b ^ ds.length + digitsValue b ds) % b ^ ds.length = digitsValue b ds := by
      rw [Nat.add_comm, Nat.add_mul_mod_self_right, Nat.mod_eq_of_lt hv]
    have htail : beDigits b ds.length (d * b ^ ds.length + digitsValue b ds) = ds := by
      rw [← beDigits_mod, hmod, ih fun e he => h e (List.mem_cons_of_mem _ he)]
    simp only [List.length_cons, beDigits, digitsValue, hdiv, Nat.mod_eq_of_lt hd, htail]

/-- Digit strings of one width compare as the numbers they denote. -/
theorem lt_iff_digitsValue_lt :
    ∀ {ds es : List Nat}, ds.length = es.length → (∀ d ∈ ds, d < b) → (∀ e ∈ es, e < b) →
      (ds < es ↔ digitsValue b ds < digitsValue b es)
  | [], [], _, _, _ => by simp [digitsValue]
  | d :: ds, e :: es, hlen, hd, he => by
    have hlen' : ds.length = es.length := by simpa using hlen
    have hv := digitsValue_lt fun x hx => hd x (List.mem_cons_of_mem _ hx)
    have hw := digitsValue_lt fun x hx => he x (List.mem_cons_of_mem _ hx)
    have ih := lt_iff_digitsValue_lt hlen' (fun x hx => hd x (List.mem_cons_of_mem _ hx))
      (fun x hx => he x (List.mem_cons_of_mem _ hx))
    rw [← hlen'] at hw
    rw [List.cons_lt_cons_iff, digitsValue, digitsValue, ← hlen']
    constructor
    · rintro (hde | ⟨rfl, hlt⟩)
      · -- a smaller leading digit outweighs any tail
        have hstep : (d + 1) * b ^ ds.length ≤ e * b ^ ds.length := Nat.mul_le_mul_right _ hde
        rw [Nat.succ_mul] at hstep
        omega
      · exact Nat.add_lt_add_left (ih.mp hlt) _
    · intro hlt
      rcases Nat.lt_trichotomy d e with hde | rfl | hed
      · exact .inl hde
      · exact .inr ⟨rfl, ih.mpr (by omega)⟩
      · have hstep : (e + 1) * b ^ ds.length ≤ d * b ^ ds.length := Nat.mul_le_mul_right _ hed
        rw [Nat.succ_mul] at hstep
        omega

end Digits

/-- A byte string is its big-endian value's base-256 digits. -/
theorem digitsValue_byteVals (bs : List UInt8) : digitsValue 256 (byteVals bs) = beNat bs := by
  induction bs with
  | nil => rfl
  | cons x bs ih =>
    rw [byteVals_cons, digitsValue, ih, beNat_cons]
    simp [byteVals]

theorem lt_of_mem_byteVals {bs : List UInt8} {d : Nat} (h : d ∈ byteVals bs) : d < 256 := by
  obtain ⟨x, -, rfl⟩ := List.mem_map.mp h
  exact x.toNat_lt

/-- `bytes.Compare` on byte strings of one length is the order of their big-endian values. -/
theorem bytesCompare_eq_lt_iff_beNat {a c : List UInt8} (hlen : a.length = c.length) :
    bytesCompare a c = .lt ↔ beNat a < beNat c := by
  rw [bytesCompare_eq_lt_iff, lt_iff_digitsValue_lt (b := 256) (by simpa [byteVals] using hlen)
    (fun _ => lt_of_mem_byteVals) (fun _ => lt_of_mem_byteVals), digitsValue_byteVals,
    digitsValue_byteVals]

/-- A map that is strictly monotone and injective on the symbols in use carries the
lexicographic order of lists over. -/
theorem map_lt_map_iff {α β : Type} [LT α] [LT β] (f : α → β) (S : α → Prop)
    (hlt : ∀ x y, S x → S y → (f x < f y ↔ x < y)) (hinj : ∀ x y, S x → S y → f x = f y → x = y) :
    ∀ {l₁ l₂ : List α}, (∀ x ∈ l₁, S x) → (∀ y ∈ l₂, S y) → (l₁.map f < l₂.map f ↔ l₁ < l₂)
  | [], [], _, _ => by simp
  | [], _ :: _, _, _ => by simp [List.nil_lt_cons]
  | _ :: _, [], _, _ => by simp [List.not_lt_nil]
  | x :: l₁, y :: l₂, h₁, h₂ => by
    have hx := h₁ x List.mem_cons_self
    have hy := h₂ y List.mem_cons_self
    have ih := map_lt_map_iff f S hlt hinj (fun z hz => h₁ z (List.mem_cons_of_mem _ hz))
      (fun z hz => h₂ z (List.mem_cons_of_mem _ hz))
    have heq : f x = f y ↔ x = y := ⟨hinj x y hx hy, fun h => h ▸ rfl⟩
    rw [List.map_cons, List.map_cons, List.cons_lt_cons_iff, List.cons_lt_cons_iff, hlt x y hx hy,
      heq, ih]

end Noms.Lib
