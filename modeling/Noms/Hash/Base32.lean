import Noms.Types.Value
import Noms.Lib.Digits

/-!
# The text of a hash (`go/hash`)

A hash prints as the base32 encoding of its twenty bytes with the alphabet `0-9a-v`
(`base32.go`). The standard library's encoding reads the bits most significant first, five at a
time; 160 bits are 32 symbols with no padding. `MaybeParse` accepts exactly the strings of
32 symbols of the alphabet (`^([0-9a-v]{32})$`) and decodes them.

The encoding is a bijection between hashes and the strings the pattern accepts, and it keeps the
order: `Less` on the bytes is `<` on the strings (`hash_string_bijection_order`). Both rest on one
fact of `Noms.Lib.Digits`: strings of digits of one width compare as the numbers they denote, for
bytes in base 256 and for symbols in base 32 alike, and 256 ^ 20 = 32 ^ 32.
-/

namespace Noms.Hash

open Noms.Lib Noms.Types

/-- `ByteLen`. -/
def ByteLen : Nat := 20

/-- `StringLen`: `20 * 8 / log2(32)`. -/
def StringLen : Nat := 32

/-- The alphabet of `base32.NewEncoding`. -/
def alphabet : List Char := "0123456789abcdefghijklmnopqrstuv".toList

/-- The symbol the encoding writes for a group of five bits. -/
def symbol (d : Nat) : Char := alphabet.getD d '='

/-- The encoding's decode map: the position of a symbol in the alphabet. -/
def symbolValue (c : Char) : Option Nat :=
  if c ∈ alphabet then some (alphabet.idxOf c) else none

/-- `encoding.EncodeToString(data)` on data whose bit length is a multiple of 5, as the standard
library encodes it: the bits most significant first, five at a time, with no padding. -/
def encode (data : List UInt8) : String :=
  String.ofList ((beDigits 32 (data.length * 8 / 5) (beNat data)).map symbol)

/-- `encoding.DecodeString(s)` on symbols of the alphabet: five bits each, read back into bytes;
a symbol off the alphabet is the decoder's error. -/
def decode (s : String) : Option (List UInt8) :=
  (s.toList.mapM symbolValue).map fun ds => beBytes (ds.length * 5 / 8) (digitsValue 32 ds)

/-- A character of the class `[0-9a-v]`. -/
def inClass (c : Char) : Bool :=
  ('0' ≤ c && c ≤ '9') || ('a' ≤ c && c ≤ 'v')

/-- `pattern.FindStringSubmatch(s) != nil` for the pattern `^([0-9a-v]{32})$`. -/
def matchesPattern (s : String) : Bool :=
  s.length == StringLen && s.toList.all inClass

/-- `emptyHash`. -/
def emptyHash : Hash := ⟨List.replicate ByteLen 0, rfl⟩

/-- `hash.New(data)`: panics unless there are `ByteLen` bytes. -/
def new (data : List UInt8) : Option Hash :=
  if h : data.length = ByteLen then some ⟨data, h⟩ else none

/-- `h.String()`. -/
def string (h : Hash) : String := encode h.bytes

/-- `MaybeParse(s)`: `(emptyHash, false)` off the pattern, else the decoded hash. -/
def maybeParse (s : String) : Option (Hash × Bool) :=
  if matchesPattern s then do
    let data ← decode s
    let h ← new data
    pure (h, true)
  else some (emptyHash, false)

/-! ## The alphabet -/

theorem symbol_lt_symbol_iff : ∀ d < 32, ∀ e < 32, symbol d < symbol e ↔ d < e := by
  decide

theorem symbolValue_symbol : ∀ d < 32, symbolValue (symbol d) = some d := by
  decide

theorem inClass_symbol : ∀ d < 32, inClass (symbol d) = true := by
  decide

/-- Every character of the class is a symbol, and its value gives it back. -/
theorem symbolValue_of_inClass {c : Char} (hc : inClass c = true) :
    ∃ d, d < 32 ∧ symbolValue c = some d ∧ symbol d = c := by
  have hclass : ∀ n < 119, ((48 ≤ n ∧ n ≤ 57) ∨ (97 ≤ n ∧ n ≤ 118)) → Char.ofNat n ∈ alphabet := by
    decide
  have hn : (48 ≤ c.toNat ∧ c.toNat ≤ 57) ∨ (97 ≤ c.toNat ∧ c.toNat ≤ 118) := by
    simp only [inClass, Bool.or_eq_true, Bool.and_eq_true, decide_eq_true_eq] at hc
    simp only [Char.le_def] at hc
    rcases hc with ⟨h₁, h₂⟩ | ⟨h₁, h₂⟩
    · left
      exact ⟨h₁, h₂⟩
    · right
      exact ⟨h₁, h₂⟩
  have hmem : c ∈ alphabet := by
    have := hclass c.toNat (by omega) hn
    rwa [Char.ofNat_toNat] at this
  refine ⟨alphabet.idxOf c, ?_, by simp [symbolValue, hmem], ?_⟩
  · exact List.idxOf_lt_length_iff.mpr hmem
  · simp [symbol, List.getD_eq_getElem?_getD, List.getElem?_idxOf hmem]

theorem symbol_injective {d e : Nat} (hd : d < 32) (he : e < 32) (h : symbol d = symbol e) :
    d = e := by
  have hv := congrArg symbolValue h
  rw [symbolValue_symbol d hd, symbolValue_symbol e he] at hv
  exact Option.some.inj hv

theorem mapM_symbolValue_map {ds : List Nat} (h : ∀ d ∈ ds, d < 32) :
    (ds.map symbol).mapM symbolValue = some ds := by
  induction ds with
  | nil => rfl
  | cons d ds ih =>
    simp [List.mapM_cons, symbolValue_symbol d (h d List.mem_cons_self),
      ih fun e he => h e (List.mem_cons_of_mem _ he)]

/-- Symbols of the class decode to digits that encode back to them. -/
theorem mapM_symbolValue_of_inClass :
    ∀ {cs : List Char}, (∀ c ∈ cs, inClass c = true) →
      ∃ ds, cs.mapM symbolValue = some ds ∧ ds.map symbol = cs ∧ ∀ d ∈ ds, d < 32
  | [], _ => ⟨[], rfl, rfl, fun _ h => absurd h List.not_mem_nil⟩
  | c :: cs, h => by
    obtain ⟨d, hd, hval, hsym⟩ := symbolValue_of_inClass (h c List.mem_cons_self)
    obtain ⟨ds, hmap, hback, hlt⟩ :=
      mapM_symbolValue_of_inClass fun c' hc' => h c' (List.mem_cons_of_mem _ hc')
    refine ⟨d :: ds, by simp [List.mapM_cons, hval, hmap], by simp [hsym, hback], ?_⟩
    intro e he
    rcases List.mem_cons.mp he with rfl | he
    · exact hd
    · exact hlt e he

/-! ## A hash and its text -/

theorem two_pow_160 : (256 : Nat) ^ 20 = 32 ^ 32 := by norm_num

theorem beNat_lt_of_length {data : List UInt8} (hlen : data.length = ByteLen) :
    beNat data < 32 ^ 32 := by
  have hlt := beNat_lt data
  rwa [hlen, ByteLen, two_pow_160] at hlt

theorem toList_string (h : Hash) :
    (string h).toList = (beDigits 32 32 (beNat h.bytes)).map symbol := by
  simp [string, encode, h.length_eq]

theorem lt_of_mem_digits {n d : Nat} (hd : d ∈ beDigits 32 32 n) : d < 32 :=
  lt_of_mem_beDigits (by decide) hd

theorem matchesPattern_string (h : Hash) : matchesPattern (string h) = true := by
  simp only [matchesPattern, Bool.and_eq_true, beq_iff_eq, List.all_eq_true]
  constructor
  · rw [← String.length_toList, toList_string]
    simp [StringLen]
  · intro c hc
    rw [toList_string] at hc
    obtain ⟨d, hd, rfl⟩ := List.mem_map.mp hc
    exact inClass_symbol d (lt_of_mem_digits hd)

theorem decode_string (h : Hash) : decode (string h) = some h.bytes := by
  rw [decode, toList_string, mapM_symbolValue_map fun d hd => lt_of_mem_digits hd, Option.map_some,
    length_beDigits, digitsValue_beDigits, Nat.mod_eq_of_lt (beNat_lt_of_length h.length_eq)]
  have hback := beBytes_beNat h.bytes
  rw [h.length_eq] at hback
  exact congrArg some hback

theorem maybeParse_string (h : Hash) : maybeParse (string h) = some (h, true) := by
  simp [maybeParse, matchesPattern_string h, decode_string h, new, h.length_eq, ByteLen]

/-- A string of the pattern parses, to the hash that prints as it. -/
theorem maybeParse_of_matchesPattern {s : String} (hs : matchesPattern s = true) :
    ∃ h, maybeParse s = some (h, true) ∧ string h = s := by
  simp only [matchesPattern, Bool.and_eq_true, beq_iff_eq, List.all_eq_true] at hs
  obtain ⟨hlen, hclass⟩ := hs
  obtain ⟨ds, hmap, hback, hlt⟩ := mapM_symbolValue_of_inClass hclass
  have hds : ds.length = 32 := by
    rw [← List.length_map (f := symbol), hback, String.length_toList, hlen, StringLen]
  set v := digitsValue 32 ds with hv
  have hvlt : v < 256 ^ 20 := by
    have hlt' := digitsValue_lt hlt
    rw [hds] at hlt'
    rw [two_pow_160]
    exact hlt'
  refine ⟨⟨beBytes 20 v, length_beBytes 20 v⟩, ?_, ?_⟩
  · simp [maybeParse, matchesPattern, hlen, StringLen, List.all_eq_true.mpr hclass, decode, hmap,
      hds, new, ByteLen, hv]
  · apply String.ext
    have hdigits := beDigits_digitsValue hlt
    rw [hds] at hdigits
    rw [toList_string, beNat_beBytes_of_lt hvlt, hv, hdigits, hback]

theorem maybeParse_of_not_matchesPattern {s : String} (hs : matchesPattern s = false) :
    maybeParse s = some (emptyHash, false) := by
  simp [maybeParse, hs]

/-- `Less` on the bytes is the order of the strings. -/
theorem less_iff_string_lt (h₁ h₂ : Hash) : h₁.Less h₂ = true ↔ string h₁ < string h₂ := by
  have hd₁ : ∀ d ∈ beDigits 32 32 (beNat h₁.bytes), d < 32 := fun _ hd => lt_of_mem_digits hd
  have hd₂ : ∀ d ∈ beDigits 32 32 (beNat h₂.bytes), d < 32 := fun _ hd => lt_of_mem_digits hd
  rw [Hash.Less, beq_iff_eq, bytesCompare_eq_lt_iff_beNat (h₁.length_eq.trans h₂.length_eq.symm),
    String.lt_iff, toList_string, toList_string,
    map_lt_map_iff symbol (· < 32) (fun x y hx hy => symbol_lt_symbol_iff x hx y hy)
      (fun _ _ hx hy h => symbol_injective hx hy h) hd₁ hd₂,
    lt_iff_digitsValue_lt (by simp) hd₁ hd₂, digitsValue_beDigits, digitsValue_beDigits,
    Nat.mod_eq_of_lt (beNat_lt_of_length h₁.length_eq),
    Nat.mod_eq_of_lt (beNat_lt_of_length h₂.length_eq)]

theorem hash_string_bijection_order :
    (∀ h : Hash, maybeParse (string h) = some (h, true)) ∧
      (∀ s : String, matchesPattern s = true → ∃ h, maybeParse s = some (h, true) ∧ string h = s) ∧
      (∀ s : String, matchesPattern s = false → maybeParse s = some (emptyHash, false)) ∧
      ∀ h₁ h₂ : Hash, h₁.Less h₂ = true ↔ string h₁ < string h₂ :=
  ⟨maybeParse_string, fun _ => maybeParse_of_matchesPattern,
    fun _ => maybeParse_of_not_matchesPattern, less_iff_string_lt⟩

/-- The all-zero text parses, to the hash that prints as it. -/
theorem hash_string_bijection_order_zeros :
    matchesPattern "00000000000000000000000000000000" = true ∧
      ∃ h, maybeParse "00000000000000000000000000000000" = some (h, true) ∧
        string h = "00000000000000000000000000000000" :=
  ⟨by decide, hash_string_bijection_order.2.1 _ (by decide)⟩

end Noms.Hash
