import Noms.Lib.BigEndian
import Noms.Lib.Fields

/-!
# The bytes the rolling hash sees (`rolling_value_hasher.go`, `rolling-value-hasher.js`)

The prolly-tree chunker places a boundary where the buzhash of the last bytes of the level's
item stream hits a pattern. Those bytes come from a second `nomsWriter` in each implementation,
the rolling value hasher: it receives the calls the value encoder makes and feeds the bytes
the binary writer would write, leaving out the type bytes (`appendType`), to buzhash.

A call is `WriterCall`; each writer is a function from a call to the bytes it writes or
hashes, and a stream is the concatenation over the encoder's calls. Go's two writers and JS's
binary writer write a `uint32` as its four big-endian bytes. The JS hasher masks each of those
bytes with `0x000f` (`jsHashUint32`), in `writeUint32` and through it in `writeUint64`
and in a string's length. `writeNumber` carries the two integers `float64ToIntExp` gives; both
implementations write them as signed varints, taken here as Go's `PutVarint`.
-/

namespace Noms.Types

open Noms.Lib

/-- A call of the value encoder on its `nomsWriter`. A Go `string` is its bytes; the JS writers
get the UTF-8 bytes of theirs. -/
inductive WriterCall
  | writeBytes (v : List UInt8)
  | writeUint8 (v : UInt8)
  | writeUint32 (v : Nat)
  | writeUint64 (v : Nat)
  | writeNumber (i exp : Int)
  | writeBool (v : Bool)
  | writeString (v : List UInt8)
  | writeHash (h : List UInt8)
  | appendType (serialization : List UInt8)
deriving DecidableEq

/-- `binary.PutUvarint`, seven bits a byte, low group first, with at most `fuel` bytes (ten
hold a `uint64`). -/
def putUvarint : Nat → Nat → List UInt8
  | 0, _ => []
  | fuel + 1, x =>
    if x < 0x80 then [UInt8.ofNat x] else UInt8.ofNat (x % 0x80 + 0x80) :: putUvarint fuel (x / 0x80)

/-- `binary.PutVarint`: the zig-zag code of `x` (`uint64(x) << 1`, complemented when `x < 0`). -/
def putVarint (x : Int) : List UInt8 :=
  putUvarint 10 (if 0 ≤ x then 2 * x.toNat else 2 * (-x).toNat - 1)

/-- `byte(v >> 24), byte(v >> 16), byte(v >> 8), byte(v)`: a `uint32` as every Go writer and
JS's `writeUint32(buf, value, offset)` write it. -/
def uint32Bytes (v : Nat) : List UInt8 :=
  [UInt8.ofNat (v / 2 ^ 24), UInt8.ofNat (v / 2 ^ 16), UInt8.ofNat (v / 2 ^ 8), UInt8.ofNat v]

/-- `byte(v >> 56), …, byte(v)`. -/
def uint64Bytes (v : Nat) : List UInt8 :=
  [UInt8.ofNat (v / 2 ^ 56), UInt8.ofNat (v / 2 ^ 48), UInt8.ofNat (v / 2 ^ 40),
    UInt8.ofNat (v / 2 ^ 32), UInt8.ofNat (v / 2 ^ 24), UInt8.ofNat (v / 2 ^ 16),
    UInt8.ofNat (v / 2 ^ 8), UInt8.ofNat v]

/-- The bytes Go's `binaryNomsWriter` appends for one call. -/
def binaryNomsWriter.bytes : WriterCall → List UInt8
  | .writeBytes v => v
  | .writeUint8 v => [v]
  | .writeUint32 v => uint32Bytes v
  | .writeUint64 v => uint64Bytes v
  | .writeNumber i exp => putVarint i ++ putVarint exp
  | .writeBool v => [if v then 1 else 0]
  -- `size := uint32(len(v))`
  | .writeString v => uint32Bytes (v.length % 2 ^ 32) ++ v
  | .writeHash h => h
  | .appendType serialization => serialization

/-- The bytes Go's `rollingValueHasher` passes to `HashByte` for one call. -/
def rollingValueHasher.hashed : WriterCall → List UInt8
  | .writeBytes v => v
  | .writeUint8 v => [v]
  | .writeUint32 v => uint32Bytes v
  | .writeUint64 v => uint64Bytes v
  | .writeNumber i exp => putVarint i ++ putVarint exp
  | .writeBool v => [if v then 1 else 0]
  | .writeString v => uint32Bytes (v.length % 2 ^ 32) ++ v
  | .writeHash h => h
  -- type bytes aren't included in the byte stream we chunk over
  | .appendType _ => []

namespace JS

/-- `Number.MAX_SAFE_INTEGER`. -/
def MAX_SAFE_INTEGER : Nat := 2 ^ 53 - 1

/-- `maxUint32` of `binary-rw.js`. -/
def maxUint32 : Nat := 2 ^ 32

/-- The bytes `BinaryWriter` appends for one call; `none` for the `invariant` of
`writeUint64`. -/
def BinaryWriter.bytes : WriterCall → Option (List UInt8)
  | .writeBytes v => some v
  | .writeUint8 v => some [v]
  | .writeUint32 v => some (uint32Bytes v)
  | .writeUint64 v =>
    if v ≤ MAX_SAFE_INTEGER then some (uint32Bytes (v / maxUint32) ++ uint32Bytes (v % maxUint32))
    else none
  | .writeNumber i exp => some (putVarint i ++ putVarint exp)
  | .writeBool v => some [if v then 1 else 0]
  | .writeString v => some (uint32Bytes v.length ++ v)
  | .writeHash h => some h
  | .appendType serialization => some serialization

/-- `RollingValueHasher.writeUint32`: `hashByte((v >>> k) & 0x000f)` for `k = 24, 16, 8, 0`. -/
def hashUint32 (v : Nat) : List UInt8 :=
  [UInt8.ofNat (v % 2 ^ 32 / 2 ^ 24 % 16), UInt8.ofNat (v % 2 ^ 32 / 2 ^ 16 % 16),
    UInt8.ofNat (v % 2 ^ 32 / 2 ^ 8 % 16), UInt8.ofNat (v % 16)]

/-- The bytes JS's `RollingValueHasher` passes to `hashByte` for one call. -/
def RollingValueHasher.hashed : WriterCall → Option (List UInt8)
  | .writeBytes v => some v
  | .writeUint8 v => some [v]
  | .writeUint32 v => some (hashUint32 v)
  | .writeUint64 v =>
    if v ≤ MAX_SAFE_INTEGER then some (hashUint32 (v / maxUint32) ++ hashUint32 (v % maxUint32))
    else none
  | .writeNumber i exp => some (putVarint i ++ putVarint exp)
  | .writeBool v => some [if v then 1 else 0]
  | .writeString v => some (hashUint32 v.length ++ v)
  | .writeHash h => some h
  | .appendType _ => some []

end JS

/-! ## Streams -/

/-- What a writer makes of the encoder's calls. -/
def stream (w : WriterCall → List UInt8) (calls : List WriterCall) : List UInt8 :=
  (calls.map w).flatten

/-- The same for a writer that may panic. -/
def streamM (w : WriterCall → Option (List UInt8)) (calls : List WriterCall) :
    Option (List UInt8) :=
  (calls.mapM w).map List.flatten

/-- A call that writes no type bytes. -/
def WriterCall.isValueCall : WriterCall → Bool
  | .appendType _ => false
  | _ => true

@[simp] theorem stream_nil (w : WriterCall → List UInt8) : stream w [] = [] := rfl

@[simp] theorem stream_cons (w : WriterCall → List UInt8) (c : WriterCall) (calls : List WriterCall) :
    stream w (c :: calls) = w c ++ stream w calls := rfl

/-! ## Go: the hasher sees the encoding without its types -/

/-- On every call but `appendType` Go's hasher hashes what the binary writer writes. -/
theorem hashed_eq_bytes : ∀ c : WriterCall, c.isValueCall →
    rollingValueHasher.hashed c = binaryNomsWriter.bytes c
  | .appendType _, h => by simp [WriterCall.isValueCall] at h
  | .writeBytes _, _ | .writeUint8 _, _ | .writeUint32 _, _ | .writeUint64 _, _
  | .writeNumber _ _, _ | .writeBool _, _ | .writeString _, _ | .writeHash _, _ => rfl

/-- The bytes Go chunks over are the value's binary encoding with the type bytes left out. -/
theorem rollingValueHasher_stream (calls : List WriterCall) :
    stream rollingValueHasher.hashed calls =
      stream binaryNomsWriter.bytes (calls.filter WriterCall.isValueCall) := by
  induction calls with
  | nil => rfl
  | cons c calls ih =>
    cases hc : c.isValueCall
    · -- a type: nothing hashed, nothing kept
      cases c <;> simp_all [WriterCall.isValueCall, rollingValueHasher.hashed]
    · rw [List.filter_cons_of_pos hc, stream_cons, stream_cons, hashed_eq_bytes c hc, ih]

/-! ## JS: the binary writer agrees, the hasher masks -/

/-- Bytes are numbers modulo 256. -/
theorem uint8_ofNat_eq_iff (a b : Nat) : UInt8.ofNat a = UInt8.ofNat b ↔ a % 256 = b % 256 := by
  simp [UInt8.ofNat_eq_iff_mod_eq_toNat]

theorem uint8_ofNat_mod_sixteen (n : Nat) : UInt8.ofNat n % 16 = UInt8.ofNat (n % 256 % 16) := by
  apply UInt8.toNat.inj
  simp only [UInt8.toNat_mod, UInt8.toNat_ofNat', UInt8.reduceToNat]
  omega

theorem uint32Bytes_mod (v : Nat) : uint32Bytes (v % 2 ^ 32) = uint32Bytes v := by
  simp only [uint32Bytes, List.cons.injEq, uint8_ofNat_eq_iff, and_true]
  omega

/-- A `uint64` is its high and its low `uint32`, in that order. -/
theorem uint64Bytes_eq (v : Nat) :
    uint64Bytes v = uint32Bytes (v / 2 ^ 32) ++ uint32Bytes (v % 2 ^ 32) := by
  rw [uint32Bytes_mod]
  simp only [uint64Bytes, uint32Bytes, List.cons_append, List.nil_append, Nat.div_div_eq_div_mul]
  norm_num

/-- JS's binary writer writes what Go's does, on every call whose `uint64` is a safe integer. -/
theorem jsBinaryWriter_bytes (c : WriterCall)
    (hsafe : ∀ v, c = .writeUint64 v → v ≤ JS.MAX_SAFE_INTEGER) :
    JS.BinaryWriter.bytes c = some (binaryNomsWriter.bytes c) := by
  cases c with
  | writeUint64 v =>
    rw [JS.BinaryWriter.bytes, if_pos (hsafe v rfl), binaryNomsWriter.bytes, uint64Bytes_eq]
    rfl
  | writeString v =>
    rw [JS.BinaryWriter.bytes, binaryNomsWriter.bytes, uint32Bytes_mod]
  | _ => rfl

/-- JS's binary writer encodes a value as Go's does, while every `uint64` written (a ref's
height, a sequence's length) is a safe integer. -/
theorem jsBinaryWriter_stream (calls : List WriterCall)
    (hsafe : ∀ v, .writeUint64 v ∈ calls → v ≤ JS.MAX_SAFE_INTEGER) :
    streamM JS.BinaryWriter.bytes calls = some (stream binaryNomsWriter.bytes calls) := by
  have hcall : ∀ c ∈ calls, JS.BinaryWriter.bytes c = some (binaryNomsWriter.bytes c) :=
    fun c hc => jsBinaryWriter_bytes c fun v hv => hsafe v (hv ▸ hc)
  rw [streamM, mapM_eq_some_of calls _ _ hcall]
  rfl

/-- JS's hasher hashes each byte of a `uint32` masked to its low four bits. -/
theorem jsHashUint32 (v : Nat) : JS.hashUint32 v = (uint32Bytes v).map (· % 16) := by
  simp only [JS.hashUint32, uint32Bytes, List.map_cons, List.map_nil, uint8_ofNat_mod_sixteen,
    List.cons.injEq, uint8_ofNat_eq_iff, and_true]
  omega

/-- The masked bytes are other bytes once the low byte of the `uint32` is 16 or more. -/
theorem jsHashUint32_ne (v : Nat) (h : 16 ≤ v % 256) : JS.hashUint32 v ≠ uint32Bytes v := by
  rw [jsHashUint32]
  intro heq
  simp only [uint32Bytes, List.map_cons, List.map_nil, List.cons.injEq, and_true] at heq
  have hlow := congrArg UInt8.toNat heq.2.2.2
  simp [UInt8.toNat_mod] at hlow
  omega

/-- Every String of 16 to 255 bytes (more generally, whose length's low byte is 16 or more):
Go hashes the value's encoding without its type, and JS hashes other bytes, since its
`writeUint32` masks the length's last byte to `length % 16`. -/
theorem jsHasher_string_differs (t s : List UInt8) (h : 16 ≤ s.length % 256) :
    stream rollingValueHasher.hashed [.appendType t, .writeString s] =
        stream binaryNomsWriter.bytes
          ([.appendType t, .writeString s].filter WriterCall.isValueCall) ∧
      streamM JS.RollingValueHasher.hashed [.appendType t, .writeString s] ≠
        some (stream rollingValueHasher.hashed [.appendType t, .writeString s]) := by
  refine ⟨rollingValueHasher_stream _, fun heq => jsHashUint32_ne s.length h ?_⟩
  rw [← uint32Bytes_mod]
  simpa [streamM, JS.RollingValueHasher.hashed, rollingValueHasher.hashed, uint32Bytes_mod]
    using heq

theorem jsHasher_string_differs_sixteen :
    stream rollingValueHasher.hashed [.appendType [2], .writeString (List.replicate 16 0x61)] =
        stream binaryNomsWriter.bytes
          ([.appendType [2], .writeString (List.replicate 16 0x61)].filter
            WriterCall.isValueCall) ∧
      streamM JS.RollingValueHasher.hashed [.appendType [2], .writeString (List.replicate 16 0x61)] ≠
        some (stream rollingValueHasher.hashed
          [.appendType [2], .writeString (List.replicate 16 0x61)]) :=
  jsHasher_string_differs [2] (List.replicate 16 0x61) (by decide)

end Noms.Types
