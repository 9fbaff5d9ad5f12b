import Noms.Lib.BigEndian
import Mathlib.Data.List.Sort

/-!
# NBS tables: addresses, format constants and the library calls of the table code

An NBS table stores chunks addressed by 20-byte hashes (`addr`), laid out as
`chunk records | index | footer` (`go/nbs/table.go`). This module holds what the writer, the
reader and the store share: the address type with its 8-byte big-endian prefix and 12-byte
suffix (an address is determined by the two, `Addr.ext_prefix_suffix`), the size constants of
the format, and the library functions the code calls but does not define (`TableLib`): snappy's
block codec, the CRC-32C checksum, `sort.Sort` on records keyed by a number, and the sha512
digest that names a table. `TableLib.Lawful` is what the code relies on of them: snappy decodes
what it encoded, and `sort.Sort` returns a sorted permutation. The order of records with equal
keys is left open, as `sort.Sort` is not stable.
-/

namespace Noms.Nbs

open Noms.Lib

/-! ## Format constants (`table.go`) -/

def addrSize : Nat := 20
def addrPrefixSize : Nat := 8
def addrSuffixSize : Nat := addrSize - addrPrefixSize
def uint64Size : Nat := 8
def uint32Size : Nat := 4
def ordinalSize : Nat := uint32Size
def lengthSize : Nat := uint32Size
def magicNumber : List UInt8 := [0xff, 0xb5, 0xd8, 0xc2, 0x24, 0x63, 0xee, 0x50]
def magicNumberSize : Nat := magicNumber.length
def footerSize : Nat := uint32Size + uint64Size + magicNumberSize
def prefixTupleSize : Nat := addrPrefixSize + ordinalSize
def checksumSize : Nat := uint32Size

/-! ## Addresses -/

/-- `addr`: a 20-byte chunk address. -/
structure Addr where
  bytes : List UInt8
  length_eq : bytes.length = addrSize
deriving DecidableEq

namespace Addr

/-- `addr.Prefix`: the first eight bytes read as a big-endian `uint64`. -/
def Prefix (a : Addr) : Nat := beNat (a.bytes.take addrPrefixSize)

/-- `a[addrPrefixSize:]`: the last twelve bytes. -/
def suffix (a : Addr) : List UInt8 := a.bytes.drop addrPrefixSize

theorem prefix_lt (a : Addr) : a.Prefix < 2 ^ 64 := by
  have h := beNat_lt (a.bytes.take addrPrefixSize)
  have hlen : (a.bytes.take addrPrefixSize).length = 8 := by
    simp [a.length_eq, addrSize, addrPrefixSize]
  rw [hlen] at h
  simpa [Addr.Prefix] using h.trans_le (by norm_num)

@[simp] theorem length_suffix (a : Addr) : a.suffix.length = addrSuffixSize := by
  simp [suffix, a.length_eq, addrSuffixSize, addrSize, addrPrefixSize]

/-- The prefix bytes are the big-endian bytes of the prefix. -/
theorem beBytes_Prefix (a : Addr) : beBytes 8 a.Prefix = a.bytes.take addrPrefixSize := by
  have hlen : (a.bytes.take addrPrefixSize).length = 8 := by
    simp [a.length_eq, addrSize, addrPrefixSize]
  rw [Addr.Prefix, ← hlen, beBytes_beNat]

/-- An address is its prefix bytes followed by its suffix. -/
theorem bytes_eq (a : Addr) : a.bytes = beBytes 8 a.Prefix ++ a.suffix := by
  rw [beBytes_Prefix, suffix, List.take_append_drop]

theorem ext_bytes {a b : Addr} (h : a.bytes = b.bytes) : a = b := by
  cases a
  cases b
  simp_all

theorem ext_prefix_suffix {a b : Addr} (hp : a.Prefix = b.Prefix) (hs : a.suffix = b.suffix) :
    a = b :=
  ext_bytes (by rw [bytes_eq a, bytes_eq b, hp, hs])

end Addr

/-! ## The library calls of the table code -/

/-- `prefixIndexRec`: one chunk's entry in the index under construction. -/
structure PrefixIndexRec where
  Prefix : Nat
  suffix : List UInt8
  order : Nat
  size : Nat
deriving DecidableEq

/-- The functions the table code calls from libraries: `snappy.Encode`, `snappy.Decode`
(`none` for its error), the CRC-32C `crc`, `sort.Sort` on a slice whose `Less` compares a
numeric key, and the first 20 bytes of the sha512 sum of the bytes a `tableWriter` hashed. -/
structure TableLib where
  snappyEncode : List UInt8 → List UInt8
  snappyDecode : List UInt8 → Option (List UInt8)
  crc : List UInt8 → UInt32
  sortBy : {α : Type} → (α → Nat) → List α → List α
  blockHashSum : List UInt8 → Addr

/-- What the table code relies on of its libraries. -/
structure TableLib.Lawful (L : TableLib) : Prop where
  decode_encode : ∀ x, L.snappyDecode (L.snappyEncode x) = some x
  sortBy_perm : ∀ {α : Type} (key : α → Nat) (l : List α), (L.sortBy key l).Perm l
  sortBy_sorted : ∀ {α : Type} (key : α → Nat) (l : List α),
    (L.sortBy key l).Pairwise (fun a b => key a ≤ key b)

/-- A lawful sort of any permutation of a list sorted by distinct keys gives back that list: with
distinct keys the instability of `sort.Sort` cannot show. -/
theorem TableLib.sortBy_eq_of_perm {L : TableLib} (hL : L.Lawful) {α : Type} (key : α → Nat)
    {l l' : List α} (hp : l'.Perm l) (hs : l.Pairwise fun a b => key a < key b) :
    L.sortBy key l' = l := by
  have hnd : (l.map key).Nodup := (List.pairwise_map.mpr hs).imp Nat.ne_of_lt
  refine List.Perm.eq_of_pairwise ?_ (hL.sortBy_sorted key l')
    (hs.imp Nat.le_of_lt) ((hL.sortBy_perm key l').trans hp)
  intro a b ha hb hab hba
  have ha' : a ∈ l := ((hL.sortBy_perm key l').trans hp).subset ha
  exact List.inj_on_of_nodup_map hnd ha' hb (Nat.le_antisymm hab hba)

/-- The zero address, `addr{}`. -/
def Addr.zero : Addr := ⟨List.replicate addrSize 0, by simp⟩

/-- A lawful instance: the identity codec, a zero checksum and a stable merge sort. -/
def TableLib.plain : TableLib where
  snappyEncode := id
  snappyDecode := some
  crc := fun _ => 0
  sortBy := fun key l => l.mergeSort (fun a b => decide (key a ≤ key b))
  blockHashSum := fun _ => Addr.zero

theorem TableLib.plain_lawful : TableLib.plain.Lawful where
  decode_encode := fun _ => rfl
  sortBy_perm := fun _ l => List.mergeSort_perm l _
  sortBy_sorted := fun key l => by
    have h : (l.mergeSort fun a b => decide (key a ≤ key b)).Pairwise
        (fun a b => decide (key a ≤ key b)) :=
      List.pairwise_mergeSort (fun a b c hab hbc => by simp only [decide_eq_true_eq] at *; omega)
        (fun a b => by simp only [Bool.or_eq_true, decide_eq_true_eq]; omega) l
    exact h.imp (fun hab => by simpa using hab)

end Noms.Nbs
