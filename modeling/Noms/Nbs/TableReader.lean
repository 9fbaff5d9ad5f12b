import Noms.Nbs.Table
import Noms.Lib.Search
import Mathlib

/-!
# The table reader (`go/nbs/table_reader.go`)

`parseTableIndex` reads a table from its end: the footer's magic number and chunk count, then
the suffixes, the lengths (from which `computeOffsets` rebuilds each record's offset as the sum
of the lengths before it) and the prefix tuples. A lookup binary-searches the sorted prefixes
(`prefixIdx`, the inlined loop of `sort.Search`) and scans the run of equal prefixes, comparing
each entry's suffix at its ordinal (`lookupOrdinal`).

Every panic of the code (a failed `d.Chk`, a slice or index out of range, a short `ReadAt`) is
`none`. `get` answers `some none` for the code's `nil`, an absent chunk. The table is read
through a `bytes.Reader` over its bytes.
-/

namespace Noms.Nbs

open Noms.Lib

/-- `binary.BigEndian.Uint32(b)`, which panics on fewer than four bytes. -/
def readUint32 (b : List UInt8) : Option Nat :=
  if uint32Size ≤ b.length then some (beNat (b.take uint32Size)) else none

/-- `binary.BigEndian.Uint64(b)`. -/
def readUint64 (b : List UInt8) : Option Nat :=
  if uint64Size ≤ b.length then some (beNat (b.take uint64Size)) else none

/-- `r.ReadAt(buff, off)` on a `bytes.Reader` over `r`, checked to fill `buff` (`d.Chk`). -/
def readAt (r : List UInt8) (off len : Nat) : Option (List UInt8) :=
  if off < r.length ∧ off + len ≤ r.length then some ((r.drop off).take len) else none

/-- `tableIndex`. -/
structure TableIndex where
  chunkCount : Nat
  prefixes : List Nat
  offsets : List Nat
  lengths : List Nat
  ordinals : List Nat
  suffixes : List UInt8

/-- `offsets[i] = offsets[i-1] + lengths[i-1]`, from `offsets[0] = 0`. -/
def prefixSums (acc : Nat) : List Nat → List Nat
  | [] => []
  | l :: ls => acc :: prefixSums (acc + l) ls

/-- `computeOffsets`; reading `lengths[0]` panics on an empty table. -/
def computeOffsets (count : Nat) (buff : List UInt8) : Option (List Nat × List Nat) :=
  if count = 0 then none else do
    let lengths ← (List.range count).mapM fun i => readUint32 (buff.drop (i * lengthSize))
    some (lengths, prefixSums 0 lengths)

/-- `computePrefixes`. -/
def computePrefixes (count : Nat) (buff : List UInt8) : Option (List Nat × List Nat) := do
  let tuples ← (List.range count).mapM fun i => do
    let idx := i * prefixTupleSize
    let p ← readUint64 (buff.drop idx)
    let o ← readUint32 (buff.drop (idx + addrPrefixSize))
    some (p, o)
  some (tuples.map Prod.fst, tuples.map Prod.snd)

/-- `parseTableIndex`. The `uint64` position counts down from the end of the buffer; a step
below zero wraps and the next slice panics. -/
def parseTableIndex (buff : List UInt8) : Option TableIndex := do
  let pos := buff.length
  -- footer
  guard (magicNumberSize ≤ pos)
  let pos := pos - magicNumberSize
  guard (buff.drop pos = magicNumber)
  -- skip total chunk data
  guard (uint64Size + uint32Size ≤ pos)
  let pos := pos - uint64Size - uint32Size
  let chunkCount ← readUint32 (buff.drop pos)
  -- index
  let suffixesSize := chunkCount * addrSuffixSize
  guard (suffixesSize ≤ pos)
  let pos := pos - suffixesSize
  let suffixes := (buff.drop pos).take suffixesSize
  let lengthsSize := chunkCount * lengthSize
  guard (lengthsSize ≤ pos)
  let pos := pos - lengthsSize
  let (lengths, offsets) ← computeOffsets chunkCount ((buff.drop pos).take lengthsSize)
  let tuplesSize := chunkCount * prefixTupleSize
  guard (tuplesSize ≤ pos)
  let pos := pos - tuplesSize
  let (prefixes, ordinals) ← computePrefixes chunkCount ((buff.drop pos).take tuplesSize)
  some ⟨chunkCount, prefixes, offsets, lengths, ordinals, suffixes⟩

namespace TableIndex

/-- `prefixIdxToOrdinal`. -/
def prefixIdxToOrdinal (ti : TableIndex) (idx : Nat) : Option Nat := ti.ordinals[idx]?

/-- `prefixIdx`: the first index whose prefix is not below `p` (the midpoint is always below
`chunkCount`, the length of `prefixes`). -/
def prefixIdx (ti : TableIndex) (p : Nat) : Nat :=
  search (fun h => !decide (ti.prefixes.getD h 0 < p)) 0 ti.chunkCount

/-- `ordinalSuffixMatches`; the suffix slice panics past the end of `suffixes`. -/
def ordinalSuffixMatches (ti : TableIndex) (ordinal : Nat) (h : Addr) : Option Bool :=
  let li := ordinal * addrSuffixSize
  if li + addrSuffixSize ≤ ti.suffixes.length then
    some (h.suffix == (ti.suffixes.drop li).take addrSuffixSize)
  else none

/-- The loop of `lookupOrdinal` from index `idx` on. -/
def lookupOrdinalFrom (ti : TableIndex) (h : Addr) (idx : Nat) : Option Nat :=
  if idx < ti.chunkCount ∧ ti.prefixes.getD idx 0 = h.Prefix then do
    let ordinal ← ti.prefixIdxToOrdinal idx
    let m ← ti.ordinalSuffixMatches ordinal h
    if m then some ordinal else ti.lookupOrdinalFrom h (idx + 1)
  else some ti.chunkCount
termination_by ti.chunkCount - idx

/-- `lookupOrdinal`: the ordinal of `h`, or `chunkCount` when it is absent. -/
def lookupOrdinal (ti : TableIndex) (h : Addr) : Option Nat :=
  ti.lookupOrdinalFrom h (ti.prefixIdx h.Prefix)

end TableIndex

/-- `tableReader`: an index over the table's bytes. -/
structure TableReader where
  index : TableIndex
  r : List UInt8
  blockSize : Nat
  maxReadSize : Nat
  readAmpThresh : Nat

def newTableReader (index : TableIndex) (r : List UInt8) (blockSize maxReadSize readAmpThresh : Nat) :
    TableReader :=
  ⟨index, r, blockSize, maxReadSize, readAmpThresh⟩

/-- `EnumerationOrder`. -/
inductive EnumerationOrder
  | InsertOrder
  | ReverseOrder
deriving DecidableEq

namespace TableReader

variable (L : TableLib)

def count (tr : TableReader) : Nat := tr.index.chunkCount

/-- `tableReader.parseChunk`: undo snappy, then check the stored CRC. -/
def parseChunk (buff : List UInt8) : Option (List UInt8) := do
  guard (checksumSize ≤ buff.length)
  let dataLen := buff.length - checksumSize
  let data ← L.snappyDecode (buff.take dataLen)
  let chksum ← readUint32 (buff.drop dataLen)
  guard (chksum = (L.crc data).toNat)
  some data

def has (tr : TableReader) (h : Addr) : Option Bool := do
  let ordinal ← tr.index.lookupOrdinal h
  some (decide (ordinal < tr.count))

/-- `tableReader.get`: `some none` is the code's `nil`. -/
def get (tr : TableReader) (h : Addr) : Option (Option (List UInt8)) := do
  let ordinal ← tr.index.lookupOrdinal h
  if ordinal = tr.count then some none else do
  let offset ← tr.index.offsets[ordinal]?
  let length ← tr.index.lengths[ordinal]?
  let buff ← readAt tr.r offset length
  let data ← parseChunk L buff
  guard (data ≠ [])
  some (some data)

/-- The bytes `extract` reads for an address, its prefix and the suffix at `li`, are 20. -/
theorem extract_length_eq {ti : TableIndex} {li : Nat} (p : Nat)
    (hs : li + addrSuffixSize ≤ ti.suffixes.length) :
    (beBytes 8 p ++ (ti.suffixes.drop li).take addrSuffixSize).length = addrSize := by
  simp [List.length_take, List.length_drop, addrSuffixSize, addrSize, addrPrefixSize] at hs ⊢
  omega

/-- The reverse lookup table of `extract`: the address at each ordinal. -/
def extractHashes (ti : TableIndex) : Option (List Addr) :=
  (List.range ti.prefixes.length).foldlM (fun (hashes : List Addr) idx => do
    let ordinal ← ti.prefixIdxToOrdinal idx
    let p ← ti.prefixes[idx]?
    let li := ordinal * addrSuffixSize
    guard (ordinal < hashes.length)
    if hs : li + addrSuffixSize ≤ ti.suffixes.length then
      let a : Addr := ⟨beBytes 8 p ++ (ti.suffixes.drop li).take addrSuffixSize,
        extract_length_eq p hs⟩
      some (hashes.set ordinal a)
    else none) (List.replicate ti.prefixes.length Addr.zero)

/-- `tableReader.extract`: the records it sends on the channel, in order. -/
def extract (tr : TableReader) (order : EnumerationOrder) : Option (List (Addr × List UInt8)) := do
  let hashes ← extractHashes tr.index
  guard (0 < tr.count)
  let lastOff ← tr.index.offsets[tr.count - 1]?
  let lastLen ← tr.index.lengths[tr.count - 1]?
  let first ← tr.index.offsets[0]?
  let chunkLen := lastOff + lastLen
  let buff ← readAt tr.r first chunkLen
  let sendChunk := fun (i : Nat) => do
    let off ← tr.index.offsets[i]?
    let len ← tr.index.lengths[i]?
    let localOffset := off - first
    guard (localOffset + len ≤ buff.length)
    let data ← parseChunk L ((buff.drop localOffset).take len)
    let a ← hashes[i]?
    some (a, data)
  match order with
  | .ReverseOrder => (List.range tr.count).reverse.mapM sendChunk
  | .InsertOrder => (List.range tr.count).mapM sendChunk

end TableReader

end Noms.Nbs
