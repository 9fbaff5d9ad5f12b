import Noms.Nbs.Table
import Noms.Lib.Buffer

/-!
# The table writer (`go/nbs/table_writer.go`)

`addChunk` appends each chunk's record (snappy-compressed data, then the CRC of the data) to
the buffer and remembers its prefix, suffix, insertion ordinal and record length. `finish`
writes the index and the footer: the prefix tuples go out in prefix order, while each length
and suffix is written at the slot of its ordinal, so those two sections come out in insertion
order whatever order the sort left equal prefixes in. The ordinal and the record length are
`uint32` conversions, so they are taken modulo `2^32` here as in the code.

The buffer is the zeroed map of `Noms.Lib.Buffer`; the code preallocates it with
`maxTableSize` bytes, which this model does not track (the writes land where the code puts
them, and the table is the prefix `buff[:byteLength]`).
-/

namespace Noms.Nbs

open Noms.Lib

/-- `tableWriter`; `blockHash` is the byte stream written to the sha512 digest so far. -/
structure TableWriter where
  buff : Buffer
  pos : Nat
  totalPhysicalData : Nat
  prefixes : List PrefixIndexRec
  blockHash : List UInt8

section Writer

variable (L : TableLib)

def newTableWriter : TableWriter where
  buff := Buffer.zero
  pos := 0
  totalPhysicalData := 0
  prefixes := []
  blockHash := []

/-- `tableWriter.addChunk`; `none` is the panic on empty data. -/
def TableWriter.addChunk (tw : TableWriter) (h : Addr) (data : List UInt8) :
    Option TableWriter :=
  if data.length = 0 then none else
  let compressed := L.snappyEncode data
  let dataLength := compressed.length
  let buff := tw.buff.write tw.pos compressed
  let pos := tw.pos + dataLength
  -- checksum (4 LSBytes, big-endian)
  let buff := buff.write pos (beBytes 4 (L.crc data).toNat)
  some {
    buff := buff
    pos := pos + checksumSize
    totalPhysicalData := tw.totalPhysicalData + dataLength
    -- stored in insertion order
    prefixes := tw.prefixes ++
      [⟨h.Prefix, h.suffix, tw.prefixes.length % 2 ^ 32, (checksumSize + dataLength) % 2 ^ 32⟩]
    blockHash := tw.blockHash }

/-- One iteration of the loop of `writeIndex`: the record's prefix tuple at `pos`, its length
and suffix at the slots of its ordinal. -/
def writeIndexRec (lengthsOffset suffixesOffset : Nat) (st : Buffer × Nat × List UInt8)
    (pi : PrefixIndexRec) : Buffer × Nat × List UInt8 :=
  let (buff, pos, hashed) := st
  let hashed := hashed ++ beBytes 8 pi.Prefix ++ pi.suffix
  -- hash prefix
  let buff := buff.write pos (beBytes 8 pi.Prefix)
  let pos := pos + addrPrefixSize
  -- order
  let buff := buff.write pos (beBytes 4 pi.order)
  let pos := pos + ordinalSize
  -- length
  let buff := buff.write (lengthsOffset + pi.order * lengthSize) (beBytes 4 pi.size)
  -- hash suffix
  let buff := buff.write (suffixesOffset + pi.order * addrSuffixSize) pi.suffix
  (buff, pos, hashed)

/-- `tableWriter.writeIndex`. -/
def TableWriter.writeIndex (tw : TableWriter) : TableWriter :=
  let sorted := L.sortBy PrefixIndexRec.Prefix tw.prefixes
  let numRecords := sorted.length
  -- skip prefix and ordinal for each record
  let lengthsOffset := tw.pos + numRecords * prefixTupleSize
  -- skip size for each record
  let suffixesOffset := lengthsOffset + numRecords * lengthSize
  let (buff, _, hashed) :=
    sorted.foldl (writeIndexRec lengthsOffset suffixesOffset) (tw.buff, tw.pos, tw.blockHash)
  { tw with
    buff := buff
    pos := suffixesOffset + numRecords * addrSuffixSize
    prefixes := sorted
    blockHash := hashed }

/-- `tableWriter.writeFooter`. -/
def TableWriter.writeFooter (tw : TableWriter) : TableWriter :=
  let chunkCount := tw.prefixes.length % 2 ^ 32
  let buff := tw.buff.write tw.pos (beBytes 4 chunkCount)
  let pos := tw.pos + uint32Size
  let buff := buff.write pos (beBytes 8 tw.totalPhysicalData)
  let pos := pos + uint64Size
  let buff := buff.write pos magicNumber
  { tw with buff := buff, pos := pos + magicNumberSize }

/-- `tableWriter.finish`: the final writer (whose `pos` is the byte length) and the table's
name. -/
def TableWriter.finish (tw : TableWriter) : TableWriter × Addr :=
  let tw := (tw.writeIndex L).writeFooter
  (tw, L.blockHashSum tw.blockHash)

/-- Add the chunks in order, as `buildTable` and `memTable.write` do. -/
def TableWriter.addChunks (tw : TableWriter) : List (Addr × List UInt8) → Option TableWriter
  | [] => some tw
  | (h, data) :: rest => (tw.addChunk L h data).bind fun tw => TableWriter.addChunks tw rest

/-- The bytes of a table holding `chunks` (`buff[:tableSize]`) and its name. -/
def writeTable (chunks : List (Addr × List UInt8)) : Option (List UInt8 × Addr) :=
  ((newTableWriter).addChunks L chunks).map fun tw =>
    let (tw, name) := tw.finish L
    (tw.buff.read 0 tw.pos, name)

end Writer

end Noms.Nbs
