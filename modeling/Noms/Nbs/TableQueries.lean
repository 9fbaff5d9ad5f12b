import Noms.Nbs.TableReader
import Noms.Nbs.MemTable

/-!
# Batched queries of a table (`go/nbs/table_reader.go`)

`hasMany` and `getMany` answer a whole batch of requests sorted by prefix in one forward pass
over the sorted prefixes of the index: `filterIdx` only moves forward, to the first prefix not
below the request's (`advanceFilter`), and the run of that prefix is scanned for a matching
suffix. `hasMany` stops at the first match of a run (`hasInRun`); `findOffsets` collects every
match (`offsetsInRun`). Both report whether some request is left for the next table.

`getMany` sorts the located records by offset, groups them into reads (`batchReads`, the loop
around `canReadAhead`) and fills in the data of the requests from each read (`readAtOffsets`).
The code runs the reads as goroutines that write to distinct requests; here they run one after
the other. Request positions are `uint32`s in an `offsetRec`, hence the `% 2^32`.

`calcReads` plans the same reads without making them: it walks the sorted records once, starts a
read at each record whose request is not yet satisfied, and marks satisfied every request the read
can also serve (`scanAhead`).
-/

namespace Noms.Nbs

open Noms.Lib

/-- `offsetRec`. -/
structure OffsetRec where
  reqIdx : Nat
  ordinal : Nat
  offset : Nat
deriving DecidableEq

namespace TableIndex

/-- The loop `for filterIdx < filterLen && prefixes[filterIdx] < p { filterIdx++ }`. -/
def advanceFilter (ti : TableIndex) (p : Nat) (filterIdx : Nat) : Nat :=
  if filterIdx < ti.prefixes.length ∧ ti.prefixes.getD filterIdx 0 < p then
    ti.advanceFilter p (filterIdx + 1)
  else filterIdx
termination_by ti.prefixes.length - filterIdx

/-- The inner loop of `hasMany` from `j`: whether a suffix in the run of `p` matches `a`. -/
def hasInRun (ti : TableIndex) (a : Addr) (p : Nat) (j : Nat) : Option Bool :=
  if j < ti.prefixes.length ∧ p = ti.prefixes.getD j 0 then do
    let ordinal ← ti.prefixIdxToOrdinal j
    let m ← ti.ordinalSuffixMatches ordinal a
    if m then some true else ti.hasInRun a p (j + 1)
  else some false
termination_by ti.prefixes.length - j

/-- The inner loop of `findOffsets` from `j`: an `offsetRec` for request `i` at every position of
the run of `p` whose suffix matches `a`. -/
def offsetsInRun (ti : TableIndex) (i : Nat) (a : Addr) (p : Nat) (j : Nat) :
    Option (List OffsetRec) :=
  if j < ti.prefixes.length ∧ p = ti.prefixes.getD j 0 then do
    let ordinal ← ti.prefixIdxToOrdinal j
    let m ← ti.ordinalSuffixMatches ordinal a
    let rest ← ti.offsetsInRun i a p (j + 1)
    if m then do
      let o ← ti.ordinals[j]?
      let offset ← ti.offsets[o]?
      some (⟨i % 2 ^ 32, o, offset⟩ :: rest)
    else some rest
  else some []
termination_by ti.prefixes.length - j

/-- The loop of `tableReader.hasMany` from `filterIdx` on; the early `return` leaves the records
after it as they are. -/
def hasManyFrom (ti : TableIndex) (filterIdx : Nat) :
    List HasRecord → Option (List HasRecord × Bool)
  | [] => some ([], false)
  | addr :: rest =>
    if addr.has then (ti.hasManyFrom filterIdx rest).map fun (rest', rem) => (addr :: rest', rem)
    else
      let filterIdx := ti.advanceFilter addr.Prefix filterIdx
      if ti.prefixes.length ≤ filterIdx then some (addr :: rest, true)
      else if addr.Prefix ≠ ti.prefixes.getD filterIdx 0 then
        (ti.hasManyFrom filterIdx rest).map fun (rest', _) => (addr :: rest', true)
      else do
        let found ← ti.hasInRun addr.a addr.Prefix filterIdx
        let (rest', rem) ← ti.hasManyFrom filterIdx rest
        some ({ addr with has := found } :: rest', rem || !found)

/-- The loop of `tableReader.findOffsets` from `filterIdx` on, at request `i`: the located
records, `remaining`, and the requests with `found` set. The `break` at the end of the prefixes
leaves the requests after it as they are. -/
def findOffsetsFrom (ti : TableIndex) (filterIdx i : Nat) :
    List GetRecord → Option (List OffsetRec × Bool × List GetRecord)
  | [] => some ([], false, [])
  | req :: rest =>
    if req.found then
      (ti.findOffsetsFrom filterIdx (i + 1) rest).map fun (ors, rem, rest') => (ors, rem, req :: rest')
    else
      let filterIdx := ti.advanceFilter req.Prefix filterIdx
      if ti.prefixes.length ≤ filterIdx then some ([], true, req :: rest)
      else if req.Prefix ≠ ti.prefixes.getD filterIdx 0 then
        (ti.findOffsetsFrom filterIdx (i + 1) rest).map fun (ors, _, rest') =>
          (ors, true, req :: rest')
      else do
        let found ← ti.offsetsInRun i req.a req.Prefix filterIdx
        let (ors, rem, rest') ← ti.findOffsetsFrom filterIdx (i + 1) rest
        some (found ++ ors, rem, (if found = [] then req else { req with found := true }) :: rest')

/-- `tableReader.findOffsets`. -/
def findOffsets (ti : TableIndex) (reqs : List GetRecord) :
    Option (List OffsetRec × Bool × List GetRecord) :=
  ti.findOffsetsFrom 0 0 reqs

end TableIndex

/-- `canReadAhead`: whether the read `[readStart, readEnd)` may be extended to cover `fRec`, and
the new end and read amplification. -/
def canReadAhead (fRec : OffsetRec) (fLength readStart readEnd readAmp blockSize maxReadSize
    ampThresh : Nat) : Nat × Nat × Bool :=
  if fRec.offset < readEnd then (readEnd, 0, true) else
  -- only the wasted bytes above `blockSize` count as read amplification
  let fReadAmp := fRec.offset - readEnd
  let fReadAmp := if fReadAmp < blockSize then 0 else fReadAmp - blockSize
  if ampThresh = 0 ∧ readAmp + fReadAmp > 0 then (readEnd, 0, false) else
  let proposedSize := fRec.offset + fLength - readStart
  if proposedSize > maxReadSize ∨ proposedSize < ampThresh * (readAmp + fReadAmp) then
    (readEnd, 0, false)
  else (fRec.offset + fLength, readAmp + fReadAmp, true)

/-- One read of `getMany`: a byte range and the records it serves. -/
structure ReadBatch where
  readStart : Nat
  readEnd : Nat
  batch : List OffsetRec

namespace TableReader

variable (L : TableLib)

/-- The loop of `getMany` over the records sorted by offset: `cur` is the open batch with its
read amplification. A record the open batch cannot take closes it, and is looked at again. -/
def batchReads (tr : TableReader) (cur : Option (ReadBatch × Nat)) (recs : List OffsetRec) :
    Option (List ReadBatch) :=
  match recs with
  | [] => some (match cur with | none => [] | some (b, _) => [b])
  | rec :: rest => do
    let length ← tr.index.lengths[rec.ordinal]?
    match cur with
    | none => tr.batchReads (some (⟨rec.offset, rec.offset + length, [rec]⟩, 0)) rest
    | some (b, readAmp) =>
      let (newReadEnd, newReadAmp, canRead) := canReadAhead rec length b.readStart b.readEnd
        readAmp tr.blockSize tr.maxReadSize tr.readAmpThresh
      if canRead then tr.batchReads (some (⟨b.readStart, newReadEnd, b.batch ++ [rec]⟩, newReadAmp)) rest
      else (tr.batchReads none (rec :: rest)).map (b :: ·)
termination_by 2 * recs.length + (if cur.isSome then 1 else 0)

/-- `tableReader.readAtOffsets`: one read, then the data of each record it serves. -/
def readAtOffsets (tr : TableReader) (b : ReadBatch) (reqs : List GetRecord) :
    Option (List GetRecord) := do
  let readLength := b.readEnd - b.readStart
  let buff ← readAt tr.r b.readStart readLength
  b.batch.foldlM (fun reqs rec => do
    guard (b.readStart ≤ rec.offset)
    let localStart := rec.offset - b.readStart
    let len ← tr.index.lengths[rec.ordinal]?
    guard (localStart + len ≤ readLength)
    let data ← parseChunk L ((buff.drop localStart).take len)
    guard (rec.reqIdx < reqs.length)
    some (reqs.modify rec.reqIdx fun r => { r with data := some data })) reqs

/-- `tableReader.hasMany`. -/
def hasMany (tr : TableReader) (addrs : List HasRecord) : Option (List HasRecord × Bool) :=
  tr.index.hasManyFrom 0 addrs

/-- `tableReader.getMany`: the requests with `found` and `data` filled in, and `remaining`. -/
def getMany (tr : TableReader) (reqs : List GetRecord) : Option (List GetRecord × Bool) := do
  let (offsetRecords, remaining, reqs) ← tr.index.findOffsets reqs
  let batches ← tr.batchReads none (L.sortBy OffsetRec.offset offsetRecords)
  let reqs ← batches.foldlM (fun reqs b => tr.readAtOffsets L b reqs) reqs
  some (reqs, remaining)

/-- The scan ahead in `calcReads` for the read `[readStart, readEnd)`: each record the read can
take has its request marked satisfied (`data = []byte{0x01}`), up to the first record it cannot
take; records of satisfied requests are passed over. -/
def scanAhead (tr : TableReader) (blockSize maxReadSize ampThresh readStart : Nat) :
    Nat → Nat → List OffsetRec → List GetRecord → Option (List GetRecord)
  | _, _, [], reqs => some reqs
  | readEnd, readAmp, fRec :: rest, reqs => do
    let req ← reqs[fRec.reqIdx]?
    if req.data.isSome then
      tr.scanAhead blockSize maxReadSize ampThresh readStart readEnd readAmp rest reqs
    else
      let fLength ← tr.index.lengths[fRec.ordinal]?
      let (readEnd, readAmp, canRead) := canReadAhead fRec fLength readStart readEnd readAmp
        blockSize maxReadSize ampThresh
      if canRead then
        tr.scanAhead blockSize maxReadSize ampThresh readStart readEnd readAmp rest
          (reqs.modify fRec.reqIdx fun r => { r with data := some [0x01] })
      else some reqs

/-- The loop of `calcReads` over the records sorted by offset: a read starts at every record
whose request is not yet satisfied, and scans ahead from it. -/
def calcReadsFrom (tr : TableReader) (blockSize maxReadSize ampThresh : Nat) :
    List OffsetRec → List GetRecord → Option (Nat × List GetRecord)
  | [], reqs => some (0, reqs)
  | rec :: rest, reqs => do
    let req ← reqs[rec.reqIdx]?
    if req.data.isSome then tr.calcReadsFrom blockSize maxReadSize ampThresh rest reqs
    else
      let reqs := reqs.modify rec.reqIdx fun r => { r with data := some [0x01] }
      let length ← tr.index.lengths[rec.ordinal]?
      let reqs ← tr.scanAhead blockSize maxReadSize ampThresh rec.offset (rec.offset + length) 0
        rest reqs
      let (reads, reqs) ← tr.calcReadsFrom blockSize maxReadSize ampThresh rest reqs
      some (reads + 1, reqs)

/-- `tableReader.calcReads`: the number of reads, `remaining`, and the requests with `found` set
and the located ones marked satisfied. -/
def calcReads (tr : TableReader) (reqs : List GetRecord) (blockSize maxReadSize ampThresh : Nat) :
    Option (Nat × Bool × List GetRecord) := do
  let (offsetRecords, remaining, reqs) ← tr.index.findOffsets reqs
  let (reads, reqs) ← tr.calcReadsFrom blockSize maxReadSize ampThresh
    (L.sortBy OffsetRec.offset offsetRecords) reqs
  some (reads, remaining, reqs)

end TableReader

end Noms.Nbs
