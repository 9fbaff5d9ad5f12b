import Mathlib

/-!
# Splices by edit distance (`edit_distance.go`)

`calcSplices` describes how a sequence `prev` became `cur` as a list of `Splice`s. It trims the
longest shared prefix and suffix; if one trimmed side is empty a single splice says everything;
if the trimmed matrix is larger than `maxSpliceMatrixSize` it gives up with one splice over the
trimmed lengths; otherwise it fills the insert/delete edit-distance matrix (`calcEditDistances`),
walks it back from the corner into a list of operations (`operationsFromEditDistances`), and
groups each run of operations between `UNCHANGED` ones into one splice.

The two sequences are seen only through `eqFn prevIndex currentIndex`. The `uint64` lengths and
indices are `Nat`s: nothing below `2 ^ 64` wraps, except the product of the trimmed lengths,
which is taken `% 2 ^ 64` as Go computes it. The matrix is a list of rows read with `getD`; the
two loops of `operationsFromEditDistances` and of `calcSplices` are `editsFrom`, with fuel, and a
fold of `spliceStep`.
-/

namespace Noms.Types

/-- `Splice`: at `SpAt` of the previous state `SpRemoved` elements were removed and `SpAdded`
elements inserted, found from `SpFrom` on in the current state. -/
structure Splice where
  SpAt : Nat
  SpRemoved : Nat
  SpAdded : Nat
  SpFrom : Nat
deriving DecidableEq, Repr

def DEFAULT_MAX_SPLICE_MATRIX_SIZE : Nat := 20000000

/-- `math.MaxUint64`. -/
def SPLICE_UNASSIGNED : Nat := 2 ^ 64 - 1

/-- The `UNCHANGED`, `UPDATED`, `INSERTED` and `REMOVED` constants. -/
inductive EditOp
  | UNCHANGED
  | UPDATED
  | INSERTED
  | REMOVED
deriving DecidableEq, Repr

def uint64Min (a b : Nat) : Nat := if a < b then a else b

def uint64Min3 (a b c : Nat) : Nat :=
  if a < b then (if a < c then a else c) else (if b < c then b else c)

/-- `addSplice`: an unassigned `SpFrom` becomes `0`. -/
def addSplice (splices : List Splice) (s : Splice) : List Splice :=
  splices ++ [if s.SpFrom = SPLICE_UNASSIGNED then { s with SpFrom := 0 } else s]

/-! ## Shared prefix and suffix -/

/-- The loop of `sharedPrefix` from index `i`, with `n` indices left to compare. -/
def sharedPrefixFrom (eqFn : Nat → Nat → Bool) : Nat → Nat → Nat
  | i, 0 => i
  | i, n + 1 => if eqFn i i then sharedPrefixFrom eqFn (i + 1) n else i

def sharedPrefix (eqFn : Nat → Nat → Bool) (searchLength : Nat) : Nat :=
  sharedPrefixFrom eqFn 0 searchLength

/-- The loop of `sharedSuffix` at `count`, with `n` turns left before `count = searchLength`;
its `previousLength` and `currentLength` have been decremented `count + 1` times. -/
def sharedSuffixFrom (eqFn : Nat → Nat → Bool) (previousLength currentLength : Nat) :
    Nat → Nat → Nat
  | count, 0 => count
  | count, n + 1 =>
    if eqFn (previousLength - 1 - count) (currentLength - 1 - count) then
      sharedSuffixFrom eqFn previousLength currentLength (count + 1) n
    else count

def sharedSuffix (eqFn : Nat → Nat → Bool) (previousLength currentLength searchLength : Nat) :
    Nat :=
  sharedSuffixFrom eqFn previousLength currentLength 0 searchLength

/-! ## The edit-distance matrix -/

/-- The inner loop of `calcEditDistances` over one row, from column `j` on: `eq j` compares the
row's element with column `j`'s, `west` is the entry to the left, and the row above is read from
column `j - 1` on. -/
def rowFrom (eq : Nat → Bool) : Nat → Nat → List Nat → List Nat
  | j, west, northWest :: north :: rest =>
    let d := if eq j then northWest else uint64Min (north + 1) (west + 1)
    d :: rowFrom eq (j + 1) d (north :: rest)
  | _, _, _ => []

/-- Row `i ≥ 1`: `i` in the null column, then the inner loop over the row above. -/
def distanceRow (eqFn : Nat → Nat → Bool) (previousStart currentStart i : Nat)
    (above : List Nat) : List Nat :=
  i :: rowFrom (fun j => eqFn (previousStart + i - 1) (currentStart + j - 1)) 1 i above

/-- Rows `i, i - 1, …, 0` of the matrix, the last computed first; row `0` is the null row. -/
def distanceRows (eqFn : Nat → Nat → Bool) (previousStart currentStart currentLen : Nat) :
    Nat → List (List Nat)
  | 0 => [List.range (currentLen + 1)]
  | i + 1 =>
    let rows := distanceRows eqFn previousStart currentStart currentLen i
    distanceRow eqFn previousStart currentStart (i + 1) (rows.headD []) :: rows

def calcEditDistances (eqFn : Nat → Nat → Bool)
    (previousStart previousLen currentStart currentLen : Nat) : List (List Nat) :=
  (distanceRows eqFn previousStart currentStart currentLen previousLen).reverse

/-- `distances[i][j]`. -/
def dist (distances : List (List Nat)) (i j : Nat) : Nat := (distances.getD i []).getD j 0

/-- The loop of `operationsFromEditDistances` at `(i, j)`, `current` being the distance it last
stepped to; the edits come out in the order the loop appends them. `fuel` bounds the turns
(`i + j` of them are enough). -/
def editsFrom (distances : List (List Nat)) : Nat → Nat → Nat → Nat → List EditOp
  | 0, _, _, _ => []
  | fuel + 1, i, j, current =>
    if i = 0 ∧ j = 0 then []
    else if i = 0 then .INSERTED :: editsFrom distances fuel i (j - 1) current
    else if j = 0 then .REMOVED :: editsFrom distances fuel (i - 1) j current
    else
      let northWest := dist distances (i - 1) (j - 1)
      let west := dist distances (i - 1) j
      let north := dist distances i (j - 1)
      let minValue := uint64Min3 west north northWest
      if minValue = northWest then
        if northWest = current then .UNCHANGED :: editsFrom distances fuel (i - 1) (j - 1) current
        else .UPDATED :: editsFrom distances fuel (i - 1) (j - 1) northWest
      else if minValue = west then .REMOVED :: editsFrom distances fuel (i - 1) j west
      else .INSERTED :: editsFrom distances fuel i (j - 1) north

def operationsFromEditDistances (distances : List (List Nat)) : List EditOp :=
  let i := distances.length - 1
  let j := (distances.getD 0 []).length - 1
  (editsFrom distances (i + j) i j (dist distances i j)).reverse

/-! ## Grouping the operations into splices -/

/-- The variables of `calcSplices`'s loop: the splices so far, the open one, and `index` and
`previousIndex`, which count the positions in the previous and the current state. -/
structure SpliceLoop where
  splices : List Splice
  splice : Option Splice
  index : Nat
  previousIndex : Nat

/-- The open splice, or a new one at `index`. -/
def SpliceLoop.open (st : SpliceLoop) : Splice :=
  st.splice.getD ⟨st.index, 0, 0, SPLICE_UNASSIGNED⟩

/-- `if splice != nil { splices = addSplice(splices, *splice) }`: the splices with the open one
added, as an `UNCHANGED` step and the end of the loop do. -/
def SpliceLoop.flush (st : SpliceLoop) : List Splice :=
  match st.splice with
  | some s => addSplice st.splices s
  | none => st.splices

/-- One turn of `calcSplices`'s loop. -/
def spliceStep (st : SpliceLoop) : EditOp → SpliceLoop
  | .UNCHANGED =>
    { splices := st.flush
      splice := none
      index := st.index + 1
      previousIndex := st.previousIndex + 1 }
  | .UPDATED =>
    let s := st.open
    let s := if s.SpFrom = SPLICE_UNASSIGNED then { s with SpFrom := st.previousIndex } else s
    { st with
      splice := some { s with SpRemoved := s.SpRemoved + 1, SpAdded := s.SpAdded + 1 }
      index := st.index + 1
      previousIndex := st.previousIndex + 1 }
  | .INSERTED =>
    let s := { st.open with SpAdded := st.open.SpAdded + 1 }
    let s := if s.SpFrom = SPLICE_UNASSIGNED then { s with SpFrom := st.previousIndex } else s
    { st with splice := some s, previousIndex := st.previousIndex + 1 }
  | .REMOVED =>
    { st with
      splice := some { st.open with SpRemoved := st.open.SpRemoved + 1 }
      index := st.index + 1 }

def calcSplices (previousLength currentLength maxSpliceMatrixSize : Nat)
    (eqFn : Nat → Nat → Bool) : List Splice :=
  let minLength := uint64Min previousLength currentLength
  let prefixCount := sharedPrefix eqFn minLength
  let suffixCount := sharedSuffix eqFn previousLength currentLength (minLength - prefixCount)
  let previousStart := prefixCount
  let currentStart := prefixCount
  let previousEnd := previousLength - suffixCount
  let currentEnd := currentLength - suffixCount
  if currentEnd - currentStart = 0 ∧ previousEnd - previousStart = 0 then []
  else if currentStart = currentEnd then
    [⟨previousStart, previousEnd - previousStart, 0, 0⟩]
  else if previousStart = previousEnd then
    [⟨previousStart, 0, currentEnd - currentStart, currentStart⟩]
  else
    let previousLength := previousEnd - previousStart
    let currentLength := currentEnd - currentStart
    if previousLength * currentLength % 2 ^ 64 > maxSpliceMatrixSize then
      [⟨0, previousLength, currentLength, 0⟩]
    else
      let distances := calcEditDistances eqFn previousStart previousLength currentStart currentLength
      let ops := operationsFromEditDistances distances
      (ops.foldl spliceStep ⟨[], none, currentStart, previousStart⟩).flush

end Noms.Types
