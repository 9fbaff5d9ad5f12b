import Noms.Types.EditDistanceSpec
import Mathlib

/-!
# Three-way merge of lists (`three_way_list.go`)

`threeWayListMerge a b parent` reads the splices of `a.Diff(parent)` and `b.Diff(parent)` from
two channels and walks both streams in `SpAt` order. It applies a splice that does not overlap
the other side's current one, and a pair that overlaps only when `canMerge` finds them the same
edit; any other overlap is a merge conflict. Positions are shifted into the merged list by a
running `uint64` offset (`offset += SpAdded - SpRemoved`, which wraps below zero).

A list is its sequence of elements (`List.Splice` is `take ++ vs ++ drop`), and `List.Diff` is
the diff of two lists held in one leaf sequence each: `calcSplices` on their elements. The
streams are lists of splices; a closed channel yields the zero splice, which `zeroToInvalid`
turns into the invalid one. The loop is a step function `mergeStep` run by `mergeRun` with fuel;
`threeWayListMerge` gives it one turn per splice and one to stop. A panic is `none`.
-/

namespace Noms.Types

variable {α : Type}

/-- `List.Splice(idx, deleteCount, vs...)`, `none` for its two panics. -/
def listSplice (l : List α) (idx deleteCount : Nat) (vs : List α) : Option (List α) :=
  if deleteCount = 0 ∧ vs = [] then some l
  else if idx ≤ l.length ∧ idx + deleteCount ≤ l.length then
    some (l.take idx ++ vs ++ l.drop (idx + deleteCount))
  else none

variable [DecidableEq α]

/-- `List.DiffWithLimit(last, ...)` on lists held in a single leaf sequence: the splices that
turn `last` into `l`, at offset `0` on both sides. -/
def listDiffWithLimit (l last : List α) (maxSpliceMatrixSize : Nat) : List Splice :=
  if l = last then []
  else if l.length = 0 then [⟨0, last.length, 0, 0⟩]
  else if last.length = 0 then [⟨0, 0, l.length, 0⟩]
  else calcSplices last.length l.length maxSpliceMatrixSize (seqEq last l)

/-- `List.Diff`. -/
def listDiff (l last : List α) : List Splice :=
  listDiffWithLimit l last DEFAULT_MAX_SPLICE_MATRIX_SIZE

end Noms.Types

namespace Noms.Merge

open Noms.Types

variable {α : Type}

/-- The splice full of `SPLICE_UNASSIGNED`, which comes before no valid splice. -/
def invalidSplice : Splice :=
  ⟨SPLICE_UNASSIGNED, SPLICE_UNASSIGNED, SPLICE_UNASSIGNED, SPLICE_UNASSIGNED⟩

/-- `zeroToInvalid`. -/
def zeroToInvalid (sp : Splice) : Splice := if sp = ⟨0, 0, 0, 0⟩ then invalidSplice else sp

/-- `zeroToInvalid(<-spliceChan)` on what a diff's channel has left; once it is empty the
channel is closed and yields the zero splice. -/
def recv : List Splice → Splice × List Splice
  | [] => (zeroToInvalid ⟨0, 0, 0, 0⟩, [])
  | sp :: rest => (zeroToInvalid sp, rest)

/-- `if aSplice == invalidSplice { aSplice = zeroToInvalid(<-aSpliceChan) }`. -/
def refill (sp : Splice) (rest : List Splice) : Splice × List Splice :=
  if sp = invalidSplice then recv rest else (sp, rest)

/-- `overlap`: the same `SpAt`, or the earlier one removes up to or past the later one's. -/
def overlap (s1 s2 : Splice) : Bool :=
  let earlier := if s2.SpAt < s1.SpAt then s2 else s1
  let later := if s2.SpAt < s1.SpAt then s1 else s2
  decide (s1.SpAt = s2.SpAt) || decide (later.SpAt < (earlier.SpAt + earlier.SpRemoved) % 2 ^ 64)

/-- `canMerge`: the splices are equal and the `SpAdded` elements each inserts, read by an
iterator from `SpFrom` on, are there and equal. -/
def canMerge [DecidableEq α] (a b : List α) (aSplice bSplice : Splice) : Bool :=
  decide (aSplice = bSplice) && (List.range aSplice.SpAdded).all fun count =>
    match a[aSplice.SpFrom + count]?, b[bSplice.SpFrom + count]? with
    | some aVal, some bVal => decide (aVal = bVal)
    | _, _ => false

/-- `apply`: the `SpAdded` elements of `source` from `SpFrom` on replace `SpRemoved` elements
of `target` at `SpAt + offset`; it panics when `source` runs out first. -/
def apply (source target : List α) (offset : Nat) (s : Splice) : Option (List α) :=
  let toAdd := (source.drop s.SpFrom).take s.SpAdded
  if toAdd.length < s.SpAdded then none
  else listSplice target ((s.SpAt + offset) % 2 ^ 64) s.SpRemoved toAdd

/-- `offset += splice.SpAdded - splice.SpRemoved` in `uint64`. -/
def nextOffset (offset : Nat) (s : Splice) : Nat :=
  (offset + (s.SpAdded + 2 ^ 64 - s.SpRemoved) % 2 ^ 64) % 2 ^ 64

/-- `describeSplice`. -/
def describeSplice (s : Splice) : String :=
  toString s.SpRemoved ++ " elements removed at " ++ toString s.SpAt ++ "; adding " ++
    toString s.SpAdded ++ " elements"

/-- The variables of `threeWayListMerge`'s loop, with what each channel has left to send. -/
structure MergeLoop (α : Type) where
  merged : List α
  offset : Nat
  aSplice : Splice
  bSplice : Splice
  aRest : List Splice
  bRest : List Splice

/-- How one turn of the loop ends. -/
inductive MergeTurn (α : Type)
  | next (st : MergeLoop α)
  | done (merged : List α)
  | conflict (msg : String)
  | panic

/-- One turn of `threeWayListMerge`'s loop. -/
def mergeStep [DecidableEq α] (a b : List α) (st : MergeLoop α) : MergeTurn α :=
  let ra := refill st.aSplice st.aRest
  let rb := refill st.bSplice st.bRest
  if ra.1 = invalidSplice ∧ rb.1 = invalidSplice then .done st.merged
  else if overlap ra.1 rb.1 then
    if canMerge a b ra.1 rb.1 then
      -- `merge(aSplice, bSplice)` is `aSplice`
      match apply a st.merged st.offset ra.1 with
      | some merged => .next ⟨merged, nextOffset st.offset ra.1, invalidSplice, invalidSplice, ra.2, rb.2⟩
      | none => .panic
    else .conflict ("Overlapping splices: " ++ describeSplice ra.1 ++ " vs " ++ describeSplice rb.1)
  else if ra.1.SpAt < rb.1.SpAt then
    match apply a st.merged st.offset ra.1 with
    | some merged => .next ⟨merged, nextOffset st.offset ra.1, invalidSplice, rb.1, ra.2, rb.2⟩
    | none => .panic
  else
    match apply b st.merged st.offset rb.1 with
    | some merged => .next ⟨merged, nextOffset st.offset rb.1, ra.1, invalidSplice, ra.2, rb.2⟩
    | none => .panic

/-- The loop, for at most `fuel` turns: the merged list, or the conflict's message. -/
def mergeRun [DecidableEq α] (a b : List α) : Nat → MergeLoop α → Option (Except String (List α))
  | 0, _ => none
  | fuel + 1, st =>
    match mergeStep a b st with
    | .next st' => mergeRun a b fuel st'
    | .done merged => some (.ok merged)
    | .conflict msg => some (.error msg)
    | .panic => none

/-- The loop started on two splice streams: `merged = parent`, `offset = 0`, both splices
invalid. Every turn but the last consumes a splice, so it gets one turn per splice and one. -/
def mergeSplices [DecidableEq α] (a b parent : List α) (aSplices bSplices : List Splice) :
    Option (Except String (List α)) :=
  mergeRun a b (aSplices.length + bSplices.length + 1)
    ⟨parent, 0, invalidSplice, invalidSplice, aSplices, bSplices⟩

/-- `threeWayListMerge(a, b, parent)`. -/
def threeWayListMerge [DecidableEq α] (a b parent : List α) : Option (Except String (List α)) :=
  mergeSplices a b parent (listDiff a parent) (listDiff b parent)

/-- Both sides replace `parent`'s last element by the same one, but `a` also inserted an element
in front, so its splice has a later `SpFrom`. `canMerge` compares whole splices and reports a
conflict for what is one edit. -/
theorem threeWayListMerge_same_edit_conflicts :
    listDiff [4, 1, 2, 5] [1, 2, 3] = [⟨0, 0, 1, 0⟩, ⟨2, 1, 1, 3⟩] ∧
      listDiff [1, 2, 5] [1, 2, 3] = [⟨2, 1, 1, 2⟩] ∧
      ([4, 1, 2, 5].drop 3).take 1 = ([1, 2, 5].drop 2).take 1 ∧
      threeWayListMerge [4, 1, 2, 5] [1, 2, 5] [1, 2, 3] =
        some (.error ("Overlapping splices: " ++ describeSplice ⟨2, 1, 1, 3⟩ ++ " vs " ++
          describeSplice ⟨2, 1, 1, 2⟩)) :=
  ⟨by decide, by decide, rfl, rfl⟩

end Noms.Merge
