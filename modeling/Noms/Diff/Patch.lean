import Noms.Merge.ThreeWayList
import Noms.Types.OrderedDiff
import Mathlib

/-!
# Patches: `Diff` and `Apply` (`diff.go`, `apply_patch.go`, `patch.go`)

`Diff(v1, v2)` sends the differences between two values, each at a path; `Apply(root, patch)`
sorts them by path (`Patch.Less`), then replays them through a stack of the values on the
current path. An element popped off the stack is folded into its parent by `updateNode`, which
for a list inserts, removes or sets at the difference's index, shifted by `adjustIndexOffset`'s
count of the additions and removals made so far in that list. `apply_patch.go` states the
contract `ApplyPatch(a1, Diff(a1, a2)) == a2`.

The model covers lists: a value is a primitive or a list of values (`Val`), a path is a list of
`IndexPath` indices, and `Diff` is `diffLists` on two lists of primitives, whose elements it
never descends into. The list's splices are `List.Diff`'s (`listDiff`, the list held in one
leaf). `Apply` follows the code on every path of indices into nested lists; the `Map`, `Set`
and `Struct` cases of `updateNode` are left out.

The contract fails in two ways (`Apply_Diff_roundtrip_fails`). `Apply` returns the root's
`newValue`, which only a popped child sets: with an empty patch, so for `Diff(v, v)`, it
returns `nil`. And a splice that replaces as many elements as it removes yields `Modified`
differences at the old index, which `Apply` resolves in the list already changed by earlier
additions, with no offset for `Modified`.
-/

namespace Noms.Patch

open Noms.Types (Splice listDiff listSplice DiffChangeType)

variable {α : Type}

/-- A value that index paths reach: a primitive, or a `List` of values. -/
inductive Val (α : Type)
  | prim (a : α)
  | list (vs : List (Val α))

/-- `Difference`, on paths of `IndexPath`s with `Number` indices. `NewKeyValue` is only set for
the keys of a map and is left out. -/
structure Difference (α : Type) where
  Path : List Nat
  ChangeType : DiffChangeType
  OldValue : Option (Val α)
  NewValue : Option (Val α)

/-! ## `Diff` on lists of primitives -/

/-- The differences `diffLists` sends for one splice. `Get` of an index out of range would
panic; the splices of a diff keep every index in range. -/
def spliceDiffs (p : List Nat) (v1 v2 : List α) (s : Splice) : List (Difference α) :=
  if s.SpRemoved = s.SpAdded then
    -- the heuristic "list only has modifications": one `Modified` at each old index
    (List.range s.SpRemoved).map fun i =>
      ⟨p ++ [s.SpAt + i], .DiffChangeModified, (v1[s.SpAt + i]?).map .prim,
        (v2[s.SpFrom + i]?).map .prim⟩
  else
    (List.range s.SpRemoved).map (fun i =>
      ⟨p ++ [s.SpAt + i], .DiffChangeRemoved, (v1[s.SpAt + i]?).map .prim, none⟩) ++
    (List.range s.SpAdded).map fun i =>
      ⟨p ++ [s.SpFrom + i], .DiffChangeAdded, none, (v2[s.SpFrom + i]?).map .prim⟩

/-- `diffLists(p, v1, v2)`: the differences of each splice of `v2.Diff(v1)`, in order. -/
def diffLists [DecidableEq α] (p : List Nat) (v1 v2 : List α) : List (Difference α) :=
  (listDiff v2 v1).flatMap (spliceDiffs p v1 v2)

/-- `Diff(v1, v2, ...)` for two lists: `shouldDescend` holds for two lists, so it is
`diffLists` at the root. -/
def Diff [DecidableEq α] (v1 v2 : List α) : List (Difference α) :=
  if v1 = v2 then [] else diffLists [] v1 v2

/-! ## The order of a patch -/

/-- `vals`: at one path `Removed` comes before `Modified`, and `Modified` before `Added`. -/
def changeTypeRank : DiffChangeType → Nat
  | .DiffChangeRemoved => 0
  | .DiffChangeModified => 1
  | .DiffChangeAdded => 2

/-- `pathIsLess`; `pathPartCompare` of two `IndexPath`s compares their indices. -/
def pathIsLess : List Nat → List Nat → Bool
  | [], p2 => decide (0 < p2.length)
  | _ :: _, [] => false
  | i :: p1, j :: p2 => if i < j then true else if j < i then false else pathIsLess p1 p2

/-- `Patch.Less`. -/
def Difference.Less (d1 d2 : Difference α) : Bool :=
  if d1.Path = d2.Path then decide (changeTypeRank d1.ChangeType < changeTypeRank d2.ChangeType)
  else pathIsLess d1.Path d2.Path

/-- `sort.Sort(patch)`. It is not stable, but the differences of a list diff have distinct
paths or change types, which every sort puts in one order. -/
def sortPatch (patch : List (Difference α)) : List (Difference α) :=
  patch.insertionSort fun d1 d2 => d1.Less d2 = true

/-! ## The patch stack -/

/-- `stackElem`; `pathPart` is `none` for the root. -/
structure StackElem (α : Type) where
  path : List Nat
  pathPart : Option Nat
  changeType : DiffChangeType
  oldValue : Option (Val α)
  newValue : Option (Val α)

/-- `newestValue`. -/
def StackElem.newestValue (se : StackElem α) : Option (Val α) :=
  match se.newValue with
  | some v => some v
  | none => se.oldValue

/-- `patchStack`, with the top of `vals` first. -/
structure PatchStack (α : Type) where
  vals : List (StackElem α)
  lastPath : Option (List Nat)
  addCnt : Int
  rmCnt : Int

namespace PatchStack

/-- `adjustIndexOffset(p, changeType)`: the offset, and the stack with its counters. -/
def adjustIndexOffset (stack : PatchStack α) (p : List Nat) (changeType : DiffChangeType) :
    Int × PatchStack α :=
  let parentPath := p.dropLast
  -- another parent path resets the counters
  let stack := if stack.lastPath = some parentPath then stack
    else { stack with lastPath := some parentPath, addCnt := 0, rmCnt := 0 }
  let res := if changeType = .DiffChangeRemoved then stack.addCnt - stack.rmCnt else 0
  match changeType with
  | .DiffChangeAdded => (res, { stack with addCnt := stack.addCnt + 1 })
  | .DiffChangeRemoved => (res, { stack with rmCnt := stack.rmCnt + 1 })
  | .DiffChangeModified => (res, stack)

/-- `List.Set(idx, v)`: `Splice(idx, 1, v)` after `d.PanicIfFalse(idx < l.Len())`. -/
def listSet (l : List (Val α)) (idx : Nat) (v : Val α) : Option (List (Val α)) :=
  if idx < l.length then listSplice l idx 1 [v] else none

/-- `updateNode(top, parent)` for an `IndexPath` into a `List`, with the stack's counters after
`adjustIndexOffset`. The other cases of the Go switch are `Map`, `Set` and `Struct` parents and
the `unreachable` panic (`none`). -/
def updateNode (stack : PatchStack α) (top : StackElem α) (parent : Val α) :
    Option (Val α × PatchStack α) :=
  match top.pathPart, parent with
  | some idx, .list el =>
    let (offset, stack) := stack.adjustIndexOffset top.path top.changeType
    -- `idx + uint64(offset)`
    let realIdx := ((idx + offset) % 2 ^ 64).toNat
    let nv : Option (List (Val α)) :=
      match top.changeType, top.newValue with
      | .DiffChangeAdded, some v =>
        if realIdx > el.length then listSplice el el.length 0 [v] else listSplice el realIdx 0 [v]
      | .DiffChangeRemoved, _ => listSplice el realIdx 1 []
      | .DiffChangeModified, some v => listSet el realIdx v
      -- no difference adds or sets a `nil` value
      | _, none => none
    nv.map fun l => (.list l, stack)
  | _, _ => none

/-- `pop()`: the top, folded into the value of the element below it by `updateNode`. -/
def pop (stack : PatchStack α) : Option (StackElem α × PatchStack α) :=
  match stack.vals with
  | [] => none
  | [top] => some (top, { stack with vals := [] })
  | top :: newTop :: rest =>
    match newTop.newestValue with
    -- `d.PanicIfTrue(parent == nil)`
    | none => none
    | some parent =>
      (({ stack with vals := newTop :: rest } : PatchStack α).updateNode top parent).map
        fun (nv, stack') => (top, { stack' with vals := { newTop with newValue := some nv } :: rest })

/-- `n` pops. -/
def popN : Nat → PatchStack α → Option (PatchStack α)
  | 0, stack => some stack
  | n + 1, stack => stack.pop.bind fun (_, stack) => popN n stack

/-- `for idx < stack.Len()-1 { stack.pop() }`. -/
def popTo (idx : Nat) (stack : PatchStack α) : Option (PatchStack α) :=
  popN (stack.vals.length - 1 - idx) stack

/-- `IndexPath.Resolve` at a non-negative index: the element of a list, else `nil`. -/
def resolve : Option (Val α) → Nat → Option (Val α)
  | some (.list vs), i => vs[i]?
  | _, _ => none

/-- The loop over `tail` in `Apply`: one element per path part, holding the value the part
resolves to in its parent; the last holds the difference's `OldValue`. -/
def pushTail (p : List Nat) (oldValue : Option (Val α)) :
    List Nat → PatchStack α → Option (PatchStack α)
  | [], stack => some stack
  | pp :: rest, stack =>
    match stack.vals with
    | [] => none
    | top :: _ =>
      let resolved := resolve top.newestValue pp
      let elem : StackElem α :=
        if rest = [] then ⟨p, some pp, .DiffChangeModified, oldValue, resolved⟩
        else ⟨p, some pp, .DiffChangeModified, resolved, none⟩
      pushTail p oldValue rest { stack with vals := elem :: stack.vals }

end PatchStack

/-- `commonPrefixCount(p1, p2)`. -/
def commonPrefixCount : List Nat → List Nat → Nat
  | pp1 :: p1, pp2 :: p2 => if pp1 = pp2 then commonPrefixCount p1 p2 + 1 else 0
  | _, _ => 0

/-! ## `Apply` -/

/-- The variables of `Apply`'s loop. -/
structure ApplyLoop (α : Type) where
  stack : PatchStack α
  lastPath : List Nat

/-- One turn of `Apply`'s loop, for the difference `dif`. -/
def applyDif (st : ApplyLoop α) (dif : Difference α) : Option (ApplyLoop α) := do
  let p := dif.Path
  -- the same path as the last one (a removal and an addition at one index) pops early
  let (stack, idx) ← if p ≠ [] ∧ p = st.lastPath then
      st.stack.pop.map fun (_, stack) => (stack, p.length - 1)
    else some (st.stack, commonPrefixCount st.lastPath p)
  let stack ← stack.popTo idx
  let stack ← stack.pushTail p dif.OldValue (p.drop idx)
  match stack.vals with
  | [] => none
  | top :: rest =>
    some ⟨{ stack with
      vals := { top with newValue := dif.NewValue, changeType := dif.ChangeType } :: rest }, p⟩

/-- The stack of `Apply` before the loop: the root alone, as the old value of a `Modified`. -/
def rootStack (root : Val α) : PatchStack α :=
  ⟨[⟨[], none, .DiffChangeModified, some root, none⟩], none, 0, 0⟩

/-- `Apply(root, patch)`: the new root's `newValue`, which may be `nil`; `none` for a panic. -/
def Apply (root : Val α) (patch : List (Difference α)) : Option (Option (Val α)) := do
  let st ← (sortPatch patch).foldlM applyDif ⟨rootStack root, []⟩
  -- `for stack.Len() > 0 { newRoot = stack.pop() }`: the last pop is the root's
  let stack ← st.stack.popN (st.stack.vals.length - 1)
  let (newRoot, _) ← stack.pop
  pure newRoot.newValue

/-! ## The round trip -/

theorem Diff_self [DecidableEq α] (v : List α) : Diff v v = [] := by
  simp [Diff]

/-- Nothing sets the root's `newValue` when no difference is applied. -/
theorem Apply_nil (root : Val α) : Apply root [] = some none := rfl

/-- `Apply(v1, Diff(v1, v2))` is not `v2`: it is `nil` whenever `v1 = v2`, and for
`v1 = [a, b, c]`, `v2 = [x, a, y, c]` it is `[x, y, b, c]`, since the `Modified` at old index 1
is set at index 1 of the list that already holds `x` in front. -/
theorem Apply_Diff_roundtrip_fails {α : Type} [DecidableEq α] :
    (∀ v : List α, Apply (.list (v.map .prim)) (Diff v v) = some none) ∧
      Diff ['a', 'b', 'c'] ['x', 'a', 'y', 'c'] =
        [⟨[0], .DiffChangeAdded, none, some (.prim 'x')⟩,
          ⟨[1], .DiffChangeModified, some (.prim 'b'), some (.prim 'y')⟩] ∧
      Apply (.list (['a', 'b', 'c'].map .prim)) (Diff ['a', 'b', 'c'] ['x', 'a', 'y', 'c']) =
        some (some (.list (['x', 'y', 'b', 'c'].map .prim))) := by
  refine ⟨fun v => ?_, rfl, rfl⟩
  rw [Diff_self]
  exact Apply_nil _

end Noms.Patch
