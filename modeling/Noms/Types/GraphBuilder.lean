import Noms.Types.OpCache

/-!
# `GraphBuilder` (`graph_builder.go`)

`MapSet`, `SetInsert` and `ListAppend` hand their operation to the op cache; `Build` reads the
cache's operations back in key order and assembles the nested collections with a stack of open
collections, one per key of the current path, the `ROOT` element at the bottom. For each operation
`commonPrefixCount` finds where its path leaves the stack's path: the elements above that point are
popped, each finished collection appended to its parent as a map entry; then the item is appended
to the top, or the rest of the path is pushed (maps for the intermediate keys, the operation's kind
for the last) and the item appended to the new top. At the end everything is popped into the root.

A `sequenceChunker` is modelled by the list of items appended to it, and `done` makes the
collection of the element's kind from that list. The stack is a list with its top first (Go keeps
it in a slice, top last). A `d.Panic`, a `panic` or an index out of range is `none`.
-/

namespace Noms.Types

variable {V : Type}

/-- `graphStackElem`. -/
structure GraphStackElem (V : Type) where
  key : V
  kind : NomsKind
  ch : List (Item V)

/-- `graphStackElem.done`. -/
def GraphStackElem.done (e : GraphStackElem V) : Coll V := .mk e.kind e.ch

/-- `pushNewKeyOnStack`: a new chunker for a map, a set or a list; any other kind panics. -/
def pushNewKeyOnStack (stack : List (GraphStackElem V)) (key : V) (kind : NomsKind) :
    Option (List (GraphStackElem V)) :=
  match kind with
  | .MapKind | .SetKind | .ListKind => some (⟨key, kind, []⟩ :: stack)
  | _ => none

/-- `popKeyFromStack`: the finished top goes to its parent as `mapEntry{key, col}`, whatever the
parent's kind. -/
def popKeyFromStack : List (GraphStackElem V) → Option (List (GraphStackElem V))
  | elem :: top :: rest => some ({ top with ch := top.ch ++ [.child elem.key elem.done] } :: rest)
  | _ => none

/-- `appendItemToCurrentTopOfStack`: panics unless the top has the item's kind. -/
def appendItemToCurrentTopOfStack (stack : List (GraphStackElem V)) (kind : NomsKind)
    (item : Item V) : Option (List (GraphStackElem V)) :=
  match stack with
  | top :: rest => if top.kind ≠ kind then none else some ({ top with ch := top.ch ++ [item] } :: rest)
  | [] => none

/-- The first loop of `pushKeys`'s caller, `for idx < b.stack.lastIdx() { popKeyFromStack }`, run
`n` times. -/
def popKeys : Nat → List (GraphStackElem V) → Option (List (GraphStackElem V))
  | 0, stack => some stack
  | n + 1, stack => (popKeyFromStack stack).bind (popKeys n)

/-- The push loop of `Build` over the keys still to push: a map for each but the last, then the
operation's kind and its item. -/
def pushKeys (kind : NomsKind) (item : Item V) :
    List (GraphStackElem V) → List V → Option (List (GraphStackElem V))
  | stack, [] => some stack
  | stack, [k] => (pushNewKeyOnStack stack k kind).bind (appendItemToCurrentTopOfStack · kind item)
  | stack, k :: k' :: ks => (pushNewKeyOnStack stack k .MapKind).bind (pushKeys kind item · (k' :: ks))

variable [LinearOrder V]

/-- The loop of `commonPrefixCount`: the index of the first difference within the shorter list. -/
def firstDiff : List V → List V → Option Nat
  | a :: as, b :: bs => if a = b then (firstDiff as bs).map (· + 1) else some 0
  | _, _ => none

/-- `commonPrefixCount`, with `none` for its `-1` (the keys are the stack's path). -/
def commonPrefixCount (stack : List (GraphStackElem V)) (keys : List V) : Option Nat :=
  -- don't consider the 'ROOT' stack element
  let elems := (stack.reverse.drop 1).map GraphStackElem.key
  match firstDiff elems keys with
  | some i => some i
  | none => if keys.length = elems.length then none else some (min keys.length elems.length)

/-- One turn of `Build`'s loop over the cache's operations. -/
def buildStep (stack : List (GraphStackElem V)) (op : List V × NomsKind × Item V) :
    Option (List (GraphStackElem V)) :=
  let (keys, kind, item) := op
  match commonPrefixCount stack keys with
  | none => appendItemToCurrentTopOfStack stack kind item
  | some idx => do
    let stack ← popKeys (stack.length - 1 - idx) stack
    let stack ← if stack.length - 1 = keys.length then appendItemToCurrentTopOfStack stack kind item
      else some stack
    pushKeys kind item stack (keys.drop (stack.length - 1))

/-- `GraphBuilder`: its op cache, `nil` once built, and its stack. -/
structure GraphBuilder (V : Type) where
  oc : Option (OpCache V)
  stack : List (GraphStackElem V)

/-- `newGraphBuilder` on a fresh op cache; `rootKey` is `String("ROOT")`. -/
def newGraphBuilder (rootKey : V) (rootKind : NomsKind) : Option (GraphBuilder V) :=
  (pushNewKeyOnStack [] rootKey rootKind).map fun stack => ⟨some ⟨[], 0⟩, stack⟩

namespace GraphBuilder

def MapSet (b : GraphBuilder V) (keys : List V) (k v : V) : Option (GraphBuilder V) :=
  b.oc.bind fun oc => (oc.GraphMapSet keys k v).map fun oc' => { b with oc := some oc' }

def SetInsert (b : GraphBuilder V) (keys : List V) (v : V) : Option (GraphBuilder V) :=
  b.oc.bind fun oc => (oc.GraphSetInsert keys v).map fun oc' => { b with oc := some oc' }

def ListAppend (number : Nat → V) (b : GraphBuilder V) (keys : List V) (v : V) :
    Option (GraphBuilder V) :=
  b.oc.bind fun oc => (oc.GraphListAppend number keys v).map fun oc' => { b with oc := some oc' }

/-- `Build`: every operation of the cache in key order through `buildStep`, then every key popped
into the root, whose collection is the result. -/
def Build (b : GraphBuilder V) : Option (GraphBuilder V × Coll V) := do
  let opc ← b.oc
  let stack ← opc.ldb.foldlM (fun stack op => (GraphOp op).bind (buildStep stack)) b.stack
  let stack ← popKeys (stack.length - 1) stack
  match stack with
  | [root] => some (⟨none, []⟩, root.done)
  | _ => none

end GraphBuilder

/-- A call of the builder's API. -/
inductive GraphCall (V : Type) where
  | MapSet (keys : List V) (k v : V)
  | SetInsert (keys : List V) (v : V)
  | ListAppend (keys : List V) (v : V)

namespace GraphBuilder

/-- Issue one call. -/
def call (number : Nat → V) (b : GraphBuilder V) : GraphCall V → Option (GraphBuilder V)
  | .MapSet keys k v => b.MapSet keys k v
  | .SetInsert keys v => b.SetInsert keys v
  | .ListAppend keys v => b.ListAppend number keys v

/-- Issue calls one after the other. -/
def calls (number : Nat → V) (b : GraphBuilder V) (cs : List (GraphCall V)) :
    Option (GraphBuilder V) :=
  cs.foldlM (call number) b

end GraphBuilder

end Noms.Types
