import Noms.Types.Value
import Noms.Lib.Fuel
import Mathlib.Data.List.Sort

/-!
# Types (`type.go`, `type_desc.go`, `type_cache.go`)

A `*Type` has a descriptor: a primitive kind, a compound kind (`List`, `Map`, `Ref`, `Set`,
`Union`) with its element types, a struct with its name and its fields sorted by name, or a
`Cycle<n>`. A struct type that refers to itself is built with a `Cycle<n>`, which
`resolveStructCycles` replaces by a pointer to the `n`th enclosing struct, so the type graph
becomes cyclic; the encoding (`writeType`) breaks the cycles again, writing a struct that is
already on the path as a `Cycle<n>` back to it.

`Ty` is a type as its encoding writes it: a tree with `Cycle<n>` back references. A pointer into
the resolved graph is a `TypeNode`: a subtree together with the structs that enclose it, innermost
first. Following a pointer (`deref`) turns a `Cycle<n>` into the `n`th enclosing struct, and two
pointers are one pointer when subtree and enclosing structs agree.

`Hash()` of a type is the hash of its encoding and `Equals` compares hashes, so the model compares
encodings: hashes are taken to be collision free. `writeType` walks the graph and runs on fuel;
more fuel keeps its answers (`writeType_mono`).

`MakeUnionType` flattens nested unions, keeps the first type of each hash, collapses a single
member to itself and sorts the rest by their OIDs. An OID is the hash of an encoding that ignores
the order inside unions; the OIDs are a parameter here. A type built from trees hashes as the tree,
which is what `flattenUnionTypes` compares.
-/

namespace Noms.Types

open Noms.Lib

/-- The kinds of a `PrimitiveDesc`. -/
inductive PrimitiveKind
  | Bool
  | Number
  | String
  | Blob
  | Value
  | Type
deriving DecidableEq, Repr

/-- The kinds of a `CompoundDesc`. -/
inductive CompoundKind
  | List
  | Map
  | Ref
  | Set
  | Union
deriving DecidableEq, Repr

def PrimitiveKind.kind : PrimitiveKind → NomsKind
  | .Bool => .BoolKind
  | .Number => .NumberKind
  | .String => .StringKind
  | .Blob => .BlobKind
  | .Value => .ValueKind
  | .Type => .TypeKind

def CompoundKind.kind : CompoundKind → NomsKind
  | .List => .ListKind
  | .Map => .MapKind
  | .Ref => .RefKind
  | .Set => .SetKind
  | .Union => .UnionKind

/-- A type's descriptor tree as `writeType` encodes it; `cycle n` points at the `n`th enclosing
struct. -/
inductive Ty where
  | primitive (k : PrimitiveKind)
  | compound (k : CompoundKind) (elemTypes : List Ty)
  | struct (name : String) (fields : List (String × Ty))
  | cycle (level : Nat)
deriving Repr

mutual

/-- Equality of types is decided constructor by constructor. -/
def Ty.decEq : (a b : Ty) → Decidable (a = b)
  | .primitive k, .primitive k' =>
    if h : k = k' then isTrue (h ▸ rfl) else isFalse fun e => by cases e; exact h rfl
  | .compound k ts, .compound k' ts' =>
    if h : k = k' then
      match Ty.decEqList ts ts' with
      | isTrue h' => isTrue (h ▸ h' ▸ rfl)
      | isFalse h' => isFalse fun e => by cases e; exact h' rfl
    else isFalse fun e => by cases e; exact h rfl
  | .struct n fs, .struct n' fs' =>
    if h : n = n' then
      match Ty.decEqFields fs fs' with
      | isTrue h' => isTrue (h ▸ h' ▸ rfl)
      | isFalse h' => isFalse fun e => by cases e; exact h' rfl
    else isFalse fun e => by cases e; exact h rfl
  | .cycle l, .cycle l' =>
    if h : l = l' then isTrue (h ▸ rfl) else isFalse fun e => by cases e; exact h rfl
  | .primitive _, .compound _ _ | .primitive _, .struct _ _ | .primitive _, .cycle _
  | .compound _ _, .primitive _ | .compound _ _, .struct _ _ | .compound _ _, .cycle _
  | .struct _ _, .primitive _ | .struct _ _, .compound _ _ | .struct _ _, .cycle _
  | .cycle _, .primitive _ | .cycle _, .compound _ _ | .cycle _, .struct _ _ =>
    isFalse fun e => by cases e

def Ty.decEqList : (a b : List Ty) → Decidable (a = b)
  | [], [] => isTrue rfl
  | t :: ts, t' :: ts' =>
    match Ty.decEq t t', Ty.decEqList ts ts' with
    | isTrue h, isTrue h' => isTrue (h ▸ h' ▸ rfl)
    | isFalse h, _ => isFalse fun e => by cases e; exact h rfl
    | _, isFalse h' => isFalse fun e => by cases e; exact h' rfl
  | [], _ :: _ | _ :: _, [] => isFalse fun e => by cases e

def Ty.decEqFields : (a b : List (String × Ty)) → Decidable (a = b)
  | [], [] => isTrue rfl
  | (n, t) :: fs, (n', t') :: fs' =>
    if hn : n = n' then
      match Ty.decEq t t', Ty.decEqFields fs fs' with
      | isTrue h, isTrue h' => isTrue (hn ▸ h ▸ h' ▸ rfl)
      | isFalse h, _ => isFalse fun e => by cases e; exact h rfl
      | _, isFalse h' => isFalse fun e => by cases e; exact h' rfl
    else isFalse fun e => by cases e; exact hn rfl
  | [], _ :: _ | _ :: _, [] => isFalse fun e => by cases e

end

instance : DecidableEq Ty := Ty.decEq

/-- `t.Kind()`. -/
def Ty.kind : Ty → NomsKind
  | .primitive k => k.kind
  | .compound k _ => k.kind
  | .struct _ _ => .StructKind
  | .cycle _ => .CycleKind

/-- A `*Type` of a resolved type graph: the subtree `t`, and the struct types enclosing it,
innermost first, where its cycles point. -/
structure TypeNode where
  t : Ty
  parents : List Ty
deriving DecidableEq

/-- Follow a pointer: a `Cycle<n>` that `resolveStructCycles` resolved is the `n`th enclosing
struct, with the structs enclosing that one; a cycle with no such struct stays unresolved. -/
def TypeNode.deref : TypeNode → TypeNode
  | ⟨.cycle n, ps⟩ =>
    match ps[n]? with
    | some s => ⟨s, ps.drop (n + 1)⟩
    | none => ⟨.cycle n, ps⟩
  | p => p

/-- The element types of a compound type (`Desc.(CompoundDesc).ElemTypes`), as pointers. -/
def TypeNode.elemTypes? : TypeNode → Option (List TypeNode)
  | ⟨.compound _ ets, ps⟩ => some (ets.map (⟨·, ps⟩))
  | _ => none

/-- The name and fields of a struct type (`Desc.(StructDesc)`), the field types as pointers. -/
def TypeNode.structDesc? : TypeNode → Option (String × List (String × TypeNode))
  | ⟨.struct name fs, ps⟩ => some (name, fs.map fun f => (f.1, ⟨f.2, .struct name fs :: ps⟩))
  | _ => none

/-! ## Encoding and equality -/

/-- `writeType(t, parentStructTypes)`: the encoding of the type a pointer points at. A struct
already on the path is written as a cycle back to it; `none` when the fuel runs out. -/
def writeType : Nat → TypeNode → List TypeNode → Option Ty
  | 0, _, _ => none
  | fuel + 1, p, path =>
    match p.deref with
    | ⟨.primitive k, _⟩ => some (.primitive k)
    | ⟨.compound k ets, ps⟩ =>
      (ets.mapM fun et => writeType fuel ⟨et, ps⟩ path).map (.compound k)
    | q@⟨.struct name fs, ps⟩ =>
      match path.idxOf? q with
      | some i => some (.cycle (path.length - i - 1))
      | none =>
        (fs.mapM fun f => (writeType fuel ⟨f.2, .struct name fs :: ps⟩ (path ++ [q])).map
          (f.1, ·)).map (.struct name)
    | ⟨.cycle n, _⟩ => some (.cycle n)

/-- `t.Equals(other)`: the same pointer, or the same hash, that is the same encoding. -/
def typeEquals (fuel : Nat) (a b : TypeNode) : Option Bool :=
  if a = b then some true
  else do
    let x ← writeType fuel a []
    let y ← writeType fuel b []
    pure (x == y)

theorem writeType_succ {fuel : Nat} {p : TypeNode} {path : List TypeNode} {x : Ty}
    (h : writeType fuel p path = some x) : writeType (fuel + 1) p path = some x := by
  induction fuel generalizing p path x with
  | zero => simp [writeType] at h
  | succ fuel ih =>
    rw [writeType] at h ⊢
    split at h
    · exact h
    · exact Option.map_eq_some_iff.mpr (by
        obtain ⟨xs, hxs, rfl⟩ := Option.map_eq_some_iff.mp h
        exact ⟨xs, mapM_of_answers (fun _ _ _ => ih) hxs, rfl⟩)
    · split at h
      · exact h
      · obtain ⟨xs, hxs, rfl⟩ := Option.map_eq_some_iff.mp h
        refine Option.map_eq_some_iff.mpr ⟨xs, mapM_of_answers ?_ hxs, rfl⟩
        intro f _ y hy
        obtain ⟨z, hz, rfl⟩ := Option.map_eq_some_iff.mp hy
        exact Option.map_eq_some_iff.mpr ⟨z, ih hz, rfl⟩
    · exact h

theorem writeType_mono {fuel fuel' : Nat} (hle : fuel ≤ fuel') {p : TypeNode}
    {path : List TypeNode} {x : Ty} (h : writeType fuel p path = some x) :
    writeType fuel' p path = some x := by
  induction hle with
  | refl => exact h
  | step _ ih => exact writeType_succ ih

theorem typeEquals_mono {fuel fuel' : Nat} (hle : fuel ≤ fuel') {a b : TypeNode} {r : Bool}
    (h : typeEquals fuel a b = some r) : typeEquals fuel' a b = some r := by
  unfold typeEquals at h ⊢
  split
  · simpa [*] using h
  · simp only [*, if_false, Option.pure_def, Option.bind_eq_bind, Option.bind_eq_some_iff] at h ⊢
    obtain ⟨x, hx, y, hy, hr⟩ := h
    exact ⟨x, writeType_mono hle hx, y, writeType_mono hle hy, hr⟩

/-! ## Making types (`type_cache.go`) -/

/-- `MakeListType(elemType)`. -/
def makeListType (elemType : Ty) : Ty := .compound .List [elemType]

/-- `MakeSetType(elemType)`. -/
def makeSetType (elemType : Ty) : Ty := .compound .Set [elemType]

/-- `MakeRefType(elemType)`. -/
def makeRefType (elemType : Ty) : Ty := .compound .Ref [elemType]

/-- `MakeMapType(keyType, valType)`. -/
def makeMapType (keyType valType : Ty) : Ty := .compound .Map [keyType, valType]

/-- `MakeCycleType(level)`. -/
def makeCycleType (level : Nat) : Ty := .cycle level

/-- `MakeStructType(name, fieldNames, fieldTypes)`, names and types paired, the names valid and
in order. A `Cycle<n>` in a field type becomes a back reference of the new struct. -/
def makeStructType (name : String) (fields : List (String × Ty)) : Ty := .struct name fields

mutual

/-- `flattenUnionTypes(ts, seenTypes)`: the members of `ts` with nested unions flattened, each
type once; `seen` holds the types met so far, and comes back with the new ones added. -/
def flattenUnionTypes : List Ty → List Ty → List Ty × List Ty
  | [], seen => ([], seen)
  | t :: ts, seen =>
    let r := flattenUnionMember t seen
    let r' := flattenUnionTypes ts r.2
    (r.1 ++ r'.1, r'.2)

/-- The body of the loop of `flattenUnionTypes`: a union is flattened in turn, another type is
kept the first time it is met. -/
def flattenUnionMember : Ty → List Ty → List Ty × List Ty
  | .compound .Union ets, seen => flattenUnionTypes ets seen
  | t, seen => if t ∈ seen then ([], seen) else ([t], seen ++ [t])

end

section Union

variable (oid : Ty → Hash)

/-- `makeUnionType(elemTypes...)`: a single member stands for itself; otherwise the members
sorted by OID (`sort.Sort` on a `typeSlice`). On up to six elements `sort.Sort` is an insertion
sort, which moves an element left past the ones of greater OID only: it is stable, and so is
this one, which puts `a` before `b` unless `b`'s OID is less. -/
def makeUnionType (elemTypes : List Ty) : Ty :=
  match (flattenUnionTypes elemTypes []).1 with
  | [t] => t
  | ts => .compound .Union (ts.insertionSort fun a b => (oid b).Less (oid a) = false)

@[simp]
theorem makeUnionType_nil : makeUnionType oid [] = .compound .Union [] := rfl

end Union

end Noms.Types
