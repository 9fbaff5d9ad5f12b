import Noms.Lib.ByteOrder
import Mathlib.Data.Rat.Defs

/-!
# Noms values and their order (`go/types`)

A `Value` is a `Bool`, a `Number` (a Go `float64`), a `String`, or one of the hashed kinds
(`Blob`, `List`, `Map`, `Ref`, `Set`, `Struct`, `Type`), which are identified by the hash of
their content. The content of a hashed value is left abstract (`C`), and its hash is a
parameter `hashOf`: only `Hash` and the kind of a value enter `Less` and `Equals`.

`Less` is split over the kinds as in the code: `Bool.Less`, `Number.Less` and `String.Less`
compare values of their own kind and otherwise compare `NomsKind` constants, and every hashed
kind calls `valueLess`, which puts it after all three primitive kinds and orders it by hash.
`orderedKey.Less` orders the keys of a prolly tree level the same way, with `none` for its
panic on an empty hash.

`Float64` keeps what Go's `<` and `==` see of a `float64`: NaN, the two infinities and the
finite values (exact rationals; `-0` and `+0` compare equal, so they are one value here).
-/

namespace Noms.Types

open Noms.Lib

/-! ## Kinds (`noms_kind.go`) -/

/-- `NomsKind`. -/
inductive NomsKind
  | BoolKind
  | NumberKind
  | StringKind
  | BlobKind
  | ValueKind
  | ListKind
  | MapKind
  | RefKind
  | SetKind
  | StructKind
  | TypeKind
  | CycleKind
  | UnionKind
deriving DecidableEq, Repr

/-- The `uint8` constant of each kind (`iota` in declaration order). -/
def NomsKind.toNat : NomsKind → Nat
  | .BoolKind => 0
  | .NumberKind => 1
  | .StringKind => 2
  | .BlobKind => 3
  | .ValueKind => 4
  | .ListKind => 5
  | .MapKind => 6
  | .RefKind => 7
  | .SetKind => 8
  | .StructKind => 9
  | .TypeKind => 10
  | .CycleKind => 11
  | .UnionKind => 12

instance : LT NomsKind := ⟨fun a b => a.toNat < b.toNat⟩

theorem NomsKind.lt_iff (a b : NomsKind) : a < b ↔ a.toNat < b.toNat := Iff.rfl

instance (a b : NomsKind) : Decidable (a < b) := inferInstanceAs (Decidable (a.toNat < b.toNat))

instance : LE NomsKind := ⟨fun a b => a.toNat ≤ b.toNat⟩

instance (a b : NomsKind) : Decidable (a ≤ b) := inferInstanceAs (Decidable (a.toNat ≤ b.toNat))

/-- `isKindOrderedByValue`. -/
def isKindOrderedByValue (k : NomsKind) : Bool := decide (k ≤ .StringKind)

/-! ## `float64` as Go compares it -/

/-- A `float64` up to what `<` and `==` distinguish. -/
inductive Float64
  | nan
  | negInf
  | finite (q : ℚ)
  | posInf
deriving DecidableEq

namespace Float64

/-- Go's `<` on `float64`: false as soon as one side is NaN. -/
def lt : Float64 → Float64 → Bool
  | negInf, finite _ => true
  | negInf, posInf => true
  | finite p, finite q => decide (p < q)
  | finite _, posInf => true
  | _, _ => false

/-- Go's `==` on `float64`: NaN equals nothing, itself included. -/
def eq : Float64 → Float64 → Bool
  | negInf, negInf => true
  | finite p, finite q => decide (p = q)
  | posInf, posInf => true
  | _, _ => false

end Float64

/-! ## Hashes (`go/hash`) -/

/-- `hash.Hash`: twenty bytes. -/
structure Hash where
  bytes : List UInt8
  length_eq : bytes.length = 20
deriving DecidableEq

/-- `Hash.Less`: `bytes.Compare(h[:], other[:]) < 0`. -/
def Hash.Less (h other : Hash) : Bool := bytesCompare h.bytes other.bytes == .lt

/-- `Hash.IsEmpty`: the all-zero hash. -/
def Hash.IsEmpty (h : Hash) : Bool := h.bytes.all (· == 0)

/-! ## Values -/

/-- The kinds whose values are ordered by hash. -/
inductive HashedKind
  | Blob
  | List
  | Map
  | Ref
  | Set
  | Struct
  | Type
deriving DecidableEq

def HashedKind.kind : HashedKind → NomsKind
  | .Blob => .BlobKind
  | .List => .ListKind
  | .Map => .MapKind
  | .Ref => .RefKind
  | .Set => .SetKind
  | .Struct => .StructKind
  | .Type => .TypeKind

/-- A Noms value; a Go `string` is its bytes. -/
inductive Value (C : Type)
  | bool (b : Bool)
  | number (x : Float64)
  | string (s : List UInt8)
  | hashed (k : HashedKind) (c : C)
deriving DecidableEq

namespace Value

variable {C : Type} (hashOf : Value C → Hash)

/-- `v.Type().Kind()`. -/
def kind : Value C → NomsKind
  | bool _ => .BoolKind
  | number _ => .NumberKind
  | string _ => .StringKind
  | hashed k _ => k.kind

/-- `valueLess(v1, v2)`. -/
def valueLess (v1 v2 : Value C) : Bool :=
  match v2.kind with
  | .BoolKind | .NumberKind | .StringKind => false
  | _ => (hashOf v1).Less (hashOf v2)

/-- `Bool.Less`. -/
def boolLess (v : Bool) : Value C → Bool
  | bool v2 => !v && v2
  | _ => true

/-- `Number.Less`. -/
def numberLess (v : Float64) : Value C → Bool
  | number v2 => v.lt v2
  | other => decide (NomsKind.NumberKind < other.kind)

/-- `String.Less`: Go compares strings bytewise. -/
def stringLess (s : List UInt8) : Value C → Bool
  | string s2 => bytesCompare s s2 == .lt
  | other => decide (NomsKind.StringKind < other.kind)

/-- `v.Less(other)`: every hashed kind's `Less` is `valueLess`. -/
def Less : Value C → Value C → Bool
  | bool v, other => boolLess v other
  | number v, other => numberLess v other
  | string s, other => stringLess s other
  | v@(hashed _ _), other => valueLess hashOf v other

/-- `v.Equals(other)`: the primitive kinds compare as Go interfaces (same kind, `==` on the
value); the hashed kinds compare hashes. `Type.Equals` also accepts the same pointer, which has
the same hash. -/
def Equals : Value C → Value C → Bool
  | bool v, bool v2 => v == v2
  | number v, number v2 => v.eq v2
  | string s, string s2 => s == s2
  | hashed k c, other => hashOf (hashed k c) == hashOf other
  | _, _ => false

end Value

/-! ## Keys of a prolly tree level (`meta_sequence.go`) -/

/-- `orderedKey`: `v` is `nil` for a key made from a hash. -/
structure OrderedKey (C : Type) where
  isOrderedByValue : Bool
  v : Option (Value C)
  h : Hash

/-- The all-zero hash, Go's `hash.Hash{}`. -/
def Hash.empty : Hash := ⟨List.replicate 20 0, rfl⟩

namespace OrderedKey

variable {C : Type} (hashOf : Value C → Hash)

/-- `newOrderedKey`. -/
def newOrderedKey (v : Value C) : OrderedKey C :=
  if isKindOrderedByValue v.kind then ⟨true, some v, Hash.empty⟩ else ⟨false, some v, hashOf v⟩

/-- `orderedKeyFromHash`. -/
def orderedKeyFromHash (h : Hash) : OrderedKey C := ⟨false, none, h⟩

/-- `orderedKey.Less`; `none` is the panic on an empty hash (or, unreachable from the
constructors, a by-value key without its value). -/
def Less (key mk2 : OrderedKey C) : Option Bool :=
  if key.isOrderedByValue && mk2.isOrderedByValue then
    match key.v, mk2.v with
    | some v, some v2 => some (v.Less hashOf v2)
    | _, _ => none
  else if key.isOrderedByValue then some true
  else if mk2.isOrderedByValue then some false
  else if key.h.IsEmpty || mk2.h.IsEmpty then none
  else some (key.h.Less mk2.h)

end OrderedKey

end Noms.Types
