import Noms.Types.Value

/-!
# The entry point of three-way merge (`three_way.go`)

`ThreeWay(a, b, parent)` returns `parent` when both candidates are `nil`, rejects the pairs
that `unmergeable` finds (a `nil` candidate, two kinds, or a primitive kind), and hands every
other pair to the merger's `threeWay`, which dispatches on the kind to the list, map, set,
struct and ref merges. A value's content is abstract here (`Value C`), so the merger and
`v.Type().Describe()` are parameters; the list merge is modelled on its own in
`Noms.Merge.ThreeWayList`.

The doc comment of `ThreeWay` lists "the two candidates are identical: the result is that
value" before "the values are primitives or Blob: conflict", but the code never compares the
candidates: `unmergeable` rejects two equal primitives (`ThreeWay_same_primitive_conflicts`).

Go returns `parent` together with every error; the model returns the error alone.
-/

namespace Noms.Types

/-- `IsPrimitiveKind`. -/
def IsPrimitiveKind : NomsKind → Bool
  | .BoolKind | .NumberKind | .StringKind | .BlobKind | .ValueKind | .TypeKind => true
  | _ => false

end Noms.Types

namespace Noms.Merge

open Noms.Types

variable {C : Type}

/-- `unmergeable(a, b)`. -/
def unmergeable : Option (Value C) → Option (Value C) → Bool
  | some a, some b =>
    decide (a.kind ≠ b.kind) || IsPrimitiveKind a.kind || IsPrimitiveKind b.kind
  | _, _ => true

/-- `describe` inside `ThreeWay`. -/
def describeCandidate (describe : Value C → String) : Option (Value C) → String
  | some v => describe v
  | none => "nil Value"

/-- `ThreeWay(a, b, parent, vrw, resolve, progress)`, with `m.threeWay` as `threeWay`. -/
def ThreeWay (describe : Value C → String)
    (threeWay : Value C → Value C → Option (Value C) → Except String (Value C))
    (a b parent : Option (Value C)) : Except String (Option (Value C)) :=
  match a, b with
  | none, none => .ok parent
  | some a', some b' =>
    if unmergeable a b then
      .error ("Cannot merge " ++ describe a' ++ " with " ++ describe b' ++ ".")
    else (threeWay a' b' parent).map some
  | _, _ =>
    .error ("Cannot merge " ++ describeCandidate describe a ++ " with " ++
      describeCandidate describe b ++ ".")

/-- Merging a primitive or Blob value with itself is a conflict, whatever the parent, instead
of the value. -/
theorem ThreeWay_same_primitive_conflicts (describe : Value C → String)
    (threeWay : Value C → Value C → Option (Value C) → Except String (Value C))
    (v : Value C) (hv : IsPrimitiveKind v.kind = true) (parent : Option (Value C)) :
    ThreeWay describe threeWay (some v) (some v) parent =
      .error ("Cannot merge " ++ describe v ++ " with " ++ describe v ++ ".") := by
  simp [ThreeWay, unmergeable, hv]

theorem ThreeWay_same_primitive_conflicts_string :
    IsPrimitiveKind (Value.string (C := Unit) [0x61]).kind = true ∧
      ThreeWay (C := Unit) (fun _ => "String") (fun a _ _ => .ok a) (some (.string [0x61]))
          (some (.string [0x61])) none =
        .error ("Cannot merge " ++ "String" ++ " with " ++ "String" ++ ".") :=
  ⟨rfl, ThreeWay_same_primitive_conflicts (fun _ => "String") (fun a _ _ => .ok a)
    (.string [0x61]) rfl none⟩

end Noms.Merge
