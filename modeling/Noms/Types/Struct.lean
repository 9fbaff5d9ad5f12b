import Noms.Types.AssertType
import Noms.Lib.Search
import Mathlib.Data.String.Basic

/-!
# Structs and the values that types describe (`struct.go`)

A value's `Type()` is computed when it is made: a list of one leaf chunk is a list of the union of
its values' types (`newListLeafSequence`), and `NewStruct` types each field by its value. The value
keeps that type: `Struct.t` for a struct, `leafSequence.t` for a list. `TypedValue` keeps the kinds whose
values the claims below build: the three primitive kinds with their values, lists and structs.

`s.Set(n, v)` keeps the struct's type and replaces one value whenever `IsSubtype(f.t, v.Type())`
holds for the field `f` named `n`, and otherwise makes the struct anew. `s.Delete(n)` makes the
struct without the field through `NewStructWithType`, which asserts that every value is of a
subtype of its field's type.

`Instance v r` says what a type means: `v` is a value of the type `r` points at, by induction on
`v`, through unions and cycles. Subtyping is meant to be sound for it: a value of a subtype is a
value of the required type. On re-entering a required struct `isSubtype` answers `true` for any
concrete type, so a concrete type whose nested struct breaks the required pattern one level down
passes (`isSubtype_unsound_for_cycles`). And `Set` keeps the old type for a value whose type is a
strict subtype of the field's, so the struct differs from `NewStruct` of the same fields
(`set_keeps_old_field_type`).
-/

namespace Noms.Types

open Noms.Lib

/-- A value as far as its type goes. A list and a struct keep the type they were made with. -/
inductive TypedValue where
  | bool (b : Bool)
  | number (x : Float64)
  | string (s : String)
  | list (t : Ty) (values : List TypedValue)
  | struct (t : Ty) (values : List TypedValue)

/-- `v.Type()`. -/
def TypedValue.type : TypedValue → Ty
  | .bool _ => .primitive .Bool
  | .number _ => .primitive .Number
  | .string _ => .primitive .String
  | .list t _ => t
  | .struct t _ => t

/-- `NewList(values...)` for a list of one leaf chunk: a list of the union of the values'
types. -/
def newList (oid : Ty → Hash) (values : List TypedValue) : TypedValue :=
  .list (makeListType (makeUnionType oid (values.map TypedValue.type))) values

/-- `NewStruct(name, data)`: the fields in name order (`sort.Sort(fieldNames)`), each typed by its
value. `data` is a Go map, so its names are distinct. -/
def newStruct (name : String) (data : List (String × TypedValue)) : TypedValue :=
  let fields := data.insertionSort fun a b => a.1 ≤ b.1
  .struct (makeStructType name (fields.map fun f => (f.1, f.2.type))) (fields.map Prod.snd)

/-- `StructDesc.findField(name)`: `sort.Search` for the first field whose name is not below
`name`, and the field there if it has the name. -/
def findField (fields : List (String × Ty)) (name : String) : Option (Nat × Ty) :=
  let i := search (fun i => decide (name ≤ (fields.getD i ("", .cycle 0)).1)) 0 fields.length
  match fields[i]? with
  | some f => if f.1 = name then some (i, f.2) else none
  | none => none

section FindField

variable {fields : List (String × Ty)} {name : String}

/-- On names in ascending order, "not below `name`" is monotone. -/
theorem monotoneBelow_of_names (hs : fields.Pairwise (·.1 < ·.1)) :
    MonotoneBelow (fun i => decide (name ≤ (fields.getD i ("", .cycle 0)).1)) fields.length := by
  intro a b hab hb ha
  have ha' : a < fields.length := by omega
  dsimp only at ha ⊢
  rw [← List.getElem_eq_getD (h := ha'), decide_eq_true_eq] at ha
  rw [← List.getElem_eq_getD (h := hb), decide_eq_true_eq]
  rcases Nat.lt_or_eq_of_le hab with hlt | rfl
  · exact le_of_lt (lt_of_le_of_lt ha (List.pairwise_iff_getElem.mp hs a b ha' hb hlt))
  · exact ha

/-- On fields in ascending name order, `findField` finds a field exactly at the index of its
name. -/
theorem findField_eq_some_iff (hs : fields.Pairwise (·.1 < ·.1)) {i : Nat} {t : Ty} :
    findField fields name = some (i, t) ↔ fields[i]? = some (name, t) := by
  unfold findField
  dsimp only
  constructor
  · intro h
    split at h
    · rename_i f hf
      split at h
      · rename_i hname
        cases h
        rw [hf, ← hname]
      · cases h
    · cases h
  · intro h
    have hi : i < fields.length := (List.getElem?_eq_some_iff.mp h).1
    have hat : fields[i] = (name, t) := (List.getElem?_eq_some_iff.mp h).2
    -- the search stops at `i`: every name before it is below `name`
    have hsearch : search (fun i => decide (name ≤ (fields.getD i ("", .cycle 0)).1)) 0
        fields.length = i := by
      refine search_eq_of (monotoneBelow_of_names hs) (le_of_lt hi) ?_ ?_
      · intro k hk
        have hlt := List.pairwise_iff_getElem.mp hs k i (by omega) hi hk
        rw [hat] at hlt
        rw [← List.getElem_eq_getD (h := by omega), decide_eq_false_iff_not, not_le]
        exact hlt
      · intro _
        rw [← List.getElem_eq_getD (h := hi), hat, decide_eq_true_eq]
    rw [hsearch, h]
    simp

end FindField

/-- `NewStructWithType(t, data)`: as many values as fields, each of a subtype of its field's
type (`assertSubtype`); `none` where the code panics or the fuel runs out. -/
def newStructWithType (fuel : Nat) (t : Ty) (data : List TypedValue) : Option TypedValue :=
  match t with
  | .struct _ fs =>
    if fs.length ≠ data.length then none
    else
      ((fs.zip data).allM fun fv => isSubtype fuel ⟨fv.1.2, [t]⟩ ⟨fv.2.type, []⟩ []).bind
        fun ok => if ok then some (.struct t data) else none
  | _ => none

namespace Struct

/-- `s.Set(n, v)`: with `v` of a subtype of the type of the field named `n`, the struct keeps its
type and the value at the field's index is replaced; otherwise `NewStruct` of the fields with `n`
set to `v`. -/
def set (fuel : Nat) (s : TypedValue) (n : String) (v : TypedValue) : Option TypedValue :=
  match s with
  | .struct t values =>
    match t with
    | .struct name fs =>
      let data := ((fs.map Prod.fst).zip values).filter (·.1 != n) ++ [(n, v)]
      match findField fs n with
      | none => some (newStruct name data)
      | some (i, ft) =>
        (isSubtype fuel ⟨ft, [t]⟩ ⟨v.type, []⟩ []).bind fun sub =>
          if sub then some (.struct t (values.set i v)) else some (newStruct name data)
    | _ => none
  | _ => none

/-- `s.Delete(n)`: the struct itself without such a field; otherwise `NewStructWithType` of the
other fields and values. Their field types are pointers into the old type, written out as types
of their own. -/
def delete (fuel : Nat) (s : TypedValue) (n : String) : Option TypedValue :=
  match s with
  | .struct t values =>
    match t with
    | .struct name fs =>
      match findField fs n with
      | none => some s
      | some (idx, _) =>
        ((fs.eraseIdx idx).mapM fun f => (writeType fuel ⟨f.2, [t]⟩ []).map (f.1, ·)).bind
          fun fields => newStructWithType fuel (makeStructType name fields) (values.eraseIdx idx)
    | _ => none
  | _ => none

end Struct

/-! ## What a type means -/

/-- The value of a struct's field, by name. -/
def fieldValue : Ty → List TypedValue → String → Option TypedValue
  | .struct _ fs, values, n => ((fs.map Prod.fst).zip values).lookup n
  | _, _, _ => none

/-- The name of a struct type. -/
def structName : Ty → Option String
  | .struct name _ => some name
  | _ => none

/-- `v` is a value of the type `r` points at: any value of `Value`, a value of one member of a
union, a primitive of its kind, a list whose elements are values of the element type, a struct
with the required name (unless it is empty) whose fields include each required field with a value
of its type. -/
inductive Instance : TypedValue → TypeNode → Prop
  | value {v : TypedValue} {r : TypeNode} : r.deref.t = .primitive .Value → Instance v r
  | union {v : TypedValue} {r : TypeNode} {ts ps : List Ty} {t : Ty} :
      r.deref = ⟨.compound .Union ts, ps⟩ → t ∈ ts → Instance v ⟨t, ps⟩ → Instance v r
  | bool {b : Bool} {r : TypeNode} : r.deref.t = .primitive .Bool → Instance (.bool b) r
  | number {x : Float64} {r : TypeNode} : r.deref.t = .primitive .Number → Instance (.number x) r
  | string {s : String} {r : TypeNode} : r.deref.t = .primitive .String → Instance (.string s) r
  | list {t : Ty} {vs : List TypedValue} {r : TypeNode} {e : Ty} {ps : List Ty} :
      r.deref = ⟨.compound .List [e], ps⟩ → (∀ x ∈ vs, Instance x ⟨e, ps⟩) →
        Instance (.list t vs) r
  | struct {t : Ty} {vs : List TypedValue} {r : TypeNode} {name : String} {fs : List (String × Ty)}
      {ps : List Ty} :
      r.deref = ⟨.struct name fs, ps⟩ → (name = "" ∨ structName t = some name) →
        (∀ f ∈ fs, (fieldValue t vs f.1).isSome) →
        (∀ f ∈ fs, ∀ x, fieldValue t vs f.1 = some x → Instance x ⟨f.2, .struct name fs :: ps⟩) →
          Instance (.struct t vs) r

section Inversion

variable {r : TypeNode} {name : String} {fs : List (String × Ty)} {ps : List Ty}

/-- Only numbers are values of `Number`, and a struct type has no numbers among its values. -/
theorem not_instance_number_of_struct (hr : r.deref = ⟨.struct name fs, ps⟩) (x : Float64) :
    ¬Instance (.number x) r := by
  intro h
  cases h with
  | value hv => simp [hr] at hv
  | union hu => simp [hr] at hu
  | number hn => simp [hr] at hn

/-- A list value of a list type: its elements are values of the element type. -/
theorem Instance.list_inv {t e : Ty} {vs : List TypedValue} (hr : r.deref = ⟨.compound .List [e], ps⟩)
    (h : Instance (.list t vs) r) : ∀ x ∈ vs, Instance x ⟨e, ps⟩ := by
  cases h with
  | value hv => simp [hr] at hv
  | union hu => simp [hr] at hu
  | list hl hxs =>
    rw [hr] at hl
    cases hl
    exact hxs

/-- A struct value of a struct type: each required field there has a value of its type. -/
theorem Instance.struct_inv {t : Ty} {vs : List TypedValue} (hr : r.deref = ⟨.struct name fs, ps⟩)
    (h : Instance (.struct t vs) r) :
    ∀ f ∈ fs, ∀ x, fieldValue t vs f.1 = some x → Instance x ⟨f.2, .struct name fs :: ps⟩ := by
  cases h with
  | value hv => simp [hr] at hv
  | union hu => simp [hr] at hu
  | struct hs _ _ hfs =>
    rw [hr] at hs
    cases hs
    exact hfs

end Inversion



/-! ## Where subtyping and `Set` go wrong -/

section Counterexamples

variable (oid : Ty → Hash)

theorem isSubtype_unsound_for_cycles {fuel : Nat} (hfuel : 6 ≤ fuel) :
    IsSubtype fuel (makeStructType "S" [("c", makeListType (makeCycleType 0))])
        (newStruct "S" [("c", newList oid
          [newStruct "S" [("c", newList oid [.number (.finite 1)])]])]).type = some true ∧
      ¬Instance (newStruct "S" [("c", newList oid
          [newStruct "S" [("c", newList oid [.number (.finite 1)])]])])
        ⟨makeStructType "S" [("c", makeListType (makeCycleType 0))], []⟩ := by
  set R := makeStructType "S" [("c", makeListType (makeCycleType 0))]
  set inner := newStruct "S" [("c", newList oid [.number (.finite 1)])]
  set v := newStruct "S" [("c", newList oid [inner])]
  constructor
  · have hv : v.type = makeStructType "S"
        [("c", makeListType (makeStructType "S" [("c", makeListType (.primitive .Number))]))] := rfl
    rw [hv]
    exact isSubtype_mono hfuel (by decide)
  · intro h
    -- `v`'s field `c` holds values of `R`'s field type `List<Cycle<0>>`
    have hR : (⟨R, []⟩ : TypeNode).deref = ⟨.struct "S" [("c", makeListType (makeCycleType 0))], []⟩ :=
      rfl
    have hlist : (⟨makeListType (makeCycleType 0), [R]⟩ : TypeNode).deref =
        ⟨.compound .List [.cycle 0], [R]⟩ := rfl
    have hcycle : (⟨.cycle 0, [R]⟩ : TypeNode).deref =
        ⟨.struct "S" [("c", makeListType (makeCycleType 0))], []⟩ := rfl
    have hc := h.struct_inv hR _ List.mem_cons_self (newList oid [inner]) rfl
    -- its one element, `inner`, must then be a value of `R` again, through the cycle
    have hinner := hc.list_inv hlist inner List.mem_cons_self
    have hc' := hinner.struct_inv hcycle _ List.mem_cons_self
      (newList oid [.number (.finite 1)]) rfl
    -- and so must `inner`'s element, the number `1`, which is no struct
    exact not_instance_number_of_struct hcycle _
      (hc'.list_inv hlist (.number (.finite 1)) List.mem_cons_self)

theorem isSubtype_unsound_for_cycles_at_six :
    6 ≤ 6 ∧
      IsSubtype 6 (makeStructType "S" [("c", makeListType (makeCycleType 0))])
          (newStruct "S" [("c", newList (fun _ => ⟨List.replicate 20 0, rfl⟩)
            [newStruct "S" [("c", newList (fun _ => ⟨List.replicate 20 0, rfl⟩)
              [.number (.finite 1)])]])]).type = some true ∧
        ¬Instance (newStruct "S" [("c", newList (fun _ => ⟨List.replicate 20 0, rfl⟩)
            [newStruct "S" [("c", newList (fun _ => ⟨List.replicate 20 0, rfl⟩)
              [.number (.finite 1)])]])])
          ⟨makeStructType "S" [("c", makeListType (makeCycleType 0))], []⟩ :=
  ⟨le_refl 6, isSubtype_unsound_for_cycles (fun _ => ⟨List.replicate 20 0, rfl⟩) (le_refl 6)⟩

end Counterexamples
end Noms.Types
