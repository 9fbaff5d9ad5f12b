import Noms.Types.Type

/-!
# Structural subtyping (`assert_type.go`)

`isSubtype(requiredType, concreteType, parentStructTypes)` decides whether values of the concrete
type are values of the required one. Equal types are; a required union needs every member of a
concrete union, or one member above a concrete type; `Value` is above every type; compound types
of one kind compare element type by element type, where a concrete element type that is a union
needs each of its members below (`compoundSubtype`, so the empty union is below every type); a
required struct needs the concrete struct's name unless its own is empty, and each of its fields
among the concrete fields with a type below.

Cyclic struct types make the graph cyclic, so `isSubtype` keeps the required structs it has
entered in `parentStructTypes` and answers `true` when it enters one of them again. The key is the
required type only: whatever the concrete type is at that point, the cycle counts as a success.

The model runs on fuel (`isSubtype`); one call is `isSubtypeBody` with the recursive calls passed
in. More fuel keeps every answer (`isSubtype_mono`), so an answer at some fuel is the code's.
-/

namespace Noms.Types

open Noms.Lib

/-- `compoundSubtype(requiredType, concreteType, parentStructTypes)`, with `isSubtype` given. -/
def compoundSubtype (isSub : TypeNode → TypeNode → List TypeNode → Option Bool)
    (requiredType concreteType : TypeNode) (parentStructTypes : List TypeNode) : Option Bool :=
  if concreteType.deref.t.kind = .UnionKind then
    (concreteType.deref.elemTypes?.getD []).allM fun ct => isSub requiredType ct parentStructTypes
  else isSub requiredType concreteType parentStructTypes

/-- The loop over the element types of two compound types of one kind: the concrete element
types are read at the required one's indices. -/
def elemTypesSubtype (check : TypeNode → TypeNode → Option Bool) :
    List TypeNode → List TypeNode → Option Bool
  | [], _ => some true
  | _ :: _, [] => none
  | t :: ts, c :: cs =>
    (check t c).bind fun ok => if ok then elemTypesSubtype check ts cs else some false

/-- The loop over the required struct's fields: `j` moves on through the concrete fields to the
first with the field's name, and stays there for the next field. -/
def fieldsSubtype (check : TypeNode → TypeNode → Option Bool) :
    List (String × TypeNode) → List (String × TypeNode) → Option Bool
  | [], _ => some true
  | (name, t) :: fs, cfs =>
    match cfs.dropWhile (·.1 != name) with
    | [] => some false
    | cf :: cfs' =>
      (check t cf.2).bind fun ok => if ok then fieldsSubtype check fs (cf :: cfs') else some false

/-- One call of `isSubtype`, with `Equals` and the recursive calls given. The type assertions
`Desc.(CompoundDesc)` and `Desc.(StructDesc)` and the closing `panic("unreachable")` are `none`. -/
def isSubtypeBody (equals : TypeNode → TypeNode → Option Bool)
    (isSub : TypeNode → TypeNode → List TypeNode → Option Bool)
    (requiredType concreteType : TypeNode) (parentStructTypes : List TypeNode) : Option Bool :=
  let req := requiredType.deref
  let conc := concreteType.deref
  (equals req conc).bind fun equal =>
    if equal then some true
    else if req.t.kind = .UnionKind then
      if conc.t.kind = .UnionKind then
        (conc.elemTypes?.getD []).allM fun ct => isSub req ct parentStructTypes
      else (req.elemTypes?.getD []).anyM fun rt => isSub rt conc parentStructTypes
    else if req.t.kind ≠ conc.t.kind then some (req.t.kind == .ValueKind)
    else
      match req.elemTypes?, conc.elemTypes? with
      | some rts, some cts =>
        elemTypesSubtype (fun rt ct => compoundSubtype isSub rt ct parentStructTypes) rts cts
      | some _, none => none
      | none, _ =>
        match req.structDesc?, conc.structDesc? with
        | some (rname, rfs), some (cname, cfs) =>
          if rname ≠ "" ∧ rname ≠ cname then some false
          else if req ∈ parentStructTypes then some true
          else fieldsSubtype (fun rt ct => isSub rt ct (parentStructTypes ++ [req])) rfs cfs
        | some _, none => none
        | none, _ => none

/-- `isSubtype(requiredType, concreteType, parentStructTypes)`, on fuel. -/
def isSubtype : Nat → TypeNode → TypeNode → List TypeNode → Option Bool
  | 0, _, _, _ => none
  | fuel + 1, requiredType, concreteType, parentStructTypes =>
    isSubtypeBody (typeEquals fuel) (isSubtype fuel) requiredType concreteType parentStructTypes

/-- `IsSubtype(requiredType, concreteType)`. -/
def IsSubtype (fuel : Nat) (requiredType concreteType : Ty) : Option Bool :=
  isSubtype fuel ⟨requiredType, []⟩ ⟨concreteType, []⟩ []

/-! ## More fuel keeps the answer -/

section Answers

variable {isSub isSub' : TypeNode → TypeNode → List TypeNode → Option Bool}

/-- `isSub'` answers as `isSub` wherever `isSub` answers. -/
def SubAnswers (isSub isSub' : TypeNode → TypeNode → List TypeNode → Option Bool) : Prop :=
  ∀ r c ps b, isSub r c ps = some b → isSub' r c ps = some b

theorem compoundSubtype_of_answers (h : SubAnswers isSub isSub') {r c : TypeNode}
    {ps : List TypeNode} {b : Bool} (hb : compoundSubtype isSub r c ps = some b) :
    compoundSubtype isSub' r c ps = some b := by
  unfold compoundSubtype at hb ⊢
  split at hb
  · rename_i hunion
    rw [if_pos hunion]
    exact allM_of_answers (fun ct _ b' => h r ct ps b') hb
  · rename_i hunion
    rw [if_neg hunion]
    exact h r c ps b hb

theorem elemTypesSubtype_of_answers {check check' : TypeNode → TypeNode → Option Bool}
    (h : ∀ t c b, check t c = some b → check' t c = some b) :
    ∀ {ts cs : List TypeNode} {b : Bool}, elemTypesSubtype check ts cs = some b →
      elemTypesSubtype check' ts cs = some b
  | [], _, _, hb => hb
  | _ :: _, [], _, hb => by simp [elemTypesSubtype] at hb
  | t :: ts, c :: cs, b, hb => by
    simp only [elemTypesSubtype, Option.bind_eq_some_iff] at hb ⊢
    obtain ⟨ok, hok, hrest⟩ := hb
    refine ⟨ok, h t c ok hok, ?_⟩
    cases ok with
    | true => exact elemTypesSubtype_of_answers h hrest
    | false => exact hrest

theorem fieldsSubtype_of_answers {check check' : TypeNode → TypeNode → Option Bool}
    (h : ∀ t c b, check t c = some b → check' t c = some b) :
    ∀ {fs cfs : List (String × TypeNode)} {b : Bool}, fieldsSubtype check fs cfs = some b →
      fieldsSubtype check' fs cfs = some b
  | [], _, _, hb => hb
  | (name, t) :: fs, cfs, b, hb => by
    unfold fieldsSubtype at hb ⊢
    split at hb
    · exact hb
    · rename_i cf cfs' _
      simp only [Option.bind_eq_some_iff] at hb ⊢
      obtain ⟨ok, hok, hrest⟩ := hb
      refine ⟨ok, h t cf.2 ok hok, ?_⟩
      cases ok with
      | true => exact fieldsSubtype_of_answers h hrest
      | false => exact hrest

theorem isSubtypeBody_of_answers {equals equals' : TypeNode → TypeNode → Option Bool}
    (heq : ∀ a c b, equals a c = some b → equals' a c = some b) (h : SubAnswers isSub isSub')
    {r c : TypeNode} {ps : List TypeNode} {b : Bool}
    (hb : isSubtypeBody equals isSub r c ps = some b) :
    isSubtypeBody equals' isSub' r c ps = some b := by
  simp only [isSubtypeBody, Option.bind_eq_some_iff] at hb ⊢
  obtain ⟨equal, hequal, hb⟩ := hb
  refine ⟨equal, heq _ _ equal hequal, ?_⟩
  -- the cases of the body, each through the recursive calls it makes
  cases equal with
  | true => exact hb
  | false =>
    simp only [Bool.false_eq_true, if_false] at hb ⊢
    by_cases hu : r.deref.t.kind = .UnionKind
    · rw [if_pos hu] at hb ⊢
      by_cases hcu : c.deref.t.kind = .UnionKind
      · rw [if_pos hcu] at hb ⊢
        exact allM_of_answers (fun ct _ b' => h _ ct ps b') hb
      · rw [if_neg hcu] at hb ⊢
        exact anyM_of_answers (fun rt _ b' => h rt _ ps b') hb
    rw [if_neg hu] at hb ⊢
    by_cases hk : r.deref.t.kind ≠ c.deref.t.kind
    · rw [if_pos hk] at hb ⊢
      exact hb
    rw [if_neg hk] at hb ⊢
    split at hb
    · exact elemTypesSubtype_of_answers (fun _ _ _ => compoundSubtype_of_answers h) hb
    · exact hb
    · split at hb
      · split_ifs at hb ⊢
        · exact hb
        · exact hb
        · exact fieldsSubtype_of_answers (fun _ _ _ => h _ _ _ _) hb
      · exact hb
      · exact hb

theorem isSubtype_succ : ∀ {fuel : Nat}, SubAnswers (isSubtype fuel) (isSubtype (fuel + 1))
  | 0, _, _, _, _, hb => by simp [isSubtype] at hb
  | fuel + 1, _, _, _, _, hb =>
    isSubtypeBody_of_answers (fun _ _ _ => typeEquals_mono (Nat.le_succ fuel))
      isSubtype_succ hb

theorem isSubtype_mono {fuel fuel' : Nat} (hle : fuel ≤ fuel') {r c : TypeNode}
    {ps : List TypeNode} {b : Bool} (h : isSubtype fuel r c ps = some b) :
    isSubtype fuel' r c ps = some b := by
  induction hle with
  | refl => exact h
  | step _ ih => exact isSubtype_succ _ _ _ _ ih

end Answers

end Noms.Types
