import Noms.Types.Type
import Noms.Types.OpCacheCompare
import Noms.Lib.FirstOccurrences
import Noms.Lib.LastOfRuns
import Noms.Lib.Digits

/-!
# Union types (`makeUnionType`, `encodeForOID`)

`MakeUnionType` flattens nested unions, keeps the first type of each hash and sorts the rest by
OID. The types it keeps are those of `unionMembers`, each at its first occurrence
(`flattenUnionTypes_eq`), and the stable sort reads them OID by OID. So the union depends only on
which members each OID has and in which order (`makeUnionType_eq_of_filter_eq`). Two argument
lists with the same members give one union when the members' OIDs are distinct
(`makeUnionType_eq_of_members`). A prolly tree's element type, the union of its children's at
each meta level, is the union of its values' types however they are chunked
(`SeqTree.elemType_eq`).

An OID is the hash of `encodeForOID`, which writes a union as the XOR of its members' distinct
OIDs, whatever their order (`encodeForOID_union_perm`). The value decoder builds a union with its
members in the order it reads them (`readUnionType`). A type holding such a union in the other
order has another hash but the same OID, and the union of the two types then depends on the
order of the arguments (`makeUnionType_order_of_decoded_union`).

`encodeForOID` here computes every member's OID afresh. The code reuses the OID cached in a
member, computed where it was first needed; for a type without cycles that is the same.
-/

namespace Noms.Types

open Noms.Lib

/-- `t.Kind() == UnionKind`. -/
def Ty.isUnion : Ty → Bool
  | .compound .Union _ => true
  | _ => false

mutual

/-- The non-union types a list of types stands for in a union: each union replaced by its
members, recursively. -/
def unionMembers : List Ty → List Ty
  | [] => []
  | t :: ts => unionMember t ++ unionMembers ts

/-- The non-union types one type stands for in a union. -/
def unionMember : Ty → List Ty
  | .compound .Union ets => unionMembers ets
  | t => [t]

end

/-! ## Flattening -/

theorem unionMember_of_not_isUnion {t : Ty} (h : t.isUnion = false) : unionMember t = [t] := by
  cases t with
  | compound k ets => cases k <;> first | rfl | cases h
  | _ => rfl

theorem flattenUnionMember_of_not_isUnion {t : Ty} (h : t.isUnion = false) (seen : List Ty) :
    flattenUnionMember t seen = if t ∈ seen then ([], seen) else ([t], seen ++ [t]) := by
  cases t with
  | compound k ets => cases k <;> first | rfl | cases h
  | _ => rfl

theorem unionMembers_append (l₁ l₂ : List Ty) :
    unionMembers (l₁ ++ l₂) = unionMembers l₁ ++ unionMembers l₂ := by
  induction l₁ with
  | nil => rfl
  | cons t l₁ ih => rw [List.cons_append, unionMembers, unionMembers, ih, List.append_assoc]

theorem unionMembers_eq_flatten (l : List Ty) : unionMembers l = (l.map unionMember).flatten := by
  induction l with
  | nil => rfl
  | cons t l ih => rw [unionMembers, ih, List.map_cons, List.flatten_cons]

theorem unionMembers_flatten (cs : List (List Ty)) :
    unionMembers cs.flatten = (cs.map unionMembers).flatten := by
  induction cs with
  | nil => rfl
  | cons c cs ih =>
    rw [List.flatten_cons, unionMembers_append, ih, List.map_cons, List.flatten_cons]

theorem unionMembers_of_forall_not_isUnion {l : List Ty} (h : ∀ t ∈ l, t.isUnion = false) :
    unionMembers l = l := by
  induction l with
  | nil => rfl
  | cons t l ih =>
    rw [unionMembers, unionMember_of_not_isUnion (h t List.mem_cons_self),
      ih fun u hu => h u (List.mem_cons_of_mem t hu), List.singleton_append]

mutual

theorem isUnion_of_mem_unionMembers : ∀ (ts : List Ty) (t : Ty), t ∈ unionMembers ts →
    t.isUnion = false
  | [], _, ht => absurd ht List.not_mem_nil
  | u :: us, t, ht => by
    rw [unionMembers, List.mem_append] at ht
    rcases ht with ht | ht
    · exact isUnion_of_mem_unionMember u t ht
    · exact isUnion_of_mem_unionMembers us t ht

theorem isUnion_of_mem_unionMember : ∀ (u t : Ty), t ∈ unionMember u → t.isUnion = false
  | .compound .Union ets, t, ht => isUnion_of_mem_unionMembers ets t ht
  | .primitive _, _, ht | .compound .List _, _, ht | .compound .Map _, _, ht
  | .compound .Ref _, _, ht | .compound .Set _, _, ht | .struct _ _, _, ht | .cycle _, _, ht => by
    rw [List.mem_singleton.mp ht]
    rfl

end

mutual

/-- `flattenUnionTypes(ts, seenTypes)` keeps each member of `ts` not seen yet, at its first
occurrence, and adds them to the seen ones. -/
theorem flattenUnionTypes_eq : ∀ (ts seen : List Ty),
    flattenUnionTypes ts seen =
      (keepNew seen (unionMembers ts), seen ++ keepNew seen (unionMembers ts))
  | [], seen => by rw [flattenUnionTypes, unionMembers, keepNew_nil, List.append_nil]
  | t :: ts, seen => by
    rw [flattenUnionTypes, unionMembers, keepNew_append, flattenUnionMember_eq t seen]
    dsimp only
    rw [flattenUnionTypes_eq ts, List.append_assoc]

theorem flattenUnionMember_eq : ∀ (t : Ty) (seen : List Ty),
    flattenUnionMember t seen =
      (keepNew seen (unionMember t), seen ++ keepNew seen (unionMember t))
  | .compound .Union ets, seen => by rw [flattenUnionMember, unionMember, flattenUnionTypes_eq]
  | .primitive _, seen | .compound .List _, seen | .compound .Map _, seen
  | .compound .Ref _, seen | .compound .Set _, seen | .struct _ _, seen | .cycle _, seen => by
    rw [flattenUnionMember_of_not_isUnion rfl, unionMember_of_not_isUnion rfl]
    split
    · rename_i hs
      rw [keepNew_cons_of_mem hs, keepNew_nil, List.append_nil]
    · rename_i hs
      rw [keepNew_cons_of_not_mem hs, keepNew_nil]

end

theorem isUnion_of_mem_flattenUnionTypes {ts : List Ty} {t : Ty}
    (ht : t ∈ (flattenUnionTypes ts []).1) : t.isUnion = false := by
  rw [flattenUnionTypes_eq] at ht
  exact isUnion_of_mem_unionMembers ts t (mem_keepNew.mp ht).1

/-! ## The union of the members -/

section Members

variable (oid : Ty → Hash)

/-- The OID of a type as the number its bytes spell, most significant first: `Hash.Less` is the
order of these numbers. -/
def oidKey (t : Ty) : Nat := beNat (oid t).bytes

theorem less_eq_false_iff (a b : Ty) :
    (oid b).Less (oid a) = false ↔ oidKey oid a ≤ oidKey oid b := by
  rw [Hash.Less, beq_eq_false_iff_ne, ne_eq,
    bytesCompare_eq_lt_iff_beNat ((oid b).length_eq.trans (oid a).length_eq.symm), not_lt]
  rfl

theorem oid_eq_of_oidKey_eq {a b : Ty} (h : oidKey oid a = oidKey oid b) : oid a = oid b := by
  have hlen : (oid a).bytes.length = (oid b).bytes.length :=
    (oid a).length_eq.trans (oid b).length_eq.symm
  have hkey : beNat (oid a).bytes = beNat (oid b).bytes := h
  -- neither byte string is below the other, so they are one
  have hlt : bytesCompare (oid a).bytes (oid b).bytes ≠ .lt := by
    rw [ne_eq, bytesCompare_eq_lt_iff_beNat hlen, hkey]
    exact Nat.lt_irrefl _
  have hgt : bytesCompare (oid b).bytes (oid a).bytes ≠ .lt := by
    rw [ne_eq, bytesCompare_eq_lt_iff_beNat hlen.symm, hkey]
    exact Nat.lt_irrefl _
  have heq : bytesCompare (oid a).bytes (oid b).bytes = .eq := by
    rw [bytesCompare_swap] at hgt
    cases hc : bytesCompare (oid a).bytes (oid b).bytes
    · exact absurd hc hlt
    · rfl
    · rw [hc] at hgt
      exact absurd rfl hgt
  have hbytes := (bytesCompare_eq_eq_iff _ _).mp heq
  cases ha : oid a
  cases hb : oid b
  rw [ha, hb] at hbytes
  simp only [Hash.mk.injEq]
  exact hbytes

/-- The sort of `makeUnionType` is the stable sort by `oidKey`. -/
theorem insertionSort_oid_eq (ms : List Ty) :
    ms.insertionSort (fun a b => (oid b).Less (oid a) = false) =
      ms.insertionSort fun a b => oidKey oid a ≤ oidKey oid b :=
  insertionSort_congr fun a _ b _ => less_eq_false_iff oid a b

theorem makeUnionType_of_singleton {ts : List Ty} {t : Ty} (h : (flattenUnionTypes ts []).1 = [t]) :
    makeUnionType oid ts = t := by
  rw [makeUnionType, h]

theorem makeUnionType_of_not_singleton {ts : List Ty} (h : ∀ t, (flattenUnionTypes ts []).1 ≠ [t]) :
    makeUnionType oid ts = .compound .Union ((flattenUnionTypes ts []).1.insertionSort
      fun a b => oidKey oid a ≤ oidKey oid b) := by
  rw [makeUnionType, ← insertionSort_oid_eq]
  split
  · rename_i t ht
    exact absurd ht (h t)
  · rfl

/-- The union reads of its arguments only, OID by OID, which members come in which order. -/
theorem makeUnionType_eq_of_filter_eq {ts₁ ts₂ : List Ty}
    (h : ∀ k, (flattenUnionTypes ts₁ []).1.filter (fun t => oidKey oid t = k) =
      (flattenUnionTypes ts₂ []).1.filter fun t => oidKey oid t = k) :
    makeUnionType oid ts₁ = makeUnionType oid ts₂ := by
  have hperm := perm_of_filter_key_eq h
  by_cases hone : ∃ t, (flattenUnionTypes ts₁ []).1 = [t]
  · -- one member: both sides collapse to it
    obtain ⟨t, ht⟩ := hone
    rw [ht] at hperm
    rw [makeUnionType_of_singleton oid ht,
      makeUnionType_of_singleton oid (List.perm_singleton.mp hperm.symm)]
  · have hone₂ : ∀ t, (flattenUnionTypes ts₂ []).1 ≠ [t] := fun t ht =>
      hone ⟨t, List.perm_singleton.mp (ht ▸ hperm)⟩
    rw [makeUnionType_of_not_singleton oid fun t ht => hone ⟨t, ht⟩,
      makeUnionType_of_not_singleton oid hone₂, insertionSort_key_eq_of_filter_eq h]

/-- A union's members are, OID by OID, those of its arguments in their order. -/
theorem filter_unionMember_makeUnionType (ts : List Ty) (k : Nat) :
    (unionMember (makeUnionType oid ts)).filter (fun t => oidKey oid t = k) =
      (flattenUnionTypes ts []).1.filter fun t => oidKey oid t = k := by
  by_cases hone : ∃ t, (flattenUnionTypes ts []).1 = [t]
  · obtain ⟨t, ht⟩ := hone
    have hu : t.isUnion = false := isUnion_of_mem_flattenUnionTypes (ht ▸ List.mem_singleton_self t)
    rw [makeUnionType_of_singleton oid ht, unionMember_of_not_isUnion hu, ht]
  · rw [makeUnionType_of_not_singleton oid fun t ht => hone ⟨t, ht⟩, unionMember,
      unionMembers_of_forall_not_isUnion, filter_insertionSort_key]
    intro t ht
    exact isUnion_of_mem_flattenUnionTypes ((List.perm_insertionSort _ _).subset ht)

/-- The union of unions is the union of all their arguments. -/
theorem makeUnionType_map_makeUnionType (cs : List (List Ty)) :
    makeUnionType oid (cs.map (makeUnionType oid)) = makeUnionType oid cs.flatten := by
  refine makeUnionType_eq_of_filter_eq oid fun k => ?_
  have hchild : ∀ c : List Ty,
      (unionMember (makeUnionType oid c)).filter (fun t => oidKey oid t = k) =
        keepNew [] ((unionMembers c).filter fun t => oidKey oid t = k) := by
    intro c
    rw [filter_unionMember_makeUnionType, flattenUnionTypes_eq, filter_keepNew]
  rw [flattenUnionTypes_eq, flattenUnionTypes_eq, filter_keepNew, filter_keepNew,
    unionMembers_eq_flatten, unionMembers_flatten, List.filter_flatten, List.filter_flatten,
    List.map_map, List.map_map, List.map_map, Function.comp_def, Function.comp_def]
  simp only [hchild]
  rw [keepNew_flatten_map_keepNew]
  rfl

/-- Two argument lists with the same members give one union when the members' OIDs are
distinct. -/
theorem makeUnionType_eq_of_members {ts₁ ts₂ : List Ty}
    (hmem : ∀ t, t ∈ unionMembers ts₁ ↔ t ∈ unionMembers ts₂)
    (hoid : ∀ a ∈ unionMembers ts₁, ∀ b ∈ unionMembers ts₁, oid a = oid b → a = b) :
    makeUnionType oid ts₁ = makeUnionType oid ts₂ := by
  have : Std.Antisymm fun _ _ : Ty => False := ⟨fun _ _ h _ => h.elim⟩
  have : Std.Irrefl fun _ _ : Ty => False := ⟨fun _ h => h⟩
  -- each OID has one member at most, so each filter holds one type at most
  have hone : ∀ (ts : List Ty) (k : Nat), (∀ t, t ∈ unionMembers ts → t ∈ unionMembers ts₁) →
      ((keepNew [] (unionMembers ts)).filter fun t => oidKey oid t = k).Pairwise
        fun _ _ => False := by
    intro ts k hsub
    refine ((nodup_keepNew [] _).filter _).imp_of_mem fun ha hb hne => hne ?_
    rw [List.mem_filter, mem_keepNew, decide_eq_true_iff] at ha hb
    exact hoid _ (hsub _ ha.1.1) _ (hsub _ hb.1.1)
      (oid_eq_of_oidKey_eq oid (ha.2.trans hb.2.symm))
  refine makeUnionType_eq_of_filter_eq oid fun k => ?_
  rw [flattenUnionTypes_eq, flattenUnionTypes_eq]
  refine List.Pairwise.eq_of_mem_iff (hone ts₁ k fun _ h => h)
    (hone ts₂ k fun t h => (hmem t).mpr h) fun t => ?_
  rw [List.mem_filter, List.mem_filter, mem_keepNew, mem_keepNew, hmem]

/-- Two members with one OID keep the order they come in. -/
theorem makeUnionType_pair_of_oid_eq {x y : Ty} (hx : x.isUnion = false) (hy : y.isUnion = false)
    (hne : x ≠ y) (h : oid x = oid y) : makeUnionType oid [x, y] = .compound .Union [x, y] := by
  have hflat : (flattenUnionTypes [x, y] []).1 = [x, y] := by
    have hmem : ∀ t ∈ [x, y], t.isUnion = false := by
      intro t ht
      rcases List.mem_pair.mp ht with rfl | rfl
      · exact hx
      · exact hy
    rw [flattenUnionTypes_eq, unionMembers_of_forall_not_isUnion hmem,
      keepNew_cons_of_not_mem List.not_mem_nil,
      keepNew_cons_of_not_mem (by simpa using Ne.symm hne), keepNew_nil]
  have hkey : oidKey oid x ≤ oidKey oid y := by rw [oidKey, oidKey, h]
  rw [makeUnionType_of_not_singleton oid (fun t ht => by rw [hflat] at ht; cases ht), hflat,
    List.insertionSort_cons, List.insertionSort_cons, List.insertionSort_nil,
    List.orderedInsert_nil, List.orderedInsert_cons, if_pos hkey]

theorem makeUnionType_single {t : Ty} (h : t.isUnion = false) : makeUnionType oid [t] = t := by
  refine makeUnionType_of_singleton oid ?_
  rw [flattenUnionTypes_eq, unionMembers_of_forall_not_isUnion fun u hu => by
      rw [List.mem_singleton.mp hu]; exact h,
    keepNew_cons_of_not_mem List.not_mem_nil, keepNew_nil]

end Members

/-! ## The types of a prolly tree -/

/-- A sequence of a prolly tree, as far as its type goes: a leaf with its items, or a meta
sequence with its children. -/
inductive SeqTree (α : Type)
  | leaf (items : List α)
  | node (children : List (SeqTree α))

section Tree

variable (oid : Ty → Hash) {α : Type} (ty : α → Ty)

mutual

/-- The element type a sequence's type carries: at a leaf the union of its items' types
(`newListLeafSequence`, `newSetLeafSequence`, and `newMapLeafSequence` for keys and for values),
at a meta sequence the union of its children's element types (`newListMetaSequence`,
`newSetMetaSequence`, `newMapMetaSequence`). -/
def SeqTree.elemType : SeqTree α → Ty
  | .leaf items => makeUnionType oid (items.map ty)
  | .node children => makeUnionType oid (SeqTree.elemTypes children)

def SeqTree.elemTypes : List (SeqTree α) → List Ty
  | [] => []
  | c :: cs => c.elemType :: SeqTree.elemTypes cs

end

mutual

/-- The items of a sequence's leaves, in order. -/
def SeqTree.items : SeqTree α → List α
  | .leaf items => items
  | .node children => SeqTree.itemsOf children

def SeqTree.itemsOf : List (SeqTree α) → List α
  | [] => []
  | c :: cs => c.items ++ SeqTree.itemsOf cs

end

theorem SeqTree.itemsOf_eq (cs : List (SeqTree α)) :
    SeqTree.itemsOf cs = (cs.map SeqTree.items).flatten := by
  induction cs with
  | nil => rfl
  | cons c cs ih => rw [SeqTree.itemsOf, ih, List.map_cons, List.flatten_cons]

mutual

/-- Whatever the chunking, a sequence's element type is the union of its items' types. -/
theorem SeqTree.elemType_eq : ∀ t : SeqTree α,
    t.elemType oid ty = makeUnionType oid (t.items.map ty)
  | .leaf items => by rw [SeqTree.elemType, SeqTree.items]
  | .node children => by
    rw [SeqTree.elemType, SeqTree.elemTypes_eq children, SeqTree.items, SeqTree.itemsOf_eq,
      List.map_flatten, List.map_map, ← makeUnionType_map_makeUnionType, List.map_map]
    rfl

theorem SeqTree.elemTypes_eq : ∀ cs : List (SeqTree α),
    SeqTree.elemTypes oid ty cs = cs.map fun c => makeUnionType oid (c.items.map ty)
  | [] => rfl
  | c :: cs => by
    rw [SeqTree.elemTypes, SeqTree.elemType_eq c, SeqTree.elemTypes_eq cs, List.map_cons]

end

end Tree

/-! ## OIDs (`generateOID`, `encodeForOID`) -/

section OID

variable (hashOf : List UInt8 → Hash)

/-- `data[i] ^= o[i]` over the OIDs `os`, for each of the twenty bytes. -/
def xorHashes (os : List Hash) : List UInt8 :=
  (List.range 20).map fun i => os.foldl (fun acc o => acc ^^^ o.bytes.getD i 0) 0

mutual

/-- `encodeForOID(t, buf, true, root, parentStructTypes)` for a type that is not the root. A union
is its kind, its number of members and the XOR of its members' OIDs, each OID once (`oids` is a
set). A struct already on the path is the `Cycle<n>` of the tree. -/
def encodeForOID : Ty → List UInt8
  | .primitive k => [kindByte k.kind]
  | .compound .Union ets =>
    -- `buf.writeBytes(data)`: its length, then the bytes
    kindByte .UnionKind :: uint32Bytes ets.length ++ uint32Bytes 20 ++
      xorHashes (memberOIDs ets).dedup
  | .compound k ets => kindByte k.kind :: uint32Bytes ets.length ++ encodeForOIDs ets
  | .struct name fields =>
    kindByte .StructKind :: binaryNomsWriter.bytes (.writeString name.toUTF8.toList) ++
      encodeFieldsForOID fields
  | .cycle n => kindByte .CycleKind :: uint32Bytes n

def encodeForOIDs : List Ty → List UInt8
  | [] => []
  | t :: ts => encodeForOID t ++ encodeForOIDs ts

/-- `hash.Of(mbuf.data())` of each member. -/
def memberOIDs : List Ty → List Hash
  | [] => []
  | t :: ts => hashOf (encodeForOID t) :: memberOIDs ts

def encodeFieldsForOID : List (String × Ty) → List UInt8
  | [] => []
  | (name, t) :: fields =>
    binaryNomsWriter.bytes (.writeString name.toUTF8.toList) ++ encodeForOID t ++
      encodeFieldsForOID fields

end

/-- `generateOID(t, true)` for a type with no OID yet. A union is the root of its own encoding,
where `encodeForOID` stops after the kind. -/
def generateOID : Ty → Hash
  | .compound .Union _ => hashOf [kindByte .UnionKind]
  | t => hashOf (encodeForOID hashOf t)

theorem encodeForOID_compound {k : CompoundKind} (hk : k ≠ .Union) (ets : List Ty) :
    encodeForOID hashOf (.compound k ets) =
      kindByte k.kind :: uint32Bytes ets.length ++ encodeForOIDs hashOf ets := by
  cases k <;> first | rfl | exact absurd rfl hk

theorem generateOID_of_not_isUnion {t : Ty} (h : t.isUnion = false) :
    generateOID hashOf t = hashOf (encodeForOID hashOf t) := by
  cases t with
  | compound k ets => cases k <;> first | rfl | cases h
  | _ => rfl

theorem memberOIDs_eq_map (ts : List Ty) :
    memberOIDs hashOf ts = ts.map fun t => hashOf (encodeForOID hashOf t) := by
  induction ts with
  | nil => rfl
  | cons t ts ih => rw [memberOIDs, ih, List.map_cons]

theorem xorHashes_perm {os os' : List Hash} (h : os.Perm os') : xorHashes os = xorHashes os' := by
  refine List.map_congr_left fun i _ => ?_
  have : RightCommutative fun (acc : UInt8) (o : Hash) => acc ^^^ o.bytes.getD i 0 :=
    ⟨fun acc o o' => by
      rw [UInt8.xor_assoc, UInt8.xor_comm (o.bytes.getD i 0), ← UInt8.xor_assoc]⟩
  exact h.foldl_eq 0

/-- The encoding of a union does not see the order of its members. -/
theorem encodeForOID_union_perm {ets ets' : List Ty} (h : ets.Perm ets') :
    encodeForOID hashOf (.compound .Union ets) = encodeForOID hashOf (.compound .Union ets') := by
  have hoids : (memberOIDs hashOf ets).dedup.Perm (memberOIDs hashOf ets').dedup := by
    rw [memberOIDs_eq_map, memberOIDs_eq_map]
    exact (h.map _).dedup
  rw [encodeForOID, encodeForOID, h.length_eq, xorHashes_perm hoids]

end OID

/-! ## The claim -/

/-- A list type whose union is written in the other order, as `readUnionType` decodes it, has the
same OID whatever `hash.Of` is: the union of the two types depends on the order of the arguments,
though both orders stand for the same two members. -/
theorem makeUnionType_order_of_decoded_union (hashOf : List UInt8 → Hash) :
    (∀ t, t ∈ unionMembers
        [makeListType (.compound .Union [.primitive .Number, .primitive .String]),
          makeListType (.compound .Union [.primitive .String, .primitive .Number])] ↔
      t ∈ unionMembers
        [makeListType (.compound .Union [.primitive .String, .primitive .Number]),
          makeListType (.compound .Union [.primitive .Number, .primitive .String])]) ∧
    makeUnionType (generateOID hashOf)
        [makeListType (.compound .Union [.primitive .Number, .primitive .String]),
          makeListType (.compound .Union [.primitive .String, .primitive .Number])] ≠
      makeUnionType (generateOID hashOf)
        [makeListType (.compound .Union [.primitive .String, .primitive .Number]),
          makeListType (.compound .Union [.primitive .Number, .primitive .String])] := by
  have hne : makeListType (.compound .Union [.primitive .Number, .primitive .String]) ≠
      makeListType (.compound .Union [.primitive .String, .primitive .Number]) := by
    decide
  -- the two list types have one OID
  have hoid :
      generateOID hashOf
          (makeListType (.compound .Union [.primitive .Number, .primitive .String])) =
        generateOID hashOf
          (makeListType (.compound .Union [.primitive .String, .primitive .Number])) := by
    rw [generateOID_of_not_isUnion hashOf rfl, generateOID_of_not_isUnion hashOf rfl, makeListType,
      makeListType, encodeForOID_compound hashOf (by decide),
      encodeForOID_compound hashOf (by decide),
      encodeForOIDs, encodeForOIDs,
      encodeForOID_union_perm hashOf
        (List.Perm.swap (Ty.primitive .String) (.primitive .Number) [])]
    rfl
  refine ⟨fun t => (List.Perm.swap _ _ []).mem_iff, fun h => hne ?_⟩
  rw [makeUnionType_pair_of_oid_eq _ rfl rfl hne hoid,
    makeUnionType_pair_of_oid_eq _ rfl rfl (Ne.symm hne) hoid.symm] at h
  injection h with _ h
  exact (List.cons.inj h).1

/-- A hash a test gives bytes: their first twenty, padded with zeros. -/
def prefixHash (bs : List UInt8) : Hash :=
  ⟨(bs ++ List.replicate 20 0).take 20, List.length_take_of_le (by simp)⟩

end Noms.Types
