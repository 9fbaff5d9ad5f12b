import Noms.Types.ValueOrder
import Noms.Lib.LastOfRuns
import Mathlib

/-!
# The data of a new map or set (`map.go`, `set.go`)

`NewMap(kv...)` and `NewSet(v...)` normalise their arguments before building the tree:
`buildMapData` pairs up the arguments into `mapEntry`s, and both sort stably by `Less` and then
keep, of each run of `Equals` elements, the last (`sortLastOfRuns`). `sort.Stable` sorts blocks of
twenty by insertion and merges them; on a total preorder every stable sort gives the same list, and
the model sorts by insertion.

With no NaN among the keys and no two keys sharing a hash, `Less` and `Equals` are `<` and `=` on
the value order's keys (`ValueOrder`), so the map's entries are the last pair of each key, in
ascending key order, which is the map that `Set(k, v)` for every pair in order builds from the
empty one (`setAll`); the set's elements are the distinct values, ascending
(`buildMapData_buildSetData_normalize`). A NaN key breaks it: `Less` and `Equals` are both false on
two NaNs, so both pairs are kept (`buildMapData_nan_keys`).
-/

namespace Noms.Types

open Noms.Lib

variable {C : Type} (hashOf : Value C → Hash)

/-- `mapEntry`. -/
structure MapEntry (C : Type) where
  key : Value C
  value : Value C
deriving DecidableEq

/-- `kvs[i/2] = mapEntry{values[i], values[i+1]}` for every even `i`. -/
def toMapEntries : List (Value C) → List (MapEntry C)
  | k :: v :: rest => ⟨k, v⟩ :: toMapEntries rest
  | _ => []

/-- `buildMapData(values)`: `none` for the panic on an odd number of values. -/
def buildMapData (values : List (Value C)) : Option (List (MapEntry C)) :=
  if values.isEmpty then some []
  else if values.length % 2 ≠ 0 then none
  else some (sortLastOfRuns (fun a b => a.key.Less hashOf b.key)
    (fun kv last => kv.key.Equals hashOf last.key) (toMapEntries values))

/-- `buildSetData(values)`. -/
def buildSetData (values : List (Value C)) : List (Value C) :=
  if values.isEmpty then []
  else sortLastOfRuns (fun a b => a.Less hashOf b) (fun v last => v.Equals hashOf last) values

/-- The entries of the map that `Set(k, v)` for each entry in order builds from the empty map:
an ordered store keyed by the value order. -/
def setAll (entries : List (MapEntry C)) : List (MapEntry C) :=
  (SortedMap.putAllBy (fun e => e.key.orderKey hashOf) [] entries).map Prod.snd

namespace Value

variable {hashOf} {a b : Value C}

/-- Without NaN, and with distinct hashes, a value is determined by its key. -/
theorem orderKey_eq_iff (ha : a.isNaN = false) (hb : b.isNaN = false)
    (hsep : hashOf a = hashOf b → a = b) : a.orderKey hashOf = b.orderKey hashOf ↔ a = b := by
  constructor
  · intro h
    cases a with
    | number x =>
      cases b with
      | number y =>
        have hx := float_ne_nan ha
        have hy := float_ne_nan hb
        simp only [orderKey, EmbeddingLike.apply_eq_iff_eq, Sum.inr.injEq, Sum.inl.injEq] at h
        cases x <;> cases y <;> simp_all [Float64.ext]
      | _ => simp [orderKey] at h
    | hashed k c =>
      cases b with
      | hashed k₂ c₂ =>
        simp only [orderKey, EmbeddingLike.apply_eq_iff_eq, Sum.inr.injEq] at h
        exact hsep ((hash_eq_iff _ _).mpr h)
      | _ => simp [orderKey] at h
    | _ => cases b <;> simp_all [orderKey, byteVals_injective.eq_iff]
  · rintro rfl
    rfl

theorem less_eq_decide (ha : a.isNaN = false) (hb : b.isNaN = false) :
    a.Less hashOf b = decide (a.orderKey hashOf < b.orderKey hashOf) := by
  rw [Bool.eq_iff_iff, less_iff_orderKey hashOf ha hb, decide_eq_true_iff]

theorem equals_eq_decide (ha : a.isNaN = false) (hb : b.isNaN = false)
    (hsep : hashOf a = hashOf b → a = b) :
    a.Equals hashOf b = decide (a.orderKey hashOf = b.orderKey hashOf) := by
  rw [Bool.eq_iff_iff, equals_iff_orderKey hashOf ha hb hsep, decide_eq_true_iff]

end Value

section Normalize

variable {hashOf} [DecidableEq C]

/-- On keys that `orderKey_eq_iff` separates, the last entry under an equal key is the last under
an equal order key. -/
theorem lastWithKey_orderKey {l : List (MapEntry C)} {e : MapEntry C} (he : e ∈ l)
    (hnan : ∀ e ∈ l, e.key.isNaN = false)
    (hsep : ∀ e ∈ l, ∀ e' ∈ l, hashOf e.key = hashOf e'.key → e.key = e'.key) :
    lastWithKey (fun e => e.key.orderKey hashOf) l (e.key.orderKey hashOf) =
      (l.filter fun e' => e'.key = e.key).getLast? := by
  unfold lastWithKey
  congr 1
  refine List.filter_congr fun e' he' => ?_
  exact decide_eq_decide.mpr (Value.orderKey_eq_iff (hnan e' he') (hnan e he) (hsep e' he' e he))

/-- With keys that are not NaN and do not share hashes, the map's data is the last entry of each
key in ascending order, the map that `Set` for each pair builds; the set's data is its distinct
values, ascending. -/
theorem buildMapData_buildSetData_normalize (kv vs : List (Value C)) (heven : kv.length % 2 = 0)
    (hnan : ∀ e ∈ toMapEntries kv, e.key.isNaN = false)
    (hsep : ∀ e ∈ toMapEntries kv, ∀ e' ∈ toMapEntries kv,
      hashOf e.key = hashOf e'.key → e.key = e'.key)
    (hnan' : ∀ v ∈ vs, v.isNaN = false) (hsep' : ∀ v ∈ vs, ∀ w ∈ vs, hashOf v = hashOf w → v = w) :
    (∃ out, buildMapData hashOf kv = some out ∧
      out.Pairwise (fun a b => a.key.Less hashOf b.key = true) ∧
      (∀ e, e ∈ out ↔ ((toMapEntries kv).filter fun e' => e'.key = e.key).getLast? = some e) ∧
      (∀ p ∈ toMapEntries kv, ∃ e ∈ out, e.key = p.key) ∧
      out = setAll hashOf (toMapEntries kv)) ∧
    (buildSetData hashOf vs).Pairwise (fun a b => a.Less hashOf b = true) ∧
      ∀ v, v ∈ buildSetData hashOf vs ↔ v ∈ vs := by
  have hmap : buildMapData hashOf kv = some (sortLastOfRuns (fun a b => a.key.Less hashOf b.key)
      (fun kv last => kv.key.Equals hashOf last.key) (toMapEntries kv)) := by
    unfold buildMapData
    split_ifs with hempty hodd
    · rw [List.isEmpty_iff.mp hempty]
      rfl
    · exact absurd heven hodd
    · rfl
  set l := toMapEntries kv
  have hless : ∀ a ∈ l, ∀ b ∈ l,
      a.key.Less hashOf b.key = decide (a.key.orderKey hashOf < b.key.orderKey hashOf) :=
    fun a ha b hb => Value.less_eq_decide (hnan a ha) (hnan b hb)
  have hequals : ∀ a ∈ l, ∀ b ∈ l,
      a.key.Equals hashOf b.key = decide (a.key.orderKey hashOf = b.key.orderKey hashOf) :=
    fun a ha b hb => Value.equals_eq_decide (hnan a ha) (hnan b hb) (hsep a ha b hb)
  have hless' : ∀ a ∈ vs, ∀ b ∈ vs, a.Less hashOf b = decide (a.orderKey hashOf < b.orderKey hashOf) :=
    fun a ha b hb => Value.less_eq_decide (hnan' a ha) (hnan' b hb)
  have hequals' : ∀ a ∈ vs, ∀ b ∈ vs,
      a.Equals hashOf b = decide (a.orderKey hashOf = b.orderKey hashOf) :=
    fun a ha b hb => Value.equals_eq_decide (hnan' a ha) (hnan' b hb) (hsep' a ha b hb)
  have hmem := mem_sortLastOfRuns hless hequals
  have hset : buildSetData hashOf vs =
      sortLastOfRuns (fun a b => a.Less hashOf b) (fun v last => v.Equals hashOf last) vs := by
    unfold buildSetData
    split_ifs with hempty
    · rw [List.isEmpty_iff.mp hempty]
      rfl
    · rfl
  have hmem' := mem_sortLastOfRuns hless' hequals'
  refine ⟨⟨_, hmap, ?_, fun e => ?_, fun p hp => ?_,
    sortLastOfRuns_eq_putAllBy hless hequals⟩, ?_, fun v => ?_⟩
  · -- the keys ascend in the key order, which is `Less`
    refine (pairwise_sortLastOfRuns hless hequals).imp_of_mem fun ha hb h => ?_
    have ha' := (lastWithKey_eq_some ((hmem _).mp ha)).1
    have hb' := (lastWithKey_eq_some ((hmem _).mp hb)).1
    rw [hless _ ha' _ hb']
    exact decide_eq_true h
  · constructor
    · intro h
      have he := (lastWithKey_eq_some ((hmem e).mp h)).1
      rw [← lastWithKey_orderKey he hnan hsep]
      exact (hmem e).mp h
    · intro h
      have he : e ∈ l := (List.mem_filter.mp (List.mem_of_getLast? h)).1
      rw [← lastWithKey_orderKey he hnan hsep] at h
      exact (hmem e).mpr h
  · -- the last entry under `p`'s key is kept, and has `p`'s key
    have hlast : ∃ e, lastWithKey (fun e : MapEntry C => e.key.orderKey hashOf) l
        (p.key.orderKey hashOf) = some e := exists_lastWithKey_of_mem hp
    obtain ⟨e, he⟩ := hlast
    obtain ⟨hel, hek⟩ := lastWithKey_eq_some he
    refine ⟨e, (hmem e).mpr (hek ▸ he), ?_⟩
    exact (Value.orderKey_eq_iff (hnan e hel) (hnan p hp) (hsep e hel p hp)).mp hek
  · rw [hset]
    refine (pairwise_sortLastOfRuns hless' hequals').imp_of_mem fun ha hb h => ?_
    have ha' := (lastWithKey_eq_some ((hmem' _).mp ha)).1
    have hb' := (lastWithKey_eq_some ((hmem' _).mp hb)).1
    rw [hless' _ ha' _ hb']
    exact decide_eq_true h
  · rw [hset, hmem']
    constructor
    · intro h
      exact (lastWithKey_eq_some h).1
    · -- the last value with `v`'s key is `v` itself
      intro hv
      have hlast : ∃ w, lastWithKey (fun v : Value C => v.orderKey hashOf) vs
          (v.orderKey hashOf) = some w := exists_lastWithKey_of_mem hv
      obtain ⟨w, hw⟩ := hlast
      obtain ⟨hwl, hwk⟩ := lastWithKey_eq_some hw
      rw [(Value.orderKey_eq_iff (hnan' w hwl) (hnan' v hv) (hsep' w hwl v hv)).mp hwk] at hw
      exact hw

/-- A hash that tells strings apart by their first byte. -/
def firstByteHash : Value Unit → Hash
  | .string (b :: _) => ⟨b :: List.replicate 19 0, rfl⟩
  | _ => ⟨List.replicate 20 0, by decide⟩

/-- `NewMap("b", false, "a", true, "b", true)` and `NewSet("b", "a", "b")`. -/
def sampleKV : List (Value Unit) :=
  [.string [2], .bool false, .string [1], .bool true, .string [2], .bool true]

def sampleVs : List (Value Unit) := [.string [2], .string [1], .string [2]]

theorem buildMapData_buildSetData_normalize_sample :
    (∃ out, buildMapData firstByteHash sampleKV = some out ∧
      out.Pairwise (fun a b => a.key.Less firstByteHash b.key = true) ∧
      (∀ e, e ∈ out ↔ ((toMapEntries sampleKV).filter fun e' => e'.key = e.key).getLast? = some e) ∧
      (∀ p ∈ toMapEntries sampleKV, ∃ e ∈ out, e.key = p.key) ∧
      out = setAll firstByteHash (toMapEntries sampleKV)) ∧
    (buildSetData firstByteHash sampleVs).Pairwise (fun a b => a.Less firstByteHash b = true) ∧
      ∀ v, v ∈ buildSetData firstByteHash sampleVs ↔ v ∈ sampleVs :=
  buildMapData_buildSetData_normalize sampleKV sampleVs (by decide) (by decide) (by decide)
    (by decide) (by decide)

example : buildMapData firstByteHash sampleKV =
    some [⟨.string [1], .bool true⟩, ⟨.string [2], .bool true⟩] := by
  decide

/-- Two pairs under a NaN key: the sort leaves them, and the loop keeps both, since a NaN does
not `Equals` itself. -/
theorem buildMapData_nan_keys :
    buildMapData Value.kindHash [.number .nan, .bool true, .number .nan, .bool false] =
      some [⟨.number .nan, .bool true⟩, ⟨.number .nan, .bool false⟩] := by
  decide

end Normalize

end Noms.Types
