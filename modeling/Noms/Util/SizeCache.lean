import Noms.Lib.Lru
import Mathlib

/-!
# `SizeCache`: an LRU cache bounded by the total size of its values

`util/sizecache` keeps three structures in step: a map from key to entry (size and value), a
list of the keys from the least to the most recently used, and the running total of the sizes.
`Get` and a repeated `Add` move the key to the back; a new `Add` appends it and evicts from the
front while the total exceeds `maxSize`; `Drop` removes the key. The mutex only serialises the
calls, which run here one after another.

Sizes and the total are `uint64`, so `c.totalSize += ce.size` wraps. The model keeps them as
`UInt64`. Below `2 ^ 63` no sum of two sizes that fit can wrap, and the cache is the abstract LRU
cache of `Noms.Lib.Lru` under the budget `maxSize` (`run_refines`). Above it, two entries of size
`2 ^ 63` wrap the total to `0` and are both kept.
-/

namespace Noms.Util

open Noms.Lib

/-- A `sizeCacheEntry`, without its list element: the cache finds that by its key. -/
structure SizeCacheEntry (V : Type) where
  size : UInt64
  value : V

/-- A `SizeCache`, without its mutex. -/
structure SizeCache (K V : Type) where
  totalSize : UInt64
  maxSize : UInt64
  lru : List K
  cache : K → Option (SizeCacheEntry V)

namespace SizeCache

variable {K V : Type} [DecidableEq K]

/-- `New(maxSize)`. -/
def new (maxSize : UInt64) : SizeCache K V :=
  ⟨0, maxSize, [], fun _ => none⟩

/-- `lru.MoveToBack(e)` for the element that holds `key`. -/
def moveToBack (key : K) (lru : List K) : List K :=
  lru.erase key ++ [key]

/-- `c.entry(key)`: a hit moves the key to the back of the lru list. -/
def entry (c : SizeCache K V) (key : K) : Option (SizeCacheEntry V) × SizeCache K V :=
  match c.cache key with
  | none => (none, c)
  | some e => (some e, { c with lru := moveToBack key c.lru })

/-- `c.Get(key)`. -/
def get (c : SizeCache K V) (key : K) : Option V × SizeCache K V :=
  match entry c key with
  | (some e, c) => (some e.value, c)
  | (none, c) => (none, c)

/-- The eviction loop of `Add`: from the front of the lru list, delete entries while the total
exceeds `maxSize`. A key without an entry is `d.Panic("SizeCache is missing expected value")`. -/
def evict (maxSize : UInt64) :
    List K → (K → Option (SizeCacheEntry V)) → UInt64 →
      Option (List K × (K → Option (SizeCacheEntry V)) × UInt64)
  | [], cache, total => some ([], cache, total)
  | key :: rest, cache, total =>
    if maxSize < total then
      match cache key with
      | none => none
      | some ce => evict maxSize rest (Function.update cache key none) (total - ce.size)
    else some (key :: rest, cache, total)

/-- `c.Add(key, size, value)`: ignored above `maxSize`, a use of a present key, and otherwise an
insertion at the back followed by the eviction loop. -/
def add (c : SizeCache K V) (key : K) (size : UInt64) (value : V) : Option (SizeCache K V) :=
  if size ≤ c.maxSize then
    match entry c key with
    | (some _, c) => some c
    | (none, c) =>
      let cache := Function.update c.cache key (some ⟨size, value⟩)
      (evict c.maxSize (c.lru ++ [key]) cache (c.totalSize + size)).map
        fun (lru, cache, totalSize) => { c with totalSize := totalSize, lru := lru, cache := cache }
  else some c

/-- `c.Drop(key)`. -/
def drop (c : SizeCache K V) (key : K) : SizeCache K V :=
  match entry c key with
  | (some e, c) =>
    { c with totalSize := c.totalSize - e.size, lru := c.lru.erase key,
             cache := Function.update c.cache key none }
  | (none, c) => c

/-- A call on the cache. -/
inductive Call (K V : Type) where
  | add (key : K) (size : UInt64) (value : V)
  | get (key : K)
  | drop (key : K)

/-- One call: the cache after it, and what a `Get` returns. -/
def step (c : SizeCache K V) : Call K V → Option (SizeCache K V × Option V)
  | .add key size value => (add c key size value).map fun c => (c, none)
  | .get key => some ((get c key).2, (get c key).1)
  | .drop key => some (drop c key, none)

/-- A sequence of calls: the final cache and what each call returned. -/
def run (c : SizeCache K V) : List (Call K V) → Option (SizeCache K V × List (Option V))
  | [] => some (c, [])
  | call :: calls => do
    let (c', r) ← step c call
    let (c'', rs) ← run c' calls
    pure (c'', r :: rs)

/-! ## The abstract cache -/

/-- An entry's weight under the budget: its size. -/
def entrySize (e : SizeCacheEntry V) : Nat :=
  e.size.toNat

/-- The entries of `keys` that the map holds, in the order of `keys`. -/
def entriesOf (cache : K → Option (SizeCacheEntry V)) (keys : List K) :
    List (K × SizeCacheEntry V) :=
  keys.filterMap fun k => (cache k).map fun e => (k, e)

/-- The cache as the abstract LRU list: its entries from least to most recently used. -/
def entries (c : SizeCache K V) : List (K × SizeCacheEntry V) :=
  entriesOf c.cache c.lru

/-- A call as an operation of the abstract cache. -/
def Call.toOp : Call K V → Lru.Op K (SizeCacheEntry V)
  | .add key size value => .add key ⟨size, value⟩
  | .get key => .get key
  | .drop key => .drop key

/-- What the three structures keep in step: the lru list holds each key of the map once, and
the total is the sizes' sum, within `maxSize`. -/
structure Inv (c : SizeCache K V) : Prop where
  nodup : c.lru.Nodup
  mem_iff : ∀ k, k ∈ c.lru ↔ (c.cache k).isSome
  total : c.totalSize.toNat = Lru.weight entrySize (entries c)
  le_max : c.totalSize ≤ c.maxSize

/-! ## The entries of a list of keys -/

section Entries

variable {cache cache' : K → Option (SizeCacheEntry V)}

omit [DecidableEq K] in
@[simp]
theorem entriesOf_nil : entriesOf cache [] = [] := rfl

omit [DecidableEq K] in
theorem entriesOf_cons_of_some {k : K} {e : SizeCacheEntry V} (h : cache k = some e)
    (ks : List K) : entriesOf cache (k :: ks) = (k, e) :: entriesOf cache ks := by
  simp [entriesOf, h]

omit [DecidableEq K] in
@[simp]
theorem entriesOf_append (ks ks' : List K) :
    entriesOf cache (ks ++ ks') = entriesOf cache ks ++ entriesOf cache ks' := by
  simp [entriesOf]

omit [DecidableEq K] in
theorem entriesOf_congr {ks : List K} (h : ∀ k ∈ ks, cache k = cache' k) :
    entriesOf cache ks = entriesOf cache' ks := by
  unfold entriesOf
  exact List.filterMap_congr fun k hk => by rw [h k hk]

/-- An update off the keys does not show. -/
theorem entriesOf_update_of_not_mem {ks : List K} {k : K} (hk : k ∉ ks)
    (v : Option (SizeCacheEntry V)) : entriesOf (Function.update cache k v) ks = entriesOf cache ks :=
  entriesOf_congr fun j hj => Function.update_of_ne (fun h : j = k => hk (h ▸ hj)) _ _

theorem entriesOf_filter (ks : List K) (k : K) :
    entriesOf cache (ks.filter (· != k)) = (entriesOf cache ks).filter (fun e => e.1 ≠ k) := by
  rw [entriesOf, entriesOf, List.filterMap_filter, List.filter_filterMap]
  refine List.filterMap_congr fun j _ => ?_
  by_cases hjk : j = k <;> cases cache j <;> simp [hjk, Option.filter]

omit [DecidableEq K] in
theorem map_fst_entriesOf {ks : List K} (h : ∀ k ∈ ks, (cache k).isSome) :
    (entriesOf cache ks).map Prod.fst = ks := by
  induction ks with
  | nil => rfl
  | cons k ks ih =>
    obtain ⟨e, he⟩ := Option.isSome_iff_exists.mp (h k List.mem_cons_self)
    rw [entriesOf_cons_of_some he, List.map_cons,
      ih fun j hj => h j (List.mem_cons_of_mem _ hj)]

theorem lookup_entriesOf {ks : List K} (h : ∀ k ∈ ks, (cache k).isSome) (j : K) :
    (entriesOf cache ks).lookup j = if j ∈ ks then cache j else none := by
  induction ks with
  | nil => rfl
  | cons k ks ih =>
    obtain ⟨e, he⟩ := Option.isSome_iff_exists.mp (h k List.mem_cons_self)
    rw [entriesOf_cons_of_some he, List.lookup_cons,
      ih fun j hj => h j (List.mem_cons_of_mem _ hj)]
    by_cases hjk : j = k
    · subst hjk
      simp [he]
    · have hbeq : (j == k) = false := by simpa using hjk
      simp [hbeq, hjk]

end Entries

/-! ## What the invariant gives -/

section Inv

variable {c : SizeCache K V}

omit [DecidableEq K] in
theorem Inv.isSome_of_mem (hinv : Inv c) {k : K} (hk : k ∈ c.lru) : (c.cache k).isSome :=
  (hinv.mem_iff k).mp hk

omit [DecidableEq K] in
theorem Inv.cache_eq_none (hinv : Inv c) {k : K} (hk : k ∉ c.lru) : c.cache k = none :=
  Option.not_isSome_iff_eq_none.mp fun h => hk ((hinv.mem_iff k).mpr h)

theorem Inv.lookup_entries (hinv : Inv c) (k : K) : (entries c).lookup k = c.cache k := by
  rw [entries, lookup_entriesOf fun j hj => hinv.isSome_of_mem hj]
  by_cases hk : k ∈ c.lru
  · rw [if_pos hk]
  · rw [if_neg hk, hinv.cache_eq_none hk]

omit [DecidableEq K] in
theorem Inv.keys_nodup (hinv : Inv c) : ((entries c).map Prod.fst).Nodup := by
  rw [entries, map_fst_entriesOf fun j hj => hinv.isSome_of_mem hj]
  exact hinv.nodup

omit [DecidableEq K] in
theorem Inv.valid (hinv : Inv c) : Lru.Valid entrySize c.maxSize.toNat (entries c) :=
  ⟨hinv.keys_nodup, hinv.total ▸ hinv.le_max⟩

omit [DecidableEq K] in
theorem inv_new (maxSize : UInt64) : Inv (new maxSize : SizeCache K V) where
  nodup := List.nodup_nil
  mem_iff _ := by simp [new]
  total := rfl
  le_max := by simp [new, UInt64.le_iff_toNat_le]

end Inv

/-! ## One call at a time -/

section Calls

variable {c : SizeCache K V}

/-- `c'` is what the abstract cache makes of `c` under `op`, and keeps the invariant. -/
structure Refines (c c' : SizeCache K V) (op : Lru.Op K (SizeCacheEntry V)) : Prop where
  inv : Inv c'
  maxSize : c'.maxSize = c.maxSize
  entries : entries c' = (Lru.step entrySize c.maxSize.toNat (entries c) op).1

theorem moveToBack_perm {k : K} {lru : List K} (hk : k ∈ lru) : (moveToBack k lru).Perm lru :=
  (List.perm_append_singleton k _).trans (List.perm_cons_erase hk).symm

/-- A hit of `entry`: the key moves to the back, which is the abstract cache's touch. -/
theorem entry_of_some (hinv : Inv c) {k : K} {e : SizeCacheEntry V} (he : c.cache k = some e) :
    entry c k = (some e, { c with lru := moveToBack k c.lru }) ∧
      Refines c { c with lru := moveToBack k c.lru } (.get k) := by
  have hk : k ∈ c.lru := (hinv.mem_iff k).mpr (by simp [he])
  have hperm := moveToBack_perm hk
  -- the moved list is the old one without `k`, then `k`
  have hentries : entriesOf c.cache (moveToBack k c.lru) = Lru.touch k (entries c) := by
    rw [moveToBack, hinv.nodup.erase_eq_filter, entriesOf_append, entriesOf_filter,
      Lru.touch_of_lookup ((hinv.lookup_entries k).trans he)]
    simp [entriesOf, he, entries]
  refine ⟨by simp [entry, he], ⟨?_, rfl, hentries⟩⟩
  refine ⟨hperm.nodup_iff.mpr hinv.nodup, fun j => hperm.mem_iff.trans (hinv.mem_iff j), ?_,
    hinv.le_max⟩
  show c.totalSize.toNat = Lru.weight entrySize (entriesOf c.cache (moveToBack k c.lru))
  rw [hentries, hinv.total, Lru.weight_perm _ (Lru.touch_perm hinv.keys_nodup k)]

theorem entry_of_none {k : K} (he : c.cache k = none) : entry c k = (none, c) := by
  simp [entry, he]

theorem get_refines (hinv : Inv c) (k : K) :
    Refines c (get c k).2 (.get k) ∧
      (get c k).1 = ((Lru.step entrySize c.maxSize.toNat (entries c) (.get k)).2).map (·.value) := by
  cases he : c.cache k with
  | none =>
    have hl : (entries c).lookup k = none := (hinv.lookup_entries k).trans he
    have hget : get c k = (none, c) := by simp [get, entry_of_none he]
    rw [hget]
    exact ⟨⟨hinv, rfl, by simp [Lru.step, Lru.touch_of_lookup_none hl]⟩, by simp [Lru.step, hl]⟩
  | some e =>
    obtain ⟨hentry, hrefines⟩ := entry_of_some hinv he
    refine ⟨by simpa [get, hentry] using hrefines, ?_⟩
    simp [get, hentry, Lru.step, (hinv.lookup_entries k).trans he]

theorem drop_refines (hinv : Inv c) (k : K) : Refines c (drop c k) (.drop k) := by
  cases he : c.cache k with
  | none =>
    have hl : (entries c).lookup k = none := (hinv.lookup_entries k).trans he
    rw [drop, entry_of_none he]
    exact ⟨hinv, rfl, by simp only [Lru.step]; exact (Lru.filter_of_lookup_none hl).symm⟩
  | some e =>
    obtain ⟨hentry, -⟩ := entry_of_some hinv he
    have hl : (entries c).lookup k = some e := (hinv.lookup_entries k).trans he
    have hnot : k ∉ c.lru.erase k := hinv.nodup.not_mem_erase
    -- after `MoveToBack`, removing `k`'s element leaves the others in their order
    have hlru : (moveToBack k c.lru).erase k = c.lru.erase k := by
      rw [moveToBack, List.erase_append_right _ hnot, List.erase_cons_head, List.append_nil]
    have hentries : entriesOf (Function.update c.cache k none) (c.lru.erase k) =
        (entries c).filter (fun e => e.1 ≠ k) := by
      rw [entriesOf_update_of_not_mem hnot, hinv.nodup.erase_eq_filter, entriesOf_filter, entries]
    have hweight := Lru.weight_filter_add hinv.keys_nodup hl (w := entrySize)
    have hle : e.size ≤ c.totalSize := by
      rw [UInt64.le_iff_toNat_le, hinv.total, ← hweight]
      simp [entrySize]
    rw [drop, hentry]
    dsimp only
    rw [hlru]
    refine ⟨⟨hinv.nodup.sublist List.erase_sublist, fun j => ?_, ?_, ?_⟩, rfl, hentries⟩
    · by_cases hjk : j = k
      · subst hjk
        simp [hnot]
      · simp [List.mem_erase_of_ne hjk, Function.update_of_ne hjk, hinv.mem_iff j]
    · show (c.totalSize - e.size).toNat = Lru.weight entrySize
        (entriesOf (Function.update c.cache k none) (c.lru.erase k))
      rw [hentries, UInt64.toNat_sub_of_le _ _ hle, hinv.total, ← hweight]
      simp [entrySize]
    · show c.totalSize - e.size ≤ c.maxSize
      have := hinv.le_max
      rw [UInt64.le_iff_toNat_le] at this ⊢
      rw [UInt64.toNat_sub_of_le _ _ hle]
      omega

end Calls

/-! ## The eviction loop -/

section Evict

/-- The eviction loop drops a prefix of the keys, as many as the abstract cache's `fit` drops of
the entries, and deletes exactly those from the map. -/
theorem evict_spec (maxSize : UInt64) :
    ∀ (ks : List K) (cache : K → Option (SizeCacheEntry V)) (total : UInt64), ks.Nodup →
      (∀ k ∈ ks, (cache k).isSome) →
      total.toNat = Lru.weight entrySize (entriesOf cache ks) →
      ∃ n cache' total', evict maxSize ks cache total = some (ks.drop n, cache', total') ∧
        (∀ j, cache' j = if j ∈ ks.take n then none else cache j) ∧
        total'.toNat = Lru.weight entrySize (entriesOf cache (ks.drop n)) ∧
        entriesOf cache (ks.drop n) = Lru.fit entrySize maxSize.toNat (entriesOf cache ks)
  | [], cache, total, _, _, htotal =>
    ⟨0, cache, total, rfl, fun j => by simp, htotal, rfl⟩
  | k :: rest, cache, total, hnd, hsome, htotal => by
    obtain ⟨e, he⟩ := Option.isSome_iff_exists.mp (hsome k List.mem_cons_self)
    have hk : k ∉ rest := (List.nodup_cons.mp hnd).1
    have hcons := entriesOf_cons_of_some he rest
    by_cases hover : maxSize < total
    · -- the front entry goes, and the loop goes on with the rest
      have hle : e.size ≤ total := by
        rw [UInt64.le_iff_toNat_le, htotal, hcons, Lru.weight_cons]
        simp [entrySize]
      have hrest : ∀ j ∈ rest, (Function.update cache k none j).isSome := by
        intro j hj
        rw [Function.update_of_ne (fun h : j = k => hk (h ▸ hj))]
        exact hsome j (List.mem_cons_of_mem _ hj)
      have htotal' : (total - e.size).toNat =
          Lru.weight entrySize (entriesOf (Function.update cache k none) rest) := by
        rw [UInt64.toNat_sub_of_le _ _ hle, htotal, hcons, Lru.weight_cons,
          entriesOf_update_of_not_mem hk]
        simp [entrySize]
      obtain ⟨n, cache', total', hloop, hcache, htot, hfit⟩ :=
        evict_spec maxSize rest _ _ (List.nodup_cons.mp hnd).2 hrest htotal'
      have hdrop : k ∉ rest.drop n := fun h => hk (List.drop_subset n rest h)
      refine ⟨n + 1, cache', total', ?_, ?_, ?_, ?_⟩
      · simp [evict, hover, he, hloop]
      · intro j
        rw [hcache j]
        by_cases hjk : j = k
        · subst hjk
          simp
        · simp [hjk]
      · rw [htot, entriesOf_update_of_not_mem hdrop, List.drop_succ_cons]
      · rw [List.drop_succ_cons, ← entriesOf_update_of_not_mem hdrop none, hfit,
          entriesOf_update_of_not_mem hk, hcons, Lru.fit, if_pos]
        rw [← hcons, ← htotal, ← UInt64.lt_iff_toNat_lt]
        exact hover
    · -- within the budget: the loop stops at once
      refine ⟨0, cache, total, by simp [evict, hover], fun j => by simp, htotal, ?_⟩
      rw [List.drop_zero, hcons, Lru.fit, if_neg]
      rw [← hcons, ← htotal, ← UInt64.lt_iff_toNat_lt]
      exact hover

end Evict

/-! ## `Add` -/

section Add

variable {c : SizeCache K V}

omit [DecidableEq K] in
/-- With `maxSize` below `2 ^ 63`, the total plus a size that fits does not wrap. -/
theorem toNat_totalSize_add (hinv : Inv c) (hM : c.maxSize.toNat < 2 ^ 63) {size : UInt64}
    (hsize : size ≤ c.maxSize) : (c.totalSize + size).toNat = c.totalSize.toNat + size.toNat := by
  have ht := UInt64.le_iff_toNat_le.mp hinv.le_max
  have hs := UInt64.le_iff_toNat_le.mp hsize
  rw [UInt64.toNat_add, Nat.mod_eq_of_lt (by omega)]

/-- The insertion of a new key: the eviction loop runs over the keys with `key` at the back. -/
theorem add_new_refines (hinv : Inv c) (hM : c.maxSize.toNat < 2 ^ 63) {k : K}
    (he : c.cache k = none) {size : UInt64} (hsize : size ≤ c.maxSize) (value : V) :
    ∃ c', add c k size value = some c' ∧ Refines c c' (.add k ⟨size, value⟩) := by
  have hk : k ∉ c.lru := fun h => by simpa [he] using hinv.isSome_of_mem h
  have hl : (entries c).lookup k = none := (hinv.lookup_entries k).trans he
  have hw : entrySize ⟨size, value⟩ ≤ c.maxSize.toNat := UInt64.le_iff_toNat_le.mp hsize
  set cache₁ := Function.update c.cache k (some ⟨size, value⟩) with hcache₁
  have hnd : (c.lru ++ [k]).Nodup := by
    rw [List.nodup_append]
    refine ⟨hinv.nodup, by simp, fun a ha b hb hab => ?_⟩
    rw [List.mem_singleton] at hb
    exact hk (hb ▸ hab ▸ ha)
  have hsome : ∀ j ∈ c.lru ++ [k], (cache₁ j).isSome := by
    intro j hj
    by_cases hjk : j = k
    · simp [hcache₁, hjk]
    · have hj' : j ∈ c.lru := by simpa [hjk] using hj
      simpa [hcache₁, Function.update_of_ne hjk] using hinv.isSome_of_mem hj'
  have hentries₁ : entriesOf cache₁ (c.lru ++ [k]) = entries c ++ [(k, ⟨size, value⟩)] := by
    rw [entriesOf_append, hcache₁, entriesOf_update_of_not_mem hk]
    simp [entriesOf, entries]
  have htotal : (c.totalSize + size).toNat = Lru.weight entrySize (entriesOf cache₁ (c.lru ++ [k])) := by
    rw [toNat_totalSize_add hinv hM hsize, hentries₁, Lru.weight_append, ← hinv.total]
    simp [entrySize]
  obtain ⟨n, cache', total', hloop, hcache, htot, hfit⟩ :=
    evict_spec c.maxSize (c.lru ++ [k]) cache₁ _ hnd hsome htotal
  -- what the loop keeps, it keeps with the entries it had
  have hkept : ∀ j ∈ (c.lru ++ [k]).drop n, cache' j = cache₁ j := fun j hj => by
    rw [hcache j, if_neg fun ht => List.disjoint_take_drop hnd (Nat.le_refl n) ht hj]
  have hentries : entriesOf cache' ((c.lru ++ [k]).drop n) =
      (Lru.step entrySize c.maxSize.toNat (entries c) (.add k ⟨size, value⟩)).1 := by
    rw [entriesOf_congr hkept, hfit, hentries₁]
    simp [Lru.step, hw, hl]
  refine ⟨⟨total', c.maxSize, (c.lru ++ [k]).drop n, cache'⟩, ?_, ⟨?_, rfl, hentries⟩⟩
  · rw [hcache₁] at hloop
    simp [add, hsize, entry_of_none he, hloop]
  refine ⟨hnd.sublist (List.drop_sublist _ _), fun j => ?_, ?_, ?_⟩
  · show j ∈ (c.lru ++ [k]).drop n ↔ (cache' j).isSome
    by_cases htake : j ∈ (c.lru ++ [k]).take n
    · have hndrop : j ∉ (c.lru ++ [k]).drop n := fun hd => List.disjoint_take_drop hnd (Nat.le_refl n) htake hd
      simp [hcache j, htake, hndrop]
    · rw [hcache j, if_neg htake]
      have hmem : j ∈ (c.lru ++ [k]).drop n ↔ j ∈ c.lru ++ [k] := by
        constructor
        · exact fun hd => List.drop_subset n _ hd
        · intro hj
          rw [← List.take_append_drop n (c.lru ++ [k]), List.mem_append] at hj
          exact hj.resolve_left htake
      rw [hmem]
      constructor
      · exact hsome j
      · intro hj
        by_cases hjk : j = k
        · simp [hjk]
        · have : (c.cache j).isSome := by simpa [hcache₁, Function.update_of_ne hjk] using hj
          exact List.mem_append_left _ ((hinv.mem_iff j).mpr this)
  · show total'.toNat = Lru.weight entrySize (entriesOf cache' ((c.lru ++ [k]).drop n))
    rw [htot, entriesOf_congr hkept]
  · show total' ≤ c.maxSize
    rw [UInt64.le_iff_toNat_le, htot, hfit]
    exact Lru.weight_fit_le _ _

theorem add_refines (hinv : Inv c) (hM : c.maxSize.toNat < 2 ^ 63) (k : K) (size : UInt64)
    (value : V) : ∃ c', add c k size value = some c' ∧ Refines c c' (.add k ⟨size, value⟩) := by
  by_cases hsize : size ≤ c.maxSize
  · have hw : entrySize ⟨size, value⟩ ≤ c.maxSize.toNat := UInt64.le_iff_toNat_le.mp hsize
    cases he : c.cache k with
    | none => exact add_new_refines hinv hM he hsize value
    | some e =>
      -- a present key is only used, as a `Get` would
      obtain ⟨hentry, hrefines⟩ := entry_of_some hinv he
      have hl : (entries c).lookup k = some e := (hinv.lookup_entries k).trans he
      refine ⟨_, by simp [add, hsize, hentry], ⟨hrefines.inv, rfl, ?_⟩⟩
      rw [hrefines.entries]
      simp [Lru.step, hw, hl]
  · have hw : ¬ entrySize ⟨size, value⟩ ≤ c.maxSize.toNat := fun h =>
      hsize (UInt64.le_iff_toNat_le.mpr h)
    exact ⟨c, by simp [add, hsize], ⟨hinv, rfl, by simp [Lru.step, hw]⟩⟩

end Add

/-! ## Runs -/

section Runs

theorem step_refines {c : SizeCache K V} (hinv : Inv c) (hM : c.maxSize.toNat < 2 ^ 63)
    (call : Call K V) :
    ∃ c' r, step c call = some (c', r) ∧ Refines c c' call.toOp ∧
      r = ((Lru.step entrySize c.maxSize.toNat (entries c) call.toOp).2).map (·.value) := by
  cases call with
  | add k size value =>
    obtain ⟨c', hadd, hr⟩ := add_refines hinv hM k size value
    exact ⟨c', none, by simp [step, hadd], hr, by simp [Lru.step, Call.toOp]⟩
  | get k =>
    obtain ⟨hr, hanswer⟩ := get_refines hinv k
    exact ⟨_, _, rfl, hr, hanswer⟩
  | drop k => exact ⟨_, none, rfl, drop_refines hinv k, by simp [Lru.step, Call.toOp]⟩

/-- Below `2 ^ 63`, a run never reaches the eviction loop's panic, keeps the invariant, and is the
abstract cache's run of the same operations, answer for answer. -/
theorem run_refines {c : SizeCache K V} (hinv : Inv c) (hM : c.maxSize.toNat < 2 ^ 63) :
    ∀ calls : List (Call K V), ∃ c' rs, run c calls = some (c', rs) ∧ Inv c' ∧
      c'.maxSize = c.maxSize ∧
      entries c' = (Lru.run entrySize c.maxSize.toNat (entries c) (calls.map Call.toOp)).1 ∧
      rs = (Lru.run entrySize c.maxSize.toNat (entries c) (calls.map Call.toOp)).2.map
        (Option.map (·.value))
  | [] => ⟨c, [], rfl, hinv, rfl, rfl, rfl⟩
  | call :: calls => by
    obtain ⟨c₁, r, hstep, hr, hanswer⟩ := step_refines hinv hM call
    obtain ⟨c', rs, hrun, hinv', hmax, hentries, hanswers⟩ :=
      run_refines hr.inv (hr.maxSize ▸ hM) calls
    rw [hr.maxSize, hr.entries] at hentries hanswers
    refine ⟨c', r :: rs, by simp [run, hstep, hrun], hinv', hmax.trans hr.maxSize, ?_, ?_⟩
    · simp [Lru.run, hentries]
    · simp [Lru.run, hanswers, hanswer]

theorem sizeCache_refines_lru (maxSize : UInt64) (hM : maxSize.toNat < 2 ^ 63)
    (calls : List (Call K V)) :
    ∃ c rs, run (new maxSize) calls = some (c, rs) ∧ Inv c ∧
      entries c = (Lru.run entrySize maxSize.toNat [] (calls.map Call.toOp)).1 ∧
      rs = (Lru.run entrySize maxSize.toNat [] (calls.map Call.toOp)).2.map (Option.map (·.value)) := by
  obtain ⟨c, rs, hrun, hinv, -, hentries, hanswers⟩ := run_refines (inv_new maxSize) hM calls
  exact ⟨c, rs, hrun, hinv, hentries, hanswers⟩

/-- A run of two insertions and a hit under `maxSize = 10`. -/
theorem sizeCache_refines_lru_sample :
    (10 : UInt64).toNat < 2 ^ 63 ∧
      ∃ c rs, run (new 10 : SizeCache Nat Unit) [.add 1 4 (), .add 2 8 (), .get 2] = some (c, rs) ∧
        Inv c ∧
        entries c = (Lru.run entrySize (10 : UInt64).toNat []
          ([.add 1 4 (), .add 2 8 (), .get 2].map Call.toOp)).1 ∧
        rs = (Lru.run entrySize (10 : UInt64).toNat []
          ([.add 1 4 (), .add 2 8 (), .get 2].map Call.toOp)).2.map (Option.map (·.value)) :=
  ⟨by decide, sizeCache_refines_lru 10 (by decide) _⟩

end Runs

/-! ## Where the total wraps -/

/-- From `2 ^ 63` on, two entries of size `2 ^ 63` wrap the total to `0`: the eviction loop never
runs, and the cache keeps `2 ^ 64` bytes of entries. -/
theorem add_wraps_totalSize (maxSize : UInt64) (hM : 2 ^ 63 ≤ maxSize.toNat) {a b : K}
    (hab : a ≠ b) (va vb : V) :
    ∃ c, run (new maxSize)
        [.add a (UInt64.ofNat (2 ^ 63)) va, .add b (UInt64.ofNat (2 ^ 63)) vb] =
          some (c, [none, none]) ∧
      c.totalSize = 0 ∧ c.lru = [a, b] ∧ Lru.weight entrySize (entries c) = 2 ^ 64 := by
  have hsize : (UInt64.ofNat (2 ^ 63)).toNat = 2 ^ 63 := rfl
  have hwrap : UInt64.ofNat (2 ^ 63) + UInt64.ofNat (2 ^ 63) = 0 := by decide
  have hfits : UInt64.ofNat (2 ^ 63) ≤ maxSize :=
    UInt64.le_iff_toNat_le.mpr (by rw [hsize]; exact hM)
  have hfirst : ¬ maxSize < UInt64.ofNat (2 ^ 63) := by
    rw [UInt64.lt_iff_toNat_lt, hsize]
    omega
  have hsecond : ¬ maxSize < 0 := by
    rw [UInt64.lt_iff_toNat_lt]
    simp
  have hba : b ≠ a := Ne.symm hab
  -- from here on the size is a name, so that nothing evaluates it
  generalize UInt64.ofNat (2 ^ 63) = s at hsize hwrap hfits hfirst
  refine ⟨⟨0, maxSize, [a, b], Function.update (Function.update (fun _ => none) a
    (some ⟨s, va⟩)) b (some ⟨s, vb⟩)⟩, ?_, rfl, rfl, ?_⟩
  · simp [run, step, add, entry, new, evict, hfits, hfirst, hsecond, hwrap, Function.update_of_ne hba]
  · simp [entries, entriesOf, Function.update_of_ne hab, Lru.weight, entrySize, hsize]

/-- The wrap at `maxSize = 2 ^ 63`, with keys `0` and `1`. -/
theorem add_wraps_totalSize_at_two_pow_63 :
    2 ^ 63 ≤ (UInt64.ofNat (2 ^ 63)).toNat ∧ (0 : Nat) ≠ 1 ∧
      ∃ c, run (new (UInt64.ofNat (2 ^ 63)) : SizeCache Nat Unit)
          [.add 0 (UInt64.ofNat (2 ^ 63)) (), .add 1 (UInt64.ofNat (2 ^ 63)) ()] =
            some (c, [none, none]) ∧
        c.totalSize = 0 ∧ c.lru = [0, 1] ∧ Lru.weight entrySize (entries c) = 2 ^ 64 :=
  ⟨by decide, by decide, add_wraps_totalSize (UInt64.ofNat (2 ^ 63)) (by decide) (by decide) () ()⟩

end SizeCache

end Noms.Util
