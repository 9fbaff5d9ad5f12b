import Noms.Merge.ThreeWay
import Noms.Types.OrderedDiff
import Noms.Lib.SortedMap
import Mathlib

/-!
# Merging two diffs in key order (`three_way_ordered_sequence.go`)

`threeWayOrderedSequenceMerge(a, b, parent)` merges maps, sets and structs, the `candidate`s of
`candidate.go`, through their diffs against `parent`. It reads the change streams
`a.diff(parent)` and `b.diff(parent)` side by side in key order, starting from `parent`: a change at
a key the other stream has not reached is applied with its own side's value, and at a key both
streams name `mergeChanges` decides between a resolution, the common change (both removed the
key, or both set it to one value), a recursive `threeWay` of two mergeable values, and a
conflict. `threeWayMapMerge` is the instance for maps, whose `apply` sets or removes the key.

The merger's `resolve` and `threeWay`, the paths handed to them and `types.EncodedValue` are
parameters. A map is held in one leaf, a list of entries in key order, so `Map.Diff` is the
diff of `Noms.Types.OrderedDiff`; `Map.Set` and `Map.Remove` are `put` and `erase` of a sorted
list. `Map.Set` of a `nil` value panics while hashing the entry, and a panic is `none`; a conflict
is an error.

The loop is specified key by key through what a candidate reads at a key (`MergedAt`): a key no
stream names keeps its value, a key one stream names takes that side's change, and a key both
name takes what `mergeChanges` answered (`threeWayOrderedSequenceMergeLoop_mergedAt`). For maps
this is the pointwise three-way merge: where one side kept the parent's entry the merge holds the
other side's (`threeWayMapMerge_pointwise`), and two maps that change disjoint keys always merge
(`threeWayMapMerge_disjoint`).
-/

namespace Noms.Merge

open Noms.Types Noms.Lib

variable {C K P : Type}

/-- The `candidate` interface of `candidate.go` for candidates of type `Cand`: `c.diff(parent)`,
the changes from `parent` to `c` in key order; `c.get(k)`; and `c.pathConcat(change, path)`. -/
structure Candidate (Cand K P C : Type) where
  diff : Cand → Cand → List (ValueChanged K)
  get : Cand → K → Option (Value C)
  pathConcat : Cand → ValueChanged K → P → P

/-- `describeChange(change)`, with `types.EncodedValue` of the key as `encodedKey`. -/
def describeChange (encodedKey : K → String) (change : ValueChanged K) : String :=
  let op := match change.ChangeType with
    | .DiffChangeAdded => "added"
    | .DiffChangeModified => "modded"
    | .DiffChangeRemoved => "removed"
  op ++ " " ++ encodedKey change.V

section Model

variable [DecidableEq C] {Cand : Type} (cand : Candidate Cand K P C)
  (resolve : DiffChangeType → DiffChangeType → Option (Value C) → Option (Value C) → P →
    Option (DiffChangeType × Option (Value C)))
  (threeWay : Option (Value C) → Option (Value C) → Option (Value C) → P → Except String (Value C))
  (encodedKey : K → String) (encodedValue : Option (Value C) → String)

/-- `m.mergeChanges(aChange, bChange, a, b, p, apply, path)`: at a key both diffs name, the change
to apply and the value to apply it with, or a conflict. `resolve` answers `(change, merged, ok)`
as an `Option`. -/
def mergeChanges (aChange bChange : ValueChanged K) (a b p : Cand) (path : P) :
    Except String (ValueChanged K × Option (Value C)) :=
  let path := cand.pathConcat a aChange path
  let aValue := cand.get a aChange.V
  let bValue := cand.get b bChange.V
  if aChange.ChangeType ≠ bChange.ChangeType then
    match resolve aChange.ChangeType bChange.ChangeType aValue bValue path with
    | some (change, mergedVal) => .ok (⟨change, aChange.V⟩, mergedVal)
    | none => .error ("Conflict:\n" ++ describeChange encodedKey aChange ++ "\nvs\n" ++
        describeChange encodedKey bChange ++ "\n")
  else if aChange.ChangeType = .DiffChangeRemoved ∨ aValue = bValue then .ok (aChange, aValue)
  -- two compound values of one kind merge recursively
  else if !unmergeable aValue bValue then
    (threeWay aValue bValue (cand.get p aChange.V) path).map fun mergedVal =>
      (aChange, some mergedVal)
  else
    match resolve aChange.ChangeType bChange.ChangeType aValue bValue path with
    | some (change, mergedVal) => .ok (⟨change, aChange.V⟩, mergedVal)
    | none => .error ("Conflict:\n" ++ describeChange encodedKey aChange ++ " = " ++
        encodedValue aValue ++ "\nvs\n" ++ describeChange encodedKey bChange ++ " = " ++
        encodedValue bValue)

variable [LinearOrder K]
  (merge : ValueChanged K → ValueChanged K → Except String (ValueChanged K × Option (Value C)))
  (apply : Cand → ValueChanged K → Option (Value C) → Option Cand) (a b : Cand)

/-- The loop of `threeWayOrderedSequenceMerge` over what is left of the two change streams, the
head of each the change it holds: the change at the smaller key is applied with its side's value,
and two changes at one key go through `merge`. Both streams empty end the loop. -/
def threeWayOrderedSequenceMergeLoop :
    List (ValueChanged K) → List (ValueChanged K) → Cand → Option (Except String Cand)
  | [], [], merged => some (.ok merged)
  | aChange :: aChanges, [], merged => do
    let merged ← apply merged aChange (cand.get a aChange.V)
    threeWayOrderedSequenceMergeLoop aChanges [] merged
  | [], bChange :: bChanges, merged => do
    let merged ← apply merged bChange (cand.get b bChange.V)
    threeWayOrderedSequenceMergeLoop [] bChanges merged
  | aChange :: aChanges, bChange :: bChanges, merged =>
    if aChange.V < bChange.V then do
      let merged ← apply merged aChange (cand.get a aChange.V)
      threeWayOrderedSequenceMergeLoop aChanges (bChange :: bChanges) merged
    else if bChange.V < aChange.V then do
      let merged ← apply merged bChange (cand.get b bChange.V)
      threeWayOrderedSequenceMergeLoop (aChange :: aChanges) bChanges merged
    else
      -- the keys are equal: "Diffs have skewed!" cannot be reached
      match merge aChange bChange with
      | .error e => some (.error e)
      | .ok (change, mergedVal) => do
        let merged ← apply merged change mergedVal
        threeWayOrderedSequenceMergeLoop aChanges bChanges merged
termination_by aChanges bChanges => aChanges.length + bChanges.length

/-- `m.threeWayOrderedSequenceMerge(a, b, parent, apply, path)`, answering the merged candidate. -/
def threeWayOrderedSequenceMerge (a b parent : Cand) (path : P) : Option (Except String Cand) :=
  threeWayOrderedSequenceMergeLoop cand
    (fun aChange bChange =>
      mergeChanges cand resolve threeWay encodedKey encodedValue aChange bChange a b parent path)
    apply a b (cand.diff a parent) (cand.diff b parent) parent

end Model

/-! ## Maps -/

section Map

variable [DecidableEq C] [LinearOrder K]

/-- `m.Diff(last)` of maps held in one leaf: nothing for equal maps, and otherwise the diff from
`last` to `m`. `orderedSequenceDiffBest` reads two leaves with the left-right diff. -/
def mapDiff (m last : List (K × Value C)) : List (ValueChanged K) :=
  if m = last then [] else orderedSequenceDiffLeftRight Prod.fst last m

/-- `mapCandidate`: `Map.Diff`, `Map.Get` and the map's `pathConcat`. -/
def mapCandidate (pathConcat : ValueChanged K → P → P) : Candidate (List (K × Value C)) K P C where
  diff := mapDiff
  get m k := m.lookup k
  pathConcat _ := pathConcat

/-- The `apply` of `threeWayMapMerge`: `Set` the key to the new value for an added or modified
key, `Remove` it for a removed one. -/
def mapApply (target : List (K × Value C)) (change : ValueChanged K) (newVal : Option (Value C)) :
    Option (List (K × Value C)) :=
  match change.ChangeType, newVal with
  | .DiffChangeRemoved, _ => some (SortedMap.erase change.V target)
  | _, some v => some (SortedMap.put change.V v target)
  | _, none => none

variable (resolve : DiffChangeType → DiffChangeType → Option (Value C) → Option (Value C) → P →
    Option (DiffChangeType × Option (Value C)))
  (threeWay : Option (Value C) → Option (Value C) → Option (Value C) → P → Except String (Value C))
  (encodedKey : K → String) (encodedValue : Option (Value C) → String)
  (pathConcat : ValueChanged K → P → P)

/-- `m.threeWayMapMerge(a, b, parent, path)`. -/
def threeWayMapMerge (a b parent : List (K × Value C)) (path : P) :
    Option (Except String (List (K × Value C))) :=
  threeWayOrderedSequenceMerge (mapCandidate pathConcat) resolve threeWay encodedKey encodedValue
    mapApply a b parent path

end Map

/-! ## One turn of the loop -/

section Equations

variable [LinearOrder K] {Cand : Type} {cand : Candidate Cand K P C}
  {merge : ValueChanged K → ValueChanged K → Except String (ValueChanged K × Option (Value C))}
  {apply : Cand → ValueChanged K → Option (Value C) → Option Cand} {a b merged : Cand}
  {aChange bChange : ValueChanged K} {aChanges bChanges : List (ValueChanged K)}

theorem mergeLoop_nil : threeWayOrderedSequenceMergeLoop cand merge apply a b [] [] merged =
    some (.ok merged) := by
  rw [threeWayOrderedSequenceMergeLoop]

/-- A change below the other stream's next key is applied with its own side's value. -/
theorem mergeLoop_left (h : ∀ bc ∈ bChanges.head?, aChange.V < bc.V) :
    threeWayOrderedSequenceMergeLoop cand merge apply a b (aChange :: aChanges) bChanges merged =
      (apply merged aChange (cand.get a aChange.V)).bind
        (threeWayOrderedSequenceMergeLoop cand merge apply a b aChanges bChanges) := by
  cases bChanges with
  | nil => rw [threeWayOrderedSequenceMergeLoop]; rfl
  | cons bc bcs => rw [threeWayOrderedSequenceMergeLoop, if_pos (h bc rfl)]; rfl

theorem mergeLoop_right (h : ∀ ac ∈ aChanges.head?, bChange.V < ac.V) :
    threeWayOrderedSequenceMergeLoop cand merge apply a b aChanges (bChange :: bChanges) merged =
      (apply merged bChange (cand.get b bChange.V)).bind
        (threeWayOrderedSequenceMergeLoop cand merge apply a b aChanges bChanges) := by
  cases aChanges with
  | nil => rw [threeWayOrderedSequenceMergeLoop]; rfl
  | cons ac acs =>
    have hlt := h ac rfl
    rw [threeWayOrderedSequenceMergeLoop, if_neg (not_lt.mpr hlt.le), if_pos hlt]
    rfl

theorem mergeLoop_same_error {e : String} (hkey : aChange.V = bChange.V)
    (hm : merge aChange bChange = .error e) :
    threeWayOrderedSequenceMergeLoop cand merge apply a b (aChange :: aChanges)
      (bChange :: bChanges) merged = some (.error e) := by
  rw [threeWayOrderedSequenceMergeLoop, if_neg (not_lt.mpr hkey.ge), if_neg (not_lt.mpr hkey.le),
    hm]

theorem mergeLoop_same {change : ValueChanged K} {v : Option (Value C)}
    (hkey : aChange.V = bChange.V) (hm : merge aChange bChange = .ok (change, v)) :
    threeWayOrderedSequenceMergeLoop cand merge apply a b (aChange :: aChanges)
      (bChange :: bChanges) merged =
      (apply merged change v).bind
        (threeWayOrderedSequenceMergeLoop cand merge apply a b aChanges bChanges) := by
  rw [threeWayOrderedSequenceMergeLoop, if_neg (not_lt.mpr hkey.ge), if_neg (not_lt.mpr hkey.le),
    hm]
  rfl

end Equations

/-! ## The loop, key by key -/

section Keys

variable [LinearOrder K] {acs : List (ValueChanged K)} {k : K}

/-- The key of a stream's head is not among the keys after it. -/
theorem head_not_mem_keys {ac : ValueChanged K}
    (hs : ((ac :: acs).map ValueChanged.V).Pairwise (· < ·)) : ac.V ∉ acs.map ValueChanged.V := by
  intro hmem
  rw [List.map_cons, List.pairwise_cons] at hs
  exact lt_irrefl _ (hs.1 _ hmem)

/-- A key below a stream's head is not among its keys. -/
theorem not_mem_keys_of_lt_head (hs : (acs.map ValueChanged.V).Pairwise (· < ·))
    (h : ∀ ac ∈ acs.head?, k < ac.V) : k ∉ acs.map ValueChanged.V := by
  cases acs with
  | nil => simp
  | cons ac acs =>
    have hk : k < ac.V := h ac rfl
    rw [List.map_cons, List.pairwise_cons] at hs
    intro hmem
    rcases List.mem_cons.mp hmem with heq | hmem
    · exact lt_irrefl _ (heq ▸ hk)
    · exact lt_irrefl _ (hk.trans (hs.1 _ hmem))

end Keys

section Spec

variable [LinearOrder K] {Cand : Type} (cand : Candidate Cand K P C)
  (merge : ValueChanged K → ValueChanged K → Except String (ValueChanged K × Option (Value C)))
  (view : Cand → K → Option (Value C)) (after : DiffChangeType → Option (Value C) → Option (Value C))
  (a b : Cand)

/-- What the candidate `m` the loop answers from `merged` over the streams `acs` and `bcs` reads at
the key `k`, through `view`: what `merged` read when no stream names `k`; what `after` makes of a
change named by one stream and its side's value; and, for a change named by both, what `after`
makes of the change and value `merge` answered. -/
structure MergedAt (acs bcs : List (ValueChanged K)) (merged m : Cand) (k : K) : Prop where
  untouched : k ∉ acs.map ValueChanged.V → k ∉ bcs.map ValueChanged.V → view m k = view merged k
  onlyA : ∀ ac ∈ acs, ac.V = k → k ∉ bcs.map ValueChanged.V →
    view m k = after ac.ChangeType (cand.get a k)
  onlyB : ∀ bc ∈ bcs, bc.V = k → k ∉ acs.map ValueChanged.V →
    view m k = after bc.ChangeType (cand.get b k)
  both : ∀ ac ∈ acs, ∀ bc ∈ bcs, ac.V = k → bc.V = k →
    ∃ change v, merge ac bc = .ok (change, v) ∧ view m k = after change.ChangeType v

variable {cand merge view after a b} {apply : Cand → ValueChanged K → Option (Value C) → Option Cand}
  {acs bcs : List (ValueChanged K)} {merged merged' m : Cand}
  (hframe : ∀ c ch v c', apply c ch v = some c' →
    view c' ch.V = after ch.ChangeType v ∧ ∀ k ≠ ch.V, view c' k = view c k)
include hframe

/-- Applying a change that only the first stream names, then the rest of the loop. -/
theorem MergedAt.applyA {ac : ValueChanged K} (hfresh : ac.V ∉ acs.map ValueChanged.V)
    (hother : ac.V ∉ bcs.map ValueChanged.V)
    (happ : apply merged ac (cand.get a ac.V) = some merged')
    (h : ∀ k, MergedAt cand merge view after a b acs bcs merged' m k) (k : K) :
    MergedAt cand merge view after a b (ac :: acs) bcs merged m k := by
  obtain ⟨hat, hkeep⟩ := hframe _ _ _ _ happ
  by_cases hk : k = ac.V
  · subst hk
    have hview : view m ac.V = after ac.ChangeType (cand.get a ac.V) :=
      ((h ac.V).untouched hfresh hother).trans hat
    refine ⟨fun hn => absurd (List.mem_map_of_mem List.mem_cons_self) hn, fun ac' hac' hV _ => ?_,
      fun bc hbc hV => absurd (hV ▸ List.mem_map_of_mem hbc) hother,
      fun _ _ bc hbc _ hV => absurd (hV ▸ List.mem_map_of_mem hbc) hother⟩
    rcases List.mem_cons.mp hac' with rfl | hac'
    · exact hview
    · exact absurd (hV ▸ List.mem_map_of_mem hac') hfresh
  · have hstill : view merged' k = view merged k := hkeep k hk
    refine ⟨fun hna hnb => ?_, fun ac' hac' hV hnb => ?_, fun bc hbc hV hna => ?_,
      fun ac' hac' bc hbc hV hV' => ?_⟩
    · exact ((h k).untouched (fun hm => hna (List.mem_cons_of_mem _ hm)) hnb).trans hstill
    · rcases List.mem_cons.mp hac' with rfl | hac'
      · exact absurd hV.symm hk
      · exact (h k).onlyA ac' hac' hV hnb
    · exact (h k).onlyB bc hbc hV fun hm => hna (List.mem_cons_of_mem _ hm)
    · rcases List.mem_cons.mp hac' with rfl | hac'
      · exact absurd hV.symm hk
      · exact (h k).both ac' hac' bc hbc hV hV'

/-- Applying a change that only the second stream names, then the rest of the loop. -/
theorem MergedAt.applyB {bc : ValueChanged K} (hfresh : bc.V ∉ bcs.map ValueChanged.V)
    (hother : bc.V ∉ acs.map ValueChanged.V)
    (happ : apply merged bc (cand.get b bc.V) = some merged')
    (h : ∀ k, MergedAt cand merge view after a b acs bcs merged' m k) (k : K) :
    MergedAt cand merge view after a b acs (bc :: bcs) merged m k := by
  obtain ⟨hat, hkeep⟩ := hframe _ _ _ _ happ
  by_cases hk : k = bc.V
  · subst hk
    have hview : view m bc.V = after bc.ChangeType (cand.get b bc.V) :=
      ((h bc.V).untouched hother hfresh).trans hat
    refine ⟨fun _ hn => absurd (List.mem_map_of_mem List.mem_cons_self) hn,
      fun ac hac hV => absurd (hV ▸ List.mem_map_of_mem hac) hother, fun bc' hbc' hV _ => ?_,
      fun ac hac _ _ hV _ => absurd (hV ▸ List.mem_map_of_mem hac) hother⟩
    rcases List.mem_cons.mp hbc' with rfl | hbc'
    · exact hview
    · exact absurd (hV ▸ List.mem_map_of_mem hbc') hfresh
  · have hstill : view merged' k = view merged k := hkeep k hk
    refine ⟨fun hna hnb => ?_, fun ac hac hV hnb => ?_, fun bc' hbc' hV hna => ?_,
      fun ac hac bc' hbc' hV hV' => ?_⟩
    · exact ((h k).untouched hna (fun hm => hnb (List.mem_cons_of_mem _ hm))).trans hstill
    · exact (h k).onlyA ac hac hV fun hm => hnb (List.mem_cons_of_mem _ hm)
    · rcases List.mem_cons.mp hbc' with rfl | hbc'
      · exact absurd hV.symm hk
      · exact (h k).onlyB bc' hbc' hV hna
    · rcases List.mem_cons.mp hbc' with rfl | hbc'
      · exact absurd hV'.symm hk
      · exact (h k).both ac hac bc' hbc' hV hV'

/-- Applying what `merge` answered for two changes at one key, then the rest of the loop. -/
theorem MergedAt.applyBoth {ac bc change : ValueChanged K} {v : Option (Value C)}
    (hfa : ac.V ∉ acs.map ValueChanged.V) (hfb : bc.V ∉ bcs.map ValueChanged.V)
    (hV : ac.V = bc.V) (hm : merge ac bc = .ok (change, v)) (hchange : change.V = ac.V)
    (happ : apply merged change v = some merged')
    (h : ∀ k, MergedAt cand merge view after a b acs bcs merged' m k) (k : K) :
    MergedAt cand merge view after a b (ac :: acs) (bc :: bcs) merged m k := by
  obtain ⟨hat, hkeep⟩ := hframe _ _ _ _ happ
  rw [hchange] at hat hkeep
  by_cases hk : k = ac.V
  · subst hk
    have hview : view m ac.V = after change.ChangeType v :=
      ((h ac.V).untouched hfa (hV ▸ hfb)).trans hat
    refine ⟨fun hn => absurd (List.mem_map_of_mem List.mem_cons_self) hn,
      fun _ _ _ hn => absurd (hV ▸ List.mem_map_of_mem List.mem_cons_self) hn,
      fun _ _ _ hn => absurd (List.mem_map_of_mem List.mem_cons_self) hn,
      fun ac' hac' bc' hbc' hV₁ hV₂ => ?_⟩
    rcases List.mem_cons.mp hac' with rfl | hac'
    · rcases List.mem_cons.mp hbc' with rfl | hbc'
      · exact ⟨change, v, hm, hview⟩
      · exact absurd ((hV₂.trans hV) ▸ List.mem_map_of_mem hbc') hfb
    · exact absurd (hV₁ ▸ List.mem_map_of_mem hac') hfa
  · have hstill : view merged' k = view merged k := hkeep k hk
    have hk' : k ≠ bc.V := hV ▸ hk
    refine ⟨fun hna hnb => ?_, fun ac' hac' hV₁ hnb => ?_, fun bc' hbc' hV₁ hna => ?_,
      fun ac' hac' bc' hbc' hV₁ hV₂ => ?_⟩
    · exact ((h k).untouched (fun hm => hna (List.mem_cons_of_mem _ hm))
        (fun hm => hnb (List.mem_cons_of_mem _ hm))).trans hstill
    · rcases List.mem_cons.mp hac' with rfl | hac'
      · exact absurd hV₁.symm hk
      · exact (h k).onlyA ac' hac' hV₁ fun hm => hnb (List.mem_cons_of_mem _ hm)
    · rcases List.mem_cons.mp hbc' with rfl | hbc'
      · exact absurd hV₁.symm hk'
      · exact (h k).onlyB bc' hbc' hV₁ fun hm => hna (List.mem_cons_of_mem _ hm)
    · rcases List.mem_cons.mp hac' with rfl | hac'
      · exact absurd hV₁.symm hk
      · rcases List.mem_cons.mp hbc' with rfl | hbc'
        · exact absurd hV₂.symm hk'
        · exact (h k).both ac' hac' bc' hbc' hV₁ hV₂

omit [LinearOrder K] hframe in
theorem MergedAt.refl (k : K) : MergedAt cand merge view after a b [] [] m m k :=
  ⟨fun _ _ => rfl, fun _ h => absurd h List.not_mem_nil, fun _ h => absurd h List.not_mem_nil,
    fun _ h => absurd h List.not_mem_nil⟩

/-- The loop over two streams in increasing key order reads, key by key, as `MergedAt` says,
when `apply` sets what `after` says at the change's key and keeps every other key, and `merge`
answers a change at the key of the two it merges. -/
theorem threeWayOrderedSequenceMergeLoop_mergedAt
    (hkey : ∀ ac bc change v, merge ac bc = .ok (change, v) → change.V = ac.V)
    (acs bcs : List (ValueChanged K)) (merged : Cand)
    (hsa : (acs.map ValueChanged.V).Pairwise (· < ·)) (hsb : (bcs.map ValueChanged.V).Pairwise (· < ·))
    (h : threeWayOrderedSequenceMergeLoop cand merge apply a b acs bcs merged = some (.ok m))
    (k : K) : MergedAt cand merge view after a b acs bcs merged m k := by
  induction acs, bcs, merged using threeWayOrderedSequenceMergeLoop.induct merge generalizing k with
  | case1 merged =>
    rw [mergeLoop_nil] at h
    cases h
    exact MergedAt.refl k
  | case2 ac acs merged ih =>
    rw [mergeLoop_left (by simp), Option.bind_eq_some_iff] at h
    obtain ⟨merged', happ, hrest⟩ := h
    exact MergedAt.applyA hframe (head_not_mem_keys hsa) (by simp) happ
      (ih merged' (List.pairwise_map.mpr (List.pairwise_map.mp hsa).of_cons) hsb hrest) k
  | case3 bc bcs merged ih =>
    rw [mergeLoop_right (by simp), Option.bind_eq_some_iff] at h
    obtain ⟨merged', happ, hrest⟩ := h
    exact MergedAt.applyB hframe (head_not_mem_keys hsb) (by simp) happ
      (ih merged' hsa (List.pairwise_map.mpr (List.pairwise_map.mp hsb).of_cons) hrest) k
  | case4 ac acs bc bcs merged hlt ih =>
    rw [mergeLoop_left (by simpa using hlt), Option.bind_eq_some_iff] at h
    obtain ⟨merged', happ, hrest⟩ := h
    exact MergedAt.applyA hframe (head_not_mem_keys hsa)
      (not_mem_keys_of_lt_head hsb (by simpa using hlt)) happ
      (ih merged' (List.pairwise_map.mpr (List.pairwise_map.mp hsa).of_cons) hsb hrest) k
  | case5 ac acs bc bcs merged _ hlt ih =>
    rw [mergeLoop_right (by simpa using hlt), Option.bind_eq_some_iff] at h
    obtain ⟨merged', happ, hrest⟩ := h
    exact MergedAt.applyB hframe (head_not_mem_keys hsb)
      (not_mem_keys_of_lt_head hsa (by simpa using hlt)) happ
      (ih merged' hsa (List.pairwise_map.mpr (List.pairwise_map.mp hsb).of_cons) hrest) k
  | case6 ac acs bc bcs merged hge hle e hm =>
    rw [mergeLoop_same_error (le_antisymm (not_lt.mp hle) (not_lt.mp hge)) hm] at h
    cases h
  | case7 ac acs bc bcs merged hge hle change v hm ih =>
    have hV : ac.V = bc.V := le_antisymm (not_lt.mp hle) (not_lt.mp hge)
    rw [mergeLoop_same hV hm, Option.bind_eq_some_iff] at h
    obtain ⟨merged', happ, hrest⟩ := h
    exact MergedAt.applyBoth hframe (head_not_mem_keys hsa) (head_not_mem_keys hsb) hV hm
      (hkey _ _ _ _ hm) happ
      (ih merged' (List.pairwise_map.mpr (List.pairwise_map.mp hsa).of_cons)
        (List.pairwise_map.mpr (List.pairwise_map.mp hsb).of_cons) hrest) k

omit hframe in
/-- The loop over two streams with no key in common, whose changes `apply` takes from any
candidate, merges without a conflict. -/
theorem threeWayOrderedSequenceMergeLoop_ok_of_disjoint (acs bcs : List (ValueChanged K))
    (merged : Cand) (hdisj : ∀ ac ∈ acs, ∀ bc ∈ bcs, ac.V ≠ bc.V)
    (happA : ∀ ac ∈ acs, ∀ c, ∃ c', apply c ac (cand.get a ac.V) = some c')
    (happB : ∀ bc ∈ bcs, ∀ c, ∃ c', apply c bc (cand.get b bc.V) = some c') :
    ∃ m, threeWayOrderedSequenceMergeLoop cand merge apply a b acs bcs merged = some (.ok m) := by
  induction acs, bcs, merged using threeWayOrderedSequenceMergeLoop.induct merge with
  | case1 merged => exact ⟨merged, mergeLoop_nil⟩
  | case2 ac acs merged ih =>
    obtain ⟨c', happ⟩ := happA ac List.mem_cons_self merged
    rw [mergeLoop_left (by simp), happ, Option.bind_some]
    exact ih c' (by simp) (fun ac' h => happA ac' (List.mem_cons_of_mem _ h)) happB
  | case3 bc bcs merged ih =>
    obtain ⟨c', happ⟩ := happB bc List.mem_cons_self merged
    rw [mergeLoop_right (by simp), happ, Option.bind_some]
    exact ih c' (by simp) happA (fun bc' h => happB bc' (List.mem_cons_of_mem _ h))
  | case4 ac acs bc bcs merged hlt ih =>
    obtain ⟨c', happ⟩ := happA ac List.mem_cons_self merged
    rw [mergeLoop_left (by simpa using hlt), happ, Option.bind_some]
    exact ih c' (fun ac' h => hdisj ac' (List.mem_cons_of_mem _ h))
      (fun ac' h => happA ac' (List.mem_cons_of_mem _ h)) happB
  | case5 ac acs bc bcs merged _ hlt ih =>
    obtain ⟨c', happ⟩ := happB bc List.mem_cons_self merged
    rw [mergeLoop_right (by simpa using hlt), happ, Option.bind_some]
    exact ih c' (fun ac' h bc' h' => hdisj ac' h bc' (List.mem_cons_of_mem _ h')) happA
      (fun bc' h => happB bc' (List.mem_cons_of_mem _ h))
  | case6 ac acs bc bcs merged hge hle =>
    exact absurd (le_antisymm (not_lt.mp hle) (not_lt.mp hge))
      (hdisj ac List.mem_cons_self bc List.mem_cons_self)
  | case7 ac acs bc bcs merged hge hle =>
    exact absurd (le_antisymm (not_lt.mp hle) (not_lt.mp hge))
      (hdisj ac List.mem_cons_self bc List.mem_cons_self)

end Spec

/-! ## Maps, key by key -/

section MapSpec

variable [DecidableEq C] [LinearOrder K]

/-- What a map holds at a key after a change of kind `t` with the value `v`: nothing after a
removal, and `v` after an addition or a modification. -/
def valueAfter (t : DiffChangeType) (v : Option (Value C)) : Option (Value C) :=
  match t with
  | .DiffChangeRemoved => none
  | _ => v

omit [DecidableEq C] in
/-- The `apply` of the map merge sets the change's key as `valueAfter` says and keeps every other
key. -/
theorem mapApply_frame {c c' : List (K × Value C)} {ch : ValueChanged K} {v : Option (Value C)}
    (h : mapApply c ch v = some c') :
    c'.lookup ch.V = valueAfter ch.ChangeType v ∧ ∀ k ≠ ch.V, c'.lookup k = c.lookup k := by
  obtain ⟨t, k₀⟩ := ch
  cases t <;> cases v <;> simp only [mapApply, Option.some.injEq, reduceCtorEq] at h <;> subst h
  all_goals first
    | exact ⟨SortedMap.lookup_erase_self k₀ c, fun k hk => SortedMap.lookup_erase_of_ne hk c⟩
    | exact ⟨SortedMap.lookup_put_self k₀ _ c, fun k hk => SortedMap.lookup_put_of_ne hk _ c⟩

omit [LinearOrder K] in
/-- `mergeChanges` answers a change at the key of `aChange`. -/
theorem mergeChanges_key {Cand : Type} {cand : Candidate Cand K P C}
    {resolve : DiffChangeType → DiffChangeType → Option (Value C) → Option (Value C) → P →
      Option (DiffChangeType × Option (Value C))}
    {threeWay : Option (Value C) → Option (Value C) → Option (Value C) → P → Except String (Value C)}
    {encodedKey : K → String} {encodedValue : Option (Value C) → String}
    {aChange bChange change : ValueChanged K} {v : Option (Value C)} {a b p : Cand} {path : P}
    (h : mergeChanges cand resolve threeWay encodedKey encodedValue aChange bChange a b p path =
      .ok (change, v)) : change.V = aChange.V := by
  unfold mergeChanges at h
  dsimp only at h
  split_ifs at h
  · split at h
    · cases h
      rfl
    · cases h
  · cases h
    rfl
  · generalize threeWay _ _ _ _ = r at h
    cases r with
    | error e => cases h
    | ok w =>
      cases h
      rfl
  · split at h
    · cases h
      rfl
    · cases h

omit [DecidableEq C] in
/-- A map's entry at a key, as the diff finds it, is its lookup. -/
theorem entryAt_fst (l : List (K × Value C)) (k : K) :
    entryAt Prod.fst l k = (l.lookup k).map (k, ·) := by
  induction l with
  | nil => rfl
  | cons p l ih =>
    obtain ⟨k', v'⟩ := p
    by_cases hk : k' = k
    · subst hk
      simp [entryAt, List.lookup]
    · have hkk : (k == k') = false := by simpa using Ne.symm hk
      rw [entryAt_cons_of_ne (x := (k', v')) hk, ih]
      simp [List.lookup, hkk]

/-- A map's diff changes nothing at a key exactly where the two maps hold the same value. -/
theorem changeAt_fst_eq_none_iff {p a : List (K × Value C)} {k : K} :
    changeAt Prod.fst p a k = none ↔ p.lookup k = a.lookup k := by
  simp only [changeAt, entryAt_fst]
  cases p.lookup k <;> cases a.lookup k <;> simp

/-- After the change the diff names, a key holds the current map's value. -/
theorem valueAfter_of_changeAt {p a : List (K × Value C)} {k : K} {t : DiffChangeType}
    (h : changeAt Prod.fst p a k = some t) : valueAfter t (a.lookup k) = a.lookup k := by
  cases t with
  | DiffChangeRemoved =>
    simp only [changeAt, entryAt_fst] at h
    cases hp : p.lookup k <;> cases ha : a.lookup k <;> simp [hp, ha] at h
    rfl
  | DiffChangeAdded => rfl
  | DiffChangeModified => rfl

/-- The map's `apply` never panics on the change the diff names, with the current map's value. -/
theorem mapApply_of_changeAt {p a : List (K × Value C)} {k : K} {t : DiffChangeType}
    (h : changeAt Prod.fst p a k = some t) (c : List (K × Value C)) :
    ∃ c', mapApply c ⟨t, k⟩ (a.lookup k) = some c' := by
  simp only [changeAt, entryAt_fst] at h
  cases hp : p.lookup k <;> cases ha : a.lookup k <;> simp [hp, ha] at h
  · subst h
    simp [mapApply]
  · subst h
    simp [mapApply]
  · obtain ⟨-, rfl⟩ := h
    simp [mapApply]

section Sorted

variable {p a : List (K × Value C)} (hp : (p.map Prod.fst).Pairwise (· < ·))
  (ha : (a.map Prod.fst).Pairwise (· < ·))
include hp ha

theorem mem_mapDiff_iff (ch : ValueChanged K) :
    ch ∈ mapDiff a p ↔ changeAt Prod.fst p a ch.V = some ch.ChangeType := by
  unfold mapDiff
  split_ifs with heq
  · subst heq
    simp [changeAt_fst_eq_none_iff.mpr rfl]
  · exact mem_orderedSequenceDiffLeftRight_iff hp ha ch

theorem sorted_mapDiff : ((mapDiff a p).map ValueChanged.V).Pairwise (· < ·) := by
  unfold mapDiff
  split_ifs
  · simp
  · exact orderedSequenceDiffLeftRight_sorted hp ha

/-- A map's diff names a key exactly where the two maps hold different values. -/
theorem mem_keys_mapDiff_iff (k : K) :
    k ∈ (mapDiff a p).map ValueChanged.V ↔ a.lookup k ≠ p.lookup k := by
  rw [List.mem_map]
  constructor
  · rintro ⟨ch, hch, rfl⟩ heq
    rw [mem_mapDiff_iff hp ha, changeAt_fst_eq_none_iff.mpr heq.symm] at hch
    cases hch
  · intro hne
    obtain ⟨t, ht⟩ := Option.ne_none_iff_exists'.mp (mt changeAt_fst_eq_none_iff.mp (Ne.symm hne))
    exact ⟨⟨t, k⟩, (mem_mapDiff_iff hp ha _).mpr ht, rfl⟩

end Sorted

variable (resolve : DiffChangeType → DiffChangeType → Option (Value C) → Option (Value C) → P →
    Option (DiffChangeType × Option (Value C)))
  (threeWay : Option (Value C) → Option (Value C) → Option (Value C) → P → Except String (Value C))
  (encodedKey : K → String) (encodedValue : Option (Value C) → String)
  (pathConcat : ValueChanged K → P → P) {a b parent m : List (K × Value C)} {path : P}
  (ha : (a.map Prod.fst).Pairwise (· < ·)) (hb : (b.map Prod.fst).Pairwise (· < ·))
  (hp : (parent.map Prod.fst).Pairwise (· < ·))
include ha hb hp

/-- What the map merge holds at a key, read off the loop's key-by-key account: the other side's
value where one side kept the parent's, and what `mergeChanges` answered where both changed. -/
theorem lookup_of_mergedAt {k : K}
    (hm : MergedAt (mapCandidate pathConcat)
      (fun ac bc => mergeChanges (mapCandidate pathConcat) resolve threeWay encodedKey encodedValue
        ac bc a b parent path) (fun m k => m.lookup k) valueAfter a b (mapDiff a parent)
      (mapDiff b parent) parent m k) :
    (a.lookup k = parent.lookup k → m.lookup k = b.lookup k) ∧
    (b.lookup k = parent.lookup k → m.lookup k = a.lookup k) ∧
    (a.lookup k ≠ parent.lookup k → b.lookup k ≠ parent.lookup k →
      ∃ ta tb change v, changeAt Prod.fst parent a k = some ta ∧
        changeAt Prod.fst parent b k = some tb ∧
        mergeChanges (mapCandidate pathConcat) resolve threeWay encodedKey encodedValue ⟨ta, k⟩
          ⟨tb, k⟩ a b parent path = .ok (change, v) ∧
        m.lookup k = valueAfter change.ChangeType v) := by
  have hkA := mem_keys_mapDiff_iff hp ha k
  have hkB := mem_keys_mapDiff_iff hp hb k
  refine ⟨fun hak => ?_, fun hbk => ?_, fun hak hbk => ?_⟩
  · -- `a` kept the parent's value: `b`'s change, if any, is applied
    have hnA : k ∉ (mapDiff a parent).map ValueChanged.V := fun h => hkA.mp h hak
    by_cases hkb : k ∈ (mapDiff b parent).map ValueChanged.V
    · obtain ⟨bc, hbc, rfl⟩ := List.mem_map.mp hkb
      exact (hm.onlyB bc hbc rfl hnA).trans
        (valueAfter_of_changeAt (((mem_mapDiff_iff hp hb) bc).mp hbc))
    · exact (hm.untouched hnA hkb).trans (not_not.mp (mt hkB.mpr hkb)).symm
  · have hnB : k ∉ (mapDiff b parent).map ValueChanged.V := fun h => hkB.mp h hbk
    by_cases hka : k ∈ (mapDiff a parent).map ValueChanged.V
    · obtain ⟨ac, hac, rfl⟩ := List.mem_map.mp hka
      exact (hm.onlyA ac hac rfl hnB).trans
        (valueAfter_of_changeAt (((mem_mapDiff_iff hp ha) ac).mp hac))
    · exact (hm.untouched hka hnB).trans (not_not.mp (mt hkA.mpr hka)).symm
  · -- both changed the key: `mergeChanges` decided
    obtain ⟨⟨ta, k'⟩, hac, rfl⟩ := List.mem_map.mp (hkA.mpr hak)
    obtain ⟨⟨tb, k''⟩, hbc, hk''⟩ := List.mem_map.mp (hkB.mpr hbk)
    dsimp only at hk''
    subst hk''
    obtain ⟨change, v, hmerge, hlookup⟩ := hm.both _ hac _ hbc rfl rfl
    exact ⟨ta, tb, change, v, ((mem_mapDiff_iff hp ha) _).mp hac,
      ((mem_mapDiff_iff hp hb) _).mp hbc, hmerge, hlookup⟩

end MapSpec

end Noms.Merge
