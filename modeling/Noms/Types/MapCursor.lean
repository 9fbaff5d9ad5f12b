import Noms.Lib.Search
import Mathlib

/-!
# Cursors over a map's prolly tree, and the queries built on them

A map is stored as a tree of sequences: a leaf holds entries in key order, and a meta sequence
holds one tuple per child with the child's greatest key and its number of entries. A
`sequenceCursor` is a stack of positions, one per level, the deepest at the head.
`newCursorAt` descends from the root, seeking at each level the first position whose key is not
below the sought one, and stops at the level where that seek fails; `advanceMaybeAllowPastEnd`
moves the leaf position on and climbs to the parent at the end of a chunk; `iterSequence` walks
a cursor forward after `enableReadAhead`, which refuses a cursor that is not on a leaf.

`First`, `Last`, `At` and `IterFrom` of `map.go` are modelled on those, generic over the key type
and the entry type (`keyOf` reads an entry's key); Go's panics are `none`. The loops of Go that
descend or walk the tree run here on fuel from the tree's depth or size.
-/

namespace Noms.Types

/-- A sequence of a prolly tree: a leaf of entries, or a meta sequence of
`(key, numLeaves, child)` tuples. -/
inductive Sequence (K E : Type) where
  | leaf (items : List E)
  | metaSeq (tuples : List (K × Nat × Sequence K E))

namespace Sequence

variable {K E : Type}

/-- `seq.seqLen()`. -/
def seqLen : Sequence K E → Nat
  | leaf items => items.length
  | metaSeq tuples => tuples.length

/-- `isMetaSequence(seq)`. -/
def isMeta : Sequence K E → Bool
  | leaf _ => false
  | metaSeq _ => true

/-- `seq.getKey(i)` for every `i`: an entry's key in a leaf, a tuple's key in a meta
sequence. -/
def keys (keyOf : E → K) : Sequence K E → List K
  | leaf items => items.map keyOf
  | metaSeq tuples => tuples.map (·.1)

/-- `seq.getChildSequence(idx)` of a meta sequence, which indexes its tuples and panics out of
range; a leaf has no children. -/
def childAt : Sequence K E → Int → Option (Sequence K E)
  | leaf _, _ => none
  | metaSeq tuples, idx => if 0 ≤ idx then tuples[idx.toNat]?.map (·.2.2) else none

/-- `seq.numLeaves()`: a leaf's length, or the stored counts of a meta sequence's tuples. -/
def numLeaves : Sequence K E → Nat
  | leaf items => items.length
  | metaSeq tuples => (tuples.map (·.2.1)).sum

mutual

/-- The entries of a tree, in order. -/
def entries : Sequence K E → List E
  | leaf items => items
  | metaSeq tuples => entriesList tuples

/-- The entries under the tuples of a meta sequence, in order. -/
def entriesList : List (K × Nat × Sequence K E) → List E
  | [] => []
  | (_, _, s) :: rest => entries s ++ entriesList rest

end

mutual

/-- The number of meta levels above the deepest leaf. -/
def depth : Sequence K E → Nat
  | leaf _ => 0
  | metaSeq tuples => depthList tuples + 1

/-- The greatest depth of the children of a meta sequence. -/
def depthList : List (K × Nat × Sequence K E) → Nat
  | [] => 0
  | (_, _, s) :: rest => max (depth s) (depthList rest)

end

/-- A tree of depth `d` as the chunker builds it: the leaves at depth `0`, and each meta
sequence a nonempty list of tuples whose child has depth one less, ends with an entry of the
tuple's key and has as many entries as the tuple counts. -/
def WF (keyOf : E → K) : Nat → Sequence K E → Prop
  | 0, leaf _ => True
  | 0, metaSeq _ => False
  | _ + 1, leaf _ => False
  | d + 1, metaSeq tuples => tuples ≠ [] ∧ ∀ t ∈ tuples,
      WF keyOf d t.2.2 ∧ (entries t.2.2).getLast?.map keyOf = some t.1 ∧
        t.2.1 = (entries t.2.2).length

end Sequence

/-- A position in one sequence of a tree: one level of a `sequenceCursor`. -/
structure Frame (K E : Type) where
  seq : Sequence K E
  idx : Int

namespace Frame

variable {K E : Type}

/-- `cur.valid()`. -/
def valid (f : Frame K E) : Bool :=
  decide (0 ≤ f.idx) && decide (f.idx < f.seq.seqLen)

/-- `cur.current().(mapEntry)`: the entry under a valid leaf position; `current` panics off the
sequence and the type assertion panics on a meta tuple. -/
def current (f : Frame K E) : Option E :=
  match f.seq with
  | .leaf items => if 0 ≤ f.idx then items[f.idx.toNat]? else none
  | .metaSeq _ => none

end Frame

open Sequence Noms.Lib

section Cursor

variable {K E : Type} [LinearOrder K] (keyOf : E → K)

/-- `newSequenceCursor(parent, seq, idx)` without the parent: a negative `idx` counts back from
the end and must land in the sequence. -/
def newSequenceCursor (seq : Sequence K E) (idx : Int) : Option (Frame K E) :=
  let idx := if idx < 0 then idx + seq.seqLen else idx
  if idx < 0 then none else some ⟨seq, idx⟩

/-- `!seq.getKey(i).Less(key)`, the predicate `seekTo` searches for. -/
def notBelow (ks : List K) (key : K) (i : Nat) : Bool :=
  match ks[i]? with
  | some k => !decide (k < key)
  | none => true

/-- `seekTo(cur, key, lastPositionIfNotFound)` on the cursor's own level: the first position
whose key is not below `key`, moved back onto the last one when there is none and
`lastPositionIfNotFound`; with it, whether the position is in the sequence. -/
def seekTo (f : Frame K E) (key : K) (lastPositionIfNotFound : Bool) :
    Option (Frame K E × Bool) :=
  let n := f.seq.seqLen
  let idx := search (notBelow (f.seq.keys keyOf) key) 0 n
  if idx = n && lastPositionIfNotFound then
    if 0 < idx then some (⟨f.seq, idx - 1⟩, decide (idx - 1 < n)) else none
  else some (⟨f.seq, idx⟩, decide (idx < n))

/-- The loop of `newCursorAt`: open a cursor on `seq` under `cur`, seek `key` there when there
is one, and descend into the child under the position until the seek fails or a leaf is
reached. -/
def newCursorAtLoop (key : Option K) (forInsertion last : Bool) :
    Nat → List (Frame K E) → Sequence K E → Option (List (Frame K E))
  | 0, _, _ => none
  | fuel + 1, cur, seq => do
    let f ← newSequenceCursor seq (if last then -1 else 0)
    let (f, found) ← match key with
      | some k => seekTo keyOf f k (forInsertion && seq.isMeta)
      | none => pure (f, true)
    if found then
      if seq.isMeta then
        let cs ← seq.childAt f.idx
        newCursorAtLoop key forInsertion last fuel (f :: cur) cs
      else pure (f :: cur)
    else pure (f :: cur)

/-- `newCursorAt(seq, key, forInsertion, last)`; `none` for `emptyKey`. The descent takes one
turn per level. -/
def newCursorAt (seq : Sequence K E) (key : Option K) (forInsertion last : Bool) :
    Option (List (Frame K E)) :=
  newCursorAtLoop keyOf key forInsertion last (seq.depth + 1) [] seq

/-- `cur.advanceMaybeAllowPastEnd(allowPastEnd)` and what it returns: step within the chunk,
or at its end advance the parent and load the child under it (`sync`); when nothing follows,
step past the end only if `allowPastEnd`. -/
def advanceMaybeAllowPastEnd : List (Frame K E) → Bool → Option (List (Frame K E) × Bool)
  | [], _ => none
  | f :: parent, allowPastEnd =>
    if f.idx < (f.seq.seqLen : Int) - 1 then some (⟨f.seq, f.idx + 1⟩ :: parent, true)
    else if f.idx = f.seq.seqLen then some (f :: parent, false)
    else
      let atEnd := if allowPastEnd then (⟨f.seq, f.idx + 1⟩ : Frame K E) else f
      match parent with
      | [] => some ([atEnd], false)
      | _ :: _ =>
        match advanceMaybeAllowPastEnd parent false with
        | none => none
        | some (parent', false) => some (atEnd :: parent', false)
        | some ([], true) => none
        | some (p :: ps, true) => do
          let cs ← p.seq.childAt p.idx
          some (⟨cs, 0⟩ :: p :: ps, true)

/-- `cur.retreatMaybeAllowBeforeStart(allowBeforeStart)` and what it returns: step back within
the chunk, or at its start retreat the parent and load the child under it on its last position
(`sync`); when nothing comes before, step before the start only if `allowBeforeStart`. Go panics
unless the position is then `0`. -/
def retreatMaybeAllowBeforeStart : List (Frame K E) → Bool → Option (List (Frame K E) × Bool)
  | [], _ => none
  | f :: parent, allowBeforeStart =>
    if 0 < f.idx then some (⟨f.seq, f.idx - 1⟩ :: parent, true)
    else if f.idx = -1 then some (f :: parent, false)
    else if f.idx ≠ 0 then none
    else
      let atStart := if allowBeforeStart then (⟨f.seq, f.idx - 1⟩ : Frame K E) else f
      match parent with
      | [] => some ([atStart], false)
      | _ :: _ =>
        match retreatMaybeAllowBeforeStart parent false with
        | none => none
        | some (parent', false) => some (atStart :: parent', false)
        | some ([], true) => none
        | some (p :: ps, true) => do
          let cs ← p.seq.childAt p.idx
          some (⟨cs, (cs.seqLen : Int) - 1⟩ :: p :: ps, true)

/-- `cur.advance()`. -/
def advance (cur : List (Frame K E)) : Option (List (Frame K E) × Bool) :=
  advanceMaybeAllowPastEnd cur true

/-- `cur.retreat()`. -/
def retreat (cur : List (Frame K E)) : Option (List (Frame K E) × Bool) :=
  retreatMaybeAllowBeforeStart cur true

/-- `cur.clone()`: every level is copied through `newSequenceCursor`, which reads a negative
index back from the end of the sequence. -/
def clone : List (Frame K E) → Option (List (Frame K E))
  | [] => some []
  | f :: parent => do
    let p ← clone parent
    let f' ← newSequenceCursor f.seq f.idx
    some (f' :: p)

/-- The loop of `iterSequence`: while the cursor is valid, hand its entry to `cb`, stop after
the first `true`, and advance otherwise. The result is the entries handed to `cb`. -/
def iterLoop (cb : E → Bool) : Nat → List (Frame K E) → Option (List E)
  | 0, _ => none
  | _ + 1, [] => none
  | fuel + 1, f :: parent =>
    if f.valid then do
      let x ← f.current
      if cb x then pure [x]
      else do
        let (cur, _) ← advanceMaybeAllowPastEnd (f :: parent) true
        let xs ← iterLoop cb fuel cur
        pure (x :: xs)
    else pure []

/-- `iterSequence(cur, cb)`: `enableReadAhead` panics on a cursor whose level is a meta
sequence, and the loop walks the rest. -/
def iterSequence (cb : E → Bool) (fuel : Nat) : List (Frame K E) → Option (List E)
  | [] => none
  | f :: parent => if f.seq.isMeta then none else iterLoop cb fuel (f :: parent)

/-- The loop of `advanceCursorToOffset` over a meta sequence's tuple counts: move on while a
next tuple exists and `idx` lies past the current one. The result is the position and the
number of entries before it. -/
def offsetLoop (idx : Nat) : List Nat → Nat → Nat → Nat × Nat
  | [], pos, cum => (pos, cum)
  | [_], pos, cum => (pos, cum)
  | n :: m :: rest, pos, cum =>
    if cum + n ≤ idx then offsetLoop idx (m :: rest) (pos + 1) (cum + n) else (pos, cum)

/-- `advanceCursorToOffset(cur, idx)` from a fresh cursor: the position and the number of
entries before it. -/
def advanceCursorToOffset (seq : Sequence K E) (idx : Nat) : Nat × Nat :=
  match seq with
  | .leaf items => (min idx items.length, min idx items.length)
  | .metaSeq tuples => offsetLoop idx (tuples.map (·.2.1)) 0 0

/-- The loop of `newCursorAtIndex`: place a cursor on the tuple or entry holding `idx` at each
level and descend with the index within the child. -/
def newCursorAtIndexLoop : Nat → List (Frame K E) → Sequence K E → Nat → Option (List (Frame K E))
  | 0, _, _, _ => none
  | fuel + 1, cur, seq, idx => do
    let _ ← newSequenceCursor seq 0
    let (pos, skipped) := advanceCursorToOffset seq idx
    let f : Frame K E := ⟨seq, pos⟩
    if seq.isMeta then
      let cs ← seq.childAt pos
      newCursorAtIndexLoop fuel (f :: cur) cs (idx - skipped)
    else pure (f :: cur)

/-- `newCursorAtIndex(seq, idx)`. -/
def newCursorAtIndex (seq : Sequence K E) (idx : Nat) : Option (List (Frame K E)) :=
  newCursorAtIndexLoop (seq.depth + 1) [] seq idx

namespace Map

/-- `m.firstOrLast(last)`: the entry under a cursor opened at the first or the last position,
`some none` for `(nil, nil)`. -/
def firstOrLast (seq : Sequence K E) (last : Bool) : Option (Option E) := do
  let cur ← newCursorAt keyOf seq none false last
  match cur with
  | [] => none
  | f :: _ => if f.valid then f.current.map some else pure none

/-- `m.First()`. -/
def first (seq : Sequence K E) : Option (Option E) :=
  firstOrLast keyOf seq false

/-- `m.Last()`. -/
def last (seq : Sequence K E) : Option (Option E) :=
  firstOrLast keyOf seq true

/-- `m.At(idx)`: out of bounds panics, and so does a cursor that lands off an entry. -/
def atIndex (seq : Sequence K E) (idx : Nat) : Option E :=
  if seq.numLeaves ≤ idx then none
  else do
    let cur ← newCursorAtIndex seq idx
    match cur with
    | [] => none
    | f :: _ => f.current

/-- `m.IterFrom(start, cb)`, `none` for a `nil` start; the entries handed to `cb`. -/
def iterFrom (seq : Sequence K E) (start : Option K) (cb : E → Bool) : Option (List E) := do
  let cur ← newCursorAt keyOf seq start false false
  iterSequence cb ((entries seq).length + 1) cur

end Map

end Cursor

/-! ## Lemmas about trees and sequences -/

namespace Sequence

section Shape

variable {K E : Type} {keyOf : E → K}

@[simp]
theorem length_keys (seq : Sequence K E) : (seq.keys keyOf).length = seq.seqLen := by
  cases seq <;> simp [keys, seqLen]

theorem entries_subset_of_mem {t : K × Nat × Sequence K E} :
    ∀ {tuples : List (K × Nat × Sequence K E)}, t ∈ tuples → entries t.2.2 ⊆ entriesList tuples
  | [], h => absurd h List.not_mem_nil
  | (k, n, s) :: rest, h => by
    rw [entriesList]
    rcases List.mem_cons.mp h with rfl | h
    · exact List.subset_append_left _ _
    · exact List.Subset.trans (entries_subset_of_mem h) (List.subset_append_right _ _)

/-- A tuple's key is the key of an entry under it. -/
theorem exists_entry_of_tuple {d : Nat} {tuples : List (K × Nat × Sequence K E)}
    (hwf : WF keyOf (d + 1) (.metaSeq tuples)) {t : K × Nat × Sequence K E} (ht : t ∈ tuples) :
    ∃ e ∈ entries (.metaSeq tuples), keyOf e = t.1 := by
  obtain ⟨-, hkey, -⟩ := hwf.2 t ht
  obtain ⟨e, he, hke⟩ := Option.map_eq_some_iff.mp hkey
  exact ⟨e, entries_subset_of_mem ht (List.mem_of_getLast? he), hke⟩

@[simp]
theorem entriesList_append (a b : List (K × Nat × Sequence K E)) :
    entriesList (a ++ b) = entriesList a ++ entriesList b := by
  induction a with
  | nil => rfl
  | cons t a ih => simp [entriesList, ih]

/-- Every child of a well-formed meta sequence has entries. -/
theorem entries_ne_nil_of_tuple {d : Nat} {tuples : List (K × Nat × Sequence K E)}
    (hwf : WF keyOf (d + 1) (.metaSeq tuples)) {t : K × Nat × Sequence K E} (ht : t ∈ tuples) :
    entries t.2.2 ≠ [] := by
  intro hnil
  have hkey := (hwf.2 t ht).2.1
  simp [hnil] at hkey

/-- All children of a well-formed tree sit at one depth, so the descents stop after `d` levels. -/
theorem depthList_eq {d : Nat} :
    ∀ {tuples : List (K × Nat × Sequence K E)}, tuples ≠ [] →
      (∀ t ∈ tuples, depth t.2.2 = d) → depthList tuples = d
  | [], hne, _ => absurd rfl hne
  | [(k, n, s)], _, h => by simpa [depthList] using h (k, n, s) (by simp)
  | (k, n, s) :: t :: rest, _, h => by
    have hrest := depthList_eq (show t :: rest ≠ [] by simp)
      (fun u hu => h u (List.mem_cons_of_mem _ hu))
    simp [depthList] at hrest ⊢
    rw [hrest, h (k, n, s) (by simp)]
    exact max_self d

theorem depth_of_WF : ∀ {d : Nat} {seq : Sequence K E}, WF keyOf d seq → seq.depth = d
  | 0, leaf _, _ => rfl
  | _ + 1, metaSeq _, hwf => by
    rw [depth, depthList_eq hwf.1 (fun t ht => depth_of_WF (hwf.2 t ht).1)]

end Shape

variable {K E : Type} [LinearOrder K] {keyOf : E → K}

/-- A meta sequence's keys lie below a bound that all of its entries lie below. -/
theorem keys_lt_of_entries_lt {d : Nat} {tuples : List (K × Nat × Sequence K E)} {start : K}
    (hwf : WF keyOf (d + 1) (.metaSeq tuples)) (hlt : ∀ e ∈ entries (.metaSeq tuples), keyOf e < start) :
    ∀ k ∈ (Sequence.metaSeq tuples).keys keyOf, k < start := by
  intro k hk
  obtain ⟨t, ht, rfl⟩ := List.mem_map.mp hk
  obtain ⟨e, he, hkey⟩ := exists_entry_of_tuple hwf ht
  exact hkey ▸ hlt e he

end Sequence

section Cursor

variable {K E : Type} [LinearOrder K] {keyOf : E → K}

omit [LinearOrder K] in
theorem newSequenceCursor_of_nonneg (seq : Sequence K E) {idx : Int} (h : 0 ≤ idx) :
    newSequenceCursor seq idx = some ⟨seq, idx⟩ := by
  simp [newSequenceCursor, Int.not_lt.mpr h]

omit [LinearOrder K] in
/-- From the end, a cursor needs a sequence to land in. -/
theorem newSequenceCursor_last_of_seqLen_zero {seq : Sequence K E} (h : seq.seqLen = 0) :
    newSequenceCursor seq (-1) = none := by
  simp [newSequenceCursor, h]

/-- The search of `seekTo` runs off the end when every key is below the sought one. -/
theorem search_notBelow_of_all_lt {ks : List K} {key : K} (h : ∀ k ∈ ks, k < key) :
    search (notBelow ks key) 0 ks.length = ks.length := by
  have hfalse : ∀ i < ks.length, notBelow ks key i = false := by
    intro i hi
    simp [notBelow, List.getElem?_eq_getElem hi, h _ (List.getElem_mem hi)]
  refine search_eq_of ?_ (Nat.le_refl _) hfalse (fun h => absurd h (Nat.lt_irrefl _))
  intro a b hab hb ha
  rw [hfalse a (by omega)] at ha
  cases ha

theorem seekTo_of_all_lt (f : Frame K E) {key : K} (h : ∀ k ∈ f.seq.keys keyOf, k < key) :
    seekTo keyOf f key false = some (⟨f.seq, f.seq.seqLen⟩, false) := by
  have hs := search_notBelow_of_all_lt h
  rw [length_keys] at hs
  simp [seekTo, hs]

/-- A seek past every key of the root stops the descent there, on the root's end. -/
theorem newCursorAt_of_all_lt (seq : Sequence K E) {start : K}
    (h : ∀ k ∈ seq.keys keyOf, k < start) :
    newCursorAt keyOf seq (some start) false false = some [⟨seq, seq.seqLen⟩] := by
  have hseek := seekTo_of_all_lt ⟨seq, 0⟩ h
  simp [newCursorAt, newCursorAtLoop, newSequenceCursor_of_nonneg, hseek]

theorem last_of_seqLen_zero {seq : Sequence K E} (h : seq.seqLen = 0) :
    Map.last keyOf seq = none := by
  simp [Map.last, Map.firstOrLast, newCursorAt, newCursorAtLoop,
    newSequenceCursor_last_of_seqLen_zero h]

/-- Past the last key of a map held in one leaf, `IterFrom` calls `cb` on nothing. -/
theorem iterFrom_leaf_of_all_lt (items : List E) {start : K} (cb : E → Bool)
    (h : ∀ e ∈ items, keyOf e < start) :
    Map.iterFrom keyOf (.leaf items) (some start) cb = some [] := by
  have hkeys : ∀ k ∈ (Sequence.leaf items).keys keyOf, k < start := by
    intro k hk
    obtain ⟨e, he, rfl⟩ := List.mem_map.mp hk
    exact h e he
  simp [Map.iterFrom, newCursorAt_of_all_lt _ hkeys, iterSequence, iterLoop, isMeta,
    Frame.valid, seqLen]

theorem map_last_empty_and_iterFrom_past_end_panic (keyOf : E → K) :
    (∀ seq : Sequence K E, seq.seqLen = 0 → Map.last keyOf seq = none) ∧
      ∀ (d : Nat) (tuples : List (K × Nat × Sequence K E)) (start : K) (cb : E → Bool),
        WF keyOf (d + 1) (.metaSeq tuples) →
        (∀ e ∈ entries (.metaSeq tuples), keyOf e < start) →
        Map.iterFrom keyOf (.metaSeq tuples) (some start) cb = none := by
  refine ⟨fun seq h => last_of_seqLen_zero h, ?_⟩
  intro d tuples start cb hwf hlt
  rw [Map.iterFrom, newCursorAt_of_all_lt _ (keys_lt_of_entries_lt hwf hlt)]
  rfl

/-! ## `First` and `Last` -/

omit [LinearOrder K] in
theorem newSequenceCursor_last {seq : Sequence K E} (h : 0 < seq.seqLen) :
    newSequenceCursor seq (-1) = some ⟨seq, (seq.seqLen : Int) - 1⟩ := by
  have : ¬ (-1 + (seq.seqLen : Int) < 0) := by omega
  simp only [newSequenceCursor, show (-1 : Int) < 0 by decide, if_true, this, if_false]
  congr 2

/-- The descent of `First` ends on the first position of the leaf holding the first entry. -/
theorem newCursorAtLoop_first : ∀ {d : Nat} {seq : Sequence K E}, WF keyOf d seq →
    ∀ {fuel : Nat}, d < fuel → ∀ cur : List (Frame K E), ∃ items rest,
      newCursorAtLoop keyOf none false false fuel cur seq = some (⟨.leaf items, 0⟩ :: rest) ∧
        items.head? = (entries seq).head?
  | 0, leaf items, _, fuel + 1, _, cur => ⟨items, cur, by
      simp [newCursorAtLoop, newSequenceCursor_of_nonneg, isMeta], rfl⟩
  | d + 1, metaSeq tuples, hwf, fuel + 1, hfuel, cur => by
    obtain ⟨t, rest, rfl⟩ := List.exists_cons_of_ne_nil hwf.1
    have ht : t ∈ t :: rest := List.mem_cons_self
    obtain ⟨items, below, hloop, hhead⟩ :=
      newCursorAtLoop_first (hwf.2 t ht).1 (by omega : d < fuel) (⟨.metaSeq (t :: rest), 0⟩ :: cur)
    refine ⟨items, below, ?_, ?_⟩
    · simpa [newCursorAtLoop, newSequenceCursor_of_nonneg, isMeta, childAt] using hloop
    · rw [hhead, entries, entriesList, List.head?_append_of_ne_nil _ (entries_ne_nil_of_tuple hwf ht)]

/-- The descent of `Last` ends on the last position of the leaf holding the last entry. -/
theorem newCursorAtLoop_last : ∀ {d : Nat} {seq : Sequence K E}, WF keyOf d seq →
    entries seq ≠ [] → ∀ {fuel : Nat}, d < fuel → ∀ cur : List (Frame K E), ∃ items rest,
      newCursorAtLoop keyOf none false true fuel cur seq =
          some (⟨.leaf items, (items.length : Int) - 1⟩ :: rest) ∧
        items ≠ [] ∧ items.getLast? = (entries seq).getLast?
  | 0, leaf items, _, hne, fuel + 1, _, cur => by
    have hlen : 0 < (Sequence.leaf items : Sequence K E).seqLen :=
      List.length_pos_of_ne_nil hne
    exact ⟨items, cur, by simp [newCursorAtLoop, newSequenceCursor_last hlen, isMeta, seqLen],
      hne, rfl⟩
  | d + 1, metaSeq tuples, hwf, _, fuel + 1, hfuel, cur => by
    -- the cursor opens on the last tuple, and the descent continues in its child
    obtain ⟨t, ht⟩ := List.getLast?_isSome.mpr hwf.1 |> Option.isSome_iff_exists.mp
    have hmem : t ∈ tuples := List.mem_of_getLast? ht
    have hlen : 0 < (Sequence.metaSeq tuples : Sequence K E).seqLen :=
      List.length_pos_of_ne_nil hwf.1
    have hchild : (Sequence.metaSeq tuples).childAt ((tuples.length : Int) - 1) = some t.2.2 := by
      have hidx : ((tuples.length : Int) - 1).toNat = tuples.length - 1 := by omega
      rw [childAt, if_pos (by simp [seqLen] at hlen; omega), hidx,
        ← List.getLast?_eq_getElem?, ht, Option.map_some]
    obtain ⟨items, below, hloop, hne', hlast⟩ := newCursorAtLoop_last (hwf.2 t hmem).1
      (entries_ne_nil_of_tuple hwf hmem) (by omega : d < fuel)
      (⟨.metaSeq tuples, (tuples.length : Int) - 1⟩ :: cur)
    refine ⟨items, below, ?_, hne', ?_⟩
    · simpa [newCursorAtLoop, newSequenceCursor_last hlen, isMeta, seqLen, hchild] using hloop
    · rw [hlast, entries, ← List.dropLast_append_getLast? t ht, entriesList_append,
        entriesList, entriesList, List.append_nil,
        List.getLast?_append_of_ne_nil _ (entries_ne_nil_of_tuple hwf hmem)]

/-- `First` returns the least entry, and `(nil, nil)` on the empty map. -/
theorem first_spec {d : Nat} {seq : Sequence K E} (hwf : WF keyOf d seq) :
    Map.first keyOf seq = some (entries seq).head? := by
  obtain ⟨items, rest, hloop, hhead⟩ := newCursorAtLoop_first hwf (Nat.lt_succ_self d) []
  rw [Map.first, Map.firstOrLast, newCursorAt, depth_of_WF hwf, hloop, ← hhead]
  cases items with
  | nil => rfl
  | cons x xs => simp [Frame.valid, Frame.current, seqLen]

/-- `Last` returns the greatest entry of a map that has one. -/
theorem last_spec {d : Nat} {seq : Sequence K E} (hwf : WF keyOf d seq) (hne : entries seq ≠ []) :
    Map.last keyOf seq = some (entries seq).getLast? := by
  obtain ⟨items, rest, hloop, hne', hlast⟩ :=
    newCursorAtLoop_last hwf hne (Nat.lt_succ_self d) []
  rw [Map.last, Map.firstOrLast, newCursorAt, depth_of_WF hwf, hloop, ← hlast]
  have hpos : 0 < items.length := List.length_pos_of_ne_nil hne'
  have hidx : ((items.length : Int) - 1).toNat = items.length - 1 := by omega
  have hone : (1 : Int) ≤ items.length := by omega
  have hin : (items.length : Int) - 1 < items.length := by omega
  have hget : items[items.length - 1]? = some items[items.length - 1] :=
    List.getElem?_eq_getElem (by omega)
  simp [Frame.valid, Frame.current, seqLen, hidx, hone, hin, hget, List.getLast?_eq_getElem?]

/-- The empty map's `Last`, and `IterFrom 3` on a map of the two leaves `[1]` and `[2]`. -/
theorem map_last_empty_and_iterFrom_past_end_panic_two_leaves :
    Map.last id (Sequence.leaf [] : Sequence Nat Nat) = none ∧
      Map.iterFrom id (.metaSeq [(1, 1, .leaf [1]), (2, 1, .leaf [2])]) (some 3)
        (fun _ => false) = none :=
  ⟨(map_last_empty_and_iterFrom_past_end_panic id).1 (.leaf []) rfl,
    (map_last_empty_and_iterFrom_past_end_panic id).2 0 [(1, 1, .leaf [1]), (2, 1, .leaf [2])] 3
      (fun _ => false) (by simp [WF, entries]) (by simp [entries, entriesList])⟩

end Cursor

end Noms.Types
