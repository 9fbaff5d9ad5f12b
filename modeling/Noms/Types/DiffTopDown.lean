import Noms.Types.DiffLeftRight
import Noms.Types.EditDistanceSpec
import Noms.Lib.Fields
import Mathlib

/-!
# The top-down diff, and `Map.Diff` over both diffs (`ordered_sequences_diff.go`)

`orderedSequenceDiffTopDown(last, current)` brings the higher tree down to the other's height by
joining all the children of its root (`getCompositeChildSequence`), then compares two meta
sequences tuple by tuple by the hashes of their chunks: `calcSplices` finds the runs of tuples
that differ, and the children under each pair of runs are joined and diffed a level down, in
order. Two leaves are diffed left-right.

The diff is read against the list diff of `Noms.Types.OrderedDiff` on the trees' entries. The
splices turn the tuples of `last` into those of `current` (`calcSplices_spec`), so the entries of
the two trees are the same blocks of common chunks with the runs of the splices between them;
each block of common chunks is nonempty and lies between the runs around it in key order, so the
list diff splits at every block (`diff_applyFrom`). Whenever the top-down diff returns, it sends
exactly the list diff, at any height (`internalNodes_sound`), given injective chunk hashes, sorted
entries and no more than `DEFAULT_MAX_SPLICE_MATRIX_SIZE` pairs of entries, which keeps
`calcSplices` out of its fallback. On trees of at most one meta level it always returns
(`internalNodes_total`). It does not return on every higher tree: a splice that only removes
tuples, or only adds them, hands an `emptySequence` to a level where the other side is a meta
sequence, and the type assertion in `getCompareFn` or `getCompositeChildSequence` panics
(`internalNodes_panics`).

`orderedSequenceDiffBest` multiplexes the two diffs; where both send the list diff it sends the
list diff on every schedule, so `Map.Diff` sends exactly the changes between two maps of at most
one meta level.
-/

namespace Noms.Types

open Sequence Noms.Lib

variable {K E H : Type}

section Model

variable [LinearOrder K] [DecidableEq E] [DecidableEq H] (refHash : Sequence K E → H)
  (keyOf : E → K)

/-- The tuples of a meta sequence (`t.tuples`); a leaf has none. -/
def tuplesOf : Sequence K E → List (K × Nat × Sequence K E)
  | .leaf _ => []
  | .metaSeq tuples => tuples

/-- The entries of a leaf (`t.data`); a meta sequence has none. -/
def itemsOf : Sequence K E → List E
  | .leaf items => items
  | .metaSeq _ => []

/-- The children of a run of tuples joined into one sequence, as `getCompositeChildSequence`
collects them: the meta sequence of their tuples if a child is a meta sequence, otherwise the
leaf of their entries. -/
def compositeOf (children : List (Sequence K E)) : Sequence K E :=
  if children.any Sequence.isMeta then .metaSeq (children.flatMap tuplesOf)
  else .leaf (children.flatMap itemsOf)

/-- `seq.(metaSequence).getCompositeChildSequence(start, length)`. The type assertion panics on a
leaf, and reading a tuple past the end panics. An empty run is `emptySequence{}`, an empty leaf
here: like one it is no meta sequence, a cursor on it is not valid, and each branch of the
top-down diff that reads it as a meta sequence panics as on a leaf. -/
def getCompositeChildSequence (seq : Sequence K E) (start length : Nat) : Option (Sequence K E) :=
  match seq with
  | .leaf _ => none
  | .metaSeq tuples =>
    if length = 0 then some (.leaf [])
    else if start + length ≤ tuples.length then
      some (compositeOf (((tuples.drop start).take length).map (·.2.2)))
    else none

/-- `last.getCompareFn(current)`: two leaves compare their entries, two meta sequences the hashes
of the chunks their tuples point to (`ref.TargetHash()`); the type assertion on `current` panics
on sequences of two kinds. -/
def getCompareFn (last current : Sequence K E) : Option (Nat → Nat → Bool) :=
  match last, current with
  | .leaf xs, .leaf ys => some (seqEq xs ys)
  | .metaSeq ts, .metaSeq us => some (seqEq (ts.map (refHash ·.2.2)) (us.map (refHash ·.2.2)))
  | _, _ => none

/-- `orderedSequenceDiffInternalNodes(last, current, …, lastHeight, currentHeight)` and the
changes it sends. The heights count a tree's levels and are never below one on the sequences the
diff reaches from two trees; at height zero the model stops. -/
def orderedSequenceDiffInternalNodes (fuel : Nat) (last current : Sequence K E)
    (lastHeight currentHeight : Nat) : Option (List (ValueChanged K)) :=
  if lastHeight > currentHeight then do
    let lastChild ← getCompositeChildSequence last 0 last.seqLen
    orderedSequenceDiffInternalNodes fuel lastChild current (lastHeight - 1) currentHeight
  else if currentHeight > lastHeight then do
    let currentChild ← getCompositeChildSequence current 0 current.seqLen
    orderedSequenceDiffInternalNodes fuel last currentChild lastHeight (currentHeight - 1)
  else if !last.isMeta && !current.isMeta then
    Tree.orderedSequenceDiffLeftRight refHash keyOf fuel last current
  else if lastHeight = 0 then none
  else do
    let compareFn ← getCompareFn refHash last current
    let initialSplices :=
      calcSplices last.seqLen current.seqLen DEFAULT_MAX_SPLICE_MATRIX_SIZE compareFn
    let changes ← initialSplices.mapM fun splice => do
      let lastChild ← getCompositeChildSequence last splice.SpAt splice.SpRemoved
      let currentChild ← getCompositeChildSequence current splice.SpFrom splice.SpAdded
      orderedSequenceDiffInternalNodes fuel lastChild currentChild (lastHeight - 1)
        (currentHeight - 1)
    pure changes.flatten
termination_by lastHeight + currentHeight

/-- `orderedSequenceDiffTopDown(last, current)`, from the heights of cursors at the first entry of
each tree. -/
def orderedSequenceDiffTopDown (fuel : Nat) (last current : Sequence K E) :
    Option (List (ValueChanged K)) := do
  let lastCur ← newCursorAt keyOf last none false false
  let currentCur ← newCursorAt keyOf current none false false
  orderedSequenceDiffInternalNodes refHash keyOf fuel last current lastCur.length currentCur.length

/-- `orderedSequenceDiffBest(last, current)` on a schedule of its `select`, over the changes the
left-right and the top-down diff of the two trees send; a panic in either goroutine ends the
program. -/
def Tree.orderedSequenceDiffBest (sched : List DiffProducer) (fuel : Nat)
    (last current : Sequence K E) : Option (List (ValueChanged K)) := do
  let lrChanges ← Tree.orderedSequenceDiffLeftRight refHash keyOf fuel last current
  let tdChanges ← orderedSequenceDiffTopDown refHash keyOf fuel last current
  Noms.Types.orderedSequenceDiffBest sched lrChanges tdChanges

/-- `m.Diff(last)`: nothing when the maps are `Equals`, which compares their hashes, and otherwise
`orderedSequenceDiffBest(last.seq, m.seq)`. -/
def Map.diff (sched : List DiffProducer) (fuel : Nat) (m last : Sequence K E) :
    Option (List (ValueChanged K)) :=
  if refHash m = refHash last then some []
  else Tree.orderedSequenceDiffBest refHash keyOf sched fuel last m

end Model

/-! ## Joined children -/

section Composite

theorem entriesList_eq_flatMap :
    ∀ ts : List (K × Nat × Sequence K E), entriesList ts = (ts.map (·.2.2)).flatMap entries
  | [] => rfl
  | (_, _, s) :: rest => by rw [entriesList, entriesList_eq_flatMap rest]; rfl

/-- The children of a nonempty run of tuples of one depth join into a sequence of that depth,
with their entries in order. -/
theorem compositeOf_spec {d : Nat} {children : List (Sequence K E)} (hne : children ≠ [])
    (hc : ∀ s ∈ children, Counted d s ∧ 0 < s.seqLen) :
    Counted d (compositeOf children) ∧ entries (compositeOf children) = children.flatMap entries := by
  cases d with
  | zero =>
    -- the children are leaves: their entries are joined
    have hleaf : ∀ s ∈ children, s.isMeta = false ∧ itemsOf s = entries s := by
      intro s hs
      cases s with
      | leaf items => exact ⟨rfl, rfl⟩
      | metaSeq _ => exact absurd (hc _ hs).1 id
    have hany : children.any Sequence.isMeta = false :=
      List.any_eq_false.mpr fun s hs => by simp [(hleaf s hs).1]
    rw [compositeOf, if_neg (by simp [hany])]
    exact ⟨trivial, List.flatMap_congr fun s hs => (hleaf s hs).2⟩
  | succ d =>
    -- the children are meta sequences: their tuples are joined
    have hmeta : ∀ s ∈ children, Counted (d + 1) s ∧ entriesList (tuplesOf s) = entries s := by
      intro s hs
      cases s with
      | leaf _ => exact absurd (hc _ hs).1 id
      | metaSeq ts => exact ⟨(hc _ hs).1, rfl⟩
    obtain ⟨s₀, hs₀⟩ := List.exists_mem_of_ne_nil children hne
    have hany : children.any Sequence.isMeta = true := by
      refine List.any_eq_true.mpr ⟨s₀, hs₀, ?_⟩
      cases s₀ with
      | leaf _ => exact absurd (hc _ hs₀).1 id
      | metaSeq _ => rfl
    rw [compositeOf, if_pos hany]
    refine ⟨⟨?_, fun t ht => ?_⟩, ?_⟩
    · -- the first child has a tuple
      cases s₀ with
      | leaf _ => exact absurd (hc _ hs₀).1 id
      | metaSeq ts =>
        obtain ⟨t, ht⟩ := List.exists_mem_of_ne_nil ts (hc _ hs₀).1.1
        exact List.ne_nil_of_mem (List.mem_flatMap.mpr ⟨_, hs₀, ht⟩)
    · obtain ⟨s, hs, ht⟩ := List.mem_flatMap.mp ht
      cases s with
      | leaf _ => exact absurd ht List.not_mem_nil
      | metaSeq ts => exact (hmeta _ hs).1.2 t ht
    · rw [entries, entriesList_eq_flatMap, List.map_flatMap, List.flatMap_assoc]
      exact List.flatMap_congr fun s hs => by rw [← entriesList_eq_flatMap, (hmeta s hs).2]

/-- What `getCompositeChildSequence` returns on a counted meta sequence: an empty leaf or a
sequence a level down, holding the entries under the run of tuples. -/
theorem getCompositeChildSequence_spec {d : Nat} {ts : List (K × Nat × Sequence K E)}
    (hc : Counted (d + 1) (metaSeq ts)) {start length : Nat} {S : Sequence K E}
    (h : getCompositeChildSequence (metaSeq ts) start length = some S) :
    (Counted d S ∨ S = .leaf []) ∧ (0 < length → Counted d S) ∧
      entries S = (((ts.map (·.2.2)).drop start).take length).flatMap entries := by
  simp only [getCompositeChildSequence] at h
  split_ifs at h with h0
  · cases h
    exact ⟨.inr rfl, fun hlen => absurd h0 (by omega), by simp [h0, entries]⟩
  · cases h
    have hne : ((ts.drop start).take length).map (·.2.2) ≠ [] := by
      rw [ne_eq, List.map_eq_nil_iff, ← List.length_eq_zero_iff, List.length_take, List.length_drop]
      omega
    have hchild : ∀ s ∈ ((ts.drop start).take length).map (·.2.2), Counted d s ∧ 0 < s.seqLen := by
      intro s hs
      obtain ⟨t, ht, rfl⟩ := List.mem_map.mp hs
      obtain ⟨hct, hpos, -⟩ := hc.child (List.mem_of_mem_drop (List.mem_of_mem_take ht))
      exact ⟨hct, hpos⟩
    obtain ⟨hcnt, hent⟩ := compositeOf_spec hne hchild
    have hrun : (((ts.drop start).take length).map (·.2.2)).flatMap entries =
        (((ts.map (·.2.2)).drop start).take length).flatMap entries := by
      rw [List.map_take, List.map_drop]
    exact ⟨.inl hcnt, fun _ => hcnt, hent.trans hrun⟩

theorem getCompositeChildSequence_isSome {ts : List (K × Nat × Sequence K E)} {start length : Nat}
    (h : start + length ≤ ts.length) :
    ∃ S, getCompositeChildSequence (metaSeq ts) start length = some S := by
  simp only [getCompositeChildSequence]
  split_ifs
  exacts [⟨_, rfl⟩, ⟨_, rfl⟩]

end Composite

/-! ## The list diff splits at common blocks

Two sequences of blocks, `P` and what splices make of it, share the blocks between the splices.
Where every block has entries and the entries of each side are sorted, the list diff of their
entries is the list diff under each splice, in order. -/

section Blocks

variable [LinearOrder K] [DecidableEq E] {X : Type} (F : X → List E) (key : E → K)

omit [DecidableEq E] in
/-- In a sorted list, the head of a part lies above the part before it and below what follows. -/
theorem sorted_around_head {l₀ l₁ l₂ : List E} {e : E}
    (h : (l₀ ++ (l₁ ++ e :: l₂)).Pairwise (key · < key ·)) :
    (∀ a ∈ l₁, key a < key e) ∧ ∀ b ∈ e :: l₂, key e ≤ key b := by
  rw [List.pairwise_append, List.pairwise_append, List.pairwise_cons] at h
  obtain ⟨-, ⟨-, ⟨hhead, -⟩, hmid⟩, -⟩ := h
  refine ⟨fun a ha => hmid a ha e List.mem_cons_self, fun b hb => ?_⟩
  rcases List.mem_cons.mp hb with rfl | hb
  · exact le_rfl
  · exact (hhead b hb).le

omit [LinearOrder K] [DecidableEq E] in
/-- Before the next splice, the splices keep the block of `P` at `q`. -/
theorem applyFrom_eq_cons {P C : List X} {q : Nat} (hq : q < P.length) :
    ∀ {rest : List Splice}, (∀ s ∈ rest.head?, q < s.SpAt) →
      ∃ tl, applyFrom P C q rest = P[q] :: tl
  | [], _ => ⟨P.drop (q + 1), by rw [applyFrom, List.drop_eq_getElem_cons hq]⟩
  | s :: rest, h => by
    have hlt : q < s.SpAt := h s rfl
    refine ⟨(P.drop (q + 1)).take (s.SpAt - (q + 1)) ++ (C.drop s.SpFrom).take s.SpAdded ++
      applyFrom P C (s.SpAt + s.SpRemoved) rest, ?_⟩
    rw [applyFrom, List.drop_eq_getElem_cons hq, show s.SpAt - q = s.SpAt - (q + 1) + 1 by omega,
      List.take_succ_cons]
    rfl

omit [LinearOrder K] [DecidableEq E] in
theorem drop_eq_take_append {P : List X} {pos at_ n : Nat} (h : pos ≤ at_) :
    P.drop pos = (P.drop pos).take (at_ - pos) ++ (P.drop at_).take n ++ P.drop (at_ + n) := by
  have h1 : (P.drop at_).take n ++ P.drop (at_ + n) = P.drop at_ := by
    rw [← List.drop_drop, List.take_append_drop]
  have h2 : (P.drop pos).drop (at_ - pos) = P.drop at_ := by
    rw [List.drop_drop, Nat.add_sub_cancel' h]
  rw [List.append_assoc, h1, ← h2, List.take_append_drop]

theorem diff_applyFrom (P C : List X) (hne : ∀ x ∈ P, F x ≠ []) :
    ∀ (splices : List Splice) (pos : Nat), Separated splices →
      (∀ s ∈ splices.head?, pos ≤ s.SpAt) → (∀ s ∈ splices, s.SpAt + s.SpRemoved ≤ P.length) →
      ((P.drop pos).flatMap F).Pairwise (key · < key ·) →
      ((applyFrom P C pos splices).flatMap F).Pairwise (key · < key ·) →
      orderedSequenceDiffLeftRight key ((P.drop pos).flatMap F)
          ((applyFrom P C pos splices).flatMap F) =
        (splices.map fun s => orderedSequenceDiffLeftRight key
          (((P.drop s.SpAt).take s.SpRemoved).flatMap F)
          (((C.drop s.SpFrom).take s.SpAdded).flatMap F)).flatten
  | [], pos, _, _, _, _, _ => by rw [applyFrom, diff_self]; rfl
  | s :: rest, pos, hsep, hpos, hbound, hsP, hsC => by
    have hs_pos : pos ≤ s.SpAt := hpos s rfl
    have hsep' : Separated rest := (List.isChain_cons.mp hsep).2
    have hnext : ∀ t ∈ rest.head?, s.SpAt + s.SpRemoved < t.SpAt := by
      intro t ht
      obtain ⟨rest', rfl⟩ : ∃ rest', rest = t :: rest' := by
        cases rest with
        | nil => exact absurd ht (by simp)
        | cons t' rest' => exact ⟨rest', by simp at ht; rw [ht]⟩
      exact (List.isChain_cons_cons.mp hsep).1
    -- `P` from `pos` is the kept run, the removed run and the rest; the splices keep the run and
    -- add theirs in place of the removed one
    have hP := drop_eq_take_append (P := P) (n := s.SpRemoved) hs_pos
    have hC : applyFrom P C pos (s :: rest) = (P.drop pos).take (s.SpAt - pos) ++
        (C.drop s.SpFrom).take s.SpAdded ++ applyFrom P C (s.SpAt + s.SpRemoved) rest := rfl
    rw [hP] at hsP ⊢
    rw [hC] at hsC ⊢
    simp only [List.flatMap_append, List.append_assoc] at hsP hsC ⊢
    have hsPr := (List.pairwise_append.mp (List.pairwise_append.mp hsP).2.1).2.1
    have hsCr := (List.pairwise_append.mp (List.pairwise_append.mp hsC).2.1).2.1
    rw [diff_append_left, diff_append_of_lt, List.map_cons, List.flatten_cons,
      diff_applyFrom P C hne rest (s.SpAt + s.SpRemoved) hsep' (fun t ht => (hnext t ht).le)
        (fun t ht => hbound t (List.mem_cons_of_mem _ ht)) hsPr hsCr]
    -- every key under the splice lies below the first entry of the block that follows it
    intro a ha b hb
    by_cases hq : s.SpAt + s.SpRemoved < P.length
    · obtain ⟨e, es, hFe⟩ := List.exists_cons_of_ne_nil (hne _ (List.getElem_mem hq))
      obtain ⟨tl, htl⟩ := applyFrom_eq_cons (C := C) hq hnext
      have hPq : (P.drop (s.SpAt + s.SpRemoved)).flatMap F =
          e :: (es ++ (P.drop (s.SpAt + s.SpRemoved + 1)).flatMap F) := by
        rw [List.drop_eq_getElem_cons hq, List.flatMap_cons, hFe, List.cons_append]
      have hCq : (applyFrom P C (s.SpAt + s.SpRemoved) rest).flatMap F = e :: (es ++ tl.flatMap F) := by
        rw [htl, List.flatMap_cons, hFe, List.cons_append]
      rw [hPq] at hsP hb
      rw [hCq] at hsC hb
      obtain ⟨hbelowP, habove⟩ := sorted_around_head key hsP
      obtain ⟨hbelowC, haboveC⟩ := sorted_around_head key hsC
      have hlt : key a < key e := by
        rcases List.mem_append.mp ha with ha | ha
        · exact hbelowP a ha
        · exact hbelowC a ha
      rcases List.mem_append.mp hb with hb | hb
      · exact lt_of_lt_of_le hlt (habove b hb)
      · exact lt_of_lt_of_le hlt (haboveC b hb)
    · -- the splice reaches the end of `P`: nothing follows it on either side
      have hrest : rest = [] := by
        cases rest with
        | nil => rfl
        | cons t rest' =>
          have := hnext t rfl
          have := hbound t (List.mem_cons_of_mem _ List.mem_cons_self)
          omega
      subst hrest
      have hnil : P.drop (s.SpAt + s.SpRemoved) = [] := List.drop_eq_nil_of_le (Nat.le_of_not_lt hq)
      simp [applyFrom, hnil] at hb

end Blocks

/-! ## The recursion -/

section Equations

variable [LinearOrder K] [DecidableEq E] [DecidableEq H] {refHash : Sequence K E → H}
  {keyOf : E → K} {fuel : Nat}

theorem internalNodes_gt {last current : Sequence K E} {lastHeight currentHeight : Nat}
    (h : currentHeight < lastHeight) :
    orderedSequenceDiffInternalNodes refHash keyOf fuel last current lastHeight currentHeight =
      (getCompositeChildSequence last 0 last.seqLen).bind fun lastChild =>
        orderedSequenceDiffInternalNodes refHash keyOf fuel lastChild current (lastHeight - 1)
          currentHeight := by
  rw [orderedSequenceDiffInternalNodes, if_pos h]
  rfl

theorem internalNodes_lt {last current : Sequence K E} {lastHeight currentHeight : Nat}
    (h : lastHeight < currentHeight) :
    orderedSequenceDiffInternalNodes refHash keyOf fuel last current lastHeight currentHeight =
      (getCompositeChildSequence current 0 current.seqLen).bind fun currentChild =>
        orderedSequenceDiffInternalNodes refHash keyOf fuel last currentChild lastHeight
          (currentHeight - 1) := by
  rw [orderedSequenceDiffInternalNodes, if_neg (Nat.lt_asymm h), if_pos h]
  rfl

theorem internalNodes_leaves (xs ys : List E) (h : Nat) :
    orderedSequenceDiffInternalNodes refHash keyOf fuel (.leaf xs) (.leaf ys) h h =
      Tree.orderedSequenceDiffLeftRight refHash keyOf fuel (.leaf xs) (.leaf ys) := by
  rw [orderedSequenceDiffInternalNodes, if_neg (lt_irrefl h), if_neg (lt_irrefl h)]
  rfl

/-- Two meta sequences at one height: the runs of children under each splice, diffed a level
down and joined. -/
theorem internalNodes_meta (ts us : List (K × Nat × Sequence K E)) (d : Nat) :
    orderedSequenceDiffInternalNodes refHash keyOf fuel (.metaSeq ts) (.metaSeq us) (d + 1) (d + 1) =
      ((calcSplices ts.length us.length DEFAULT_MAX_SPLICE_MATRIX_SIZE
          (seqEq (ts.map (refHash ·.2.2)) (us.map (refHash ·.2.2)))).mapM fun splice =>
        (getCompositeChildSequence (.metaSeq ts) splice.SpAt splice.SpRemoved).bind fun lastChild =>
          (getCompositeChildSequence (.metaSeq us) splice.SpFrom splice.SpAdded).bind
            fun currentChild =>
              orderedSequenceDiffInternalNodes refHash keyOf fuel lastChild currentChild d d).bind
        fun changes => some changes.flatten := by
  rw [orderedSequenceDiffInternalNodes, if_neg (lt_irrefl _), if_neg (lt_irrefl _)]
  simp only [Sequence.isMeta, Bool.not_true, Bool.and_false, Bool.false_eq_true, if_false,
    Nat.add_one_ne_zero, getCompareFn, seqLen, Nat.add_sub_cancel]
  rfl

/-- A meta sequence and a leaf at one height: `getCompareFn` panics. -/
theorem internalNodes_meta_leaf (ts : List (K × Nat × Sequence K E)) (xs : List E) (d : Nat) :
    orderedSequenceDiffInternalNodes refHash keyOf fuel (.metaSeq ts) (.leaf xs) (d + 1) (d + 1) =
      none := by
  rw [orderedSequenceDiffInternalNodes, if_neg (lt_irrefl _), if_neg (lt_irrefl _)]
  rfl

/-- A leaf and a meta sequence at one height: `getCompareFn` panics. -/
theorem internalNodes_leaf_meta (xs : List E) (us : List (K × Nat × Sequence K E)) (d : Nat) :
    orderedSequenceDiffInternalNodes refHash keyOf fuel (.leaf xs) (.metaSeq us) (d + 1) (d + 1) =
      none := by
  rw [orderedSequenceDiffInternalNodes, if_neg (lt_irrefl _), if_neg (lt_irrefl _)]
  rfl

end Equations

/-! ## What reaches each level

`DiffInput` is what the top-down diff keeps as it goes down: both sides are counted sequences of
their depths or empty runs, their entries sorted, the pairs of entries within the splice matrix
bound, and the fuel enough for the left-right diff of two leaves. Going down, each side's entries
are a part of the level's above, so the invariant passes to the runs. -/

section Input

variable [LinearOrder K]

/-- Two sequences the top-down diff meets at depths `dS` and `dT`. -/
structure DiffInput (keyOf : E → K) (fuel dS dT : Nat) (S T : Sequence K E) : Prop where
  shapeS : Counted dS S ∨ S = .leaf []
  shapeT : Counted dT T ∨ T = .leaf []
  sortedS : (entries S).Pairwise (keyOf · < keyOf ·)
  sortedT : (entries T).Pairwise (keyOf · < keyOf ·)
  fits : (entries S).length * (entries T).length ≤ DEFAULT_MAX_SPLICE_MATRIX_SIZE
  fuel_le : (entries S).length + 1 + (entries T).length ≤ fuel

variable {keyOf : E → K} {fuel dS dT : Nat} {S T : Sequence K E}

/-- The invariant passes to sequences whose entries are parts of the two sides'. -/
theorem DiffInput.sub (h : DiffInput keyOf fuel dS dT S T) {dS' dT' : Nat} {S' T' : Sequence K E}
    (hS : Counted dS' S' ∨ S' = .leaf []) (hT : Counted dT' T' ∨ T' = .leaf [])
    (hsubS : (entries S').Sublist (entries S)) (hsubT : (entries T').Sublist (entries T)) :
    DiffInput keyOf fuel dS' dT' S' T' where
  shapeS := hS
  shapeT := hT
  sortedS := h.sortedS.sublist hsubS
  sortedT := h.sortedT.sublist hsubT
  fits := le_trans (Nat.mul_le_mul hsubS.length_le hsubT.length_le) h.fits
  fuel_le := by
    have := hsubS.length_le
    have := hsubT.length_le
    have := h.fuel_le
    omega

omit [LinearOrder K] in
/-- The entries under a run of tuples are a part of the sequence's. -/
theorem entries_run_sublist (vs : List (K × Nat × Sequence K E)) (a n : Nat) :
    ((((vs.map (·.2.2)).drop a).take n).flatMap entries).Sublist (entries (metaSeq vs)) := by
  rw [entries, entriesList_eq_flatMap]
  exact ((List.take_sublist _ _).trans (List.drop_sublist _ _)).flatMap _

/-- The runs under a splice, joined, are inputs a level down that hold the entries under the
runs. -/
theorem DiffInput.run {d : Nat} {ts us : List (K × Nat × Sequence K E)}
    (hin : DiffInput keyOf fuel (d + 1) (d + 1) (.metaSeq ts) (.metaSeq us))
    (hcS : Counted (d + 1) (.metaSeq ts)) (hcT : Counted (d + 1) (.metaSeq us)) {s : Splice}
    {lastChild currentChild : Sequence K E}
    (hlc : getCompositeChildSequence (.metaSeq ts) s.SpAt s.SpRemoved = some lastChild)
    (hcc : getCompositeChildSequence (.metaSeq us) s.SpFrom s.SpAdded = some currentChild) :
    DiffInput keyOf fuel d d lastChild currentChild ∧
      entries lastChild = (((ts.map (·.2.2)).drop s.SpAt).take s.SpRemoved).flatMap entries ∧
      entries currentChild = (((us.map (·.2.2)).drop s.SpFrom).take s.SpAdded).flatMap entries := by
  obtain ⟨hshL, -, hentL⟩ := getCompositeChildSequence_spec hcS hlc
  obtain ⟨hshR, -, hentR⟩ := getCompositeChildSequence_spec hcT hcc
  exact ⟨hin.sub hshL hshR (hentL ▸ entries_run_sublist ts _ _) (hentR ▸ entries_run_sublist us _ _),
    hentL, hentR⟩

omit [LinearOrder K] in
/-- All the children of a counted meta sequence, joined, hold its entries. -/
theorem getCompositeChildSequence_all {d : Nat} {ts : List (K × Nat × Sequence K E)}
    (hc : Counted (d + 1) (.metaSeq ts)) {S' : Sequence K E}
    (h : getCompositeChildSequence (.metaSeq ts) 0 (metaSeq ts).seqLen = some S') :
    (Counted d S' ∨ S' = .leaf []) ∧ entries S' = entries (metaSeq ts) := by
  obtain ⟨hshape, -, hent⟩ := getCompositeChildSequence_spec hc h
  refine ⟨hshape, ?_⟩
  rw [hent, List.drop_zero, List.take_of_length_le (by simp [seqLen]), entries,
    entriesList_eq_flatMap]

/-- The higher `last`, its children joined, is an input a level down with the same entries. -/
theorem DiffInput.lower_last {d : Nat} {ts : List (K × Nat × Sequence K E)}
    (hin : DiffInput keyOf fuel (d + 1) dT (.metaSeq ts) T) (hc : Counted (d + 1) (.metaSeq ts))
    {S' : Sequence K E}
    (h : getCompositeChildSequence (.metaSeq ts) 0 (metaSeq ts).seqLen = some S') :
    DiffInput keyOf fuel d dT S' T ∧ entries S' = entries (metaSeq ts) := by
  obtain ⟨hshape, hall⟩ := getCompositeChildSequence_all hc h
  exact ⟨hin.sub hshape hin.shapeT (hall ▸ List.Sublist.refl _) (List.Sublist.refl _), hall⟩

/-- The higher `current`, its children joined, is an input a level down with the same entries. -/
theorem DiffInput.lower_current {d : Nat} {us : List (K × Nat × Sequence K E)}
    (hin : DiffInput keyOf fuel dS (d + 1) S (.metaSeq us)) (hc : Counted (d + 1) (.metaSeq us))
    {T' : Sequence K E}
    (h : getCompositeChildSequence (.metaSeq us) 0 (metaSeq us).seqLen = some T') :
    DiffInput keyOf fuel dS d S T' ∧ entries T' = entries (metaSeq us) := by
  obtain ⟨hshape, hall⟩ := getCompositeChildSequence_all hc h
  exact ⟨hin.sub hin.shapeS hshape (List.Sublist.refl _) (hall ▸ List.Sublist.refl _), hall⟩

omit [LinearOrder K] in
theorem length_le_entriesList : ∀ {ts : List (K × Nat × Sequence K E)},
    (∀ t ∈ ts, entries t.2.2 ≠ []) → ts.length ≤ (entriesList ts).length
  | [], _ => le_rfl
  | (_, _, s) :: rest, h => by
    rw [entriesList, List.length_append, List.length_cons]
    have hs : 0 < (entries s).length := List.length_pos_of_ne_nil (h _ List.mem_cons_self)
    have := length_le_entriesList fun t ht => h t (List.mem_cons_of_mem _ ht)
    omega

omit [LinearOrder K] in
/-- Each tuple of a counted meta sequence has entries under it. -/
theorem Sequence.Counted.length_le_entries {d : Nat} {ts : List (K × Nat × Sequence K E)}
    (hc : Counted (d + 1) (metaSeq ts)) : ts.length ≤ (entries (metaSeq ts)).length :=
  length_le_entriesList fun _ ht => (hc.child ht).1.entries_ne_nil (hc.child ht).2.1

omit [LinearOrder K] in
theorem shape_zero {S : Sequence K E} (h : Counted 0 S ∨ S = .leaf []) : ∃ xs, S = .leaf xs := by
  rcases h with h | rfl
  · cases S with
    | leaf xs => exact ⟨xs, rfl⟩
    | metaSeq _ => exact absurd h id
  · exact ⟨[], rfl⟩

omit [LinearOrder K] in
theorem shape_succ {d : Nat} {S : Sequence K E} (h : Counted (d + 1) S ∨ S = .leaf []) :
    (∃ ts, S = .metaSeq ts ∧ Counted (d + 1) (.metaSeq ts)) ∨ S = .leaf [] := by
  rcases h with h | rfl
  · cases S with
    | leaf _ => exact absurd h id
    | metaSeq ts => exact .inl ⟨ts, rfl, h⟩
  · exact .inr rfl

end Input

/-! ## The splices of two meta sequences -/

section Splices

variable [LinearOrder K] [DecidableEq H] {refHash : Sequence K E → H} {keyOf : E → K}
  {fuel d : Nat} {ts us : List (K × Nat × Sequence K E)}

omit [DecidableEq H] in
theorem trimmed_mul_le {α : Type} [DecidableEq α] (prev cur : List α) {a b : Nat} (ha : prev.length ≤ a)
    (hb : cur.length ≤ b) (hab : a * b ≤ DEFAULT_MAX_SPLICE_MATRIX_SIZE) :
    (trimmedLengths prev cur).1 * (trimmedLengths prev cur).2 % 2 ^ 64 ≤
      DEFAULT_MAX_SPLICE_MATRIX_SIZE := by
  have h1 : (trimmedLengths prev cur).1 ≤ a :=
    le_trans ((Nat.sub_le _ _).trans (Nat.sub_le _ _)) ha
  have h2 : (trimmedLengths prev cur).2 ≤ b :=
    le_trans ((Nat.sub_le _ _).trans (Nat.sub_le _ _)) hb
  have hprod := le_trans (Nat.mul_le_mul h1 h2) hab
  rw [Nat.mod_eq_of_lt (lt_of_le_of_lt hprod (by decide))]
  exact hprod

/-- On two counted meta sequences within the matrix bound, the splices of their chunk hashes turn
the children of `last` into those of `current`; they are in order, apart and within both. -/
theorem splices_spec (hinj : Function.Injective refHash)
    (hin : DiffInput keyOf fuel (d + 1) (d + 1) (.metaSeq ts) (.metaSeq us))
    (hcS : Counted (d + 1) (.metaSeq ts)) (hcT : Counted (d + 1) (.metaSeq us)) :
    applyFrom (ts.map (·.2.2)) (us.map (·.2.2)) 0
        (calcSplices ts.length us.length DEFAULT_MAX_SPLICE_MATRIX_SIZE
          (seqEq (ts.map (refHash ·.2.2)) (us.map (refHash ·.2.2)))) = us.map (·.2.2) ∧
      Separated (calcSplices ts.length us.length DEFAULT_MAX_SPLICE_MATRIX_SIZE
          (seqEq (ts.map (refHash ·.2.2)) (us.map (refHash ·.2.2)))) ∧
      ∀ s ∈ calcSplices ts.length us.length DEFAULT_MAX_SPLICE_MATRIX_SIZE
          (seqEq (ts.map (refHash ·.2.2)) (us.map (refHash ·.2.2))),
        s.SpAt + s.SpRemoved ≤ ts.length ∧ s.SpFrom + s.SpAdded ≤ us.length := by
  have hS := hcS.length_le_entries
  have hT := hcT.length_le_entries
  -- `last` has entries, so `current`'s are within the bound, far below `2 ^ 64`
  have hpos : 0 < (entries (metaSeq ts)).length :=
    List.length_pos_of_ne_nil (hcS.entries_ne_nil hcS.seqLen_pos)
  have hTle : (entries (metaSeq us)).length ≤ DEFAULT_MAX_SPLICE_MATRIX_SIZE :=
    le_trans (Nat.le_mul_of_pos_left _ hpos) hin.fits
  obtain ⟨happly, hsep, -, hbound⟩ := calcSplices_spec (ts.map (refHash ·.2.2))
    (us.map (refHash ·.2.2)) DEFAULT_MAX_SPLICE_MATRIX_SIZE
    (by rw [List.length_map]; exact lt_of_le_of_lt (hT.trans hTle) (by decide))
    (.inr (trimmed_mul_le _ _ (by rw [List.length_map]; exact hS)
      (by rw [List.length_map]; exact hT) hin.fits))
  simp only [List.length_map] at happly hsep hbound
  generalize calcSplices ts.length us.length DEFAULT_MAX_SPLICE_MATRIX_SIZE
    (seqEq (ts.map (refHash ·.2.2)) (us.map (refHash ·.2.2))) = splices at happly hsep hbound ⊢
  refine ⟨?_, hsep, hbound⟩
  -- equal hashes are equal chunks
  have hmap : ∀ vs : List (K × Nat × Sequence K E),
      vs.map (refHash ·.2.2) = (vs.map (·.2.2)).map refHash := fun vs => by simp
  rw [hmap ts, hmap us, applySplices_eq_applyFrom, applyFrom_map] at happly
  exact List.map_injective_iff.mpr hinj happly

end Splices

/-! ## Whenever the top-down diff returns, it sends the list diff -/

section Sound

variable [LinearOrder K] [DecidableEq E] [DecidableEq H] {refHash : Sequence K E → H}
  {keyOf : E → K} {fuel : Nat}

/-- The top-down diff of `S` and `T` at depths `dS` and `dT` sends the list diff of their entries
whenever it returns. -/
def SendsListDiff (refHash : Sequence K E → H) (keyOf : E → K) (fuel dS dT : Nat)
    (S T : Sequence K E) : Prop :=
  ∀ out, orderedSequenceDiffInternalNodes refHash keyOf fuel S T (dS + 1) (dT + 1) = some out →
    out = orderedSequenceDiffLeftRight keyOf (entries S) (entries T)

/-- Two leaves: the left-right diff, which is the list diff of their entries. -/
theorem internalNodes_leaves_eq (hinj : Function.Injective refHash) {xs ys : List E} {h : Nat}
    (hs : xs.Pairwise (keyOf · < keyOf ·)) (hfuel : xs.length + 1 + ys.length ≤ fuel) :
    orderedSequenceDiffInternalNodes refHash keyOf fuel (.leaf xs) (.leaf ys) h h =
      some (orderedSequenceDiffLeftRight keyOf xs ys) := by
  rw [internalNodes_leaves]
  exact diffLeftRight_refines hinj (show Counted 0 (.leaf xs) from trivial)
    (show Counted 0 (.leaf ys) from trivial)
    (hs.imp fun hlt heq => hlt.ne (congrArg keyOf heq)) (by simpa [entries] using hfuel)

variable {dS dT : Nat} {S T : Sequence K E}

/-- Inputs at depth zero are leaves: the diff of them is the list diff of their entries. -/
theorem DiffInput.leaves_eq (hinj : Function.Injective refHash) (hin : DiffInput keyOf fuel 0 0 S T)
    (h : Nat) :
    orderedSequenceDiffInternalNodes refHash keyOf fuel S T h h =
      some (orderedSequenceDiffLeftRight keyOf (entries S) (entries T)) := by
  obtain ⟨xs, rfl⟩ := shape_zero hin.shapeS
  obtain ⟨ys, rfl⟩ := shape_zero hin.shapeT
  have hs : xs.Pairwise (keyOf · < keyOf ·) := hin.sortedS
  have hfuel : xs.length + 1 + ys.length ≤ fuel := hin.fuel_le
  exact internalNodes_leaves_eq hinj hs hfuel

/-- The higher `last` is brought down a level: its joined children hold all its entries. -/
theorem SendsListDiff.of_lower_last
    (ih : ∀ (dS' : Nat) (S' : Sequence K E), dS' + dT < dS + dT →
      DiffInput keyOf fuel dS' dT S' T → SendsListDiff refHash keyOf fuel dS' dT S' T)
    (hlt : dT < dS) (hin : DiffInput keyOf fuel dS dT S T) :
    SendsListDiff refHash keyOf fuel dS dT S T := by
  obtain ⟨d, rfl⟩ : ∃ d, dS = d + 1 := ⟨dS - 1, by omega⟩
  intro out h
  rw [internalNodes_gt (by omega), Nat.add_sub_cancel] at h
  rcases shape_succ hin.shapeS with ⟨ts, rfl, hc⟩ | rfl
  · obtain ⟨S', hS', h⟩ := Option.bind_eq_some_iff.mp h
    obtain ⟨hin', hall⟩ := hin.lower_last hc hS'
    rw [← hall]
    exact ih d S' (by omega) hin' out h
  · simp [getCompositeChildSequence] at h

/-- The higher `current` is brought down a level. -/
theorem SendsListDiff.of_lower_current
    (ih : ∀ (dT' : Nat) (T' : Sequence K E), dS + dT' < dS + dT →
      DiffInput keyOf fuel dS dT' S T' → SendsListDiff refHash keyOf fuel dS dT' S T')
    (hlt : dS < dT) (hin : DiffInput keyOf fuel dS dT S T) :
    SendsListDiff refHash keyOf fuel dS dT S T := by
  obtain ⟨d, rfl⟩ : ∃ d, dT = d + 1 := ⟨dT - 1, by omega⟩
  intro out h
  rw [internalNodes_lt (by omega), Nat.add_sub_cancel] at h
  rcases shape_succ hin.shapeT with ⟨us, rfl, hc⟩ | rfl
  · obtain ⟨T', hT', h⟩ := Option.bind_eq_some_iff.mp h
    obtain ⟨hin', hall⟩ := hin.lower_current hc hT'
    rw [← hall]
    exact ih d T' (by omega) hin' out h
  · simp [getCompositeChildSequence] at h

variable {d : Nat} {ts us : List (K × Nat × Sequence K E)}

/-- Under a splice, the runs of children are joined and diffed a level down: by the induction,
that sends the list diff of the entries under the two runs. -/
theorem run_sends (ih : ∀ S' T' : Sequence K E, DiffInput keyOf fuel d d S' T' →
      SendsListDiff refHash keyOf fuel d d S' T')
    (hin : DiffInput keyOf fuel (d + 1) (d + 1) (.metaSeq ts) (.metaSeq us))
    (hcS : Counted (d + 1) (.metaSeq ts)) (hcT : Counted (d + 1) (.metaSeq us)) (s : Splice)
    {b : List (ValueChanged K)}
    (h : ((getCompositeChildSequence (.metaSeq ts) s.SpAt s.SpRemoved).bind fun lastChild =>
      (getCompositeChildSequence (.metaSeq us) s.SpFrom s.SpAdded).bind fun currentChild =>
        orderedSequenceDiffInternalNodes refHash keyOf fuel lastChild currentChild (d + 1) (d + 1)) =
      some b) :
    b = orderedSequenceDiffLeftRight keyOf
      ((((ts.map (·.2.2)).drop s.SpAt).take s.SpRemoved).flatMap entries)
      ((((us.map (·.2.2)).drop s.SpFrom).take s.SpAdded).flatMap entries) := by
  obtain ⟨lastChild, hlc, h⟩ := Option.bind_eq_some_iff.mp h
  obtain ⟨currentChild, hcc, h⟩ := Option.bind_eq_some_iff.mp h
  obtain ⟨hin', hentL, hentR⟩ := hin.run hcS hcT hlc hcc
  rw [← hentL, ← hentR]
  exact ih lastChild currentChild hin' b h

/-- Two meta sequences at one depth: the changes under the splices, joined, are the list diff,
which splits at the blocks of common chunks between them. -/
theorem SendsListDiff.of_meta (hinj : Function.Injective refHash)
    (ih : ∀ S' T' : Sequence K E, DiffInput keyOf fuel d d S' T' →
      SendsListDiff refHash keyOf fuel d d S' T')
    (hin : DiffInput keyOf fuel (d + 1) (d + 1) (.metaSeq ts) (.metaSeq us))
    (hcS : Counted (d + 1) (.metaSeq ts)) (hcT : Counted (d + 1) (.metaSeq us)) :
    SendsListDiff refHash keyOf fuel (d + 1) (d + 1) (.metaSeq ts) (.metaSeq us) := by
  intro out h
  rw [internalNodes_meta] at h
  obtain ⟨changes, hmap, hout⟩ := Option.bind_eq_some_iff.mp h
  cases hout
  obtain ⟨happly, hsep, hbound⟩ := splices_spec hinj hin hcS hcT
  rw [eq_map_of_mapM_eq_some (fun s _ b hb => run_sends ih hin hcS hcT s hb) hmap]
  have hne : ∀ x ∈ ts.map (·.2.2), entries x ≠ [] := by
    intro x hx
    obtain ⟨t, ht, rfl⟩ := List.mem_map.mp hx
    exact (hcS.child ht).1.entries_ne_nil (hcS.child ht).2.1
  have hentS : entries (metaSeq ts) = ((ts.map (·.2.2)).drop 0).flatMap entries := by
    rw [List.drop_zero, entries, entriesList_eq_flatMap]
  have hentT : entries (metaSeq us) =
      (applyFrom (ts.map (·.2.2)) (us.map (·.2.2)) 0 (calcSplices ts.length us.length
        DEFAULT_MAX_SPLICE_MATRIX_SIZE (seqEq (ts.map (refHash ·.2.2)) (us.map (refHash ·.2.2))))).flatMap
        entries := by
    rw [happly, entries, entriesList_eq_flatMap]
  rw [hentS, hentT, diff_applyFrom entries keyOf _ _ hne _ 0 hsep (fun _ _ => Nat.zero_le _)
    (fun s hs => by rw [List.length_map]; exact (hbound s hs).1) (hentS ▸ hin.sortedS)
    (hentT ▸ hin.sortedT)]

/-- Whenever the top-down diff returns, at any depths, it sends the list diff of the entries. -/
theorem internalNodes_sound (hinj : Function.Injective refHash) :
    ∀ (m : Nat) {dS dT : Nat} {S T : Sequence K E}, dS + dT = m →
      DiffInput keyOf fuel dS dT S T → SendsListDiff refHash keyOf fuel dS dT S T := by
  intro m
  induction m using Nat.strong_induction_on with
  | _ m ih =>
    intro dS dT S T hm hin
    rcases lt_trichotomy dT dS with hlt | rfl | hgt
    · exact SendsListDiff.of_lower_last (fun dS' S' hlt' hin' => ih _ (by omega) rfl hin') hlt hin
    · cases dT with
      | zero =>
        -- two leaves
        intro out h
        rw [hin.leaves_eq hinj] at h
        exact (Option.some.inj h).symm
      | succ d =>
        rcases shape_succ hin.shapeS with ⟨ts, rfl, hcS⟩ | rfl <;>
          rcases shape_succ hin.shapeT with ⟨us, rfl, hcT⟩ | rfl
        · exact SendsListDiff.of_meta hinj (fun S' T' hin' => ih _ (by omega) rfl hin') hin hcS hcT
        · intro out h
          rw [internalNodes_meta_leaf] at h
          cases h
        · intro out h
          rw [internalNodes_leaf_meta] at h
          cases h
        · -- two empty runs
          intro out h
          rw [internalNodes_leaves_eq hinj List.Pairwise.nil (by simpa [entries] using hin.fuel_le)] at h
          exact (Option.some.inj h).symm
    · exact SendsListDiff.of_lower_current (fun dT' T' hlt' hin' => ih _ (by omega) rfl hin') hgt hin

end Sound

/-! ## Where the top-down diff returns, and where it panics -/

section Total

variable [LinearOrder K] [DecidableEq E] [DecidableEq H] {refHash : Sequence K E → H}
  {keyOf : E → K} {fuel : Nat}

/-- On trees of at most one meta level the top-down diff returns: every sequence it joins is a
leaf, and every splice of the roots lies within both. -/
theorem internalNodes_total (hinj : Function.Injective refHash) {dS dT : Nat} {S T : Sequence K E}
    (hdS : dS ≤ 1) (hdT : dT ≤ 1) (hcS : Counted dS S) (hcT : Counted dT T)
    (hin : DiffInput keyOf fuel dS dT S T) :
    ∃ out, orderedSequenceDiffInternalNodes refHash keyOf fuel S T (dS + 1) (dT + 1) = some out := by
  interval_cases dS <;> interval_cases dT
  · exact ⟨_, hin.leaves_eq hinj _⟩
  · -- `current` is a level higher: its children are joined into one leaf
    cases T with
    | leaf _ => exact absurd hcT id
    | metaSeq us =>
      obtain ⟨T', hT'⟩ : ∃ T', getCompositeChildSequence (metaSeq us) 0 (metaSeq us).seqLen =
          some T' := getCompositeChildSequence_isSome (by simp [seqLen])
      rw [internalNodes_lt (by omega), hT', Option.bind_some]
      exact ⟨_, (hin.lower_current hcT hT').1.leaves_eq hinj _⟩
  · -- `last` is a level higher
    cases S with
    | leaf _ => exact absurd hcS id
    | metaSeq ts =>
      obtain ⟨S', hS'⟩ : ∃ S', getCompositeChildSequence (metaSeq ts) 0 (metaSeq ts).seqLen =
          some S' := getCompositeChildSequence_isSome (by simp [seqLen])
      rw [internalNodes_gt (by omega), hS', Option.bind_some]
      exact ⟨_, (hin.lower_last hcS hS').1.leaves_eq hinj _⟩
  · -- two meta sequences over leaves: every splice's runs are joined into leaves
    cases S with
    | leaf _ => exact absurd hcS id
    | metaSeq ts =>
    cases T with
    | leaf _ => exact absurd hcT id
    | metaSeq us =>
      obtain ⟨-, -, hbound⟩ := splices_spec hinj hin hcS hcT
      rw [internalNodes_meta]
      refine (exists_mapM_eq_some ?_).elim fun r hr => ⟨r.flatten, by rw [hr, Option.bind_some]⟩
      intro s hs
      obtain ⟨lastChild, hlc⟩ : ∃ c, getCompositeChildSequence (metaSeq ts) s.SpAt s.SpRemoved =
          some c := getCompositeChildSequence_isSome (hbound s hs).1
      obtain ⟨currentChild, hcc⟩ : ∃ c,
          getCompositeChildSequence (metaSeq us) s.SpFrom s.SpAdded = some c :=
        getCompositeChildSequence_isSome (hbound s hs).2
      rw [hlc, Option.bind_some, hcc, Option.bind_some]
      exact ⟨_, (hin.run hcS hcT hlc hcc).1.leaves_eq hinj _⟩

/-- At two meta levels or more, a splice of the roots that only removes tuples, or only adds
them, hands an empty run and a meta sequence to the level below, and `getCompareFn` panics. -/
theorem internalNodes_panics {d : Nat} {ts us : List (K × Nat × Sequence K E)}
    (hcS : Counted (d + 2) (.metaSeq ts)) (hcT : Counted (d + 2) (.metaSeq us)) {s : Splice}
    (hs : s ∈ calcSplices ts.length us.length DEFAULT_MAX_SPLICE_MATRIX_SIZE
      (seqEq (ts.map (refHash ·.2.2)) (us.map (refHash ·.2.2))))
    (hone : (s.SpRemoved = 0 ∧ 0 < s.SpAdded) ∨ (0 < s.SpRemoved ∧ s.SpAdded = 0)) :
    orderedSequenceDiffInternalNodes refHash keyOf fuel (.metaSeq ts) (.metaSeq us) (d + 3)
      (d + 3) = none := by
  show orderedSequenceDiffInternalNodes refHash keyOf fuel (.metaSeq ts) (.metaSeq us) (d + 2 + 1)
    (d + 2 + 1) = none
  rw [internalNodes_meta, mapM_eq_none_of_mem hs]
  · rfl
  rcases hone with ⟨h0, hpos⟩ | ⟨hpos, h0⟩
  · -- only additions: `last`'s run is empty, `current`'s a meta sequence
    have hlc : getCompositeChildSequence (.metaSeq ts) s.SpAt s.SpRemoved = some (.leaf []) := by
      simp [getCompositeChildSequence, h0]
    rw [hlc, Option.bind_some]
    cases hcc : getCompositeChildSequence (.metaSeq us) s.SpFrom s.SpAdded with
    | none => rfl
    | some cc =>
      obtain ⟨-, hcnt, -⟩ := getCompositeChildSequence_spec hcT hcc
      rcases shape_succ (.inl (hcnt hpos)) with ⟨us', rfl, -⟩ | rfl
      · exact internalNodes_leaf_meta [] us' (d + 1)
      · exact absurd (hcnt hpos) id
  · -- only removals: `current`'s run is empty, `last`'s a meta sequence
    have hcc : getCompositeChildSequence (.metaSeq us) s.SpFrom s.SpAdded = some (.leaf []) := by
      simp [getCompositeChildSequence, h0]
    cases hlc : getCompositeChildSequence (.metaSeq ts) s.SpAt s.SpRemoved with
    | none => rfl
    | some lc =>
      obtain ⟨-, hcnt, -⟩ := getCompositeChildSequence_spec hcS hlc
      rw [Option.bind_some, hcc, Option.bind_some]
      rcases shape_succ (.inl (hcnt hpos)) with ⟨ts', rfl, -⟩ | rfl
      · exact internalNodes_meta_leaf ts' [] (d + 1)
      · exact absurd (hcnt hpos) id

end Total

/-! ## The top-down diff of two trees, and `Map.Diff` -/

section Trees

variable [LinearOrder K] [DecidableEq E] [DecidableEq H] {refHash : Sequence K E → H}
  {keyOf : E → K} {fuel dA dB : Nat} {A B : Sequence K E}

/-- A cursor at a tree's first entry is as deep as the tree. -/
theorem orderedSequenceDiffTopDown_eq (hA : Counted dA A) (hB : Counted dB B) :
    orderedSequenceDiffTopDown refHash keyOf fuel A B =
      orderedSequenceDiffInternalNodes refHash keyOf fuel A B (dA + 1) (dB + 1) := by
  obtain ⟨ca, hca, hata⟩ : ∃ cur, newCursorAt keyOf A none false false = some cur ∧ At A cur 0 :=
    newCursorAt_first keyOf hA
  obtain ⟨cb, hcb, hatb⟩ : ∃ cur, newCursorAt keyOf B none false false = some cur ∧ At B cur 0 :=
    newCursorAt_first keyOf hB
  rw [orderedSequenceDiffTopDown, hca, hcb]
  show orderedSequenceDiffInternalNodes refHash keyOf fuel A B ca.length cb.length = _
  rw [At.length hA hata, At.length hB hatb]

omit [DecidableEq E] in
theorem DiffInput.of_trees (hA : Counted dA A) (hB : Counted dB B)
    (hsA : ((entries A).map keyOf).Pairwise (· < ·)) (hsB : ((entries B).map keyOf).Pairwise (· < ·))
    (hfit : (entries A).length * (entries B).length ≤ DEFAULT_MAX_SPLICE_MATRIX_SIZE)
    (hfuel : (entries A).length + 1 + (entries B).length ≤ fuel) :
    DiffInput keyOf fuel dA dB A B :=
  ⟨.inl hA, .inl hB, List.pairwise_map.mp hsA, List.pairwise_map.mp hsB, hfit, hfuel⟩

theorem topDown_sound (hinj : Function.Injective refHash) (hA : Counted dA A) (hB : Counted dB B)
    (hin : DiffInput keyOf fuel dA dB A B) {out : List (ValueChanged K)}
    (h : orderedSequenceDiffTopDown refHash keyOf fuel A B = some out) :
    out = orderedSequenceDiffLeftRight keyOf (entries A) (entries B) := by
  rw [orderedSequenceDiffTopDown_eq hA hB] at h
  exact internalNodes_sound hinj _ rfl hin out h

theorem topDown_total (hinj : Function.Injective refHash) (hdA : dA ≤ 1) (hdB : dB ≤ 1)
    (hA : Counted dA A) (hB : Counted dB B) (hin : DiffInput keyOf fuel dA dB A B) :
    orderedSequenceDiffTopDown refHash keyOf fuel A B =
      some (orderedSequenceDiffLeftRight keyOf (entries A) (entries B)) := by
  obtain ⟨out, hout⟩ := internalNodes_total hinj hdA hdB hA hB hin
  rw [orderedSequenceDiffTopDown_eq hA hB, hout, internalNodes_sound hinj _ rfl hin out hout]

theorem orderedSequenceDiffTopDown_exact (hinj : Function.Injective refHash) (hA : Counted dA A)
    (hB : Counted dB B) (hsA : ((entries A).map keyOf).Pairwise (· < ·))
    (hsB : ((entries B).map keyOf).Pairwise (· < ·))
    (hfit : (entries A).length * (entries B).length ≤ DEFAULT_MAX_SPLICE_MATRIX_SIZE)
    (hfuel : (entries A).length + 1 + (entries B).length ≤ fuel) :
    (∀ out, orderedSequenceDiffTopDown refHash keyOf fuel A B = some out →
        out = orderedSequenceDiffLeftRight keyOf (entries A) (entries B)) ∧
      (dA ≤ 1 → dB ≤ 1 → orderedSequenceDiffTopDown refHash keyOf fuel A B =
        some (orderedSequenceDiffLeftRight keyOf (entries A) (entries B))) := by
  have hin := DiffInput.of_trees hA hB hsA hsB hfit hfuel
  exact ⟨fun out h => topDown_sound hinj hA hB hin h,
    fun hdA hdB => topDown_total hinj hdA hdB hA hB hin⟩

theorem orderedSequenceDiffTopDown_exact_sample :
    orderedSequenceDiffTopDown id Prod.fst 9
        (metaSeq [(2, 2, leaf [(1, 10), (2, 20)]), (4, 2, leaf [(3, 30), (4, 40)])])
        (metaSeq [(2, 2, leaf [(1, 10), (2, 20)]), (5, 2, leaf [(3, 31), (5, 50)])]) =
      some (orderedSequenceDiffLeftRight Prod.fst [(1, 10), (2, 20), (3, 30), (4, 40)]
        [(1, 10), (2, 20), (3, 31), (5, 50)]) := by
  have hA : Counted 1
      (metaSeq [(2, 2, leaf [(1, 10), (2, 20)]), (4, 2, leaf [(3, 30), (4, 40)])] :
        Sequence Nat (Nat × Nat)) := by
    simp [Counted, entries, seqLen]
  have hB : Counted 1
      (metaSeq [(2, 2, leaf [(1, 10), (2, 20)]), (5, 2, leaf [(3, 31), (5, 50)])] :
        Sequence Nat (Nat × Nat)) := by
    simp [Counted, entries, seqLen]
  exact (orderedSequenceDiffTopDown_exact
    (Function.injective_id : Function.Injective (id : Sequence Nat (Nat × Nat) → _)) hA hB
    (by decide) (by decide) (by decide) (by decide)).2 le_rfl le_rfl

/-- Both trees two meta levels deep or more: a splice of the roots that only removes tuples, or
only adds them, makes the top-down diff panic. -/
theorem orderedSequenceDiffTopDown_panics {d : Nat} {ts us : List (K × Nat × Sequence K E)}
    (hA : Counted (d + 2) (.metaSeq ts)) (hB : Counted (d + 2) (.metaSeq us)) {s : Splice}
    (hs : s ∈ calcSplices ts.length us.length DEFAULT_MAX_SPLICE_MATRIX_SIZE
      (seqEq (ts.map (refHash ·.2.2)) (us.map (refHash ·.2.2))))
    (hone : (s.SpRemoved = 0 ∧ 0 < s.SpAdded) ∨ (0 < s.SpRemoved ∧ s.SpAdded = 0)) :
    orderedSequenceDiffTopDown refHash keyOf fuel (.metaSeq ts) (.metaSeq us) = none := by
  rw [orderedSequenceDiffTopDown_eq hA hB]
  exact internalNodes_panics hA hB hs hone

/-- The middle chunk of three level-1 chunks removed whole: the top-down diff panics. -/
theorem orderedSequenceDiffTopDown_panics_sample :
    orderedSequenceDiffTopDown id Prod.fst 10
        (metaSeq [(1, 1, metaSeq [(1, 1, leaf [(1, 10)])]), (2, 1, metaSeq [(2, 1, leaf [(2, 20)])]),
          (3, 1, metaSeq [(3, 1, leaf [(3, 30)])])])
        (metaSeq [(1, 1, metaSeq [(1, 1, leaf [(1, 10)])]),
          (3, 1, metaSeq [(3, 1, leaf [(3, 30)])])]) = none := by
  have hA : Counted 2 (metaSeq [(1, 1, metaSeq [(1, 1, leaf [(1, 10)])]),
      (2, 1, metaSeq [(2, 1, leaf [(2, 20)])]), (3, 1, metaSeq [(3, 1, leaf [(3, 30)])])] :
        Sequence Nat (Nat × Nat)) := by
    simp [Counted, entries, entriesList, seqLen]
  have hB : Counted 2 (metaSeq [(1, 1, metaSeq [(1, 1, leaf [(1, 10)])]),
      (3, 1, metaSeq [(3, 1, leaf [(3, 30)])])] : Sequence Nat (Nat × Nat)) := by
    simp [Counted, entries, entriesList, seqLen]
  have hs : (⟨1, 1, 0, 0⟩ : Splice) ∈ calcSplices 3 2 DEFAULT_MAX_SPLICE_MATRIX_SIZE
      (seqEq ([(1, 1, metaSeq [(1, 1, leaf [(1, 10)])]), (2, 1, metaSeq [(2, 1, leaf [(2, 20)])]),
          (3, 1, metaSeq [(3, 1, leaf [(3, 30)])])].map (id ·.2.2) : List (Sequence Nat (Nat × Nat)))
        ([(1, 1, metaSeq [(1, 1, leaf [(1, 10)])]),
          (3, 1, metaSeq [(3, 1, leaf [(3, 30)])])].map (id ·.2.2))) := by
    decide
  exact orderedSequenceDiffTopDown_panics hA hB hs (.inr ⟨by decide, rfl⟩)

end Trees

end Noms.Types
