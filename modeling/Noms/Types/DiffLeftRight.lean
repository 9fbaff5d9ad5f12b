import Noms.Types.FastForward
import Noms.Types.OrderedDiff
import Mathlib

/-!
# The left-right diff over trees (`orderedSequenceDiffLeftRight` in `ordered_sequences_diff.go`)

`orderedSequenceDiffLeftRight(last, current)` puts a cursor at the first entry of each tree and,
while both are valid, skips their common run (`fastForward`, which is `doFastForward(true, …)`)
and then walks them side by side while their items differ: the smaller key is sent as added or
removed and its cursor advances, a key both have is sent as modified and both advance. When one
cursor runs off its tree, the rest of the other is sent as removed or added.

The cursors are read as positions among the trees' entries (`At`). Every loop is specified in
continuation form (`Sends`): the list diff of `Noms.Types.OrderedDiff` from the positions where a
loop starts is what the loop sends followed by the list diff from where it leaves the cursors.
The inner loop takes one step of the list diff per turn (`innerLoop_spec`), the fast forward
passes over an agreeing run, which the list diff skips too (`fastForward_at`), and every turn of
the outer loop moves the two positions on (`outerLoop_spec`). So the tree diff is the list diff
of the trees' entries (`diffLeftRight_refines`), and with it the change at each key where the two
trees differ, in key order.
-/

namespace Noms.Types

open Sequence Noms.Lib

variable {K E H : Type}

section Model

variable [LinearOrder K] [DecidableEq E] [DecidableEq H] (refHash : Sequence K E → H)
  (keyOf : E → K)

/-- `getCurrentKey(cur)`, which is `cur.seq.getKey(cur.idx)`: an entry's key in a leaf, a tuple's
key in a meta sequence; the indexing panics off the sequence. -/
def getCurrentKey (cur : List (Frame K E)) : Option K :=
  match cur with
  | f :: _ => if 0 ≤ f.idx then (f.seq.keys keyOf)[f.idx.toNat]? else none
  | [] => none

/-- `fastForward(a, b)`: `doFastForward(true, a, b)` when both cursors are valid, its flags
dropped. -/
def fastForward (fuel : Nat) (a b : List (Frame K E)) :
    Option (List (Frame K E) × List (Frame K E)) :=
  if bothValid a b then do
    let (a', b', _, _) ← doFastForward refHash fuel true a b
    pure (a', b')
  else pure (a, b)

namespace Tree

/-- The inner loop of `orderedSequenceDiffLeftRight`: while both cursors are valid and their items
differ, send the smaller key as added (from `current`) or removed (from `last`) and advance its
cursor, or send a key both have as modified and advance both. The result is the changes sent and
both cursors. -/
def innerLoop : Nat → List (Frame K E) → List (Frame K E) →
    Option (List (ValueChanged K) × List (Frame K E) × List (Frame K E))
  | 0, _, _ => none
  | fuel + 1, lastCur, currentCur =>
    if bothValid lastCur currentCur then do
      let equal ← currentEqual refHash lastCur currentCur
      if equal then pure ([], lastCur, currentCur)
      else
        let lastKey ← getCurrentKey keyOf lastCur
        let currentKey ← getCurrentKey keyOf currentCur
        if currentKey < lastKey then
          let (currentCur, _) ← advance currentCur
          let (cs, lastCur, currentCur) ← innerLoop fuel lastCur currentCur
          pure (⟨.DiffChangeAdded, currentKey⟩ :: cs, lastCur, currentCur)
        else if lastKey < currentKey then
          let (lastCur, _) ← advance lastCur
          let (cs, lastCur, currentCur) ← innerLoop fuel lastCur currentCur
          pure (⟨.DiffChangeRemoved, lastKey⟩ :: cs, lastCur, currentCur)
        else
          let (lastCur, _) ← advance lastCur
          let (currentCur, _) ← advance currentCur
          let (cs, lastCur, currentCur) ← innerLoop fuel lastCur currentCur
          pure (⟨.DiffChangeModified, lastKey⟩ :: cs, lastCur, currentCur)
    else pure ([], lastCur, currentCur)

/-- The outer loop of `orderedSequenceDiffLeftRight`: while both cursors are valid, skip their
common run and run the inner loop. Each turn takes one unit of `turns`; the fast forward and the
inner loop run on `fuel`. -/
def outerLoop (fuel : Nat) : Nat → List (Frame K E) → List (Frame K E) →
    Option (List (ValueChanged K) × List (Frame K E) × List (Frame K E))
  | 0, _, _ => none
  | turns + 1, lastCur, currentCur =>
    if bothValid lastCur currentCur then do
      let (lastCur, currentCur) ← fastForward refHash fuel lastCur currentCur
      let (cs, lastCur, currentCur) ← innerLoop refHash keyOf fuel lastCur currentCur
      let (rest, lastCur, currentCur) ← outerLoop fuel turns lastCur currentCur
      pure (cs ++ rest, lastCur, currentCur)
    else pure ([], lastCur, currentCur)

/-- The two loops that end `orderedSequenceDiffLeftRight`: while the cursor is valid, send its key
as a change of type `changeType` and advance. -/
def drainLoop (changeType : DiffChangeType) : Nat → List (Frame K E) → Option (List (ValueChanged K))
  | 0, _ => none
  | _ + 1, [] => none
  | fuel + 1, f :: parent =>
    if f.valid then do
      let k ← getCurrentKey keyOf (f :: parent)
      let (cur, _) ← advance (f :: parent)
      let cs ← drainLoop changeType fuel cur
      pure (⟨changeType, k⟩ :: cs)
    else pure []

/-- `orderedSequenceDiffLeftRight(last, current)`: cursors at the first entries of both trees
(`newCursorAt(seq, emptyKey, false, false)`), the outer loop, then the removals left in `last` and
the additions left in `current`. `sendChange` always delivers here: the stop channel is not
modelled. -/
def orderedSequenceDiffLeftRight (fuel : Nat) (last current : Sequence K E) :
    Option (List (ValueChanged K)) := do
  let lastCur ← newCursorAt keyOf last none false false
  let currentCur ← newCursorAt keyOf current none false false
  let (cs, lastCur, currentCur) ← outerLoop refHash keyOf fuel fuel lastCur currentCur
  let removed ← drainLoop keyOf .DiffChangeRemoved fuel lastCur
  let added ← drainLoop keyOf .DiffChangeAdded fuel currentCur
  pure (cs ++ removed ++ added)

end Tree

end Model

/-! ## One turn of each loop -/

section Equations

variable [LinearOrder K] [DecidableEq E] [DecidableEq H] {refHash : Sequence K E → H}
  {keyOf : E → K} {fuel : Nat} {l c l₁ c₁ l₂ c₂ : List (Frame K E)} {cs : List (ValueChanged K)}

theorem innerLoop_stop (h : bothValid l c = false) :
    Tree.innerLoop refHash keyOf (fuel + 1) l c = some ([], l, c) := by
  simp [Tree.innerLoop, h]

theorem innerLoop_equal (hv : bothValid l c = true) (h : currentEqual refHash l c = some true) :
    Tree.innerLoop refHash keyOf (fuel + 1) l c = some ([], l, c) := by
  simp [Tree.innerLoop, hv, h]

section Differ

variable {kl kc : K} {m m' : Bool} (hv : bothValid l c = true)
  (h : currentEqual refHash l c = some false) (hl : getCurrentKey keyOf l = some kl)
  (hc : getCurrentKey keyOf c = some kc)
include hv h hl hc

theorem innerLoop_added (hlt : kc < kl) (hadv : advance c = some (c₁, m))
    (hrest : Tree.innerLoop refHash keyOf fuel l c₁ = some (cs, l₂, c₂)) :
    Tree.innerLoop refHash keyOf (fuel + 1) l c = some (⟨.DiffChangeAdded, kc⟩ :: cs, l₂, c₂) := by
  simp [Tree.innerLoop, hv, h, hl, hc, hlt, hadv, hrest]

theorem innerLoop_removed (hlt : kl < kc) (hadv : advance l = some (l₁, m))
    (hrest : Tree.innerLoop refHash keyOf fuel l₁ c = some (cs, l₂, c₂)) :
    Tree.innerLoop refHash keyOf (fuel + 1) l c = some (⟨.DiffChangeRemoved, kl⟩ :: cs, l₂, c₂) := by
  simp [Tree.innerLoop, hv, h, hl, hc, not_lt.mpr hlt.le, hlt, hadv, hrest]

theorem innerLoop_modified (hkey : kl = kc) (hadvl : advance l = some (l₁, m))
    (hadvc : advance c = some (c₁, m'))
    (hrest : Tree.innerLoop refHash keyOf fuel l₁ c₁ = some (cs, l₂, c₂)) :
    Tree.innerLoop refHash keyOf (fuel + 1) l c =
      some (⟨.DiffChangeModified, kl⟩ :: cs, l₂, c₂) := by
  subst hkey
  simp [Tree.innerLoop, hv, h, hl, hc, hadvl, hadvc, hrest]

end Differ

theorem outerLoop_stop {turns : Nat} (h : bothValid l c = false) :
    Tree.outerLoop refHash keyOf fuel (turns + 1) l c = some ([], l, c) := by
  simp [Tree.outerLoop, h]

theorem outerLoop_turn {turns : Nat} {l₃ c₃ : List (Frame K E)} {rest : List (ValueChanged K)}
    (hv : bothValid l c = true) (hff : fastForward refHash fuel l c = some (l₁, c₁))
    (hin : Tree.innerLoop refHash keyOf fuel l₁ c₁ = some (cs, l₂, c₂))
    (hrest : Tree.outerLoop refHash keyOf fuel turns l₂ c₂ = some (rest, l₃, c₃)) :
    Tree.outerLoop refHash keyOf fuel (turns + 1) l c = some (cs ++ rest, l₃, c₃) := by
  simp [Tree.outerLoop, hv, hff, hin, hrest]

omit [LinearOrder K] [DecidableEq E] [DecidableEq H] in
theorem drainLoop_stop {t : DiffChangeType} {f : Frame K E} {fs : List (Frame K E)}
    (h : f.valid = false) : Tree.drainLoop keyOf t (fuel + 1) (f :: fs) = some [] := by
  simp [Tree.drainLoop, h]

omit [LinearOrder K] [DecidableEq E] [DecidableEq H] in
theorem drainLoop_step {t : DiffChangeType} {f : Frame K E} {fs : List (Frame K E)} {k : K}
    {m : Bool} (h : f.valid = true) (hk : getCurrentKey keyOf (f :: fs) = some k)
    (hadv : advance (f :: fs) = some (l₁, m)) (hrest : Tree.drainLoop keyOf t fuel l₁ = some cs) :
    Tree.drainLoop keyOf t (fuel + 1) (f :: fs) = some (⟨t, k⟩ :: cs) := by
  simp [Tree.drainLoop, h, hk, hadv, hrest]

end Equations

/-! ## Leaf-level cursors on the entries -/

section Positions

variable {d : Nat} {root : Sequence K E} {cur : List (Frame K E)} {g : Nat}

theorem At.exists_cons {g : Int} (h : At root cur g) : ∃ f fs, cur = f :: fs := by
  obtain ⟨_, fs, _, _, rfl, -⟩ := h
  exact ⟨_, fs, rfl⟩

theorem At.le_length (h : At root cur g) : g ≤ (entries root).length := by
  have := h.range
  omega

/-- On an entry, a leaf-level cursor stands on a leaf item that is that entry. -/
theorem At.leaf_item {x : E} (h : At root cur g) (hx : (entries root)[g]? = some x) :
    ∃ items idx fs, cur = ⟨.leaf items, idx⟩ :: fs ∧ 0 ≤ idx ∧ items[idx.toNat]? = some x := by
  have hlt : g < (entries root).length := (List.getElem?_eq_some_iff.mp hx).1
  have hshape := h
  obtain ⟨items, fs, b, idx, rfl, -⟩ := hshape
  have hcur := At.current_eq h (by omega) (by exact_mod_cast hlt)
  rw [Int.toNat_natCast, hx] at hcur
  simp only [Frame.current] at hcur
  split_ifs at hcur with h0
  exact ⟨items, idx, fs, rfl, h0, hcur⟩

/-- `advance` moves a cursor on an entry to the next position. -/
theorem At.advance_succ (hroot : Counted d root) (h : At root cur g)
    (hg : g < (entries root).length) :
    ∃ cur' m, advance cur = some (cur', m) ∧ At root cur' (g + 1 : Nat) := by
  obtain ⟨cur', hadv, hat⟩ := advance_at hroot h
  have hpos : advancePos (entries root).length g = ((g + 1 : Nat) : Int) := by
    simp only [advancePos]
    omega
  exact ⟨cur', _, hadv, hpos ▸ hat⟩

theorem At.valid_eq {f : Frame K E} {fs : List (Frame K E)} (h : At root (f :: fs) g) :
    f.valid = decide (g < (entries root).length) := by
  rw [Bool.eq_iff_iff, h.valid_iff, decide_eq_true_iff]
  omega

variable {keyOf : E → K}

theorem At.getCurrentKey_eq (keyOf : E → K) {x : E} (h : At root cur g) (hx : (entries root)[g]? = some x) :
    getCurrentKey keyOf cur = some (keyOf x) := by
  obtain ⟨items, idx, fs, rfl, h0, hitem⟩ := h.leaf_item hx
  simp [getCurrentKey, h0, keys, hitem]

variable {A B : Sequence K E} {a b : List (Frame K E)} {i j : Nat}

theorem At.bothValid_eq (ha : At A a i) (hb : At B b j) :
    bothValid a b = decide (i < (entries A).length ∧ j < (entries B).length) := by
  obtain ⟨fa, pa, rfl⟩ := ha.exists_cons
  obtain ⟨fb, pb, rfl⟩ := hb.exists_cons
  simp only [bothValid, ha.valid_eq, hb.valid_eq, Bool.decide_and]

/-- Two leaf-level cursors on entries compare the entries. -/
theorem At.currentEqual_eq [DecidableEq E] [DecidableEq H] (refHash : Sequence K E → H) {x y : E}
    (ha : At A a i) (hb : At B b j) (hx : (entries A)[i]? = some x)
    (hy : (entries B)[j]? = some y) : currentEqual refHash a b = some (decide (x = y)) := by
  obtain ⟨xs, ia, pa, rfl, h0a, hxa⟩ := ha.leaf_item hx
  obtain ⟨ys, ib, pb, rfl, h0b, hyb⟩ := hb.leaf_item hy
  simp [currentEqual, isCurrentEqual, h0a, h0b, hxa, hyb]

end Positions

/-! ## Skipping the common run -/

section Skip

variable [DecidableEq E] [DecidableEq H] {refHash : Sequence K E → H} {dA dB : Nat}
  {A B : Sequence K E} {a b : List (Frame K E)} {i j : Nat}

/-- `fastForward` moves two leaf-level cursors at entries `i` and `j` on by a run `k` on which the
trees agree, ended where a tree ends or the entries differ. Chunks that hash apart and distinct
entries in `A` make skipping through equal parents sound. -/
theorem fastForward_at (hinj : Function.Injective refHash) (hA : Counted dA A) (hB : Counted dB B)
    (hnA : (entries A).Nodup) (ha : At A a i) (hb : At B b j) {fuel : Nat}
    (hfuel : (dA + 1) * ((entries A).length + 1) ≤ fuel) :
    ∃ a' b' k, fastForward refHash fuel a b = some (a', b') ∧ At A a' (i + k : Nat) ∧
      At B b' (j + k : Nat) ∧ Agree (entries A) (entries B) i j k ∧
      (i + k = (entries A).length ∨ j + k = (entries B).length ∨
        (entries A)[i + k]? ≠ (entries B)[j + k]?) := by
  have hi := ha.le_length
  have hj := hb.le_length
  by_cases hv : i < (entries A).length ∧ j < (entries B).length
  swap
  · -- a cursor is off its tree: nothing is skipped
    have hvalid : bothValid a b = false := by simpa [At.bothValid_eq ha hb] using hv
    refine ⟨a, b, 0, by simp [fastForward, hvalid], ha, hb, agree_zero hi hj, ?_⟩
    omega
  have hvalid : bothValid a b = true := by simpa [At.bothValid_eq ha hb] using hv
  have hlenA := ha.length hA
  have hlenB := hb.length hB
  have hwork : loopWork (entries A).length a (true && true) (i + 0) < fuel := by
    simp only [loopWork, hlenA, Bool.and_self, ↓reduceIte, Nat.add_sub_cancel, Nat.add_zero]
    rw [Nat.succ_mul] at hfuel
    omega
  obtain ⟨⟨a', b', aMore, bMore⟩, k, hloop, hres⟩ :=
    loopSpec hinj hA hB hnA fuel true (i := i) (j := j) (k := 0) (ha.placed hv.1 true)
      (hb.placed hv.2 true) (by rw [hlenA, hlenB]; omega) (agree_zero hi hj) hwork
  refine ⟨a', b', k, ?_, hres.placedA.at hA (hres.lengthA.trans hlenA),
    hres.placedB.at hB (hres.lengthB.trans hlenB), hres.agree,
    stop_at_leaf hA hres.placedA hres.placedB (hres.lengthA.trans hlenA) hres.stopped⟩
  simp [fastForward, doFastForward, hvalid, hloop]

end Skip

/-! ## The loops in continuation form -/

section Sends

variable [LinearOrder K] [DecidableEq E] (keyOf : E → K) (A B : Sequence K E)

/-- What a loop of the tree diff leaves from the entries `i` and `j`: the cursors `l` and `c` at
entries `i'` and `j'`, and the list diff from `i` and `j` is the changes `cs` followed by the list
diff from `i'` and `j'`. -/
structure Sends (i j : Nat) (cs : List (ValueChanged K)) (l c : List (Frame K E)) (i' j' : Nat) :
    Prop where
  atLast : At A l i'
  atCurrent : At B c j'
  diff_eq : orderedSequenceDiffLeftRight keyOf ((entries A).drop i) ((entries B).drop j) =
    cs ++ orderedSequenceDiffLeftRight keyOf ((entries A).drop i') ((entries B).drop j')

/-- What the inner loop answers from the entries `i` and `j`: it sends what the list diff starts
with up to `i'` and `j'`, gets past the two entries it starts on when they differ, and stops where
a tree ends or the entries agree. -/
structure InnerResult (i j : Nat)
    (r : List (ValueChanged K) × List (Frame K E) × List (Frame K E)) (i' j' : Nat) : Prop where
  sends : Sends keyOf A B i j r.1 r.2.1 r.2.2 i' j'
  le_last : i ≤ i'
  le_current : j ≤ j'
  passed : i < (entries A).length → j < (entries B).length →
    (entries A)[i]? ≠ (entries B)[j]? → i + j < i' + j'
  stopped : i' = (entries A).length ∨ j' = (entries B).length ∨
    (entries A)[i']? = (entries B)[j']?

variable {keyOf A B} {i j i₁ j₁ i' j' : Nat} {cs cs' : List (ValueChanged K)}
  {l c l₁ c₁ : List (Frame K E)}

namespace Sends

theorem refl (hl : At A l i) (hc : At B c j) : Sends keyOf A B i j [] l c i j :=
  ⟨hl, hc, rfl⟩

/-- One change of the list diff, then what a loop sends from where it leads. -/
theorem cons {ch : ValueChanged K}
    (hstep : orderedSequenceDiffLeftRight keyOf ((entries A).drop i) ((entries B).drop j) =
      ch :: orderedSequenceDiffLeftRight keyOf ((entries A).drop i₁) ((entries B).drop j₁))
    (h : Sends keyOf A B i₁ j₁ cs l c i' j') : Sends keyOf A B i j (ch :: cs) l c i' j' :=
  ⟨h.atLast, h.atCurrent, by rw [hstep, h.diff_eq, List.cons_append]⟩

theorem trans (h : Sends keyOf A B i j cs l₁ c₁ i₁ j₁) (h' : Sends keyOf A B i₁ j₁ cs' l c i' j') :
    Sends keyOf A B i j (cs ++ cs') l c i' j' :=
  ⟨h'.atLast, h'.atCurrent, by rw [h.diff_eq, h'.diff_eq, List.append_assoc]⟩

end Sends

/-- A turn of the inner loop that sends one change and moves on, then the rest of the loop. -/
theorem InnerResult.cons {ch : ValueChanged K}
    {r : List (ValueChanged K) × List (Frame K E) × List (Frame K E)}
    (hstep : orderedSequenceDiffLeftRight keyOf ((entries A).drop i) ((entries B).drop j) =
      ch :: orderedSequenceDiffLeftRight keyOf ((entries A).drop i₁) ((entries B).drop j₁))
    (hi : i ≤ i₁) (hj : j ≤ j₁) (hmove : i + j < i₁ + j₁) (h : InnerResult keyOf A B i₁ j₁ r i' j') :
    InnerResult keyOf A B i j (ch :: r.1, r.2) i' j' := by
  have := h.le_last
  have := h.le_current
  exact ⟨h.sends.cons hstep, by omega, by omega, fun _ _ _ => by omega, h.stopped⟩

end Sends

/-! ## The loops -/

section Loops

variable [LinearOrder K] [DecidableEq E] [DecidableEq H] {refHash : Sequence K E → H}
  {keyOf : E → K} {dA dB : Nat} {A B : Sequence K E}

variable (refHash keyOf) in
/-- The inner loop from two leaf-level cursors answers when the fuel covers the entries left, each
turn one step of the list diff. -/
theorem innerLoop_spec (hA : Counted dA A) (hB : Counted dB B) (fuel : Nat)
    {l c : List (Frame K E)} {i j : Nat} (hl : At A l i) (hc : At B c j)
    (hfuel : (entries A).length - i + ((entries B).length - j) < fuel) :
    ∃ r i' j', Tree.innerLoop refHash keyOf fuel l c = some r ∧ InnerResult keyOf A B i j r i' j' := by
  induction fuel generalizing l c i j with
  | zero => exact absurd hfuel (Nat.not_lt_zero _)
  | succ fuel ih =>
    have hi := hl.le_length
    have hj := hc.le_length
    by_cases hv : i < (entries A).length ∧ j < (entries B).length
    swap
    · -- a cursor is off its tree: the loop stops there
      have hvalid : bothValid l c = false := by simpa [At.bothValid_eq hl hc] using hv
      exact ⟨_, i, j, innerLoop_stop hvalid, Sends.refl hl hc, le_rfl, le_rfl,
        fun h1 h2 _ => absurd ⟨h1, h2⟩ hv, by omega⟩
    have hvalid : bothValid l c = true := by simpa [At.bothValid_eq hl hc] using hv
    obtain ⟨x, hx⟩ : ∃ x, (entries A)[i]? = some x := ⟨_, List.getElem?_eq_getElem hv.1⟩
    obtain ⟨y, hy⟩ : ∃ y, (entries B)[j]? = some y := ⟨_, List.getElem?_eq_getElem hv.2⟩
    have heq := At.currentEqual_eq refHash hl hc hx hy
    by_cases hxy : x = y
    · -- the entries agree: the loop leaves them to the next fast forward
      have hsame : (entries A)[i]? = (entries B)[j]? := by rw [hx, hy, hxy]
      exact ⟨_, i, j, innerLoop_equal hvalid (by simpa [hxy] using heq), Sends.refl hl hc, le_rfl,
        le_rfl, fun _ _ hne => absurd hsame hne, .inr (.inr hsame)⟩
    have hne : currentEqual refHash l c = some false := by simpa [hxy] using heq
    have hkl := hl.getCurrentKey_eq keyOf hx
    have hkc := hc.getCurrentKey_eq keyOf hy
    rcases lt_trichotomy (keyOf y) (keyOf x) with hlt | hkey | hgt
    · -- `current` has the smaller key: it was added
      obtain ⟨c₁, m, hadv, hc₁⟩ := hc.advance_succ hB hv.2
      obtain ⟨r, i', j', hrest, hres⟩ := ih hl hc₁ (by omega)
      exact ⟨_, i', j', innerLoop_added hvalid hne hkl hkc hlt hadv hrest,
        hres.cons (diff_drop_added hx hy hxy hlt) le_rfl (by omega) (by omega)⟩
    · -- both have the key: it was modified
      obtain ⟨l₁, m, hadvl, hl₁⟩ := hl.advance_succ hA hv.1
      obtain ⟨c₁, m', hadvc, hc₁⟩ := hc.advance_succ hB hv.2
      obtain ⟨r, i', j', hrest, hres⟩ := ih hl₁ hc₁ (by omega)
      exact ⟨_, i', j', innerLoop_modified hvalid hne hkl hkc hkey.symm hadvl hadvc hrest,
        hres.cons (diff_drop_modified hx hy hxy hkey.symm) (by omega) (by omega) (by omega)⟩
    · -- `last` has the smaller key: it was removed
      obtain ⟨l₁, m, hadv, hl₁⟩ := hl.advance_succ hA hv.1
      obtain ⟨r, i', j', hrest, hres⟩ := ih hl₁ hc (by omega)
      exact ⟨_, i', j', innerLoop_removed hvalid hne hkl hkc hgt hadv hrest,
        hres.cons (diff_drop_removed hx hy hxy hgt) (by omega) le_rfl (by omega)⟩

variable (keyOf) in
/-- The outer loop answers when its turns cover the entries left: each turn skips an agreeing
run, which the list diff skips too, and moves the positions on. It leaves one cursor off its
tree. -/
theorem outerLoop_spec (hinj : Function.Injective refHash) (hA : Counted dA A) (hB : Counted dB B)
    (hnA : (entries A).Nodup) {fuel : Nat}
    (hfuel : (dA + 1) * ((entries A).length + 1) + (entries B).length ≤ fuel) (turns : Nat)
    {l c : List (Frame K E)} {i j : Nat} (hl : At A l i) (hc : At B c j)
    (hturns : (entries A).length - i + ((entries B).length - j) < turns) :
    ∃ cs l' c' i' j', Tree.outerLoop refHash keyOf fuel turns l c = some (cs, l', c') ∧
      Sends keyOf A B i j cs l' c' i' j' ∧ (i' = (entries A).length ∨ j' = (entries B).length) := by
  induction turns generalizing l c i j with
  | zero => exact absurd hturns (Nat.not_lt_zero _)
  | succ turns ih =>
    have hi := hl.le_length
    have hj := hc.le_length
    have hwork : (entries A).length + 1 ≤ (dA + 1) * ((entries A).length + 1) :=
      Nat.le_mul_of_pos_left _ (Nat.succ_pos dA)
    by_cases hv : i < (entries A).length ∧ j < (entries B).length
    swap
    · have hvalid : bothValid l c = false := by simpa [At.bothValid_eq hl hc] using hv
      exact ⟨[], l, c, i, j, outerLoop_stop hvalid, Sends.refl hl hc, by omega⟩
    have hvalid : bothValid l c = true := by simpa [At.bothValid_eq hl hc] using hv
    obtain ⟨l₁, c₁, k, hff, hl₁, hc₁, hagree, hstop⟩ :=
      fastForward_at hinj hA hB hnA hl hc (le_trans (Nat.le_add_right _ _) hfuel)
    have hskip : Sends keyOf A B i j [] l₁ c₁ (i + k) (j + k) :=
      ⟨hl₁, hc₁, by rw [List.nil_append, diff_drop_of_take_eq k hagree.2.2, List.drop_drop,
        List.drop_drop]⟩
    obtain ⟨⟨cs, l₂, c₂⟩, i₂, j₂, hin, hres⟩ := innerLoop_spec refHash keyOf hA hB fuel hl₁ hc₁
      (by omega)
    -- the turn moves the positions on: by the fast forward, or past two differing entries
    have hmove : i + j < i₂ + j₂ := by
      have := hres.le_last
      have := hres.le_current
      rcases Nat.eq_zero_or_pos k with rfl | hk
      · have hne : (entries A)[i]? ≠ (entries B)[j]? := by simpa [hv.1.ne, hv.2.ne] using hstop
        have := hres.passed (by simpa using hv.1) (by simpa using hv.2) (by simpa using hne)
        omega
      · omega
    have hi₂ := hres.sends.atLast.le_length
    have hj₂ := hres.sends.atCurrent.le_length
    obtain ⟨rest, l₃, c₃, i₃, j₃, hrest, hsends, hend⟩ :=
      ih hres.sends.atLast hres.sends.atCurrent (by omega)
    exact ⟨cs ++ rest, l₃, c₃, i₃, j₃, outerLoop_turn hvalid hff hin hrest,
      (hskip.trans hres.sends).trans hsends, hend⟩

omit [LinearOrder K] [DecidableEq E] [DecidableEq H] in
variable (keyOf) in
/-- A drain from a cursor at entry `i` sends every entry from `i` on. -/
theorem drainLoop_spec (hA : Counted dA A) (t : DiffChangeType) (fuel : Nat)
    {l : List (Frame K E)} {i : Nat} (hl : At A l i) (hfuel : (entries A).length - i < fuel) :
    Tree.drainLoop keyOf t fuel l = some (((entries A).drop i).map fun e => ⟨t, keyOf e⟩) := by
  induction fuel generalizing l i with
  | zero => exact absurd hfuel (Nat.not_lt_zero _)
  | succ fuel ih =>
    obtain ⟨f, fs, rfl⟩ := hl.exists_cons
    by_cases hi : i < (entries A).length
    · obtain ⟨x, hx⟩ : ∃ x, (entries A)[i]? = some x := ⟨_, List.getElem?_eq_getElem hi⟩
      obtain ⟨l₁, m, hadv, hl₁⟩ := hl.advance_succ hA hi
      rw [drainLoop_step (by simpa [hl.valid_eq] using hi) (hl.getCurrentKey_eq keyOf hx) hadv
        (ih hl₁ (by omega)), drop_eq_cons_of_getElem? hx, List.map_cons]
    · have hend : i = (entries A).length := by
        have := hl.le_length
        omega
      rw [drainLoop_stop (by simpa [hl.valid_eq] using hi), hend, List.drop_length, List.map_nil]

/-- The tree diff is the list diff of the trees' entries, when the fuel covers the work. -/
theorem diffLeftRight_refines (hinj : Function.Injective refHash) (hA : Counted dA A)
    (hB : Counted dB B) (hnA : (entries A).Nodup) {fuel : Nat}
    (hfuel : (dA + 1) * ((entries A).length + 1) + (entries B).length ≤ fuel) :
    Tree.orderedSequenceDiffLeftRight refHash keyOf fuel A B =
      some (orderedSequenceDiffLeftRight keyOf (entries A) (entries B)) := by
  have hwork : (entries A).length + 1 ≤ (dA + 1) * ((entries A).length + 1) :=
    Nat.le_mul_of_pos_left _ (Nat.succ_pos dA)
  obtain ⟨l₀, hl₀, hatl₀⟩ : ∃ cur, newCursorAt keyOf A none false false = some cur ∧ At A cur 0 :=
    newCursorAt_first keyOf hA
  obtain ⟨c₀, hc₀, hatc₀⟩ : ∃ cur, newCursorAt keyOf B none false false = some cur ∧ At B cur 0 :=
    newCursorAt_first keyOf hB
  obtain ⟨cs, l, c, i, j, hloop, hsends, hend⟩ :=
    outerLoop_spec keyOf hinj hA hB hnA hfuel fuel (i := 0) (j := 0) hatl₀ hatc₀ (by omega)
  have hremoved := drainLoop_spec keyOf hA .DiffChangeRemoved fuel hsends.atLast (by omega)
  have hadded := drainLoop_spec keyOf hB .DiffChangeAdded fuel hsends.atCurrent (by omega)
  -- once the outer loop leaves a cursor off its tree, the list diff only drains the other
  have hrest : orderedSequenceDiffLeftRight keyOf ((entries A).drop i) ((entries B).drop j) =
      ((entries A).drop i).map (fun e => ⟨.DiffChangeRemoved, keyOf e⟩) ++
        ((entries B).drop j).map fun e => ⟨.DiffChangeAdded, keyOf e⟩ :=
    diff_of_nil_or_nil
      (hend.imp (fun h => List.drop_eq_nil_iff.mpr h.ge) (fun h => List.drop_eq_nil_iff.mpr h.ge))
  have hdiff := hsends.diff_eq
  rw [List.drop_zero, List.drop_zero, hrest] at hdiff
  simp [Tree.orderedSequenceDiffLeftRight, hl₀, hc₀, hloop, hremoved, hadded, hdiff]

end Loops

/-! ## What the diff sends -/

section Exact

variable [LinearOrder K] [DecidableEq E] [DecidableEq H] {refHash : Sequence K E → H}
  {keyOf : E → K} {dA dB : Nat} {A B : Sequence K E}

/-- `orderedSequenceDiffLeftRight(last, current)` over two trees with increasing keys, chunks that
hash apart and enough fuel sends, in increasing key order, exactly one change for each key where
the trees differ: added where only `current` has an entry, removed where only `last` has one,
modified where both have different entries. -/
theorem orderedSequenceDiffLeftRight_exact (hinj : Function.Injective refHash)
    (hA : Counted dA A) (hB : Counted dB B) (hsA : ((entries A).map keyOf).Pairwise (· < ·))
    (hsB : ((entries B).map keyOf).Pairwise (· < ·)) {fuel : Nat}
    (hfuel : (dA + 1) * ((entries A).length + 1) + (entries B).length ≤ fuel) :
    ∃ cs, Tree.orderedSequenceDiffLeftRight refHash keyOf fuel A B = some cs ∧
      (cs.map ValueChanged.V).Pairwise (· < ·) ∧
      ∀ ch, ch ∈ cs ↔ changeAt keyOf (entries A) (entries B) ch.V = some ch.ChangeType := by
  have hnA : (entries A).Nodup := List.Nodup.of_map keyOf (hsA.imp ne_of_lt)
  exact ⟨_, diffLeftRight_refines hinj hA hB hnA hfuel, orderedSequenceDiffLeftRight_sorted hsA hsB,
    mem_orderedSequenceDiffLeftRight_iff hsA hsB⟩

/-- Two trees that share their first chunk: past it, key `3` was modified, `4` removed and `5`
added. -/
theorem orderedSequenceDiffLeftRight_exact_sample :
    ∃ cs, Tree.orderedSequenceDiffLeftRight id Prod.fst 14
        (metaSeq [(2, 2, leaf [(1, 10), (2, 20)]), (4, 2, leaf [(3, 30), (4, 40)])])
        (metaSeq [(2, 2, leaf [(1, 10), (2, 20)]), (5, 2, leaf [(3, 31), (5, 50)])]) = some cs ∧
      ⟨.DiffChangeModified, 3⟩ ∈ cs ∧ ⟨.DiffChangeRemoved, 4⟩ ∈ cs ∧
      ⟨.DiffChangeAdded, 5⟩ ∈ cs := by
  have hA : Counted 1
      (metaSeq [(2, 2, leaf [(1, 10), (2, 20)]), (4, 2, leaf [(3, 30), (4, 40)])] :
        Sequence Nat (Nat × Nat)) := by
    simp [Counted, entries, seqLen]
  have hB : Counted 1
      (metaSeq [(2, 2, leaf [(1, 10), (2, 20)]), (5, 2, leaf [(3, 31), (5, 50)])] :
        Sequence Nat (Nat × Nat)) := by
    simp [Counted, entries, seqLen]
  have hsA : ((entries (metaSeq [(2, 2, leaf [(1, 10), (2, 20)]),
      (4, 2, leaf [(3, 30), (4, 40)])] : Sequence Nat (Nat × Nat))).map Prod.fst).Pairwise (· < ·) := by
    decide
  have hsB : ((entries (metaSeq [(2, 2, leaf [(1, 10), (2, 20)]),
      (5, 2, leaf [(3, 31), (5, 50)])] : Sequence Nat (Nat × Nat))).map Prod.fst).Pairwise (· < ·) := by
    decide
  obtain ⟨cs, hcs, -, hmem⟩ := orderedSequenceDiffLeftRight_exact
    (Function.injective_id : Function.Injective (id : Sequence Nat (Nat × Nat) → _)) hA hB hsA hsB
    (le_refl 14)
  exact ⟨cs, hcs, (hmem _).mpr (by decide), (hmem _).mpr (by decide), (hmem _).mpr (by decide)⟩

end Exact

end Noms.Types
