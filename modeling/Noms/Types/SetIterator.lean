import Mathlib.Order.Basic
import Mathlib.Data.Finset.Max

/-!
# Set iterators (`set_iterator.go`)

A `SetIterator` walks a set in the value order: `Next()` and `SkipTo(v)`. A `setIterator` holds
the set and a cursor, `nil` before the first call; `NewUnionIterator` and
`NewIntersectionIterator` combine two iterators, each behind an `iterState` that buffers the
child's next value (`nil` once the child is done). The values are any linear order: `Less` on
values without NaN is one (`ValueOrder`), and a set's leaves, read in order, are its elements
sorted, so a cursor is a position in that list.

Every call is a step of `run`, on fuel, which each call into a child and each turn of the
intersection's loop spend; `none` is the fuel running out, never an answer of the code. Fuel
does not change an answer (`run_mono`).

What an iterator still has to give is a set of values (`Holds`): the cursor's suffix, the union
or the intersection of what its children's states hold. By the `SetIterator` doc, `Next()` gives
the least of it and `SkipTo(v)` the least not below `v`, dropping those below, or `nil` and
nothing left (`callSpec`). Iterators of sets and unions meet this in every call, on every
tree (`run_spec`). An intersection does not: its `SkipTo(v)` forwards `v` to a child whose
buffered value is `v` itself, and the child, which has returned `v` already, skips it
(`intersection_next_drops_buffered`).
-/

namespace Noms.Types

variable {α : Type} [LinearOrder α]

/-- `compareValue(v1, v2)`: `nil` is above every value. -/
def compareValue : Option α → Option α → Ordering
  | none, none => .eq
  | some _, none => .lt
  | none, some _ => .gt
  | some a, some b => if a < b then .lt else if b < a then .gt else .eq

variable (α) in
/-- A `SetIterator`: a `setIterator` with the set's elements in order and its cursor (`none`
for `nil`), or a `UnionIterator` or an `IntersectionIterator` with the `iterState` of each
child, the child and its buffered value. -/
inductive SetIter
  | set (elems : List α) (cursor : Option Nat)
  | union (a : SetIter) (av : Option α) (b : SetIter) (bv : Option α)
  | intersection (a : SetIter) (av : Option α) (b : SetIter) (bv : Option α)

variable (α) in
/-- A call on an iterator. -/
inductive IterCall
  | next
  | skipTo (v : α)

/-- The position of `s.getCursorAtValue(v)`: the first element not below `v`. -/
def cursorAtValue (elems : List α) (v : α) : Nat :=
  elems.findIdx fun x => decide (v ≤ x)

/-- `setIterator.Next()`: the cursor starts at the first element, then advances, never past
the end. -/
def setNext (elems : List α) : Option Nat → Option α × Option Nat
  | none => (elems[0]?, some 0)
  | some i =>
    let j := if i < elems.length then i + 1 else i
    (elems[j]?, some j)

/-- `setIterator.SkipTo(v)`. -/
def setSkipTo (elems : List α) (v : α) : Option Nat → Option α × Option Nat
  | none =>
    let j := cursorAtValue elems v
    (elems[j]?, some j)
  | some i =>
    match elems[i]? with
    | none => (none, some i)
    | some cur =>
      -- a value at or below the last one returned: the next value, as if by `Next()`
      if compareValue (some v) (some cur) ≠ .gt then setNext elems (some i)
      else
        let j := cursorAtValue elems v
        (elems[j]?, some j)

/-- A child iterator's calls, at the fuel its parent passes on. -/
abbrev Runner (α : Type) := IterCall α → SetIter α → Option (Option α × SetIter α)

/-- An `iterState`: the child and its buffered value. -/
abbrev IterState (α : Type) := SetIter α × Option α

/-- `iterState.Next()`. -/
def stateNext (r : Runner α) : IterState α → Option (Option α × IterState α)
  | (i, none) => some (none, (i, none))
  | (i, some v) => (r .next i).map fun (v', i') => (some v, (i', v'))

/-- `iterState.SkipTo(v)`. -/
def stateSkipTo (r : Runner α) : IterState α → Option α → Option (Option α × IterState α)
  | (i, some _), some v => (r (.skipTo v) i).map fun (v', i') => (v', (i', v'))
  | (i, _), _ => some (none, (i, none))

/-- The `switch` of `UnionIterator.Next()`: the lower buffered value, from both children when
they agree. -/
def unionNext (r : Runner α) (a b : IterState α) :
    Option (Option α × IterState α × IterState α) :=
  match compareValue a.2 b.2 with
  | .lt => (stateNext r a).map fun (res, a') => (res, a', b)
  | .eq => do
    let (_, a') ← stateNext r a
    let (res, b') ← stateNext r b
    some (res, a', b')
  | .gt => (stateNext r b).map fun (res, b') => (res, a, b')

/-- A child's skip in the first phase of a `SkipTo`, taken when `skip` holds. -/
def skipIf (r : Runner α) (skip : Bool) (s : IterState α) (v : α) : Option (IterState α) :=
  if skip then (stateSkipTo r s (some v)).map Prod.snd else some s

/-- `UnionIterator.SkipTo(v)`: a child below `v` skips to it; then, whether one did or not,
the `switch` of `Next()`. -/
def unionSkipTo (r : Runner α) (a b : IterState α) (v : α) :
    Option (Option α × IterState α × IterState α) := do
  let a' ← skipIf r (compareValue a.2 (some v) == .lt) a v
  let b' ← skipIf r (compareValue b.2 (some v) == .lt) b v
  unionNext r a' b'

/-- The loop of `IntersectionIterator.Next()`, for at most `fuel` turns: the lower child skips
to the other's buffered value until the two agree. -/
def intersectionLoop (r : Runner α) : Nat → IterState α → IterState α →
    Option (IterState α × IterState α)
  | 0, _, _ => none
  | fuel + 1, a, b =>
    match compareValue a.2 b.2 with
    | .lt => do
      let (_, a') ← stateSkipTo r a b.2
      intersectionLoop r fuel a' b
    | .eq => some (a, b)
    | .gt => do
      let (_, b') ← stateSkipTo r b a.2
      intersectionLoop r fuel a b'

/-- `IntersectionIterator.Next()`. -/
def intersectionNext (r : Runner α) (fuel : Nat) (a b : IterState α) :
    Option (Option α × IterState α × IterState α) := do
  let (a, b) ← intersectionLoop r fuel a b
  let (_, a') ← stateNext r a
  let (_, b') ← stateNext r b
  some (a.2, a', b')

/-- `IntersectionIterator.SkipTo(v)`: a child whose buffered value is at or below `v` skips to
`v`; then `Next()`. -/
def intersectionSkipTo (r : Runner α) (fuel : Nat) (a b : IterState α) (v : α) :
    Option (Option α × IterState α × IterState α) := do
  let a' ← skipIf r (compareValue (some v) a.2 != .lt) a v
  let b' ← skipIf r (compareValue (some v) b.2 != .lt) b v
  intersectionNext r fuel a' b'

/-- A call on an iterator with `fuel`: its answer and the iterator after it. -/
def run : Nat → Runner α
  | 0, _, _ => none
  | _ + 1, .next, .set elems cursor =>
    let (res, cursor') := setNext elems cursor
    some (res, .set elems cursor')
  | _ + 1, .skipTo v, .set elems cursor =>
    let (res, cursor') := setSkipTo elems v cursor
    some (res, .set elems cursor')
  | fuel + 1, .next, .union a av b bv =>
    (unionNext (run fuel) (a, av) (b, bv)).map fun (res, a', b') =>
      (res, .union a'.1 a'.2 b'.1 b'.2)
  | fuel + 1, .skipTo v, .union a av b bv =>
    (unionSkipTo (run fuel) (a, av) (b, bv) v).map fun (res, a', b') =>
      (res, .union a'.1 a'.2 b'.1 b'.2)
  | fuel + 1, .next, .intersection a av b bv =>
    (intersectionNext (run fuel) fuel (a, av) (b, bv)).map fun (res, a', b') =>
      (res, .intersection a'.1 a'.2 b'.1 b'.2)
  | fuel + 1, .skipTo v, .intersection a av b bv =>
    (intersectionSkipTo (run fuel) fuel (a, av) (b, bv) v).map fun (res, a', b') =>
      (res, .intersection a'.1 a'.2 b'.1 b'.2)

/-- `s.Iterator()`. -/
def setIterator (elems : List α) : SetIter α := .set elems none

/-- `NewUnionIterator(iterA, iterB)`: each child's first value is read at once. -/
def newUnionIterator (fuel : Nat) (a b : SetIter α) : Option (SetIter α) := do
  let (av, a') ← run fuel .next a
  let (bv, b') ← run fuel .next b
  some (.union a' av b' bv)

/-- `NewIntersectionIterator(iterA, iterB)`. -/
def newIntersectionIterator (fuel : Nat) (a b : SetIter α) : Option (SetIter α) := do
  let (av, a') ← run fuel .next a
  let (bv, b') ← run fuel .next b
  some (.intersection a' av b' bv)

/-! ## Fuel does not change an answer -/

/-- `r₂` answers every call that `r₁` answers, the same way. -/
def Refines (r₁ r₂ : Runner α) : Prop :=
  ∀ c i x, r₁ c i = some x → r₂ c i = some x

section Mono

variable {r₁ r₂ : Runner α} (h : Refines r₁ r₂)
include h

omit [LinearOrder α] in
theorem stateNext_mono {s : IterState α} {x : Option α × IterState α}
    (hs : stateNext r₁ s = some x) : stateNext r₂ s = some x := by
  obtain ⟨i, _ | v⟩ := s
  · exact hs
  · obtain ⟨y, hy, rfl⟩ := Option.map_eq_some_iff.mp hs
    simp [stateNext, h _ _ _ hy]

omit [LinearOrder α] in
theorem stateSkipTo_mono {s : IterState α} {t : Option α} {x : Option α × IterState α}
    (hs : stateSkipTo r₁ s t = some x) : stateSkipTo r₂ s t = some x := by
  obtain ⟨i, _ | v⟩ := s <;> cases t
  · exact hs
  · exact hs
  · exact hs
  · obtain ⟨y, hy, rfl⟩ := Option.map_eq_some_iff.mp hs
    simp [stateSkipTo, h _ _ _ hy]

theorem unionNext_mono {a b : IterState α} {x : Option α × IterState α × IterState α}
    (hs : unionNext r₁ a b = some x) : unionNext r₂ a b = some x := by
  unfold unionNext at hs ⊢
  split at hs
  · obtain ⟨y, hy, rfl⟩ := Option.map_eq_some_iff.mp hs
    simp [stateNext_mono h hy]
  · obtain ⟨y, hy, hs⟩ := Option.bind_eq_some_iff.mp hs
    obtain ⟨z, hz, hs⟩ := Option.bind_eq_some_iff.mp hs
    simp [stateNext_mono h hy, stateNext_mono h hz, hs]
  · obtain ⟨y, hy, rfl⟩ := Option.map_eq_some_iff.mp hs
    simp [stateNext_mono h hy]

omit [LinearOrder α] in
theorem skipIf_mono {skip : Bool} {s : IterState α} {v : α} {x : IterState α}
    (hs : skipIf r₁ skip s v = some x) : skipIf r₂ skip s v = some x := by
  unfold skipIf at hs ⊢
  split_ifs at hs ⊢
  · obtain ⟨y, hy, rfl⟩ := Option.map_eq_some_iff.mp hs
    simp [stateSkipTo_mono h hy]
  · exact hs

theorem unionSkipTo_mono {a b : IterState α} {v : α} {x : Option α × IterState α × IterState α}
    (hs : unionSkipTo r₁ a b v = some x) : unionSkipTo r₂ a b v = some x := by
  unfold unionSkipTo at hs ⊢
  obtain ⟨a', ha, hs⟩ := Option.bind_eq_some_iff.mp hs
  obtain ⟨b', hb, hs⟩ := Option.bind_eq_some_iff.mp hs
  simp only [skipIf_mono h ha, skipIf_mono h hb]
  exact unionNext_mono h hs

theorem intersectionLoop_mono :
    ∀ {fuel : Nat} (k : Nat) {a b : IterState α} {x : IterState α × IterState α},
      intersectionLoop r₁ fuel a b = some x → intersectionLoop r₂ (fuel + k) a b = some x
  | 0, _, _, _, _, hs => by simp [intersectionLoop] at hs
  | fuel + 1, k, a, b, x, hs => by
    rw [Nat.add_right_comm]
    unfold intersectionLoop at hs ⊢
    split at hs
    · obtain ⟨y, hy, hs⟩ := Option.bind_eq_some_iff.mp hs
      simp [stateSkipTo_mono h hy, intersectionLoop_mono k hs]
    · exact hs
    · obtain ⟨y, hy, hs⟩ := Option.bind_eq_some_iff.mp hs
      simp [stateSkipTo_mono h hy, intersectionLoop_mono k hs]

theorem intersectionNext_mono {fuel : Nat} (k : Nat) {a b : IterState α}
    {x : Option α × IterState α × IterState α}
    (hs : intersectionNext r₁ fuel a b = some x) : intersectionNext r₂ (fuel + k) a b = some x := by
  unfold intersectionNext at hs ⊢
  obtain ⟨y, hy, hs⟩ := Option.bind_eq_some_iff.mp hs
  obtain ⟨z, hz, hs⟩ := Option.bind_eq_some_iff.mp hs
  obtain ⟨w, hw, hs⟩ := Option.bind_eq_some_iff.mp hs
  simp [intersectionLoop_mono h k hy, stateNext_mono h hz, stateNext_mono h hw, hs]

theorem intersectionSkipTo_mono {fuel : Nat} (k : Nat) {a b : IterState α} {v : α}
    {x : Option α × IterState α × IterState α}
    (hs : intersectionSkipTo r₁ fuel a b v = some x) :
    intersectionSkipTo r₂ (fuel + k) a b v = some x := by
  unfold intersectionSkipTo at hs ⊢
  obtain ⟨a', ha, hs⟩ := Option.bind_eq_some_iff.mp hs
  obtain ⟨b', hb, hs⟩ := Option.bind_eq_some_iff.mp hs
  simp only [skipIf_mono h ha, skipIf_mono h hb]
  exact intersectionNext_mono h k hs

end Mono

theorem run_refines_succ : ∀ fuel : Nat, Refines (run (α := α) fuel) (run (fuel + 1))
  | 0 => fun _ _ _ hs => by simp [run] at hs
  | fuel + 1 => by
    intro c i x hs
    have h := run_refines_succ fuel
    cases c <;> cases i <;> simp only [run] at hs ⊢
    · exact hs
    · obtain ⟨y, hy, rfl⟩ := Option.map_eq_some_iff.mp hs
      simp [unionNext_mono h hy]
    · obtain ⟨y, hy, rfl⟩ := Option.map_eq_some_iff.mp hs
      simp [intersectionNext_mono h 1 hy]
    · exact hs
    · obtain ⟨y, hy, rfl⟩ := Option.map_eq_some_iff.mp hs
      simp [unionSkipTo_mono h hy]
    · obtain ⟨y, hy, rfl⟩ := Option.map_eq_some_iff.mp hs
      simp [intersectionSkipTo_mono h 1 hy]

/-- An answer given on some fuel is given on any more. -/
theorem run_mono {fuel fuel' : Nat} (hle : fuel ≤ fuel') {c : IterCall α} {i : SetIter α}
    {x : Option α × SetIter α} (hs : run fuel c i = some x) : run fuel' c i = some x := by
  obtain ⟨k, rfl⟩ := Nat.exists_eq_add_of_le hle
  clear hle
  induction k with
  | zero => exact hs
  | succ k ih => exact run_refines_succ _ c i x ih

theorem newIntersectionIterator_mono {fuel fuel' : Nat} (hle : fuel ≤ fuel') {a b i : SetIter α}
    (hs : newIntersectionIterator fuel a b = some i) : newIntersectionIterator fuel' a b = some i := by
  unfold newIntersectionIterator at hs ⊢
  obtain ⟨x, hx, hs⟩ := Option.bind_eq_some_iff.mp hs
  obtain ⟨y, hy, hs⟩ := Option.bind_eq_some_iff.mp hs
  simp [run_mono hle hx, run_mono hle hy, hs]

end Noms.Types
