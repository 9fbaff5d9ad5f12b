import Noms.Types.EditDistanceTable
import Mathlib

/-!
# What `calcSplices` returns

For two sequences `prev` and `cur` compared by element equality (`seqEq`), applying the splices
`calcSplices` returns to `prev` gives `cur`, the splices are `Separated` and a splice that adds
nothing has `SpFrom = 0` (`calcSplices_sound`) — unless the trimmed matrix is too large and a
prefix was shared, where the single splice it returns forgets the prefix and applying it never
gives `cur` (`calcSplices_fallback_unsound`). When the matrix is computed, the splices remove and
add `p + c - 2 * lcsLength prev cur` elements in all, the fewest possible
(`calcSplices_minimal`).

`applySplices` reads splices as the comment on `Splice` does: each copies `prev` up to its
`SpAt`, inserts `cur[SpFrom, SpFrom + SpAdded)` and skips `SpRemoved` elements of `prev`.

The loop over the operations keeps `LoopInv`: the closed splices and the open one rebuild `cur`
up to `previousIndex` from `prev` up to `index`. `LoopInv.spliceStep_*` are its step lemmas and
`LoopInv.run` carries it along an edit `Script`.
-/

namespace Noms.Types

open Noms.Lib

variable {α : Type}

/-! ## Applying splices -/

/-- Apply one splice after those before it, which produced `acc.1` and stopped at `acc.2`. -/
def patchStep (prev cur : List α) (acc : List α × Nat) (s : Splice) : List α × Nat :=
  (acc.1 ++ (prev.drop acc.2).take (s.SpAt - acc.2) ++ (cur.drop s.SpFrom).take s.SpAdded,
    s.SpAt + s.SpRemoved)

/-- Splices applied to `prev` in order, `cur` supplying what they add. -/
def applySplices (prev cur : List α) (splices : List Splice) : List α :=
  let acc := splices.foldl (patchStep prev cur) ([], 0)
  acc.1 ++ prev.drop acc.2

/-- Splices in increasing `SpAt`, each after the elements the one before removes. -/
def Separated (splices : List Splice) : Prop :=
  splices.IsChain fun s t => s.SpAt + s.SpRemoved < t.SpAt

/-- The splice as `addSplice` adds it. -/
def closeSplice (s : Splice) : Splice :=
  if s.SpFrom = SPLICE_UNASSIGNED then { s with SpFrom := 0 } else s

theorem addSplice_eq (splices : List Splice) (s : Splice) :
    addSplice splices s = splices ++ [closeSplice s] := rfl

@[simp] theorem closeSplice_SpAt (s : Splice) : (closeSplice s).SpAt = s.SpAt := by
  unfold closeSplice; split <;> rfl

@[simp] theorem closeSplice_SpRemoved (s : Splice) : (closeSplice s).SpRemoved = s.SpRemoved := by
  unfold closeSplice; split <;> rfl

@[simp] theorem closeSplice_SpAdded (s : Splice) : (closeSplice s).SpAdded = s.SpAdded := by
  unfold closeSplice; split <;> rfl

/-- Applying one splice. -/
theorem applySplices_singleton (prev cur : List α) (s : Splice) :
    applySplices prev cur [s] =
      prev.take s.SpAt ++ (cur.drop s.SpFrom).take s.SpAdded ++ prev.drop (s.SpAt + s.SpRemoved) := by
  simp [applySplices, patchStep]

/-- `l[a, a + n + 1)` is `l[a, a + n)` and `l[a + n]`. -/
theorem take_drop_succ (l : List α) (a n : Nat) (h : a + n < l.length) :
    (l.drop a).take (n + 1) = (l.drop a).take n ++ [l[a + n]] := by
  rw [List.take_succ_eq_append_getElem (by simp; omega), List.getElem_drop]

/-- The splices applied from position `pos` of `prev` on, one after the other: what `prev` keeps
before each splice, what the splice adds, and the rest. -/
def applyFrom (prev cur : List α) : Nat → List Splice → List α
  | pos, [] => prev.drop pos
  | pos, s :: rest => (prev.drop pos).take (s.SpAt - pos) ++ (cur.drop s.SpFrom).take s.SpAdded ++
      applyFrom prev cur (s.SpAt + s.SpRemoved) rest

theorem foldl_patchStep (prev cur : List α) : ∀ (splices : List Splice) (acc : List α) (pos : Nat),
    (splices.foldl (patchStep prev cur) (acc, pos)).1 ++
        prev.drop (splices.foldl (patchStep prev cur) (acc, pos)).2 =
      acc ++ applyFrom prev cur pos splices
  | [], _, _ => rfl
  | s :: rest, acc, pos => by
    rw [List.foldl_cons, patchStep, foldl_patchStep prev cur rest, applyFrom]
    simp only [List.append_assoc]

theorem applySplices_eq_applyFrom (prev cur : List α) (splices : List Splice) :
    applySplices prev cur splices = applyFrom prev cur 0 splices :=
  foldl_patchStep prev cur splices [] 0

/-- Splices read positions only, so they commute with a map of the elements. -/
theorem applyFrom_map {β : Type} (f : α → β) (prev cur : List α) :
    ∀ (pos : Nat) (splices : List Splice),
      applyFrom (prev.map f) (cur.map f) pos splices = (applyFrom prev cur pos splices).map f
  | pos, [] => by simp [applyFrom]
  | pos, s :: rest => by simp [applyFrom, applyFrom_map f prev cur _ rest]

/-- In separated splices every splice ends no later than the last one. -/
theorem Separated.end_le {n : Nat} : ∀ {splices : List Splice}, Separated splices →
    (∀ s ∈ splices.getLast?, s.SpAt + s.SpRemoved ≤ n) → ∀ s ∈ splices, s.SpAt + s.SpRemoved ≤ n
  | [], _, _ => nofun
  | [s], _, hlast => by simpa using hlast
  | s :: t :: rest, hsep, hlast => by
    rw [Separated, List.isChain_cons_cons] at hsep
    have ih := Separated.end_le hsep.2 (by simpa using hlast)
    intro x hx
    rcases List.mem_cons.mp hx with rfl | hx
    · have := ih t List.mem_cons_self
      omega
    · exact ih x hx

/-! ## The loop invariant -/

/-- What the closed splices make of `prev`. -/
def SpliceLoop.done (prev cur : List α) (st : SpliceLoop) : List α × Nat :=
  st.splices.foldl (patchStep prev cur) ([], 0)

/-- The closed splices and the open one rebuild `cur` up to `previousIndex` from `prev` up to
`index`; the open splice starts after the closed ones, and has `SpFrom` assigned exactly when it
adds something. -/
structure LoopInv (prev cur : List α) (st : SpliceLoop) : Prop where
  out : (st.done prev cur).1 ++ (prev.drop (st.done prev cur).2).take (st.open.SpAt - (st.done prev cur).2)
      ++ (cur.drop st.open.SpFrom).take st.open.SpAdded = cur.take st.previousIndex
  ends : st.open.SpAt + st.open.SpRemoved = st.index
  below : (st.done prev cur).2 ≤ st.open.SpAt
  spFrom : (st.open.SpAdded = 0 ∧ st.open.SpFrom = SPLICE_UNASSIGNED) ∨
    (0 < st.open.SpAdded ∧ st.open.SpFrom + st.open.SpAdded = st.previousIndex ∧
      st.open.SpFrom < SPLICE_UNASSIGNED)
  chain : Separated st.splices
  last : ∀ s ∈ st.splices.getLast?, s.SpAt + s.SpRemoved < st.open.SpAt
  zero : ∀ s ∈ st.splices, s.SpAdded = 0 → s.SpFrom = 0

variable {prev cur : List α} {st : SpliceLoop}

theorem SpliceLoop.open_of_none (h : st.splice = none) :
    st.open = ⟨st.index, 0, 0, SPLICE_UNASSIGNED⟩ := by
  simp [SpliceLoop.open, h]

theorem SpliceLoop.open_of_some {s : Splice} (h : st.splice = some s) : st.open = s := by
  simp [SpliceLoop.open, h]

@[simp] theorem SpliceLoop.open_mk_some (splices : List Splice) (s : Splice) (i pi : Nat) :
    (SpliceLoop.mk splices (some s) i pi).open = s := rfl

/-- Flushing the open splice: the splices rebuild `cur` up to `previousIndex` from `prev` up to
`index`, and keep their order. -/
theorem LoopInv.flush (h : LoopInv prev cur st) :
    let acc := st.flush.foldl (patchStep prev cur) ([], 0)
    acc.2 ≤ st.index ∧ acc.1 ++ (prev.drop acc.2).take (st.index - acc.2) = cur.take st.previousIndex ∧
      Separated st.flush ∧ (∀ s ∈ st.flush.getLast?, s.SpAt + s.SpRemoved ≤ st.index) ∧
      ∀ s ∈ st.flush, s.SpAdded = 0 → s.SpFrom = 0 := by
  have hout := h.out
  have hends := h.ends
  have hbelow := h.below
  unfold SpliceLoop.flush
  cases hsp : st.splice with
  | none =>
    -- the open splice is the empty one at `index`: nothing is added
    have hlast := h.last
    rw [SpliceLoop.open_of_none hsp] at hout hbelow hlast
    dsimp only [SpliceLoop.done] at hout hbelow hlast ⊢
    simp only [List.take_zero, List.append_nil] at hout
    exact ⟨hbelow, hout, h.chain, fun s hs => Nat.le_of_lt (hlast s hs), h.zero⟩
  | some o =>
    rw [SpliceLoop.open_of_some hsp] at hout hends hbelow
    dsimp only [SpliceLoop.done] at hout hbelow ⊢
    have hfrom : (cur.drop (closeSplice o).SpFrom).take o.SpAdded = (cur.drop o.SpFrom).take o.SpAdded := by
      rcases h.spFrom with ⟨h0, -⟩ | ⟨-, -, hlt⟩
      · rw [SpliceLoop.open_of_some hsp] at h0
        simp [h0]
      · rw [SpliceLoop.open_of_some hsp] at hlt
        simp [closeSplice, hlt.ne]
    simp only [addSplice_eq, List.foldl_append, List.foldl_cons, List.foldl_nil, patchStep,
      closeSplice_SpAt, closeSplice_SpRemoved, closeSplice_SpAdded, hfrom]
    refine ⟨by omega, ?_, ?_, ?_, ?_⟩
    · rw [show o.SpAt + o.SpRemoved = st.index from hends, Nat.sub_self, List.take_zero,
        List.append_nil]
      exact hout
    · refine List.IsChain.append h.chain (List.isChain_singleton _) ?_
      intro x hx y hy
      have := h.last x hx
      rw [SpliceLoop.open_of_some hsp] at this
      simp only [List.head?_cons, Option.mem_def, Option.some.injEq] at hy
      rw [← hy, closeSplice_SpAt]
      exact this
    · intro s hs
      simp only [List.getLast?_append, List.getLast?_singleton, Option.some_or,
        Option.mem_def, Option.some.injEq] at hs
      rw [← hs, closeSplice_SpAt, closeSplice_SpRemoved]
      omega
    · intro s hs h0
      rcases List.mem_append.mp hs with hs | hs
      · exact h.zero s hs h0
      · rw [List.mem_singleton] at hs
        subst hs
        rw [closeSplice_SpAdded] at h0
        rcases h.spFrom with ⟨-, hU⟩ | ⟨hpos, -⟩
        · rw [SpliceLoop.open_of_some hsp] at hU
          simp [closeSplice, hU]
        · rw [SpliceLoop.open_of_some hsp] at hpos
          omega

/-- An `UNCHANGED` step over equal elements flushes the open splice; the next one will open at
`index + 1`. -/
theorem LoopInv.spliceStep_UNCHANGED (h : LoopInv prev cur st) (hi : st.index < prev.length)
    (hpi : st.previousIndex < cur.length) (heq : prev[st.index] = cur[st.previousIndex]) :
    LoopInv prev cur (spliceStep st .UNCHANGED) := by
  obtain ⟨hpos, hout, hsep, hlast, hzero⟩ := h.flush
  constructor
  · simp only [spliceStep, SpliceLoop.open, SpliceLoop.done, Option.getD_none, List.take_zero,
      List.append_nil]
    rw [show st.index + 1 - (st.flush.foldl (patchStep prev cur) ([], 0)).2 =
        st.index - (st.flush.foldl (patchStep prev cur) ([], 0)).2 + 1 by omega,
      take_drop_succ _ _ _ (by omega), ← List.append_assoc, hout,
      List.take_succ_eq_append_getElem hpi]
    congr 2
    rw [← heq]
    congr 1
    omega
  · simp [spliceStep, SpliceLoop.open]
  · simp only [spliceStep, SpliceLoop.open, SpliceLoop.done, Option.getD_none]
    omega
  · simp [spliceStep, SpliceLoop.open]
  · exact hsep
  · intro s hs
    have := hlast s hs
    simp only [spliceStep, SpliceLoop.open, Option.getD_none]
    omega
  · exact hzero

/-- The three steps that grow the open splice: by `r` removed elements of `prev` and `a` added
ones of `cur`, `SpFrom` assigned at the first addition. -/
theorem LoopInv.grow (h : LoopInv prev cur st) {st' : SpliceLoop} (r a : Nat) (ha : a ≤ 1)
    (hsplices : st'.splices = st.splices) (hAt : st'.open.SpAt = st.open.SpAt)
    (hRem : st'.open.SpRemoved = st.open.SpRemoved + r)
    (hAdd : st'.open.SpAdded = st.open.SpAdded + a)
    (hindex : st'.index = st.index + r) (hpi : st'.previousIndex = st.previousIndex + a)
    (hFrom : st'.open.SpFrom = if a = 0 then st.open.SpFrom
      else if st.open.SpFrom = SPLICE_UNASSIGNED then st.previousIndex else st.open.SpFrom)
    (hcur : a = 1 → st.previousIndex < cur.length ∧ st.previousIndex < SPLICE_UNASSIGNED) :
    LoopInv prev cur st' := by
  have hdone : st'.done prev cur = st.done prev cur := by simp only [SpliceLoop.done, hsplices]
  have hout := h.out
  have hlast := h.last
  refine ⟨?_, by rw [hAt, hRem, hindex, ← h.ends]; omega, hdone ▸ hAt ▸ h.below, ?_,
    hsplices ▸ h.chain, hsplices ▸ hAt ▸ hlast, hsplices ▸ h.zero⟩
  · rw [hdone, hAt, hAdd, hFrom, hpi]
    rcases Nat.le_one_iff_eq_zero_or_eq_one.mp ha with rfl | rfl
    · simpa using hout
    · obtain ⟨hlen, -⟩ := hcur rfl
      simp only [Nat.one_ne_zero, if_false]
      -- the splice adds `cur[previousIndex]`, from `previousIndex` on if it added nothing yet
      rcases h.spFrom with ⟨h0, hU⟩ | ⟨-, hsum, hlt⟩
      · rw [if_pos hU, h0, Nat.zero_add, take_drop_succ _ _ _ (by omega), List.take_zero]
        rw [h0, List.take_zero, List.append_nil] at hout
        rw [← List.append_assoc, hout, List.take_succ_eq_append_getElem hlen]
        simp
      · rw [if_neg hlt.ne, take_drop_succ _ _ _ (by omega), ← List.append_assoc, hout,
          List.take_succ_eq_append_getElem hlen]
        congr 3
  · rw [hAdd, hFrom, hpi]
    rcases Nat.le_one_iff_eq_zero_or_eq_one.mp ha with rfl | rfl
    · simpa using h.spFrom
    · obtain ⟨-, hU⟩ := hcur rfl
      right
      rcases h.spFrom with ⟨h0, hU'⟩ | ⟨-, hsum, hlt⟩
      · simp [hU', h0, hU]
      · simp only [Nat.one_ne_zero, if_false, if_neg hlt.ne]
        omega

theorem LoopInv.spliceStep_UPDATED (h : LoopInv prev cur st) (hpi : st.previousIndex < cur.length)
    (hU : st.previousIndex < SPLICE_UNASSIGNED) : LoopInv prev cur (spliceStep st .UPDATED) := by
  refine (h.grow 1 1 le_rfl rfl ?_ ?_ ?_ rfl rfl ?_ fun _ => ⟨hpi, hU⟩ :
    LoopInv prev cur (spliceStep st .UPDATED)) <;>
    by_cases hF : st.open.SpFrom = SPLICE_UNASSIGNED <;> simp [spliceStep, hF]

theorem LoopInv.spliceStep_INSERTED (h : LoopInv prev cur st) (hpi : st.previousIndex < cur.length)
    (hU : st.previousIndex < SPLICE_UNASSIGNED) : LoopInv prev cur (spliceStep st .INSERTED) := by
  refine (h.grow 0 1 le_rfl rfl ?_ ?_ ?_ rfl rfl ?_ fun _ => ⟨hpi, hU⟩ :
    LoopInv prev cur (spliceStep st .INSERTED)) <;>
    by_cases hF : st.open.SpFrom = SPLICE_UNASSIGNED <;> simp [spliceStep, hF]

theorem LoopInv.spliceStep_REMOVED (h : LoopInv prev cur st) :
    LoopInv prev cur (spliceStep st .REMOVED) := by
  refine (h.grow 1 0 (Nat.zero_le _) rfl ?_ ?_ ?_ rfl rfl ?_ nofun :
    LoopInv prev cur (spliceStep st .REMOVED)) <;>
    simp [spliceStep]

/-- Along a script from `A` to `B`, run after a shared prefix `P`, the loop keeps its invariant
whatever follows `A` and `B`, and ends at their ends. -/
theorem LoopInv.run (P : List α) {ops : List EditOp} {A B : List α} (hs : Script ops A B) :
    ∀ R₁ R₂ : List α, (P ++ B ++ R₂).length < 2 ^ 64 →
      (ops.foldl spliceStep ⟨[], none, P.length, P.length⟩).index = P.length + A.length ∧
      (ops.foldl spliceStep ⟨[], none, P.length, P.length⟩).previousIndex = P.length + B.length ∧
      LoopInv (P ++ A ++ R₁) (P ++ B ++ R₂) (ops.foldl spliceStep ⟨[], none, P.length, P.length⟩) := by
  induction hs with
  | nil =>
    intro R₁ R₂ _
    refine ⟨by simp, by simp, ?_⟩
    constructor <;> simp [SpliceLoop.open, SpliceLoop.done, Separated]
  | @unchanged ops A B a hs ih =>
    intro R₁ R₂ hlen
    obtain ⟨hi, hpi, hinv⟩ := ih (a :: R₁) (a :: R₂) (by simp at hlen ⊢; omega)
    simp only [List.foldl_append, List.foldl_cons, List.foldl_nil, List.length_append,
      List.length_singleton]
    refine ⟨by simp [spliceStep, hi]; omega, by simp [spliceStep, hpi]; omega, ?_⟩
    rw [show P ++ (A ++ [a]) ++ R₁ = P ++ A ++ a :: R₁ by simp,
      show P ++ (B ++ [a]) ++ R₂ = P ++ B ++ a :: R₂ by simp]
    exact hinv.spliceStep_UNCHANGED (by simp [hi]) (by simp [hpi])
      (by simp [hi, hpi, List.getElem_append_right])
  | @updated ops A B a b hs ih =>
    intro R₁ R₂ hlen
    obtain ⟨hi, hpi, hinv⟩ := ih (a :: R₁) (b :: R₂) (by simp at hlen ⊢; omega)
    simp only [List.foldl_append, List.foldl_cons, List.foldl_nil, List.length_append,
      List.length_singleton]
    refine ⟨by simp [spliceStep, hi]; omega, by simp [spliceStep, hpi]; omega, ?_⟩
    rw [show P ++ (A ++ [a]) ++ R₁ = P ++ A ++ a :: R₁ by simp,
      show P ++ (B ++ [b]) ++ R₂ = P ++ B ++ b :: R₂ by simp]
    exact hinv.spliceStep_UPDATED (by simp [hpi]) (by simp [SPLICE_UNASSIGNED] at hlen ⊢; omega)
  | @inserted ops A B b hs ih =>
    intro R₁ R₂ hlen
    obtain ⟨hi, hpi, hinv⟩ := ih R₁ (b :: R₂) (by simp at hlen ⊢; omega)
    simp only [List.foldl_append, List.foldl_cons, List.foldl_nil, List.length_append,
      List.length_singleton]
    refine ⟨by simp [spliceStep, hi], by simp [spliceStep, hpi]; omega, ?_⟩
    rw [show P ++ (B ++ [b]) ++ R₂ = P ++ B ++ b :: R₂ by simp]
    exact hinv.spliceStep_INSERTED (by simp [hpi]) (by simp [SPLICE_UNASSIGNED] at hlen ⊢; omega)
  | @removed ops A B a hs ih =>
    intro R₁ R₂ hlen
    obtain ⟨hi, hpi, hinv⟩ := ih (a :: R₁) R₂ hlen
    simp only [List.foldl_append, List.foldl_cons, List.foldl_nil, List.length_append,
      List.length_singleton]
    refine ⟨by simp [spliceStep, hi]; omega, by simp [spliceStep, hpi], ?_⟩
    rw [show P ++ (A ++ [a]) ++ R₁ = P ++ A ++ a :: R₁ by simp]
    exact hinv.spliceStep_REMOVED

/-- Once the loop is over, the flushed splices turn `prev` into `cur` up to `previousIndex`
followed by `prev` from `index` on. -/
theorem LoopInv.applySplices_flush (h : LoopInv prev cur st) :
    applySplices prev cur st.flush = cur.take st.previousIndex ++ prev.drop st.index := by
  obtain ⟨hpos, hout, -⟩ := h.flush
  set acc := st.flush.foldl (patchStep prev cur) ([], 0)
  have hdrop : prev.drop st.index = (prev.drop acc.2).drop (st.index - acc.2) := by
    rw [List.drop_drop, Nat.add_sub_cancel' hpos]
  rw [applySplices, ← hout, hdrop, List.append_assoc, List.take_append_drop]

/-! ## Where the splices read `cur`

A closed splice adds elements of `cur` that lie before `previousIndex`: it was closed with
`SpFrom + SpAdded = previousIndex`, or added nothing and had `SpFrom` set to `0`, and
`previousIndex` only grows. -/

/-- The closed splices add elements of `cur` before `previousIndex`. -/
def SpliceLoop.FromBelow (st : SpliceLoop) : Prop :=
  ∀ s ∈ st.splices, s.SpFrom + s.SpAdded ≤ st.previousIndex

theorem LoopInv.flush_fromBelow (h : LoopInv prev cur st) (hb : st.FromBelow) :
    ∀ s ∈ st.flush, s.SpFrom + s.SpAdded ≤ st.previousIndex := by
  unfold SpliceLoop.flush
  cases hsp : st.splice with
  | none => exact hb
  | some o =>
    intro s hs
    simp only [addSplice_eq, List.mem_append, List.mem_singleton] at hs
    rcases hs with hs | rfl
    · exact hb s hs
    · rw [closeSplice_SpAdded]
      rcases h.spFrom with ⟨h0, hU⟩ | ⟨-, hsum, hlt⟩
      · rw [SpliceLoop.open_of_some hsp] at h0 hU
        simp [closeSplice, hU, h0]
      · rw [SpliceLoop.open_of_some hsp] at hsum hlt
        simp only [closeSplice, hlt.ne, if_false]
        omega

theorem LoopInv.fromBelow_spliceStep (h : LoopInv prev cur st) (hb : st.FromBelow) (op : EditOp) :
    (spliceStep st op).FromBelow := by
  have hflush := h.flush_fromBelow hb
  intro s hs
  cases op with
  | UNCHANGED =>
    have := hflush s hs
    simp only [spliceStep]
    omega
  | UPDATED =>
    have := hb s hs
    simp only [spliceStep]
    omega
  | INSERTED =>
    have := hb s hs
    simp only [spliceStep]
    omega
  | REMOVED => exact hb s hs

/-- One more operation after a script keeps the closed splices' additions before
`previousIndex`. -/
theorem fromBelow_snoc (P : List α) {ops : List EditOp} {A B : List α} (hs : Script ops A B)
    (op : EditOp) (hlen : (P ++ B).length < 2 ^ 64)
    (ih : (ops.foldl spliceStep ⟨[], none, P.length, P.length⟩).FromBelow) :
    ((ops ++ [op]).foldl spliceStep ⟨[], none, P.length, P.length⟩).FromBelow := by
  obtain ⟨-, -, hinv⟩ := LoopInv.run P hs [] [] (by simpa using hlen)
  rw [List.foldl_append, List.foldl_cons, List.foldl_nil]
  exact hinv.fromBelow_spliceStep ih op

theorem fromBelow_run (P : List α) {ops : List EditOp} {A B : List α} (hs : Script ops A B)
    (hlen : (P ++ B).length < 2 ^ 64) :
    (ops.foldl spliceStep ⟨[], none, P.length, P.length⟩).FromBelow := by
  induction hs with
  | nil => simp [SpliceLoop.FromBelow]
  | @unchanged ops A B a hs ih =>
    have hlen' : (P ++ B).length < 2 ^ 64 := by simp at hlen ⊢; omega
    exact fromBelow_snoc P hs _ hlen' (ih hlen')
  | @updated ops A B a b hs ih =>
    have hlen' : (P ++ B).length < 2 ^ 64 := by simp at hlen ⊢; omega
    exact fromBelow_snoc P hs _ hlen' (ih hlen')
  | @inserted ops A B b hs ih =>
    have hlen' : (P ++ B).length < 2 ^ 64 := by simp at hlen ⊢; omega
    exact fromBelow_snoc P hs _ hlen' (ih hlen')
  | @removed ops A B a hs ih => exact fromBelow_snoc P hs _ hlen (ih hlen)

/-! ## Sizes -/

/-- What a splice removes and adds. -/
def Splice.size (s : Splice) : Nat := s.SpRemoved + s.SpAdded

/-- What the closed splices and the open one remove and add. -/
def SpliceLoop.total (st : SpliceLoop) : Nat := (st.splices.map Splice.size).sum + st.open.size

theorem SpliceLoop.sum_size_flush (st : SpliceLoop) : (st.flush.map Splice.size).sum = st.total := by
  unfold SpliceLoop.flush SpliceLoop.total
  cases hsp : st.splice with
  | none => simp [SpliceLoop.open_of_none hsp, Splice.size]
  | some o => simp [SpliceLoop.open_of_some hsp, addSplice_eq, Splice.size]

/-- Each step adds its cost to the open splice, or closes it. -/
theorem SpliceLoop.total_spliceStep (st : SpliceLoop) (o : EditOp) :
    (spliceStep st o).total = st.total + o.cost := by
  cases o with
  | UNCHANGED =>
    show (st.flush.map Splice.size).sum + Splice.size ⟨st.index + 1, 0, 0, SPLICE_UNASSIGNED⟩ =
      st.total + 0
    simp [SpliceLoop.sum_size_flush, Splice.size]
  | UPDATED | INSERTED =>
    by_cases hF : st.open.SpFrom = SPLICE_UNASSIGNED <;>
      simp [spliceStep, SpliceLoop.total, Splice.size, EditOp.cost, hF] <;> omega
  | REMOVED =>
    simp [spliceStep, SpliceLoop.total, Splice.size, EditOp.cost]
    omega

theorem SpliceLoop.total_foldl (ops : List EditOp) (st : SpliceLoop) :
    (ops.foldl spliceStep st).total = st.total + cost ops := by
  induction ops generalizing st with
  | nil => simp
  | cons o ops ih =>
    rw [List.foldl_cons, ih, SpliceLoop.total_spliceStep, cost_cons]
    omega

/-! ## Shared prefix and suffix -/

theorem sharedPrefixFrom_spec (eqFn : Nat → Nat → Bool) : ∀ n i,
    i ≤ sharedPrefixFrom eqFn i n ∧ sharedPrefixFrom eqFn i n ≤ i + n ∧
      (∀ m, i ≤ m → m < sharedPrefixFrom eqFn i n → eqFn m m = true) ∧
      (sharedPrefixFrom eqFn i n < i + n →
        eqFn (sharedPrefixFrom eqFn i n) (sharedPrefixFrom eqFn i n) = false)
  | 0, i => ⟨le_rfl, le_rfl, fun _ h h' => absurd h' (by simp [sharedPrefixFrom]; omega),
      fun h => absurd h (by simp [sharedPrefixFrom])⟩
  | n + 1, i => by
    unfold sharedPrefixFrom
    by_cases h : eqFn i i
    · rw [if_pos h]
      obtain ⟨h₁, h₂, h₃, h₄⟩ := sharedPrefixFrom_spec eqFn n (i + 1)
      refine ⟨by omega, by omega, fun m hm hlt => ?_, fun hlt => h₄ (by omega)⟩
      rcases Nat.eq_or_lt_of_le hm with rfl | hm
      · exact h
      · exact h₃ m hm hlt
    · rw [if_neg h]
      exact ⟨le_rfl, by omega, fun m hm hlt => absurd hlt (by omega), fun _ => by simpa using h⟩

theorem sharedSuffixFrom_spec (eqFn : Nat → Nat → Bool) (P C : Nat) : ∀ n count,
    count ≤ sharedSuffixFrom eqFn P C count n ∧ sharedSuffixFrom eqFn P C count n ≤ count + n ∧
      (∀ m, count ≤ m → m < sharedSuffixFrom eqFn P C count n → eqFn (P - 1 - m) (C - 1 - m) = true) ∧
      (sharedSuffixFrom eqFn P C count n < count + n →
        eqFn (P - 1 - sharedSuffixFrom eqFn P C count n) (C - 1 - sharedSuffixFrom eqFn P C count n) =
          false)
  | 0, count => ⟨le_rfl, le_rfl, fun _ h h' => absurd h' (by simp [sharedSuffixFrom]; omega),
      fun h => absurd h (by simp [sharedSuffixFrom])⟩
  | n + 1, count => by
    unfold sharedSuffixFrom
    by_cases h : eqFn (P - 1 - count) (C - 1 - count)
    · rw [if_pos h]
      obtain ⟨h₁, h₂, h₃, h₄⟩ := sharedSuffixFrom_spec eqFn P C n (count + 1)
      refine ⟨by omega, by omega, fun m hm hlt => ?_, fun hlt => h₄ (by omega)⟩
      rcases Nat.eq_or_lt_of_le hm with rfl | hm
      · exact h
      · exact h₃ m hm hlt
    · rw [if_neg h]
      exact ⟨le_rfl, by omega, fun m hm hlt => absurd hlt (by omega), fun _ => by simpa using h⟩

variable [DecidableEq α]

/-- `eqFn` for two sequences: their elements are equal. -/
def seqEq (prev cur : List α) (i j : Nat) : Bool := decide (prev[i]? = cur[j]?)

/-- The shared prefix `calcSplices` trims. -/
def sharedPrefixCount (prev cur : List α) : Nat :=
  sharedPrefix (seqEq prev cur) (uint64Min prev.length cur.length)

/-- The shared suffix `calcSplices` trims. -/
def sharedSuffixCount (prev cur : List α) : Nat :=
  sharedSuffix (seqEq prev cur) prev.length cur.length
    (uint64Min prev.length cur.length - sharedPrefixCount prev cur)

/-- The lengths of the middles `calcSplices` compares. -/
def trimmedLengths (prev cur : List α) : Nat × Nat :=
  (prev.length - sharedSuffixCount prev cur - sharedPrefixCount prev cur,
    cur.length - sharedSuffixCount prev cur - sharedPrefixCount prev cur)

theorem seqEq_eq_true {prev cur : List α} {i j : Nat} :
    seqEq prev cur i j = true ↔ prev[i]? = cur[j]? := by
  simp [seqEq]

/-- The prefix and the suffix are shared, do not overlap, and the suffix stops at a difference
unless a middle is empty. -/
theorem sharedCounts_spec (prev cur : List α) :
    sharedPrefixCount prev cur + sharedSuffixCount prev cur ≤ prev.length ∧
      sharedPrefixCount prev cur + sharedSuffixCount prev cur ≤ cur.length ∧
      prev.take (sharedPrefixCount prev cur) = cur.take (sharedPrefixCount prev cur) ∧
      prev.drop (prev.length - sharedSuffixCount prev cur) =
        cur.drop (cur.length - sharedSuffixCount prev cur) ∧
      (sharedPrefixCount prev cur + sharedSuffixCount prev cur < prev.length →
        sharedPrefixCount prev cur + sharedSuffixCount prev cur < cur.length →
        prev[prev.length - 1 - sharedSuffixCount prev cur]? ≠
          cur[cur.length - 1 - sharedSuffixCount prev cur]?) := by
  obtain ⟨-, hk, hpre, -⟩ := sharedPrefixFrom_spec (seqEq prev cur) (uint64Min prev.length cur.length) 0
  obtain ⟨-, hs, hsuf, hstop⟩ := sharedSuffixFrom_spec (seqEq prev cur) prev.length cur.length
    (uint64Min prev.length cur.length - sharedPrefixCount prev cur) 0
  have hkdef : sharedPrefixFrom (seqEq prev cur) 0 (uint64Min prev.length cur.length) =
      sharedPrefixCount prev cur := rfl
  have hsdef : sharedSuffixFrom (seqEq prev cur) prev.length cur.length 0
      (uint64Min prev.length cur.length - sharedPrefixCount prev cur) = sharedSuffixCount prev cur :=
    rfl
  rw [hkdef] at hk hpre
  rw [hsdef] at hs hsuf hstop
  simp only [uint64Min_eq, Nat.zero_add] at hk hs hstop
  refine ⟨by omega, by omega, ?_, ?_, fun hp hc => ?_⟩
  · apply List.ext_getElem?
    intro m
    rw [List.getElem?_take, List.getElem?_take]
    split_ifs with hm
    · exact seqEq_eq_true.mp (hpre m (Nat.zero_le _) hm)
    · rfl
  · apply List.ext_getElem?
    intro m
    rw [List.getElem?_drop, List.getElem?_drop]
    by_cases hm : m < sharedSuffixCount prev cur
    · have := seqEq_eq_true.mp (hsuf (sharedSuffixCount prev cur - 1 - m) (Nat.zero_le _) (by omega))
      rwa [show prev.length - 1 - (sharedSuffixCount prev cur - 1 - m) =
          prev.length - sharedSuffixCount prev cur + m by omega,
        show cur.length - 1 - (sharedSuffixCount prev cur - 1 - m) =
          cur.length - sharedSuffixCount prev cur + m by omega] at this
    · rw [List.getElem?_eq_none (by omega), List.getElem?_eq_none (by omega)]
  · have := hstop (by omega)
    rwa [Bool.eq_false_iff, ne_eq, seqEq_eq_true] at this

/-! ## The middles -/

/-- `prev` is the shared prefix, its middle and the shared suffix. -/
theorem prev_eq_cut (prev cur : List α) :
    prev = prev.take (sharedPrefixCount prev cur) ++
      (prev.drop (sharedPrefixCount prev cur)).take (trimmedLengths prev cur).1 ++
      prev.drop (prev.length - sharedSuffixCount prev cur) := by
  obtain ⟨hkp, -⟩ := sharedCounts_spec prev cur
  have hm : sharedPrefixCount prev cur + (trimmedLengths prev cur).1 =
      prev.length - sharedSuffixCount prev cur := by
    simp only [trimmedLengths]
    omega
  rw [← hm, ← List.drop_drop, List.append_assoc, List.take_append_drop, List.take_append_drop]

/-- `cur` is the same prefix, its middle and the same suffix. -/
theorem cur_eq_cut (prev cur : List α) :
    cur = prev.take (sharedPrefixCount prev cur) ++
      (cur.drop (sharedPrefixCount prev cur)).take (trimmedLengths prev cur).2 ++
      prev.drop (prev.length - sharedSuffixCount prev cur) := by
  obtain ⟨-, hkc, hpre, hsuf, -⟩ := sharedCounts_spec prev cur
  have hm : sharedPrefixCount prev cur + (trimmedLengths prev cur).2 =
      cur.length - sharedSuffixCount prev cur := by
    simp only [trimmedLengths]
    omega
  rw [hpre, hsuf, ← hm, ← List.drop_drop, List.append_assoc, List.take_append_drop,
    List.take_append_drop]

/-- In the matrix branch the operations, read forwards, are a script between the middles, and
cost the fewest insertions and deletions between them. -/
theorem operations_script (prev cur : List α) (k pl cl : Nat) (hp : k + pl ≤ prev.length)
    (hc : k + cl ≤ cur.length) :
    Script (operationsFromEditDistances (calcEditDistances (seqEq prev cur) k pl k cl))
        ((prev.drop k).take pl) ((cur.drop k).take cl) ∧
      cost (operationsFromEditDistances (calcEditDistances (seqEq prev cur) k pl k cl)) =
        pl + cl - 2 * lcsLength ((prev.drop k).take pl) ((cur.drop k).take cl) := by
  set A := (prev.drop k).take pl with hAdef
  set B := (cur.drop k).take cl with hBdef
  set d := calcEditDistances (seqEq prev cur) k pl k cl
  have hA : A.length = pl := by simp only [hAdef, List.length_take, List.length_drop]; omega
  have hB : B.length = cl := by simp only [hBdef, List.length_take, List.length_drop]; omega
  have hcol : ∀ i ≤ A.length, dist d i 0 = i :=
    fun i hi => dist_calcEditDistances_zero_right i (hA ▸ hi)
  have hrow : ∀ j ≤ B.length, dist d 0 j = j :=
    fun j hj => dist_calcEditDistances_zero_left j (hB ▸ hj)
  have hstep : ∀ i j (hi : i < A.length) (hj : j < B.length), dist d (i + 1) (j + 1) =
      if A[i] = B[j] then dist d i j else min (dist d i (j + 1)) (dist d (i + 1) j) + 1 := by
    intro i j hi hj
    rw [dist_calcEditDistances_succ i j (hA ▸ hi) (hB ▸ hj)]
    -- `eqFn` compares the elements of the middles
    have hiff : seqEq prev cur (k + i) (k + j) = true ↔ A[i] = B[j] := by
      have hAi : A[i]? = prev[k + i]? := by
        rw [hAdef, List.getElem?_take_of_lt (hA ▸ hi), List.getElem?_drop]
      have hBj : B[j]? = cur[k + j]? := by
        rw [hBdef, List.getElem?_take_of_lt (hB ▸ hj), List.getElem?_drop]
      rw [seqEq_eq_true, ← hAi, ← hBj, List.getElem?_eq_getElem hi, List.getElem?_eq_getElem hj,
        Option.some_inj]
    by_cases heq : A[i] = B[j]
    · rw [if_pos (hiff.mpr heq), if_pos heq]
    · rw [if_neg (fun h => heq (hiff.mp h)), if_neg heq]
  have hops : operationsFromEditDistances d = (editsFrom d (pl + cl) pl cl (dist d pl cl)).reverse := by
    simp only [operationsFromEditDistances, d, length_calcEditDistances,
      length_getD_calcEditDistances_zero, Nat.add_sub_cancel]
  obtain ⟨hs, hcost⟩ := editsFrom_spec A B hcol hrow hstep (pl + cl) pl cl (dist d pl cl) le_rfl
    hA.ge hB.ge (.inr (.inr rfl))
  rw [List.take_of_length_le hA.le, List.take_of_length_le hB.le] at hs
  refine ⟨hops ▸ hs, ?_⟩
  rw [hops, cost_reverse, hcost, eq_lcsLength_of_recurrence A B (dist d) hcol hrow hstep pl hA.ge cl
    hB.ge, List.take_of_length_le hA.le, List.take_of_length_le hB.le]

/-- A longest common subsequence takes the shared prefix and suffix and one of the middles. -/
theorem lcsLength_cut (prev cur : List α) :
    lcsLength prev cur = sharedPrefixCount prev cur +
      lcsLength ((prev.drop (sharedPrefixCount prev cur)).take (trimmedLengths prev cur).1)
        ((cur.drop (sharedPrefixCount prev cur)).take (trimmedLengths prev cur).2) +
      sharedSuffixCount prev cur := by
  obtain ⟨hkp, -, -⟩ := sharedCounts_spec prev cur
  rw [congrArg₂ lcsLength (prev_eq_cut prev cur) (cur_eq_cut prev cur), List.append_assoc,
    List.append_assoc, lcsLength_append_left, lcsLength_append_right]
  simp only [List.length_take, List.length_drop]
  omega

/-! ## `calcSplices` -/

/-- `calcSplices` on two sequences, the shared counts named. -/
theorem calcSplices_eq (prev cur : List α) (maxSpliceMatrixSize : Nat) :
    calcSplices prev.length cur.length maxSpliceMatrixSize (seqEq prev cur) =
      if cur.length - sharedSuffixCount prev cur - sharedPrefixCount prev cur = 0 ∧
          prev.length - sharedSuffixCount prev cur - sharedPrefixCount prev cur = 0 then []
      else if sharedPrefixCount prev cur = cur.length - sharedSuffixCount prev cur then
        [⟨sharedPrefixCount prev cur, (trimmedLengths prev cur).1, 0, 0⟩]
      else if sharedPrefixCount prev cur = prev.length - sharedSuffixCount prev cur then
        [⟨sharedPrefixCount prev cur, 0, (trimmedLengths prev cur).2, sharedPrefixCount prev cur⟩]
      else if (trimmedLengths prev cur).1 * (trimmedLengths prev cur).2 % 2 ^ 64 >
          maxSpliceMatrixSize then
        [⟨0, (trimmedLengths prev cur).1, (trimmedLengths prev cur).2, 0⟩]
      else
        ((operationsFromEditDistances (calcEditDistances (seqEq prev cur) (sharedPrefixCount prev cur)
          (trimmedLengths prev cur).1 (sharedPrefixCount prev cur) (trimmedLengths prev cur).2)).foldl
          spliceStep ⟨[], none, sharedPrefixCount prev cur, sharedPrefixCount prev cur⟩).flush :=
  rfl

/-- What `calcSplices` returns outside the fallback with a shared prefix: splices that turn `prev`
into `cur`, in order and apart, a splice that adds nothing having `SpFrom = 0`, and each within
both sequences. -/
theorem calcSplices_spec (prev cur : List α) (maxSpliceMatrixSize : Nat)
    (hcur : cur.length < 2 ^ 64)
    (hfit : sharedPrefixCount prev cur = 0 ∨
      (trimmedLengths prev cur).1 * (trimmedLengths prev cur).2 % 2 ^ 64 ≤ maxSpliceMatrixSize) :
    applySplices prev cur (calcSplices prev.length cur.length maxSpliceMatrixSize (seqEq prev cur)) =
        cur ∧
      Separated (calcSplices prev.length cur.length maxSpliceMatrixSize (seqEq prev cur)) ∧
      (∀ s ∈ calcSplices prev.length cur.length maxSpliceMatrixSize (seqEq prev cur),
        s.SpAdded = 0 → s.SpFrom = 0) ∧
      ∀ s ∈ calcSplices prev.length cur.length maxSpliceMatrixSize (seqEq prev cur),
        s.SpAt + s.SpRemoved ≤ prev.length ∧ s.SpFrom + s.SpAdded ≤ cur.length := by
  obtain ⟨hkp, hkc, hpre, hsuf, -⟩ := sharedCounts_spec prev cur
  have hprev := prev_eq_cut prev cur
  have hcur' := cur_eq_cut prev cur
  rw [calcSplices_eq]
  set k := sharedPrefixCount prev cur
  set s := sharedSuffixCount prev cur
  set pl := (trimmedLengths prev cur).1 with hpl
  set cl := (trimmedLengths prev cur).2 with hcl
  have hpl' : pl = prev.length - s - k := rfl
  have hcl' : cl = cur.length - s - k := rfl
  -- `cur` is what precedes the middle's end, then `prev`'s suffix
  have hjoin : cur.take (k + cl) ++ prev.drop (k + pl) = cur := by
    rw [show k + pl = prev.length - s by omega, hsuf, show k + cl = cur.length - s by omega,
      List.take_append_drop]
  split_ifs with h₁ h₂ h₃ h₄
  · -- nothing changed
    refine ⟨?_, List.isChain_nil, by simp, by simp⟩
    simp only [applySplices, List.foldl_nil, List.nil_append, List.drop_zero]
    conv_rhs => rw [← hjoin]
    rw [show pl = 0 by omega, show cl = 0 by omega, Nat.add_zero, ← hpre, List.take_append_drop]
  · -- only removals
    refine ⟨?_, List.isChain_singleton _, by simp, by simp; omega⟩
    rw [applySplices_singleton]
    conv_rhs => rw [← hjoin]
    rw [show cl = 0 by omega, Nat.add_zero]
    simp [hpre]
  · -- only insertions
    refine ⟨?_, List.isChain_singleton _, fun x hx h0 => ?_, by simp; omega⟩
    · rw [applySplices_singleton]
      conv_rhs => rw [← hjoin]
      dsimp only
      rw [show pl = 0 by omega, Nat.add_zero, hpre, List.take_add]
    · simp only [List.mem_singleton] at hx
      subst hx
      simp only at h0
      omega
  · -- the fallback: there is no shared prefix
    have hk0 : k = 0 := by
      rcases hfit with h | h
      · exact h
      · omega
    refine ⟨?_, List.isChain_singleton _, by simp, by simp; omega⟩
    rw [applySplices_singleton]
    conv_rhs => rw [← hjoin]
    rw [hk0]
    simp
  · -- the matrix: the loop runs along the script between the middles
    obtain ⟨hscript, -⟩ := operations_script prev cur k pl cl (by omega) (by omega)
    have hPlen : (prev.take k).length = k := List.length_take_of_le (by omega)
    have hBlen : (prev.take k ++ (cur.drop k).take cl).length ≤ cur.length := by
      have := congrArg List.length hcur'
      simp only [List.length_append] at this ⊢
      omega
    obtain ⟨hidx, hpi, hinv⟩ := LoopInv.run (prev.take k) hscript
      (prev.drop (prev.length - s)) (prev.drop (prev.length - s)) (by rw [← hcur']; exact hcur)
    have hbelow := fromBelow_run (prev.take k) hscript (by omega)
    rw [← hprev, ← hcur', hPlen] at hinv
    rw [hPlen] at hidx hpi hbelow
    obtain ⟨-, -, hsep, hlast, hzero⟩ := hinv.flush
    have hpl_le : ((prev.drop k).take pl).length = pl := by simp; omega
    have hcl_le : ((cur.drop k).take cl).length = cl := by simp; omega
    refine ⟨?_, hsep, hzero, fun x hx => ⟨?_, ?_⟩⟩
    · rw [hinv.applySplices_flush, hidx, hpi, hpl_le, hcl_le, hjoin]
    · have := hsep.end_le hlast x hx
      rw [hidx, hpl_le] at this
      omega
    · have := hinv.flush_fromBelow hbelow x hx
      rw [hpi, hcl_le] at this
      omega

/-- Outside the fallback with a shared prefix, the splices turn `prev` into `cur`; they are in
order, apart, and a splice that adds nothing has `SpFrom = 0`. -/
theorem calcSplices_sound (prev cur : List α) (maxSpliceMatrixSize : Nat)
    (hcur : cur.length < 2 ^ 64)
    (hfit : sharedPrefixCount prev cur = 0 ∨
      (trimmedLengths prev cur).1 * (trimmedLengths prev cur).2 % 2 ^ 64 ≤ maxSpliceMatrixSize) :
    applySplices prev cur (calcSplices prev.length cur.length maxSpliceMatrixSize (seqEq prev cur)) =
        cur ∧
      Separated (calcSplices prev.length cur.length maxSpliceMatrixSize (seqEq prev cur)) ∧
      ∀ s ∈ calcSplices prev.length cur.length maxSpliceMatrixSize (seqEq prev cur),
        s.SpAdded = 0 → s.SpFrom = 0 := by
  obtain ⟨happly, hsep, hzero, -⟩ := calcSplices_spec prev cur maxSpliceMatrixSize hcur hfit
  exact ⟨happly, hsep, hzero⟩

/-- Three changed elements each way, two kept: the splices are sound. -/
theorem calcSplices_sound_sample :
    applySplices [1, 2, 3, 4, 5] [2, 9, 4, 7]
        (calcSplices 5 4 DEFAULT_MAX_SPLICE_MATRIX_SIZE (seqEq [1, 2, 3, 4, 5] [2, 9, 4, 7])) =
        [2, 9, 4, 7] ∧
      Separated (calcSplices 5 4 DEFAULT_MAX_SPLICE_MATRIX_SIZE (seqEq [1, 2, 3, 4, 5] [2, 9, 4, 7])) ∧
      ∀ s ∈ calcSplices 5 4 DEFAULT_MAX_SPLICE_MATRIX_SIZE (seqEq [1, 2, 3, 4, 5] [2, 9, 4, 7]),
        s.SpAdded = 0 → s.SpFrom = 0 :=
  calcSplices_sound [1, 2, 3, 4, 5] [2, 9, 4, 7] DEFAULT_MAX_SPLICE_MATRIX_SIZE (by decide)
    (.inr (by decide))

/-- When the trimmed matrix is too large and a prefix was shared, `calcSplices` returns one splice
at `0` over the trimmed lengths, and applying it never gives `cur`: it replaces the first elements
of `prev`, which are the shared prefix, and keeps the end of `prev`'s middle. -/
theorem calcSplices_fallback_unsound (prev cur : List α) (maxSpliceMatrixSize : Nat)
    (hshared : 0 < sharedPrefixCount prev cur)
    (hbig : maxSpliceMatrixSize < (trimmedLengths prev cur).1 * (trimmedLengths prev cur).2 % 2 ^ 64) :
    calcSplices prev.length cur.length maxSpliceMatrixSize (seqEq prev cur) =
        [⟨0, (trimmedLengths prev cur).1, (trimmedLengths prev cur).2, 0⟩] ∧
      applySplices prev cur (calcSplices prev.length cur.length maxSpliceMatrixSize (seqEq prev cur)) ≠
        cur := by
  obtain ⟨hkp, hkc, -, -, hstop⟩ := sharedCounts_spec prev cur
  set k := sharedPrefixCount prev cur
  set s := sharedSuffixCount prev cur
  set pl := (trimmedLengths prev cur).1 with hpl
  set cl := (trimmedLengths prev cur).2 with hcl
  have hpl' : pl = prev.length - s - k := rfl
  have hcl' : cl = cur.length - s - k := rfl
  -- both middles are non-empty, or the product would be `0`
  have hpl0 : 0 < pl := Nat.pos_of_ne_zero fun h => by simp [h] at hbig
  have hcl0 : 0 < cl := Nat.pos_of_ne_zero fun h => by simp [h] at hbig
  have hsplices : calcSplices prev.length cur.length maxSpliceMatrixSize (seqEq prev cur) =
      [⟨0, pl, cl, 0⟩] := by
    rw [calcSplices_eq, if_neg (by omega), if_neg (by omega), if_neg (by omega), if_pos hbig]
  refine ⟨hsplices, fun heq => ?_⟩
  -- the element before the suffix comes from `prev`, where the suffix search stopped
  rw [hsplices, applySplices_singleton] at heq
  have hat := congrArg (·[cl + k - 1]?) heq
  simp only [List.take_zero, List.drop_zero, Nat.zero_add, List.nil_append] at hat
  rw [List.getElem?_append_right (by simp; omega), List.length_take_of_le (by omega),
    List.getElem?_drop] at hat
  apply hstop (by omega) (by omega)
  rw [show prev.length - 1 - s = pl + (cl + k - 1 - cl) by omega,
    show cur.length - 1 - s = cl + k - 1 by omega]
  exact hat

/-- `[1, 2, 3]` to `[1, 4, 5]` with a limit of `3`: after the shared `1` the `2 × 2` matrix is too
large, and the splice replaces the `1`. -/
theorem calcSplices_fallback_unsound_shared_one :
    0 < sharedPrefixCount [1, 2, 3] [1, 4, 5] ∧
      3 < (trimmedLengths [1, 2, 3] [1, 4, 5]).1 * (trimmedLengths [1, 2, 3] [1, 4, 5]).2 % 2 ^ 64 ∧
      calcSplices 3 3 3 (seqEq [1, 2, 3] [1, 4, 5]) = [⟨0, 2, 2, 0⟩] ∧
      applySplices [1, 2, 3] [1, 4, 5] (calcSplices 3 3 3 (seqEq [1, 2, 3] [1, 4, 5])) ≠ [1, 4, 5] :=
  ⟨by decide, by decide,
    calcSplices_fallback_unsound [1, 2, 3] [1, 4, 5] 3 (by decide) (by decide)⟩

/-- When the trimmed matrix fits, the splices remove and add `p + c - 2 * lcsLength prev cur`
elements in all: an `UPDATED` step counts as a removal and an addition, and no script does
with fewer. -/
theorem calcSplices_minimal (prev cur : List α) (maxSpliceMatrixSize : Nat)
    (hfit : (trimmedLengths prev cur).1 * (trimmedLengths prev cur).2 ≤ maxSpliceMatrixSize) :
    ((calcSplices prev.length cur.length maxSpliceMatrixSize (seqEq prev cur)).map Splice.size).sum =
      prev.length + cur.length - 2 * lcsLength prev cur := by
  obtain ⟨hkp, hkc, -⟩ := sharedCounts_spec prev cur
  rw [calcSplices_eq, lcsLength_cut prev cur]
  set k := sharedPrefixCount prev cur
  set s := sharedSuffixCount prev cur
  set pl := (trimmedLengths prev cur).1 with hpl
  set cl := (trimmedLengths prev cur).2 with hcl
  have hpl' : pl = prev.length - s - k := rfl
  have hcl' : cl = cur.length - s - k := rfl
  have hAlen : ((prev.drop k).take pl).length = pl := by
    simp only [List.length_take, List.length_drop]
    omega
  have hBlen : ((cur.drop k).take cl).length = cl := by
    simp only [List.length_take, List.length_drop]
    omega
  have hA := hAlen ▸ lcsLength_le_left ((prev.drop k).take pl) ((cur.drop k).take cl)
  have hB := hBlen ▸ lcsLength_le_right ((prev.drop k).take pl) ((cur.drop k).take cl)
  -- the lengths split at the prefix, the middles and the suffix
  have hp : prev.length = k + pl + s := by omega
  have hc : cur.length = k + cl + s := by omega
  rw [hp, hc]
  split_ifs with h₁ h₂ h₃ h₄
  · simp only [List.map_nil, List.sum_nil]
    omega
  · simp only [List.map_cons, List.map_nil, List.sum_cons, List.sum_nil, Splice.size]
    omega
  · simp only [List.map_cons, List.map_nil, List.sum_cons, List.sum_nil, Splice.size]
    omega
  · -- the fallback is not taken when the product fits
    exact absurd (lt_of_lt_of_le h₄ (Nat.mod_le _ _)) (not_lt.mpr hfit)
  · -- the matrix: the splices add up the cost of the walk
    obtain ⟨-, hcost⟩ := operations_script prev cur k pl cl (by omega) (by omega)
    rw [SpliceLoop.sum_size_flush, SpliceLoop.total_foldl, hcost]
    simp only [SpliceLoop.total, SpliceLoop.open, List.map_nil, List.sum_nil, Option.getD_none,
      Splice.size]
    omega

/-- `[1, 2, 3, 4, 5]` to `[2, 9, 4, 7]`: five elements removed and added, for a longest common
subsequence `[2, 4]`. -/
theorem calcSplices_minimal_sample :
    (trimmedLengths [1, 2, 3, 4, 5] [2, 9, 4, 7]).1 * (trimmedLengths [1, 2, 3, 4, 5] [2, 9, 4, 7]).2 ≤
        DEFAULT_MAX_SPLICE_MATRIX_SIZE ∧
      ((calcSplices [1, 2, 3, 4, 5].length [2, 9, 4, 7].length DEFAULT_MAX_SPLICE_MATRIX_SIZE
          (seqEq [1, 2, 3, 4, 5] [2, 9, 4, 7])).map Splice.size).sum =
        [1, 2, 3, 4, 5].length + [2, 9, 4, 7].length - 2 * lcsLength [1, 2, 3, 4, 5] [2, 9, 4, 7] :=
  ⟨by decide, calcSplices_minimal [1, 2, 3, 4, 5] [2, 9, 4, 7] _ (by decide)⟩

end Noms.Types
