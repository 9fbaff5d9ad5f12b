import Mathlib.Data.List.Sort
import Mathlib.Order.Basic

/-!
# Query ranges of `nomdex` (`samples/go/nomdex`)

A query over one index is a tree of comparisons (`<`, `<=`, `>`, `>=`, `=`, `!=` against a value)
joined by `and` and `or`. `ranges()` turns it into a list of key ranges: a comparison gives one
range (two for `!=`), and `and`/`or` combine every range of one side with every range of the
other by `queryRange.and`/`queryRange.or`, then sort the result by lower bound.

A bound is a value with an inclusion flag, or an infinity. One order on bounds, `isLessThan`,
serves both ends: at one value it puts the exclusive bound first. That is the inclusion order for
upper bounds, where the exclusive one admits less, and the reverse of it for lower bounds. So an
`and` of two lower bounds at one value keeps the looser one, an `or` keeps the tighter one, and
two ranges that meet at an excluded value count as intersecting (`ranges_mishandle_shared_value`).
Each comparison alone is exact (`admitted_compRanges`), and away from a tie of the lower bounds
`and` admits exactly what both ranges admit (`QueryRange.admitted_and`).

Keys are taken from any linear order, standing for `Value.Less` and `Equals`. A bound's value is
`nil` only together with an infinity, where `isLessThan` never compares values. `sort.Sort` on
these short slices runs Go's insertion sort; the model sorts by insertion too, and nothing below
depends on the order of the ranges.
-/

namespace Noms.Nomdex

/-- A `bound`: a value with its inclusion (`include`), or an infinity (`-1` below every key, `1`
above). -/
structure Bound (V : Type) where
  value : Option V
  inclusive : Bool
  infinity : Int

/-- A `queryRange`. -/
structure QueryRange (V : Type) where
  lower : Bound V
  upper : Bound V

variable {V : Type} [LinearOrder V]

namespace Bound

/-- `b.value.Less(o.value)`. -/
def valueLess : Option V → Option V → Bool
  | some v, some w => decide (v < w)
  | _, _ => false

/-- `b.value.Equals(o.value)`. -/
def valueEquals : Option V → Option V → Bool
  | some v, some w => decide (v = w)
  | _, _ => false

/-- `b.isLessThan(o)`. -/
def isLessThan (b o : Bound V) : Bool :=
  if b.infinity < o.infinity then true
  else if b.infinity > o.infinity then false
  else if b.infinity = o.infinity ∧ b.infinity ≠ 0 then false
  else if valueLess b.value o.value then true
  else if valueEquals b.value o.value then !b.inclusive && o.inclusive
  else false

/-- `b.equals(o)`. -/
def equals (b o : Bound V) : Bool :=
  b.infinity == o.infinity && b.inclusive == o.inclusive &&
    ((b.value.isNone && o.value.isNone) ||
      (b.value.isSome && o.value.isSome && valueEquals b.value o.value))

/-- `b.isLessThanOrEqual(o)`. -/
def isLessThanOrEqual (b o : Bound V) : Bool :=
  b.equals o || b.isLessThan o

/-- `b.isGreaterThanOrEqual(o)`. -/
def isGreaterThanOrEqual (b o : Bound V) : Bool :=
  !b.isLessThan o

/-- `b.minValue(o)`. -/
def minValue (b o : Bound V) : Bound V :=
  if b.isLessThan o then b else o

/-- `b.maxValue(o)`. -/
def maxValue (b o : Bound V) : Bound V :=
  if b.isLessThan o then o else b

end Bound

namespace QueryRange

/-- `r.intersects(o)`. -/
def intersects (r o : QueryRange V) : Bool :=
  (r.lower.isGreaterThanOrEqual o.lower && r.lower.isLessThanOrEqual o.upper) ||
    (r.upper.isGreaterThanOrEqual o.lower && r.upper.isLessThanOrEqual o.upper) ||
    (o.lower.isGreaterThanOrEqual r.lower && o.lower.isLessThanOrEqual r.upper) ||
    (o.upper.isGreaterThanOrEqual r.lower && o.upper.isLessThanOrEqual r.upper)

/-- `queryRangeSlice.Less`. -/
def rangeLess (a b : QueryRange V) : Bool :=
  !a.lower.equals b.lower && a.lower.isLessThanOrEqual b.lower

end QueryRange

/-- `sort.Sort(rSlice)`. -/
def sortRanges (rs : List (QueryRange V)) : List (QueryRange V) :=
  rs.insertionSort fun a b => QueryRange.rangeLess a b = true

namespace QueryRange

/-- `r.and(o)`. -/
def and (r o : QueryRange V) : List (QueryRange V) :=
  if !r.intersects o then []
  else [⟨r.lower.maxValue o.lower, r.upper.minValue o.upper⟩]

/-- `r.or(o)`. -/
def or (r o : QueryRange V) : List (QueryRange V) :=
  if r.intersects o then [⟨r.lower.minValue o.lower, r.upper.maxValue o.upper⟩]
  else sortRanges [r, o]

end QueryRange

/-- `compOp`. -/
inductive CompOp where
  | equals
  | gt
  | gte
  | lt
  | lte
  | ne
deriving DecidableEq

/-- `boolOp`. -/
inductive BoolOp where
  | and
  | or
deriving DecidableEq

/-- A query over one index: a `compExpr` against a value, or a `logExpr` of two queries. -/
inductive Expr (V : Type) where
  | comp (op : CompOp) (v1 : V)
  | log (op : BoolOp) (expr1 expr2 : Expr V)

/-- `compExpr.ranges()`. -/
def compRanges : CompOp → V → List (QueryRange V)
  | .equals, v =>
    let e : Bound V := ⟨some v, true, 0⟩
    [⟨e, e⟩]
  | .gt, v => [⟨⟨some v, false, 0⟩, ⟨none, true, 1⟩⟩]
  | .gte, v => [⟨⟨some v, true, 0⟩, ⟨none, true, 1⟩⟩]
  | .lt, v => [⟨⟨none, true, -1⟩, ⟨some v, false, 0⟩⟩]
  | .lte, v => [⟨⟨none, true, -1⟩, ⟨some v, true, 0⟩⟩]
  | .ne, v => [⟨⟨none, true, -1⟩, ⟨some v, false, 0⟩⟩, ⟨⟨some v, false, 0⟩, ⟨none, true, 1⟩⟩]

/-- `logExpr.ranges()` for `and`: every range of one side with every range of the other. -/
def andRanges (rs1 rs2 : List (QueryRange V)) : List (QueryRange V) :=
  if rs1.isEmpty || rs2.isEmpty then []
  else sortRanges (rs1.flatMap fun r1 => rs2.flatMap fun r2 => r1.and r2)

/-- `logExpr.ranges()` for `or`. -/
def orRanges (rs1 rs2 : List (QueryRange V)) : List (QueryRange V) :=
  if rs1.isEmpty then rs2
  else if rs2.isEmpty then rs1
  else sortRanges (rs1.flatMap fun r1 => rs2.flatMap fun r2 => r1.or r2)

/-- `e.ranges()`. -/
def Expr.ranges : Expr V → List (QueryRange V)
  | .comp op v => compRanges op v
  | .log .and e1 e2 => andRanges e1.ranges e2.ranges
  | .log .or e1 e2 => orRanges e1.ranges e2.ranges

/-! ## What a query and a range mean -/

/-- `k op v`. -/
def CompOp.holds : CompOp → V → V → Bool
  | .equals, k, v => decide (k = v)
  | .gt, k, v => decide (v < k)
  | .gte, k, v => decide (v ≤ k)
  | .lt, k, v => decide (k < v)
  | .lte, k, v => decide (k ≤ v)
  | .ne, k, v => decide (k ≠ v)

/-- The key satisfies the query. -/
def Expr.satisfies (k : V) : Expr V → Bool
  | .comp op v => op.holds k v
  | .log .and e1 e2 => e1.satisfies k && e2.satisfies k
  | .log .or e1 e2 => e1.satisfies k || e2.satisfies k

namespace Bound

/-- A lower bound admits `k`: it is `-∞`, or `k` lies above its value, or on an included value. -/
def admitsLower (b : Bound V) (k : V) : Bool :=
  b.infinity == -1 ||
    match b.value with
    | some v => decide (v < k) || (b.inclusive && decide (k = v))
    | none => false

/-- An upper bound admits `k`: it is `+∞`, or `k` lies below its value, or on an included
value. -/
def admitsUpper (b : Bound V) (k : V) : Bool :=
  b.infinity == 1 ||
    match b.value with
    | some v => decide (k < v) || (b.inclusive && decide (k = v))
    | none => false

end Bound

/-- A range admits the keys both of its bounds admit. -/
def QueryRange.admits (r : QueryRange V) (k : V) : Bool :=
  r.lower.admitsLower k && r.upper.admitsUpper k

/-- Some range of the list admits `k`. -/
def admitted (rs : List (QueryRange V)) (k : V) : Bool :=
  rs.any fun r => r.admits k

/-! ## Comparisons -/

/-- Each comparison's ranges admit exactly the keys that satisfy it. -/
theorem admitted_compRanges (op : CompOp) (v k : V) :
    admitted (compRanges op v) k = op.holds k v := by
  -- each side is decided by where `k` lies against `v`
  rcases lt_trichotomy k v with h | rfl | h <;> cases op <;>
    simp [compRanges, admitted, QueryRange.admits, Bound.admitsLower, Bound.admitsUpper,
      CompOp.holds, *, ne_of_lt, ne_of_gt, le_of_lt, not_lt_of_gt, not_le_of_gt]

/-! ## Combining two ranges -/

namespace Bound

/-- A lower bound as the comparisons build it: `-∞`, or a value. -/
def IsLower (b : Bound V) : Prop := b.infinity = -1 ∨ (b.infinity = 0 ∧ b.value.isSome)

/-- An upper bound as the comparisons build it: `+∞`, or a value. -/
def IsUpper (b : Bound V) : Prop := b.infinity = 1 ∨ (b.infinity = 0 ∧ b.value.isSome)

/-- Two finite bounds at one value that differ in inclusion: the one case where `isLessThan`
orders lower bounds the wrong way round. -/
def Tie (b o : Bound V) : Prop :=
  b.infinity = 0 ∧ o.infinity = 0 ∧ b.value = o.value ∧ b.inclusive ≠ o.inclusive

theorem IsLower.cases {b : Bound V} (h : b.IsLower) :
    b.infinity = -1 ∨ ∃ v i, b = ⟨some v, i, 0⟩ := by
  obtain ⟨bv, bi, binf⟩ := b
  rcases h with h | ⟨h, hv⟩
  · exact .inl h
  · obtain ⟨v, rfl⟩ := Option.isSome_iff_exists.mp hv
    exact .inr ⟨v, bi, by simp_all⟩

theorem IsUpper.cases {b : Bound V} (h : b.IsUpper) :
    b.infinity = 1 ∨ ∃ v i, b = ⟨some v, i, 0⟩ := by
  obtain ⟨bv, bi, binf⟩ := b
  rcases h with h | ⟨h, hv⟩
  · exact .inl h
  · obtain ⟨v, rfl⟩ := Option.isSome_iff_exists.mp hv
    exact .inr ⟨v, bi, by simp_all⟩

@[simp]
theorem isLessThan_finite (v w : V) (i j : Bool) :
    (⟨some v, i, 0⟩ : Bound V).isLessThan ⟨some w, j, 0⟩ =
      (decide (v < w) || (decide (v = w) && !i && j)) := by
  by_cases hvw : v < w
  · simp [isLessThan, valueLess, hvw]
  · simp [isLessThan, valueLess, valueEquals, hvw, Bool.and_assoc]

@[simp]
theorem admitsLower_finite (v k : V) (i : Bool) :
    (⟨some v, i, 0⟩ : Bound V).admitsLower k = (decide (v < k) || (i && decide (k = v))) := rfl

@[simp]
theorem admitsUpper_finite (v k : V) (i : Bool) :
    (⟨some v, i, 0⟩ : Bound V).admitsUpper k = (decide (k < v) || (i && decide (k = v))) := rfl

@[simp]
theorem valueLess_some (v w : V) : valueLess (some v) (some w) = decide (v < w) := rfl

@[simp]
theorem valueEquals_some (v w : V) : valueEquals (some v) (some w) = decide (v = w) := rfl

theorem valueLess_asymm {v w : Option V} (h : valueLess v w) : ¬valueLess w v := by
  cases v <;> cases w <;> simp_all [valueLess, lt_asymm]

theorem not_valueEquals_of_valueLess {v w : Option V} (h : valueLess v w) :
    ¬valueEquals w v := by
  cases v <;> cases w <;> simp_all [valueLess, valueEquals, ne_of_gt]

theorem not_valueLess_of_valueEquals {v w : Option V} (h : valueEquals v w) :
    ¬valueLess v w := by
  cases v <;> cases w <;> simp_all [valueLess, valueEquals]

theorem valueEquals_symm {v w : Option V} (h : valueEquals v w) : valueEquals w v := by
  cases v <;> cases w <;> simp_all [valueEquals]

theorem isLessThan_asymm {b o : Bound V} (h : b.isLessThan o) : ¬o.isLessThan b := by
  obtain ⟨bv, bi, binf⟩ := b
  obtain ⟨ov, oi, oinf⟩ := o
  simp only [isLessThan] at h ⊢
  rcases lt_trichotomy binf oinf with hlt | rfl | hgt
  · simp [hlt, hlt.not_gt]
  · by_cases h0 : binf = 0
    · subst h0
      by_cases hvl : valueLess bv ov
      · simp [valueLess_asymm hvl, not_valueEquals_of_valueLess hvl]
      · have heq : valueEquals bv ov := by
          by_contra hne
          simp [hvl, hne] at h
        have hoe := valueEquals_symm heq
        simp [hvl, heq] at h
        simp [not_valueLess_of_valueEquals hoe, hoe, h.1]
    · simp [h0] at h
  · simp [hgt, hgt.not_gt] at h

theorem admitsLower_of_infinity {b : Bound V} (h : b.infinity = -1) (k : V) :
    b.admitsLower k := by
  simp [admitsLower, h]

theorem admitsUpper_of_infinity {b : Bound V} (h : b.infinity = 1) (k : V) :
    b.admitsUpper k := by
  simp [admitsUpper, h]

theorem isLessThan_of_infinity_lt {b o : Bound V} (h : b.infinity < o.infinity) :
    b.isLessThan o := by
  simp [isLessThan, h]

theorem not_isLessThan_of_infinity_lt {b o : Bound V} (h : o.infinity < b.infinity) :
    ¬b.isLessThan o := by
  simp [isLessThan, h, not_lt_of_gt h]

/-- Of two lower bounds, `isLessThan` puts the looser one first, away from a tie. -/
theorem admitsLower_of_isLessThan {b o : Bound V} (hb : b.IsLower) (ho : o.IsLower)
    (hnt : ¬Tie b o) (h : b.isLessThan o) {k : V} (hk : o.admitsLower k) : b.admitsLower k := by
  rcases hb.cases with hb | ⟨v, i, rfl⟩
  · exact admitsLower_of_infinity hb k
  rcases ho.cases with ho | ⟨w, j, rfl⟩
  · exact absurd h (not_isLessThan_of_infinity_lt (by simp [ho]))
  simp [Tie] at h hnt hk ⊢
  have hvw : v < w := by
    rcases h with h | ⟨⟨rfl, hi⟩, hj⟩
    · exact h
    · exact absurd (hnt rfl) (by simp [hi, hj])
  rcases hk with hk | ⟨-, rfl⟩
  · exact .inl (hvw.trans hk)
  · exact .inl hvw

/-- Otherwise the first is the tighter one. -/
theorem admitsLower_of_not_isLessThan {b o : Bound V} (hb : b.IsLower) (ho : o.IsLower)
    (hnt : ¬Tie b o) (h : ¬b.isLessThan o) {k : V} (hk : b.admitsLower k) : o.admitsLower k := by
  rcases ho.cases with ho | ⟨w, j, rfl⟩
  · exact admitsLower_of_infinity ho k
  rcases hb.cases with hb | ⟨v, i, rfl⟩
  · exact absurd (isLessThan_of_infinity_lt (by simp [hb])) h
  simp [Tie] at h hnt hk ⊢
  obtain ⟨hwv, -⟩ := h
  rcases hk with hk | ⟨hi, rfl⟩
  · exact .inl (lt_of_le_of_lt hwv hk)
  · rcases hwv.lt_or_eq with hwv | rfl
    · exact .inl hwv
    · exact .inr ⟨by rw [← hnt rfl]; exact hi, rfl⟩

/-- Of two upper bounds, `isLessThan` puts the tighter one first. -/
theorem admitsUpper_of_isLessThan {b o : Bound V} (hb : b.IsUpper) (ho : o.IsUpper)
    (h : b.isLessThan o) {k : V} (hk : b.admitsUpper k) : o.admitsUpper k := by
  rcases ho.cases with ho | ⟨w, j, rfl⟩
  · exact admitsUpper_of_infinity ho k
  rcases hb.cases with hb | ⟨v, i, rfl⟩
  · exact absurd h (not_isLessThan_of_infinity_lt (by simp [hb]))
  simp at h hk ⊢
  rcases hk with hk | ⟨hi, rfl⟩
  · rcases h with h | ⟨⟨rfl, -⟩, -⟩
    · exact .inl (hk.trans h)
    · exact .inl hk
  · rcases h with h | ⟨⟨-, hi'⟩, -⟩
    · exact .inl h
    · simp [hi] at hi'

theorem admitsUpper_of_not_isLessThan {b o : Bound V} (hb : b.IsUpper) (ho : o.IsUpper)
    (h : ¬b.isLessThan o) {k : V} (hk : o.admitsUpper k) : b.admitsUpper k := by
  rcases hb.cases with hb | ⟨v, i, rfl⟩
  · exact admitsUpper_of_infinity hb k
  rcases ho.cases with ho | ⟨w, j, rfl⟩
  · exact absurd (isLessThan_of_infinity_lt (by simp [ho])) h
  simp at h hk ⊢
  obtain ⟨hwv, htie⟩ := h
  rcases hk with hk | ⟨hj, rfl⟩
  · exact .inl (lt_of_lt_of_le hk hwv)
  · rcases hwv.lt_or_eq with hwv | rfl
    · exact .inl hwv
    · refine .inr ⟨?_, rfl⟩
      by_contra hi
      simp [htie rfl (by simpa using hi)] at hj

theorem admitsLower_maxValue {b o : Bound V} (hb : b.IsLower) (ho : o.IsLower) (hnt : ¬Tie b o)
    (k : V) : (b.maxValue o).admitsLower k = (b.admitsLower k && o.admitsLower k) := by
  rw [Bool.eq_iff_iff, Bool.and_eq_true]
  by_cases h : b.isLessThan o
  · simp only [maxValue, h, if_true]
    exact ⟨fun hk => ⟨admitsLower_of_isLessThan hb ho hnt h hk, hk⟩, And.right⟩
  · simp only [maxValue, h, if_false, Bool.false_eq_true]
    exact ⟨fun hk => ⟨hk, admitsLower_of_not_isLessThan hb ho hnt h hk⟩, And.left⟩

theorem admitsUpper_minValue {b o : Bound V} (hb : b.IsUpper) (ho : o.IsUpper) (k : V) :
    (b.minValue o).admitsUpper k = (b.admitsUpper k && o.admitsUpper k) := by
  rw [Bool.eq_iff_iff, Bool.and_eq_true]
  by_cases h : b.isLessThan o
  · simp only [minValue, h, if_true]
    exact ⟨fun hk => ⟨hk, admitsUpper_of_isLessThan hb ho h hk⟩, And.left⟩
  · simp only [minValue, h, if_false, Bool.false_eq_true]
    exact ⟨fun hk => ⟨admitsUpper_of_not_isLessThan hb ho h hk, hk⟩, And.right⟩

@[simp]
theorem equals_finite (v w : V) (i j : Bool) :
    (⟨some v, i, 0⟩ : Bound V).equals ⟨some w, j, 0⟩ = ((i == j) && decide (v = w)) := by
  simp [equals, valueEquals]

/-- A lower and an upper bound that admit one key are in order. -/
theorem isLessThanOrEqual_of_admits {b c : Bound V} (hb : b.IsLower) (hc : c.IsUpper) {k : V}
    (hbk : b.admitsLower k) (hck : c.admitsUpper k) : b.isLessThanOrEqual c := by
  unfold isLessThanOrEqual
  rcases hb.cases with hb | ⟨v, i, rfl⟩
  · rcases hc.cases with hc | ⟨w, j, rfl⟩
    · simp [isLessThan_of_infinity_lt (show b.infinity < c.infinity by simp [hb, hc])]
    · simp [isLessThan_of_infinity_lt
        (show b.infinity < (⟨some w, j, 0⟩ : Bound V).infinity by simp [hb])]
  rcases hc.cases with hc | ⟨w, j, rfl⟩
  · simp [isLessThan_of_infinity_lt
      (show (⟨some v, i, 0⟩ : Bound V).infinity < c.infinity by simp [hc])]
  simp only [admitsLower_finite, admitsUpper_finite, Bool.or_eq_true, Bool.and_eq_true,
    decide_eq_true_eq] at hbk hck
  simp only [equals_finite, isLessThan_finite, Bool.or_eq_true, Bool.and_eq_true, beq_iff_eq,
    decide_eq_true_eq, Bool.not_eq_true']
  rcases hbk with hbk | ⟨hi, rfl⟩ <;> rcases hck with hck | ⟨hj, rfl⟩
  · exact .inr (.inl (hbk.trans hck))
  · exact .inr (.inl hbk)
  · exact .inr (.inl hck)
  · exact .inl ⟨hi.trans hj.symm, rfl⟩

end Bound

namespace QueryRange

/-- A range as the comparisons build it: a lower bound below an upper bound. -/
structure WF (r : QueryRange V) : Prop where
  lower : r.lower.IsLower
  upper : r.upper.IsUpper

/-- Ranges that admit a common key intersect. -/
theorem intersects_of_admits {r o : QueryRange V} (hr : r.WF) (ho : o.WF) {k : V}
    (hrk : r.admits k) (hok : o.admits k) : r.intersects o := by
  simp only [admits, Bool.and_eq_true] at hrk hok
  unfold intersects Bound.isGreaterThanOrEqual
  by_cases h : r.lower.isLessThan o.lower
  · -- the later lower bound, `o.lower`, lies below `r.upper`
    simp [Bound.isLessThan_asymm h,
      Bound.isLessThanOrEqual_of_admits ho.lower hr.upper hok.1 hrk.2]
  · simp [h, Bound.isLessThanOrEqual_of_admits hr.lower ho.upper hrk.1 hok.2]

/-- Away from a tie of the lower bounds, `r.and(o)` admits exactly the keys both admit. -/
theorem admitted_and {r o : QueryRange V} (hr : r.WF) (ho : o.WF)
    (hnt : ¬Bound.Tie r.lower o.lower) (k : V) :
    admitted (r.and o) k = (r.admits k && o.admits k) := by
  unfold QueryRange.and
  by_cases hi : r.intersects o
  · simp only [hi, Bool.not_true, Bool.false_eq_true, if_false, admitted, List.any_cons,
      List.any_nil, Bool.or_false, admits, Bound.admitsLower_maxValue hr.lower ho.lower hnt,
      Bound.admitsUpper_minValue hr.upper ho.upper]
    cases r.lower.admitsLower k <;> cases o.lower.admitsLower k <;> simp
  · have hk : ¬(r.admits k && o.admits k) := fun h => by
      simp only [Bool.and_eq_true] at h
      exact hi (intersects_of_admits hr ho h.1 h.2)
    simp [hi, admitted, hk]

theorem admitted_and_gte_one_lt_three :
    (⟨⟨some 1, true, 0⟩, ⟨none, true, 1⟩⟩ : QueryRange Nat).WF ∧
      (⟨⟨none, true, -1⟩, ⟨some 3, false, 0⟩⟩ : QueryRange Nat).WF ∧
      ¬Bound.Tie (⟨some 1, true, 0⟩ : Bound Nat) ⟨none, true, -1⟩ ∧
      admitted (QueryRange.and ⟨⟨some 1, true, 0⟩, ⟨none, true, 1⟩⟩
          ⟨⟨none, true, -1⟩, ⟨some 3, false, 0⟩⟩) 2 =
        (admits ⟨⟨some 1, true, 0⟩, ⟨none, true, 1⟩⟩ 2 &&
          admits ⟨⟨none, true, -1⟩, ⟨some 3, false, 0⟩⟩ 2) :=
  have hr : (⟨⟨some 1, true, 0⟩, ⟨none, true, 1⟩⟩ : QueryRange Nat).WF :=
    ⟨.inr ⟨rfl, rfl⟩, .inl rfl⟩
  have ho : (⟨⟨none, true, -1⟩, ⟨some 3, false, 0⟩⟩ : QueryRange Nat).WF :=
    ⟨.inl rfl, .inr ⟨rfl, rfl⟩⟩
  have hnt : ¬Bound.Tie (⟨some 1, true, 0⟩ : Bound Nat) ⟨none, true, -1⟩ := by
    simp [Bound.Tie]
  ⟨hr, ho, hnt, admitted_and hr ho hnt 2⟩

end QueryRange

/-! ## A value shared by two comparisons -/

section Shared

variable (v : V)

theorem ranges_gt_and_gte :
    (Expr.log .and (.comp .gt v) (.comp .gte v)).ranges = [⟨⟨some v, true, 0⟩, ⟨none, true, 1⟩⟩] := by
  simp [Expr.ranges, andRanges, compRanges, sortRanges, QueryRange.and, QueryRange.intersects,
    Bound.isGreaterThanOrEqual, Bound.isLessThanOrEqual, Bound.maxValue, Bound.minValue,
    Bound.isLessThan, Bound.equals]

theorem ranges_gte_or_gt :
    (Expr.log .or (.comp .gte v) (.comp .gt v)).ranges = [⟨⟨some v, false, 0⟩, ⟨none, true, 1⟩⟩] := by
  simp [Expr.ranges, orRanges, compRanges, sortRanges, QueryRange.or, QueryRange.intersects,
    Bound.isGreaterThanOrEqual, Bound.isLessThanOrEqual, Bound.maxValue, Bound.minValue,
    Bound.isLessThan, Bound.equals]

theorem ranges_ne_and_equals :
    (Expr.log .and (.comp .ne v) (.comp .equals v)).ranges =
      [⟨⟨some v, true, 0⟩, ⟨some v, true, 0⟩⟩] := by
  simp [Expr.ranges, andRanges, compRanges, sortRanges, QueryRange.and, QueryRange.intersects,
    Bound.isGreaterThanOrEqual, Bound.isLessThanOrEqual, Bound.maxValue, Bound.minValue,
    Bound.isLessThan, Bound.equals]

theorem ranges_lt_or_gt :
    (Expr.log .or (.comp .lt v) (.comp .gt v)).ranges = [⟨⟨none, true, -1⟩, ⟨none, true, 1⟩⟩] := by
  simp [Expr.ranges, orRanges, compRanges, sortRanges, QueryRange.or, QueryRange.intersects,
    Bound.isGreaterThanOrEqual, Bound.isLessThanOrEqual, Bound.maxValue, Bound.minValue,
    Bound.isLessThan, Bound.equals]

/-- At a value that two comparisons share, the ranges and the query disagree: `> v and >= v`
admits `v`, `>= v or > v` drops it, `!= v and = v` admits it, and so does `< v or > v`, whose
two halves meet at the excluded `v` and count as intersecting. -/
theorem ranges_mishandle_shared_value :
    ((Expr.log .and (.comp .gt v) (.comp .gte v)).ranges = [⟨⟨some v, true, 0⟩, ⟨none, true, 1⟩⟩] ∧
        admitted (Expr.log .and (.comp .gt v) (.comp .gte v)).ranges v ≠
          (Expr.log .and (.comp .gt v) (.comp .gte v)).satisfies v) ∧
      ((Expr.log .or (.comp .gte v) (.comp .gt v)).ranges =
          [⟨⟨some v, false, 0⟩, ⟨none, true, 1⟩⟩] ∧
        admitted (Expr.log .or (.comp .gte v) (.comp .gt v)).ranges v ≠
          (Expr.log .or (.comp .gte v) (.comp .gt v)).satisfies v) ∧
      ((Expr.log .and (.comp .ne v) (.comp .equals v)).ranges =
          [⟨⟨some v, true, 0⟩, ⟨some v, true, 0⟩⟩] ∧
        admitted (Expr.log .and (.comp .ne v) (.comp .equals v)).ranges v ≠
          (Expr.log .and (.comp .ne v) (.comp .equals v)).satisfies v) ∧
      ((Expr.log .or (.comp .lt v) (.comp .gt v)).ranges = [⟨⟨none, true, -1⟩, ⟨none, true, 1⟩⟩] ∧
        admitted (Expr.log .or (.comp .lt v) (.comp .gt v)).ranges v ≠
          (Expr.log .or (.comp .lt v) (.comp .gt v)).satisfies v) := by
  refine ⟨⟨ranges_gt_and_gte v, ?_⟩, ⟨ranges_gte_or_gt v, ?_⟩, ⟨ranges_ne_and_equals v, ?_⟩,
    ⟨ranges_lt_or_gt v, ?_⟩⟩
  · rw [ranges_gt_and_gte]
    simp [admitted, QueryRange.admits, Bound.admitsUpper, Expr.satisfies, CompOp.holds]
  · rw [ranges_gte_or_gt]
    simp [admitted, QueryRange.admits, Expr.satisfies, CompOp.holds]
  · rw [ranges_ne_and_equals]
    simp [admitted, QueryRange.admits, Expr.satisfies, CompOp.holds]
  · rw [ranges_lt_or_gt]
    simp [admitted, QueryRange.admits, Bound.admitsLower, Bound.admitsUpper, Expr.satisfies,
      CompOp.holds]

end Shared

end Noms.Nomdex
