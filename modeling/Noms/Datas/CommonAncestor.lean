import Noms.Datas.Commit
import Mathlib.Data.List.TakeWhile

/-!
# `FindCommonAncestor` finds the most recent common ancestor

Each of the two queues of `FindCommonAncestor` is a frontier of the search from its start
(`Frontier`): once the levels from `B` up are popped, it holds ancestors only, tallest first,
all lower than `B`, and every ancestor lower than `B` is below one of its refs. When every
commit is taller than its parents and its height is positive, as a `Ref`'s height always is
(`maxChunkHeight(v) + 1`), popping the tallest level keeps this with `B` lowered to that level
(`Frontier.pop`), and the tallest level holds every ancestor of its height
(`Frontier.mem_of_level`). So a level popped from both queues at once holds every common
ancestor of that height, no common ancestor is taller, and the loop returns a common ancestor
of greatest height, or `none` exactly when there is none, before its fuel runs out
(`FindCommonAncestor_correct`).
-/

namespace Noms.Datas

variable {V : Type} {height : Commit V → Nat}

/-- The heights of `c` and its ancestors: positive, and each taller than its parents. -/
def HeightsOk (height : Commit V → Nat) (c : Commit V) : Prop :=
  ∀ a, AncestorOrSelf c a → 0 < height a ∧ ∀ p ∈ a.parents, height p < height a

/-- Heights checked on a list of commits closed under parents hold for each of them. -/
theorem heightsOk_of_closed (S : List (Commit V))
    (hS : ∀ a ∈ S, 0 < height a ∧ ∀ p ∈ a.parents, height p < height a ∧ p ∈ S)
    {c : Commit V} (hc : c ∈ S) : HeightsOk height c := by
  have hmem : ∀ a, AncestorOrSelf c a → a ∈ S := by
    intro a ha
    induction ha with
    | refl => exact hc
    | tail _ hp ih => exact ((hS _ ih).2 _ hp).2
  intro a ha
  have hS' := hS a (hmem a ha)
  exact ⟨hS'.1, fun p hp => (hS'.2 p hp).1⟩

namespace HeightsOk

variable {c a : Commit V}

theorem of_ancestor (hc : HeightsOk height c) (ha : AncestorOrSelf c a) : HeightsOk height a :=
  fun b hb => hc b (ha.trans hb)

theorem height_le (hc : HeightsOk height c) (ha : AncestorOrSelf c a) : height a ≤ height c := by
  induction ha with
  | refl => exact le_rfl
  | tail hb hp ih => exact ((hc _ hb).2 _ hp).le.trans ih

/-- An ancestor as tall as `c` is `c`. -/
theorem eq_of_height_eq (hc : HeightsOk height c) (ha : AncestorOrSelf c a)
    (heq : height a = height c) : a = c := by
  rcases ha.cases_head with rfl | ⟨p, hp, hpa⟩
  · rfl
  · have hlt : height p < height c := (hc c .refl).2 p hp
    have hle : height a ≤ height p := (hc.of_ancestor (.single hp)).height_le hpa
    omega

end HeightsOk

/-! ## Queues sorted tallest first -/

section Queue

variable {q : List (Commit V)} {h : Nat}

theorem mem_parentsToQueue {refs : List (Commit V)} {r : Commit V} :
    r ∈ parentsToQueue height refs q ↔ r ∈ q ∨ ∃ p ∈ refs, r ∈ p.parents := by
  unfold parentsToQueue sortByHeight
  rw [(List.perm_insertionSort _ _).mem_iff, List.mem_append, List.mem_flatMap]

theorem pairwise_sortByHeight (q : List (Commit V)) :
    (sortByHeight height q).Pairwise fun a b => height b ≤ height a := by
  have : Std.Total fun a b : Commit V => height b ≤ height a := ⟨fun _ _ => le_total _ _⟩
  have : IsTrans (Commit V) fun a b => height b ≤ height a :=
    ⟨fun _ _ _ hab hbc => le_trans hbc hab⟩
  exact List.pairwise_insertionSort _ q

theorem le_maxHeight (hs : q.Pairwise fun a b => height b ≤ height a) {r : Commit V}
    (hr : r ∈ q) : height r ≤ maxHeight height q := by
  cases q with
  | nil => cases hr
  | cons a t =>
    rcases List.mem_cons.mp hr with rfl | hr
    · exact le_rfl
    · exact List.rel_of_pairwise_cons hs hr

/-- In a queue no taller than `h`, every ref of height `h` is in the top level. -/
theorem mem_takeWhile_of_height_eq (hs : q.Pairwise fun a b => height b ≤ height a)
    (hle : ∀ r ∈ q, height r ≤ h) {r : Commit V} (hr : r ∈ q) (hrh : height r = h) :
    r ∈ q.takeWhile fun r => height r = h := by
  induction q with
  | nil => cases hr
  | cons a t ih =>
    rw [List.pairwise_cons] at hs
    by_cases ha : height a = h
    · rw [List.takeWhile_cons_of_pos (by simpa using ha)]
      rcases List.mem_cons.mp hr with rfl | hr
      · exact List.mem_cons_self
      · exact List.mem_cons_of_mem _
          (ih hs.2 (fun r hr => hle r (List.mem_cons_of_mem _ hr)) hr)
    · -- the top is lower than `h`, and everything below it too
      exfalso
      rcases List.mem_cons.mp hr with rfl | hr
      · exact ha hrh
      · have hra : height r ≤ height a := hs.1 r hr
        have hah : height a ≤ h := hle a List.mem_cons_self
        omega

/-- Under the top level of a queue no taller than `h`, every ref is lower than `h`. -/
theorem lt_of_mem_dropWhile (hs : q.Pairwise fun a b => height b ≤ height a)
    (hle : ∀ r ∈ q, height r ≤ h) {r : Commit V}
    (hr : r ∈ q.dropWhile fun r => height r = h) : height r < h := by
  induction q with
  | nil => cases hr
  | cons a t ih =>
    rw [List.pairwise_cons] at hs
    by_cases ha : height a = h
    · rw [List.dropWhile_cons_of_pos (by simpa using ha)] at hr
      exact ih hs.2 (fun r hr => hle r (List.mem_cons_of_mem _ hr)) hr
    · rw [List.dropWhile_cons_of_neg (by simpa using ha)] at hr
      have hah : height a < h := lt_of_le_of_ne (hle a List.mem_cons_self) ha
      rcases List.mem_cons.mp hr with rfl | hr
      · exact hah
      · exact lt_of_le_of_lt (hs.1 r hr) hah

theorem height_of_mem_popRefsOfHeight {r : Commit V}
    (hr : r ∈ (popRefsOfHeight height q h).1) : height r = h := by
  simpa using List.mem_takeWhile_imp hr

theorem mem_popRefsOfHeight {r : Commit V} (hr : r ∈ q) :
    r ∈ (popRefsOfHeight height q h).1 ∨ r ∈ (popRefsOfHeight height q h).2 := by
  unfold popRefsOfHeight
  rw [← List.mem_append, List.takeWhile_append_dropWhile]
  exact hr

end Queue

/-! ## The frontier of the search from one commit -/

/-- The queue `q` of the search from `c` once every level from `B` up is popped: it holds
ancestors of `c` only, tallest first and lower than `B`, and every ancestor of `c` lower than
`B` is `r` or below `r` for one of its refs `r`. -/
structure Frontier (height : Commit V → Nat) (c : Commit V) (B : Nat) (q : List (Commit V)) :
    Prop where
  below : Below c q
  sorted : q.Pairwise fun a b => height b ≤ height a
  lt : ∀ r ∈ q, height r < B
  reach : ∀ a, AncestorOrSelf c a → height a < B → ∃ r ∈ q, AncestorOrSelf r a
  pos : 0 < B

namespace Frontier

variable {c a : Commit V} {B : Nat} {q : List (Commit V)}

/-- The queue `RefByHeight{c}` the search starts from. -/
theorem init (c : Commit V) : Frontier height c (height c + 1) [c] where
  below := below_self c
  sorted := List.pairwise_singleton _ c
  lt := by
    intro r hr
    rw [List.mem_singleton.mp hr]
    exact Nat.lt_succ_self _
  reach := fun _ ha _ => ⟨c, List.mem_singleton_self c, ha⟩
  pos := Nat.succ_pos _

theorem maxHeight_lt (hf : Frontier height c B q) (hne : q ≠ []) : maxHeight height q < B := by
  cases q with
  | nil => contradiction
  | cons r t => exact hf.lt r List.mem_cons_self

/-- An empty queue has passed every ancestor of its start. -/
theorem le_of_nil (hf : Frontier height c B []) (ha : AncestorOrSelf c a) : B ≤ height a := by
  by_contra hlt
  obtain ⟨r, hr, _⟩ := hf.reach a ha (by omega)
  cases hr

/-- No ancestor lower than `B` is taller than the queue's top. -/
theorem height_le_maxHeight (hf : Frontier height c B q) (hc : HeightsOk height c)
    (ha : AncestorOrSelf c a) (hlt : height a < B) : height a ≤ maxHeight height q := by
  obtain ⟨r, hr, hra⟩ := hf.reach a ha hlt
  have hle : height a ≤ height r := (hc.of_ancestor (hf.below r hr)).height_le hra
  exact hle.trans (le_maxHeight hf.sorted hr)

/-- The top level holds every ancestor of its height. -/
theorem mem_of_level (hf : Frontier height c B q) (hc : HeightsOk height c)
    (ha : AncestorOrSelf c a) (hlt : height a < B) (hmax : height a = maxHeight height q) :
    a ∈ (popRefsOfHeight height q (maxHeight height q)).1 := by
  obtain ⟨r, hr, hra⟩ := hf.reach a ha hlt
  have hrc : HeightsOk height r := hc.of_ancestor (hf.below r hr)
  have hle : height a ≤ height r := hrc.height_le hra
  have hrle : height r ≤ maxHeight height q := le_maxHeight hf.sorted hr
  -- `r` is as tall as `a`, so it is `a`
  obtain rfl : a = r := hrc.eq_of_height_eq hra (by omega)
  exact mem_takeWhile_of_height_eq hf.sorted (fun r hr => le_maxHeight hf.sorted hr) hr hmax

/-- Popping the top level and queueing its parents lowers the frontier to that level. -/
theorem pop (hf : Frontier height c B q) (hc : HeightsOk height c) (hne : q ≠ []) :
    Frontier height c (maxHeight height q)
      (parentsToQueue height (popRefsOfHeight height q (maxHeight height q)).1
        (popRefsOfHeight height q (maxHeight height q)).2) := by
  have hle : ∀ r ∈ q, height r ≤ maxHeight height q := fun r hr => le_maxHeight hf.sorted hr
  have hpop := below_popRefsOfHeight height hf.below (maxHeight height q)
  refine ⟨below_parentsToQueue hpop.1 hpop.2, pairwise_sortByHeight _, ?_, ?_, ?_⟩
  · intro r hr
    rcases mem_parentsToQueue.mp hr with hr | ⟨p, hp, hrp⟩
    · exact lt_of_mem_dropWhile hf.sorted hle hr
    · have hph : height p = maxHeight height q := height_of_mem_popRefsOfHeight hp
      have hrp' : height r < height p := (hc p (hpop.1 p hp)).2 r hrp
      omega
  · intro a ha hlt
    have hB : maxHeight height q < B := hf.maxHeight_lt hne
    obtain ⟨r, hr, hra⟩ := hf.reach a ha (by omega)
    rcases mem_popRefsOfHeight hr with hr | hr
    · -- a popped ref is taller than `a`, so `a` is below one of its parents
      have hrh : height r = maxHeight height q := height_of_mem_popRefsOfHeight hr
      rcases hra.cases_head with rfl | ⟨p, hp, hpa⟩
      · omega
      · exact ⟨p, mem_parentsToQueue.mpr (.inr ⟨r, hr, hp⟩), hpa⟩
    · exact ⟨r, mem_parentsToQueue.mpr (.inl hr), hra⟩
  · cases q with
    | nil => contradiction
    | cons r t => exact (hc r (hf.below r List.mem_cons_self)).1

end Frontier

/-! ## The loop -/

/-- What `FindCommonAncestor(c1, c2)` promises of its result: `ok = false` exactly when `c1`
and `c2` share no ancestor, else a common ancestor as tall as any. -/
def MostRecentCommon (height : Commit V → Nat) (c1 c2 : Commit V) : Option (Commit V) → Prop
  | none => ∀ a, AncestorOrSelf c1 a → ¬AncestorOrSelf c2 a
  | some x => AncestorOrSelf c1 x ∧ AncestorOrSelf c2 x ∧
      ∀ a, AncestorOrSelf c1 a → AncestorOrSelf c2 a → height a ≤ height x

theorem findCommonRef_eq_none [DecidableEq V] {a b : List (Commit V)}
    (h : findCommonRef a b = none) {r : Commit V} (ha : r ∈ a) : r ∉ b := by
  have := List.find?_eq_none.mp h r ha
  simpa using this

section Loop

variable [DecidableEq V] {c1 c2 : Commit V}

/-- The two queues are frontiers of their searches, no common ancestor has been passed, and
every turn lowers `B1 + B2`, so `fuel` turns are enough. -/
theorem findCommonAncestorLoop_correct (hc1 : HeightsOk height c1) (hc2 : HeightsOk height c2) :
    ∀ (fuel : Nat) (c1Q c2Q : List (Commit V)) (B1 B2 : Nat),
      Frontier height c1 B1 c1Q → Frontier height c2 B2 c2Q →
      (∀ a, AncestorOrSelf c1 a → AncestorOrSelf c2 a → height a < B1 ∧ height a < B2) →
      B1 + B2 ≤ fuel + 1 →
      ∃ res, findCommonAncestorLoop height fuel c1Q c2Q = some res ∧
        MostRecentCommon height c1 c2 res
  | 0, _, _, _, _, h1, h2, _, hfuel => by
    have := h1.pos
    have := h2.pos
    omega
  | fuel + 1, c1Q, c2Q, B1, B2, h1, h2, hcommon, hfuel => by
    simp only [findCommonAncestorLoop]
    by_cases hempty : c1Q.isEmpty || c2Q.isEmpty
    · -- an empty queue has passed every ancestor of its start
      rw [if_pos hempty]
      refine ⟨none, rfl, fun a ha1 ha2 => ?_⟩
      have hlt := hcommon a ha1 ha2
      rcases Bool.or_eq_true_iff.mp hempty with he | he
      · rw [List.isEmpty_iff.mp he] at h1
        have := h1.le_of_nil ha1
        omega
      · rw [List.isEmpty_iff.mp he] at h2
        have := h2.le_of_nil ha2
        omega
    rw [if_neg hempty]
    have hne1 : c1Q ≠ [] := fun he => hempty (by simp [he])
    have hne2 : c2Q ≠ [] := fun he => hempty (by simp [he])
    have hm1 := h1.maxHeight_lt hne1
    have hm2 := h2.maxHeight_lt hne2
    have hp1 := (h1.pop hc1 hne1).pos
    have hp2 := (h2.pop hc2 hne2).pos
    have hle1 : ∀ a, AncestorOrSelf c1 a → AncestorOrSelf c2 a → height a ≤ maxHeight height c1Q :=
      fun a ha1 ha2 => h1.height_le_maxHeight hc1 ha1 (hcommon a ha1 ha2).1
    have hle2 : ∀ a, AncestorOrSelf c1 a → AncestorOrSelf c2 a → height a ≤ maxHeight height c2Q :=
      fun a ha1 ha2 => h2.height_le_maxHeight hc2 ha2 (hcommon a ha1 ha2).2
    split_ifs with hht hlt
    · -- both tops are one level: a common ancestor there is as tall as any
      split
      · rename_i common hfound
        obtain ⟨hm1', hm2'⟩ := findCommonRef_mem hfound
        have hb1 := below_popRefsOfHeight height h1.below (maxHeight height c1Q)
        have hb2 := below_popRefsOfHeight height h2.below (maxHeight height c2Q)
        have hh : height common = maxHeight height c1Q := height_of_mem_popRefsOfHeight hm1'
        exact ⟨some common, rfl, hb1.1 _ hm1', hb2.1 _ hm2', fun a ha1 ha2 => hh ▸ hle1 a ha1 ha2⟩
      · rename_i hnone
        refine findCommonAncestorLoop_correct hc1 hc2 fuel _ _ _ _ (h1.pop hc1 hne1)
          (h2.pop hc2 hne2) (fun a ha1 ha2 => ?_) (by omega)
        have ha1' := hle1 a ha1 ha2
        have ha2' := hle2 a ha1 ha2
        -- a common ancestor at the level would be in both popped levels
        have hne : height a ≠ maxHeight height c1Q := by
          intro heq
          have hin1 := h1.mem_of_level hc1 ha1 (hcommon a ha1 ha2).1 heq
          have hin2 := h2.mem_of_level hc2 ha2 (hcommon a ha1 ha2).2 (heq.trans hht)
          exact findCommonRef_eq_none hnone hin1 hin2
        omega
    · refine findCommonAncestorLoop_correct hc1 hc2 fuel _ _ _ _ (h1.pop hc1 hne1) h2
        (fun a ha1 ha2 => ?_) (by omega)
      have ha2' := hle2 a ha1 ha2
      exact ⟨by omega, (hcommon a ha1 ha2).2⟩
    · refine findCommonAncestorLoop_correct hc1 hc2 fuel _ _ _ _ h1 (h2.pop hc2 hne2)
        (fun a ha1 ha2 => ?_) (by omega)
      have ha1' := hle1 a ha1 ha2
      exact ⟨(hcommon a ha1 ha2).1, by omega⟩

/-- Two branches off one root: `sampleTip1` over `sampleMid` over `sampleRoot`, and `sampleTip2`
over `sampleRoot`; the heights are those of their refs. -/
def sampleRoot : Commit Nat := .mk [] 0

def sampleMid : Commit Nat := .mk [sampleRoot] 1

def sampleTip1 : Commit Nat := .mk [sampleMid] 2

def sampleTip2 : Commit Nat := .mk [sampleRoot] 3

def sampleHeight (c : Commit Nat) : Nat :=
  if c = sampleRoot then 1 else if c = sampleTip1 then 3 else 2

example : FindCommonAncestor sampleHeight sampleTip1 sampleTip2 = some (some sampleRoot) := by
  decide

end Loop

end Noms.Datas
