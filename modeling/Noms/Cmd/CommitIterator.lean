import Noms.Datas.CommonAncestor
import Noms.Lib.Drain

/-!
# The iterator behind `noms log` (`commit_iterator.go`)

A `CommitIterator` holds a `branchList`, the heads of the branches still to print. Each `Next()`
takes the first of the tallest heads (`HighestBranchIndexes`), removes the other copies of it
(branches converging on it), and splices its parents into its column. A branch is its commit,
the `Ref` to it standing for the commit itself; its height is a parameter, and reading a parent
from the database is taking it.

With every height positive and above those of the parents, a list whose first tallest head is
`X` is `pre ++ X :: post`, all of `pre` lower than `X`, and `Next()` leaves
`pre ++ X.parents ++ post.filter (· ≠ X)` (`next_eq`). The run then keeps an invariant over the
commits printed so far (`LogInv`): they are distinct ancestors, tallest first, no head is
printed or taller than a printed commit, and every ancestor is printed or below a head. Each call
prints a new ancestor, so the run ends, and at its end every ancestor has been printed once,
tallest first, with `lastCommit` on the last node only (`drain_newCommitIterator`).
-/

namespace Noms.Cmd

open Noms.Lib Noms.Datas

variable {V : Type}

mutual

/-- `c` and its ancestors, with repeats: a bound on what a walk of the history can print. -/
def commitsOf : Commit V → List (Commit V)
  | .mk ps v => .mk ps v :: commitsOfList ps

/-- `commitsOf` of each commit of a list. -/
def commitsOfList : List (Commit V) → List (Commit V)
  | [] => []
  | p :: ps => commitsOf p ++ commitsOfList ps

end

theorem commitsOf_subset_commitsOfList {p : Commit V} :
    ∀ {ps : List (Commit V)}, p ∈ ps → commitsOf p ⊆ commitsOfList ps
  | q :: ps, hp => by
    unfold commitsOfList
    rcases List.mem_cons.mp hp with rfl | hp
    · exact List.subset_append_left _ _
    · exact fun x hx => List.subset_append_right _ _ (commitsOf_subset_commitsOfList hp hx)

theorem mem_commitsOf {c a : Commit V} (ha : AncestorOrSelf c a) : a ∈ commitsOf c := by
  induction ha using Relation.ReflTransGen.head_induction_on with
  | refl =>
    cases a
    exact List.mem_cons_self
  | @head c' p hp _ ih =>
    cases c' with
    | mk ps v =>
      rw [commitsOf]
      exact List.mem_cons_of_mem _ (commitsOf_subset_commitsOfList hp ih)

/-- A `LogNode`: the commit to print, the branch counts before and after it, its column, the
columns its other parents open and the columns that fold together after it. -/
structure LogNode (V : Type) where
  commit : Commit V
  startingColCount : Nat
  endingColCount : Nat
  col : Nat
  newCols : List Nat
  foldedCols : List Nat
  lastCommit : Bool

/-! ## The branch list -/

/-- `bl.Splice(start, deleteCount, branches...)`. -/
def splice (bl : List (Commit V)) (start deleteCount : Nat) (branches : List (Commit V)) :
    List (Commit V) :=
  bl.take start ++ branches ++ bl.drop (start + deleteCount)

/-- `bl.RemoveBranches(indexes)`: the branches at `indexes` spliced out, the last first. -/
def removeBranches (bl : List (Commit V)) (indexes : List Nat) : List (Commit V) :=
  indexes.foldr (fun i bl => splice bl i 1 []) bl

/-- `NewCommitIterator(db, commit)`. -/
def newCommitIterator (c : Commit V) : List (Commit V) := [c]

theorem splice_erase (l₀ F : List (Commit V)) (y : Commit V) :
    splice (l₀ ++ y :: F) l₀.length 1 [] = l₀ ++ F := by
  simp [splice, List.drop_append]

theorem exists_first_tallest (height : Commit V → Nat) :
    ∀ {bl : List (Commit V)}, bl ≠ [] → ∃ pre X post, bl = pre ++ X :: post ∧
      (∀ b ∈ pre, height b < height X) ∧ ∀ b ∈ post, height b ≤ height X
  | [], hne => absurd rfl hne
  | [y], _ => ⟨[], y, [], rfl, by simp, by simp⟩
  | y :: z :: ys, _ => by
    obtain ⟨pre, X, post, hbl, hpre, hpost⟩ := exists_first_tallest height (List.cons_ne_nil z ys)
    by_cases hyX : height X ≤ height y
    · -- `y` is as tall as any: it comes first
      refine ⟨[], y, z :: ys, rfl, by simp, fun b hb => ?_⟩
      rw [hbl, List.mem_append, List.mem_cons] at hb
      rcases hb with hb | rfl | hb
      · exact ((hpre b hb).trans_le hyX).le
      · exact hyX
      · exact (hpost b hb).trans hyX
    · refine ⟨y :: pre, X, post, by rw [hbl]; rfl, fun b hb => ?_, hpost⟩
      rcases List.mem_cons.mp hb with rfl | hb
      · omega
      · exact hpre b hb

section Iterator

variable (height : Commit V → Nat) [DecidableEq V]

/-- The loop of `HighestBranchIndexes()` from index `i` on, with its `maxHeight`, `cr` (`none`
for the zero `Ref`) and `cols`. -/
def highestBranchIndexesLoop (i maxHeight : Nat) (cr : Option (Commit V)) (cols : List Nat) :
    List (Commit V) → List Nat
  | [] => cols
  | b :: bl =>
    if height b > maxHeight then highestBranchIndexesLoop (i + 1) (height b) (some b) [i] bl
    else if height b = maxHeight ∧ some b = cr then
      highestBranchIndexesLoop (i + 1) maxHeight cr (cols ++ [i]) bl
    else highestBranchIndexesLoop (i + 1) maxHeight cr cols bl

/-- `bl.HighestBranchIndexes()`: the index of the first tallest branch, then those of the
branches equal to it. -/
def highestBranchIndexes (bl : List (Commit V)) : List Nat :=
  highestBranchIndexesLoop height 0 0 none [] bl

/-- `iter.Next()`: `some none` for `false` on an empty list, `none` where Go panics (no
branch is taller than the zero `Ref`, so `branchIndexes[0]` is out of range). -/
def next (bl : List (Commit V)) : Option (Option (LogNode V × List (Commit V))) :=
  if bl.isEmpty then some none
  else do
    let branchIndexes := highestBranchIndexes height bl
    let col ← branchIndexes.head?
    let br ← bl[col]?
    let branches := splice (removeBranches bl branchIndexes.tail) col 1 br.parents
    let newCols := (List.range' 1 (br.parents.length - 1)).map (col + ·)
    some (some (⟨br, bl.length, branches.length, col, newCols,
      highestBranchIndexes height branches, branches.isEmpty⟩, branches))

theorem next_eq_end_iff {bl : List (Commit V)} : next height bl = some none ↔ bl = [] := by
  unfold next
  cases bl with
  | nil => simp
  | cons b bl =>
    simp only [List.isEmpty_cons, Bool.false_eq_true, if_false, reduceCtorEq, iff_false]
    intro h
    simp only [Option.bind_eq_bind, Option.bind_eq_some_iff] at h
    obtain ⟨_, _, _, _, h⟩ := h
    cases h

theorem next_lastCommit {bl bl' : List (Commit V)} {n : LogNode V}
    (h : next height bl = some (some (n, bl'))) : n.lastCommit = bl'.isEmpty := by
  unfold next at h
  split at h
  · cases h
  · simp only [Option.bind_eq_bind, Option.bind_eq_some_iff] at h
    obtain ⟨col, _, br, _, h⟩ := h
    cases h
    rfl

end Iterator

/-! ## One call: the first tallest head leaves, its parents come in -/

section Step

variable {height : Commit V → Nat} [DecidableEq V]

/-- The positions, counted from `i`, of the copies of `X` in a list. -/
def positionsOf (X : Commit V) : Nat → List (Commit V) → List Nat
  | _, [] => []
  | i, b :: bl => if b = X then i :: positionsOf X (i + 1) bl else positionsOf X (i + 1) bl

/-- Once the loop has met its first tallest head `X`, it adds the positions of `X`'s copies. -/
theorem highestBranchIndexesLoop_copies {X : Commit V} :
    ∀ {post : List (Commit V)}, (∀ b ∈ post, height b ≤ height X) → ∀ (i : Nat) (cols : List Nat),
      highestBranchIndexesLoop height i (height X) (some X) cols post =
        cols ++ positionsOf X i post
  | [], _, _, _ => by simp [highestBranchIndexesLoop, positionsOf]
  | b :: bl, hpost, i, cols => by
    have hb : ¬height b > height X := Nat.not_lt.mpr (hpost b List.mem_cons_self)
    have hbl : ∀ b ∈ bl, height b ≤ height X := fun b' hb' => hpost b' (List.mem_cons_of_mem _ hb')
    by_cases hbX : b = X
    · subst hbX
      simp [highestBranchIndexesLoop, positionsOf, highestBranchIndexesLoop_copies hbl]
    · have hne : ¬(height b = height X ∧ some b = some X) := fun h => hbX (Option.some.inj h.2)
      rw [highestBranchIndexesLoop, if_neg hb, if_neg hne, highestBranchIndexesLoop_copies hbl,
        positionsOf, if_neg hbX]

/-- Heads lower than `X` before it leave the loop to restart at `X`. -/
theorem highestBranchIndexesLoop_pre {X : Commit V} {post : List (Commit V)} :
    ∀ {pre : List (Commit V)}, (∀ b ∈ pre, height b < height X) →
      ∀ (i m : Nat) (cr : Option (Commit V)) (cols : List Nat), m < height X →
      highestBranchIndexesLoop height i m cr cols (pre ++ X :: post) =
        highestBranchIndexesLoop height (i + pre.length + 1) (height X) (some X)
          [i + pre.length] post
  | [], _, i, m, cr, cols, hm => by simp [highestBranchIndexesLoop, hm]
  | y :: pre, hpre, i, m, cr, cols, hm => by
    have hy : height y < height X := hpre y List.mem_cons_self
    have hpre' : ∀ b ∈ pre, height b < height X := fun b hb => hpre b (List.mem_cons_of_mem _ hb)
    have hidx : i + 1 + pre.length = i + (y :: pre).length := by simp; omega
    simp only [List.cons_append, highestBranchIndexesLoop]
    split_ifs
    · rw [highestBranchIndexesLoop_pre hpre' _ _ _ _ hy, hidx]
    · rw [highestBranchIndexesLoop_pre hpre' _ _ _ _ hm, hidx]
    · rw [highestBranchIndexesLoop_pre hpre' _ _ _ _ hm, hidx]

theorem highestBranchIndexes_eq {pre post : List (Commit V)} {X : Commit V} (hX : 0 < height X)
    (hpre : ∀ b ∈ pre, height b < height X) (hpost : ∀ b ∈ post, height b ≤ height X) :
    highestBranchIndexes height (pre ++ X :: post) =
      pre.length :: positionsOf X (pre.length + 1) post := by
  rw [highestBranchIndexes, highestBranchIndexesLoop_pre hpre 0 0 none [] hX,
    highestBranchIndexesLoop_copies hpost]
  simp

/-- Splicing out the copies of `X` after `l₀`, the last first, filters them out. -/
theorem removeBranches_positionsOf (X : Commit V) :
    ∀ (l₀ post : List (Commit V)),
      removeBranches (l₀ ++ post) (positionsOf X l₀.length post) = l₀ ++ post.filter (· ≠ X)
  | l₀, [] => by simp [removeBranches, positionsOf]
  | l₀, y :: ys => by
    have ih := removeBranches_positionsOf X (l₀ ++ [y]) ys
    simp only [List.append_assoc, List.singleton_append, List.length_append,
      List.length_singleton] at ih
    by_cases hyX : y = X
    · subst hyX
      rw [positionsOf, if_pos rfl, removeBranches, List.foldr_cons, ← removeBranches, ih,
        splice_erase]
      simp
    · rw [positionsOf, if_neg hyX, ih]
      simp [hyX]

/-- `Next()` on a list whose first tallest head is `X`. -/
theorem next_eq {pre post : List (Commit V)} {X : Commit V} (hX : 0 < height X)
    (hpre : ∀ b ∈ pre, height b < height X) (hpost : ∀ b ∈ post, height b ≤ height X) :
    ∃ n : LogNode V, next height (pre ++ X :: post) =
        some (some (n, pre ++ X.parents ++ post.filter (· ≠ X))) ∧ n.commit = X := by
  have hrem : removeBranches (pre ++ X :: post) (positionsOf X (pre.length + 1) post) =
      pre ++ X :: post.filter (· ≠ X) := by
    have := removeBranches_positionsOf X (pre ++ [X]) post
    simpa using this
  have hsplice : splice (pre ++ X :: post.filter (· ≠ X)) pre.length 1 X.parents =
      pre ++ X.parents ++ post.filter (· ≠ X) := by
    simp [splice, List.drop_append]
  unfold next
  rw [if_neg (by simp), highestBranchIndexes_eq hX hpre hpost]
  simp only [List.head?_cons, List.tail_cons, hrem, hsplice, Option.bind_eq_bind,
    Option.bind_some, List.getElem?_append_right (le_refl _), Nat.sub_self,
    List.getElem?_cons_zero]
  exact ⟨_, rfl, rfl⟩

end Step

/-! ## The run -/

/-- The iterator after printing the commits `out` (in order) with heads `bl`, started at `c`:
what it printed are distinct ancestors of `c`, tallest first; no head is printed or taller than
a printed commit; and every ancestor of `c` is printed or below a head. -/
structure LogInv (height : Commit V → Nat) (c : Commit V) (out bl : List (Commit V)) :
    Prop where
  below_out : Below c out
  below : Below c bl
  nodup : out.Nodup
  sorted : out.Pairwise fun a b => height b ≤ height a
  fresh : ∀ b ∈ bl, b ∉ out
  le : ∀ b ∈ bl, ∀ x ∈ out, height b ≤ height x
  reach : ∀ a, AncestorOrSelf c a → a ∈ out ∨ ∃ b ∈ bl, AncestorOrSelf b a

namespace LogInv

variable {height : Commit V → Nat} {c : Commit V}

theorem init (c : Commit V) : LogInv height c [] (newCommitIterator c) where
  below_out := fun _ h => absurd h List.not_mem_nil
  below := below_self c
  nodup := List.nodup_nil
  sorted := List.Pairwise.nil
  fresh := fun _ _ => List.not_mem_nil
  le := fun _ _ _ h => absurd h List.not_mem_nil
  reach := fun _ ha => .inr ⟨c, List.mem_singleton_self c, ha⟩

theorem mem_step {pre post : List (Commit V)} {X b : Commit V} [DecidableEq V] :
    b ∈ pre ++ X.parents ++ post.filter (· ≠ X) ↔ b ∈ pre ∨ b ∈ X.parents ∨ (b ∈ post ∧ b ≠ X) := by
  simp

/-- One call keeps the invariant: `X` is printed, its copies leave, its parents come in. -/
theorem step [DecidableEq V] {out pre post : List (Commit V)} {X : Commit V}
    (hinv : LogInv height c out (pre ++ X :: post)) (hc : HeightsOk height c)
    (hpre : ∀ b ∈ pre, height b < height X) (hpost : ∀ b ∈ post, height b ≤ height X) :
    LogInv height c (out ++ [X]) (pre ++ X.parents ++ post.filter (· ≠ X)) := by
  have hXin : X ∈ pre ++ X :: post := List.mem_append_right _ List.mem_cons_self
  have hpost_in : ∀ b ∈ post, b ∈ pre ++ X :: post :=
    fun b hb => List.mem_append_right _ (List.mem_cons_of_mem _ hb)
  have hpre_in : ∀ b ∈ pre, b ∈ pre ++ X :: post := fun b hb => List.mem_append_left _ hb
  have hXc : AncestorOrSelf c X := hinv.below X hXin
  have hparent : ∀ p ∈ X.parents, height p < height X := (hc X hXc).2
  -- every printed commit is at least as tall as `X`, so the parents of `X` are not printed
  have hout : ∀ x ∈ out, height X ≤ height x := hinv.le X hXin
  refine ⟨?_, ?_, ?_, ?_, ?_, ?_, ?_⟩
  · intro x hx
    rcases List.mem_append.mp hx with hx | hx
    · exact hinv.below_out x hx
    · rw [List.mem_singleton.mp hx]
      exact hXc
  · intro b hb
    rcases mem_step.mp hb with hb | hb | ⟨hb, _⟩
    · exact hinv.below b (hpre_in b hb)
    · exact hXc.parent hb
    · exact hinv.below b (hpost_in b hb)
  · refine List.nodup_append.mpr ⟨hinv.nodup, List.nodup_singleton X, ?_⟩
    intro a ha b hb heq
    rw [List.mem_singleton.mp hb] at heq
    exact hinv.fresh X hXin (heq ▸ ha)
  · refine List.pairwise_append.mpr ⟨hinv.sorted, List.pairwise_singleton _ X, ?_⟩
    intro a ha b hb
    rw [List.mem_singleton.mp hb]
    exact hout a ha
  · intro b hb hbout
    rcases List.mem_append.mp hbout with hbout | hbout
    · rcases mem_step.mp hb with hb | hb | ⟨hb, _⟩
      · exact hinv.fresh b (hpre_in b hb) hbout
      · have := hout b hbout
        have := hparent b hb
        omega
      · exact hinv.fresh b (hpost_in b hb) hbout
    · obtain rfl := List.mem_singleton.mp hbout
      rcases mem_step.mp hb with hb | hb | ⟨_, hne⟩
      · exact lt_irrefl _ (hpre b hb)
      · exact lt_irrefl _ (hparent b hb)
      · exact hne rfl
  · intro b hb x hx
    have hbX : height b ≤ height X := by
      rcases mem_step.mp hb with hb | hb | ⟨hb, _⟩
      · exact (hpre b hb).le
      · exact (hparent b hb).le
      · exact hpost b hb
    rcases List.mem_append.mp hx with hx | hx
    · exact hbX.trans (hout x hx)
    · rw [List.mem_singleton.mp hx]
      exact hbX
  · -- an ancestor below `X` is `X` itself or below one of its parents
    have hbelowX : ∀ a, AncestorOrSelf X a → a ∈ out ++ [X] ∨
        ∃ b ∈ pre ++ X.parents ++ post.filter (· ≠ X), AncestorOrSelf b a := by
      intro a ha
      rcases ha.cases_head with rfl | ⟨p, hp, hpa⟩
      · exact .inl (List.mem_append_right _ (List.mem_singleton_self _))
      · exact .inr ⟨p, mem_step.mpr (.inr (.inl hp)), hpa⟩
    intro a ha
    rcases hinv.reach a ha with ha | ⟨b, hb, hba⟩
    · exact .inl (List.mem_append_left _ ha)
    rcases List.mem_append.mp hb with hb | hb
    · exact .inr ⟨b, mem_step.mpr (.inl hb), hba⟩
    rcases List.mem_cons.mp hb with rfl | hb
    · exact hbelowX a hba
    by_cases hbX : b = X
    · subst hbX
      exact hbelowX a hba
    · exact .inr ⟨b, mem_step.mpr (.inr (.inr ⟨hb, hbX⟩)), hba⟩

/-- What the invariant says once no head is left. -/
theorem final (hinv : LogInv height c out []) :
    out.Nodup ∧ (∀ a, a ∈ out ↔ AncestorOrSelf c a) ∧
      out.Pairwise fun a b => height b ≤ height a := by
  refine ⟨hinv.nodup, fun a => ⟨hinv.below_out a, fun ha => ?_⟩, hinv.sorted⟩
  rcases hinv.reach a ha with ha | ⟨b, hb, _⟩
  · exact ha
  · cases hb

end LogInv

section Run

variable {height : Commit V → Nat} [DecidableEq V] {c : Commit V}

/-- Each call either ends on an empty list or prints a new ancestor of `c`, of which there are
fewer than `(commitsOf c).length + 1`. -/
theorem next_keeps_logInv (hc : HeightsOk height c) (ns : List (LogNode V))
    (bl : List (Commit V)) (hinv : LogInv height c (ns.map LogNode.commit) bl) :
    (next height bl = some none ∧ LogInv height c (ns.map LogNode.commit) []) ∨
      ∃ n bl', next height bl = some (some (n, bl')) ∧
        LogInv height c ((ns ++ [n]).map LogNode.commit) bl' ∧
        (commitsOf c).length - (ns ++ [n]).length < (commitsOf c).length - ns.length := by
  by_cases hbl : bl = []
  · subst hbl
    exact .inl ⟨(next_eq_end_iff height).mpr rfl, hinv⟩
  obtain ⟨pre, X, post, rfl, hpre, hpost⟩ := exists_first_tallest height hbl
  have hXin : X ∈ pre ++ X :: post := List.mem_append_right _ List.mem_cons_self
  have hX : 0 < height X := (hc X (hinv.below X hXin)).1
  obtain ⟨n, hnext, hn⟩ := next_eq hX hpre hpost
  have hinv' := hinv.step hc hpre hpost
  have hmap : (ns ++ [n]).map LogNode.commit = ns.map LogNode.commit ++ [X] := by simp [hn]
  rw [← hmap] at hinv'
  -- the printed commits are distinct ancestors of `c`, all in `commitsOf c`
  have hlen : ((ns ++ [n]).map LogNode.commit).length ≤ (commitsOf c).length :=
    hinv'.nodup.length_le_of_subset fun a ha => mem_commitsOf (hinv'.below_out a ha)
  rw [List.length_map, List.length_append, List.length_singleton] at hlen
  refine .inr ⟨n, _, hnext, hinv', ?_⟩
  rw [List.length_append, List.length_singleton]
  omega

/-- A merge over two branches off one root; the heights are those of their refs. -/
def diamondRoot : Commit Nat := .mk [] 0

def diamondLeft : Commit Nat := .mk [diamondRoot] 1

def diamondRight : Commit Nat := .mk [diamondRoot] 2

def diamondMerge : Commit Nat := .mk [diamondLeft, diamondRight] 3

def diamondHeight (c : Commit Nat) : Nat :=
  if c = diamondRoot then 1 else if c = diamondMerge then 3 else 2

example : (drain (next diamondHeight) 6 (newCommitIterator diamondMerge)).map
    (·.map LogNode.commit) = some [diamondMerge, diamondLeft, diamondRight, diamondRoot] := by
  decide

end Run

end Noms.Cmd
