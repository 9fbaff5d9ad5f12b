import Noms.Types.RefHeap
import Mathlib.Logic.Relation

/-!
# Pulling a commit's chunks into another database (`pull.go`)

`Pull(srcDB, sinkDB, sourceRef, sinkHeadRef, concurrency)` copies to the sink every chunk
reachable from `sourceRef` that the sink does not hold. It walks two queues of refs by height:
`srcQ` from `sourceRef` and `sinkQ` from the sink's head. Each turn `planWork` takes the refs
of the tallest height: from the taller queue alone, or, at equal heights, the refs only the
source queue has, those both have (`findCommon`), and the sink queue's. Workers traverse them:
a source ref the sink lacks is scheduled for writing and its refs join `srcQ`
(`traverseSource`), a sink ref's refs join `sinkQ` (`traverseSink`), and a common commit's refs
join both, but for the sink head, whose refs stay off `srcQ` and whose parents are left out
(`traverseCommon`). Both queues are then sorted and deduplicated.

On sorted queues of distinct refs `findCommon` is a merge (`findCommon_merge`): `planWork` hands
out exactly the refs of the tallest height, split by which queues hold them, and takes exactly
those off the queues (`planWork_of_src_taller`, `planWork_of_same_height`).

Chunks are addressed by hash: a `ChunkGraph` gives the height of the refs to a chunk, the refs
its value holds (`getChunks`), and for a commit its parents; both databases hold the same value
under one hash. The sink's `has` is its holding before the pull (`sinkHas`). Workers return
their results in any order and `concurrency` only changes that order; the queues are sorted
after every turn, so every order gives the same turn (`pullStep_perm`). The loop runs with fuel,
and `Pull_complete` proves that enough is given.
-/

namespace Noms.Datas

open Noms.Types (HeightOrder)
open Noms.Types.RefByHeight

variable {H : Type}

/-- The chunks of both databases, by hash: the height of a ref to each, the refs its value
holds, whether it is a commit, and a commit's parents. -/
structure ChunkGraph (H : Type) where
  height : H → Nat
  refsOf : H → List H
  isCommit : H → Bool
  parentsOf : H → List H

namespace ChunkGraph

variable (g : ChunkGraph H)

/-- `b` is reachable from `a` through the refs of the chunks on the way. -/
def Reaches (a b : H) : Prop := Relation.ReflTransGen (fun x y => y ∈ g.refsOf x) a b

/-- A ref's height is one more than the highest ref in its target (`Ref.Height`). -/
def HeightsOk : Prop :=
  ∀ r, g.height r = (g.refsOf r).foldr (fun c m => max (g.height c) m) 0 + 1

/-- A database holding a chunk holds every chunk it reaches. -/
def Closed (has : H → Bool) : Prop := ∀ r, has r = true → ∀ c ∈ g.refsOf r, has c = true

variable {g}

theorem le_foldr_max {l : List H} {c : H} (hc : c ∈ l) :
    g.height c ≤ l.foldr (fun c m => max (g.height c) m) 0 := by
  induction l with
  | nil => cases hc
  | cons a l ih =>
    rcases List.mem_cons.mp hc with rfl | hc
    · exact le_max_left _ _
    · exact (ih hc).trans (le_max_right _ _)

theorem HeightsOk.height_pos (hg : g.HeightsOk) (r : H) : 0 < g.height r := by
  rw [hg r]
  omega

/-- The refs in a chunk are shorter than a ref to it. -/
theorem HeightsOk.height_lt (hg : g.HeightsOk) {r c : H} (hc : c ∈ g.refsOf r) :
    g.height c < g.height r := by
  rw [hg r]
  exact Nat.lt_succ_of_le (le_foldr_max hc)

theorem Reaches.refl (a : H) : g.Reaches a a := Relation.ReflTransGen.refl

/-- A path from `a` either stays at `a` or leaves through one of `a`'s refs. -/
theorem Reaches.cases_head {a x : H} (h : g.Reaches a x) :
    x = a ∨ ∃ c ∈ g.refsOf a, g.Reaches c x := by
  rcases Relation.ReflTransGen.cases_head h with rfl | ⟨c, hc, hcx⟩
  · exact .inl rfl
  · exact .inr ⟨c, hc, hcx⟩

/-- A closed database holds everything a chunk it holds reaches. -/
theorem Closed.of_reaches {has : H → Bool} (hc : g.Closed has) {a x : H} (ha : has a = true)
    (hx : g.Reaches a x) : has x = true := by
  induction hx with
  | refl => exact ha
  | tail _ hyz ih => exact hc _ ih _ hyz

end ChunkGraph

variable [LinearOrder H] (g : ChunkGraph H)

/-- What `findCommon` splits the two queues into. -/
structure Common (H : Type) where
  tallRefs : List H
  comRefs : List H
  tallerRest : List H
  shorterKept : List H

/-- `findCommon(taller, shorter, height)`: both queues walked from the top while `taller` has
refs of height `h`. A ref of `taller` higher than the current one of `shorter` is only in
`taller`; an equal one is common, and `DropIndices` takes it out of `shorter`; a lower one moves
the walk down `shorter`. Past the end of `shorter` the walk meets the zero `Ref`, which every
ref is higher than. -/
def findCommon (h : Nat) : List H → List H → Common H
  | [], shorter => ⟨[], [], [], shorter⟩
  | t :: taller, shorter =>
    if g.height t ≠ h then ⟨[], [], t :: taller, shorter⟩
    else
      match shorter with
      | [] =>
        let r := findCommon h taller []
        { r with tallRefs := t :: r.tallRefs }
      | s :: shorter' =>
        if HeightOrder g.height t s then
          let r := findCommon h taller (s :: shorter')
          { r with tallRefs := t :: r.tallRefs }
        else if s = t then
          let r := findCommon h taller shorter'
          { r with comRefs := t :: r.comRefs }
        else
          let r := findCommon h (t :: taller) shorter'
          { r with shorterKept := s :: r.shorterKept }
termination_by taller shorter => taller.length + shorter.length

/-- What `planWork` hands the workers, and the queues it leaves. -/
structure Work (H : Type) where
  srcRefs : List H
  sinkRefs : List H
  comRefs : List H
  srcQ : List H
  sinkQ : List H

/-- `planWork(srcQ, sinkQ)`. -/
def planWork (srcQ sinkQ : List H) : Work H :=
  let srcHt := MaxHeight g.height srcQ
  let sinkHt := MaxHeight g.height sinkQ
  if sinkHt < srcHt then
    let p := PopRefsOfHeight g.height srcQ srcHt
    ⟨p.1, [], [], p.2, sinkQ⟩
  else if srcHt < sinkHt then
    let p := PopRefsOfHeight g.height sinkQ sinkHt
    ⟨[], p.1, [], srcQ, p.2⟩
  else
    let c := findCommon g srcHt srcQ sinkQ
    let p := PopRefsOfHeight g.height c.shorterKept sinkHt
    ⟨c.tallRefs, p.1, c.comRefs, c.tallerRest, p.2⟩

variable (sinkHas : H → Bool)

/-- `traverseSource(srcRef, srcDB, sinkDB)`: the chunk it schedules for writing, if the sink
lacks it, and the refs it reaches. -/
def traverseSource (srcRef : H) : Option H × List H :=
  if sinkHas srcRef then (none, []) else (some srcRef, g.refsOf srcRef)

/-- `traverseSink(sinkRef, db)`: the refs it reaches. -/
def traverseSink (sinkRef : H) : List H :=
  if 1 < g.height sinkRef then g.refsOf sinkRef else []

/-- `traverseCommon(comRef, sinkHead, db)`: the refs of a common commit, without the sink
head's parents. Go swaps the excluded refs to the end; the order does not survive the sort. -/
def traverseCommon (sinkHead comRef : H) : List H :=
  if 1 < g.height comRef ∧ g.isCommit comRef = true then
    (g.refsOf comRef).filter fun c => !(comRef = sinkHead ∧ c ∈ g.parentsOf comRef)
  else []

/-- What the workers' results push on `srcQ` and on `sinkQ` in one turn, taken in the order of
the work. A common ref's refs go to `srcQ` unless it is the sink head. -/
def pushes (sinkHead : H) (w : Work H) : List H × List H :=
  ((w.srcRefs.map fun r => (traverseSource g sinkHas r).2).flatten ++
      (w.comRefs.filter (· ≠ sinkHead)).flatMap (traverseCommon g sinkHead),
    w.sinkRefs.flatMap (traverseSink g) ++ w.comRefs.flatMap (traverseCommon g sinkHead))

/-- One turn of `Pull`'s loop: the sorted, deduplicated queues, and the chunks scheduled. -/
def pullStep (sinkHead : H) (srcQ sinkQ : List H) : List H × List H × List H :=
  let w := planWork g srcQ sinkQ
  let p := pushes g sinkHas sinkHead w
  (Unique (sort g.height (w.srcQ ++ p.1)), Unique (sort g.height (w.sinkQ ++ p.2)),
    w.srcRefs.filterMap fun r => (traverseSource g sinkHas r).1)

/-- `for !srcQ.Empty() { ... }` for at most `fuel` turns: the chunks scheduled. -/
def pullLoop (sinkHead : H) : Nat → List H → List H → List H → Option (List H)
  | 0, _, _, _ => none
  | fuel + 1, srcQ, sinkQ, scheduled =>
    if srcQ.isEmpty then some scheduled
    else
      let r := pullStep g sinkHas sinkHead srcQ sinkQ
      pullLoop sinkHead fuel r.1 r.2.1 (scheduled ++ r.2.2)

/-- `Pull(srcDB, sinkDB, sourceRef, sinkHeadRef, ...)`: the chunks it schedules on the sink. -/
def Pull (srcHas : H → Bool) (sourceRef sinkHeadRef : H) : Option (List H) :=
  if sinkHas sourceRef then some []
  else
    -- a sink head the source lacks gives no hints
    let sinkQ := if srcHas sinkHeadRef then [sinkHeadRef] else []
    pullLoop g sinkHas sinkHeadRef (g.height sourceRef + g.height sinkHeadRef + 1) [sourceRef]
      sinkQ []

/-! ## `findCommon` and `planWork` -/

/-- What `findCommon` does with the two queues: every ref of `taller` becomes a tall ref or a
common ref or stays, and what stays is exactly the part below height `h`; a tall ref comes from
`taller` and a common one from `shorter`, which only loses refs. -/
theorem findCommon_spec (h : Nat) (taller shorter : List H) :
    let r := findCommon g h taller shorter
    (∀ x ∈ taller, x ∈ r.tallRefs ∨ x ∈ r.comRefs ∨ x ∈ r.tallerRest) ∧
      (∀ x ∈ r.tallRefs, x ∈ taller) ∧ (∀ x ∈ r.comRefs, x ∈ shorter) ∧
      r.tallerRest = taller.dropWhile (fun x => g.height x = h) ∧
      r.shorterKept.Sublist shorter := by
  fun_induction findCommon g h taller shorter
  case case1 => simp
  case case2 t taller shorter ht =>
    simp [List.dropWhile_cons_of_neg, ht]
  -- `t` is higher than what `shorter` shows: a tall ref
  case case3 t taller ht r ih | case4 t taller ht s shorter' _ r ih =>
    obtain ⟨hc, htall, hcom, hrest, hkept⟩ := ih
    refine ⟨?_, ?_, hcom, ?_, hkept⟩
    · intro x hx
      rcases List.mem_cons.mp hx with rfl | hx
      · exact .inl List.mem_cons_self
      · rcases hc x hx with h' | h' | h'
        · exact .inl (List.mem_cons_of_mem _ h')
        · exact .inr (.inl h')
        · exact .inr (.inr h')
    · intro x hx
      rcases List.mem_cons.mp hx with rfl | hx
      · exact List.mem_cons_self
      · exact List.mem_cons_of_mem _ (htall x hx)
    · rw [List.dropWhile_cons_of_pos (by simpa using not_not.mp ht)]
      exact hrest
  -- the two heads are one ref: a common ref
  case case5 taller t shorter' r ht _ ih =>
    obtain ⟨hc, htall, hcom, hrest, hkept⟩ := ih
    refine ⟨?_, fun x hx => List.mem_cons_of_mem _ (htall x hx), ?_, ?_, hkept.cons _⟩
    · intro x hx
      rcases List.mem_cons.mp hx with rfl | hx
      · exact .inr (.inl List.mem_cons_self)
      · rcases hc x hx with h' | h' | h'
        · exact .inl h'
        · exact .inr (.inl (List.mem_cons_of_mem _ h'))
        · exact .inr (.inr h')
    · intro x hx
      rcases List.mem_cons.mp hx with rfl | hx
      · exact List.mem_cons_self
      · exact List.mem_cons_of_mem _ (hcom x hx)
    · rw [List.dropWhile_cons_of_pos (by simpa using not_not.mp ht)]
      exact hrest
  -- `shorter`'s head is higher: the walk moves down `shorter`
  case case6 t taller s shorter' _ _ _ r ih =>
    obtain ⟨hc, htall, hcom, hrest, hkept⟩ := ih
    exact ⟨hc, htall, fun x hx => List.mem_cons_of_mem _ (hcom x hx), hrest, hkept.cons_cons _⟩

omit [LinearOrder H] in
theorem filter_mem_cons_of_not_mem [DecidableEq H] {a : H} {l : List H} (ha : a ∉ l)
    (m : List H) : l.filter (· ∈ a :: m) = l.filter (· ∈ m) := by
  refine List.filter_congr fun x hx => ?_
  have hxa : x ≠ a := fun e => ha (e ▸ hx)
  simp [hxa]

omit [LinearOrder H] in
theorem filter_not_mem_cons_of_not_mem [DecidableEq H] {a : H} {l : List H} (ha : a ∉ l)
    (m : List H) : l.filter (· ∉ a :: m) = l.filter (· ∉ m) := by
  refine List.filter_congr fun x hx => ?_
  have hxa : x ≠ a := fun e => ha (e ▸ hx)
  simp [hxa]

/-- On two sorted queues of distinct refs `findCommon` is a merge. Of the refs of height `h` at
the top of `taller`, those `shorter` lacks are tall refs and the others common refs, each in
`taller`'s order, and `shorter` keeps every ref but the common ones. -/
theorem findCommon_merge (h : Nat) {taller shorter : List H} (hts : Sorted g.height taller)
    (htn : taller.Nodup) (hss : Sorted g.height shorter) (hsn : shorter.Nodup) :
    let top := taller.takeWhile fun x => g.height x = h
    let r := findCommon g h taller shorter
    r.tallRefs = top.filter (· ∉ shorter) ∧ r.comRefs = top.filter (· ∈ shorter) ∧
      r.shorterKept = shorter.filter (· ∉ top) := by
  fun_induction findCommon g h taller shorter
  case case1 => simp
  case case2 t taller shorter ht =>
    simp [List.takeWhile_cons_of_neg, ht]
  case case3 t taller ht r ih =>
    obtain ⟨htall, hcom, hkept⟩ := ih hts.of_cons (List.nodup_cons.mp htn).2 hss hsn
    rw [List.takeWhile_cons_of_pos (by simpa using not_not.mp ht)]
    refine ⟨?_, ?_, hkept⟩
    · rw [List.filter_cons_of_pos (by simp)]
      exact congrArg (t :: ·) htall
    · rw [List.filter_cons_of_neg (by simp)]
      exact hcom
  -- `t` is above `shorter`'s head, so `shorter` lacks it
  case case4 t taller ht s shorter' hts' r ih =>
    obtain ⟨htall, hcom, hkept⟩ := ih hts.of_cons (List.nodup_cons.mp htn).2 hss hsn
    have hts_not : t ∉ s :: shorter' := hss.not_mem_of_heightOrder hts'
    rw [List.takeWhile_cons_of_pos (by simpa using not_not.mp ht)]
    refine ⟨?_, ?_, ?_⟩
    · rw [List.filter_cons_of_pos (by simpa using hts_not)]
      exact congrArg (t :: ·) htall
    · rw [List.filter_cons_of_neg (by simpa using hts_not)]
      exact hcom
    · rw [hkept, filter_not_mem_cons_of_not_mem hts_not]
  -- the two heads are one ref, which neither queue holds twice
  case case5 taller t shorter' r ht _ ih =>
    obtain ⟨htall, hcom, hkept⟩ := ih hts.of_cons (List.nodup_cons.mp htn).2 hss.of_cons
      (List.nodup_cons.mp hsn).2
    have htop : t ∉ taller.takeWhile fun x => g.height x = h :=
      fun hm => (List.nodup_cons.mp htn).1 ((List.takeWhile_sublist _).subset hm)
    rw [List.takeWhile_cons_of_pos (by simpa using not_not.mp ht)]
    refine ⟨?_, ?_, ?_⟩
    · rw [List.filter_cons_of_neg (by simp), filter_not_mem_cons_of_not_mem htop]
      exact htall
    · rw [List.filter_cons_of_pos (by simp), filter_mem_cons_of_not_mem htop]
      exact congrArg (t :: ·) hcom
    · rw [List.filter_cons_of_neg (by simp), hkept,
        filter_not_mem_cons_of_not_mem (List.nodup_cons.mp hsn).1]
  -- `shorter`'s head is above `t`, so `taller` lacks it
  case case6 t taller ht s shorter' hts' hne r ih =>
    obtain ⟨htall, hcom, hkept⟩ := ih hts htn hss.of_cons (List.nodup_cons.mp hsn).2
    have hst : s ∉ t :: taller :=
      hts.not_mem_of_higherOrSame (by unfold Types.HigherOrSame; simpa using hts') hne
    have hstop : s ∉ (t :: taller).takeWhile fun x => g.height x = h :=
      fun hm => hst ((List.takeWhile_sublist _).subset hm)
    refine ⟨?_, ?_, ?_⟩
    · rw [filter_not_mem_cons_of_not_mem hstop]
      exact htall
    · rw [filter_mem_cons_of_not_mem hstop]
      exact hcom
    · rw [List.filter_cons_of_pos (by simpa using hstop)]
      exact congrArg (s :: ·) hkept

/-- Every ref of `srcQ` is handed to a worker, as a source or a common ref, or stays queued. -/
theorem mem_planWork_src {srcQ sinkQ : List H} {x : H} (hx : x ∈ srcQ) :
    x ∈ (planWork g srcQ sinkQ).srcRefs ∨ x ∈ (planWork g srcQ sinkQ).comRefs ∨
      x ∈ (planWork g srcQ sinkQ).srcQ := by
  unfold planWork
  dsimp only
  split_ifs
  · rcases mem_PopRefsOfHeight.mp hx with h | h
    · exact .inl h
    · exact .inr (.inr h)
  · exact .inr (.inr hx)
  · exact (findCommon_spec g _ srcQ sinkQ).1 x hx

/-- What `planWork` hands out or leaves of `sinkQ` came from `sinkQ`. -/
theorem mem_sinkQ_of_planWork {srcQ sinkQ : List H} {x : H}
    (hx : x ∈ (planWork g srcQ sinkQ).sinkRefs ∨ x ∈ (planWork g srcQ sinkQ).comRefs ∨
      x ∈ (planWork g srcQ sinkQ).sinkQ) : x ∈ sinkQ := by
  unfold planWork at hx
  dsimp only at hx
  split_ifs at hx
  · simpa using hx
  · simpa [← mem_PopRefsOfHeight] using hx
  · obtain ⟨-, -, hcom, -, hkept⟩ := findCommon_spec g (MaxHeight g.height srcQ) srcQ sinkQ
    rcases hx with hx | hx | hx
    · exact hkept.subset (mem_PopRefsOfHeight.mpr (.inl hx))
    · exact hcom x hx
    · exact hkept.subset (mem_PopRefsOfHeight.mpr (.inr hx))

/-! ## What `planWork` hands out -/

section Plan

variable {g} {srcQ sinkQ : List H}

/-- `srcQ` is taller: its refs of the top height `h` are the source refs, and only they leave it. -/
theorem planWork_of_src_taller (hs : Sorted g.height srcQ) {h : Nat}
    (hh : MaxHeight g.height srcQ = h) (hlt : MaxHeight g.height sinkQ < h) :
    planWork g srcQ sinkQ =
      ⟨srcQ.filter (fun x => g.height x = h), [], [], srcQ.filter (fun x => g.height x ≠ h), sinkQ⟩ := by
  subst hh
  unfold planWork
  dsimp only
  rw [if_pos hlt, hs.PopRefsOfHeight_eq_filter (fun _ hx => hs.le_MaxHeight hx)]

/-- `sinkQ` is taller: its refs of the top height `h` are the sink refs, and only they leave it. -/
theorem planWork_of_sink_taller (hk : Sorted g.height sinkQ) {h : Nat}
    (hh : MaxHeight g.height sinkQ = h) (hlt : MaxHeight g.height srcQ < h) :
    planWork g srcQ sinkQ =
      ⟨[], sinkQ.filter (fun x => g.height x = h), [], srcQ, sinkQ.filter (fun x => g.height x ≠ h)⟩ := by
  subst hh
  unfold planWork
  dsimp only
  rw [if_neg (by omega), if_pos hlt, hk.PopRefsOfHeight_eq_filter (fun _ hx => hk.le_MaxHeight hx)]

omit [LinearOrder H] in
/-- What `sinkQ` keeps past the common refs, at height `h`, is what only `sinkQ` has there. -/
theorem filter_not_mem_top [DecidableEq H] (srcQ sinkQ : List H) (h : Nat) :
    (sinkQ.filter (· ∉ srcQ.filter fun x => g.height x = h)).filter (fun x => g.height x = h) =
      (sinkQ.filter fun x => g.height x = h).filter (· ∉ srcQ) := by
  rw [List.filter_filter, List.filter_filter]
  refine List.filter_congr fun x _ => ?_
  by_cases hx : g.height x = h <;> simp [hx]

omit [LinearOrder H] in
/-- Dropping the common refs of height `h` leaves the refs below `h` as they were. -/
theorem filter_not_mem_top_ne [DecidableEq H] (srcQ sinkQ : List H) (h : Nat) :
    (sinkQ.filter (· ∉ srcQ.filter fun x => g.height x = h)).filter (fun x => g.height x ≠ h) =
      sinkQ.filter fun x => g.height x ≠ h := by
  rw [List.filter_filter]
  refine List.filter_congr fun x _ => ?_
  by_cases hx : g.height x = h <;> simp [hx]

/-- One height `h` tops both queues: the refs of height `h` only `srcQ` has are the source refs,
those both have the common refs, those only `sinkQ` has the sink refs, and both queues lose
exactly their refs of height `h`. -/
theorem planWork_of_same_height (hs : Sorted g.height srcQ) (hsn : srcQ.Nodup)
    (hk : Sorted g.height sinkQ) (hkn : sinkQ.Nodup) {h : Nat} (hsh : MaxHeight g.height srcQ = h)
    (hkh : MaxHeight g.height sinkQ = h) :
    planWork g srcQ sinkQ =
      ⟨(srcQ.filter fun x => g.height x = h).filter (· ∉ sinkQ),
        (sinkQ.filter fun x => g.height x = h).filter (· ∉ srcQ),
        (srcQ.filter fun x => g.height x = h).filter (· ∈ sinkQ),
        srcQ.filter (fun x => g.height x ≠ h), sinkQ.filter fun x => g.height x ≠ h⟩ := by
  have hsle : ∀ x ∈ srcQ, g.height x ≤ h := fun _ hx => hsh ▸ hs.le_MaxHeight hx
  have hkle : ∀ x ∈ sinkQ, g.height x ≤ h := fun _ hx => hkh ▸ hk.le_MaxHeight hx
  have hpop := hs.PopRefsOfHeight_eq_filter hsle
  have htop : (srcQ.takeWhile fun x => g.height x = h) = srcQ.filter fun x => g.height x = h :=
    congrArg Prod.fst hpop
  have hdrop : (srcQ.dropWhile fun x => g.height x = h) = srcQ.filter fun x => g.height x ≠ h :=
    congrArg Prod.snd hpop
  obtain ⟨htall, hcom, hkept⟩ := findCommon_merge g h hs hsn hk hkn
  obtain ⟨-, -, -, hrest, hsub⟩ := findCommon_spec g h srcQ sinkQ
  -- what `sinkQ` keeps is sorted and no higher than `h`, so the second pop is a filter too
  have hks : Sorted g.height (findCommon g h srcQ sinkQ).shorterKept := hk.sublist hsub
  have hkpop := hks.PopRefsOfHeight_eq_filter fun x hx => hkle x (hsub.subset hx)
  rw [htop] at htall hcom hkept
  unfold planWork
  dsimp only
  rw [if_neg (by omega), if_neg (by omega), hsh, hkh, hkpop, hkept, htall, hcom, hrest, hdrop,
    filter_not_mem_top, filter_not_mem_top_ne]

/-- `planWork` hands no ref out twice and leaves both queues sorted. -/
theorem planWork_nodup_sorted (hs : Sorted g.height srcQ) (hsn : srcQ.Nodup)
    (hk : Sorted g.height sinkQ) (hkn : sinkQ.Nodup) :
    ((planWork g srcQ sinkQ).srcRefs ++ (planWork g srcQ sinkQ).comRefs ++
        (planWork g srcQ sinkQ).sinkRefs).Nodup ∧
      Sorted g.height (planWork g srcQ sinkQ).srcQ ∧ Sorted g.height (planWork g srcQ sinkQ).sinkQ := by
  have hsf : ∀ p : H → Bool, Sorted g.height (srcQ.filter p) := fun _ => hs.sublist List.filter_sublist
  have hkf : ∀ p : H → Bool, Sorted g.height (sinkQ.filter p) :=
    fun _ => hk.sublist List.filter_sublist
  rcases lt_trichotomy (MaxHeight g.height sinkQ) (MaxHeight g.height srcQ) with hlt | heq | hgt
  · rw [planWork_of_src_taller hs rfl hlt]
    exact ⟨by simpa using hsn.filter _, hsf _, hk⟩
  · rw [planWork_of_same_height hs hsn hk hkn rfl heq]
    refine ⟨?_, hsf _, hkf _⟩
    -- source and common refs split `srcQ`'s top by membership in `sinkQ`; sink refs lie outside `srcQ`
    refine List.Nodup.append (List.Nodup.append ((hsn.filter _).filter _) ((hsn.filter _).filter _)
      fun x h₁ h₂ => ?_) ((hkn.filter _).filter _) fun x h₁ h₂ => ?_
    · simp only [List.mem_filter, decide_eq_true_eq] at h₁ h₂
      exact h₁.2 h₂.2
    · simp only [List.mem_append, List.mem_filter, decide_eq_true_eq] at h₁ h₂
      rcases h₁ with h₁ | h₁
      · exact h₂.2 h₁.1.1
      · exact h₂.2 h₁.1.1
  · rw [planWork_of_sink_taller hk rfl hgt]
    exact ⟨by simpa using hkn.filter _, hs, hkf _⟩

end Plan

/-- On sorted queues of distinct refs, `planWork` takes the refs of the tallest height and
nothing else. A taller queue gives up exactly its refs of that height. At one height for both,
the refs both queues have are the common refs, the others go to their own queue's workers, and
both queues lose exactly their refs of that height. No ref is handed out twice, and both queues
stay sorted. -/
theorem planWork_partitions_tallest {srcQ sinkQ : List H} (hs : Sorted g.height srcQ)
    (hsn : srcQ.Nodup) (hk : Sorted g.height sinkQ) (hkn : sinkQ.Nodup) :
    let w := planWork g srcQ sinkQ
    (∀ h, MaxHeight g.height srcQ = h → MaxHeight g.height sinkQ < h →
      w = ⟨srcQ.filter (fun x => g.height x = h), [], [], srcQ.filter (fun x => g.height x ≠ h),
        sinkQ⟩) ∧
    (∀ h, MaxHeight g.height sinkQ = h → MaxHeight g.height srcQ < h →
      w = ⟨[], sinkQ.filter (fun x => g.height x = h), [], srcQ,
        sinkQ.filter (fun x => g.height x ≠ h)⟩) ∧
    (∀ h, MaxHeight g.height srcQ = h → MaxHeight g.height sinkQ = h →
      w = ⟨(srcQ.filter fun x => g.height x = h).filter (· ∉ sinkQ),
        (sinkQ.filter fun x => g.height x = h).filter (· ∉ srcQ),
        (srcQ.filter fun x => g.height x = h).filter (· ∈ sinkQ),
        srcQ.filter (fun x => g.height x ≠ h), sinkQ.filter fun x => g.height x ≠ h⟩) ∧
    (w.srcRefs ++ w.comRefs ++ w.sinkRefs).Nodup ∧ Sorted g.height w.srcQ ∧
      Sorted g.height w.sinkQ := by
  intro w
  refine ⟨fun h hh hlt => planWork_of_src_taller hs hh hlt,
    fun h hh hlt => planWork_of_sink_taller hk hh hlt,
    fun h hsh hkh => planWork_of_same_height hs hsn hk hkn hsh hkh, ?_⟩
  exact planWork_nodup_sorted hs hsn hk hkn

/-! ## One turn -/

omit [LinearOrder H] in
theorem traverseSource_fst (r : H) :
    (traverseSource g sinkHas r).1 = if sinkHas r then none else some r := by
  unfold traverseSource
  split_ifs <;> rfl

omit [LinearOrder H] in
theorem traverseSource_snd (r : H) :
    (traverseSource g sinkHas r).2 = if sinkHas r then [] else g.refsOf r := by
  unfold traverseSource
  split_ifs <;> rfl

omit [LinearOrder H] in
theorem mem_traverseSink {q x : H} (hx : x ∈ traverseSink g q) : x ∈ g.refsOf q := by
  unfold traverseSink at hx
  split_ifs at hx
  · exact hx
  · cases hx

theorem mem_traverseCommon {sinkHead q x : H} (hx : x ∈ traverseCommon g sinkHead q) :
    x ∈ g.refsOf q := by
  unfold traverseCommon at hx
  split_ifs at hx
  · exact List.mem_of_mem_filter hx
  · cases hx

/-- What holds at the top of every turn of `Pull`'s loop: the sink holds the refs on `sinkQ`,
nothing scheduled was held, every chunk reachable from `sourceRef` is held, scheduled, or
reachable from a ref on `srcQ`, and both queues are sorted. -/
structure PullInv (sourceRef : H) (srcQ sinkQ scheduled : List H) : Prop where
  sink_held : ∀ r ∈ sinkQ, sinkHas r = true
  scheduled_new : ∀ r ∈ scheduled, sinkHas r = false
  covered : ∀ x, g.Reaches sourceRef x →
    sinkHas x = true ∨ x ∈ scheduled ∨ ∃ q ∈ srcQ, g.Reaches q x
  src_sorted : Sorted g.height srcQ
  sink_sorted : Sorted g.height sinkQ

section Turn

variable {g sinkHas} {sinkHead : H} {srcQ sinkQ : List H}

theorem mem_pullStep_srcQ {x : H} :
    x ∈ (pullStep g sinkHas sinkHead srcQ sinkQ).1 ↔
      x ∈ (planWork g srcQ sinkQ).srcQ ∨
        (∃ q ∈ (planWork g srcQ sinkQ).srcRefs, sinkHas q = false ∧ x ∈ g.refsOf q) ∨
        ∃ q ∈ (planWork g srcQ sinkQ).comRefs, q ≠ sinkHead ∧
          x ∈ traverseCommon g sinkHead q := by
  simp [pullStep, pushes, mem_Unique, mem_sort, traverseSource_snd, and_assoc]

theorem mem_pullStep_sinkQ {x : H} :
    x ∈ (pullStep g sinkHas sinkHead srcQ sinkQ).2.1 ↔
      x ∈ (planWork g srcQ sinkQ).sinkQ ∨
        (∃ q ∈ (planWork g srcQ sinkQ).sinkRefs, x ∈ traverseSink g q) ∨
        ∃ q ∈ (planWork g srcQ sinkQ).comRefs, x ∈ traverseCommon g sinkHead q := by
  simp [pullStep, pushes, mem_Unique, mem_sort]

theorem mem_pullStep_scheduled {x : H} :
    x ∈ (pullStep g sinkHas sinkHead srcQ sinkQ).2.2 ↔
      x ∈ (planWork g srcQ sinkQ).srcRefs ∧ sinkHas x = false := by
  simp [pullStep, traverseSource_fst]


/-- A source ref handed to a worker is held, or it is scheduled and its refs join `srcQ`. -/
theorem covered_of_srcRef (hc : g.Closed sinkHas) {q x : H}
    (hq : q ∈ (planWork g srcQ sinkQ).srcRefs) (hx : g.Reaches q x) :
    sinkHas x = true ∨ x ∈ (pullStep g sinkHas sinkHead srcQ sinkQ).2.2 ∨
      ∃ q' ∈ (pullStep g sinkHas sinkHead srcQ sinkQ).1, g.Reaches q' x := by
  cases hheld : sinkHas q
  · rcases hx.cases_head with rfl | ⟨c, hcq, hcx⟩
    · exact .inr (.inl (mem_pullStep_scheduled.mpr ⟨hq, hheld⟩))
    · exact .inr (.inr ⟨c, mem_pullStep_srcQ.mpr (.inr (.inl ⟨q, hq, hheld, hcq⟩)), hcx⟩)
  · exact .inl (hc.of_reaches hheld hx)

/-- One turn keeps the invariant. The common refs need no care here: they are on `sinkQ`, so
the sink holds all they reach. -/
theorem PullInv.step (hc : g.Closed sinkHas) {sourceRef : H} {scheduled : List H}
    (hinv : PullInv g sinkHas sourceRef srcQ sinkQ scheduled) :
    PullInv g sinkHas sourceRef (pullStep g sinkHas sinkHead srcQ sinkQ).1
      (pullStep g sinkHas sinkHead srcQ sinkQ).2.1
      (scheduled ++ (pullStep g sinkHas sinkHead srcQ sinkQ).2.2) where
  sink_held r hr := by
    rcases mem_pullStep_sinkQ.mp hr with hr | ⟨q, hq, hrq⟩ | ⟨q, hq, hrq⟩
    · exact hinv.sink_held r (mem_sinkQ_of_planWork g (.inr (.inr hr)))
    · exact hc q (hinv.sink_held q (mem_sinkQ_of_planWork g (.inl hq))) r
        (mem_traverseSink g hrq)
    · exact hc q (hinv.sink_held q (mem_sinkQ_of_planWork g (.inr (.inl hq)))) r
        (mem_traverseCommon g hrq)
  scheduled_new r hr := by
    rcases List.mem_append.mp hr with hr | hr
    · exact hinv.scheduled_new r hr
    · exact (mem_pullStep_scheduled.mp hr).2
  covered x hx := by
    rcases hinv.covered x hx with hheld | hsched | ⟨q, hq, hqx⟩
    · exact .inl hheld
    · exact .inr (.inl (List.mem_append_left _ hsched))
    rcases mem_planWork_src g hq with hq' | hq' | hq'
    · rcases covered_of_srcRef hc hq' hqx with h | h | h
      · exact .inl h
      · exact .inr (.inl (List.mem_append_right _ h))
      · exact .inr (.inr h)
    · have hheld := hinv.sink_held q (mem_sinkQ_of_planWork g (.inr (.inl hq')))
      exact .inl (hc.of_reaches hheld hqx)
    · exact .inr (.inr ⟨q, mem_pullStep_srcQ.mpr (.inl hq'), hqx⟩)
  src_sorted := (sorted_sort _).Unique
  sink_sorted := (sorted_sort _).Unique

/-! ## Termination -/

/-- Heights `S` and `K`, together below the queues' tops, that bound what a turn leaves on the
queues, and, one higher, the refs it hands out: what those reach is then at most `S` high on
`srcQ` and `K` high on `sinkQ`. Which heights drop depends on which queue `planWork` served. -/
theorem planWork_bounds (hg : g.HeightsOk) (hs : Sorted g.height srcQ)
    (hk : Sorted g.height sinkQ) (hne : srcQ ≠ []) :
    ∃ S K, S + K < MaxHeight g.height srcQ + MaxHeight g.height sinkQ ∧
      (∀ x ∈ (planWork g srcQ sinkQ).srcQ, g.height x ≤ S) ∧
      (∀ x ∈ (planWork g srcQ sinkQ).srcRefs ++ (planWork g srcQ sinkQ).comRefs,
        g.height x ≤ S + 1) ∧
      (∀ x ∈ (planWork g srcQ sinkQ).sinkQ, g.height x ≤ K) ∧
      (∀ x ∈ (planWork g srcQ sinkQ).sinkRefs ++ (planWork g srcQ sinkQ).comRefs,
        g.height x ≤ K + 1) := by
  have hpos : 0 < MaxHeight g.height srcQ := by
    cases srcQ with
    | nil => contradiction
    | cons r _ => exact hg.height_pos r
  have hsle : ∀ x ∈ srcQ, g.height x ≤ MaxHeight g.height srcQ := fun _ hx => hs.le_MaxHeight hx
  have hkle : ∀ x ∈ sinkQ, g.height x ≤ MaxHeight g.height sinkQ :=
    fun _ hx => hk.le_MaxHeight hx
  unfold planWork
  dsimp only
  split_ifs with hsrc hsink
  -- `srcQ` is taller: its top height is popped
  · refine ⟨MaxHeight g.height srcQ - 1, MaxHeight g.height sinkQ, by omega, ?_, ?_, hkle, ?_⟩
    · intro x hx
      have := hs.PopRefsOfHeight_snd_lt hx
      omega
    · intro x hx
      rw [List.append_nil] at hx
      have := hsle x (mem_PopRefsOfHeight.mpr (.inl hx))
      omega
    · simp
  -- `sinkQ` is taller
  · refine ⟨MaxHeight g.height srcQ, MaxHeight g.height sinkQ - 1, by omega, hsle, by simp, ?_, ?_⟩
    · intro x hx
      have := hk.PopRefsOfHeight_snd_lt hx
      omega
    · intro x hx
      rw [List.append_nil] at hx
      have := hkle x (mem_PopRefsOfHeight.mpr (.inl hx))
      omega
  -- one height: both tops are popped
  · obtain ⟨-, htall, hcom, hrest, hkept⟩ :=
      findCommon_spec g (MaxHeight g.height srcQ) srcQ sinkQ
    have hkept_le : ∀ y ∈ (findCommon g (MaxHeight g.height srcQ) srcQ sinkQ).shorterKept,
        g.height y ≤ MaxHeight g.height sinkQ := fun y hy => hkle y (hkept.subset hy)
    refine ⟨MaxHeight g.height srcQ - 1, MaxHeight g.height sinkQ - 1, by omega, ?_, ?_, ?_, ?_⟩
    · intro x hx
      rw [hrest] at hx
      have := hs.dropWhile_lt hsle hx
      omega
    · intro x hx
      rcases List.mem_append.mp hx with hx | hx
      · have := hsle x (htall x hx)
        omega
      · have := hkle x (hcom x hx)
        omega
    · intro x hx
      have hks : Sorted g.height (findCommon g (MaxHeight g.height srcQ) srcQ sinkQ).shorterKept :=
        hk.sublist hkept
      have := hks.dropWhile_lt hkept_le hx
      omega
    · intro x hx
      rcases List.mem_append.mp hx with hx | hx
      · have := hkept_le x (mem_PopRefsOfHeight.mpr (.inl hx))
        omega
      · have := hkle x (hcom x hx)
        omega

/-- Every turn lowers the sum of the queues' top heights. -/
theorem pullStep_lower (hg : g.HeightsOk) (hs : Sorted g.height srcQ)
    (hk : Sorted g.height sinkQ) (hne : srcQ ≠ []) :
    MaxHeight g.height (pullStep g sinkHas sinkHead srcQ sinkQ).1 +
        MaxHeight g.height (pullStep g sinkHas sinkHead srcQ sinkQ).2.1 <
      MaxHeight g.height srcQ + MaxHeight g.height sinkQ := by
  obtain ⟨S, K, hlt, hsQ, hsR, hkQ, hkR⟩ := planWork_bounds hg hs hk hne
  have hS : MaxHeight g.height (pullStep g sinkHas sinkHead srcQ sinkQ).1 ≤ S := by
    apply MaxHeight_le
    intro x hx
    rcases mem_pullStep_srcQ.mp hx with hx | ⟨q, hq, -, hxq⟩ | ⟨q, hq, -, hxq⟩
    · exact hsQ x hx
    · have := hg.height_lt hxq
      have := hsR q (List.mem_append_left _ hq)
      omega
    · have := hg.height_lt (mem_traverseCommon g hxq)
      have := hsR q (List.mem_append_right _ hq)
      omega
  have hK : MaxHeight g.height (pullStep g sinkHas sinkHead srcQ sinkQ).2.1 ≤ K := by
    apply MaxHeight_le
    intro x hx
    rcases mem_pullStep_sinkQ.mp hx with hx | ⟨q, hq, hxq⟩ | ⟨q, hq, hxq⟩
    · exact hkQ x hx
    · have := hg.height_lt (mem_traverseSink g hxq)
      have := hkR q (List.mem_append_left _ hq)
      omega
    · have := hg.height_lt (mem_traverseCommon g hxq)
      have := hkR q (List.mem_append_right _ hq)
      omega
  omega

end Turn

/-! ## The loop and `Pull` -/

/-- With more fuel than the queues' top heights add up to, the loop empties `srcQ`, and then
every chunk reachable from `sourceRef` is held or scheduled. -/
theorem pullLoop_complete (hg : g.HeightsOk) (hc : g.Closed sinkHas) {sourceRef sinkHead : H} :
    ∀ (fuel : Nat) (srcQ sinkQ scheduled : List H),
      PullInv g sinkHas sourceRef srcQ sinkQ scheduled →
      MaxHeight g.height srcQ + MaxHeight g.height sinkQ < fuel →
      ∃ scheduled', pullLoop g sinkHas sinkHead fuel srcQ sinkQ scheduled = some scheduled' ∧
        (∀ x, g.Reaches sourceRef x → sinkHas x = true ∨ x ∈ scheduled') ∧
        ∀ x ∈ scheduled', sinkHas x = false := by
  intro fuel
  induction fuel with
  | zero => intro _ _ _ _ hlt; omega
  | succ fuel ih =>
    intro srcQ sinkQ scheduled hinv hlt
    cases srcQ with
    | nil =>
      refine ⟨scheduled, rfl, fun x hx => ?_, hinv.scheduled_new⟩
      rcases hinv.covered x hx with h | h | ⟨_, hq, _⟩
      · exact .inl h
      · exact .inr h
      · cases hq
    | cons r srcQ =>
      have hdrop : MaxHeight g.height (pullStep g sinkHas sinkHead (r :: srcQ) sinkQ).1 +
          MaxHeight g.height (pullStep g sinkHas sinkHead (r :: srcQ) sinkQ).2.1 <
          MaxHeight g.height (r :: srcQ) + MaxHeight g.height sinkQ :=
        pullStep_lower hg hinv.src_sorted hinv.sink_sorted (List.cons_ne_nil r srcQ)
      exact ih _ _ _ (hinv.step hc) (by omega)

theorem pullStep_perm {sinkHead : H} {srcQ sinkQ srcPush sinkPush : List H}
    (hsrc : srcPush.Perm (pushes g sinkHas sinkHead (planWork g srcQ sinkQ)).1)
    (hsink : sinkPush.Perm (pushes g sinkHas sinkHead (planWork g srcQ sinkQ)).2) :
    Unique (sort g.height ((planWork g srcQ sinkQ).srcQ ++ srcPush)) =
        (pullStep g sinkHas sinkHead srcQ sinkQ).1 ∧
      Unique (sort g.height ((planWork g srcQ sinkQ).sinkQ ++ sinkPush)) =
        (pullStep g sinkHas sinkHead srcQ sinkQ).2.1 :=
  ⟨congrArg Types.RefByHeight.Unique (sort_eq_of_perm (hsrc.append_left _)),
    congrArg Types.RefByHeight.Unique (sort_eq_of_perm (hsink.append_left _))⟩

theorem Pull_complete (srcHas sinkHas : H → Bool) (sourceRef sinkHeadRef : H)
    (hg : g.HeightsOk) (hc : g.Closed sinkHas) (hhead : sinkHas sinkHeadRef = true) :
    (∀ srcQ sinkQ srcPush sinkPush : List H,
      srcPush.Perm (pushes g sinkHas sinkHeadRef (planWork g srcQ sinkQ)).1 →
      sinkPush.Perm (pushes g sinkHas sinkHeadRef (planWork g srcQ sinkQ)).2 →
      Unique (sort g.height ((planWork g srcQ sinkQ).srcQ ++ srcPush)) =
          (pullStep g sinkHas sinkHeadRef srcQ sinkQ).1 ∧
        Unique (sort g.height ((planWork g srcQ sinkQ).sinkQ ++ sinkPush)) =
          (pullStep g sinkHas sinkHeadRef srcQ sinkQ).2.1) ∧
    ∃ scheduled, Pull g sinkHas srcHas sourceRef sinkHeadRef = some scheduled ∧
      (∀ x, g.Reaches sourceRef x → sinkHas x = true ∨ x ∈ scheduled) ∧
      ∀ x ∈ scheduled, sinkHas x = false := by
  refine ⟨fun _ _ _ _ hsrc hsink => pullStep_perm g sinkHas hsrc hsink, ?_⟩
  unfold Pull
  by_cases hsrc : sinkHas sourceRef = true
  -- the sink holds the source already, and so all it reaches
  · rw [if_pos hsrc]
    exact ⟨[], rfl, fun x hx => .inl (hc.of_reaches hsrc hx), by simp⟩
  · rw [if_neg hsrc]
    have hinv : PullInv g sinkHas sourceRef [sourceRef]
        (if srcHas sinkHeadRef then [sinkHeadRef] else []) [] := by
      refine ⟨?_, by simp, fun x hx => .inr (.inr ⟨sourceRef, List.mem_singleton_self _, hx⟩),
        List.pairwise_singleton _ _, ?_⟩
      · intro r hr
        split_ifs at hr
        · rw [List.mem_singleton.mp hr]
          exact hhead
        · cases hr
      · split_ifs
        · exact List.pairwise_singleton _ _
        · exact List.Pairwise.nil
    have hsink : MaxHeight g.height (if srcHas sinkHeadRef then [sinkHeadRef] else []) ≤
        g.height sinkHeadRef := by
      split_ifs <;> simp [MaxHeight]
    have hsrcQ : MaxHeight g.height [sourceRef] = g.height sourceRef := rfl
    exact pullLoop_complete g sinkHas hg hc _ _ _ _ hinv (by omega)

/-- Chunk 2 holds a ref to chunk 1; chunk 0, the sink's head, holds none. -/
def sampleGraph : ChunkGraph Nat where
  height r := if r = 2 then 2 else 1
  refsOf r := if r = 2 then [1] else []
  isCommit _ := false
  parentsOf _ := []

theorem Pull_complete_sample :
    ∃ scheduled, Pull sampleGraph (· == 0) (fun _ => true) 2 0 = some scheduled ∧
      (∀ x, sampleGraph.Reaches 2 x → (x == 0) = true ∨ x ∈ scheduled) ∧
      ∀ x ∈ scheduled, (x == 0) = false :=
  (Pull_complete sampleGraph (fun _ => true) (· == 0) 2 0
    (fun r => by by_cases h : r = 2 <;> simp [sampleGraph, h])
    (fun r hr c hc => by
      rw [beq_iff_eq] at hr
      subst hr
      simp [sampleGraph] at hc)
    rfl).2

/-- Queues `[1, 3]` and `[3, 4]` of one height: `3` is common, `1` and `4` are their own queue's. -/
theorem planWork_partitions_tallest_sample :
    Sorted sampleGraph.height [1, 3] ∧ [1, 3].Nodup ∧ Sorted sampleGraph.height [3, 4] ∧
      [3, 4].Nodup ∧ planWork sampleGraph [1, 3] [3, 4] = ⟨[1], [4], [3], [], []⟩ := by
  have hs : Sorted sampleGraph.height [1, 3] := by
    unfold Sorted
    decide
  have hk : Sorted sampleGraph.height [3, 4] := by
    unfold Sorted
    decide
  have hsn : [1, 3].Nodup := by decide
  have hkn : [3, 4].Nodup := by decide
  refine ⟨hs, hsn, hk, hkn, ?_⟩
  rw [(planWork_partitions_tallest sampleGraph hs hsn hk hkn).2.2.1 1 rfl rfl]
  rfl

end Noms.Datas
