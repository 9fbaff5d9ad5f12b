import Noms.Types.CursorSeek
import Noms.Lib.CommonPrefix
import Mathlib

/-!
# Skipping the common run of two cursors (`doFastForward` in `ordered_sequences_diff.go`)

The diff of two ordered trees first moves two cursors past the entries they have in common.
`doFastForward` compares the items under the cursors; where the parents stand on tuples that point
to the same chunk it skips the rest of that chunk and the chunks after it that are shared,
recursing on the parents and resynchronising each cursor under its parent (`syncWithIdx`), and
elsewhere it advances both cursors by one item. Tuples compare by the hash of the chunk they
point to: the results assume that equal hashes mean equal chunks (`Function.Injective refHash`).

Every level is described through the tree's entries. A cursor of the loop is `Placed` at an entry:
on an item starting there while it has more, and once it has none at the tree's end, parked past
it or on the last item. The loop keeps the two cursors at the same height, consumes an agreeing
run of entries on both sides (`Agree`), and stops where one side has no more or the items differ
(`doFastForwardLoop_spec`). Skipping through equal parents is sound because an item is found at
one index only of a chunk whose entries are distinct (`idx_eq_of_isCurrentEqual`): the two
cursors stand at the same place of the same chunk. At the leaf level the run is the longest common
prefix of what follows the two positions (`doFastForward_skips_common_run`).
-/

namespace Noms.Types

open Sequence Noms.Lib

variable {K E H : Type}

section Model

variable [DecidableEq E] [DecidableEq H] (refHash : Sequence K E → H)

/-- `isCurrentEqual(a, b)`, which is `a.seq.getCompareFn(b.seq)(a.idx, b.idx)`: two entries
compare by equality (a map leaf compares keys and values with `Equals`), two tuples by the hash
of the chunk they point to (`ref.TargetHash()`). The type assertion panics on sequences of two
kinds, and the indexing on a position off either sequence. -/
def isCurrentEqual (a b : Frame K E) : Option Bool :=
  if 0 ≤ a.idx ∧ 0 ≤ b.idx then
    match a.seq, b.seq with
    | .leaf xs, .leaf ys => do
      let x ← xs[a.idx.toNat]?
      let y ← ys[b.idx.toNat]?
      pure (decide (x = y))
    | .metaSeq ts, .metaSeq us => do
      let t ← ts[a.idx.toNat]?
      let u ← us[b.idx.toNat]?
      pure (decide (refHash t.2.2 = refHash u.2.2))
    | _, _ => none
  else none

/-- `nil != a && nil != b && isCurrentEqual(a, b)`, as the loop of `doFastForward` asks it of the
parents. -/
def currentEqual (a b : List (Frame K E)) : Option Bool :=
  match a, b with
  | fa :: _, fb :: _ => isCurrentEqual refHash fa fb
  | _, _ => some false

/-- `a.valid() && b.valid()`, which `doFastForward` requires of its cursors. -/
def bothValid (a b : List (Frame K E)) : Bool :=
  match a, b with
  | fa :: _, fb :: _ => fa.valid && fb.valid
  | _, _ => false

/-- `syncWithIdx(cur, hasMore, allowPastEnd)`: `sync` loads the chunk under the parent's position
(and panics without a parent), and the cursor then stands on its first item, past its end, or on
its last item. -/
def syncWithIdx (cur : List (Frame K E)) (hasMore allowPastEnd : Bool) :
    Option (List (Frame K E)) :=
  match cur with
  | _ :: p :: ps => do
    let cs ← p.seq.childAt p.idx
    let idx : Int := if hasMore then 0 else if allowPastEnd then cs.seqLen else cs.seqLen - 1
    pure (⟨cs, idx⟩ :: p :: ps)
  | _ => none

/-- `a.advanceMaybeAllowPastEnd(allowPastEnd)` and then `b`'s, with what each returns. -/
def advanceBoth (allowPastEnd : Bool) (a b : List (Frame K E)) :
    Option (List (Frame K E) × List (Frame K E) × Bool × Bool) := do
  let (a', aHasMore) ← advanceMaybeAllowPastEnd a allowPastEnd
  let (b', bHasMore) ← advanceMaybeAllowPastEnd b allowPastEnd
  pure (a', b', aHasMore, bHasMore)

/-- The loop of `doFastForward(allowPastEnd, a, b)` from the flags `aHasMore` and `bHasMore`:
while both cursors have more and stand on equal items, skip whole chunks through equal parents
(`doFastForward(false, a.parent, b.parent)`, then `syncWithIdx` on each side), or else advance
both. The result is both cursors and both flags. Each turn takes one unit of fuel, and the call
on the parents runs on what is left. -/
def doFastForwardLoop : Nat → Bool → List (Frame K E) → List (Frame K E) → Bool → Bool →
    Option (List (Frame K E) × List (Frame K E) × Bool × Bool)
  | 0, _, _, _, _, _ => none
  | fuel + 1, allowPastEnd, a, b, aHasMore, bHasMore =>
    if aHasMore && bHasMore then
      match a, b with
      | fa :: pa, fb :: pb => do
        let equal ← isCurrentEqual refHash fa fb
        if equal then
          let parentsEqual ← currentEqual refHash pa pb
          if parentsEqual then
            if bothValid pa pb then
              let (pa', pb', aMore, bMore) ← doFastForwardLoop fuel false pa pb true true
              let a' ← syncWithIdx (fa :: pa') aMore allowPastEnd
              let b' ← syncWithIdx (fb :: pb') bMore allowPastEnd
              doFastForwardLoop fuel allowPastEnd a' b' aMore bMore
            else none
          else
            let (a', b', aMore, bMore) ← advanceBoth allowPastEnd (fa :: pa) (fb :: pb)
            doFastForwardLoop fuel allowPastEnd a' b' aMore bMore
        else pure (fa :: pa, fb :: pb, aHasMore, bHasMore)
      | _, _ => none
    else pure (a, b, aHasMore, bHasMore)

/-- `doFastForward(allowPastEnd, a, b)`: both cursors must be valid, and both start with more. -/
def doFastForward (fuel : Nat) (allowPastEnd : Bool) (a b : List (Frame K E)) :
    Option (List (Frame K E) × List (Frame K E) × Bool × Bool) :=
  if bothValid a b then doFastForwardLoop refHash fuel allowPastEnd a b true true else none

end Model

/-! ## The items under two cursors -/

theorem Sequence.Counted.isMeta_eq : ∀ {h : Nat} {s : Sequence K E}, Counted h s → s.isMeta = decide (0 < h)
  | 0, leaf _, _ => rfl
  | _ + 1, metaSeq _, _ => rfl

namespace ChunkPath

variable {root : Sequence K E} {fs : List (Frame K E)} {b : Nat}

/-- The entries of the tree around an entry of a leaf a path leads to. -/
theorem entries_leaf_item {xs : List E} {i : Nat} {x : E} (hp : ChunkPath root fs (.leaf xs) b)
    (hx : xs[i]? = some x) : ∃ pre post, entries root = pre ++ [x] ++ post ∧ pre.length = b + i := by
  obtain ⟨pre, post, heq, hlen⟩ := hp.entries_eq
  have hi : i < xs.length := (List.getElem?_eq_some_iff.mp hx).1
  have hsplit : xs = xs.take i ++ [x] ++ xs.drop (i + 1) := by
    rw [List.append_assoc, List.singleton_append, ← (List.getElem?_eq_some_iff.mp hx).2,
      List.getElem_cons_drop, List.take_append_drop]
  refine ⟨pre ++ xs.take i, xs.drop (i + 1) ++ post, ?_, ?_⟩
  · rw [heq, entries]
    conv_lhs => rw [hsplit]
    simp only [List.append_assoc]
  · simp [hlen, Nat.min_eq_left hi.le]

/-- The entries of the tree around the entries of a tuple of a meta sequence a path leads to. -/
theorem entries_meta_item {ts : List (K × Nat × Sequence K E)} {i : Nat}
    {t : K × Nat × Sequence K E} (hp : ChunkPath root fs (.metaSeq ts) b) (ht : ts[i]? = some t) :
    ∃ pre post, entries root = pre ++ entries t.2.2 ++ post ∧
      pre.length = b + (metaSeq ts).before i :=
  (ChunkPath.child hp ht).entries_eq

end ChunkPath

section Compare

variable [DecidableEq E] [DecidableEq H] {refHash : Sequence K E → H}

/-- What `isCurrentEqual` answers: both positions are on their sequences, which are two leaves
compared by their entries or two meta sequences compared by the hashes of the chunks. -/
theorem isCurrentEqual_cases {fa fb : Frame K E} {e : Bool}
    (h : isCurrentEqual refHash fa fb = some e) :
    0 ≤ fa.idx ∧ 0 ≤ fb.idx ∧
      ((∃ xs ys x y, fa.seq = .leaf xs ∧ fb.seq = .leaf ys ∧ xs[fa.idx.toNat]? = some x ∧
          ys[fb.idx.toNat]? = some y ∧ e = decide (x = y)) ∨
        (∃ ts us t u, fa.seq = .metaSeq ts ∧ fb.seq = .metaSeq us ∧ ts[fa.idx.toNat]? = some t ∧
          us[fb.idx.toNat]? = some u ∧ e = decide (refHash t.2.2 = refHash u.2.2))) := by
  obtain ⟨sa, ia⟩ := fa
  obtain ⟨sb, ib⟩ := fb
  unfold isCurrentEqual at h
  split_ifs at h with hidx
  refine ⟨hidx.1, hidx.2, ?_⟩
  cases sa <;> cases sb <;>
    simp only [Option.bind_eq_bind, Option.bind_eq_some_iff, Option.pure_def,
      Option.some.injEq, reduceCtorEq] at h
  · obtain ⟨x, hx, y, hy, rfl⟩ := h
    exact .inl ⟨_, _, x, y, rfl, rfl, hx, hy, rfl⟩
  · obtain ⟨t, ht, u, hu, rfl⟩ := h
    exact .inr ⟨_, _, t, u, rfl, rfl, ht, hu, rfl⟩

/-- Two cursors on items of sequences of one kind compare without panicking. -/
theorem isCurrentEqual_isSome {fa fb : Frame K E} (ha : 0 ≤ fa.idx ∧ fa.idx < fa.seq.seqLen)
    (hb : 0 ≤ fb.idx ∧ fb.idx < fb.seq.seqLen) (hkind : fa.seq.isMeta = fb.seq.isMeta) :
    ∃ e, isCurrentEqual refHash fa fb = some e := by
  obtain ⟨sa, ia⟩ := fa
  obtain ⟨sb, ib⟩ := fb
  dsimp only at ha hb hkind ⊢
  unfold isCurrentEqual
  rw [if_pos ⟨ha.1, hb.1⟩]
  cases sa with
  | leaf xs =>
    cases sb with
    | leaf ys =>
      simp only [seqLen] at ha hb
      simp only [List.getElem?_eq_getElem (show ia.toNat < xs.length by omega),
        List.getElem?_eq_getElem (show ib.toNat < ys.length by omega), Option.bind_eq_bind,
        Option.bind_some, Option.pure_def, Option.some.injEq, exists_eq']
    | metaSeq _ => simp [isMeta] at hkind
  | metaSeq ts =>
    cases sb with
    | leaf _ => simp [isMeta] at hkind
    | metaSeq us =>
      simp only [seqLen] at ha hb
      simp only [List.getElem?_eq_getElem (show ia.toNat < ts.length by omega),
        List.getElem?_eq_getElem (show ib.toNat < us.length by omega), Option.bind_eq_bind,
        Option.bind_some, Option.pure_def, Option.some.injEq, exists_eq']

end Compare

/-- The tuples of a meta sequence whose entries are distinct point to distinct chunks. -/
theorem Sequence.idx_eq_of_child_eq {ts : List (K × Nat × Sequence K E)}
    (hnodup : (entriesList ts).Nodup) (hne : ∀ t ∈ ts, entries t.2.2 ≠ []) {i j : Nat}
    {t u : K × Nat × Sequence K E} (ht : ts[i]? = some t) (hu : ts[j]? = some u)
    (htu : t.2.2 = u.2.2) : i = j := by
  -- the entries of a later tuple follow those of `t`, and share none with them
  have hlater : ∀ {i j : Nat} {t u : K × Nat × Sequence K E}, ts[i]? = some t → ts[j]? = some u →
      i < j → t.2.2 = u.2.2 → False := by
    intro i j t u ht hu hij htu
    have hmem : u ∈ ts.drop (i + 1) := List.mem_of_getElem? (i := j - (i + 1)) (by
      rw [List.getElem?_drop, show i + 1 + (j - (i + 1)) = j by omega]
      exact hu)
    obtain ⟨x, hx⟩ := List.exists_mem_of_ne_nil _ (hne t (List.mem_of_getElem? ht))
    have hxlater : x ∈ entriesList (ts.drop (i + 1)) :=
      (entries_sublist_of_mem hmem).subset (htu ▸ hx)
    rw [entriesList_eq_of_getElem? ht] at hnodup
    exact (List.nodup_append.mp hnodup).2.2 x (List.mem_append_right _ hx) x hxlater rfl
  rcases Nat.lt_trichotomy i j with hij | hij | hij
  · exact (hlater ht hu hij htu).elim
  · exact hij
  · exact (hlater hu ht hij htu.symm).elim

section Items

variable [DecidableEq E] [DecidableEq H] {refHash : Sequence K E → H} {A B : Sequence K E}
  {fa fb : Frame K E} {fs gs : List (Frame K E)} {bA bB : Nat}

/-- Equal items under two cursors cover agreeing runs of entries, as long on both sides. -/
theorem agree_of_isCurrentEqual (hinj : Function.Injective refHash)
    (ha : ChunkPath A fs fa.seq bA) (hb : ChunkPath B gs fb.seq bB)
    (h : isCurrentEqual refHash fa fb = some true) :
    ∃ len, fa.seq.before (fa.idx.toNat + 1) = fa.seq.before fa.idx.toNat + len ∧
      fb.seq.before (fb.idx.toNat + 1) = fb.seq.before fb.idx.toNat + len ∧
      Agree (entries A) (entries B) (bA + fa.seq.before fa.idx.toNat)
        (bB + fb.seq.before fb.idx.toNat) len := by
  obtain ⟨-, -, ⟨xs, ys, x, y, hxs, hys, hx, hy, hxy⟩ | ⟨ts, us, t, u, hts, hus, ht, hu, htu⟩⟩ :=
    isCurrentEqual_cases h
  · -- two equal entries
    obtain rfl : x = y := by simpa using hxy.symm
    rw [hxs] at ha ⊢
    rw [hys] at hb ⊢
    obtain ⟨preA, postA, hA, hlenA⟩ := ha.entries_leaf_item hx
    obtain ⟨preB, postB, hB, hlenB⟩ := hb.entries_leaf_item hy
    refine ⟨1, rfl, rfl, ?_⟩
    have hagree := agree_of_infix hA hB
    rwa [hlenA, hlenB] at hagree
  · -- two tuples pointing to one chunk
    have hchild : t.2.2 = u.2.2 := hinj (by simpa using htu.symm)
    rw [hts] at ha ⊢
    rw [hus] at hb ⊢
    obtain ⟨preA, postA, hA, hlenA⟩ := ha.entries_meta_item ht
    obtain ⟨preB, postB, hB, hlenB⟩ := hb.entries_meta_item hu
    rw [← hchild] at hB
    refine ⟨(entries t.2.2).length, before_succ ht, by rw [before_succ hu, hchild], ?_⟩
    have hagree := agree_of_infix hA hB
    rwa [hlenA, hlenB] at hagree

/-- Two cursors on different entries stand where the entries of the trees differ. -/
theorem getElem?_ne_of_isCurrentEqual (ha : ChunkPath A fs fa.seq bA)
    (hb : ChunkPath B gs fb.seq bB) (hleaf : fa.seq.isMeta = false)
    (h : isCurrentEqual refHash fa fb = some false) :
    (entries A)[bA + fa.seq.before fa.idx.toNat]? ≠ (entries B)[bB + fb.seq.before fb.idx.toNat]? := by
  obtain ⟨-, -, ⟨xs, ys, x, y, hxs, hys, hx, hy, hxy⟩ | ⟨ts, -, -, -, hts, -⟩⟩ :=
    isCurrentEqual_cases h
  · rw [hxs] at ha ⊢
    rw [hys] at hb ⊢
    obtain ⟨preA, postA, hA, hlenA⟩ := ha.entries_leaf_item hx
    obtain ⟨preB, postB, hB, hlenB⟩ := hb.entries_leaf_item hy
    simp only [before]
    rw [hA, hB, ← hlenA, ← hlenB]
    simpa using hxy
  · rw [hts] at hleaf
    exact absurd hleaf (by simp [isMeta])

/-- A chunk of a tree whose entries are distinct holds each item at one index only: two cursors on
that chunk standing on equal items stand at the same index. -/
theorem idx_eq_of_isCurrentEqual (hinj : Function.Injective refHash) {d : Nat} (hA : Counted d A)
    (hnodup : (entries A).Nodup) {s : Sequence K E} (hp : ChunkPath A fs s bA) (ha : fa.seq = s)
    (hb : fb.seq = s) (h : isCurrentEqual refHash fa fb = some true) : fa.idx = fb.idx := by
  obtain ⟨pre, post, heq, -⟩ := hp.entries_eq
  have hs : (entries s).Nodup := by
    rw [heq] at hnodup
    exact hnodup.sublist (List.infix_append pre (entries s) post).sublist
  obtain ⟨h0a, h0b, ⟨xs, ys, x, y, hxs, hys, hx, hy, hxy⟩ | ⟨ts, us, t, u, hts, hus, ht, hu, htu⟩⟩ :=
    isCurrentEqual_cases h
  · -- one leaf: equal entries sit at one index
    rw [ha] at hxs
    rw [hb, hxs] at hys
    cases hys
    obtain rfl : x = y := by simpa using hxy.symm
    rw [hxs] at hs
    obtain ⟨hia, hxa⟩ := List.getElem?_eq_some_iff.mp hx
    obtain ⟨hib, hxb⟩ := List.getElem?_eq_some_iff.mp hy
    have hidx := (List.Nodup.getElem_inj_iff hs).mp (hxa.trans hxb.symm)
    omega
  · -- one meta sequence: tuples pointing to one chunk sit at one index
    rw [ha] at hts
    rw [hb, hts] at hus
    cases hus
    rw [hts] at hs hp
    have hc := (hp.counted hA).2
    obtain ⟨k, hk⟩ : ∃ k, d - fs.length = k + 1 := by
      cases h' : d - fs.length with
      | zero => rw [h'] at hc; exact absurd hc id
      | succ k => exact ⟨k, rfl⟩
    rw [hk] at hc
    have hne : ∀ t ∈ ts, entries t.2.2 ≠ [] := fun t ht =>
      (hc.child ht).1.entries_ne_nil (hc.child ht).2.1
    have hidx := idx_eq_of_child_eq hs hne ht hu (hinj (by simpa using htu.symm))
    omega

end Items

/-! ## Steps that do not read `allowPastEnd` -/

section Advance

/-- A step of `advanceMaybeAllowPastEnd` that moves on does not read `allowPastEnd`. -/
theorem advance_allow_of_true :
    ∀ {cur cur' : List (Frame K E)}, advanceMaybeAllowPastEnd cur false = some (cur', true) →
      ∀ allow, advanceMaybeAllowPastEnd cur allow = some (cur', true)
  | [], _, h, _ => by simp [advanceMaybeAllowPastEnd] at h
  | f :: fs, cur', h, allow => by
    unfold advanceMaybeAllowPastEnd at h ⊢
    split_ifs at h ⊢ with h1 h2
    · exact h
    · simp at h
    -- at the end of the chunk only the parent's step decides, and it does not read the flag
    all_goals
      cases fs with
      | nil => simp at h
      | cons p ps =>
        simp only at h ⊢
        split at h <;> simp_all

/-- A step of `advanceMaybeAllowPastEnd` without `allowPastEnd` that finds nothing after the item
keeps the cursor; with `allowPastEnd` it steps past the chunk's end instead. -/
theorem advance_allow_of_false {f : Frame K E} {fs fs' : List (Frame K E)}
    (h : advanceMaybeAllowPastEnd (f :: fs) false = some (f :: fs', false))
    (hne : f.idx ≠ f.seq.seqLen) :
    advanceMaybeAllowPastEnd (f :: fs) true = some (⟨f.seq, f.idx + 1⟩ :: fs', false) := by
  by_cases h1 : f.idx < (f.seq.seqLen : Int) - 1
  · rw [advance_within h1] at h
    simp at h
  · unfold advanceMaybeAllowPastEnd at h ⊢
    rw [if_neg h1, if_neg hne] at h ⊢
    cases fs with
    | nil => simp_all
    | cons p ps =>
      simp only [Bool.false_eq_true, ↓reduceIte] at h ⊢
      split at h <;> simp_all [Option.bind_eq_some_iff]

end Advance

/-! ## Where the cursors of the loop stand -/

/-- Where a cursor of the loop of `doFastForward` stands once the entries before `g` are consumed:
while it has more, on an item that starts at `g`; once it has none, `g` is the tree's end and the
cursor is parked past its chunk's end (with `allowPastEnd`) or on the tree's last item. -/
def Placed (root : Sequence K E) : Bool → List (Frame K E) → Bool → Nat → Prop
  | _, [], _, _ => False
  | _, f :: fs, true, g => ∃ b, Stand root (f :: fs) b ∧ g = b + f.seq.before f.idx.toNat
  | true, f :: fs, false, g => g = (entries root).length ∧
      ∃ b, ChunkPath root fs f.seq b ∧ f.idx = f.seq.seqLen ∧ g = b + (entries f.seq).length
  | false, f :: fs, false, g => g = (entries root).length ∧
      ∃ b, Stand root (f :: fs) b ∧ g = b + f.seq.before (f.idx.toNat + 1)

/-- The item the cursor `a` stands on ends by entry `g`. -/
def EndsBy (root : Sequence K E) (a : List (Frame K E)) (g : Nat) : Prop :=
  ∀ f fs b, a = f :: fs → ChunkPath root fs f.seq b → b + f.seq.before (f.idx.toNat + 1) ≤ g

section Placed

variable {d : Nat} {root : Sequence K E}

/-- A path from the root determines the chunk it leads to and the entries before it. -/
theorem ChunkPath.unique {fs : List (Frame K E)} {s s' : Sequence K E} {b b' : Nat}
    (h : ChunkPath root fs s b) (h' : ChunkPath root fs s' b') : s = s' ∧ b = b' := by
  induction h generalizing s' b' with
  | root =>
    obtain ⟨rfl, rfl⟩ := h'.nil_inv
    exact ⟨rfl, rfl⟩
  | @child fs tuples b i t hp ht ih =>
    obtain ⟨tuples', i', t', b₀', hframe, hp', ht', rfl, rfl⟩ := h'.cons_inv
    simp only [Frame.mk.injEq, Sequence.metaSeq.injEq] at hframe
    obtain ⟨rfl, hi⟩ := hframe
    obtain rfl : i = i' := by exact_mod_cast hi
    obtain ⟨-, rfl⟩ := ih hp'
    rw [ht, Option.some.injEq] at ht'
    subst ht'
    exact ⟨rfl, rfl⟩

variable {f : Frame K E} {fs : List (Frame K E)} {b : Nat}

theorem Stand.start_lt (hroot : Counted d root) (hst : Stand root (f :: fs) b) :
    b + f.seq.before f.idx.toNat < (entries root).length := by
  obtain ⟨hp, h0, hlt⟩ := hst
  have hbefore := (hp.counted hroot).2.before_lt (i := f.idx.toNat) (by omega)
  have hend := hp.end_le
  omega

theorem Stand.start_lt_end (hroot : Counted d root) (hst : Stand root (f :: fs) b) :
    f.seq.before f.idx.toNat < f.seq.before (f.idx.toNat + 1) := by
  obtain ⟨hp, h0, hlt⟩ := hst
  exact (hp.counted hroot).2.before_lt_succ (by omega)

theorem Stand.before_succ_le (hst : Stand root (f :: fs) b) :
    f.seq.before (f.idx.toNat + 1) ≤ (entries f.seq).length := by
  obtain ⟨-, h0, hlt⟩ := hst
  rw [← before_seqLen]
  exact f.seq.before_mono (by omega)

theorem Stand.end_le (hst : Stand root (f :: fs) b) :
    b + f.seq.before (f.idx.toNat + 1) ≤ (entries root).length := by
  have hle := hst.before_succ_le
  have hend := hst.1.end_le
  omega

/-- The item a cursor stands on ends where it ends, whichever path is read. -/
theorem Stand.endsBy {g : Nat} (hst : Stand root (f :: fs) b)
    (hg : b + f.seq.before (f.idx.toNat + 1) ≤ g) : EndsBy root (f :: fs) g := by
  intro f' fs' b' heq hp'
  obtain ⟨rfl, rfl⟩ := List.cons.inj heq
  obtain ⟨-, rfl⟩ := hst.1.unique hp'
  exact hg

/-- One step of `advanceMaybeAllowPastEnd` from an item places the cursor where the item ends. -/
theorem advance_placed (hroot : Counted d root) (hst : Stand root (f :: fs) b) (allow : Bool) :
    ∃ a' more, advanceMaybeAllowPastEnd (f :: fs) allow = some (a', more) ∧
      Placed root allow a' more (b + f.seq.before (f.idx.toNat + 1)) ∧
      a'.length = fs.length + 1 := by
  obtain ⟨hstay, hmove⟩ := advance_level hroot hst
  rcases Nat.lt_or_eq_of_le hst.end_le with hlt | heq
  · obtain ⟨f', fs', b', hadv, hlen, hst', hoff⟩ := hmove hlt
    exact ⟨f' :: fs', true, advance_allow_of_true hadv allow, ⟨b', hst', hoff.symm⟩,
      by simp [hlen]⟩
  · have hadv := hstay heq
    obtain ⟨hp, h0, hlt⟩ := hst
    cases allow with
    | false => exact ⟨f :: fs, false, hadv, ⟨heq, b, ⟨hp, h0, hlt⟩, rfl⟩, rfl⟩
    | true =>
      -- the tree ends with the item, so the item ends its chunk
      have hlast : f.idx + 1 = f.seq.seqLen := by
        by_contra hne
        have hbefore := (hp.counted hroot).2.before_lt (i := f.idx.toNat + 1) (by omega)
        have hend := hp.end_le
        omega
      have hidx : f.idx.toNat + 1 = f.seq.seqLen := by omega
      refine ⟨⟨f.seq, f.idx + 1⟩ :: fs, false, advance_allow_of_false hadv (by omega),
        ⟨heq, b, hp, hlast, ?_⟩, rfl⟩
      show b + f.seq.before (f.idx.toNat + 1) = b + (entries f.seq).length
      rw [hidx, before_seqLen]

/-- `syncWithIdx` under a parent placed at `g` places the cursor at `g` in the chunk below. -/
theorem syncWithIdx_placed (hroot : Counted d root) {p : Frame K E} {ps : List (Frame K E)}
    {more : Bool} {g : Nat} (hp : Placed root false (p :: ps) more g) (hlev : ps.length < d)
    (allow : Bool) :
    ∃ a', syncWithIdx (f :: p :: ps) more allow = some a' ∧ Placed root allow a' more g ∧
      a'.length = ps.length + 2 := by
  cases more with
  | true =>
    obtain ⟨b, hst, rfl⟩ := hp
    obtain ⟨cs, hcs, hpath, hpos, -⟩ := Stand.child hroot hst hlev
    exact ⟨⟨cs, 0⟩ :: p :: ps, by simp [syncWithIdx, hcs],
      ⟨_, ⟨hpath, by dsimp only; omega, by dsimp only; omega⟩, by simp⟩, rfl⟩
  | false =>
    obtain ⟨hn, b, hst, hg⟩ := hp
    obtain ⟨cs, hcs, hpath, hpos, hsucc⟩ := Stand.child hroot hst hlev
    cases allow with
    | true =>
      exact ⟨⟨cs, cs.seqLen⟩ :: p :: ps, by simp [syncWithIdx, hcs],
        ⟨hn, _, hpath, rfl, by dsimp only; omega⟩, rfl⟩
    | false =>
      have hidx : ((cs.seqLen : Int) - 1).toNat + 1 = cs.seqLen := by omega
      refine ⟨⟨cs, cs.seqLen - 1⟩ :: p :: ps, by simp [syncWithIdx, hcs],
        ⟨hn, _, ⟨hpath, by dsimp only; omega, by dsimp only; omega⟩, ?_⟩, rfl⟩
      dsimp only
      rw [hidx, before_seqLen]
      omega

theorem Placed.cons {root : Sequence K E} {allow more : Bool} {a : List (Frame K E)} {g : Nat}
    (h : Placed root allow a more g) : ∃ f fs, a = f :: fs := by
  cases a with
  | nil => cases allow <;> cases more <;> exact absurd h id
  | cons f fs => exact ⟨f, fs, rfl⟩

theorem Stand.valid {root : Sequence K E} {f : Frame K E} {fs : List (Frame K E)} {b : Nat}
    (h : Stand root (f :: fs) b) : f.valid = true := by
  obtain ⟨-, h0, hlt⟩ := h
  simp [Frame.valid, h0, hlt]

end Placed

/-! ## The turns of the loop -/

section Equations

variable [DecidableEq E] [DecidableEq H] {refHash : Sequence K E → H} {fuel : Nat} {allow : Bool}
  {fa fb : Frame K E} {pa pb : List (Frame K E)}

theorem doFastForwardLoop_stop {a b : List (Frame K E)} {aMore bMore : Bool}
    (h : (aMore && bMore) = false) :
    doFastForwardLoop refHash (fuel + 1) allow a b aMore bMore = some (a, b, aMore, bMore) := by
  simp [doFastForwardLoop, h]

theorem doFastForwardLoop_differ (h : isCurrentEqual refHash fa fb = some false) :
    doFastForwardLoop refHash (fuel + 1) allow (fa :: pa) (fb :: pb) true true =
      some (fa :: pa, fb :: pb, true, true) := by
  simp [doFastForwardLoop, h]

theorem doFastForwardLoop_skip {pa' pb' a' b' : List (Frame K E)} {aMore bMore : Bool}
    (h : isCurrentEqual refHash fa fb = some true) (hp : currentEqual refHash pa pb = some true)
    (hvalid : bothValid pa pb = true)
    (hparents : doFastForwardLoop refHash fuel false pa pb true true = some (pa', pb', aMore, bMore))
    (ha : syncWithIdx (fa :: pa') aMore allow = some a')
    (hb : syncWithIdx (fb :: pb') bMore allow = some b') :
    doFastForwardLoop refHash (fuel + 1) allow (fa :: pa) (fb :: pb) true true =
      doFastForwardLoop refHash fuel allow a' b' aMore bMore := by
  simp [doFastForwardLoop, h, hp, hvalid, hparents, ha, hb]

theorem doFastForwardLoop_advance {a' b' : List (Frame K E)} {aMore bMore : Bool}
    (h : isCurrentEqual refHash fa fb = some true) (hp : currentEqual refHash pa pb = some false)
    (hadv : advanceBoth allow (fa :: pa) (fb :: pb) = some (a', b', aMore, bMore)) :
    doFastForwardLoop refHash (fuel + 1) allow (fa :: pa) (fb :: pb) true true =
      doFastForwardLoop refHash fuel allow a' b' aMore bMore := by
  simp [doFastForwardLoop, h, hp, hadv]

end Equations

/-! ## Two cursors at one height -/

section Height

variable [DecidableEq E] [DecidableEq H] {refHash : Sequence K E → H} {dA dB : Nat}
  {A B : Sequence K E}

/-- Two cursors on items at one height of two counted trees compare without panicking. -/
theorem isCurrentEqual_of_stand (hA : Counted dA A) (hB : Counted dB B) {fa fb : Frame K E}
    {fs gs : List (Frame K E)} {bA bB : Nat} (hsa : Stand A (fa :: fs) bA)
    (hsb : Stand B (fb :: gs) bB) (hlen : fs.length + dB = gs.length + dA) :
    ∃ e, isCurrentEqual refHash fa fb = some e := by
  obtain ⟨hpa, h0a, hlta⟩ := hsa
  obtain ⟨hpb, h0b, hltb⟩ := hsb
  obtain ⟨hla, hca⟩ := hpa.counted hA
  obtain ⟨hlb, hcb⟩ := hpb.counted hB
  have hheight : dA - fs.length = dB - gs.length := by omega
  refine isCurrentEqual_isSome ⟨h0a, hlta⟩ ⟨h0b, hltb⟩ ?_
  rw [hca.isMeta_eq, hcb.isMeta_eq, hheight]

/-- The parents of two cursors at one height compare without panicking. -/
theorem currentEqual_isSome (hA : Counted dA A) (hB : Counted dB B) {pa pb : List (Frame K E)}
    {s t : Sequence K E} {bA bB : Nat} (hpa : ChunkPath A pa s bA) (hpb : ChunkPath B pb t bB)
    (hlen : pa.length + dB = pb.length + dA) : ∃ e, currentEqual refHash pa pb = some e := by
  cases pa with
  | nil => exact ⟨false, by cases pb <;> rfl⟩
  | cons qa pa₀ =>
    cases pb with
    | nil => exact ⟨false, rfl⟩
    | cons qb pb₀ =>
      obtain ⟨b₀, hsa, -⟩ := hpa.stand_parent
      obtain ⟨b₀', hsb, -⟩ := hpb.stand_parent
      simp only [List.length_cons] at hlen
      exact isCurrentEqual_of_stand hA hB hsa hsb (by omega)

/-- Parents that compare equal are both there, and their items compare equal. -/
theorem currentEqual_cons {pa pb : List (Frame K E)} (h : currentEqual refHash pa pb = some true) :
    ∃ qa pa₀ qb pb₀, pa = qa :: pa₀ ∧ pb = qb :: pb₀ ∧ isCurrentEqual refHash qa qb = some true := by
  cases pa with
  | nil => cases pb <;> exact absurd h (by simp [currentEqual])
  | cons qa pa₀ =>
    cases pb with
    | nil => exact absurd h (by simp [currentEqual])
    | cons qb pb₀ => exact ⟨qa, pa₀, qb, pb₀, rfl, rfl, h⟩

/-- Parents standing on tuples that point to one chunk have that chunk below them. -/
theorem seq_eq_of_currentEqual (hinj : Function.Injective refHash) {pa pb : List (Frame K E)}
    {s t : Sequence K E} {bA bB : Nat} (hpa : ChunkPath A pa s bA) (hpb : ChunkPath B pb t bB)
    (h : currentEqual refHash pa pb = some true) : s = t := by
  obtain ⟨qa, pa₀, qb, pb₀, rfl, rfl, h⟩ := currentEqual_cons h
  obtain ⟨ts, i, t₁, -, rfl, -, ht₁, rfl, -⟩ := hpa.cons_inv
  obtain ⟨us, j, u₁, -, rfl, -, hu₁, rfl, -⟩ := hpb.cons_inv
  obtain ⟨-, -, ⟨xs, -, -, -, hxs, -⟩ | ⟨ts', us', t, u, hts, hus, ht, hu, htu⟩⟩ :=
    isCurrentEqual_cases h
  · exact absurd hxs (by simp)
  · simp only [Sequence.metaSeq.injEq] at hts hus
    subst hts hus
    simp only [Int.toNat_natCast] at ht hu
    rw [ht₁, Option.some.injEq] at ht
    rw [hu₁, Option.some.injEq] at hu
    subst ht hu
    exact hinj (by simpa using htu.symm)

end Height

/-! ## What the loop keeps -/

/-- A bound on the turns of the loop of `doFastForward` over a tree of `n` entries, from the
cursor `a` at entry `g`: the entries left while both cursors have more, and a pass over all the
entries for each level above `a`'s. -/
def loopWork (n : Nat) (a : List (Frame K E)) (more : Bool) (g : Nat) : Nat :=
  (if more then n - g else 0) + (a.length - 1) * (n + 1)

section Invariant

variable [DecidableEq E] [DecidableEq H] (refHash : Sequence K E → H)

/-- Where the loop of `doFastForward` stops: one cursor has no more, or their items differ. -/
def Stopped (a b : List (Frame K E)) (aMore bMore : Bool) : Prop :=
  aMore = false ∨ bMore = false ∨ currentEqual refHash a b = some false

/-- What the loop of `doFastForward` answers from the cursors `a` and `b`, placed `k` entries past
`i` and `j`: cursors placed `k'` entries past them, no fewer, behind which the trees agree, on
chains as long as before, and stopped; when the loop started on two equal items it has passed
`a`'s. -/
structure LoopResult (A B : Sequence K E) (allow : Bool) (i j k : Nat) (a b : List (Frame K E))
    (aMore bMore : Bool) (r : List (Frame K E) × List (Frame K E) × Bool × Bool) (k' : Nat) :
    Prop where
  le : k ≤ k'
  placedA : Placed A allow r.1 r.2.2.1 (i + k')
  placedB : Placed B allow r.2.1 r.2.2.2 (j + k')
  agree : Agree (entries A) (entries B) i j k'
  lengthA : r.1.length = a.length
  lengthB : r.2.1.length = b.length
  stopped : Stopped refHash r.1 r.2.1 r.2.2.1 r.2.2.2
  passed : aMore = true → bMore = true → currentEqual refHash a b = some true → EndsBy A a (i + k')

/-- The loop of `doFastForward` on `fuel` answers from any two cursors placed at one height of
`A` and `B`, behind which the trees agree, when the fuel covers the work left. -/
def LoopSpec (dA dB : Nat) (A B : Sequence K E) (fuel : Nat) : Prop :=
  ∀ (allow : Bool) {a b : List (Frame K E)} {aMore bMore : Bool} {i j k : Nat},
    Placed A allow a aMore (i + k) → Placed B allow b bMore (j + k) →
    a.length + dB = b.length + dA → Agree (entries A) (entries B) i j k →
    loopWork (entries A).length a (aMore && bMore) (i + k) < fuel →
    ∃ r k', doFastForwardLoop refHash fuel allow a b aMore bMore = some r ∧
      LoopResult refHash A B allow i j k a b aMore bMore r k'

variable {refHash} {A B : Sequence K E} {allow : Bool} {i j k : Nat} {a b : List (Frame K E)}
  {aMore bMore : Bool}

/-- The loop answers at once where it stops. -/
theorem LoopResult.of_stop (ha : Placed A allow a aMore (i + k))
    (hb : Placed B allow b bMore (j + k)) (hagree : Agree (entries A) (entries B) i j k)
    (hstop : Stopped refHash a b aMore bMore)
    (hon : aMore = true → bMore = true → currentEqual refHash a b ≠ some true) :
    LoopResult refHash A B allow i j k a b aMore bMore (a, b, aMore, bMore) k :=
  ⟨le_refl k, ha, hb, hagree, rfl, rfl, hstop, fun h1 h2 h => absurd h (hon h1 h2)⟩

/-- A turn over two equal items that places the cursors `kmid` entries on, past `a`'s item,
answers what the loop answers from there. -/
theorem LoopResult.of_next {kmid k' : Nat} {a' b' : List (Frame K E)} {aMore' bMore' : Bool}
    {r : List (Frame K E) × List (Frame K E) × Bool × Bool}
    (hres : LoopResult refHash A B allow i j kmid a' b' aMore' bMore' r k') (hk : k ≤ kmid)
    (hlenA : a'.length = a.length) (hlenB : b'.length = b.length)
    (hend : EndsBy A a (i + kmid)) : LoopResult refHash A B allow i j k a b true true r k' := by
  refine ⟨le_trans hk hres.le, hres.placedA, hres.placedB, hres.agree,
    hres.lengthA.trans hlenA, hres.lengthB.trans hlenB, hres.stopped, fun _ _ _ => ?_⟩
  intro f fs b' heq hp
  exact le_trans (hend f fs b' heq hp) (by have := hres.le; omega)

end Invariant

/-! ## One turn of the loop -/

section Turn

variable [DecidableEq E] [DecidableEq H] {refHash : Sequence K E → H} {dA dB : Nat}
  {A B : Sequence K E} {fuel : Nat} {allow : Bool} {fa fb : Frame K E} {pa pb : List (Frame K E)}
  {i j k bA bB : Nat}

/-- A turn that advances both cursors over two equal items of `len` entries each. -/
theorem loop_advance_step (hA : Counted dA A) (hB : Counted dB B)
    (ih : LoopSpec refHash dA dB A B fuel) (hsa : Stand A (fa :: pa) bA)
    (hsb : Stand B (fb :: pb) bB) (hga : i + k = bA + fa.seq.before fa.idx.toNat)
    (hgb : j + k = bB + fb.seq.before fb.idx.toNat) {len : Nat}
    (hlenA : fa.seq.before (fa.idx.toNat + 1) = fa.seq.before fa.idx.toNat + len)
    (hlenB : fb.seq.before (fb.idx.toNat + 1) = fb.seq.before fb.idx.toNat + len)
    (hagree : Agree (entries A) (entries B) i j (k + len))
    (hheight : (fa :: pa).length + dB = (fb :: pb).length + dA)
    (hfuel : loopWork (entries A).length (fa :: pa) true (i + k) < fuel + 1) :
    ∃ a' b' aMore bMore, advanceBoth allow (fa :: pa) (fb :: pb) = some (a', b', aMore, bMore) ∧
      ∃ r k', doFastForwardLoop refHash fuel allow a' b' aMore bMore = some r ∧
        LoopResult refHash A B allow i j k (fa :: pa) (fb :: pb) true true r k' := by
  obtain ⟨a', aMore, hadvA, hplA, hlA⟩ := advance_placed hA hsa allow
  obtain ⟨b', bMore, hadvB, hplB, hlB⟩ := advance_placed hB hsb allow
  have hposA : i + (k + len) = bA + fa.seq.before (fa.idx.toNat + 1) := by omega
  have hposB : j + (k + len) = bB + fb.seq.before (fb.idx.toNat + 1) := by omega
  -- the item has entries, so the work left shrinks
  have hstart := hsa.start_lt hA
  have hgrow := hsa.start_lt_end hA
  have hfuel' : loopWork (entries A).length a' (aMore && bMore) (i + (k + len)) < fuel := by
    simp only [loopWork, hlA, List.length_cons, ↓reduceIte] at hfuel ⊢
    split <;> omega
  rw [← hposA] at hplA
  rw [← hposB] at hplB
  obtain ⟨r, k', hloop, hres⟩ :=
    ih allow hplA hplB (by simp only [hlA, hlB, List.length_cons] at hheight ⊢; omega) hagree hfuel'
  refine ⟨a', b', aMore, bMore, by simp [advanceBoth, hadvA, hadvB], r, k', hloop,
    hres.of_next (by omega) (by simp [hlA]) (by simp [hlB]) (hsa.endsBy (by omega))⟩

/-- A turn that skips through two parents standing on tuples that point to one chunk: the two
cursors stand at one index of that chunk, the parents skip the chunks the trees share, and each
cursor is resynchronised under its parent. -/
theorem loop_skip_step (hinj : Function.Injective refHash) (hA : Counted dA A)
    (hB : Counted dB B) (hnA : (entries A).Nodup) (ih : LoopSpec refHash dA dB A B fuel)
    (hsa : Stand A (fa :: pa) bA) (hsb : Stand B (fb :: pb) bB)
    (hga : i + k = bA + fa.seq.before fa.idx.toNat) (hgb : j + k = bB + fb.seq.before fb.idx.toNat)
    (he : isCurrentEqual refHash fa fb = some true) (hpe : currentEqual refHash pa pb = some true)
    (hagree : Agree (entries A) (entries B) i j k)
    (hheight : (fa :: pa).length + dB = (fb :: pb).length + dA)
    (hfuel : loopWork (entries A).length (fa :: pa) true (i + k) < fuel + 1) :
    ∃ r k', doFastForwardLoop refHash (fuel + 1) allow (fa :: pa) (fb :: pb) true true = some r ∧
      LoopResult refHash A B allow i j k (fa :: pa) (fb :: pb) true true r k' := by
  -- both cursors stand at one index of one chunk
  have hseq : fa.seq = fb.seq := seq_eq_of_currentEqual hinj hsa.1 hsb.1 hpe
  have hidx : fa.idx = fb.idx := idx_eq_of_isCurrentEqual hinj hA hnA hsa.1 rfl hseq.symm he
  have hgb' : j + k = bB + fa.seq.before fa.idx.toNat := by rw [hgb, hseq, hidx]
  obtain ⟨qa, pa₀, qb, pb₀, rfl, rfl, -⟩ := currentEqual_cons hpe
  obtain ⟨b₀, hsqa, hsuccA, hbA⟩ := hsa.1.stand_parent
  obtain ⟨b₀', hsqb, -, hbB⟩ := hsb.1.stand_parent
  have hvalid : bothValid (qa :: pa₀) (qb :: pb₀) = true := by
    simp [bothValid, hsqa.valid, hsqb.valid]
  have hlevA : pa₀.length < dA := by
    have := (hsa.1.counted hA).1
    simp only [List.length_cons] at this
    omega
  have hlevB : pb₀.length < dB := by
    have := (hsb.1.counted hB).1
    simp only [List.length_cons] at this
    omega
  -- the parents skip the chunks the two trees share, from the chunk under them
  have hstart := hsa.start_lt hA
  have hgrow := hsa.start_lt_end hA
  have hchunk := hsa.before_succ_le
  have hendA := hsa.1.end_le
  have hendB := hsb.1.end_le
  have hfuel₀ : loopWork (entries A).length (qa :: pa₀) (true && true) (bA + 0) < fuel := by
    simp only [loopWork, List.length_cons, Bool.and_self, ↓reduceIte, Nat.add_sub_cancel,
      Nat.add_zero] at hfuel ⊢
    rw [Nat.succ_mul] at hfuel
    omega
  obtain ⟨⟨pa', pb', aMore, bMore⟩, kp, hloop₀, hres₀⟩ :=
    ih false (i := bA) (j := bB) (k := 0)
      (show Placed A false (qa :: pa₀) true (bA + 0) from ⟨b₀, hsqa, by omega⟩)
      (show Placed B false (qb :: pb₀) true (bB + 0) from ⟨b₀', hsqb, by omega⟩)
      (by simp only [List.length_cons] at hheight ⊢; omega) (agree_zero (by omega) (by omega))
      hfuel₀
  -- they pass the tuple above the cursors' chunk
  have hpassed := hres₀.passed rfl rfl hpe qa pa₀ b₀ rfl hsqa.1
  have hkp : (entries fa.seq).length ≤ kp := by omega
  -- resynchronise each cursor under its parent
  obtain ⟨p', ps', rfl⟩ := hres₀.placedA.cons
  obtain ⟨q', qs', rfl⟩ := hres₀.placedB.cons
  have hlA₀ := hres₀.lengthA
  have hlB₀ := hres₀.lengthB
  simp only [List.length_cons, Nat.add_right_cancel_iff] at hlA₀ hlB₀
  obtain ⟨a', hsyncA, hplA, hlA⟩ :=
    syncWithIdx_placed (f := fa) hA hres₀.placedA (by omega) allow
  obtain ⟨b', hsyncB, hplB, hlB⟩ :=
    syncWithIdx_placed (f := fb) hB hres₀.placedB (by omega) allow
  -- and go on from the entries the parents reached
  have hposA : i + (k + (kp - fa.seq.before fa.idx.toNat)) = bA + kp := by omega
  have hposB : j + (k + (kp - fa.seq.before fa.idx.toNat)) = bB + kp := by omega
  rw [← hposA] at hplA
  rw [← hposB] at hplB
  have hrun := hres₀.agree.drop (m := fa.seq.before fa.idx.toNat) (by omega)
  rw [← hga, ← hgb'] at hrun
  have hfuel' : loopWork (entries A).length a' (aMore && bMore)
      (i + (k + (kp - fa.seq.before fa.idx.toNat))) < fuel := by
    have hprod : (a'.length - 1) * ((entries A).length + 1) =
        ((fa :: qa :: pa₀).length - 1) * ((entries A).length + 1) := by
      rw [hlA, hlA₀]
      rfl
    simp only [loopWork, ↓reduceIte] at hfuel ⊢
    rw [hprod]
    split <;> omega
  obtain ⟨r, k', hloop, hres⟩ :=
    ih allow hplA hplB (by simp only [hlA, hlB]; simp only [List.length_cons] at hheight; omega)
      (hagree.append hrun) hfuel'
  refine ⟨r, k', ?_, hres.of_next (by omega) (by simp [hlA, hlA₀]) (by simp [hlB, hlB₀])
    (hsa.endsBy (by omega))⟩
  rw [doFastForwardLoop_skip he hpe hvalid hloop₀ hsyncA hsyncB]
  exact hloop

/-- One turn of the loop keeps its invariant: from the answer on `fuel` to the answer on
`fuel + 1`. -/
theorem loopSpec_succ (hinj : Function.Injective refHash) (hA : Counted dA A) (hB : Counted dB B)
    (hnA : (entries A).Nodup) (ih : LoopSpec refHash dA dB A B fuel) :
    LoopSpec refHash dA dB A B (fuel + 1) := by
  intro allow a b aMore bMore i j k ha hb hheight hagree hfuel
  cases hmore : aMore && bMore with
  | false =>
    -- one cursor has no more
    have hstop : Stopped refHash a b aMore bMore := by
      cases aMore <;> cases bMore <;> simp_all [Stopped]
    exact ⟨_, k, doFastForwardLoop_stop hmore, LoopResult.of_stop ha hb hagree hstop
      fun h1 h2 => by simp [h1, h2] at hmore⟩
  | true =>
    obtain ⟨rfl, rfl⟩ : aMore = true ∧ bMore = true := by simpa using hmore
    obtain ⟨fa, pa, rfl⟩ := ha.cons
    obtain ⟨fb, pb, rfl⟩ := hb.cons
    obtain ⟨bA, hsa, hga⟩ := ha
    obtain ⟨bB, hsb, hgb⟩ := hb
    rw [hmore] at hfuel
    have hheight' : pa.length + dB = pb.length + dA := by
      simp only [List.length_cons] at hheight
      omega
    obtain ⟨equal, hequal⟩ : ∃ e, isCurrentEqual refHash fa fb = some e :=
      isCurrentEqual_of_stand hA hB hsa hsb hheight'
    cases equal with
    | false =>
      -- the items differ
      exact ⟨_, k, doFastForwardLoop_differ hequal, LoopResult.of_stop ⟨bA, hsa, hga⟩
        ⟨bB, hsb, hgb⟩ hagree (.inr (.inr hequal)) fun _ _ h => by simp [currentEqual, hequal] at h⟩
    | true =>
      obtain ⟨len, hlenA, hlenB, hitem⟩ := agree_of_isCurrentEqual hinj hsa.1 hsb.1 hequal
      rw [← hga, ← hgb] at hitem
      obtain ⟨parentsEqual, hparents⟩ : ∃ e, currentEqual refHash pa pb = some e :=
        currentEqual_isSome hA hB hsa.1 hsb.1 hheight'
      cases parentsEqual with
      | false =>
        obtain ⟨a', b', aMore, bMore, hadv, r, k', hloop, hres⟩ :=
          loop_advance_step hA hB ih hsa hsb hga hgb hlenA hlenB (hagree.append hitem) hheight
            hfuel
        exact ⟨r, k', by rw [doFastForwardLoop_advance hequal hparents hadv]; exact hloop, hres⟩
      | true =>
        exact loop_skip_step hinj hA hB hnA ih hsa hsb hga hgb hequal hparents hagree hheight
          hfuel

/-- The loop of `doFastForward` answers on every fuel that covers the work left. -/
theorem loopSpec (hinj : Function.Injective refHash) (hA : Counted dA A) (hB : Counted dB B)
    (hnA : (entries A).Nodup) : ∀ fuel, LoopSpec refHash dA dB A B fuel
  | 0 => fun _ _ _ _ _ _ _ _ _ _ _ _ hfuel => absurd hfuel (Nat.not_lt_zero _)
  | fuel + 1 => loopSpec_succ hinj hA hB hnA (loopSpec hinj hA hB hnA fuel)

end Turn

/-! ## At the leaf level -/

section Leaf

variable {d : Nat} {root : Sequence K E}

/-- A leaf-level cursor at an entry of the tree stands on that entry, placed for the loop. -/
theorem At.placed {a : List (Frame K E)} {g : Nat} (h : At root a g)
    (hg : g < (entries root).length) (allow : Bool) : Placed root allow a true g := by
  obtain ⟨items, fs, b, idx, rfl, hp, hlo, hhi, hgi, hstart, hend⟩ := h
  have h0 : 0 ≤ idx := by
    by_contra hneg
    have := hstart (by omega)
    omega
  have hlt : idx < items.length := by
    by_contra hge
    have := hend (by omega)
    omega
  exact ⟨b, ⟨hp, h0, hlt⟩, by show g = b + idx.toNat; omega⟩

theorem At.length (hroot : Counted d root) {a : List (Frame K E)} {g : Int} (h : At root a g) :
    a.length = d + 1 := by
  obtain ⟨items, fs, b, idx, rfl, hp, -⟩ := h
  simp [hp.length_of_leaf hroot]

/-- A cursor placed by the loop on a chain as long as the tree is deep is a leaf-level cursor at
its entry. -/
theorem Placed.at (hroot : Counted d root) {a : List (Frame K E)} {more : Bool} {g : Nat}
    (h : Placed root true a more g) (hlen : a.length = d + 1) : At root a g := by
  obtain ⟨⟨seq, idx⟩, fs, rfl⟩ := h.cons
  simp only [List.length_cons, Nat.add_right_cancel_iff] at hlen
  cases more with
  | true =>
    obtain ⟨b, ⟨hp, h0, hlt⟩, rfl⟩ := h
    obtain ⟨items, rfl⟩ := hp.exists_leaf hroot hlen
    dsimp only at h0 hlt ⊢
    simp only [seqLen] at hlt
    exact ⟨items, fs, b, idx, rfl, hp, by omega, by omega, by simp [before]; omega,
      fun _ => by omega, fun _ => by omega⟩
  | false =>
    obtain ⟨hn, b, hp, hidx, hg⟩ := h
    obtain ⟨items, rfl⟩ := hp.exists_leaf hroot hlen
    dsimp only at hidx hg
    simp only [seqLen] at hidx
    exact ⟨items, fs, b, idx, rfl, hp, by omega, by omega, by simp [entries] at hg; omega,
      fun _ => by omega, fun _ => by simp [entries] at hg; omega⟩

/-- A cursor of the loop has more exactly when it is placed before the tree's end. -/
theorem Placed.more_eq (hroot : Counted d root) {allow more : Bool} {a : List (Frame K E)}
    {g : Nat} (h : Placed root allow a more g) : more = decide (g < (entries root).length) := by
  obtain ⟨f, fs, rfl⟩ := h.cons
  cases more with
  | true =>
    obtain ⟨b, hst, rfl⟩ := h
    simp [hst.start_lt hroot]
  | false =>
    cases allow <;>
    · obtain ⟨hn, -⟩ := h
      simp [hn]

end Leaf

/-! ## Trees compare by their structure -/

section DecEq

variable [DecidableEq K] [DecidableEq E]

mutual

/-- Two trees are equal when their structure is. -/
def Sequence.decEq : (s t : Sequence K E) → Decidable (s = t)
  | .leaf xs, .leaf ys =>
    if h : xs = ys then isTrue (h ▸ rfl) else isFalse fun e => h (Sequence.leaf.inj e)
  | .metaSeq ts, .metaSeq us =>
    match Sequence.decEqTuples ts us with
    | isTrue h => isTrue (h ▸ rfl)
    | isFalse h => isFalse fun e => h (Sequence.metaSeq.inj e)
  | .leaf _, .metaSeq _ => isFalse fun e => by cases e
  | .metaSeq _, .leaf _ => isFalse fun e => by cases e

/-- Two lists of tuples are equal when their keys, counts and chunks are. -/
def Sequence.decEqTuples : (ts us : List (K × Nat × Sequence K E)) → Decidable (ts = us)
  | [], [] => isTrue rfl
  | [], _ :: _ => isFalse fun e => by cases e
  | _ :: _, [] => isFalse fun e => by cases e
  | (k, n, s) :: ts, (k', n', s') :: us =>
    if hk : k = k' then
      if hn : n = n' then
        match Sequence.decEq s s', Sequence.decEqTuples ts us with
        | isTrue hs, isTrue htl => isTrue (by rw [hk, hn, hs, htl])
        | isFalse hs, _ => isFalse fun e => hs (by simp_all)
        | _, isFalse htl => isFalse fun e => htl (by simp_all)
      else isFalse fun e => hn (by simp_all)
    else isFalse fun e => hk (by simp_all)

end

instance : DecidableEq (Sequence K E) := Sequence.decEq

end DecEq

/-! ## Skipping the common run -/

section Skip

variable [DecidableEq E] [DecidableEq H] {refHash : Sequence K E → H} {dA dB : Nat}
  {A B : Sequence K E}

/-- Where the loop stops at the leaf level, the entries after the agreeing run differ, or one
tree has ended. -/
theorem stop_at_leaf (hA : Counted dA A) {a b : List (Frame K E)} {aMore bMore : Bool}
    {i j k : Nat} (ha : Placed A true a aMore (i + k)) (hb : Placed B true b bMore (j + k))
    (hlenA : a.length = dA + 1) (hstop : Stopped refHash a b aMore bMore) :
    i + k = (entries A).length ∨ j + k = (entries B).length ∨
      (entries A)[i + k]? ≠ (entries B)[j + k]? := by
  obtain ⟨fa, pa, rfl⟩ := ha.cons
  obtain ⟨fb, pb, rfl⟩ := hb.cons
  cases aMore with
  | false =>
    obtain ⟨hn, -⟩ := ha
    exact .inl hn
  | true =>
    cases bMore with
    | false =>
      obtain ⟨hn, -⟩ := hb
      exact .inr (.inl hn)
    | true =>
      -- both have more, so the items differ
      obtain ⟨bA, hsa, hga⟩ := ha
      obtain ⟨bB, hsb, hgb⟩ := hb
      have hdiffer : isCurrentEqual refHash fa fb = some false := by
        simpa [Stopped, currentEqual] using hstop
      simp only [List.length_cons, Nat.add_right_cancel_iff] at hlenA
      obtain ⟨items, hitems⟩ := hsa.1.exists_leaf hA hlenA
      have hleaf : fa.seq.isMeta = false := by rw [hitems]; rfl
      rw [hga, hgb]
      exact .inr (.inr (getElem?_ne_of_isCurrentEqual hsa.1 hsb.1 hleaf hdiffer))

/-- `doFastForward(true, a, b)` skips exactly the common run. Two ordered trees with strictly
increasing keys, chunks that hash apart, and two valid leaf-level cursors at entries `i` and `j`:
the cursors move on by the length `m` of the longest common prefix of the entries from `i` and
from `j`, stay leaf-level cursors, and answer whether each is still on an entry. -/
theorem doFastForward_skips_common_run [LinearOrder K] {keyOf : E → K}
    (hinj : Function.Injective refHash) (hwfA : WF keyOf dA A) (hwfB : WF keyOf dB B)
    (hsorted : ((entries A).map keyOf).Pairwise (· < ·)) {a b : List (Frame K E)} {i j : Nat}
    (ha : At A a i) (hb : At B b j) (hi : i < (entries A).length) (hj : j < (entries B).length)
    {fuel : Nat} (hfuel : (dA + 1) * ((entries A).length + 1) ≤ fuel) :
    let m := commonPrefixLength ((entries A).drop i) ((entries B).drop j)
    ∃ a' b', doFastForward refHash fuel true a b =
        some (a', b', decide (i + m < (entries A).length), decide (j + m < (entries B).length)) ∧
      At A a' (i + m) ∧ At B b' (j + m) := by
  intro m
  have hA := hwfA.counted
  have hB := hwfB.counted
  have hnA : (entries A).Nodup := List.Nodup.of_map keyOf (hsorted.imp ne_of_lt)
  have hlenA := ha.length hA
  have hlenB := hb.length hB
  have hpa := ha.placed hi true
  have hpb := hb.placed hj true
  have hvalid : bothValid a b = true := by
    obtain ⟨fa, pa, rfl⟩ := hpa.cons
    obtain ⟨fb, pb, rfl⟩ := hpb.cons
    obtain ⟨_, hsa, -⟩ := hpa
    obtain ⟨_, hsb, -⟩ := hpb
    simp [bothValid, hsa.valid, hsb.valid]
  have hfuel' : loopWork (entries A).length a (true && true) (i + 0) < fuel := by
    simp only [loopWork, hlenA, Bool.and_self, ↓reduceIte, Nat.add_sub_cancel, Nat.add_zero]
    rw [Nat.succ_mul] at hfuel
    omega
  obtain ⟨⟨a', b', aMore, bMore⟩, k, hloop, hres⟩ :=
    loopSpec hinj hA hB hnA fuel true (i := i) (j := j) (k := 0) hpa hpb
      (by rw [hlenA, hlenB]; omega) (agree_zero (by omega) (by omega)) hfuel'
  -- the loop stops at the end of the longest common prefix
  have hm : m = k :=
    commonPrefixLength_drop_eq hres.agree (stop_at_leaf hA hres.placedA hres.placedB
      (hres.lengthA.trans hlenA) hres.stopped)
  rw [hm]
  refine ⟨a', b', ?_, hres.placedA.at hA (hres.lengthA.trans hlenA),
    hres.placedB.at hB (hres.lengthB.trans hlenB)⟩
  have hmoreA : aMore = decide (i + k < (entries A).length) := hres.placedA.more_eq hA
  have hmoreB : bMore = decide (j + k < (entries B).length) := hres.placedB.more_eq hB
  rw [doFastForward, if_pos hvalid, hloop, hmoreA, hmoreB]


/-- Two trees that share their first chunk and the first entry of their second: with each chunk
its own hash, the cursors at the start skip the first chunk through their parents and stop at the
entries `4` and `5`. -/
theorem doFastForward_skips_common_run_sample :
    WF id 1 (metaSeq [(2, 2, leaf [1, 2]), (4, 2, leaf [3, 4])] : Sequence Nat Nat) ∧
      WF id 1 (metaSeq [(2, 2, leaf [1, 2]), (5, 2, leaf [3, 5])] : Sequence Nat Nat) ∧
      ∃ a' b', doFastForward id 10 true
          [⟨leaf [1, 2], 0⟩, ⟨metaSeq [(2, 2, leaf [1, 2]), (4, 2, leaf [3, 4])], 0⟩]
          [⟨leaf [1, 2], 0⟩, ⟨metaSeq [(2, 2, leaf [1, 2]), (5, 2, leaf [3, 5])], 0⟩] =
            some (a', b', true, true) ∧
        At (metaSeq [(2, 2, leaf [1, 2]), (4, 2, leaf [3, 4])] : Sequence Nat Nat) a' 3 ∧
        At (metaSeq [(2, 2, leaf [1, 2]), (5, 2, leaf [3, 5])] : Sequence Nat Nat) b' 3 := by
  have hwfA : WF id 1 (metaSeq [(2, 2, leaf [1, 2]), (4, 2, leaf [3, 4])] : Sequence Nat Nat) := by
    simp [WF, entries]
  have hwfB : WF id 1 (metaSeq [(2, 2, leaf [1, 2]), (5, 2, leaf [3, 5])] : Sequence Nat Nat) := by
    simp [WF, entries]
  have hsorted : (([1, 2, 3, 4] : List Nat).map id).Pairwise (· < ·) := by decide
  have ha : At (metaSeq [(2, 2, leaf [1, 2]), (4, 2, leaf [3, 4])] : Sequence Nat Nat)
      [⟨leaf [1, 2], 0⟩, ⟨metaSeq [(2, 2, leaf [1, 2]), (4, 2, leaf [3, 4])], 0⟩] 0 :=
    ⟨[1, 2], _, _, 0, rfl, ChunkPath.child (t := (2, 2, leaf [1, 2])) ChunkPath.root (i := 0) rfl, by decide, by decide,
      rfl, fun _ => rfl, fun h => absurd h (by decide)⟩
  have hb : At (metaSeq [(2, 2, leaf [1, 2]), (5, 2, leaf [3, 5])] : Sequence Nat Nat)
      [⟨leaf [1, 2], 0⟩, ⟨metaSeq [(2, 2, leaf [1, 2]), (5, 2, leaf [3, 5])], 0⟩] 0 :=
    ⟨[1, 2], _, _, 0, rfl, ChunkPath.child (t := (2, 2, leaf [1, 2])) ChunkPath.root (i := 0) rfl, by decide, by decide,
      rfl, fun _ => rfl, fun h => absurd h (by decide)⟩
  obtain ⟨a', b', hrun, ha', hb'⟩ := doFastForward_skips_common_run
    (Function.injective_id : Function.Injective (id : Sequence Nat Nat → Sequence Nat Nat))
    hwfA hwfB hsorted ha hb (by decide) (by decide) (le_refl 10)
  have hm : commonPrefixLength
      ((entries (metaSeq [(2, 2, leaf [1, 2]), (4, 2, leaf [3, 4])] : Sequence Nat Nat)).drop 0)
      ((entries (metaSeq [(2, 2, leaf [1, 2]), (5, 2, leaf [3, 5])] : Sequence Nat Nat)).drop 0) =
        3 := by decide
  rw [hm] at hrun ha' hb'
  exact ⟨hwfA, hwfB, a', b', hrun, ha', hb'⟩

end Skip

end Noms.Types
