import Noms.Types.MapCursor

/-!
# A cursor chain stands for a position among the tree's entries (`sequence_cursor.go`)

A `sequenceCursor` is a chain of frames, the leaf's first, each ancestor on the tuple whose child
holds the level below (`ChunkPath`). Counting the entries of the tree before its leaf chunk, a
leaf-level chain stands for one position among the entries of the whole tree (`At`): `-1` before
the first entry, the number of entries past the last, and otherwise the entry under the cursor.

`newCursorAtIndex` puts a chain at any position (`newCursorAtIndex_at`). `advance` and `retreat`
move the position by one and stop at the two ends, whatever the chunking (`advance_at`,
`retreat_at`): at a chunk's end they move the parents one tuple on or back (`advance_level`,
`retreat_level`) and load the next chunk. So every run of calls keeps the chain's shape
(`runMoves_at`), and the chain is valid exactly on an entry, which `current` returns. `clone`
copies each level through `newSequenceCursor`, which reads a negative index from the end of the
chunk: the clone of a cursor parked before the start stands on an entry
(`At.clone_before_start`).

The trees are those the chunker builds, of one depth throughout, with tuples that count their
entries and chunks below the root that are not empty (`Counted`).
-/

namespace Noms.Types

variable {K E : Type}

namespace Sequence

/-- A tree of depth `d` whose meta sequences hold tuples that count their entries, over chunks
that are not empty. The root may be an empty leaf. -/
def Counted : Nat → Sequence K E → Prop
  | 0, leaf _ => True
  | 0, metaSeq _ => False
  | _ + 1, leaf _ => False
  | d + 1, metaSeq tuples => tuples ≠ [] ∧ ∀ t ∈ tuples,
      Counted d t.2.2 ∧ 0 < t.2.2.seqLen ∧ t.2.1 = (entries t.2.2).length

/-- The entries under the first `i` items of a sequence. -/
def before : Sequence K E → Nat → Nat
  | leaf _, i => i
  | metaSeq tuples, i => (entriesList (tuples.take i)).length

@[simp]
theorem before_zero (s : Sequence K E) : s.before 0 = 0 := by
  cases s <;> rfl

theorem before_seqLen (s : Sequence K E) : s.before s.seqLen = (entries s).length := by
  cases s <;> simp [before, seqLen, entries]

theorem entriesList_eq_of_getElem? {tuples : List (K × Nat × Sequence K E)} {i : Nat}
    {t : K × Nat × Sequence K E} (ht : tuples[i]? = some t) :
    entriesList tuples =
      entriesList (tuples.take i) ++ entries t.2.2 ++ entriesList (tuples.drop (i + 1)) := by
  have hdrop : tuples.drop i = t :: tuples.drop (i + 1) := by
    rw [List.drop_eq_getElem_cons (List.getElem?_eq_some_iff.mp ht).1,
      (List.getElem?_eq_some_iff.mp ht).2]
  conv_lhs => rw [← List.take_append_drop i tuples, hdrop]
  rw [entriesList_append, entriesList, List.append_assoc]

theorem before_succ {tuples : List (K × Nat × Sequence K E)} {i : Nat}
    {t : K × Nat × Sequence K E} (ht : tuples[i]? = some t) :
    (metaSeq tuples).before (i + 1) = (metaSeq tuples).before i + (entries t.2.2).length := by
  have htake : tuples.take (i + 1) = tuples.take i ++ [t] := by
    rw [List.take_add_one, ht, Option.toList_some]
  simp [before, htake, entriesList]

theorem before_mono (s : Sequence K E) {i j : Nat} (hij : i ≤ j) : s.before i ≤ s.before j := by
  cases s with
  | leaf items => exact hij
  | metaSeq tuples =>
    have htake : (tuples.take j).take i = tuples.take i := by
      rw [List.take_take, Nat.min_eq_left hij]
    have hsplit := congrArg (fun l => (entriesList l).length)
      (List.take_append_drop i (tuples.take j))
    simp only [entriesList_append, List.length_append, htake] at hsplit
    simp only [before]
    omega

/-! ## Trees whose tuples count their entries -/

theorem Counted.meta_ne_nil {d : Nat} {tuples : List (K × Nat × Sequence K E)}
    (hc : Counted (d + 1) (metaSeq tuples)) : tuples ≠ [] := hc.1

theorem Counted.child {d : Nat} {tuples : List (K × Nat × Sequence K E)}
    (hc : Counted (d + 1) (metaSeq tuples)) {t : K × Nat × Sequence K E} (ht : t ∈ tuples) :
    Counted d t.2.2 ∧ 0 < t.2.2.seqLen ∧ t.2.1 = (entries t.2.2).length := hc.2 t ht

theorem Counted.seqLen_pos {d : Nat} {tuples : List (K × Nat × Sequence K E)}
    (hc : Counted (d + 1) (metaSeq tuples)) : 0 < (metaSeq tuples : Sequence K E).seqLen :=
  List.length_pos_of_ne_nil hc.1

/-- A chunk that is not empty has entries. -/
theorem Counted.entries_ne_nil : ∀ {d : Nat} {s : Sequence K E}, Counted d s → 0 < s.seqLen →
    entries s ≠ []
  | 0, leaf items, _, hpos => by
    simpa [entries, seqLen, ← List.length_pos_iff] using hpos
  | d + 1, metaSeq tuples, hc, _ => by
    obtain ⟨t, rest, rfl⟩ := List.exists_cons_of_ne_nil hc.1
    obtain ⟨hct, hpos, -⟩ := hc.child List.mem_cons_self
    rw [entries, entriesList]
    exact List.append_ne_nil_of_left_ne_nil (Counted.entries_ne_nil hct hpos) _

/-- Each item of a counted sequence has entries under it. -/
theorem Counted.before_lt_succ {d : Nat} {s : Sequence K E} (hc : Counted d s) {i : Nat}
    (hi : i < s.seqLen) : s.before i < s.before (i + 1) := by
  cases s with
  | leaf items => exact Nat.lt_succ_self i
  | metaSeq tuples =>
    cases d with
    | zero => exact absurd hc id
    | succ d =>
      have hi' : i < tuples.length := hi
      have ht : tuples[i]? = some tuples[i] := List.getElem?_eq_getElem hi'
      obtain ⟨hct, hpos, -⟩ := hc.child (List.mem_of_getElem? ht)
      have hne := List.length_pos_of_ne_nil (hct.entries_ne_nil hpos)
      rw [before_succ ht]
      omega

theorem Counted.before_lt {d : Nat} {s : Sequence K E} (hc : Counted d s) {i : Nat}
    (hi : i < s.seqLen) : s.before i < (entries s).length := by
  calc s.before i < s.before (i + 1) := hc.before_lt_succ hi
    _ ≤ s.before s.seqLen := s.before_mono hi
    _ = (entries s).length := s.before_seqLen

theorem Counted.before_pos {d : Nat} {s : Sequence K E} (hc : Counted d s) {i : Nat}
    (hi0 : 0 < i) (hi : i ≤ s.seqLen) : 0 < s.before i := by
  calc 0 = s.before 0 := (s.before_zero).symm
    _ < s.before 1 := hc.before_lt_succ (by omega)
    _ ≤ s.before i := s.before_mono hi0

theorem Counted.depth_eq : ∀ {d : Nat} {s : Sequence K E}, Counted d s → s.depth = d
  | 0, leaf _, _ => rfl
  | _ + 1, metaSeq _, hc => by
    rw [depth, depthList_eq hc.1 (fun t ht => Counted.depth_eq (hc.child ht).1)]

/-- A counted tree above the leaves is a meta sequence. -/
theorem Counted.exists_meta {d : Nat} {s : Sequence K E} (hc : Counted (d + 1) s) :
    ∃ tuples, s = metaSeq tuples := by
  cases s with
  | leaf _ => exact absurd hc id
  | metaSeq tuples => exact ⟨tuples, rfl⟩

theorem Counted.exists_leaf {s : Sequence K E} (hc : Counted 0 s) : ∃ items, s = leaf items := by
  cases s with
  | leaf items => exact ⟨items, rfl⟩
  | metaSeq _ => exact absurd hc id

end Sequence

open Sequence

/-! ## Paths from the root -/

/-- `ChunkPath root fs s b`: the frames `fs`, deepest first, stand on tuples from `root` down to one
whose child is `s`, and `b` entries of the tree come before `s`. The empty path leads to the
root. -/
inductive ChunkPath (root : Sequence K E) : List (Frame K E) → Sequence K E → Nat → Prop
  | root : ChunkPath root [] root 0
  | child {fs : List (Frame K E)} {tuples : List (K × Nat × Sequence K E)} {b i : Nat}
      {t : K × Nat × Sequence K E} :
      ChunkPath root fs (.metaSeq tuples) b → tuples[i]? = some t →
      ChunkPath root (⟨.metaSeq tuples, i⟩ :: fs) t.2.2 (b + (Sequence.metaSeq tuples).before i)

namespace ChunkPath

variable {root : Sequence K E}

theorem nil_inv {s : Sequence K E} {b : Nat} (h : ChunkPath root [] s b) : s = root ∧ b = 0 := by
  cases h
  exact ⟨rfl, rfl⟩

theorem cons_inv {p : Frame K E} {ps : List (Frame K E)} {s : Sequence K E} {b : Nat}
    (h : ChunkPath root (p :: ps) s b) :
    ∃ (tuples : List (K × Nat × Sequence K E)) (i : Nat) (t : K × Nat × Sequence K E)
      (b₀ : Nat),
      p = ⟨.metaSeq tuples, (i : Int)⟩ ∧ ChunkPath root ps (.metaSeq tuples) b₀ ∧
      tuples[i]? = some t ∧ s = t.2.2 ∧ b = b₀ + (Sequence.metaSeq tuples).before i := by
  cases h with
  | child hp ht => exact ⟨_, _, _, _, rfl, hp, ht, rfl, rfl⟩

/-- The entries of the tree are those before `s`, those of `s`, and those after it. -/
theorem entries_eq {fs : List (Frame K E)} {s : Sequence K E} {b : Nat}
    (h : ChunkPath root fs s b) :
    ∃ pre post, entries root = pre ++ entries s ++ post ∧ pre.length = b := by
  induction h with
  | root => exact ⟨[], [], by simp, rfl⟩
  | @child fs tuples b i t _ ht ih =>
    obtain ⟨pre, post, heq, hlen⟩ := ih
    refine ⟨pre ++ entriesList (tuples.take i), entriesList (tuples.drop (i + 1)) ++ post, ?_,
      ?_⟩
    · rw [heq, entries, entriesList_eq_of_getElem? ht]
      simp only [List.append_assoc]
    · simp [hlen, Sequence.before]

theorem end_le {fs : List (Frame K E)} {s : Sequence K E} {b : Nat} (h : ChunkPath root fs s b) :
    b + (entries s).length ≤ (entries root).length := by
  obtain ⟨pre, post, heq, hlen⟩ := h.entries_eq
  rw [heq, List.length_append, List.length_append, hlen]
  omega

/-- Each step of a path goes one level down a counted tree. -/
theorem counted {d : Nat} (hroot : Counted d root) {fs : List (Frame K E)} {s : Sequence K E}
    {b : Nat} (h : ChunkPath root fs s b) : fs.length ≤ d ∧ Counted (d - fs.length) s := by
  induction h with
  | root => exact ⟨Nat.zero_le d, by simpa using hroot⟩
  | @child fs tuples b i t _ ht ih =>
    obtain ⟨hlen, hc⟩ := ih
    -- the meta sequence above `t` is not at the leaf level
    obtain ⟨k, hk⟩ : ∃ k, d - fs.length = k + 1 := by
      cases h' : d - fs.length with
      | zero => rw [h'] at hc; exact absurd hc id
      | succ k => exact ⟨k, rfl⟩
    rw [hk] at hc
    refine ⟨by simp only [List.length_cons]; omega, ?_⟩
    have hdk : d - (fs.length + 1) = k := by omega
    simpa only [List.length_cons, hdk] using (hc.child (List.mem_of_getElem? ht)).1

/-- Every chunk a path leads to below the root has items. -/
theorem seqLen_pos {d : Nat} (hroot : Counted d root) {p : Frame K E} {ps : List (Frame K E)}
    {s : Sequence K E} {b : Nat} (h : ChunkPath root (p :: ps) s b) : 0 < s.seqLen := by
  obtain ⟨tuples, i, t, b₀, -, hp, ht, rfl, -⟩ := h.cons_inv
  obtain ⟨-, hc⟩ := hp.counted hroot
  obtain ⟨k, hk⟩ : ∃ k, d - ps.length = k + 1 := by
    cases h' : d - ps.length with
    | zero => rw [h'] at hc; exact absurd hc id
    | succ k => exact ⟨k, rfl⟩
  rw [hk] at hc
  exact (hc.child (List.mem_of_getElem? ht)).2.1

end ChunkPath

/-! ## Cursors standing on an item -/

/-- `Stand root (f :: fs) b`: the frame `f` is on an item of its sequence, which the path `fs`
leads to from the root with `b` entries before it. -/
def Stand (root : Sequence K E) : List (Frame K E) → Nat → Prop
  | [], _ => False
  | f :: fs, b => ChunkPath root fs f.seq b ∧ 0 ≤ f.idx ∧ f.idx < f.seq.seqLen

/-- The child under a cursor standing on a tuple above the leaves: a chunk with items, one level
down, which ends where the tuple's entries end. -/
theorem Stand.child {d : Nat} {root : Sequence K E} (hroot : Counted d root) {p : Frame K E}
    {ps : List (Frame K E)} {b : Nat} (hst : Stand root (p :: ps) b) (hlev : ps.length < d) :
    ∃ cs, p.seq.childAt p.idx = some cs ∧
      ChunkPath root (p :: ps) cs (b + p.seq.before p.idx.toNat) ∧ 0 < cs.seqLen ∧
      p.seq.before (p.idx.toNat + 1) = p.seq.before p.idx.toNat + (entries cs).length := by
  obtain ⟨hp, h0, hlt⟩ := hst
  obtain ⟨pseq, pidx⟩ := p
  obtain ⟨-, hc⟩ := hp.counted hroot
  obtain ⟨k, hk⟩ : ∃ k, d - ps.length = k + 1 := ⟨d - ps.length - 1, by omega⟩
  rw [hk] at hc
  obtain ⟨tuples, rfl⟩ := hc.exists_meta
  dsimp only at h0 hlt ⊢
  have hi : pidx.toNat < tuples.length := by simp only [seqLen] at hlt; omega
  have ht : tuples[pidx.toNat]? = some tuples[pidx.toNat] := List.getElem?_eq_getElem hi
  refine ⟨tuples[pidx.toNat].2.2, ?_, ?_, (hc.child (List.mem_of_getElem? ht)).2.1,
    before_succ ht⟩
  · simp [childAt, h0, ht]
  · have hpath := ChunkPath.child hp ht
    rwa [Int.toNat_of_nonneg h0] at hpath

/-! ## One step of `advanceMaybeAllowPastEnd` and `retreatMaybeAllowBeforeStart` -/

section Steps

variable {f : Frame K E} {fs : List (Frame K E)} {allow : Bool}

theorem advance_within (h : f.idx < (f.seq.seqLen : Int) - 1) :
    advanceMaybeAllowPastEnd (f :: fs) allow = some (⟨f.seq, f.idx + 1⟩ :: fs, true) := by
  rw [advanceMaybeAllowPastEnd, if_pos h]

theorem advance_past_end (h : f.idx = f.seq.seqLen) :
    advanceMaybeAllowPastEnd (f :: fs) allow = some (f :: fs, false) := by
  rw [advanceMaybeAllowPastEnd, if_neg (by omega), if_pos h]

/-- At the end of the root's last item nothing follows. -/
theorem advance_root_end (h1 : ¬f.idx < (f.seq.seqLen : Int) - 1) (h2 : f.idx ≠ f.seq.seqLen) :
    advanceMaybeAllowPastEnd [f] allow =
      some ([if allow then ⟨f.seq, f.idx + 1⟩ else f], false) := by
  rw [advanceMaybeAllowPastEnd, if_neg h1, if_neg h2]

theorem advance_up_false {p : Frame K E} {ps parent' : List (Frame K E)}
    (h1 : ¬f.idx < (f.seq.seqLen : Int) - 1) (h2 : f.idx ≠ f.seq.seqLen)
    (hp : advanceMaybeAllowPastEnd (p :: ps) false = some (parent', false)) :
    advanceMaybeAllowPastEnd (f :: p :: ps) allow =
      some ((if allow then ⟨f.seq, f.idx + 1⟩ else f) :: parent', false) := by
  rw [advanceMaybeAllowPastEnd, if_neg h1, if_neg h2]
  simp only [hp]

theorem advance_up_true {p p' : Frame K E} {ps ps' : List (Frame K E)} {cs : Sequence K E}
    (h1 : ¬f.idx < (f.seq.seqLen : Int) - 1) (h2 : f.idx ≠ f.seq.seqLen)
    (hp : advanceMaybeAllowPastEnd (p :: ps) false = some (p' :: ps', true))
    (hcs : p'.seq.childAt p'.idx = some cs) :
    advanceMaybeAllowPastEnd (f :: p :: ps) allow = some (⟨cs, 0⟩ :: p' :: ps', true) := by
  rw [advanceMaybeAllowPastEnd, if_neg h1, if_neg h2]
  simp only [hp, hcs, Option.bind_eq_bind, Option.bind_some]

theorem retreat_within (h : 0 < f.idx) :
    retreatMaybeAllowBeforeStart (f :: fs) allow = some (⟨f.seq, f.idx - 1⟩ :: fs, true) := by
  rw [retreatMaybeAllowBeforeStart, if_pos h]

theorem retreat_before_start (h : f.idx = -1) :
    retreatMaybeAllowBeforeStart (f :: fs) allow = some (f :: fs, false) := by
  rw [retreatMaybeAllowBeforeStart, if_neg (by omega), if_pos h]

/-- At the start of the root's first item nothing comes before. -/
theorem retreat_root_start (h : f.idx = 0) :
    retreatMaybeAllowBeforeStart [f] allow =
      some ([if allow then ⟨f.seq, f.idx - 1⟩ else f], false) := by
  rw [retreatMaybeAllowBeforeStart, if_neg (by omega), if_neg (by omega), if_neg (by omega)]

theorem retreat_up_false {p : Frame K E} {ps parent' : List (Frame K E)} (h : f.idx = 0)
    (hp : retreatMaybeAllowBeforeStart (p :: ps) false = some (parent', false)) :
    retreatMaybeAllowBeforeStart (f :: p :: ps) allow =
      some ((if allow then ⟨f.seq, f.idx - 1⟩ else f) :: parent', false) := by
  rw [retreatMaybeAllowBeforeStart, if_neg (by omega), if_neg (by omega), if_neg (by omega)]
  simp only [hp]

theorem retreat_up_true {p p' : Frame K E} {ps ps' : List (Frame K E)} {cs : Sequence K E}
    (h : f.idx = 0) (hp : retreatMaybeAllowBeforeStart (p :: ps) false = some (p' :: ps', true))
    (hcs : p'.seq.childAt p'.idx = some cs) :
    retreatMaybeAllowBeforeStart (f :: p :: ps) allow =
      some (⟨cs, (cs.seqLen : Int) - 1⟩ :: p' :: ps', true) := by
  rw [retreatMaybeAllowBeforeStart, if_neg (by omega), if_neg (by omega), if_neg (by omega)]
  simp only [hp, hcs, Option.bind_eq_bind, Option.bind_some]

end Steps

/-! ## One level of a chain -/

section Level

variable {d : Nat} {root : Sequence K E}

theorem before_succ_of_last {s : Sequence K E} {idx : Int} (h0 : 0 ≤ idx)
    (hlast : ¬idx < (s.seqLen : Int) - 1) (hlt : idx < s.seqLen) :
    s.before (idx.toNat + 1) = (entries s).length := by
  rw [show idx.toNat + 1 = s.seqLen by omega, before_seqLen]

/-- The parent of a chain stands on the tuple above the chain's sequence, whose entries it
counts. -/
theorem ChunkPath.stand_parent {p : Frame K E} {ps : List (Frame K E)} {s : Sequence K E} {b : Nat}
    (h : ChunkPath root (p :: ps) s b) : ∃ b₀, Stand root (p :: ps) b₀ ∧
      p.seq.before (p.idx.toNat + 1) = p.seq.before p.idx.toNat + (entries s).length ∧
      b = b₀ + p.seq.before p.idx.toNat := by
  obtain ⟨tuples, i, t, b₀, rfl, hp, ht, rfl, rfl⟩ := h.cons_inv
  refine ⟨b₀, ⟨hp, by simp, ?_⟩, by simpa using before_succ ht, by simp⟩
  simpa [seqLen] using (List.getElem?_eq_some_iff.mp ht).1

/-- What `advanceMaybeAllowPastEnd` does with `allowPastEnd` off to the cursor `f :: fs`
standing on an item with `b` entries before its sequence: it stays when the item ends where the
tree's entries end, and otherwise moves on its own level to the item that starts there. -/
def AdvanceLevel (root : Sequence K E) (f : Frame K E) (fs : List (Frame K E)) (b : Nat) :
    Prop :=
  (b + f.seq.before (f.idx.toNat + 1) = (entries root).length →
    advanceMaybeAllowPastEnd (f :: fs) false = some (f :: fs, false)) ∧
  (b + f.seq.before (f.idx.toNat + 1) < (entries root).length →
    ∃ f' fs' b', advanceMaybeAllowPastEnd (f :: fs) false = some (f' :: fs', true) ∧
      fs'.length = fs.length ∧ Stand root (f' :: fs') b' ∧
      b' + f'.seq.before f'.idx.toNat = b + f.seq.before (f.idx.toNat + 1))

/-- What `retreatMaybeAllowBeforeStart` does with `allowBeforeStart` off: the cursor stays when
its item starts the tree, and otherwise moves on its own level to the item that ends there. -/
def RetreatLevel (root : Sequence K E) (f : Frame K E) (fs : List (Frame K E)) (b : Nat) :
    Prop :=
  (b + f.seq.before f.idx.toNat = 0 →
    retreatMaybeAllowBeforeStart (f :: fs) false = some (f :: fs, false)) ∧
  (0 < b + f.seq.before f.idx.toNat →
    ∃ f' fs' b', retreatMaybeAllowBeforeStart (f :: fs) false = some (f' :: fs', true) ∧
      fs'.length = fs.length ∧ Stand root (f' :: fs') b' ∧
      b' + f'.seq.before (f'.idx.toNat + 1) = b + f.seq.before f.idx.toNat)

theorem advanceLevel_within (hroot : Counted d root) {f : Frame K E} {fs : List (Frame K E)}
    {b : Nat} (hst : Stand root (f :: fs) b) (hin : f.idx < (f.seq.seqLen : Int) - 1) :
    AdvanceLevel root f fs b := by
  obtain ⟨hp, h0, hlt⟩ := hst
  -- another item of the chunk follows, so the tree goes on past this one
  have hnext : b + f.seq.before (f.idx.toNat + 1) < (entries root).length := by
    have h1 := (hp.counted hroot).2.before_lt (i := f.idx.toNat + 1) (by omega)
    have h2 := hp.end_le
    omega
  have hidx : (f.idx + 1).toNat = f.idx.toNat + 1 := by omega
  refine ⟨fun heq => absurd heq (by omega), fun _ => ?_⟩
  refine ⟨⟨f.seq, f.idx + 1⟩, fs, b, advance_within hin, rfl,
    ⟨hp, by dsimp only; omega, by dsimp only; omega⟩, ?_⟩
  simp only [hidx]

theorem retreatLevel_within (hroot : Counted d root) {f : Frame K E} {fs : List (Frame K E)}
    {b : Nat} (hst : Stand root (f :: fs) b) (hin : 0 < f.idx) : RetreatLevel root f fs b := by
  obtain ⟨hp, h0, hlt⟩ := hst
  have hpos := (hp.counted hroot).2.before_pos (i := f.idx.toNat) (by omega) (by omega)
  have hidx : (f.idx - 1).toNat + 1 = f.idx.toNat := by omega
  refine ⟨fun heq => absurd heq (by omega), fun _ => ?_⟩
  refine ⟨⟨f.seq, f.idx - 1⟩, fs, b, retreat_within hin, rfl,
    ⟨hp, by dsimp only; omega, by dsimp only; omega⟩, ?_⟩
  simp only [hidx]

/-- With `allowPastEnd` off, a cursor standing on an item either stays, when the item ends where
the tree's entries end, or moves on its own level to the item that starts there. The induction
is on the parents: at the end of its chunk a cursor moves with its parent. -/
theorem advance_level (hroot : Counted d root) :
    ∀ {fs : List (Frame K E)} {f : Frame K E} {b : Nat}, Stand root (f :: fs) b →
      AdvanceLevel root f fs b := by
  intro fs
  induction fs with
  | nil =>
    intro f b hst
    by_cases hin : f.idx < (f.seq.seqLen : Int) - 1
    · exact advanceLevel_within hroot hst hin
    · obtain ⟨hp, h0, hlt⟩ := hst
      obtain ⟨hs, rfl⟩ := hp.nil_inv
      have hne : f.idx ≠ f.seq.seqLen := by omega
      -- the root's last item ends the tree
      have hend : 0 + f.seq.before (f.idx.toNat + 1) = (entries root).length := by
        rw [before_succ_of_last h0 hin hlt, hs, Nat.zero_add]
      refine ⟨fun _ => ?_, fun hlt' => absurd hend (by omega)⟩
      rw [advance_root_end hin hne]
      rfl
  | cons p ps ih =>
    intro f b hst
    by_cases hin : f.idx < (f.seq.seqLen : Int) - 1
    · exact advanceLevel_within hroot hst hin
    · obtain ⟨hp, h0, hlt⟩ := hst
      have hne : f.idx ≠ f.seq.seqLen := by omega
      obtain ⟨b₀, hstp, hsucc, hb⟩ := hp.stand_parent
      have hlev : ps.length < d := by
        have := (hp.counted hroot).1
        simp only [List.length_cons] at this
        omega
      -- the chunk ends where the parent's tuple ends
      have he : b + f.seq.before (f.idx.toNat + 1) = b₀ + p.seq.before (p.idx.toNat + 1) := by
        rw [before_succ_of_last h0 hin hlt, hsucc, hb]
        omega
      obtain ⟨ihs, ihm⟩ := ih hstp
      unfold AdvanceLevel
      rw [he]
      refine ⟨fun heq => ?_, fun hlt' => ?_⟩
      · rw [advance_up_false hin hne (ihs heq)]
        rfl
      · obtain ⟨p', ps', b', hadv, hlen, hst', hoff⟩ := ihm hlt'
        obtain ⟨cs, hcs, hpath, hpos, -⟩ := Stand.child hroot hst' (by omega)
        refine ⟨⟨cs, 0⟩, p' :: ps', b' + p'.seq.before p'.idx.toNat,
          advance_up_true hin hne hadv hcs, by simp [hlen],
          ⟨hpath, by dsimp only; omega, by dsimp only; omega⟩, ?_⟩
        simp [hoff]

/-- With `allowBeforeStart` off, a cursor standing on an item either stays, when the item starts
the tree, or moves on its own level to the item that ends where it starts. -/
theorem retreat_level (hroot : Counted d root) :
    ∀ {fs : List (Frame K E)} {f : Frame K E} {b : Nat}, Stand root (f :: fs) b →
      RetreatLevel root f fs b := by
  intro fs
  induction fs with
  | nil =>
    intro f b hst
    by_cases hin : 0 < f.idx
    · exact retreatLevel_within hroot hst hin
    · obtain ⟨hp, h0, hlt⟩ := hst
      obtain ⟨-, rfl⟩ := hp.nil_inv
      have hz : f.idx = 0 := by omega
      have hstart : 0 + f.seq.before f.idx.toNat = 0 := by simp [hz]
      refine ⟨fun _ => ?_, fun hpos => absurd hstart (by omega)⟩
      rw [retreat_root_start hz]
      rfl
  | cons p ps ih =>
    intro f b hst
    by_cases hin : 0 < f.idx
    · exact retreatLevel_within hroot hst hin
    · obtain ⟨hp, h0, hlt⟩ := hst
      have hz : f.idx = 0 := by omega
      obtain ⟨b₀, hstp, -, hb⟩ := hp.stand_parent
      have hlev : ps.length < d := by
        have := (hp.counted hroot).1
        simp only [List.length_cons] at this
        omega
      -- the chunk starts where the parent's tuple starts
      have hs : b + f.seq.before f.idx.toNat = b₀ + p.seq.before p.idx.toNat := by
        simp [hz, hb]
      obtain ⟨ihs, ihm⟩ := ih hstp
      unfold RetreatLevel
      rw [hs]
      refine ⟨fun heq => ?_, fun hpos => ?_⟩
      · rw [retreat_up_false hz (ihs heq)]
        rfl
      · obtain ⟨p', ps', b', hret, hlen, hst', hoff⟩ := ihm hpos
        obtain ⟨cs, hcs, hpath, hcpos, hsucc⟩ := Stand.child hroot hst' (by omega)
        refine ⟨⟨cs, (cs.seqLen : Int) - 1⟩, p' :: ps', b' + p'.seq.before p'.idx.toNat,
          retreat_up_true hz hret hcs, by simp [hlen],
          ⟨hpath, by dsimp only; omega, by dsimp only; omega⟩, ?_⟩
        have hidx : ((cs.seqLen : Int) - 1).toNat + 1 = cs.seqLen := by omega
        simp only [hidx, before_seqLen]
        omega

end Level

/-! ## Leaf-level chains and the position they stand for -/

section Position

variable {d : Nat} {root : Sequence K E}

/-- `At root cur g`: `cur` is a cursor on the leaf level of `root`, its ancestors on the tuples
above its chunk, standing for the position `g` among the tree's entries. It is parked at `-1`
only before the first chunk's start, and at the number of entries only past the last chunk's
end. -/
def At (root : Sequence K E) (cur : List (Frame K E)) (g : Int) : Prop :=
  ∃ items fs b idx, cur = ⟨.leaf items, idx⟩ :: fs ∧ ChunkPath root fs (.leaf items) b ∧
    -1 ≤ idx ∧ idx ≤ items.length ∧ g = b + idx ∧ (idx = -1 → b = 0) ∧
    (idx = items.length → b + items.length = (entries root).length)

/-- The position `advance` moves to among `n` entries: one on, and no further than `n`. -/
def advancePos (n : Nat) (g : Int) : Int := min (g + 1) n

/-- The position `retreat` moves to: one back, and no further than `-1`. -/
def retreatPos (g : Int) : Int := max (g - 1) (-1)

theorem At.range {cur : List (Frame K E)} {g : Int} (h : At root cur g) :
    -1 ≤ g ∧ g ≤ (entries root).length := by
  obtain ⟨items, fs, b, idx, -, hp, hlo, hhi, rfl, -, -⟩ := h
  have hle := hp.end_le
  simp only [entries] at hle
  omega

/-- A path down to the leaf level has one frame per meta level. -/
theorem ChunkPath.length_of_leaf (hroot : Counted d root) {fs : List (Frame K E)}
    {items : List E} {b : Nat} (h : ChunkPath root fs (.leaf items) b) : fs.length = d := by
  obtain ⟨hlen, hc⟩ := h.counted hroot
  cases h' : d - fs.length with
  | zero => omega
  | succ k => rw [h'] at hc; exact absurd hc id

/-- One level above the leaves, a tuple's child is a leaf. -/
theorem ChunkPath.exists_leaf (hroot : Counted d root) {fs : List (Frame K E)} {s : Sequence K E}
    {b : Nat} (h : ChunkPath root fs s b) (hlen : fs.length = d) : ∃ items, s = .leaf items := by
  have hc := (h.counted hroot).2
  rw [hlen, Nat.sub_self] at hc
  exact hc.exists_leaf

/-- `advance` moves the position one on, no further than the number of entries, and answers
whether it is then on an entry. -/
theorem advance_at (hroot : Counted d root) {cur : List (Frame K E)} {g : Int}
    (h : At root cur g) :
    ∃ cur', advance cur =
        some (cur', decide (advancePos (entries root).length g < (entries root).length)) ∧
      At root cur' (advancePos (entries root).length g) := by
  obtain ⟨items, fs, b, idx, rfl, hp, hlo, hhi, rfl, hstart, hend⟩ := h
  have hle := hp.end_le
  simp only [entries] at hle
  unfold advance advancePos
  by_cases hin : idx < (items.length : Int) - 1
  · -- the next entry of the chunk
    have hpos : min ((b : Int) + idx + 1) (entries root).length = b + (idx + 1) := by omega
    rw [advance_within (f := ⟨.leaf items, idx⟩) hin, hpos, decide_eq_true (by omega)]
    exact ⟨_, rfl, ⟨items, fs, b, idx + 1, rfl, hp, by omega, by omega, rfl, by omega,
      by omega⟩⟩
  by_cases hpast : idx = items.length
  · -- parked past the end
    have hpos : min ((b : Int) + idx + 1) (entries root).length = b + idx := by
      have := hend hpast
      omega
    rw [advance_past_end hpast, hpos, decide_eq_false (by have := hend hpast; omega)]
    exact ⟨_, rfl, ⟨items, fs, b, idx, rfl, hp, hlo, hhi, rfl, hstart, hend⟩⟩
  have hlast : idx + 1 = items.length := by omega
  cases fs with
  | nil =>
    -- the root's only chunk: step past its end
    obtain ⟨hroot', rfl⟩ := hp.nil_inv
    have hn : (entries root).length = items.length := by rw [← hroot']; rfl
    have hpos : min ((0 : Nat) + idx + 1 : Int) (entries root).length = (0 : Nat) + (idx + 1) := by
      omega
    rw [advance_root_end hin hpast, hpos, decide_eq_false (by omega)]
    exact ⟨_, rfl, ⟨items, [], 0, idx + 1, rfl, hp, by omega, by omega, rfl, by omega,
      fun _ => by omega⟩⟩
  | cons p ps =>
    -- the end of a chunk below the root: move the parent on
    have hlen : 0 < items.length := by simpa [seqLen] using hp.seqLen_pos hroot
    obtain ⟨b₀, hstp, hsucc, hb⟩ := hp.stand_parent
    have hdepth := hp.length_of_leaf hroot
    obtain ⟨ihs, ihm⟩ := advance_level hroot hstp
    have he : b₀ + p.seq.before (p.idx.toNat + 1) = b + items.length := by
      rw [hsucc, hb]
      simp only [entries]
      omega
    rw [he] at ihs ihm
    by_cases hlt : b + items.length < (entries root).length
    · obtain ⟨p', ps', b', hadv, hlen', hst', hoff⟩ := ihm hlt
      obtain ⟨cs, hcs, hpath, hcpos, -⟩ :=
        Stand.child hroot hst' (by simp only [List.length_cons] at hdepth; omega)
      obtain ⟨items', rfl⟩ := hpath.exists_leaf hroot
        (by simp only [List.length_cons] at hdepth ⊢; omega)
      have hpos : min ((b : Int) + idx + 1) (entries root).length =
          ((b' + p'.seq.before p'.idx.toNat : Nat) : Int) + 0 := by
        omega
      simp only [seqLen] at hcpos
      have hnext : ((b' + p'.seq.before p'.idx.toNat : Nat) : Int) + 0 < (entries root).length := by
        omega
      rw [advance_up_true hin hpast hadv hcs, hpos, decide_eq_true hnext]
      exact ⟨_, rfl, ⟨items', p' :: ps', _, 0, rfl, hpath, by omega, by omega, rfl, by omega,
        by omega⟩⟩
    · have hn : b + items.length = (entries root).length := by omega
      have hpos : min ((b : Int) + idx + 1) (entries root).length = b + (idx + 1) := by omega
      rw [advance_up_false hin hpast (ihs hn), hpos, decide_eq_false (by omega)]
      exact ⟨_, rfl, ⟨items, p :: ps, b, idx + 1, rfl, hp, by omega, by omega, rfl, by omega,
        fun _ => hn⟩⟩

/-- `retreat` moves the position one back, no further than `-1`, and answers whether it is then
on an entry. -/
theorem retreat_at (hroot : Counted d root) {cur : List (Frame K E)} {g : Int}
    (h : At root cur g) :
    ∃ cur', retreat cur = some (cur', decide (0 ≤ retreatPos g)) ∧
      At root cur' (retreatPos g) := by
  obtain ⟨items, fs, b, idx, rfl, hp, hlo, hhi, rfl, hstart, hend⟩ := h
  unfold retreat retreatPos
  by_cases hin : 0 < idx
  · -- the previous entry of the chunk
    have hpos : max ((b : Int) + idx - 1) (-1) = b + (idx - 1) := by omega
    rw [retreat_within (f := ⟨.leaf items, idx⟩) hin, hpos, decide_eq_true (by omega)]
    exact ⟨_, rfl, ⟨items, fs, b, idx - 1, rfl, hp, by omega, by omega, rfl, by omega,
      by omega⟩⟩
  by_cases hbefore : idx = -1
  · -- parked before the start
    have hb := hstart hbefore
    have hpos : max ((b : Int) + idx - 1) (-1) = b + idx := by omega
    rw [retreat_before_start (f := ⟨.leaf items, idx⟩) hbefore, hpos,
      decide_eq_false (by omega)]
    exact ⟨_, rfl, ⟨items, fs, b, idx, rfl, hp, hlo, hhi, rfl, hstart, hend⟩⟩
  have hz : idx = 0 := by omega
  cases fs with
  | nil =>
    -- the root's only chunk: step before its start
    obtain ⟨-, rfl⟩ := hp.nil_inv
    have hpos : max ((0 : Nat) + idx - 1 : Int) (-1) = (0 : Nat) + (idx - 1) := by omega
    rw [retreat_root_start (f := ⟨.leaf items, idx⟩) hz, hpos, decide_eq_false (by omega)]
    exact ⟨_, rfl, ⟨items, [], 0, idx - 1, rfl, hp, by omega, by omega, rfl, fun _ => rfl,
      by omega⟩⟩
  | cons p ps =>
    -- the start of a chunk below the root: move the parent back
    obtain ⟨b₀, hstp, -, hb⟩ := hp.stand_parent
    have hdepth := hp.length_of_leaf hroot
    obtain ⟨ihs, ihm⟩ := retreat_level hroot hstp
    rw [← hb] at ihs ihm
    by_cases hbpos : 0 < b
    · obtain ⟨p', ps', b', hret, hlen', hst', hoff⟩ := ihm hbpos
      obtain ⟨cs, hcs, hpath, hcpos, hsucc⟩ :=
        Stand.child hroot hst' (by simp only [List.length_cons] at hdepth; omega)
      obtain ⟨items', rfl⟩ := hpath.exists_leaf hroot
        (by simp only [List.length_cons] at hdepth ⊢; omega)
      simp only [seqLen, entries] at hcpos hsucc
      have hpos : max ((b : Int) + idx - 1) (-1) =
          ((b' + p'.seq.before p'.idx.toNat : Nat) : Int) + ((items'.length : Int) - 1) := by
        omega
      rw [retreat_up_true (f := ⟨.leaf items, idx⟩) hz hret hcs, hpos,
        decide_eq_true (by omega)]
      exact ⟨_, rfl, ⟨items', p' :: ps', b' + p'.seq.before p'.idx.toNat,
        (items'.length : Int) - 1, rfl, hpath, by omega, by omega, rfl, by omega, by omega⟩⟩
    · have hb0 : b = 0 := by omega
      have hpos : max ((b : Int) + idx - 1) (-1) = b + (idx - 1) := by omega
      rw [retreat_up_false (f := ⟨.leaf items, idx⟩) hz (ihs hb0), hpos,
        decide_eq_false (by omega)]
      exact ⟨_, rfl, ⟨items, p :: ps, b, idx - 1, rfl, hp, by omega, by omega, rfl,
        fun _ => hb0, by omega⟩⟩

/-- The cursor is valid exactly on an entry. -/
theorem At.valid_iff {f : Frame K E} {fs : List (Frame K E)} {g : Int} (h : At root (f :: fs) g) :
    f.valid = true ↔ 0 ≤ g ∧ g < (entries root).length := by
  obtain ⟨items, fs', b, idx, hcur, hp, hlo, hhi, rfl, hstart, hend⟩ := h
  obtain ⟨rfl, -⟩ := List.cons.inj hcur
  have hle := hp.end_le
  simp only [entries] at hle
  rw [Frame.valid, Bool.and_eq_true, decide_eq_true_iff, decide_eq_true_iff]
  show 0 ≤ idx ∧ idx < (items.length : Int) ↔ _
  constructor
  · rintro ⟨h0, hlt⟩
    exact ⟨by omega, by omega⟩
  · rintro ⟨h0, hlt⟩
    -- a parked cursor stands for `-1` or for the number of entries
    have hidx0 : 0 ≤ idx := by
      rcases Int.lt_or_le idx 0 with hneg | hnn
      · have hb := hstart (by omega)
        omega
      · exact hnn
    have hidxlt : idx < items.length := by
      rcases Int.lt_or_le idx items.length with hl | hge
      · exact hl
      · have hn := hend (by omega)
        omega
    exact ⟨hidx0, hidxlt⟩

/-- On an entry, `current` is the entry at the cursor's position. -/
theorem At.current_eq {f : Frame K E} {fs : List (Frame K E)} {g : Int} (h : At root (f :: fs) g)
    (h0 : 0 ≤ g) (hlt : g < (entries root).length) : f.current = (entries root)[g.toNat]? := by
  have hvalid := (At.valid_iff h).mpr ⟨h0, hlt⟩
  obtain ⟨items, fs', b, idx, hcur, hp, hlo, hhi, rfl, hstart, hend⟩ := h
  obtain ⟨rfl, -⟩ := List.cons.inj hcur
  rw [Frame.valid, Bool.and_eq_true, decide_eq_true_iff, decide_eq_true_iff] at hvalid
  change 0 ≤ idx ∧ idx < (items.length : Int) at hvalid
  obtain ⟨pre, post, heq, hlen⟩ := hp.entries_eq
  simp only [entries] at heq
  have hidx : ((b : Int) + idx).toNat = pre.length + idx.toNat := by omega
  rw [heq, hidx, List.append_assoc, List.getElem?_append_right (by omega), Nat.add_sub_cancel_left,
    List.getElem?_append_left (by omega)]
  simp [Frame.current, hvalid.1]

/-! ## `clone` -/

theorem clone_of_nonneg :
    ∀ cur : List (Frame K E), (∀ f ∈ cur, 0 ≤ f.idx) → clone cur = some cur
  | [], _ => rfl
  | f :: parent, h => by
    have hp := clone_of_nonneg parent fun g hg => h g (List.mem_cons_of_mem f hg)
    simp [clone, hp, newSequenceCursor_of_nonneg _ (h f List.mem_cons_self)]

theorem ChunkPath.idx_nonneg {fs : List (Frame K E)} {s : Sequence K E} {b : Nat}
    (h : ChunkPath root fs s b) : ∀ f ∈ fs, 0 ≤ f.idx := by
  induction h with
  | root => simp
  | child _ _ ih =>
    intro f hf
    rcases List.mem_cons.mp hf with rfl | hf
    · exact Int.natCast_nonneg _
    · exact ih f hf

/-- A clone of a cursor on an entry or past the end is the same chain. -/
theorem At.clone_eq {cur : List (Frame K E)} {g : Int} (h : At root cur g) (hg : 0 ≤ g) :
    clone cur = some cur := by
  obtain ⟨items, fs, b, idx, rfl, hp, hlo, hhi, rfl, hstart, hend⟩ := h
  refine clone_of_nonneg _ fun f hf => ?_
  rcases List.mem_cons.mp hf with rfl | hf
  · -- a cursor parked before the start stands for `-1`
    show 0 ≤ idx
    rcases Int.lt_or_le idx 0 with hneg | hnn
    · have hb := hstart (by omega)
      omega
    · exact hnn
  · exact hp.idx_nonneg f hf

/-- `newSequenceCursor` reads the index `-1` of a parked cursor back from the end of its chunk, so
the clone of a cursor before the start of a tree with entries stands on the last entry of the first
chunk. -/
theorem At.clone_before_start (hroot : Counted d root) {cur : List (Frame K E)}
    (h : At root cur (-1)) (hn : 0 < (entries root).length) :
    ∃ cur' g, clone cur = some cur' ∧ At root cur' g ∧ 0 ≤ g := by
  obtain ⟨items, fs, b, idx, rfl, hp, hlo, hhi, hg, hstart, hend⟩ := h
  have hidx : idx = -1 := by omega
  have hb := hstart hidx
  subst hb
  -- the first chunk has entries: it is the root, or a chunk below it
  have hlen : 0 < items.length := by
    cases fs with
    | nil =>
      obtain ⟨hroot', -⟩ := hp.nil_inv
      rw [← hroot'] at hn
      exact hn
    | cons p ps => simpa [seqLen] using hp.seqLen_pos hroot
  have hnew : newSequenceCursor (leaf items : Sequence K E) idx =
      some ⟨leaf items, (items.length : Int) - 1⟩ := by
    rw [hidx]
    exact newSequenceCursor_last (show 0 < (leaf items : Sequence K E).seqLen from hlen)
  refine ⟨⟨leaf items, (items.length : Int) - 1⟩ :: fs, (items.length : Int) - 1, ?_,
    ⟨items, fs, 0, (items.length : Int) - 1, rfl, hp, by omega, by omega, by omega, by omega,
      by omega⟩, by omega⟩
  simp [clone, clone_of_nonneg fs hp.idx_nonneg, hnew]

/-! ## `newCursorAtIndex` -/

/-- The loop of `advanceCursorToOffset` from tuple `j` stops on the last tuple or on the first
whose entries reach past `idx`, with the entries before it. -/
theorem offsetLoop_spec {tuples : List (K × Nat × Sequence K E)}
    (hc : Counted (d + 1) (metaSeq tuples)) (idx j : Nat) (hj : j < tuples.length)
    (hle : (metaSeq tuples).before j ≤ idx) :
    ∃ p, offsetLoop idx ((tuples.drop j).map (·.2.1)) j ((metaSeq tuples).before j) =
        (p, (metaSeq tuples).before p) ∧ j ≤ p ∧ p < tuples.length ∧
      (metaSeq tuples).before p ≤ idx ∧
      (p + 1 < tuples.length → idx < (metaSeq tuples).before (p + 1)) := by
  have hl : (tuples.drop j).map (·.2.1) = tuples[j].2.1 :: (tuples.drop (j + 1)).map (·.2.1) := by
    rw [List.drop_eq_getElem_cons hj, List.map_cons]
  -- a tuple counts the entries under it
  have hcum : (metaSeq tuples).before j + tuples[j].2.1 = (metaSeq tuples).before (j + 1) := by
    rw [before_succ (List.getElem?_eq_getElem hj), (hc.child (List.getElem_mem hj)).2.2]
  by_cases hj1 : j + 1 < tuples.length
  · have hl1 : (tuples.drop (j + 1)).map (·.2.1) =
        tuples[j + 1].2.1 :: (tuples.drop (j + 2)).map (·.2.1) := by
      rw [List.drop_eq_getElem_cons hj1, List.map_cons]
    rw [hl, hl1]
    simp only [offsetLoop]
    rw [← hl1, hcum]
    by_cases hmove : (metaSeq tuples).before (j + 1) ≤ idx
    · -- the entries of tuple `j` end at or before `idx`: move on
      rw [if_pos hmove]
      obtain ⟨p, hp, hjp, hplt, hple, hnext⟩ := offsetLoop_spec hc idx (j + 1) hj1 hmove
      exact ⟨p, hp, by omega, hplt, hple, hnext⟩
    · rw [if_neg hmove]
      exact ⟨j, rfl, le_refl j, hj, hle, fun _ => by omega⟩
  · -- tuple `j` is the last
    have hnil : tuples.drop (j + 1) = [] := List.drop_eq_nil_of_le (by omega)
    rw [hl, hnil]
    exact ⟨j, rfl, le_refl j, hj, hle, fun h => absurd h hj1⟩
termination_by tuples.length - j

theorem newCursorAtIndexLoop_leaf (fuel : Nat) (cur : List (Frame K E)) (items : List E)
    (idx : Nat) :
    newCursorAtIndexLoop (fuel + 1) cur (leaf items) idx =
      some (⟨leaf items, (min idx items.length : Nat)⟩ :: cur) := by
  simp [newCursorAtIndexLoop, newSequenceCursor_of_nonneg, advanceCursorToOffset, isMeta]

theorem newCursorAtIndexLoop_meta {fuel : Nat} {cur : List (Frame K E)}
    {tuples : List (K × Nat × Sequence K E)} {idx p c : Nat} {t : K × Nat × Sequence K E}
    (hoff : offsetLoop idx (tuples.map (·.2.1)) 0 0 = (p, c)) (ht : tuples[p]? = some t) :
    newCursorAtIndexLoop (fuel + 1) cur (metaSeq tuples) idx =
      newCursorAtIndexLoop fuel (⟨metaSeq tuples, p⟩ :: cur) t.2.2 (idx - c) := by
  simp [newCursorAtIndexLoop, newSequenceCursor_of_nonneg, advanceCursorToOffset, isMeta, hoff,
    childAt, ht]

/-- The descent of `newCursorAtIndex` from a sequence `s` at depth `k` that the path `cur` leads
to: the index within `s` lands on the entry it counts, or past the end when the index is the
number of entries and `s` ends the tree. The induction is on the depth. -/
theorem newCursorAtIndexLoop_at (hroot : Counted d root) :
    ∀ (k : Nat) {fuel : Nat} {cur : List (Frame K E)} {s : Sequence K E} {b idx : Nat},
      k < fuel → Counted k s → ChunkPath root cur s b → idx ≤ (entries s).length →
      (idx = (entries s).length → b + (entries s).length = (entries root).length) →
      ∃ cur', newCursorAtIndexLoop fuel cur s idx = some cur' ∧ At root cur' (b + idx)
  | 0, fuel + 1, cur, s, b, idx, _, hc, hp, hidx, hend => by
    obtain ⟨items, rfl⟩ := hc.exists_leaf
    simp only [entries] at hidx hend
    refine ⟨_, newCursorAtIndexLoop_leaf fuel cur items idx, ?_⟩
    rw [Nat.min_eq_left hidx]
    exact ⟨items, cur, b, idx, rfl, hp, by omega, by omega, rfl, by omega,
      fun h => hend (by omega)⟩
  | k + 1, fuel + 1, cur, s, b, idx, hfuel, hc, hp, hidx, hend => by
    obtain ⟨tuples, rfl⟩ := hc.exists_meta
    obtain ⟨p, hoff, -, hplt, hple, hnext⟩ :=
      offsetLoop_spec hc idx 0 (List.length_pos_of_ne_nil hc.1) (by simp)
    simp only [List.drop_zero, before_zero] at hoff
    have ht : tuples[p]? = some tuples[p] := List.getElem?_eq_getElem hplt
    have hsucc := before_succ ht
    have htotal : (metaSeq tuples).before tuples.length = (entries (metaSeq tuples)).length :=
      before_seqLen (metaSeq tuples)
    -- the index within the child: below its entries, or at their end on the last tuple
    have hidx' : idx - (metaSeq tuples).before p ≤ (entries tuples[p].2.2).length := by
      by_cases hlast : p + 1 < tuples.length
      · have := hnext hlast
        omega
      · have hp1 : p + 1 = tuples.length := by omega
        rw [← hp1] at htotal
        omega
    have hend' : idx - (metaSeq tuples).before p = (entries tuples[p].2.2).length →
        b + (metaSeq tuples).before p + (entries tuples[p].2.2).length =
          (entries root).length := by
      intro heq
      have hlast : ¬p + 1 < tuples.length := fun hlast => by
        have := hnext hlast
        omega
      have hp1 : p + 1 = tuples.length := by omega
      rw [← hp1] at htotal
      have := hend (by omega)
      omega
    obtain ⟨cur', hloop, hat⟩ := newCursorAtIndexLoop_at hroot k (show k < fuel by omega)
      (hc.child (List.mem_of_getElem? ht)).1 (ChunkPath.child hp ht) hidx' hend'
    refine ⟨cur', by rw [newCursorAtIndexLoop_meta hoff ht]; exact hloop, ?_⟩
    have hpos : ((b + (metaSeq tuples).before p : Nat) : Int) +
        ((idx - (metaSeq tuples).before p : Nat) : Int) =
          ((b : Nat) : Int) + ((idx : Nat) : Int) := by
      omega
    rwa [hpos] at hat

/-- `newCursorAtIndex(seq, i)` for every `i` up to the number of entries: a leaf-level chain at
position `i`. -/
theorem newCursorAtIndex_at (hroot : Counted d root) {i : Nat} (hi : i ≤ (entries root).length) :
    ∃ cur, newCursorAtIndex root i = some cur ∧ At root cur i := by
  obtain ⟨cur, hloop, hat⟩ :=
    newCursorAtIndexLoop_at hroot d (Nat.lt_succ_self d) hroot ChunkPath.root
      hi (fun _ => by omega)
  refine ⟨cur, by rw [newCursorAtIndex, hroot.depth_eq]; exact hloop, ?_⟩
  simpa using hat

end Position

/-! ## Runs of calls -/

/-- A call a client makes on a cursor. -/
inductive Move
  | advance
  | retreat
  deriving DecidableEq, Repr

/-- `cur.advance()` or `cur.retreat()`. -/
def Move.call : Move → List (Frame K E) → Option (List (Frame K E) × Bool)
  | .advance, cur => Types.advance cur
  | .retreat, cur => Types.retreat cur

/-- The calls made one after another on one cursor; `none` where one panics. -/
def runMoves : List Move → List (Frame K E) → Option (List (Frame K E))
  | [], cur => some cur
  | m :: ms, cur => do
    let (cur', _) ← m.call cur
    runMoves ms cur'

/-- What a call does to the position among `n` entries. -/
def Move.pos (n : Nat) : Move → Int → Int
  | .advance, g => advancePos n g
  | .retreat, g => retreatPos g

section Runs

variable {d : Nat} {root : Sequence K E}

theorem Move.call_at (hroot : Counted d root) (m : Move) {cur : List (Frame K E)} {g : Int}
    (h : At root cur g) :
    ∃ cur' r, m.call cur = some (cur', r) ∧ At root cur' (m.pos (entries root).length g) := by
  cases m with
  | advance =>
    obtain ⟨cur', hadv, hat⟩ := advance_at hroot h
    exact ⟨cur', _, by rw [Move.call]; exact hadv, hat⟩
  | retreat =>
    obtain ⟨cur', hret, hat⟩ := retreat_at hroot h
    exact ⟨cur', _, by rw [Move.call]; exact hret, hat⟩

/-- Every run of calls keeps the chain's shape, and moves its position as the calls say. -/
theorem runMoves_at (hroot : Counted d root) :
    ∀ (ms : List Move) {cur : List (Frame K E)} {g : Int}, At root cur g →
      ∃ cur', runMoves ms cur = some cur' ∧
        At root cur' (ms.foldl (fun g m => m.pos (entries root).length g) g)
  | [], cur, g, h => ⟨cur, rfl, h⟩
  | m :: ms, cur, g, h => by
    obtain ⟨cur', r, hcall, hat⟩ := m.call_at hroot h
    obtain ⟨cur'', hrun, hat'⟩ := runMoves_at hroot ms hat
    exact ⟨cur'', by simp [runMoves, hcall, hrun], hat'⟩

end Runs

/-- On every tree the chunker builds, a leaf-level cursor chain is a position among the entries:
`newCursorAtIndex` puts it at any index, `advance` and `retreat` move it by one up to the two
ends and answer whether it is on an entry, every run of calls keeps it so, and it is valid
exactly on an entry, which `current` returns. `clone` copies a cursor on an entry or past the
end, but not one parked before the start: it stands on an entry instead. -/
theorem cursor_chain_is_position {d : Nat} {root : Sequence K E} (hroot : Counted d root) :
    (∀ i : Nat, i ≤ (entries root).length →
      ∃ cur, newCursorAtIndex root i = some cur ∧ At root cur i) ∧
    (∀ (cur : List (Frame K E)) (g : Int), At root cur g →
      ∃ cur', advance cur =
          some (cur', decide (advancePos (entries root).length g < (entries root).length)) ∧
        At root cur' (advancePos (entries root).length g)) ∧
    (∀ (cur : List (Frame K E)) (g : Int), At root cur g →
      ∃ cur', retreat cur = some (cur', decide (0 ≤ retreatPos g)) ∧
        At root cur' (retreatPos g)) ∧
    (∀ (ms : List Move) (cur : List (Frame K E)) (g : Int), At root cur g →
      ∃ cur', runMoves ms cur = some cur' ∧
        At root cur' (ms.foldl (fun g m => m.pos (entries root).length g) g)) ∧
    (∀ (f : Frame K E) (fs : List (Frame K E)) (g : Int), At root (f :: fs) g →
      (f.valid = true ↔ 0 ≤ g ∧ g < (entries root).length) ∧
      (0 ≤ g → g < (entries root).length → f.current = (entries root)[g.toNat]?)) ∧
    (∀ (cur : List (Frame K E)) (g : Int), At root cur g → 0 ≤ g → clone cur = some cur) ∧
    (∀ cur : List (Frame K E), At root cur (-1) → 0 < (entries root).length →
      ∃ cur' g, clone cur = some cur' ∧ At root cur' g ∧ 0 ≤ g) := by
  refine ⟨fun i hi => newCursorAtIndex_at hroot hi, fun cur g h => advance_at hroot h,
    fun cur g h => retreat_at hroot h, fun ms cur g h => runMoves_at hroot ms h, ?_,
    fun cur g h hg => h.clone_eq hg, fun cur h hn => h.clone_before_start hroot hn⟩
  intro f fs g h
  exact ⟨h.valid_iff, h.current_eq⟩

/-- The leaf `[1, 2]`: `retreat` from its first entry parks the cursor before the start, and the
clone of that cursor stands on the entry `2`. -/
theorem cursor_chain_is_position_clone_parked :
    Counted 0 (leaf [1, 2] : Sequence Nat Nat) ∧
      retreat [(⟨leaf [1, 2], 0⟩ : Frame Nat Nat)] = some ([⟨leaf [1, 2], -1⟩], false) ∧
      At (leaf [1, 2]) [(⟨leaf [1, 2], -1⟩ : Frame Nat Nat)] (-1) ∧
      clone [(⟨leaf [1, 2], -1⟩ : Frame Nat Nat)] = some [⟨leaf [1, 2], 1⟩] ∧
      ∃ cur' g, clone [(⟨leaf [1, 2], -1⟩ : Frame Nat Nat)] = some cur' ∧
        At (leaf [1, 2]) cur' g ∧ 0 ≤ g := by
  have hroot : Counted 0 (leaf [1, 2] : Sequence Nat Nat) := trivial
  have hparked : At (leaf [1, 2]) [(⟨leaf [1, 2], -1⟩ : Frame Nat Nat)] (-1) :=
    ⟨[1, 2], [], 0, -1, rfl, .root, by decide, by decide, rfl, fun _ => rfl, by decide⟩
  obtain ⟨-, -, -, -, -, -, hclone⟩ := cursor_chain_is_position hroot
  exact ⟨hroot, rfl, hparked, rfl, hclone _ hparked (by decide)⟩

end Noms.Types
