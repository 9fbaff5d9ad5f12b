import Noms.Types.CursorPosition
import Mathlib

/-!
# Seeking a key (`newCursorAt` in `ordered_sequences.go`)

On a tree whose entries have strictly increasing keys and whose tuples carry the greatest key
below them, `seekTo`'s search on a level lands past exactly the keys below the sought one
(`search_notBelow_eq`): on a meta level, the first tuple whose key is not below the sought one
(`seek_meta_first`), or for an insertion past every key the last tuple (`seek_meta_last`).
Descending by that search, `newCursorAt` stands for the number of entries with a key below the
sought one (`newCursorAtLoop_seek`): the least entry not below it, or, for an insertion, possibly
the end of the tree. Without a key it stands for the first entry
(`newCursorAtLoop_first_at`). `newCursorAt_positions` puts the three seeks of `Map` and `Set`
together: a lookup is valid exactly when some entry is not below the key, and then stands on the
least such entry.
-/

namespace Noms.Types

open Sequence Noms.Lib

variable {K E : Type} [LinearOrder K]

/-! ## The search of `seekTo` on sorted keys -/

/-- In a list sorted upward, the keys below `key` come first. -/
theorem lt_iff_lt_length_filter (key : K) :
    ∀ {ks : List K}, ks.Pairwise (· ≤ ·) → ∀ {i : Nat} (hi : i < ks.length),
      ks[i] < key ↔ i < (ks.filter (· < key)).length
  | [], _, _, hi => absurd hi (Nat.not_lt_zero _)
  | a :: l, hks, i, hi => by
    obtain ⟨ha, hl⟩ := List.pairwise_cons.mp hks
    by_cases hak : a < key
    · rw [List.filter_cons_of_pos (by simpa using hak), List.length_cons]
      cases i with
      | zero => simp [hak]
      | succ j =>
        rw [List.getElem_cons_succ, lt_iff_lt_length_filter key hl (by simpa using hi)]
        omega
    · -- every key from `a` on is at least `key`
      have hnil : l.filter (· < key) = [] := by
        rw [List.filter_eq_nil_iff]
        intro x hx
        simpa using le_trans (not_lt.mp hak) (ha x hx)
      rw [List.filter_cons_of_neg (by simpa using hak), hnil, List.length_nil]
      have hge : a ≤ (a :: l)[i] := by
        cases i with
        | zero => exact le_refl a
        | succ j => exact ha _ (List.getElem_mem _)
      simp only [Nat.not_lt_zero, iff_false, not_lt]
      exact le_trans (not_lt.mp hak) hge

theorem notBelow_of_lt {ks : List K} {key : K} {i : Nat} (hi : i < ks.length) :
    notBelow ks key i = !decide (ks[i] < key) := by
  simp [notBelow, List.getElem?_eq_getElem hi]

/-- On sorted keys the search of `seekTo` lands past the keys below `key`. -/
theorem search_notBelow_eq {ks : List K} (hks : ks.Pairwise (· ≤ ·)) (key : K) :
    search (notBelow ks key) 0 ks.length = (ks.filter (· < key)).length := by
  have hmono : MonotoneBelow (notBelow ks key) ks.length := by
    intro a b hab hb ha
    rw [notBelow_of_lt (by omega)] at ha
    rw [notBelow_of_lt hb]
    have hle : ks[a] ≤ ks[b] := by
      rcases Nat.lt_or_eq_of_le hab with hlt | rfl
      · exact List.pairwise_iff_getElem.mp hks a b (by omega) hb hlt
      · exact le_refl _
    simp only [Bool.not_eq_eq_eq_not, Bool.not_true, decide_eq_false_iff_not, not_lt] at ha ⊢
    exact le_trans ha hle
  refine search_eq_of hmono (List.length_filter_le _ _) (fun i hi => ?_) (fun hlt => ?_)
  · have hilen : i < ks.length := lt_of_lt_of_le hi (List.length_filter_le _ _)
    rw [notBelow_of_lt hilen, decide_eq_true ((lt_iff_lt_length_filter key hks hilen).mpr hi)]
    rfl
  · rw [notBelow_of_lt hlt]
    have := (lt_iff_lt_length_filter key hks hlt).not.mpr (lt_irrefl _)
    simp [this]

section Seek

variable (keyOf : E → K) {f : Frame K E} {key : K}

/-- The number of keys of `f`'s sequence below `key`. -/
def keysBelow (f : Frame K E) (key : K) : Nat := ((f.seq.keys keyOf).filter (· < key)).length

theorem search_keysBelow (hks : (f.seq.keys keyOf).Pairwise (· ≤ ·)) :
    search (notBelow (f.seq.keys keyOf) key) 0 f.seq.seqLen = keysBelow keyOf f key := by
  rw [← @length_keys _ _ keyOf f.seq, search_notBelow_eq hks]
  rfl

theorem seekTo_of_lt {last : Bool} (hks : (f.seq.keys keyOf).Pairwise (· ≤ ·))
    (hlt : keysBelow keyOf f key < f.seq.seqLen) :
    seekTo keyOf f key last = some (⟨f.seq, keysBelow keyOf f key⟩, true) := by
  simp [seekTo, search_keysBelow keyOf hks, Nat.ne_of_lt hlt, hlt]

theorem seekTo_of_eq (hks : (f.seq.keys keyOf).Pairwise (· ≤ ·))
    (heq : keysBelow keyOf f key = f.seq.seqLen) :
    seekTo keyOf f key false = some (⟨f.seq, keysBelow keyOf f key⟩, false) := by
  simp [seekTo, search_keysBelow keyOf hks, heq]

/-- For an insertion, a seek past every key steps back onto the last one. -/
theorem seekTo_last_of_eq (hks : (f.seq.keys keyOf).Pairwise (· ≤ ·))
    (heq : keysBelow keyOf f key = f.seq.seqLen) (hpos : 0 < f.seq.seqLen) :
    seekTo keyOf f key true = some (⟨f.seq, (f.seq.seqLen : Int) - 1⟩, true) := by
  have hlt : f.seq.seqLen - 1 < f.seq.seqLen := by omega
  simp [seekTo, search_keysBelow keyOf hks, heq, hpos, hlt]

end Seek

/-! ## Trees with increasing keys -/

section Keys

variable {keyOf : E → K}

/-- The entries of a list with a key below `key`. -/
def entriesBelow (keyOf : E → K) (key : K) (l : List E) : Nat :=
  (l.filter fun e => keyOf e < key).length

@[simp]
theorem entriesBelow_append (key : K) (l₁ l₂ : List E) :
    entriesBelow keyOf key (l₁ ++ l₂) = entriesBelow keyOf key l₁ + entriesBelow keyOf key l₂ := by
  simp [entriesBelow, List.filter_append]

theorem entriesBelow_of_lt {key : K} {l : List E} (h : ∀ e ∈ l, keyOf e < key) :
    entriesBelow keyOf key l = l.length := by
  rw [entriesBelow, List.filter_eq_self.mpr (by simpa using h)]

theorem entriesBelow_of_le {key : K} {l : List E} (h : ∀ e ∈ l, key ≤ keyOf e) :
    entriesBelow keyOf key l = 0 := by
  rw [entriesBelow, List.length_eq_zero_iff, List.filter_eq_nil_iff]
  simpa using h

theorem entriesBelow_map (key : K) (l : List E) :
    ((l.map keyOf).filter (· < key)).length = entriesBelow keyOf key l := by
  simp [entriesBelow, List.filter_map, Function.comp_def]

/-- The last key of a list with increasing keys is its greatest. -/
theorem le_of_getLast? {l : List E} (hs : (l.map keyOf).Pairwise (· < ·)) {m : K}
    (hlast : l.getLast?.map keyOf = some m) : ∀ e ∈ l, keyOf e ≤ m := by
  obtain ⟨x, hx, rfl⟩ := Option.map_eq_some_iff.mp hlast
  have hsplit := List.dropLast_append_getLast? x hx
  rw [← hsplit, List.map_append, List.pairwise_append] at hs
  intro e he
  rw [← hsplit, List.mem_append, List.mem_singleton] at he
  rcases he with he | rfl
  · exact le_of_lt (hs.2.2 _ (List.mem_map_of_mem he) _ (by simp))
  · exact le_refl _

end Keys

namespace Sequence

variable {keyOf : E → K}

omit [LinearOrder K] in
theorem seqLen_pos_of_entries_ne_nil {s : Sequence K E} (h : entries s ≠ []) : 0 < s.seqLen := by
  cases s with
  | leaf items => exact List.length_pos_of_ne_nil h
  | metaSeq tuples =>
    refine List.length_pos_of_ne_nil fun hnil => h ?_
    simp [entries, hnil, entriesList]

omit [LinearOrder K] in
/-- A well-formed tree counts its entries. -/
theorem WF.counted : ∀ {d : Nat} {s : Sequence K E}, WF keyOf d s → Counted d s
  | 0, leaf _, _ => trivial
  | _ + 1, metaSeq _, hwf => ⟨hwf.1, fun t ht =>
      ⟨WF.counted (hwf.2 t ht).1, seqLen_pos_of_entries_ne_nil (entries_ne_nil_of_tuple hwf ht),
        (hwf.2 t ht).2.2⟩⟩

omit [LinearOrder K] in
theorem mem_entriesList {e : E} :
    ∀ {tuples : List (K × Nat × Sequence K E)},
      e ∈ entriesList tuples ↔ ∃ t ∈ tuples, e ∈ entries t.2.2
  | [] => by simp [entriesList]
  | t :: rest => by
    rw [entriesList, List.mem_append, mem_entriesList]
    simp

omit [LinearOrder K] in
theorem entries_sublist_of_mem {t : K × Nat × Sequence K E} :
    ∀ {tuples : List (K × Nat × Sequence K E)}, t ∈ tuples →
      (entries t.2.2).Sublist (entriesList tuples)
  | [], h => absurd h List.not_mem_nil
  | _ :: _, h => by
    rw [entriesList]
    rcases List.mem_cons.mp h with rfl | h
    · exact List.sublist_append_left _ _
    · exact (entries_sublist_of_mem h).trans (List.sublist_append_right _ _)

section Ordered

variable {d : Nat} {tuples : List (K × Nat × Sequence K E)}

/-- Every entry under a tuple has a key at most the tuple's. -/
theorem key_le_of_mem (hwf : WF keyOf (d + 1) (metaSeq tuples))
    (hs : ((entries (metaSeq tuples)).map keyOf).Pairwise (· < ·))
    {t : K × Nat × Sequence K E} (ht : t ∈ tuples) {e : E} (he : e ∈ entries t.2.2) :
    keyOf e ≤ t.1 :=
  le_of_getLast? (hs.sublist ((entries_sublist_of_mem ht).map keyOf)) (hwf.2 t ht).2.1 e he

/-- The tuples' keys increase with the entries under them. -/
theorem keys_sorted : ∀ {tuples : List (K × Nat × Sequence K E)},
    WF keyOf (d + 1) (metaSeq tuples) → ((entries (metaSeq tuples)).map keyOf).Pairwise (· < ·) →
    ((metaSeq tuples).keys keyOf).Pairwise (· ≤ ·)
  | [], _, _ => List.Pairwise.nil
  | t :: rest, hwf, hs => by
    rw [entries, entriesList, List.map_append, List.pairwise_append] at hs
    obtain ⟨-, hrest, hcross⟩ := hs
    have hwf' : ∀ u ∈ t :: rest, WF keyOf d u.2.2 ∧ (entries u.2.2).getLast?.map keyOf = some u.1 ∧
        u.2.1 = (entries u.2.2).length := hwf.2
    -- the key of each tuple is the key of an entry under it
    have hkey : ∀ u ∈ t :: rest, ∃ e ∈ entries u.2.2, keyOf e = u.1 := by
      intro u hu
      obtain ⟨e, he, hke⟩ := Option.map_eq_some_iff.mp (hwf' u hu).2.1
      exact ⟨e, List.mem_of_getLast? he, hke⟩
    refine List.pairwise_cons.mpr ⟨?_, ?_⟩
    · intro k hk
      obtain ⟨u, hu, rfl⟩ := List.mem_map.mp hk
      obtain ⟨e, he, hke⟩ := hkey t List.mem_cons_self
      obtain ⟨e', he', hke'⟩ := hkey u (List.mem_cons_of_mem t hu)
      show t.1 ≤ u.1
      rw [← hke, ← hke']
      exact le_of_lt (hcross _ (List.mem_map_of_mem he) _
        (List.mem_map_of_mem (mem_entriesList.mpr ⟨u, hu, he'⟩)))
    · cases rest with
      | nil => exact List.Pairwise.nil
      | cons u rest' =>
        exact keys_sorted ⟨List.cons_ne_nil u rest', fun v hv => hwf' v (List.mem_cons_of_mem t hv)⟩
          hrest

/-- The entries after a tuple have keys above the tuple's. -/
theorem lt_of_mem_after (hwf : WF keyOf (d + 1) (metaSeq tuples))
    (hs : ((entries (metaSeq tuples)).map keyOf).Pairwise (· < ·)) {j : Nat}
    {t : K × Nat × Sequence K E} (ht : tuples[j]? = some t) {e : E}
    (he : e ∈ entriesList (tuples.drop (j + 1))) : t.1 < keyOf e := by
  obtain ⟨x, hx, hkx⟩ := Option.map_eq_some_iff.mp (hwf.2 t (List.mem_of_getElem? ht)).2.1
  rw [entries, entriesList_eq_of_getElem? ht, List.map_append, List.pairwise_append] at hs
  rw [← hkx]
  exact hs.2.2 _ (List.mem_map_of_mem (List.mem_append_right _ (List.mem_of_getLast? hx))) _
    (List.mem_map_of_mem he)

/-- Under the tuples whose keys lie below `key`, every entry's key does. -/
theorem lt_of_mem_before (hwf : WF keyOf (d + 1) (metaSeq tuples))
    (hs : ((entries (metaSeq tuples)).map keyOf).Pairwise (· < ·)) {key : K} {e : E}
    (he : e ∈ entriesList (tuples.take (((metaSeq tuples).keys keyOf).filter (· < key)).length)) :
    keyOf e < key := by
  obtain ⟨t, ht, het⟩ := mem_entriesList.mp he
  obtain ⟨i, hi, rfl⟩ := List.getElem_of_mem ht
  rw [List.length_take] at hi
  have hlen : i < tuples.length := by omega
  have hkeys : i < ((metaSeq tuples).keys keyOf).length := by simpa [keys] using hlen
  have hti : ((metaSeq tuples).keys keyOf)[i] < key :=
    (lt_iff_lt_length_filter _ (keys_sorted hwf hs) hkeys).mpr (by omega)
  have hle := key_le_of_mem hwf hs (List.getElem_mem hlen) (by simpa using het)
  simp only [keys, List.getElem_map] at hti
  exact lt_of_le_of_lt hle hti

end Ordered

end Sequence

/-! ## The descent of `newCursorAt` -/

section Descent

variable (keyOf : E → K) {key : K} {ins : Bool} {fuel : Nat} {cur : List (Frame K E)}

theorem newCursorAtLoop_seek_leaf {items : List E} {f' : Frame K E} {found : Bool}
    (hf : seekTo keyOf ⟨leaf items, 0⟩ key false = some (f', found)) :
    newCursorAtLoop keyOf (some key) ins false (fuel + 1) cur (leaf items) = some (f' :: cur) := by
  cases found <;> simp [newCursorAtLoop, newSequenceCursor_of_nonneg, isMeta, hf]

theorem newCursorAtLoop_seek_meta {tuples : List (K × Nat × Sequence K E)} {f' : Frame K E}
    {cs : Sequence K E} (hf : seekTo keyOf ⟨metaSeq tuples, 0⟩ key ins = some (f', true))
    (hcs : (metaSeq tuples).childAt f'.idx = some cs) :
    newCursorAtLoop keyOf (some key) ins false (fuel + 1) cur (metaSeq tuples) =
      newCursorAtLoop keyOf (some key) ins false fuel (f' :: cur) cs := by
  simp [newCursorAtLoop, newSequenceCursor_of_nonneg, isMeta, hf, hcs]

theorem newCursorAtLoop_none_leaf (items : List E) :
    newCursorAtLoop keyOf none ins false (fuel + 1) cur (leaf items) =
      some (⟨leaf items, 0⟩ :: cur) := by
  simp [newCursorAtLoop, newSequenceCursor_of_nonneg, isMeta]

theorem newCursorAtLoop_none_meta {tuples : List (K × Nat × Sequence K E)} {cs : Sequence K E}
    (hcs : (metaSeq tuples).childAt 0 = some cs) :
    newCursorAtLoop keyOf none ins false (fuel + 1) cur (metaSeq tuples) =
      newCursorAtLoop keyOf none ins false fuel (⟨metaSeq tuples, 0⟩ :: cur) cs := by
  simp [newCursorAtLoop, newSequenceCursor_of_nonneg, isMeta, hcs]

variable {keyOf} {d : Nat} {root : Sequence K E}

/-- A subtree of a tree with increasing keys has increasing keys. -/
theorem ChunkPath.sorted (hsorted : ((entries root).map keyOf).Pairwise (· < ·))
    {fs : List (Frame K E)} {s : Sequence K E} {b : Nat} (hp : ChunkPath root fs s b) :
    ((entries s).map keyOf).Pairwise (· < ·) := by
  obtain ⟨pre, post, heq, -⟩ := hp.entries_eq
  rw [heq, List.map_append, List.map_append] at hsorted
  exact (List.pairwise_append.mp (List.pairwise_append.mp hsorted).1).2.1

/-- On a leaf with increasing keys the seek lands past the entries below `key`, on an entry or at
the leaf's end. -/
theorem seek_leaf {items : List E} (hs : (items.map keyOf).Pairwise (· < ·)) :
    ∃ found, seekTo keyOf ⟨leaf items, 0⟩ key false =
      some (⟨leaf items, (entriesBelow keyOf key items : Int)⟩, found) := by
  have hks : ((⟨leaf items, 0⟩ : Frame K E).seq.keys keyOf).Pairwise (· ≤ ·) := by
    simpa [keys] using hs.imp le_of_lt
  have hj : keysBelow keyOf (⟨leaf items, 0⟩ : Frame K E) key = entriesBelow keyOf key items := by
    simp [keysBelow, keys, entriesBelow_map]
  have hjle : entriesBelow keyOf key items ≤ items.length := List.length_filter_le _ _
  rcases Nat.lt_or_eq_of_le hjle with hlt | heq
  · refine ⟨true, ?_⟩
    rw [seekTo_of_lt keyOf hks (by simpa [hj, seqLen] using hlt), hj]
  · refine ⟨false, ?_⟩
    rw [seekTo_of_eq keyOf hks (by simpa [hj, seqLen] using heq), hj]

/-- At a meta level holding a key not below `key`, the seek lands on the first tuple whose key is
not below `key`: the entries before it are below `key`, those after it are not, and it holds an
entry not below `key`. -/
theorem seek_meta_first {k : Nat} {tuples : List (K × Nat × Sequence K E)}
    (hwf : WF keyOf (k + 1) (metaSeq tuples))
    (hs : ((entries (metaSeq tuples)).map keyOf).Pairwise (· < ·))
    (hlt : keysBelow keyOf (⟨metaSeq tuples, 0⟩ : Frame K E) key < tuples.length) :
    ∃ (j : Nat) (t : K × Nat × Sequence K E), tuples[j]? = some t ∧
      seekTo keyOf ⟨metaSeq tuples, 0⟩ key ins = some (⟨metaSeq tuples, (j : Int)⟩, true) ∧
      (metaSeq tuples).childAt (j : Int) = some t.2.2 ∧
      entriesBelow keyOf key (entries (metaSeq tuples)) =
        (metaSeq tuples).before j + entriesBelow keyOf key (entries t.2.2) ∧
      ∃ e ∈ entries t.2.2, key ≤ keyOf e := by
  have hks := keys_sorted hwf hs
  set j := keysBelow keyOf (⟨metaSeq tuples, 0⟩ : Frame K E) key
  have ht : tuples[j]? = some tuples[j] := List.getElem?_eq_getElem hlt
  have hjkey : key ≤ tuples[j].1 := by
    have hkeys : j < ((metaSeq tuples).keys keyOf).length := by simpa [keys] using hlt
    have := (lt_iff_lt_length_filter key hks hkeys).not.mpr (lt_irrefl _)
    simpa [keys] using this
  -- the entries before the tuple are below `key`, those after it are not
  have hbefore : entriesBelow keyOf key (entriesList (tuples.take j)) =
      (metaSeq tuples).before j :=
    entriesBelow_of_lt fun e he => lt_of_mem_before hwf hs he
  have hafter : entriesBelow keyOf key (entriesList (tuples.drop (j + 1))) = 0 :=
    entriesBelow_of_le fun e he =>
      le_of_lt (lt_of_le_of_lt hjkey (lt_of_mem_after hwf hs ht he))
  -- the tuple's key is that of its last entry
  obtain ⟨x, hx, hkx⟩ := Option.map_eq_some_iff.mp (hwf.2 _ (List.mem_of_getElem? ht)).2.1
  refine ⟨j, tuples[j], ht, seekTo_of_lt keyOf hks (by simpa [seqLen] using hlt),
    by simp [childAt, ht], ?_, x, List.mem_of_getLast? hx, by rw [hkx]; exact hjkey⟩
  rw [entries, entriesList_eq_of_getElem? ht, entriesBelow_append, entriesBelow_append, hbefore,
    hafter, Nat.add_zero]

/-- A meta level whose tuples' keys are all below `key` has all its entries below `key`. -/
theorem entries_lt_of_keysBelow_eq {k : Nat} {tuples : List (K × Nat × Sequence K E)}
    (hwf : WF keyOf (k + 1) (metaSeq tuples))
    (hs : ((entries (metaSeq tuples)).map keyOf).Pairwise (· < ·))
    (heq : keysBelow keyOf (⟨metaSeq tuples, 0⟩ : Frame K E) key = tuples.length) :
    ∀ e ∈ entries (metaSeq tuples), keyOf e < key := by
  intro e he
  have htake : tuples.take (((metaSeq tuples).keys keyOf).filter (· < key)).length = tuples :=
    List.take_of_length_le (by simp only [keysBelow] at heq; omega)
  exact lt_of_mem_before hwf hs (by rw [htake]; exact he)

/-- On a meta level whose tuples' keys are all below `key`, an insertion seek lands on the last
tuple, whose entries are all below `key` and end the level. -/
theorem seek_meta_last {k : Nat} {tuples : List (K × Nat × Sequence K E)}
    (hwf : WF keyOf (k + 1) (metaSeq tuples))
    (hs : ((entries (metaSeq tuples)).map keyOf).Pairwise (· < ·))
    (heq : keysBelow keyOf (⟨metaSeq tuples, 0⟩ : Frame K E) key = tuples.length)
    (hins : ins = true) :
    ∃ t, tuples[tuples.length - 1]? = some t ∧
      seekTo keyOf ⟨metaSeq tuples, 0⟩ key ins =
        some (⟨metaSeq tuples, ((tuples.length - 1 : Nat) : Int)⟩, true) ∧
      (metaSeq tuples).childAt ((tuples.length - 1 : Nat) : Int) = some t.2.2 ∧
      (metaSeq tuples).before (tuples.length - 1) + (entries t.2.2).length =
        (entries (metaSeq tuples)).length ∧
      entriesBelow keyOf key (entries t.2.2) = (entries t.2.2).length := by
  have hks := keys_sorted hwf hs
  have hpos : 0 < tuples.length := List.length_pos_of_ne_nil hwf.1
  have hlast : tuples.length - 1 < tuples.length := by omega
  have ht : tuples[tuples.length - 1]? = some tuples[tuples.length - 1] :=
    List.getElem?_eq_getElem hlast
  have hidx : ((tuples.length - 1 : Nat) : Int) = (tuples.length : Int) - 1 := by omega
  -- the last tuple's entries end the level
  have hsucc := before_succ ht
  have htotal : (metaSeq tuples).before tuples.length = (entries (metaSeq tuples)).length :=
    before_seqLen (metaSeq tuples)
  rw [Nat.sub_add_cancel hpos, htotal] at hsucc
  refine ⟨tuples[tuples.length - 1], ht, ?_, by simp [childAt, ht], by omega, ?_⟩
  · rw [hidx, hins]
    exact seekTo_last_of_eq keyOf hks (by simpa [seqLen] using heq) (by simpa [seqLen] using hpos)
  · exact entriesBelow_of_lt fun e he => entries_lt_of_keysBelow_eq hwf hs heq e
      ((entries_sublist_of_mem (List.getElem_mem hlast)).subset he)

/-- The descent of a seek for `key` from a sequence `s` at depth `k` that the path `cur` leads
to, with `b` entries before it: when the entries before `s` and those of `s` below `key` count
the tree's entries below `key`, and `s` holds a key not below `key` or the seek is for an
insertion at the tree's end, the cursor stands for that count. At each meta level the seek
lands on the first tuple whose key is not below `key`, or for an insertion on the last. -/
theorem newCursorAtLoop_seek (hroot : WF keyOf d root)
    (hsorted : ((entries root).map keyOf).Pairwise (· < ·)) :
    ∀ (k : Nat) {fuel : Nat} {cur : List (Frame K E)} {s : Sequence K E} {b : Nat},
      k < fuel → WF keyOf k s → ChunkPath root cur s b →
      b + entriesBelow keyOf key (entries s) = entriesBelow keyOf key (entries root) →
      ((∃ e ∈ entries s, key ≤ keyOf e) ∨
        (ins = true ∧ b + (entries s).length = (entries root).length)) →
      ∃ cur', newCursorAtLoop keyOf (some key) ins false fuel cur s = some cur' ∧
        At root cur' (entriesBelow keyOf key (entries root))
  | 0, fuel + 1, cur, s, b, _, hwf, hp, hcnt, hor => by
    obtain ⟨items, rfl⟩ := hwf.counted.exists_leaf
    have hs := hp.sorted hsorted
    simp only [entries] at hs hcnt hor
    have hjle : entriesBelow keyOf key items ≤ items.length := List.length_filter_le _ _
    obtain ⟨found, hf⟩ := seek_leaf hs
    refine ⟨_, newCursorAtLoop_seek_leaf keyOf hf, items, cur, b, _, rfl, hp, by omega,
      by omega, by omega, by omega, fun hend => ?_⟩
    -- past the chunk's end: every entry is below `key`, so the seek was for an insertion
    have hall : ∀ e ∈ items, keyOf e < key := by
      have hend' : entriesBelow keyOf key items = items.length := by exact_mod_cast hend
      rw [entriesBelow, List.length_filter_eq_length_iff] at hend'
      simpa using hend'
    rcases hor with ⟨e, he, hle⟩ | ⟨-, hn⟩
    · exact absurd (hall e he) (not_lt.mpr hle)
    · exact hn
  | k + 1, fuel + 1, cur, s, b, hfuel, hwf, hp, hcnt, hor => by
    obtain ⟨tuples, rfl⟩ := hwf.counted.exists_meta
    have hs := hp.sorted hsorted
    have hjle : keysBelow keyOf (⟨metaSeq tuples, 0⟩ : Frame K E) key ≤ tuples.length := by
      simpa [keysBelow, keys] using List.length_filter_le (· < key) (tuples.map (·.1))
    rcases Nat.lt_or_eq_of_le hjle with hlt | heq
    · -- the seek finds the first tuple whose key is not below `key`
      obtain ⟨j, t, ht, hseek, hcs, hcount, hreach⟩ := seek_meta_first hwf hs hlt
      obtain ⟨cur', hloop, hat⟩ := newCursorAtLoop_seek hroot hsorted k (show k < fuel by omega)
        (hwf.2 _ (List.mem_of_getElem? ht)).1 (ChunkPath.child hp ht) (by omega) (.inl hreach)
      exact ⟨cur', by rw [newCursorAtLoop_seek_meta keyOf hseek hcs]; exact hloop, hat⟩
    · -- every tuple's key is below `key`: the seek is for an insertion at the tree's end
      have hall := entries_lt_of_keysBelow_eq hwf hs heq
      obtain ⟨hins, hn⟩ : ins = true ∧ b + (entries (metaSeq tuples)).length =
          (entries root).length := by
        rcases hor with ⟨e, he, hle⟩ | h
        · exact absurd (hall e he) (not_lt.mpr hle)
        · exact h
      obtain ⟨t, ht, hseek, hcs, hend, hchild⟩ := seek_meta_last hwf hs heq hins
      rw [entriesBelow_of_lt hall] at hcnt
      obtain ⟨cur', hloop, hat⟩ := newCursorAtLoop_seek hroot hsorted k (show k < fuel by omega)
        (hwf.2 _ (List.mem_of_getElem? ht)).1 (ChunkPath.child hp ht) (by omega)
        (.inr ⟨hins, by omega⟩)
      exact ⟨cur', by rw [newCursorAtLoop_seek_meta keyOf hseek hcs]; exact hloop, hat⟩

variable (keyOf) in
/-- Without a key, the descent takes the first tuple at each level and stands for the first
entry. -/
theorem newCursorAtLoop_first_at (hroot : Counted d root) :
    ∀ (k : Nat) {fuel : Nat} {cur : List (Frame K E)} {s : Sequence K E}, k < fuel →
      Counted k s → ChunkPath root cur s 0 →
      ∃ cur', newCursorAtLoop keyOf none ins false fuel cur s = some cur' ∧ At root cur' 0
  | 0, fuel + 1, cur, s, _, hc, hp => by
    obtain ⟨items, rfl⟩ := hc.exists_leaf
    refine ⟨_, newCursorAtLoop_none_leaf keyOf items, items, cur, 0, 0, rfl, hp, by omega, by omega,
      by simp, fun _ => rfl, fun h0 => ?_⟩
    -- an empty chunk can only be the root
    have hnil : items.length = 0 := by exact_mod_cast h0.symm
    cases cur with
    | nil =>
      obtain ⟨hs, -⟩ := hp.nil_inv
      rw [← hs]
      simp [entries, hnil]
    | cons p ps =>
      have := hp.seqLen_pos hroot
      simp only [seqLen] at this
      omega
  | k + 1, fuel + 1, cur, s, hfuel, hc, hp => by
    obtain ⟨tuples, rfl⟩ := hc.exists_meta
    obtain ⟨t, rest, rfl⟩ := List.exists_cons_of_ne_nil hc.1
    have ht : (t :: rest)[0]? = some t := rfl
    have hcs : (metaSeq (t :: rest)).childAt 0 = some t.2.2 := rfl
    have hpath := ChunkPath.child hp ht
    simp only [before_zero, Nat.add_zero, Int.natCast_zero] at hpath
    obtain ⟨cur', hloop, hat⟩ := newCursorAtLoop_first_at hroot k (show k < fuel by omega)
      (hc.child List.mem_cons_self).1 hpath
    exact ⟨cur', by rw [newCursorAtLoop_none_meta keyOf hcs]; exact hloop, hat⟩

/-- `newCursorAt(seq, key, forInsertion, false)` on a tree with increasing keys stands for the
number of entries below `key`, when some entry is not below it or the seek is for an
insertion. -/
theorem newCursorAt_seek (hwf : WF keyOf d root)
    (hsorted : ((entries root).map keyOf).Pairwise (· < ·))
    (h : (∃ e ∈ entries root, key ≤ keyOf e) ∨ ins = true) :
    ∃ cur, newCursorAt keyOf root (some key) ins false = some cur ∧
      At root cur (entriesBelow keyOf key (entries root)) := by
  obtain ⟨cur, hloop, hat⟩ := newCursorAtLoop_seek hwf hsorted d (Nat.lt_succ_self d) hwf
    ChunkPath.root (by simp) (h.imp id fun hins => ⟨hins, by simp⟩)
  exact ⟨cur, by rw [newCursorAt, depth_of_WF hwf]; exact hloop, hat⟩

variable (keyOf) in
theorem newCursorAt_first (hroot : Counted d root) :
    ∃ cur, newCursorAt keyOf root none ins false = some cur ∧ At root cur 0 := by
  obtain ⟨cur, hloop, hat⟩ := newCursorAtLoop_first_at keyOf hroot d (Nat.lt_succ_self d) hroot
    ChunkPath.root
  exact ⟨cur, by rw [newCursorAt, hroot.depth_eq]; exact hloop, hat⟩

end Descent

/-! ## The least entry not below a key -/

section Least

variable {keyOf : E → K} {key : K}

theorem entriesBelow_lt {l : List E} {e : E} (he : e ∈ l) (hle : key ≤ keyOf e) :
    entriesBelow keyOf key l < l.length :=
  List.length_filter_lt_length_iff_exists.mpr ⟨e, he, by simpa using hle⟩

/-- With increasing keys, the entry past those below `key` is the least entry not below it. -/
theorem least_of_entriesBelow {l : List E} (hs : (l.map keyOf).Pairwise (· < ·))
    (hlt : entriesBelow keyOf key l < l.length) :
    ∃ e, l[entriesBelow keyOf key l]? = some e ∧ key ≤ keyOf e ∧
      ∀ e' ∈ l, key ≤ keyOf e' → keyOf e ≤ keyOf e' := by
  have hks : (l.map keyOf).Pairwise (· ≤ ·) := hs.imp le_of_lt
  have hcount : ((l.map keyOf).filter (· < key)).length = entriesBelow keyOf key l :=
    entriesBelow_map key l
  refine ⟨l[entriesBelow keyOf key l], List.getElem?_eq_getElem hlt, ?_, ?_⟩
  · have hlen : entriesBelow keyOf key l < (l.map keyOf).length := by simpa using hlt
    have := (lt_iff_lt_length_filter key hks hlen).not.mpr (by omega)
    simpa using this
  · intro e' he' hle'
    obtain ⟨i, hi, rfl⟩ := List.getElem_of_mem he'
    -- `e'` is not below `key`, so it sits at or after the count
    have hci : entriesBelow keyOf key l ≤ i := by
      have hlen : i < (l.map keyOf).length := by simpa using hi
      have := (lt_iff_lt_length_filter key hks hlen).not.mp (by simpa using hle')
      omega
    rcases Nat.lt_or_eq_of_le hci with hlt' | rfl
    · have := List.pairwise_iff_getElem.mp hks _ _ (by simpa using hlt) (by simpa using hi) hlt'
      rwa [List.getElem_map, List.getElem_map] at this
    · exact le_refl _

end Least

/-! ## Seeking positions the cursor -/

section Positions

variable (keyOf : E → K) {d : Nat} {root : Sequence K E} {key : K}

theorem keys_lt_of_all_lt (hwf : WF keyOf d root) (h : ∀ e ∈ entries root, keyOf e < key) :
    ∀ k ∈ root.keys keyOf, k < key :=
  match d, root, hwf with
  | 0, leaf items, _ => by simpa [keys, entries] using h
  | _ + 1, metaSeq _, hwf => keys_lt_of_entries_lt hwf h

/-- Seeking positions the cursor. On a tree with increasing keys whose tuples carry the last key
of their subtree, a seek for `key` is valid exactly when some entry is not below `key`, and then
stands on the least such entry, after the entries below `key`; a seek for an insertion always
stands after the entries below `key`, possibly at the end; a seek without a key stands at the
first entry. -/
theorem newCursorAt_positions (hwf : WF keyOf d root)
    (hsorted : ((entries root).map keyOf).Pairwise (· < ·)) (key : K) :
    (∃ f fs, newCursorAt keyOf root (some key) false false = some (f :: fs) ∧
      (f.valid = true ↔ ∃ e ∈ entries root, key ≤ keyOf e) ∧
      (f.valid = true → At root (f :: fs) (entriesBelow keyOf key (entries root)) ∧
        ∃ e, f.current = some e ∧ key ≤ keyOf e ∧
          ∀ e' ∈ entries root, key ≤ keyOf e' → keyOf e ≤ keyOf e')) ∧
    (∃ cur, newCursorAt keyOf root (some key) true false = some cur ∧
      At root cur (entriesBelow keyOf key (entries root))) ∧
    (∃ cur, newCursorAt keyOf root none false false = some cur ∧ At root cur 0) := by
  refine ⟨?_, newCursorAt_seek hwf hsorted (.inr rfl), newCursorAt_first keyOf hwf.counted⟩
  by_cases hex : ∃ e ∈ entries root, key ≤ keyOf e
  · obtain ⟨cur, hcur, hat⟩ := newCursorAt_seek hwf hsorted (.inl hex)
    obtain ⟨e, he, hle⟩ := hex
    have hlt := entriesBelow_lt he hle
    have hshape := hat
    obtain ⟨items, fs, -, idx, rfl, -⟩ := hshape
    have hvalid := (At.valid_iff hat).mpr ⟨by omega, by exact_mod_cast hlt⟩
    refine ⟨_, fs, hcur, iff_of_true hvalid ⟨e, he, hle⟩, fun _ => ⟨hat, ?_⟩⟩
    obtain ⟨e₀, he₀, hkey, hleast⟩ := least_of_entriesBelow hsorted hlt
    refine ⟨e₀, ?_, hkey, hleast⟩
    rw [At.current_eq hat (by omega) (by exact_mod_cast hlt), Int.toNat_natCast]
    exact he₀
  · -- no entry reaches `key`, so the seek fails on the root itself
    have hall : ∀ k ∈ root.keys keyOf, k < key :=
      keys_lt_of_all_lt keyOf hwf fun e he => lt_of_not_ge fun hle => hex ⟨e, he, hle⟩
    have hinvalid : (⟨root, root.seqLen⟩ : Frame K E).valid = false := by simp [Frame.valid]
    refine ⟨_, [], newCursorAt_of_all_lt root hall, ?_, fun hv => ?_⟩
    · exact iff_of_false (by simp [hinvalid]) hex
    · simp [hinvalid] at hv

theorem newCursorAt_positions_sample :
    WF id 1 (metaSeq [(1, 1, leaf [1]), (3, 2, leaf [2, 3])] : Sequence Nat Nat) ∧
      (([1, 2, 3] : List Nat).map id).Pairwise (· < ·) ∧
      (∃ f fs, newCursorAt id (metaSeq [(1, 1, leaf [1]), (3, 2, leaf [2, 3])] : Sequence Nat Nat)
        (some 2) false false = some (f :: fs) ∧ f.valid = true) ∧
      ∃ cur, newCursorAt id (metaSeq [(1, 1, leaf [1]), (3, 2, leaf [2, 3])] : Sequence Nat Nat)
        (some 4) true false = some cur ∧
        At (metaSeq [(1, 1, leaf [1]), (3, 2, leaf [2, 3])]) cur 3 := by
  have hwf : WF id 1 (metaSeq [(1, 1, leaf [1]), (3, 2, leaf [2, 3])] : Sequence Nat Nat) := by
    simp [WF, entries]
  have hsorted : (([1, 2, 3] : List Nat).map id).Pairwise (· < ·) := by decide
  obtain ⟨f, fs, hcur, hvalid, -⟩ := (newCursorAt_positions id hwf hsorted 2).1
  have hmem : 2 ∈ entries (metaSeq [(1, 1, leaf [1]), (3, 2, leaf [2, 3])] : Sequence Nat Nat) := by
    simp [entries, entriesList]
  refine ⟨hwf, hsorted, ⟨f, fs, hcur, hvalid.mpr ⟨2, hmem, le_refl 2⟩⟩, ?_⟩
  exact (newCursorAt_positions id hwf hsorted 4).2.1

end Positions

end Noms.Types
