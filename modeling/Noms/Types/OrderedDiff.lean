import Mathlib

/-!
# Diffs of ordered sequences (`ordered_sequences_diff.go`)

`Map.Diff(last)` and `Set.Diff(last)` send one `ValueChanged` per key whose entry differs, in
key order: `DiffChangeAdded` for a key only the current sequence has, `DiffChangeRemoved` for a
key only `last` has, `DiffChangeModified` for a key both have with different values.

Here a sequence is held in one leaf: a list of entries with a key each (`key`), in strictly
ascending key order. `orderedSequenceDiffLeftRight` walks both lists as the cursors do,
skipping equal entries (`fastForward`) and comparing keys with `Less` otherwise. The top-down
diff of `orderedSequenceDiffBest` reads the same leaves for such sequences, so the left-right
walk is the diff.

On sorted lists the walk names, in ascending key order, exactly the keys whose entries differ,
each with the way it changed (`changeAt`): `orderedSequenceDiffLeftRight_sorted` and
`mem_orderedSequenceDiffLeftRight_iff`.
-/

namespace Noms.Types

/-- `DiffChangeType`. -/
inductive DiffChangeType
  | DiffChangeAdded
  | DiffChangeRemoved
  | DiffChangeModified
deriving DecidableEq, Repr

/-- `ValueChanged`: a key of the sequence and how its entry changed. -/
structure ValueChanged (K : Type) where
  ChangeType : DiffChangeType
  V : K
deriving DecidableEq, Repr

variable {E K : Type} [DecidableEq E] [LinearOrder K]

/-- `orderedSequenceDiffLeftRight(last, current)` on sequences held in one leaf each. -/
def orderedSequenceDiffLeftRight (key : E → K) : List E → List E → List (ValueChanged K)
  | [], current => current.map fun e => ⟨.DiffChangeAdded, key e⟩
  | l :: last, [] => (l :: last).map fun e => ⟨.DiffChangeRemoved, key e⟩
  | l :: last, c :: current =>
    -- `fastForward` skips the entries the two cursors agree on
    if l = c then orderedSequenceDiffLeftRight key last current
    else if key c < key l then
      ⟨.DiffChangeAdded, key c⟩ :: orderedSequenceDiffLeftRight key (l :: last) current
    else if key l < key c then
      ⟨.DiffChangeRemoved, key l⟩ :: orderedSequenceDiffLeftRight key last (c :: current)
    else ⟨.DiffChangeModified, key l⟩ :: orderedSequenceDiffLeftRight key last current
termination_by last current => last.length + current.length

section Steps

variable {key : E → K} {l c : E} {last current : List E}

theorem diff_nil_left (current : List E) :
    orderedSequenceDiffLeftRight key [] current = current.map fun e => ⟨.DiffChangeAdded, key e⟩ := by
  rw [orderedSequenceDiffLeftRight]

theorem diff_nil_right (l : E) (last : List E) :
    orderedSequenceDiffLeftRight key (l :: last) [] =
      (l :: last).map fun e => ⟨.DiffChangeRemoved, key e⟩ := by
  rw [orderedSequenceDiffLeftRight]

theorem diff_cons_eq (h : l = c) :
    orderedSequenceDiffLeftRight key (l :: last) (c :: current) =
      orderedSequenceDiffLeftRight key last current := by
  rw [orderedSequenceDiffLeftRight, if_pos h]

theorem diff_added (hne : l ≠ c) (hlt : key c < key l) :
    orderedSequenceDiffLeftRight key (l :: last) (c :: current) =
      ⟨.DiffChangeAdded, key c⟩ :: orderedSequenceDiffLeftRight key (l :: last) current := by
  rw [orderedSequenceDiffLeftRight, if_neg hne, if_pos hlt]

theorem diff_removed (hne : l ≠ c) (hlt : key l < key c) :
    orderedSequenceDiffLeftRight key (l :: last) (c :: current) =
      ⟨.DiffChangeRemoved, key l⟩ :: orderedSequenceDiffLeftRight key last (c :: current) := by
  rw [orderedSequenceDiffLeftRight, if_neg hne, if_neg (not_lt.mpr hlt.le), if_pos hlt]

theorem diff_modified (hne : l ≠ c) (hkey : key l = key c) :
    orderedSequenceDiffLeftRight key (l :: last) (c :: current) =
      ⟨.DiffChangeModified, key l⟩ :: orderedSequenceDiffLeftRight key last current := by
  rw [orderedSequenceDiffLeftRight, if_neg hne, if_neg (not_lt.mpr hkey.le),
    if_neg (not_lt.mpr hkey.ge)]

/-- The diff passes over a common prefix of the two sequences. -/
theorem diff_drop_of_take_eq : ∀ (m : Nat) {last current : List E}, last.take m = current.take m →
    orderedSequenceDiffLeftRight key last current =
      orderedSequenceDiffLeftRight key (last.drop m) (current.drop m)
  | 0, _, _, _ => rfl
  | _ + 1, [], [], _ => rfl
  | _ + 1, [], _ :: _, h => absurd h (by simp)
  | _ + 1, _ :: _, [], h => absurd h (by simp)
  | m + 1, l :: last, c :: current, h => by
    simp only [List.take_succ_cons, List.cons.injEq] at h
    obtain ⟨rfl, h⟩ := h
    rw [diff_cons_eq rfl, List.drop_succ_cons, List.drop_succ_cons]
    exact diff_drop_of_take_eq m h

/-- Once one sequence is exhausted, the rest of the other is removed or added. -/
theorem diff_of_nil_or_nil (h : last = [] ∨ current = []) :
    orderedSequenceDiffLeftRight key last current =
      last.map (fun e => ⟨.DiffChangeRemoved, key e⟩) ++
        current.map fun e => ⟨.DiffChangeAdded, key e⟩ := by
  rcases h with rfl | rfl
  · rw [diff_nil_left, List.map_nil, List.nil_append]
  · cases last with
    | nil => rw [diff_nil_left]; rfl
    | cons l last => rw [diff_nil_right, List.map_nil, List.append_nil]

end Steps

/-! ## Splitting the diff between keys

Where every key of the first parts lies below every key of the second parts, the diff of the
joined sequences is the diff of the first parts followed by that of the second parts
(`diff_append_of_lt`), and a common prefix contributes nothing (`diff_append_left`). The
top-down diff rests on both: it diffs apart the runs of chunks between the chunks both trees
share. -/

section Split

variable {key : E → K}

theorem diff_added_append (cs : List E) {l₂ c₂ : List E} (h : ∀ a ∈ cs, ∀ b ∈ l₂, key a < key b) :
    orderedSequenceDiffLeftRight key l₂ (cs ++ c₂) =
      cs.map (fun e => ⟨.DiffChangeAdded, key e⟩) ++ orderedSequenceDiffLeftRight key l₂ c₂ := by
  induction cs with
  | nil => rfl
  | cons c cs ih =>
    cases l₂ with
    | nil => simp [diff_nil_left]
    | cons y ys =>
      have hlt : key c < key y := h c List.mem_cons_self y List.mem_cons_self
      rw [List.cons_append, diff_added (fun he => hlt.ne' (congrArg key he)) hlt,
        ih (fun a ha => h a (List.mem_cons_of_mem _ ha)), List.map_cons, List.cons_append]

theorem diff_removed_append (ls : List E) {l₂ c₂ : List E} (h : ∀ a ∈ ls, ∀ b ∈ c₂, key a < key b) :
    orderedSequenceDiffLeftRight key (ls ++ l₂) c₂ =
      ls.map (fun e => ⟨.DiffChangeRemoved, key e⟩) ++ orderedSequenceDiffLeftRight key l₂ c₂ := by
  induction ls with
  | nil => rfl
  | cons x xs ih =>
    cases c₂ with
    | nil => simp [diff_of_nil_or_nil]
    | cons y ys =>
      have hlt : key x < key y := h x List.mem_cons_self y List.mem_cons_self
      rw [List.cons_append, diff_removed (fun he => hlt.ne (congrArg key he)) hlt,
        ih (fun a ha => h a (List.mem_cons_of_mem _ ha)), List.map_cons, List.cons_append]

/-- The diff of two sequences split at the same key is the diff of the parts below it followed
by the diff of the parts above it. -/
theorem diff_append_of_lt {l₁ c₁ : List E} {l₂ c₂ : List E}
    (h : ∀ a ∈ l₁ ++ c₁, ∀ b ∈ l₂ ++ c₂, key a < key b) :
    orderedSequenceDiffLeftRight key (l₁ ++ l₂) (c₁ ++ c₂) =
      orderedSequenceDiffLeftRight key l₁ c₁ ++ orderedSequenceDiffLeftRight key l₂ c₂ := by
  induction l₁, c₁ using orderedSequenceDiffLeftRight.induct key with
  | case1 current =>
    rw [List.nil_append, diff_added_append current
      (fun a ha b hb => h a (by simp [ha]) b (List.mem_append_left _ hb)), diff_nil_left]
  | case2 l last =>
    rw [List.nil_append, diff_removed_append (l :: last)
      (fun a ha b hb => h a (List.mem_append_left _ ha) b (List.mem_append_right _ hb)),
      diff_nil_right]
  | case3 last c current ih =>
    rw [List.cons_append, List.cons_append, diff_cons_eq rfl, diff_cons_eq rfl]
    exact ih fun a ha b hb => h a (by simp at ha ⊢; tauto) b hb
  | case4 l last c current hne hlt ih =>
    rw [List.cons_append, List.cons_append, diff_added hne hlt, diff_added hne hlt, List.cons_append]
    exact congrArg _ (ih fun a ha b hb => h a (by simp at ha ⊢; tauto) b hb)
  | case5 l last c current hne _ hlt ih =>
    rw [List.cons_append, List.cons_append, diff_removed hne hlt, diff_removed hne hlt,
      List.cons_append]
    exact congrArg _ (ih fun a ha b hb => h a (by simp at ha ⊢; tauto) b hb)
  | case6 l last c current hne hge hle ih =>
    have hkey : key l = key c := le_antisymm (not_lt.mp hge) (not_lt.mp hle)
    rw [List.cons_append, List.cons_append, diff_modified hne hkey, diff_modified hne hkey,
      List.cons_append]
    exact congrArg _ (ih fun a ha b hb => h a (by simp at ha ⊢; tauto) b hb)

/-- A common prefix sends nothing. -/
theorem diff_append_left (x last current : List E) :
    orderedSequenceDiffLeftRight key (x ++ last) (x ++ current) =
      orderedSequenceDiffLeftRight key last current := by
  rw [diff_drop_of_take_eq x.length (by simp), List.drop_left, List.drop_left]

theorem diff_self (l : List E) : orderedSequenceDiffLeftRight key l l = [] := by
  have h : orderedSequenceDiffLeftRight key (l ++ []) (l ++ []) =
      orderedSequenceDiffLeftRight key [] [] := diff_append_left l [] []
  simpa [diff_nil_left] using h

/-- Every change names an entry of one of the two sequences. -/
theorem length_diff_le (last current : List E) :
    (orderedSequenceDiffLeftRight key last current).length ≤ last.length + current.length := by
  induction last, current using orderedSequenceDiffLeftRight.induct key with
  | case1 current => simp [diff_nil_left]
  | case2 l last => simp [diff_nil_right]
  | case3 last c current ih => rw [diff_cons_eq rfl]; simp only [List.length_cons]; omega
  | case4 l last c current hne hlt ih =>
    rw [diff_added hne hlt]; simp only [List.length_cons] at ih ⊢; omega
  | case5 l last c current hne _ hlt ih =>
    rw [diff_removed hne hlt]; simp only [List.length_cons] at ih ⊢; omega
  | case6 l last c current hne hge hle ih =>
    rw [diff_modified hne (le_antisymm (not_lt.mp hge) (not_lt.mp hle))]
    simp only [List.length_cons]; omega

end Split

/-! ## The diff from two positions

The cursors of the diff over trees stand at entries `i` and `j` of the two sequences; what is left
to send is the diff of what follows them. -/

section Positions

variable {key : E → K} {last current : List E} {i j : Nat} {x y : E}

omit [DecidableEq E] [LinearOrder K] in
theorem drop_eq_cons_of_getElem? {l : List E} (h : l[i]? = some x) :
    l.drop i = x :: l.drop (i + 1) := by
  obtain ⟨hlt, rfl⟩ := List.getElem?_eq_some_iff.mp h
  exact List.drop_eq_getElem_cons hlt

variable (hx : last[i]? = some x) (hy : current[j]? = some y)
include hx hy

theorem diff_drop_added (hne : x ≠ y) (hlt : key y < key x) :
    orderedSequenceDiffLeftRight key (last.drop i) (current.drop j) =
      ⟨.DiffChangeAdded, key y⟩ :: orderedSequenceDiffLeftRight key (last.drop i) (current.drop (j + 1)) := by
  rw [drop_eq_cons_of_getElem? hx, drop_eq_cons_of_getElem? hy, diff_added hne hlt]

theorem diff_drop_removed (hne : x ≠ y) (hlt : key x < key y) :
    orderedSequenceDiffLeftRight key (last.drop i) (current.drop j) =
      ⟨.DiffChangeRemoved, key x⟩ :: orderedSequenceDiffLeftRight key (last.drop (i + 1)) (current.drop j) := by
  rw [drop_eq_cons_of_getElem? hx, drop_eq_cons_of_getElem? hy, diff_removed hne hlt]

theorem diff_drop_modified (hne : x ≠ y) (hkey : key x = key y) :
    orderedSequenceDiffLeftRight key (last.drop i) (current.drop j) =
      ⟨.DiffChangeModified, key x⟩ ::
        orderedSequenceDiffLeftRight key (last.drop (i + 1)) (current.drop (j + 1)) := by
  rw [drop_eq_cons_of_getElem? hx, drop_eq_cons_of_getElem? hy, diff_modified hne hkey]

end Positions

section Spec

variable (key : E → K)

/-- The entry of `l` whose key is `k`. -/
def entryAt (l : List E) (k : K) : Option E := l.find? fun e => key e = k

/-- How the entry of key `k` changed from `last` to `current`: added, removed, modified, or
`none` when both sides hold the same entry or neither holds one. -/
def changeAt (last current : List E) (k : K) : Option DiffChangeType :=
  match entryAt key last k, entryAt key current k with
  | none, none => none
  | none, some _ => some .DiffChangeAdded
  | some _, none => some .DiffChangeRemoved
  | some x, some y => if x = y then none else some .DiffChangeModified

variable {key}

omit [DecidableEq E] in
@[simp] theorem entryAt_nil (k : K) : entryAt key [] k = none := rfl

omit [DecidableEq E] in
theorem entryAt_cons_self (x : E) (l : List E) : entryAt key (x :: l) (key x) = some x := by
  simp [entryAt]

omit [DecidableEq E] in
theorem entryAt_cons_of_ne {x : E} {k : K} (h : key x ≠ k) (l : List E) :
    entryAt key (x :: l) k = entryAt key l k := by
  simp [entryAt, h]

omit [DecidableEq E] in
theorem entryAt_eq_none {l : List E} {k : K} (h : ∀ e ∈ l, key e ≠ k) : entryAt key l k = none := by
  simpa [entryAt, List.find?_eq_none] using h

omit [DecidableEq E] in
theorem entryAt_isSome_iff {l : List E} {k : K} :
    (entryAt key l k).isSome ↔ ∃ e ∈ l, key e = k := by
  simp [entryAt, List.find?_isSome]

omit [DecidableEq E] in
/-- Nothing of a list lies at a key below all of its keys. -/
theorem entryAt_eq_none_of_lt {l : List E} {k : K} (h : ∀ e ∈ l, k < key e) :
    entryAt key l k = none :=
  entryAt_eq_none fun e he => (h e he).ne'

theorem changeAt_of_none {last current : List E} {k : K} (hl : entryAt key last k = none)
    (hc : entryAt key current k = none) : changeAt key last current k = none := by
  simp [changeAt, hl, hc]

theorem changeAt_nil_left (current : List E) (k : K) :
    changeAt key [] current k =
      if (entryAt key current k).isSome then some .DiffChangeAdded else none := by
  cases h : entryAt key current k <;> simp [changeAt, h]

theorem changeAt_nil_right (last : List E) (k : K) :
    changeAt key last [] k =
      if (entryAt key last k).isSome then some .DiffChangeRemoved else none := by
  cases h : entryAt key last k <;> simp [changeAt, h]

/-- An entry put in front of `current` at a key `last` lacks adds that key and no other. -/
theorem changeAt_cons_right {c : E} {last current : List E} (hl : entryAt key last (key c) = none)
    (k : K) : changeAt key last (c :: current) k =
      if k = key c then some .DiffChangeAdded else changeAt key last current k := by
  by_cases hk : k = key c
  · subst hk
    simp [changeAt, hl, entryAt_cons_self]
  · simp only [changeAt, entryAt_cons_of_ne (Ne.symm hk), if_neg hk]

/-- An entry put in front of `last` at a key `current` lacks removes that key and no other. -/
theorem changeAt_cons_left {l : E} {last current : List E} (hc : entryAt key current (key l) = none)
    (k : K) : changeAt key (l :: last) current k =
      if k = key l then some .DiffChangeRemoved else changeAt key last current k := by
  by_cases hk : k = key l
  · subst hk
    simp [changeAt, hc, entryAt_cons_self]
  · simp only [changeAt, entryAt_cons_of_ne (Ne.symm hk), if_neg hk]

/-- Two entries put in front at one key change it as they differ. -/
theorem changeAt_cons_cons {l c : E} {last current : List E} (hkey : key l = key c)
    (k : K) : changeAt key (l :: last) (c :: current) k =
      if k = key l then (if l = c then none else some .DiffChangeModified)
      else changeAt key last current k := by
  by_cases hk : k = key l
  · rw [if_pos hk, hk, changeAt, entryAt_cons_self, hkey, entryAt_cons_self]
  · have hk' : key c ≠ k := fun h => hk (h.symm.trans hkey.symm)
    simp only [changeAt, entryAt_cons_of_ne (Ne.symm hk), entryAt_cons_of_ne hk', if_neg hk]

/-- A change list that starts with the change at `k₀` and goes on with the changes of `rest`
holds the changes of `full`, when `full` changes at `k₀` as the head says and elsewhere as
`rest`, and `rest` does not change at `k₀`. -/
theorem mem_cons_change_iff {D : List (ValueChanged K)} {full rest : K → Option DiffChangeType}
    {t₀ : DiffChangeType} {k₀ : K} (hD : ∀ ch, ch ∈ D ↔ rest ch.V = some ch.ChangeType)
    (hfull : ∀ k, full k = if k = k₀ then some t₀ else rest k) (hrest : rest k₀ = none)
    (ch : ValueChanged K) : ch ∈ (⟨t₀, k₀⟩ :: D) ↔ full ch.V = some ch.ChangeType := by
  obtain ⟨t, k⟩ := ch
  rw [List.mem_cons, hD, hfull]
  dsimp only
  by_cases hk : k = k₀
  · subst hk
    simp [hrest, eq_comm]
  · simp [hk]

omit [DecidableEq E] in
/-- A list's entries sent as changes of one kind are the changes of that kind at its keys. -/
theorem mem_map_change_iff {t : DiffChangeType} {l : List E} {ch : ValueChanged K} :
    ch ∈ l.map (fun e => (⟨t, key e⟩ : ValueChanged K)) ↔
      ch.ChangeType = t ∧ (entryAt key l ch.V).isSome := by
  obtain ⟨t', k⟩ := ch
  rw [entryAt_isSome_iff, List.mem_map]
  constructor
  · rintro ⟨e, he, heq⟩
    cases heq
    exact ⟨rfl, e, he, rfl⟩
  · rintro ⟨rfl, e, he, rfl⟩
    exact ⟨e, he, rfl⟩

/-- Every key the diff names lies above a bound below the keys of both sequences. -/
theorem lt_of_mem_diff {b : K} {last current : List E} (hl : ∀ e ∈ last, b < key e)
    (hc : ∀ e ∈ current, b < key e) :
    ∀ ch ∈ orderedSequenceDiffLeftRight key last current, b < ch.V := by
  induction last, current using orderedSequenceDiffLeftRight.induct key with
  | case1 current =>
    rw [diff_nil_left]
    simpa using hc
  | case2 l last =>
    rw [diff_nil_right]
    simpa using hl
  | case3 last c current ih =>
    rw [diff_cons_eq rfl]
    exact ih (fun e he => hl e (.tail _ he)) (fun e he => hc e (.tail _ he))
  | case4 l last c current hne hlt ih =>
    rw [diff_added hne hlt, List.forall_mem_cons]
    exact ⟨hc c (.head _), ih hl (fun e he => hc e (.tail _ he))⟩
  | case5 l last c current hne _ hlt ih =>
    rw [diff_removed hne hlt, List.forall_mem_cons]
    exact ⟨hl l (.head _), ih (fun e he => hl e (.tail _ he)) hc⟩
  | case6 l last c current hne hge hle ih =>
    rw [diff_modified hne (le_antisymm (not_lt.mp hge) (not_lt.mp hle)), List.forall_mem_cons]
    exact ⟨hl l (.head _), ih (fun e he => hl e (.tail _ he)) (fun e he => hc e (.tail _ he))⟩

omit [DecidableEq E] in
/-- A bound below the head of a sorted list lies below all of it. -/
theorem forall_lt_of_sorted {b : K} {x : E} {l : List E} (hs : (x :: l).Pairwise (key · < key ·))
    (hb : b < key x) : ∀ e ∈ x :: l, b < key e := by
  intro e he
  rcases List.mem_cons.mp he with rfl | he
  · exact hb
  · exact hb.trans (List.rel_of_pairwise_cons hs he)

/-- On sorted sequences the diff names its keys in strictly ascending order. -/
theorem orderedSequenceDiffLeftRight_sorted {last current : List E}
    (hl : (last.map key).Pairwise (· < ·)) (hc : (current.map key).Pairwise (· < ·)) :
    ((orderedSequenceDiffLeftRight key last current).map ValueChanged.V).Pairwise (· < ·) := by
  rw [List.pairwise_map] at hl hc ⊢
  induction last, current using orderedSequenceDiffLeftRight.induct key with
  | case1 current =>
    rw [diff_nil_left, List.pairwise_map]
    exact hc
  | case2 l last =>
    rw [diff_nil_right, List.pairwise_map]
    exact hl
  | case3 last c current ih =>
    rw [diff_cons_eq rfl]
    exact ih (List.pairwise_cons.mp hl).2 (List.pairwise_cons.mp hc).2
  | case4 l last c current hne hlt ih =>
    obtain ⟨hc₀, hc'⟩ := List.pairwise_cons.mp hc
    rw [diff_added hne hlt, List.pairwise_cons]
    exact ⟨lt_of_mem_diff (forall_lt_of_sorted hl hlt) hc₀, ih hl hc'⟩
  | case5 l last c current hne _ hlt ih =>
    obtain ⟨hl₀, hl'⟩ := List.pairwise_cons.mp hl
    rw [diff_removed hne hlt, List.pairwise_cons]
    exact ⟨lt_of_mem_diff hl₀ (forall_lt_of_sorted hc hlt), ih hl' hc⟩
  | case6 l last c current hne hge hle ih =>
    have hkey : key l = key c := le_antisymm (not_lt.mp hge) (not_lt.mp hle)
    obtain ⟨hl₀, hl'⟩ := List.pairwise_cons.mp hl
    obtain ⟨hc₀, hc'⟩ := List.pairwise_cons.mp hc
    rw [← hkey] at hc₀
    rw [diff_modified hne hkey, List.pairwise_cons]
    exact ⟨lt_of_mem_diff hl₀ hc₀, ih hl' hc'⟩

/-- On sorted sequences the diff holds exactly the change at each key where the two sequences
differ. -/
theorem mem_orderedSequenceDiffLeftRight_iff {last current : List E}
    (hl : (last.map key).Pairwise (· < ·)) (hc : (current.map key).Pairwise (· < ·))
    (ch : ValueChanged K) :
    ch ∈ orderedSequenceDiffLeftRight key last current ↔
      changeAt key last current ch.V = some ch.ChangeType := by
  rw [List.pairwise_map] at hl hc
  induction last, current using orderedSequenceDiffLeftRight.induct key generalizing ch with
  | case1 current =>
    rw [diff_nil_left, mem_map_change_iff, changeAt_nil_left]
    split_ifs with h <;> simp [h, eq_comm]
  | case2 l last =>
    rw [diff_nil_right, mem_map_change_iff, changeAt_nil_right]
    split_ifs with h <;> simp [h, eq_comm]
  | case3 last c current ih =>
    obtain ⟨hl₀, hl'⟩ := List.pairwise_cons.mp hl
    obtain ⟨hc₀, hc'⟩ := List.pairwise_cons.mp hc
    rw [diff_cons_eq rfl, ih hl' hc', changeAt_cons_cons rfl, if_pos rfl]
    -- at the shared key neither tail holds an entry, so the skipped entry changes nothing
    by_cases hk : ch.V = key c
    · rw [if_pos hk, hk, changeAt_of_none (entryAt_eq_none_of_lt hl₀) (entryAt_eq_none_of_lt hc₀)]
    · rw [if_neg hk]
  | case4 l last c current hne hlt ih =>
    have hfresh := forall_lt_of_sorted hl hlt
    obtain ⟨hc₀, hc'⟩ := List.pairwise_cons.mp hc
    rw [diff_added hne hlt]
    exact mem_cons_change_iff (ih hl hc') (changeAt_cons_right (entryAt_eq_none_of_lt hfresh))
      (changeAt_of_none (entryAt_eq_none_of_lt hfresh) (entryAt_eq_none_of_lt hc₀)) ch
  | case5 l last c current hne _ hlt ih =>
    have hfresh := forall_lt_of_sorted hc hlt
    obtain ⟨hl₀, hl'⟩ := List.pairwise_cons.mp hl
    rw [diff_removed hne hlt]
    exact mem_cons_change_iff (ih hl' hc) (changeAt_cons_left (entryAt_eq_none_of_lt hfresh))
      (changeAt_of_none (entryAt_eq_none_of_lt hl₀) (entryAt_eq_none_of_lt hfresh)) ch
  | case6 l last c current hne hge hle ih =>
    have hkey : key l = key c := le_antisymm (not_lt.mp hge) (not_lt.mp hle)
    obtain ⟨hl₀, hl'⟩ := List.pairwise_cons.mp hl
    obtain ⟨hc₀, hc'⟩ := List.pairwise_cons.mp hc
    rw [← hkey] at hc₀
    rw [diff_modified hne hkey]
    refine mem_cons_change_iff (ih hl' hc') (fun k => ?_)
      (changeAt_of_none (entryAt_eq_none_of_lt hl₀) (entryAt_eq_none_of_lt hc₀)) ch
    rw [changeAt_cons_cons hkey, if_neg hne]

end Spec

/-! ## Racing the two diffs (`orderedSequenceDiffBest`)

`orderedSequenceDiffBest` runs the left-right and the top-down diff in two goroutines and
multiplexes their channels in a `select`: a left-right change is sent on, a top-down change is
counted and dropped until top-down has sent more changes than left-right, and then it is sent and
every later top-down change follows. Which ready channel the `select` takes is up to the
scheduler, so the loop runs on an arbitrary schedule. The stop channels are not modelled. -/

/-- The channel the `select` of `orderedSequenceDiffBest` receives from. -/
inductive DiffProducer
  | leftRight
  | topDown
deriving DecidableEq, Repr

section Best

variable {α : Type}

/-- The multiplexing loop of `orderedSequenceDiffBest` on a schedule, from the changes each diff
has still to send and the counts of changes received: a closed channel ends the call, and a
top-down change with `tdChangeCount > lrChangeCount` is sent with the rest of the top-down changes
(`for c := range tdChanges`). The result is the changes sent; a schedule too short for the loop
gives `none`. -/
def bestLoop : List DiffProducer → List α → List α → Nat → Nat → Option (List α)
  | [], _, _, _, _ => none
  | .leftRight :: _, [], _, _, _ => some []
  | .leftRight :: sched, c :: lr, td, lrChangeCount, tdChangeCount =>
    (bestLoop sched lr td (lrChangeCount + 1) tdChangeCount).map (c :: ·)
  | .topDown :: _, _, [], _, _ => some []
  | .topDown :: sched, lr, c :: td, lrChangeCount, tdChangeCount =>
    if tdChangeCount + 1 > lrChangeCount then some (c :: td)
    else bestLoop sched lr td lrChangeCount (tdChangeCount + 1)

/-- `orderedSequenceDiffBest(last, current)` on a schedule, given the changes the left-right and
the top-down diff send. -/
def orderedSequenceDiffBest (sched : List DiffProducer) (lr td : List α) : Option (List α) :=
  bestLoop sched lr td 0 0

/-- What the loop sends from the counts `i` of left-right and `j` of top-down changes received,
`j ≤ i`: the left-right changes from `i` up to some `k`, where left-right ends or top-down has ended,
or, where top-down overtook at `k`, the top-down changes from `k` after them. -/
def BestSends (lr td : List α) (i : Nat) (out : List α) : Prop :=
  ∃ k, i ≤ k ∧ k ≤ lr.length ∧
    ((out = (lr.take k).drop i ∧ (k = lr.length ∨ td.length ≤ k)) ∨
      (k < td.length ∧ out = (lr.take k).drop i ++ td.drop k))

variable {lr td : List α}

theorem BestSends.cons {i : Nat} {out : List α} {c : α} (hc : lr[i]? = some c)
    (h : BestSends lr td (i + 1) out) : BestSends lr td i (c :: out) := by
  obtain ⟨k, hik, hk, hout⟩ := h
  have hdrop : (lr.take k).drop i = c :: (lr.take k).drop (i + 1) := by
    apply drop_eq_cons_of_getElem?
    rw [List.getElem?_take_of_lt (by omega), hc]
  refine ⟨k, by omega, hk, ?_⟩
  rcases hout with ⟨rfl, hend⟩ | ⟨hlt, rfl⟩
  · exact .inl ⟨hdrop.symm, hend⟩
  · exact .inr ⟨hlt, by rw [hdrop, List.cons_append]⟩

/-- Every run of the loop that ends sends what `BestSends` says. -/
theorem bestLoop_sends : ∀ (sched : List DiffProducer) {i j : Nat} {out : List α},
    j ≤ i → i ≤ lr.length → bestLoop sched (lr.drop i) (td.drop j) i j = some out →
      BestSends lr td i out
  | [], _, _, _, _, _, h => by simp [bestLoop] at h
  | .leftRight :: sched, i, j, out, hji, hi, h => by
    cases hlr : lr.drop i with
    | nil =>
      -- left-right has closed its channel: it has sent everything
      rw [hlr, bestLoop] at h
      cases h
      have hend : i = lr.length := by
        have := List.drop_eq_nil_iff.mp hlr
        omega
      exact ⟨i, le_rfl, hi, .inl ⟨by simp [hend], .inl hend⟩⟩
    | cons c rest =>
      have hc : lr[i]? = some c := by
        rw [← List.head?_drop, hlr]
        rfl
      have hrest : rest = lr.drop (i + 1) := by
        rw [← List.drop_drop, hlr]
        rfl
      rw [hlr, bestLoop, hrest, Option.map_eq_some_iff] at h
      obtain ⟨out', h', rfl⟩ := h
      have hi' : i + 1 ≤ lr.length := by
        have := (List.getElem?_eq_some_iff.mp hc).1
        omega
      exact (bestLoop_sends sched (by omega) hi' h').cons hc
  | .topDown :: sched, i, j, out, hji, hi, h => by
    cases htd : td.drop j with
    | nil =>
      -- top-down has closed its channel before overtaking
      rw [htd, bestLoop] at h
      cases h
      have hend : td.length ≤ j := List.drop_eq_nil_iff.mp htd
      exact ⟨i, le_rfl, hi, .inl ⟨by simp, .inr (by omega)⟩⟩
    | cons c rest =>
      have hrest : rest = td.drop (j + 1) := by
        rw [← List.drop_drop, htd]
        rfl
      rw [htd, bestLoop] at h
      split_ifs at h with hover
      · -- top-down overtakes: its change and every later one are sent
        cases h
        have hij : j = i := by omega
        subst hij
        have hlt : j < td.length := by
          have := congrArg List.length htd
          simp only [List.length_drop, List.length_cons] at this
          omega
        exact ⟨j, le_rfl, hi, .inr ⟨hlt, by simp [htd]⟩⟩
      · rw [hrest] at h
        exact bestLoop_sends sched (by omega) hi h

/-- A schedule longer than the changes left lets the loop end. -/
theorem bestLoop_isSome : ∀ (sched : List DiffProducer) (lr td : List α) (i j : Nat),
    lr.length + td.length < sched.length → (bestLoop sched lr td i j).isSome
  | [], _, _, _, _, h => absurd h (Nat.not_lt_zero _)
  | .leftRight :: _, [], _, _, _, _ => rfl
  | .leftRight :: sched, _ :: lr, td, i, j, h => by
    simp only [List.length_cons] at h
    simpa [bestLoop] using bestLoop_isSome sched lr td (i + 1) j (by omega)
  | .topDown :: _, _, [], _, _, _ => rfl
  | .topDown :: sched, lr, _ :: td, i, j, h => by
    simp only [List.length_cons] at h
    rw [bestLoop]
    split_ifs
    · rfl
    · exact bestLoop_isSome sched lr td i (j + 1) (by omega)

theorem orderedSequenceDiffBest_sends (sched : List DiffProducer) (lr td : List α) :
    (lr.length + td.length < sched.length → (orderedSequenceDiffBest sched lr td).isSome) ∧
    ∀ out, orderedSequenceDiffBest sched lr td = some out →
      ∃ k ≤ lr.length, (out = lr.take k ∧ (k = lr.length ∨ td.length ≤ k)) ∨
        (k < td.length ∧ out = lr.take k ++ td.drop k) := by
  refine ⟨bestLoop_isSome sched lr td 0 0, fun out h => ?_⟩
  obtain ⟨k, -, hk, hout⟩ : BestSends lr td 0 out := bestLoop_sends sched le_rfl (Nat.zero_le _) h
  exact ⟨k, hk, by simpa using hout⟩

theorem orderedSequenceDiffBest_sends_sample :
    orderedSequenceDiffBest [.leftRight, .topDown, .topDown, .leftRight, .leftRight, .leftRight]
        [1, 2] [1, 2, 3] = some [1, 2, 3] ∧
      ∃ k ≤ 2, ([1, 2, 3] = List.take k [1, 2] ∧ (k = 2 ∨ 3 ≤ k)) ∨
        (k < 3 ∧ [1, 2, 3] = List.take k [1, 2] ++ List.drop k [1, 2, 3]) :=
  have hrun : orderedSequenceDiffBest
      [.leftRight, .topDown, .topDown, .leftRight, .leftRight, .leftRight] [1, 2] [1, 2, 3] =
      some [1, 2, 3] := by decide
  ⟨hrun, (orderedSequenceDiffBest_sends _ [1, 2] [1, 2, 3]).2 _ hrun⟩

/-- Where both diffs send the same changes, as they do on a correct top-down diff, the call sends
exactly those changes on every schedule that lets it end. -/
theorem orderedSequenceDiffBest_of_agree {sched : List DiffProducer} {changes out : List α}
    (h : orderedSequenceDiffBest sched changes changes = some out) : out = changes := by
  obtain ⟨k, -, hk, hout⟩ : BestSends changes changes 0 out :=
    bestLoop_sends sched le_rfl (Nat.zero_le _) h
  simp only [List.drop_zero] at hout
  rcases hout with ⟨rfl, rfl | hle⟩ | ⟨-, rfl⟩
  · exact List.take_length
  · exact List.take_of_length_le hle
  · exact List.take_append_drop k changes

end Best

end Noms.Types
