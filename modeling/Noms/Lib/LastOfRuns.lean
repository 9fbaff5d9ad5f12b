import Noms.Lib.SortedMap
import Noms.Lib.AssocList
import Mathlib.Data.List.Sort

/-!
# Sorting stably and keeping the last of each run

`sortLastOfRuns less equals l` sorts `l` stably by `less`, then walks it remembering the previous
element and emits it whenever the next one is not `equals` to it: of each run of equal elements
it keeps the last. When `less` and `equals` compare the elements of `l` by a key into a linear
order, the runs are the key classes in the order of `l`, since the sort is stable
(`filter_insertionSort_key`). The result is then the last element of `l` of each key, in
ascending key order (`mem_sortLastOfRuns`, `pairwise_sortLastOfRuns`), which is what an ordered
store holds after `l` is written into it in order (`sortLastOfRuns_eq_putAllBy`).
-/

namespace Noms.Lib

variable {α κ : Type}

/-- `for _, x := range rest { if !equals(x, last) { out = append(out, last) }; last = x }`,
then `append(out, last)`. -/
def lastOfRuns (equals : α → α → Bool) : α → List α → List α
  | last, [] => [last]
  | last, x :: xs =>
    if equals x last then lastOfRuns equals x xs else last :: lastOfRuns equals x xs

/-- A stable sort by `less`, then `lastOfRuns`. -/
def sortLastOfRuns (less equals : α → α → Bool) (l : List α) : List α :=
  match l.insertionSort (fun a b => !less b a) with
  | [] => []
  | first :: rest => lastOfRuns equals first rest

theorem lastOfRuns_subset (equals : α → α → Bool) :
    ∀ (last : α) (xs : List α), lastOfRuns equals last xs ⊆ last :: xs
  | last, [] => by simp [lastOfRuns]
  | last, x :: xs => by
    have ih := lastOfRuns_subset equals x xs
    unfold lastOfRuns
    split_ifs
    · exact fun a ha => List.subset_cons_self _ _ (ih ha)
    · exact List.cons_subset_cons _ ih

section InsertionSort

theorem orderedInsert_congr {r s : α → α → Prop} [DecidableRel r] [DecidableRel s] {a : α} :
    ∀ {l : List α}, (∀ b ∈ l, r a b ↔ s a b) → l.orderedInsert r a = l.orderedInsert s a
  | [], _ => rfl
  | b :: l, h => by
    simp only [List.orderedInsert_cons]
    rw [if_congr (h b List.mem_cons_self) rfl
      (by rw [orderedInsert_congr fun c hc => h c (List.mem_cons_of_mem _ hc)])]

/-- Insertion sort reads its comparison on the list's elements only. -/
theorem insertionSort_congr {r s : α → α → Prop} [DecidableRel r] [DecidableRel s] :
    ∀ {l : List α}, (∀ a ∈ l, ∀ b ∈ l, r a b ↔ s a b) → l.insertionSort r = l.insertionSort s
  | [], _ => rfl
  | a :: l, h => by
    have ih := insertionSort_congr fun c hc d hd =>
      h c (List.mem_cons_of_mem _ hc) d (List.mem_cons_of_mem _ hd)
    rw [List.insertionSort_cons, List.insertionSort_cons, ih]
    exact orderedInsert_congr fun b hb =>
      h a List.mem_cons_self b (List.mem_cons_of_mem _ ((List.perm_insertionSort s l).subset hb))

end InsertionSort

section Key

variable [LinearOrder κ] (key : α → κ)

/-- The last element of `l` with key `k`. -/
def lastWithKey (l : List α) (k : κ) : Option α :=
  (l.filter fun a => key a = k).getLast?

variable {key}

theorem lastWithKey_cons_of_ne {a : α} {l : List α} {k : κ} (h : key a ≠ k) :
    lastWithKey key (a :: l) k = lastWithKey key l k := by
  rw [lastWithKey, List.filter_cons_of_neg (by simpa using h), ← lastWithKey]

theorem lastWithKey_cons_of_eq {a : α} {l : List α} {k : κ} (h : key a = k) :
    lastWithKey key (a :: l) k = some ((lastWithKey key l k).getD a) := by
  rw [lastWithKey, List.filter_cons_of_pos (by simpa using h), List.getLast?_cons, ← lastWithKey]

theorem lastWithKey_eq_some {l : List α} {k : κ} {a : α} (h : lastWithKey key l k = some a) :
    a ∈ l ∧ key a = k := by
  have hm := List.mem_of_getLast? h
  rw [List.mem_filter] at hm
  exact ⟨hm.1, by simpa using hm.2⟩

theorem exists_lastWithKey_of_mem {l : List α} {a : α} (ha : a ∈ l) :
    ∃ b, lastWithKey key l (key a) = some b := by
  have hne : (l.filter fun b => key b = key a) ≠ [] :=
    List.ne_nil_of_mem (List.mem_filter.mpr ⟨ha, by simp⟩)
  exact Option.ne_none_iff_exists'.mp (mt List.getLast?_eq_none_iff.mp hne)

/-- Stable: sorting by key keeps each key's elements in the order of `l`. -/
theorem filter_insertionSort_key (l : List α) (k : κ) :
    (l.insertionSort fun a b => key a ≤ key b).filter (fun a => key a = k) =
      l.filter fun a => key a = k := by
  have hc : (l.filter fun a => key a = k).Pairwise fun a b => key a ≤ key b := by
    refine List.pairwise_of_forall_mem_list fun a ha b hb => ?_
    rw [List.mem_filter, decide_eq_true_iff] at ha hb
    rw [ha.2, hb.2]
  have hsub := (List.sublist_insertionSort hc List.filter_sublist).filter fun a => decide (key a = k)
  rw [List.filter_filter, List.filter_congr fun a _ => Bool.and_self _] at hsub
  have hperm := (List.perm_insertionSort (fun a b => key a ≤ key b) l).filter
    fun a => decide (key a = k)
  exact (hsub.eq_of_length hperm.length_eq.symm).symm

theorem lastWithKey_insertionSort (l : List α) (k : κ) :
    lastWithKey key (l.insertionSort fun a b => key a ≤ key b) k = lastWithKey key l k :=
  congrArg List.getLast? (filter_insertionSort_key l k)

section Runs

variable {equals : α → α → Bool} {last x : α} {xs : List α}

/-- On a list sorted by key, where `equals` compares keys, the loop keeps exactly the last
element of each key. -/
theorem mem_lastOfRuns :
    ∀ {last : α} {xs : List α}, (last :: xs).Pairwise (fun a b => key a ≤ key b) →
      (∀ a ∈ last :: xs, ∀ b ∈ last :: xs, equals a b = decide (key a = key b)) →
      ∀ y, y ∈ lastOfRuns equals last xs ↔ lastWithKey key (last :: xs) (key y) = some y
  | last, [], _, _, y => by
    rw [lastOfRuns, List.mem_singleton]
    constructor
    · rintro rfl
      rw [lastWithKey_cons_of_eq rfl]
      rfl
    · intro h
      exact List.mem_singleton.mp (lastWithKey_eq_some h).1
  | last, x :: xs, hs, heq, y => by
    have hlx : key last ≤ key x := List.rel_of_pairwise_cons hs List.mem_cons_self
    have ih := mem_lastOfRuns hs.of_cons
      (fun a ha b hb => heq a (List.mem_cons_of_mem _ ha) b (List.mem_cons_of_mem _ hb)) y
    have hxl : equals x last = decide (key x = key last) :=
      heq x (List.mem_cons_of_mem _ List.mem_cons_self) last List.mem_cons_self
    rw [lastOfRuns]
    by_cases hk : key x = key last
    · -- `x` continues the run of `last`
      rw [if_pos (by simp [hxl, hk]), ih]
      by_cases hy : key last = key y
      · rw [lastWithKey_cons_of_eq hy, lastWithKey_cons_of_eq (hk.trans hy), Option.getD_some]
      · rw [lastWithKey_cons_of_ne hy]
    · -- a new key starts at `x`: `last` ends its run
      have hlt : key last < key x := lt_of_le_of_ne hlx (Ne.symm hk)
      rw [if_neg (by simp [hxl, hk]), List.mem_cons, ih]
      by_cases hy : key last = key y
      · have hnone : lastWithKey key (x :: xs) (key y) = none := by
          rw [lastWithKey, List.getLast?_eq_none_iff, List.filter_eq_nil_iff]
          intro a ha
          have hxa : key x ≤ key a := by
            rcases List.mem_cons.mp ha with rfl | ha
            · exact le_rfl
            · exact List.rel_of_pairwise_cons hs.of_cons ha
          simp only [decide_eq_true_eq]
          exact ((hy ▸ hlt).trans_le hxa).ne'
        rw [lastWithKey_cons_of_eq hy, hnone]
        simp [eq_comm]
      · rw [lastWithKey_cons_of_ne hy]
        constructor
        · rintro (rfl | h)
          · exact absurd rfl hy
          · exact h
        · exact .inr

/-- The elements kept have strictly ascending keys. -/
theorem pairwise_lastOfRuns :
    ∀ {last : α} {xs : List α}, (last :: xs).Pairwise (fun a b => key a ≤ key b) →
      (∀ a ∈ last :: xs, ∀ b ∈ last :: xs, equals a b = decide (key a = key b)) →
      (lastOfRuns equals last xs).Pairwise fun a b => key a < key b
  | last, [], _, _ => List.pairwise_singleton _ last
  | last, x :: xs, hs, heq => by
    have hlx : key last ≤ key x := List.rel_of_pairwise_cons hs List.mem_cons_self
    have ih := pairwise_lastOfRuns hs.of_cons
      fun a ha b hb => heq a (List.mem_cons_of_mem _ ha) b (List.mem_cons_of_mem _ hb)
    have hxl : equals x last = decide (key x = key last) :=
      heq x (List.mem_cons_of_mem _ List.mem_cons_self) last List.mem_cons_self
    rw [lastOfRuns]
    by_cases hk : key x = key last
    · rw [if_pos (by simp [hxl, hk])]
      exact ih
    · have hlt : key last < key x := lt_of_le_of_ne hlx (Ne.symm hk)
      rw [if_neg (by simp [hxl, hk])]
      refine List.pairwise_cons.mpr ⟨fun b hb => ?_, ih⟩
      have hxb : key x ≤ key b := by
        rcases List.mem_cons.mp (lastOfRuns_subset equals x xs hb) with rfl | hb
        · exact le_rfl
        · exact List.rel_of_pairwise_cons hs.of_cons hb
      exact hlt.trans_le hxb

end Runs

section Sorted

variable {less equals : α → α → Bool} {l : List α}

theorem pairwise_insertionSort_key (l : List α) :
    (l.insertionSort fun a b => key a ≤ key b).Pairwise fun a b => key a ≤ key b := by
  have : Std.Total fun a b : α => key a ≤ key b := ⟨fun _ _ => le_total _ _⟩
  have : IsTrans α fun a b => key a ≤ key b := ⟨fun _ _ _ => le_trans⟩
  exact List.pairwise_insertionSort _ l

/-- With `less` and `equals` comparing keys on `l`, the run's facts hold of the sorted list. -/
theorem sortLastOfRuns_cases (hless : ∀ a ∈ l, ∀ b ∈ l, less a b = decide (key a < key b))
    (hequals : ∀ a ∈ l, ∀ b ∈ l, equals a b = decide (key a = key b)) :
    (l = [] ∧ sortLastOfRuns less equals l = []) ∨
      ∃ first rest, (l.insertionSort fun a b => key a ≤ key b) = first :: rest ∧
        sortLastOfRuns less equals l = lastOfRuns equals first rest ∧
        (first :: rest).Pairwise (fun a b => key a ≤ key b) ∧
        ∀ a ∈ first :: rest, ∀ b ∈ first :: rest, equals a b = decide (key a = key b) := by
  have hsort : (l.insertionSort fun a b => !less b a) =
      l.insertionSort fun a b => key a ≤ key b :=
    insertionSort_congr fun a ha b hb => by simp [hless b hb a ha]
  unfold sortLastOfRuns
  rw [hsort]
  have hmem : ∀ a, a ∈ (l.insertionSort fun a b => key a ≤ key b) → a ∈ l :=
    fun a ha => (List.perm_insertionSort _ l).subset ha
  cases hs : (l.insertionSort fun a b => key a ≤ key b) with
  | nil =>
    have hnil : l = [] := List.eq_nil_of_length_eq_zero
      (by rw [← List.length_insertionSort (fun a b => key a ≤ key b), hs]; rfl)
    exact .inl ⟨hnil, rfl⟩
  | cons first rest =>
    rw [hs] at hmem
    exact .inr ⟨first, rest, rfl, rfl, hs ▸ pairwise_insertionSort_key l,
      fun a ha b hb => hequals a (hmem a ha) b (hmem b hb)⟩

/-- The elements kept are the last of each key in `l`. -/
theorem mem_sortLastOfRuns (hless : ∀ a ∈ l, ∀ b ∈ l, less a b = decide (key a < key b))
    (hequals : ∀ a ∈ l, ∀ b ∈ l, equals a b = decide (key a = key b)) (y : α) :
    y ∈ sortLastOfRuns less equals l ↔ lastWithKey key l (key y) = some y := by
  rcases sortLastOfRuns_cases hless hequals with ⟨rfl, hnil⟩ | ⟨first, rest, hs, heq, hsorted, hcmp⟩
  · rw [hnil]
    simp [lastWithKey]
  · rw [heq, mem_lastOfRuns hsorted hcmp y, ← hs, lastWithKey_insertionSort]

theorem pairwise_sortLastOfRuns (hless : ∀ a ∈ l, ∀ b ∈ l, less a b = decide (key a < key b))
    (hequals : ∀ a ∈ l, ∀ b ∈ l, equals a b = decide (key a = key b)) :
    (sortLastOfRuns less equals l).Pairwise fun a b => key a < key b := by
  rcases sortLastOfRuns_cases hless hequals with ⟨_, hnil⟩ | ⟨first, rest, _, heq, hsorted, hcmp⟩
  · rw [hnil]
    exact List.Pairwise.nil
  · rw [heq]
    exact pairwise_lastOfRuns hsorted hcmp

/-- Sorting stably and keeping the last of each run is writing `l` in order into an ordered
store keyed by `key`. -/
theorem sortLastOfRuns_eq_putAllBy
    (hless : ∀ a ∈ l, ∀ b ∈ l, less a b = decide (key a < key b))
    (hequals : ∀ a ∈ l, ∀ b ∈ l, equals a b = decide (key a = key b)) :
    sortLastOfRuns less equals l = (SortedMap.putAllBy key [] l).map Prod.snd := by
  have hkeys := SortedMap.pairwise_putAllBy key (m := []) List.Pairwise.nil l
  have hkey := SortedMap.key_of_mem_putAllBy key (fun p hp => absurd hp List.not_mem_nil) l
  have hnodup : ((SortedMap.putAllBy key [] l).map Prod.fst).Nodup := hkeys.imp ne_of_lt
  have : Std.Antisymm fun a b : α => key a < key b :=
    ⟨fun _ _ h h' => absurd (h.trans h') (lt_irrefl _)⟩
  have : Std.Irrefl fun a b : α => key a < key b := ⟨fun _ => lt_irrefl _⟩
  -- both sides have strictly ascending keys and hold the same elements
  refine List.Pairwise.eq_of_mem_iff (pairwise_sortLastOfRuns hless hequals) ?_ fun y => ?_
  · rw [List.pairwise_map] at hkeys ⊢
    exact hkeys.imp_of_mem fun ha hb h => by rwa [← hkey _ ha, ← hkey _ hb]
  · rw [mem_sortLastOfRuns hless hequals, List.mem_map]
    have hlook : (SortedMap.putAllBy key [] l).lookup (key y) = lastWithKey key l (key y) := by
      rw [SortedMap.lookup_putAllBy, List.lookup_nil, Option.or_none]
      rfl
    constructor
    · intro h
      exact ⟨(key y, y), mem_of_lookup_eq_some (hlook.trans h), rfl⟩
    · rintro ⟨p, hp, rfl⟩
      rw [← hlook, ← hkey p hp]
      exact (lookup_eq_some_iff_mem hnodup).mpr hp

end Sorted

section Stable

variable {l₁ l₂ : List α}

theorem key_le_of_mem_cons {a b : α} {l : List α}
    (hs : (a :: l).Pairwise fun a b => key a ≤ key b) (hb : b ∈ a :: l) : key a ≤ key b := by
  rcases List.mem_cons.mp hb with rfl | hb
  · exact le_rfl
  · exact List.rel_of_pairwise_cons hs hb

/-- Two lists sorted by key are one list when they hold, key by key, the same elements in the
same order. -/
theorem eq_of_pairwise_of_filter_key_eq : ∀ {l₁ l₂ : List α},
    l₁.Pairwise (fun a b => key a ≤ key b) → l₂.Pairwise (fun a b => key a ≤ key b) →
    (∀ k, l₁.filter (fun a => key a = k) = l₂.filter (fun a => key a = k)) → l₁ = l₂
  | [], [], _, _, _ => rfl
  | [], b :: l₂, _, _, h => by
    have hb := h (key b)
    rw [List.filter_cons_of_pos (by simp)] at hb
    cases hb
  | a :: l₁, [], _, _, h => by
    have ha := h (key a)
    rw [List.filter_cons_of_pos (by simp)] at ha
    cases ha
  | a :: l₁, b :: l₂, h₁, h₂, h => by
    -- the heads hold the least key of each list, which is one key
    have hmem : ∀ {c d : α} {m₁ m₂ : List α},
        (∀ k, (c :: m₁).filter (fun a => key a = k) = (d :: m₂).filter (fun a => key a = k)) →
        d ∈ c :: m₁ := fun {c d m₁ m₂} h => by
      have hd : d ∈ (d :: m₂).filter fun a => key a = key d :=
        List.mem_filter.mpr ⟨List.mem_cons_self, by simp⟩
      rw [← h (key d)] at hd
      exact (List.mem_filter.mp hd).1
    have hab : key a = key b := le_antisymm (key_le_of_mem_cons h₁ (hmem h))
      (key_le_of_mem_cons h₂ (hmem fun k => (h k).symm))
    have ha := h (key a)
    rw [List.filter_cons_of_pos (by simp), List.filter_cons_of_pos (by simp [hab])] at ha
    obtain ⟨rfl, -⟩ := List.cons.inj ha
    refine congrArg (a :: ·) (eq_of_pairwise_of_filter_key_eq h₁.of_cons h₂.of_cons fun k => ?_)
    have hk := h k
    by_cases hak : key a = k
    · rw [List.filter_cons_of_pos (by simp [hak]), List.filter_cons_of_pos (by simp [hak])] at hk
      exact (List.cons.inj hk).2
    · rwa [List.filter_cons_of_neg (by simp [hak]), List.filter_cons_of_neg (by simp [hak])] at hk

/-- Sorting stably by key reads of its input only, key by key, which elements come in which
order. -/
theorem insertionSort_key_eq_of_filter_eq
    (h : ∀ k, l₁.filter (fun a => key a = k) = l₂.filter (fun a => key a = k)) :
    (l₁.insertionSort fun a b => key a ≤ key b) = l₂.insertionSort fun a b => key a ≤ key b :=
  eq_of_pairwise_of_filter_key_eq (pairwise_insertionSort_key l₁) (pairwise_insertionSort_key l₂)
    fun k => by rw [filter_insertionSort_key, filter_insertionSort_key, h k]

/-- Lists with, key by key, the same elements in the same order are permutations of each
other. -/
theorem perm_of_filter_key_eq
    (h : ∀ k, l₁.filter (fun a => key a = k) = l₂.filter (fun a => key a = k)) :
    l₁.Perm l₂ := by
  classical
  refine List.perm_iff_count.mpr fun a => ?_
  have hp : decide (key a = key a) = true := decide_eq_true rfl
  rw [← List.count_filter (p := fun b => decide (key b = key a)) (a := a) hp, h (key a),
    List.count_filter (p := fun b => decide (key b = key a)) (a := a) hp]

end Stable

end Key

end Noms.Lib
