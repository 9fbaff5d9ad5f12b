import Noms.Lib.AssocList
import Mathlib

/-!
# A least-recently-used cache under a weight budget

The cache is the list of its entries from the least to the most recently used, with distinct
keys. A use of a key (`touch`) moves its entry to the back. An insertion appends and then evicts
(`fit`) from the front until what remains weighs at most the budget: the least recently used
entries go first, and no more of them than needed (`fit_eq_drop`). An insertion heavier than the
budget is ignored, and an insertion of a present key is a use of it.

Every operation keeps the keys distinct and the weight within the budget (`Valid.step`), and an
entry keeps its payload for as long as it stays in the cache (`lookup_step`, `lookup_run`).
-/

namespace Noms.Lib

namespace Lru

variable {α β : Type} (w : β → Nat)

/-- The total weight of a list of entries. -/
def weight (l : List (α × β)) : Nat :=
  (l.map fun e => w e.2).sum

/-- Eviction: drop entries from the front until what remains weighs at most `budget`. -/
def fit (budget : Nat) : List (α × β) → List (α × β)
  | [] => []
  | e :: rest => if budget < weight w (e :: rest) then fit budget rest else e :: rest

/-! ## Weight -/

@[simp]
theorem weight_nil : weight w ([] : List (α × β)) = 0 := rfl

@[simp]
theorem weight_cons (e : α × β) (l : List (α × β)) :
    weight w (e :: l) = w e.2 + weight w l := by
  simp [weight]

@[simp]
theorem weight_append (l m : List (α × β)) : weight w (l ++ m) = weight w l + weight w m := by
  simp [weight]

theorem weight_perm {l m : List (α × β)} (h : l.Perm m) : weight w l = weight w m :=
  (h.map _).sum_nat

theorem weight_sublist {l m : List (α × β)} (h : l.Sublist m) : weight w l ≤ weight w m := by
  induction h with
  | slnil => exact Nat.le_refl _
  | cons e _ ih => simp only [weight_cons]; omega
  | cons_cons e _ ih => simp only [weight_cons]; omega

/-! ## Eviction -/

variable {w}

/-- `fit` drops a prefix, and every shorter prefix would have left too much: the least recently
used entries go first, and only as many as needed. -/
theorem fit_eq_drop (budget : Nat) :
    ∀ l : List (α × β), ∃ n, fit w budget l = l.drop n ∧ ∀ m < n, budget < weight w (l.drop m)
  | [] => ⟨0, rfl, fun _ h => absurd h (Nat.not_lt_zero _)⟩
  | e :: rest => by
    by_cases hover : budget < weight w (e :: rest)
    · obtain ⟨n, hfit, hless⟩ := fit_eq_drop budget rest
      refine ⟨n + 1, by rw [fit, if_pos hover, hfit, List.drop_succ_cons], ?_⟩
      intro m hm
      cases m with
      | zero => exact hover
      | succ m => exact hless m (by omega)
    · exact ⟨0, by rw [fit, if_neg hover, List.drop_zero], fun _ h => absurd h (Nat.not_lt_zero _)⟩

theorem weight_fit_le (budget : Nat) : ∀ l : List (α × β), weight w (fit w budget l) ≤ budget
  | [] => Nat.zero_le _
  | e :: rest => by
    rw [fit]
    split
    · exact weight_fit_le budget rest
    · omega

theorem fit_sublist (budget : Nat) (l : List (α × β)) : (fit w budget l).Sublist l := by
  obtain ⟨n, hfit, -⟩ := fit_eq_drop (w := w) budget l
  rw [hfit]
  exact List.drop_sublist n l

/-- An entry that fits the budget alone survives its own insertion. -/
theorem mem_fit_append_singleton {budget : Nat} (l : List (α × β)) {e : α × β}
    (he : w e.2 ≤ budget) : e ∈ fit w budget (l ++ [e]) := by
  obtain ⟨n, hfit, hless⟩ := fit_eq_drop (w := w) budget (l ++ [e])
  have hn : n ≤ l.length := by
    by_contra hgt
    have hlast := hless l.length (by simp at hgt ⊢; omega)
    rw [List.drop_left] at hlast
    simp at hlast
    omega
  rw [hfit, List.drop_append_of_le_length hn]
  exact List.mem_append_right _ List.mem_cons_self

variable [DecidableEq α]

variable (w)

/-- A use of `k`: its entry moves to the back. -/
def touch (k : α) (l : List (α × β)) : List (α × β) :=
  match l.lookup k with
  | none => l
  | some b => l.filter (fun e => e.1 ≠ k) ++ [(k, b)]

/-- An operation on the cache. -/
inductive Op (α β : Type) where
  | add (k : α) (b : β)
  | get (k : α)
  | drop (k : α)

/-- One operation: the entries after it, and what a `get` answers. -/
def step (budget : Nat) (l : List (α × β)) : Op α β → List (α × β) × Option β
  | .add k b =>
    (if w b ≤ budget then
      if (l.lookup k).isSome then touch k l else fit w budget (l ++ [(k, b)])
    else l, none)
  | .get k => (touch k l, l.lookup k)
  | .drop k => (l.filter (fun e => e.1 ≠ k), none)

/-- A run of operations: the final entries and the answers, in order. -/
def run (budget : Nat) : List (α × β) → List (Op α β) → List (α × β) × List (Option β)
  | l, [] => (l, [])
  | l, op :: ops =>
    let (l', r) := step w budget l op
    let (l'', rs) := run budget l' ops
    (l'', r :: rs)

/-- The caches a run passes through, one after each operation. -/
def trace (budget : Nat) : List (α × β) → List (Op α β) → List (List (α × β))
  | _, [] => []
  | l, op :: ops => (step w budget l op).1 :: trace budget (step w budget l op).1 ops

/-- What every reachable cache satisfies: distinct keys, and a weight within the budget. -/
structure Valid (budget : Nat) (l : List (α × β)) : Prop where
  nodup : (l.map Prod.fst).Nodup
  weight_le : weight w l ≤ budget

variable {w}

/-! ## Keys and lookups -/

omit [DecidableEq α] in
theorem nodup_keys_sublist {l m : List (α × β)} (h : l.Sublist m)
    (hnd : (m.map Prod.fst).Nodup) : (l.map Prod.fst).Nodup :=
  (h.map _).nodup hnd

/-- A sublist of a cache answers a lookup as the cache does, or not at all. -/
theorem lookup_sublist {l m : List (α × β)} (h : l.Sublist m) (hnd : (m.map Prod.fst).Nodup)
    {k : α} {b : β} (hk : m.lookup k = some b) : l.lookup k = some b ∨ l.lookup k = none := by
  cases hl : l.lookup k with
  | none => exact .inr rfl
  | some b' =>
    have hmem : (k, b') ∈ m := h.subset (mem_of_lookup_eq_some hl)
    rw [← (lookup_eq_some_iff_mem hnd).mpr hmem, hk]
    exact .inl rfl

/-- With distinct keys, the entries of key `k` are its one entry. -/
theorem filter_key_eq {l : List (α × β)} (hnd : (l.map Prod.fst).Nodup) {k : α} {b : β}
    (hk : l.lookup k = some b) : l.filter (fun e => e.1 = k) = [(k, b)] := by
  induction l with
  | nil => cases hk
  | cons e l ih =>
    obtain ⟨k', b'⟩ := e
    rw [List.map_cons, List.nodup_cons] at hnd
    by_cases hkk : k' = k
    · subst hkk
      simp only [List.lookup_cons, beq_self_eq_true, Option.some.injEq] at hk
      -- no later entry holds the head's key
      have hrest : l.filter (fun e => e.1 = k') = [] := by
        rw [List.filter_eq_nil_iff]
        intro e he hek
        exact hnd.1 (List.mem_map.mpr ⟨e, he, by simpa using hek⟩)
      simp [hrest, hk]
    · have hbeq : (k == k') = false := by simpa using Ne.symm hkk
      simp only [List.lookup_cons, hbeq] at hk
      simp [hkk, ih hnd.2 hk]

/-- A touch only reorders the entries. -/
theorem touch_perm {l : List (α × β)} (hnd : (l.map Prod.fst).Nodup) (k : α) :
    (touch k l).Perm l := by
  unfold touch
  split
  · exact List.Perm.refl l
  · rename_i b hk
    have hsplit := List.filter_append_perm (fun e : α × β => decide (e.1 ≠ k)) l
    rw [← filter_key_eq hnd hk]
    simpa using hsplit

theorem lookup_touch {l : List (α × β)} (hnd : (l.map Prod.fst).Nodup) (k j : α) :
    (touch k l).lookup j = l.lookup j := by
  have hperm := touch_perm hnd k
  have hnd' : ((touch k l).map Prod.fst).Nodup := (hperm.map _).nodup_iff.mpr hnd
  cases hj : l.lookup j with
  | none =>
    rw [lookup_eq_none_iff_not_mem] at hj ⊢
    exact fun hm => hj ((hperm.map _).subset hm)
  | some b =>
    exact (lookup_eq_some_iff_mem hnd').mpr (hperm.mem_iff.mpr (mem_of_lookup_eq_some hj))

/-- The touched entry ends the list, after the others in their old order. -/
theorem touch_of_lookup {l : List (α × β)} {k : α} {b : β} (hk : l.lookup k = some b) :
    touch k l = l.filter (fun e => e.1 ≠ k) ++ [(k, b)] := by
  simp [touch, hk]

/-- Removing a key's entry takes its weight off the total. -/
theorem weight_filter_add {l : List (α × β)} (hnd : (l.map Prod.fst).Nodup) {k : α} {b : β}
    (hk : l.lookup k = some b) : weight w (l.filter (fun e => e.1 ≠ k)) + w b = weight w l := by
  have hperm := touch_perm hnd k
  rw [touch_of_lookup hk] at hperm
  simpa using weight_perm w hperm

/-- Without an entry for the key, a touch or a removal changes nothing. -/
theorem touch_of_lookup_none {l : List (α × β)} {k : α} (hk : l.lookup k = none) :
    touch k l = l := by
  simp [touch, hk]

theorem filter_of_lookup_none {l : List (α × β)} {k : α} (hk : l.lookup k = none) :
    l.filter (fun e => e.1 ≠ k) = l := by
  rw [List.filter_eq_self]
  intro e he
  have hnot := lookup_eq_none_iff_not_mem.mp hk
  simpa using fun hek => hnot (List.mem_map.mpr ⟨e, he, hek⟩)

theorem lookup_append_new {l : List (α × β)} {k : α} (hk : l.lookup k = none) (b : β) (j : α) :
    (l ++ [(k, b)]).lookup j = if j = k then some b else l.lookup j := by
  induction l with
  | nil =>
    by_cases hj : j = k
    · simp [hj]
    · have hjbeq : (j == k) = false := by simpa using hj
      simp [List.lookup_cons, hjbeq, hj]
  | cons e l ih =>
    obtain ⟨k', b'⟩ := e
    by_cases hkk : k = k'
    · subst hkk
      simp at hk
    · have hbeq : (k == k') = false := by simpa using hkk
      simp only [List.lookup_cons, hbeq] at hk
      by_cases hj : j = k'
      · subst hj
        simp [Ne.symm hkk]
      · have hjbeq : (j == k') = false := by simpa using hj
        simp only [List.cons_append, List.lookup_cons, hjbeq, ih hk]

/-! ## Each operation -/

variable {budget : Nat}

theorem nodup_keys_append_new {l : List (α × β)} (hnd : (l.map Prod.fst).Nodup) {k : α}
    (hk : l.lookup k = none) (b : β) : ((l ++ [(k, b)]).map Prod.fst).Nodup := by
  have hnot : k ∉ l.map Prod.fst := lookup_eq_none_iff_not_mem.mp hk
  rw [List.map_append, List.nodup_append]
  refine ⟨hnd, by simp, ?_⟩
  intro a ha c hc
  have hck : c = k := by simpa using hc
  rintro rfl
  exact hnot (hck ▸ ha)

theorem Valid.touch {l : List (α × β)} (hv : Valid w budget l) (k : α) :
    Valid w budget (touch k l) :=
  ⟨(((touch_perm hv.nodup k).map _).nodup_iff).mpr hv.nodup,
    (weight_perm w (touch_perm hv.nodup k)) ▸ hv.weight_le⟩

theorem Valid.step {l : List (α × β)} (hv : Valid w budget l) (op : Op α β) :
    Valid w budget (step w budget l op).1 := by
  cases op with
  | add k b =>
    simp only [Lru.step]
    split
    · split
      · exact hv.touch k
      · rename_i hk
        have hnd := nodup_keys_append_new hv.nodup (Option.not_isSome_iff_eq_none.mp hk) b
        exact ⟨nodup_keys_sublist (fit_sublist budget _) hnd, weight_fit_le budget _⟩
    · exact hv
  | get k => exact hv.touch k
  | drop k =>
    exact ⟨nodup_keys_sublist List.filter_sublist hv.nodup,
      Nat.le_trans (weight_sublist w List.filter_sublist) hv.weight_le⟩

/-- An entry keeps its payload through any operation, or leaves the cache. -/
theorem lookup_step {l : List (α × β)} (hv : Valid w budget l) (op : Op α β) {k : α} {b : β}
    (hk : l.lookup k = some b) :
    (step w budget l op).1.lookup k = some b ∨ (step w budget l op).1.lookup k = none := by
  cases op with
  | add j c =>
    simp only [Lru.step]
    split
    · split
      · exact .inl (by rw [lookup_touch hv.nodup, hk])
      · rename_i hj
        have hjn : l.lookup j = none := Option.not_isSome_iff_eq_none.mp hj
        have hkj : k ≠ j := by
          rintro rfl
          rw [hk] at hjn
          cases hjn
        have hk' : (l ++ [(j, c)]).lookup k = some b := by
          rw [lookup_append_new hjn, if_neg hkj, hk]
        exact lookup_sublist (fit_sublist budget _) (nodup_keys_append_new hv.nodup hjn c) hk'
    · exact .inl hk
  | get j => exact .inl (by simp only [Lru.step]; rw [lookup_touch hv.nodup, hk])
  | drop j => exact lookup_sublist List.filter_sublist hv.nodup hk

/-- An insertion of a new key that fits the budget holds its payload afterwards. -/
theorem lookup_step_add_new {l : List (α × β)} (hv : Valid w budget l) {k : α} {b : β}
    (hk : l.lookup k = none) (hb : w b ≤ budget) :
    (step w budget l (.add k b)).1.lookup k = some b := by
  have hfit : ((fit w budget (l ++ [(k, b)])).map Prod.fst).Nodup :=
    nodup_keys_sublist (fit_sublist budget _) (nodup_keys_append_new hv.nodup hk b)
  simp only [Lru.step, if_pos hb, hk, Option.isSome_none, Bool.false_eq_true, if_false]
  exact (lookup_eq_some_iff_mem hfit).mpr (mem_fit_append_singleton l hb)

/-! ## Runs -/

theorem Valid.run {l : List (α × β)} (hv : Valid w budget l) :
    ∀ ops : List (Op α β), Valid w budget (run w budget l ops).1
  | [] => hv
  | op :: ops => (hv.step op).run ops

/-- An entry that stays in the cache after every operation of a run keeps its payload: a `get`
at the end answers with what was inserted. -/
theorem lookup_run {l : List (α × β)} (hv : Valid w budget l) {k : α} {b : β}
    (hk : l.lookup k = some b) :
    ∀ ops : List (Op α β), (∀ l' ∈ trace w budget l ops, (l'.lookup k).isSome) →
      (run w budget l ops).1.lookup k = some b
  | [], _ => hk
  | op :: ops, hstay => by
    have hfirst := hstay _ List.mem_cons_self
    have hk' : (step w budget l op).1.lookup k = some b := by
      rcases lookup_step hv op hk with hk' | hnone
      · exact hk'
      · rw [hnone] at hfirst
        cases hfirst
    exact lookup_run (hv.step op) hk' ops (fun l' hl' => hstay l' (List.mem_cons_of_mem _ hl'))

end Lru

end Noms.Lib
