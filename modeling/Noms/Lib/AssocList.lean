import Mathlib.Data.List.Basic

/-!
# Association lists with distinct keys

A Go map that also remembers its insertion order is a list of pairs whose keys are distinct.
`List.lookup` reads it; with distinct keys a lookup finds exactly the pairs of the list
(`lookup_eq_some_iff_mem`), and a list of pairs is recovered from its keys by looking each of
them up (`map_lookup_keys`).

`Grows l l' new` is what a store that only ever adds may do to the pairs it answers with: every
key of `l` is still answered for, and every pair of `l'` was in `l` or was added (`new`). Steps
compose (`Grows.trans`), and leaving out of `l` the pairs whose key `m` holds keeps the keys of
`l ++ m` (`mem_keys_filter_append`).
-/

namespace Noms.Lib

variable {α β : Type} [DecidableEq α]

theorem lookup_eq_none_iff_not_mem {l : List (α × β)} {k : α} :
    l.lookup k = none ↔ k ∉ l.map Prod.fst := by
  rw [List.lookup_eq_none_iff, List.mem_map]
  constructor
  · rintro h ⟨p, hp, rfl⟩
    exact absurd (h p hp) (by simp)
  · intro h p hp
    exact bne_iff_ne.mpr fun he => h ⟨p, hp, he.symm⟩

theorem lookup_isSome_iff_mem {l : List (α × β)} {k : α} :
    (l.lookup k).isSome ↔ k ∈ l.map Prod.fst := by
  rw [← Option.ne_none_iff_isSome, ne_eq, lookup_eq_none_iff_not_mem, not_not]

theorem lookup_eq_some_iff_mem {l : List (α × β)} (hnd : (l.map Prod.fst).Nodup) {k : α} {v : β} :
    l.lookup k = some v ↔ (k, v) ∈ l := by
  induction l with
  | nil => simp
  | cons p l ih =>
    obtain ⟨k', v'⟩ := p
    rw [List.map_cons, List.nodup_cons] at hnd
    by_cases hk : k = k'
    · subst hk
      -- the head holds `k`, so no later pair can
      have hnot : (k, v) ∉ l := fun hm => hnd.1 (List.mem_map.mpr ⟨_, hm, rfl⟩)
      simp [hnot, eq_comm]
    · have hne : (k, v) ≠ (k', v') := fun h => hk (Prod.ext_iff.mp h).1
      have hbeq : (k == k') = false := by simpa using hk
      simp only [List.lookup_cons, hbeq]
      rw [ih hnd.2, List.mem_cons, or_iff_right hne]

theorem mem_of_lookup_eq_some {l : List (α × β)} {k : α} {v : β} (h : l.lookup k = some v) :
    (k, v) ∈ l := by
  induction l with
  | nil => cases h
  | cons p l ih =>
    obtain ⟨k', v'⟩ := p
    cases hk : k == k' with
    | true =>
      simp only [List.lookup_cons, hk, Option.some.injEq] at h
      rw [beq_iff_eq.mp hk, h]
      exact List.mem_cons_self
    | false =>
      simp only [List.lookup_cons, hk] at h
      exact List.mem_cons_of_mem _ (ih h)

/-- Looking up every key gives back the list. -/
theorem map_lookup_keys {l : List (α × β)} (hnd : (l.map Prod.fst).Nodup) (d : β) :
    l.map (fun p => (p.1, (l.lookup p.1).getD d)) = l := by
  conv_rhs => rw [← List.map_id l]
  refine List.map_congr_left fun p hp => ?_
  rw [(lookup_eq_some_iff_mem hnd).mpr hp, Option.getD_some, id]

theorem mem_keys_filter_append {l m : List (α × β)} {k : α} :
    k ∈ (l.filter (fun p => !decide (p.1 ∈ m.map Prod.fst)) ++ m).map Prod.fst ↔
      k ∈ (l ++ m).map Prod.fst := by
  simp only [List.map_append, List.mem_append]
  constructor
  · rintro (hk | hk)
    · exact .inl ((List.filter_sublist.map Prod.fst).subset hk)
    · exact .inr hk
  · rintro (hk | hk)
    · by_cases hm : k ∈ m.map Prod.fst
      · exact .inr hm
      · obtain ⟨p, hp, rfl⟩ := List.mem_map.mp hk
        exact .inl (List.mem_map_of_mem (List.mem_filter.mpr ⟨hp, by simpa using hm⟩))
    · exact .inr hk

end Noms.Lib

namespace Noms.Lib

variable {α β : Type}

/-- `l'` answers for every key of `l`, and each of its pairs is one of `l` or one of `new`. -/
structure Grows (l l' new : List (α × β)) : Prop where
  keys_mem : ∀ k ∈ l.map Prod.fst, k ∈ l'.map Prod.fst
  pairs_mem : ∀ p ∈ l', p ∈ l ∨ p ∈ new

namespace Grows

theorem refl (l new : List (α × β)) : Grows l l new :=
  ⟨fun _ hk => hk, fun _ hp => .inl hp⟩

theorem trans {l₁ l₂ l₃ n₁ n₂ : List (α × β)} (h₁ : Grows l₁ l₂ n₁) (h₂ : Grows l₂ l₃ n₂) :
    Grows l₁ l₃ (n₁ ++ n₂) where
  keys_mem k hk := h₂.keys_mem k (h₁.keys_mem k hk)
  pairs_mem p hp := by
    rcases h₂.pairs_mem p hp with hp | hp
    · rcases h₁.pairs_mem p hp with hp | hp
      · exact .inl hp
      · exact .inr (List.mem_append_left _ hp)
    · exact .inr (List.mem_append_right _ hp)

/-- Growing in front of a common back. -/
theorem append_right {l l' new : List (α × β)} (h : Grows l l' new) (back : List (α × β)) :
    Grows (l ++ back) (l' ++ back) new where
  keys_mem k hk := by
    rw [List.map_append, List.mem_append] at hk ⊢
    exact hk.imp_left (h.keys_mem k)
  pairs_mem p hp := by
    rcases List.mem_append.mp hp with hp | hp
    · exact (h.pairs_mem p hp).imp_left (List.mem_append_left _)
    · exact .inl (List.mem_append_right _ hp)

theorem mono {l l' new new' : List (α × β)} (h : Grows l l' new) (hsub : new ⊆ new') :
    Grows l l' new' :=
  ⟨h.keys_mem, fun p hp => (h.pairs_mem p hp).imp_right fun hp => hsub hp⟩

/-- With nothing added, the keys stay the same. -/
theorem keys_mem_of_nil {l l' : List (α × β)} (h : Grows l l' []) {k : α}
    (hk : k ∈ l'.map Prod.fst) : k ∈ l.map Prod.fst := by
  obtain ⟨p, hp, rfl⟩ := List.mem_map.mp hk
  rcases h.pairs_mem p hp with hp | hp
  · exact List.mem_map_of_mem hp
  · exact absurd hp List.not_mem_nil

/-- Growing behind a common front. -/
theorem append_left (front : List (α × β)) {l l' new : List (α × β)} (h : Grows l l' new) :
    Grows (front ++ l) (front ++ l') new where
  keys_mem k hk := by
    rw [List.map_append, List.mem_append] at hk ⊢
    exact hk.imp_right (h.keys_mem k)
  pairs_mem p hp := by
    rcases List.mem_append.mp hp with hp | hp
    · exact .inl (List.mem_append_left _ hp)
    · exact (h.pairs_mem p hp).imp_left (List.mem_append_right _)

end Grows

end Noms.Lib
