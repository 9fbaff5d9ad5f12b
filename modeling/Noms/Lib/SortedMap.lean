import Mathlib

/-!
# Ordered key-value stores

An ordered store (a sorted file, an LSM tree seen through its iterator) is a list of pairs in
ascending key order. `put` is its write: the pair goes before the first greater key, and replaces
the pair of an equal key. The lemmas say where a `put` lands when the list is cut in blocks whose
keys are all below, or all above, the key (`put_append_of_forall_lt`, `put_of_forall_lt`), and
that an order embedding of the keys commutes with `put` (`put_map`), which is how a store of
composite keys is split along its first component, and what a lookup reads after a `put`
(`lookup_put_self`, `lookup_put_of_ne`) or an `erase` (`lookup_erase_self`,
`lookup_erase_of_ne`).
-/

namespace Noms.Lib.SortedMap

variable {κ β : Type} [LinearOrder κ]

/-- Insert `(k, v)` before the first greater key, replacing the pair of an equal key. -/
def put (k : κ) (v : β) : List (κ × β) → List (κ × β)
  | [] => [(k, v)]
  | (k', v') :: rest =>
    if k < k' then (k, v) :: (k', v') :: rest
    else if k = k' then (k, v) :: rest
    else (k', v') :: put k v rest

variable {k : κ} {v : β}

@[simp] theorem put_nil : put k v ([] : List (κ × β)) = [(k, v)] := rfl

theorem put_cons_of_eq {v' : β} (rest : List (κ × β)) : put k v ((k, v') :: rest) = (k, v) :: rest := by
  simp [put]

/-- A key below every key of the list goes in front. -/
theorem put_of_forall_lt {l : List (κ × β)} (h : ∀ p ∈ l, k < p.1) : put k v l = (k, v) :: l := by
  cases l with
  | nil => rfl
  | cons p rest =>
    have hp : k < p.1 := h p List.mem_cons_self
    simp [put, hp]

/-- A block of smaller keys is passed over unchanged. -/
theorem put_append_of_forall_lt {l₁ : List (κ × β)} (h : ∀ p ∈ l₁, p.1 < k) (l₂ : List (κ × β)) :
    put k v (l₁ ++ l₂) = l₁ ++ put k v l₂ := by
  induction l₁ with
  | nil => rfl
  | cons p rest ih =>
    have hp : p.1 < k := h p List.mem_cons_self
    have ih' := ih fun q hq => h q (List.mem_cons_of_mem _ hq)
    simp only [List.cons_append, put, not_lt_of_gt hp, (ne_of_gt hp), if_false, ih']

/-- A key below every key of the second block lands in the first. -/
theorem put_append_of_lt_forall (l₁ : List (κ × β)) {l₂ : List (κ × β)}
    (h : ∀ p ∈ l₂, k < p.1) : put k v (l₁ ++ l₂) = put k v l₁ ++ l₂ := by
  induction l₁ with
  | nil => exact put_of_forall_lt h
  | cons p rest ih =>
    simp only [List.cons_append, put]
    split_ifs <;> simp [ih]

/-- `put` adds its pair and keeps or drops the others. -/
theorem mem_put {l : List (κ × β)} {p : κ × β} (h : p ∈ put k v l) : p = (k, v) ∨ p ∈ l := by
  induction l with
  | nil => simpa using h
  | cons q rest ih =>
    simp only [put] at h
    split_ifs at h <;> simp only [List.mem_cons] at h ⊢
    · tauto
    · tauto
    · rcases h with rfl | h
      · exact .inr (.inl rfl)
      · rcases ih h with rfl | h
        · exact .inl rfl
        · exact .inr (.inr h)

/-- After a `put` the key reads its new value. -/
theorem lookup_put_self (k : κ) (v : β) (l : List (κ × β)) : (put k v l).lookup k = some v := by
  induction l with
  | nil => simp
  | cons p rest ih =>
    obtain ⟨k', v'⟩ := p
    simp only [put]
    split_ifs with hlt heq
    · simp [List.lookup]
    · simp [List.lookup]
    · have hne : (k == k') = false := by simpa using heq
      simp [List.lookup, hne, ih]

/-- A `put` leaves every other key's value. -/
theorem lookup_put_of_ne {k k' : κ} (hne : k' ≠ k) (v : β) (l : List (κ × β)) :
    (put k v l).lookup k' = l.lookup k' := by
  have hkk : (k' == k) = false := by simpa using hne
  induction l with
  | nil => simp [List.lookup, hkk]
  | cons p rest ih =>
    obtain ⟨k'', v''⟩ := p
    simp only [put]
    split_ifs with hlt heq
    · simp [List.lookup, hkk]
    · subst heq
      simp [List.lookup, hkk]
    · by_cases h' : k' = k''
      · subst h'
        simp [List.lookup]
      · have h'' : (k' == k'') = false := by simpa using h'
        simp [List.lookup, h'', ih]

/-- Drop the pair of key `k`. -/
def erase (k : κ) (l : List (κ × β)) : List (κ × β) := l.filter fun p => p.1 ≠ k

/-- After an `erase` the key reads nothing. -/
theorem lookup_erase_self (k : κ) (l : List (κ × β)) : (erase k l).lookup k = none := by
  induction l with
  | nil => rfl
  | cons p rest ih =>
    obtain ⟨k', v'⟩ := p
    by_cases hk : k' = k
    · simpa [erase, hk] using ih
    · have hkk : (k == k') = false := by simpa using Ne.symm hk
      simpa [erase, hk, List.lookup, hkk] using ih

/-- An `erase` leaves every other key's value. -/
theorem lookup_erase_of_ne {k k' : κ} (hne : k' ≠ k) (l : List (κ × β)) :
    (erase k l).lookup k' = l.lookup k' := by
  induction l with
  | nil => rfl
  | cons p rest ih =>
    obtain ⟨k'', v''⟩ := p
    by_cases hk : k'' = k
    · subst hk
      have hkk : (k' == k'') = false := by simpa using hne
      simpa [erase, List.lookup, hkk] using ih
    · by_cases h' : k' = k''
      · subst h'
        simp [erase, hk, List.lookup]
      · have hkk : (k' == k'') = false := by simpa using h'
        simpa [erase, hk, List.lookup, hkk] using ih

/-- An order embedding of the keys commutes with `put`. -/
theorem put_map {γ : Type} [LinearOrder γ] {f : κ → γ} (hf : StrictMono f) (k : κ) (v : β)
    (l : List (κ × β)) : put (f k) v (l.map (Prod.map f id)) = (put k v l).map (Prod.map f id) := by
  induction l with
  | nil => rfl
  | cons p rest ih =>
    obtain ⟨k', v'⟩ := p
    simp only [List.map_cons, Prod.map, id, put, hf.lt_iff_lt, hf.injective.eq_iff]
    split_ifs <;> simp [ih, Prod.map]

/-- Prefixing one key is an order embedding of the lexicographic order. -/
theorem strictMono_cons (a : κ) : StrictMono (List.cons a) := fun _ _ h =>
  List.cons_lt_cons_iff.mpr (Or.inr ⟨rfl, h⟩)

/-- `put` keeps the keys strictly ascending. -/
theorem pairwise_put {l : List (κ × β)} (h : (l.map Prod.fst).Pairwise (· < ·)) :
    ((put k v l).map Prod.fst).Pairwise (· < ·) := by
  induction l with
  | nil => simp
  | cons p rest ih =>
    obtain ⟨k', v'⟩ := p
    rw [List.map_cons, List.pairwise_cons] at h
    simp only [put]
    split_ifs with hlt heq
    · -- in front of `k'`, so below every key
      refine List.pairwise_cons.mpr ⟨fun x hx => ?_, List.pairwise_cons.mpr h⟩
      rcases List.mem_cons.mp hx with rfl | hx
      · exact hlt
      · exact hlt.trans (h.1 x hx)
    · subst heq
      exact List.pairwise_cons.mpr h
    · have hk : k' < k := lt_of_le_of_ne (not_lt.mp hlt) (Ne.symm heq)
      refine List.pairwise_cons.mpr ⟨fun x hx => ?_, ih h.2⟩
      obtain ⟨q, hq, rfl⟩ := List.mem_map.mp hx
      rcases mem_put hq with rfl | hq
      · exact hk
      · exact h.1 q.1 (List.mem_map_of_mem hq)

section PutAllBy

variable {α : Type} (key : α → κ)

/-- Every element of `l`, in order, put under its key. -/
def putAllBy (m : List (κ × α)) (l : List α) : List (κ × α) :=
  l.foldl (fun m a => put (key a) a m) m

theorem pairwise_putAllBy {m : List (κ × α)} (h : (m.map Prod.fst).Pairwise (· < ·))
    (l : List α) : ((putAllBy key m l).map Prod.fst).Pairwise (· < ·) := by
  induction l generalizing m with
  | nil => exact h
  | cons a l ih => exact ih (pairwise_put h)

theorem key_of_mem_putAllBy {m : List (κ × α)} (h : ∀ p ∈ m, p.1 = key p.2) (l : List α) :
    ∀ p ∈ putAllBy key m l, p.1 = key p.2 := by
  induction l generalizing m with
  | nil => exact h
  | cons a l ih =>
    refine ih fun p hp => ?_
    rcases mem_put hp with rfl | hp
    · rfl
    · exact h p hp

/-- A key reads the last element of `l` put under it, or what `m` held. -/
theorem lookup_putAllBy (m : List (κ × α)) (l : List α) (k : κ) :
    (putAllBy key m l).lookup k = ((l.filter fun a => key a = k).getLast?).or (m.lookup k) := by
  induction l generalizing m with
  | nil => simp [putAllBy]
  | cons a l ih =>
    rw [putAllBy, List.foldl_cons, ← putAllBy, ih]
    by_cases hk : key a = k
    · subst hk
      rw [lookup_put_self, List.filter_cons_of_pos (by simp), List.getLast?_cons]
      cases (l.filter fun b => key b = key a).getLast? <;> rfl
    · rw [lookup_put_of_ne (Ne.symm hk), List.filter_cons_of_neg (by simpa using hk)]

end PutAllBy

end Noms.Lib.SortedMap
