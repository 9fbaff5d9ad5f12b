import Mathlib.Data.List.Basic

/-!
# The first occurrence of each element

`keepNew seen l` walks `l` with the elements met so far, starting from `seen`, and keeps an
element the first time it is met: the loop `if !seen[t] { seen[t] = true; out = append(out, t) }`
over a Go map used as a set. It keeps each element of `l` outside `seen` once (`mem_keepNew`,
`nodup_keepNew`), at its first occurrence. It reads `seen` only by membership (`keepNew_congr`),
commutes with a filter (`filter_keepNew`), and a piece of its input that is deduplicated first
comes out the same (`keepNew_keepNew_append`, `keepNew_flatten_map_keepNew`).
-/

namespace Noms.Lib

variable {α : Type} [DecidableEq α]

/-- The elements of `l` not in `seen`, each at its first occurrence. -/
def keepNew : List α → List α → List α
  | _, [] => []
  | seen, a :: l => if a ∈ seen then keepNew seen l else a :: keepNew (seen ++ [a]) l

@[simp] theorem keepNew_nil (seen : List α) : keepNew seen [] = [] := rfl

theorem keepNew_cons_of_mem {seen : List α} {a : α} (h : a ∈ seen) (l : List α) :
    keepNew seen (a :: l) = keepNew seen l := by
  rw [keepNew, if_pos h]

theorem keepNew_cons_of_not_mem {seen : List α} {a : α} (h : a ∉ seen) (l : List α) :
    keepNew seen (a :: l) = a :: keepNew (seen ++ [a]) l := by
  rw [keepNew, if_neg h]

/-- Only which elements of `l` are in `seen` matters. -/
theorem keepNew_congr : ∀ {s₁ s₂ l : List α}, (∀ x ∈ l, x ∈ s₁ ↔ x ∈ s₂) →
    keepNew s₁ l = keepNew s₂ l
  | _, _, [], _ => rfl
  | s₁, s₂, a :: l, h => by
    have hrest : ∀ x ∈ l, x ∈ s₁ ↔ x ∈ s₂ := fun x hx => h x (List.mem_cons_of_mem a hx)
    by_cases ha : a ∈ s₁
    · rw [keepNew_cons_of_mem ha, keepNew_cons_of_mem ((h a List.mem_cons_self).mp ha),
        keepNew_congr hrest]
    · have ha₂ : a ∉ s₂ := fun ha₂ => ha ((h a List.mem_cons_self).mpr ha₂)
      rw [keepNew_cons_of_not_mem ha, keepNew_cons_of_not_mem ha₂]
      -- `a` joins both lists of seen elements
      refine congrArg (a :: ·) (keepNew_congr fun x hx => ?_)
      rw [List.mem_append, List.mem_append, hrest x hx]

theorem mem_keepNew {x : α} : ∀ {seen l : List α}, x ∈ keepNew seen l ↔ x ∈ l ∧ x ∉ seen
  | _, [] => by simp
  | seen, a :: l => by
    by_cases ha : a ∈ seen
    · rw [keepNew_cons_of_mem ha, mem_keepNew, List.mem_cons]
      constructor
      · exact fun h => ⟨.inr h.1, h.2⟩
      · rintro ⟨rfl | hx, hs⟩
        · exact absurd ha hs
        · exact ⟨hx, hs⟩
    · rw [keepNew_cons_of_not_mem ha, List.mem_cons, mem_keepNew, List.mem_cons, List.mem_append,
        List.mem_singleton]
      by_cases hx : x = a
      · subst hx
        simp [ha]
      · simp [hx]

theorem nodup_keepNew : ∀ (seen l : List α), (keepNew seen l).Nodup
  | _, [] => List.nodup_nil
  | seen, a :: l => by
    by_cases ha : a ∈ seen
    · rw [keepNew_cons_of_mem ha]
      exact nodup_keepNew seen l
    · rw [keepNew_cons_of_not_mem ha]
      refine List.nodup_cons.mpr ⟨fun h => ?_, nodup_keepNew _ l⟩
      exact (mem_keepNew.mp h).2 (List.mem_append_right seen List.mem_cons_self)

/-- The second part is read with the first part's new elements seen. -/
theorem keepNew_append : ∀ (seen l₁ l₂ : List α),
    keepNew seen (l₁ ++ l₂) = keepNew seen l₁ ++ keepNew (seen ++ keepNew seen l₁) l₂
  | seen, [], l₂ => by rw [List.nil_append, keepNew_nil, List.nil_append, List.append_nil]
  | seen, a :: l₁, l₂ => by
    by_cases ha : a ∈ seen
    · rw [List.cons_append, keepNew_cons_of_mem ha, keepNew_cons_of_mem ha, keepNew_append]
    · rw [List.cons_append, keepNew_cons_of_not_mem ha, keepNew_cons_of_not_mem ha,
        keepNew_append, List.cons_append, List.append_assoc, List.singleton_append]

theorem filter_keepNew (p : α → Bool) : ∀ (seen l : List α),
    (keepNew seen l).filter p = keepNew seen (l.filter p)
  | _, [] => rfl
  | seen, a :: l => by
    by_cases ha : a ∈ seen
    · rw [keepNew_cons_of_mem ha, filter_keepNew]
      by_cases hp : p a = true
      · rw [List.filter_cons_of_pos hp, keepNew_cons_of_mem ha]
      · rw [List.filter_cons_of_neg hp]
    · rw [keepNew_cons_of_not_mem ha]
      by_cases hp : p a = true
      · rw [List.filter_cons_of_pos hp, List.filter_cons_of_pos hp, keepNew_cons_of_not_mem ha,
          filter_keepNew]
      · rw [List.filter_cons_of_neg hp, List.filter_cons_of_neg hp, filter_keepNew]
        -- `a` is filtered out, so seeing it changes nothing
        refine keepNew_congr fun x hx => ?_
        have hxa : x ≠ a := fun e => hp (e ▸ (List.mem_filter.mp hx).2)
        simp [hxa]

/-- Deduplicating first and then reading past `seen` is reading past both. -/
theorem keepNew_keepNew : ∀ (seen s₀ l : List α),
    keepNew seen (keepNew s₀ l) = keepNew (s₀ ++ seen) l
  | _, _, [] => rfl
  | seen, s₀, a :: l => by
    by_cases h₀ : a ∈ s₀
    · rw [keepNew_cons_of_mem h₀, keepNew_cons_of_mem (List.mem_append_left seen h₀),
        keepNew_keepNew]
    · rw [keepNew_cons_of_not_mem h₀]
      by_cases hs : a ∈ seen
      · rw [keepNew_cons_of_mem hs, keepNew_cons_of_mem (List.mem_append_right s₀ hs),
          keepNew_keepNew]
        refine keepNew_congr fun x _ => ?_
        simp only [List.mem_append, List.mem_singleton]
        constructor
        · rintro ((h | rfl) | h)
          · exact .inl h
          · exact .inr hs
          · exact .inr h
        · rintro (h | h)
          · exact .inl (.inl h)
          · exact .inr h
      · have hnot : a ∉ s₀ ++ seen := by simp [h₀, hs]
        rw [keepNew_cons_of_not_mem hs, keepNew_cons_of_not_mem hnot, keepNew_keepNew]
        refine congrArg (a :: ·) (keepNew_congr fun x _ => ?_)
        simp only [List.mem_append, List.mem_singleton]
        tauto

/-- A prefix deduplicated on its own reads as the prefix itself. -/
theorem keepNew_keepNew_append (seen l₁ l₂ : List α) :
    keepNew seen (keepNew [] l₁ ++ l₂) = keepNew seen (l₁ ++ l₂) := by
  rw [keepNew_append, keepNew_append seen l₁, keepNew_keepNew, List.nil_append]

theorem keepNew_flatten_map_keepNew {β : Type} (f : β → List α) : ∀ (seen : List α) (cs : List β),
    keepNew seen ((cs.map fun c => keepNew [] (f c)).flatten) = keepNew seen (cs.map f).flatten
  | _, [] => rfl
  | seen, c :: cs => by
    rw [List.map_cons, List.flatten_cons, List.map_cons, List.flatten_cons, keepNew_append,
      keepNew_flatten_map_keepNew f, ← keepNew_append, keepNew_keepNew_append]

end Noms.Lib
