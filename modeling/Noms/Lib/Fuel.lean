import Mathlib.Logic.Basic

/-!
# Answers that more fuel keeps

A recursion run on fuel answers `some b`, or `none` when the fuel runs out; given more fuel it
answers the same wherever it answered before. That is how a model on fuel stands for code that
has no fuel: an answer at some fuel is the code's answer.

The step of such a proof goes through the `Option` combinators the recursion is written with.
Each keeps answers: if `g` answers as `f` wherever `f` answers on the elements of a list, then
`mapM`, `allM` and `anyM` of `g` over the list answer as those of `f` (`mapM_of_answers`,
`allM_of_answers`, `anyM_of_answers`).
-/

namespace Noms.Lib

variable {α β : Type}

theorem mapM_of_answers {f g : α → Option β} :
    ∀ {l : List α}, (∀ a ∈ l, ∀ b, f a = some b → g a = some b) →
      ∀ {r : List β}, l.mapM f = some r → l.mapM g = some r
  | [], _, _, h => h
  | a :: l, hfg, r, h => by
    simp only [List.mapM_cons, Option.pure_def, Option.bind_eq_bind,
      Option.bind_eq_some_iff] at h ⊢
    obtain ⟨b, hb, rs, hrs, hr⟩ := h
    exact ⟨b, hfg a List.mem_cons_self b hb, rs,
      mapM_of_answers (fun x hx => hfg x (List.mem_cons_of_mem _ hx)) hrs, hr⟩

theorem allM_of_answers {f g : α → Option Bool} :
    ∀ {l : List α}, (∀ a ∈ l, ∀ b, f a = some b → g a = some b) →
      ∀ {r : Bool}, l.allM f = some r → l.allM g = some r
  | [], _, _, h => h
  | a :: l, hfg, r, h => by
    simp only [List.allM_cons, Option.pure_def, Option.bind_eq_bind,
      Option.bind_eq_some_iff] at h ⊢
    obtain ⟨b, hb, h⟩ := h
    refine ⟨b, hfg a List.mem_cons_self b hb, ?_⟩
    cases b with
    | true => exact allM_of_answers (fun x hx => hfg x (List.mem_cons_of_mem _ hx)) h
    | false => exact h

theorem anyM_of_answers {f g : α → Option Bool} :
    ∀ {l : List α}, (∀ a ∈ l, ∀ b, f a = some b → g a = some b) →
      ∀ {r : Bool}, l.anyM f = some r → l.anyM g = some r
  | [], _, _, h => h
  | a :: l, hfg, r, h => by
    simp only [List.anyM_cons, Option.pure_def, Option.bind_eq_bind,
      Option.bind_eq_some_iff] at h ⊢
    obtain ⟨b, hb, h⟩ := h
    refine ⟨b, hfg a List.mem_cons_self b hb, ?_⟩
    cases b with
    | true => exact h
    | false => exact anyM_of_answers (fun x hx => hfg x (List.mem_cons_of_mem _ hx)) h

end Noms.Lib
