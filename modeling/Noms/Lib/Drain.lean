import Mathlib.Order.Basic

/-!
# Draining an iterator

`drain next fuel s` is `for { v, ok := it.Next(); if !ok { break } }` collecting the `v`s, for
at most `fuel` calls: a call fails (`none`, a panic), reports the end (`some none`), or returns a
value and the iterator's next state. An invariant over the values returned so far and the state,
which each call either keeps while lowering a variant or meets at the end, gives the values of a
whole run from any fuel above the variant (`drain_of_invariant`). A flag on each value that says
whether the next call ends marks exactly the last value (`getElem?_drain_last`).
-/

namespace Noms.Lib

variable {σ ω : Type} (next : σ → Option (Option (ω × σ)))

/-- `it.Next()` called until it returns `false`, at most `fuel` times: the values it returned,
or `none` if a call panics or the fuel runs out. -/
def drain : Nat → σ → Option (List ω)
  | 0, _ => none
  | fuel + 1, s =>
    match next s with
    | none => none
    | some none => some []
    | some (some (o, s')) => (drain fuel s').map (o :: ·)

variable {next}

theorem drain_succ_of_next {fuel : Nat} {s s' : σ} {o : ω} (h : next s = some (some (o, s'))) :
    drain next (fuel + 1) s = (drain next fuel s').map (o :: ·) := by
  simp [drain, h]

theorem drain_succ_of_end {fuel : Nat} {s : σ} (h : next s = some none) :
    drain next (fuel + 1) s = some [] := by
  simp [drain, h]

/-- A drain returns nothing exactly when its first call reports the end. -/
theorem drain_eq_nil_iff {fuel : Nat} {s : σ} {os : List ω} (h : drain next fuel s = some os) :
    os = [] ↔ next s = some none := by
  cases fuel with
  | zero => simp [drain] at h
  | succ fuel =>
    unfold drain at h
    split at h
    · cases h
    · rename_i hend
      simp only [Option.some.injEq] at h
      exact ⟨fun _ => hend, fun _ => h.symm⟩
    · rename_i o s' hnext
      obtain ⟨os', _, rfl⟩ := Option.map_eq_some_iff.mp h
      simp [hnext]

/-- The rule for a whole run: an invariant `Inv` over the values so far and the state, which
each call keeps while lowering the variant `μ`, or meets at the end with `Done`. -/
theorem drain_of_invariant (Inv : List ω → σ → Prop) (Done : List ω → Prop)
    (μ : List ω → σ → Nat)
    (hstep : ∀ out s, Inv out s → (next s = some none ∧ Done out) ∨
      ∃ o s', next s = some (some (o, s')) ∧ Inv (out ++ [o]) s' ∧ μ (out ++ [o]) s' < μ out s) :
    ∀ (fuel : Nat) (out : List ω) (s : σ), Inv out s → μ out s < fuel →
      ∃ os, drain next fuel s = some os ∧ Done (out ++ os)
  | 0, _, _, _, hμ => absurd hμ (Nat.not_lt_zero _)
  | fuel + 1, out, s, hinv, hμ => by
    rcases hstep out s hinv with ⟨hend, hdone⟩ | ⟨o, s', hnext, hinv', hμ'⟩
    · refine ⟨[], drain_succ_of_end hend, ?_⟩
      rw [List.append_nil]
      exact hdone
    · obtain ⟨os, hos, hdone⟩ :=
        drain_of_invariant Inv Done μ hstep fuel (out ++ [o]) s' hinv' (by omega)
      refine ⟨o :: os, by rw [drain_succ_of_next hnext, hos]; rfl, ?_⟩
      rw [List.append_cons]
      exact hdone

/-- When each value's flag says whether the call after it ends, the flag is set on the last
value of a run and on no other. -/
theorem getElem?_drain_last (last : ω → Bool)
    (hlast : ∀ s o s', next s = some (some (o, s')) → (last o = true ↔ next s' = some none)) :
    ∀ {fuel : Nat} {s : σ} {os : List ω}, drain next fuel s = some os →
      ∀ (k : Nat) (o : ω), os[k]? = some o → (last o = true ↔ k + 1 = os.length)
  | 0, _, _, h => by simp [drain] at h
  | fuel + 1, s, os, h => by
    unfold drain at h
    split at h
    · cases h
    · simp only [Option.some.injEq] at h
      subst h
      simp
    · rename_i o s' hnext
      obtain ⟨os', hos', rfl⟩ := Option.map_eq_some_iff.mp h
      intro k o' hk
      cases k with
      | zero =>
        -- the first value is the last exactly when the rest of the run is empty
        cases hk
        rw [hlast s o s' hnext, ← drain_eq_nil_iff hos', List.length_cons]
        constructor
        · rintro rfl
          rfl
        · intro hlen
          exact List.eq_nil_of_length_eq_zero (by omega)
      | succ k =>
        rw [getElem?_drain_last last hlast hos' k o' hk, List.length_cons]
        omega

end Noms.Lib
