import Mathlib.Logic.Basic

/-!
# Schedules of a system of partial steps

A concurrent component is a state and a partial `step`: what one event does, `none` where the
event is not enabled. A schedule is a list of events and `runEvents` plays it. The rules carry a
fact from one step to every schedule: an invariant kept by each enabled step holds after any
schedule (`runEvents_invariant`), and a measure that each enabled step lowers bounds the length of
any schedule (`length_add_measure_le`), so that no schedule goes on for ever. A state where no
event is enabled is `Stuck`.
-/

namespace Noms.Lib

variable {σ ε : Type} (step : σ → ε → Option σ)

/-- The events of a schedule, one after another; `none` once one is not enabled. -/
def runEvents (s : σ) : List ε → Option σ
  | [] => some s
  | e :: es => (step s e).bind fun s' => runEvents s' es

/-- No event is enabled. -/
def Stuck (s : σ) : Prop := ∀ e, step s e = none

/-- `Inv` holds after every enabled step from a state where it holds. -/
def StepInvariant (Inv : σ → Prop) : Prop := ∀ s e s', Inv s → step s e = some s' → Inv s'

@[simp] theorem runEvents_nil (s : σ) : runEvents step s [] = some s := rfl

theorem runEvents_cons {s s'' : σ} {e : ε} {es : List ε} :
    runEvents step s (e :: es) = some s'' ↔
      ∃ s', step s e = some s' ∧ runEvents step s' es = some s'' := by
  simp [runEvents, Option.bind_eq_some_iff]

section Rules

variable {step} {Inv : σ → Prop}

/-- An invariant of every enabled step holds after every schedule. -/
theorem runEvents_invariant (hstep : StepInvariant step Inv) :
    ∀ {es : List ε} {s s' : σ}, Inv s → runEvents step s es = some s' → Inv s'
  | [], s, s', hs, h => by
    rw [runEvents_nil, Option.some.injEq] at h
    exact h ▸ hs
  | e :: es, s, s', hs, h => by
    obtain ⟨s₁, h₁, hrest⟩ := (runEvents_cons step).mp h
    exact runEvents_invariant hstep (hstep s e s₁ hs h₁) hrest

/-- A measure that every enabled step lowers, where the invariant holds, bounds the length of
every schedule. -/
theorem length_add_measure_le (measure : σ → Nat) (hstep : StepInvariant step Inv)
    (hdec : ∀ s e s', Inv s → step s e = some s' → measure s' < measure s) :
    ∀ {es : List ε} {s s' : σ}, Inv s → runEvents step s es = some s' →
      es.length + measure s' ≤ measure s
  | [], s, s', _, h => by
    rw [runEvents_nil, Option.some.injEq] at h
    subst h
    simp
  | e :: es, s, s', hs, h => by
    obtain ⟨s₁, h₁, hrest⟩ := (runEvents_cons step).mp h
    have hlt : measure s₁ < measure s := hdec s e s₁ hs h₁
    have ih := length_add_measure_le measure hstep hdec (hstep s e s₁ hs h₁) hrest
    simp only [List.length_cons]
    omega

end Rules

end Noms.Lib
