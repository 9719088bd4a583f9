import Mathlib.Logic.Basic

set_option autoImplicit false

/-! Runs of a labelled transition relation and the rule that carries an
invariant along them. -/

namespace Transition

variable {State Event : Type}

/-- A finite run; the last event of the list is the last step taken. -/
inductive Run (step : State → Event → State → Prop) : State → List Event → State → Prop
  | nil (s : State) : Run step s [] s
  | snoc {s t u : State} {events : List Event} {e : Event} :
      Run step s events t → step t e u → Run step s (events ++ [e]) u

/-- The steps of `step` that are taken only where `guard` allows them. -/
def Guarded (step : State → Event → State → Prop) (guard : State → Event → Prop) :
    State → Event → State → Prop :=
  fun s e t => step s e t ∧ guard s e

variable {step : State → Event → State → Prop}

/-- What every step preserves holds after every run. -/
theorem Run.preserves {P : State → Prop} {s t : State} {events : List Event}
    (run : Run step s events t) (start : P s)
    (each : ∀ u e v, P u → step u e v → P v) : P t := by
  induction run with
  | nil => exact start
  | snoc _ last ih => exact each _ _ _ ih last

/-- Runs extend at their front as well. -/
theorem Run.cons {s t u : State} {events : List Event} {e : Event}
    (first : step s e t) (rest : Run step t events u) : Run step s (e :: events) u := by
  induction rest with
  | nil => exact Run.snoc (Run.nil s) first
  | snoc _ last ih => exact Run.snoc ih last

theorem Run.append {s t u : State} {front back : List Event}
    (first : Run step s front t) (second : Run step t back u) : Run step s (front ++ back) u := by
  induction second with
  | nil => simpa using first
  | snoc _ last ih =>
      rw [← List.append_assoc]
      exact Run.snoc ih last

theorem Run.mono {step' : State → Event → State → Prop} {s t : State} {events : List Event}
    (run : Run step s events t) (weaken : ∀ u e v, step u e v → step' u e v) :
    Run step' s events t := by
  induction run with
  | nil => exact Run.nil _
  | snoc _ last ih => exact Run.snoc ih (weaken _ _ _ last)

/-- The events one after the other, where a step may not be possible. -/
def play (perform : State → Event → Option State) (s : State) : List Event → Option State
  | [] => some s
  | e :: rest => (perform s e).bind fun t => play perform t rest

theorem play_run {perform : State → Event → Option State} {s t : State} {events : List Event}
    (plays : play perform s events = some t) :
    Run (fun s e t => perform s e = some t) s events t := by
  induction events generalizing s with
  | nil =>
      cases plays
      exact Run.nil _
  | cons e rest ih =>
      obtain ⟨u, first, later⟩ := Option.bind_eq_some_iff.mp plays
      exact Run.cons first (ih later)

/-- The same under a guard. -/
def playIn (perform : State → Event → Option State) (guard : State → Event → Prop)
    [∀ s e, Decidable (guard s e)] (s : State) : List Event → Option State
  | [] => some s
  | e :: rest =>
      if guard s e then (perform s e).bind fun t => playIn perform guard t rest else none

theorem playIn_run {perform : State → Event → Option State} {guard : State → Event → Prop}
    [∀ s e, Decidable (guard s e)] {s t : State} {events : List Event}
    (plays : playIn perform guard s events = some t) :
    Run (Guarded (fun s e t => perform s e = some t) guard) s events t := by
  induction events generalizing s with
  | nil =>
      cases plays
      exact Run.nil _
  | cons e rest ih =>
      unfold playIn at plays
      split at plays
      · rename_i allowed
        obtain ⟨u, first, later⟩ := Option.bind_eq_some_iff.mp plays
        exact Run.cons ⟨first, allowed⟩ (ih later)
      · cases plays

/-- What a run looks like through a function of the states. -/
theorem Run.map {State' : Type} {step' : State' → Event → State' → Prop} {s t : State}
    {events : List Event} (run : Run step s events t) (f : State → State')
    (each : ∀ u e v, step u e v → step' (f u) e (f v)) : Run step' (f s) events (f t) := by
  induction run with
  | nil => exact Run.nil _
  | snoc _ last ih => exact Run.snoc ih (each _ _ _ last)

end Transition
