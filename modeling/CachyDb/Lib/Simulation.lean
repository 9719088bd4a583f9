import CachyDb.Lib.Transition

set_option autoImplicit false

/-! Forward simulation. A step of one system is a step of another, or is not seen there. -/

namespace Transition

variable {State Event State' Event' : Type}

/-- A step that the other system sees is matched by one of its own, any other step by none. -/
structure Simulates (step : State → Event → State → Prop) (step' : State' → Event' → State' → Prop)
    (visible : Event' → Option Event) (related : State → State' → Prop) : Prop where
  shown : ∀ {s u' e e' v'}, related s u' → step' u' e' v' → visible e' = some e →
    ∃ t, step s e t ∧ related t v'
  silent : ∀ {s u' e' v'}, related s u' → step' u' e' v' → visible e' = none → related s v'

variable {step : State → Event → State → Prop} {step' : State' → Event' → State' → Prop}
  {visible : Event' → Option Event} {related : State → State' → Prop}

/-- A run is a run of the other system over the events that it sees. -/
theorem Simulates.run (simulates : Simulates step step' visible related) {s : State}
    {s' t' : State'} {events : List Event'} (run : Run step' s' events t') (start : related s s') :
    ∃ t, Run step s (events.filterMap visible) t ∧ related t t' := by
  induction run with
  | nil => exact ⟨s, Run.nil s, start⟩
  | @snoc _ _ _ e _ last ih =>
      obtain ⟨t, followed, here⟩ := ih
      rw [List.filterMap_append]
      cases seen : visible e with
      | none =>
          rw [List.filterMap_cons_none seen, List.filterMap_nil, List.append_nil]
          exact ⟨t, followed, simulates.silent here last seen⟩
      | some label =>
          obtain ⟨u, taken, there⟩ := simulates.shown here last seen
          rw [List.filterMap_cons_some seen, List.filterMap_nil]
          exact ⟨u, followed.snoc taken, there⟩

/-- What holds at the end of a run, and before a step whenever it holds after it, holds all along. -/
theorem Run.throughout {P : State → Prop} {s t : State} {events : List Event}
    (run : Run step s events t) (last : P t) (back : ∀ u e v, step u e v → P v → P u) :
    Run (fun u e v => step u e v ∧ P v) s events t := by
  induction run with
  | nil => exact Run.nil s
  | snoc _ taken ih => exact (ih (back _ _ _ taken last)).snoc ⟨taken, last⟩

/-- The steps of a run are by its events. -/
theorem Run.recorded {s t : State} {events : List Event} (run : Run step s events t) :
    Run (Guarded step fun _ e => e ∈ events) s events t := by
  induction run with
  | nil => exact Run.nil _
  | @snoc middle _ front e _ last ih =>
      have before : Run (Guarded step fun _ other => other ∈ front ++ [e]) s front middle :=
        ih.mono fun _ _ _ taken => ⟨taken.1, List.mem_append_left _ taken.2⟩
      exact before.snoc ⟨last, List.mem_append_right _ (List.mem_singleton_self _)⟩

/-- Events that are allowed in every state. -/
theorem play_guarded {perform : State → Event → Option State} {guard : State → Event → Prop}
    {s t : State} {events : List Event} (plays : play perform s events = some t)
    (free : ∀ e ∈ events, ∀ u, guard u e) :
    Run (Guarded (fun s e t => perform s e = some t) guard) s events t := by
  induction events generalizing s with
  | nil =>
      cases plays
      exact Run.nil _
  | cons e rest ih =>
      obtain ⟨here, others⟩ := List.forall_mem_cons.mp free
      obtain ⟨u, first, later⟩ := Option.bind_eq_some_iff.mp plays
      exact Run.cons ⟨first, here s⟩ (ih later others)

end Transition
