import CachyDb.Lib.Transition
import Mathlib.Logic.Function.Basic

set_option autoImplicit false

/-! A memo of the reads of an object that only grows, without a lock. Readers look for their key
in the memo, take it from there or read the object, and store what they have read; a change of
the object is followed by the clearing of the memo. All of these are steps of their own. -/

namespace Memo

open Transition

variable {Object Change Key Result : Type}

/-- A reader between its accesses: the key was in the memo, or was not, or has been read. A read
that ends has its result, finds its key gone from the memo, or is refused by the object. -/
inductive Reader (Key Result : Type)
  | waiting
  | found (key : Key)
  | missed (key : Key)
  | fetched (key : Key) (result : Result)
  | returned (key : Key) (result : Result)
  | interrupted (key : Key)
  | refused (key : Key)

/-- No access is left to do. -/
def Reader.atRest : Reader Key Result → Bool
  | .found _ | .missed _ | .fetched _ _ => false
  | _ => true

/-- The read that has ended, with its result. -/
def Reader.result : Reader Key Result → Option (Key × Result)
  | .returned key result => some (key, result)
  | _ => none

theorem Reader.of_result {reader : Reader Key Result} {key : Key} {result : Result}
    (ended : reader.result = some (key, result)) : reader = .returned key result := by
  cases reader with
  | returned other result' =>
      cases ended
      rfl
  | _ => cases ended

/-- `clearing` counts the changes that have not cleared the memo yet. -/
structure State (Object Key Result : Type) where
  object : Object
  memo : Key → Option Result
  clearing : Nat
  readers : Nat → Reader Key Result

def start (object : Object) : State Object Key Result := ⟨object, fun _ => none, 0, fun _ => .waiting⟩

inductive Event (Change Key : Type)
  | test (reader : Nat) (key : Key)
  | take (reader : Nat)
  | fetch (reader : Nat)
  | store (reader : Nat)
  | change (c : Change)
  | clear

def State.put (s : State Object Key Result) (reader : Nat) (state : Reader Key Result) :
    State Object Key Result :=
  { s with readers := Function.update s.readers reader state }

/-- Either it is this reader, or nothing has changed. -/
theorem State.put_readers {s : State Object Key Result} {reader other : Nat}
    {state state' : Reader Key Result} (known : (s.put reader state).readers other = state') :
    state = state' ∨ s.readers other = state' := by
  unfold State.put at known
  dsimp only at known
  by_cases same : other = reader
  · subst same
    rw [Function.update_self] at known
    exact Or.inl known
  · rw [Function.update_of_ne same] at known
    exact Or.inr known

section Steps

variable [DecidableEq Key] (read : Object → Key → Option Result)
  (change : Object → Change → Option Object)

def perform (s : State Object Key Result) :
    Event Change Key → Option (State Object Key Result)
  | .test reader key =>
      if (s.readers reader).atRest then
        match s.memo key with
        | some _ => some (s.put reader (.found key))
        | none => some (s.put reader (.missed key))
      else none
  | .take reader =>
      match s.readers reader with
      | .found key =>
          match s.memo key with
          | some result => some (s.put reader (.returned key result))
          | none => some (s.put reader (.interrupted key))
      | _ => none
  | .fetch reader =>
      match s.readers reader with
      | .missed key =>
          match read s.object key with
          | some result => some (s.put reader (.fetched key result))
          | none => some (s.put reader (.refused key))
      | _ => none
  | .store reader =>
      match s.readers reader with
      | .fetched key result =>
          some { s.put reader (.returned key result) with
            memo := Function.update s.memo key (some result) }
      | _ => none
  | .change c =>
      (change s.object c).map fun object => { s with object := object, clearing := s.clearing + 1 }
  | .clear =>
      if s.clearing = 0 then none
      else some { s with memo := fun _ => none, clearing := s.clearing - 1 }

def Step (s : State Object Key Result) (e : Event Change Key) (t : State Object Key Result) : Prop :=
  perform read change s e = some t

/-- All that a step can be. -/
inductive Taken (s : State Object Key Result) :
    Event Change Key → State Object Key Result → Prop
  | hit (reader : Nat) {key : Key} {result : Result} : s.memo key = some result →
      Taken s (.test reader key) (s.put reader (.found key))
  | miss (reader : Nat) {key : Key} : s.memo key = none →
      Taken s (.test reader key) (s.put reader (.missed key))
  | take (reader : Nat) {key : Key} {result : Result} : s.readers reader = .found key →
      s.memo key = some result → Taken s (.take reader) (s.put reader (.returned key result))
  | interrupt (reader : Nat) {key : Key} : s.readers reader = .found key → s.memo key = none →
      Taken s (.take reader) (s.put reader (.interrupted key))
  | fetch (reader : Nat) {key : Key} {result : Result} : s.readers reader = .missed key →
      read s.object key = some result → Taken s (.fetch reader) (s.put reader (.fetched key result))
  | refuse (reader : Nat) {key : Key} : s.readers reader = .missed key → read s.object key = none →
      Taken s (.fetch reader) (s.put reader (.refused key))
  | store (reader : Nat) {key : Key} {result : Result} : s.readers reader = .fetched key result →
      Taken s (.store reader) { s.put reader (.returned key result) with
        memo := Function.update s.memo key (some result) }
  | change {c : Change} {object : Object} : change s.object c = some object →
      Taken s (.change c) { s with object := object, clearing := s.clearing + 1 }
  | clear : s.clearing ≠ 0 →
      Taken s .clear { s with memo := fun _ => none, clearing := s.clearing - 1 }

variable {read change} {s t : State Object Key Result} {e : Event Change Key}

theorem step_taken (step : Step read change s e t) : Taken read change s e t := by
  unfold Step perform at step
  cases e with
  | test reader key =>
      dsimp only at step
      split at step
      · cases known : s.memo key with
        | some result =>
            rw [known] at step
            cases step
            exact .hit reader known
        | none =>
            rw [known] at step
            cases step
            exact .miss reader known
      · cases step
  | take reader =>
      dsimp only at step
      split at step
      · rename_i key found
        cases known : s.memo key with
        | some result =>
            rw [known] at step
            cases step
            exact .take reader found known
        | none =>
            rw [known] at step
            cases step
            exact .interrupt reader found known
      · cases step
  | fetch reader =>
      dsimp only at step
      split at step
      · rename_i key missed
        cases got : read s.object key with
        | some result =>
            rw [got] at step
            cases step
            exact .fetch reader missed got
        | none =>
            rw [got] at step
            cases step
            exact .refuse reader missed got
      · cases step
  | store reader =>
      dsimp only at step
      split at step
      · rename_i key result fetched
        cases step
        exact .store reader fetched
      · cases step
  | change c =>
      obtain ⟨object, changed, rfl⟩ := Option.map_eq_some_iff.mp step
      exact .change changed
  | clear =>
      dsimp only at step
      split at step
      · cases step
      · rename_i pending
        cases step
        exact .clear pending

end Steps

/-- The object gives under each key what it gave before. -/
def Grows (read : Object → Key → Option Result) (change : Object → Change → Option Object)
    (valid : Object → Prop) : Prop :=
  ∀ o c o', valid o → change o c = some o' →
    valid o' ∧ ∀ key result, read o key = some result → read o' key = some result

/-- Whatever has been read is what the object has. -/
structure Sound (read : Object → Key → Option Result) (valid : Object → Prop)
    (s : State Object Key Result) : Prop where
  valid : valid s.object
  memo : ∀ key result, s.memo key = some result → read s.object key = some result
  fetched : ∀ reader key result, s.readers reader = .fetched key result →
    read s.object key = some result
  returned : ∀ reader key result, s.readers reader = .returned key result →
    read s.object key = some result

/-- The memo is not cleared while a reader is about to take its result from there. -/
def Undisturbed (s : State Object Key Result) : Event Change Key → Prop
  | .clear => ∀ reader key, s.readers reader ≠ .found key
  | _ => True

/-- Each reader finds in the memo what it has seen there. -/
structure Steady (s : State Object Key Result) : Prop where
  kept : ∀ reader key, s.readers reader = .found key → s.memo key ≠ none
  finished : ∀ reader key, s.readers reader ≠ .interrupted key

section Runs

variable {read : Object → Key → Option Result} {change : Object → Change → Option Object}
  {valid : Object → Prop} {s t : State Object Key Result} {e : Event Change Key}

/-- A reader moves on, and has what the object has. -/
theorem Sound.put (sound : Sound read valid s) (reader : Nat) {state : Reader Key Result}
    (fetched : ∀ key result, state = .fetched key result → read s.object key = some result)
    (returned : ∀ key result, state = .returned key result → read s.object key = some result) :
    Sound read valid (s.put reader state) := by
  refine ⟨sound.valid, sound.memo, fun other key result known => ?_, fun other key result known => ?_⟩
  · exact (State.put_readers known).elim (fetched key result) (sound.fetched other key result)
  · exact (State.put_readers known).elim (returned key result) (sound.returned other key result)

theorem Steady.put (steady : Steady s) (reader : Nat) {state : Reader Key Result}
    (kept : ∀ key, state = .found key → s.memo key ≠ none)
    (finished : ∀ key, state ≠ .interrupted key) : Steady (s.put reader state) := by
  refine ⟨fun other key known => ?_, fun other key known => ?_⟩
  · exact (State.put_readers known).elim (kept key) (steady.kept other key)
  · exact (State.put_readers known).elim (finished key) (steady.finished other key)

theorem Sound.step [DecidableEq Key] (grows : Grows read change valid) (sound : Sound read valid s)
    (step : Step read change s e t) : Sound read valid t := by
  cases step_taken step with
  | hit reader _ | miss reader _ | interrupt reader _ _ | refuse reader _ _ =>
      exact sound.put reader (fun _ _ same => by cases same) fun _ _ same => by cases same
  | take reader _ known =>
      refine sound.put reader (fun _ _ same => by cases same) fun _ _ same => ?_
      cases same
      exact sound.memo _ _ known
  | fetch reader _ got =>
      refine sound.put reader (fun _ _ same => ?_) fun _ _ same => by cases same
      cases same
      exact got
  | @store reader key result fetched =>
      have got := sound.fetched reader key result fetched
      have moved : Sound read valid (s.put reader (.returned key result)) := by
        refine sound.put reader (fun _ _ same => by cases same) fun _ _ same => ?_
        cases same
        exact got
      refine ⟨moved.valid, fun other result' known => ?_, moved.fetched, moved.returned⟩
      dsimp only at known
      by_cases same : other = key
      · rw [same, Function.update_self, Option.some.injEq] at known
        rw [same, ← known]
        exact got
      · rw [Function.update_of_ne same] at known
        exact sound.memo other result' known
  | @change c object changed =>
      obtain ⟨fine, kept⟩ := grows s.object c object sound.valid changed
      exact ⟨fine, fun key result known => kept key result (sound.memo key result known),
        fun reader key result known => kept key result (sound.fetched reader key result known),
        fun reader key result known => kept key result (sound.returned reader key result known)⟩
  | clear _ =>
      exact ⟨sound.valid, fun _ _ known => (by cases known), sound.fetched, sound.returned⟩

theorem Steady.step [DecidableEq Key] (steady : Steady s) (step : Step read change s e t)
    (still : Undisturbed s e) : Steady t := by
  cases step_taken step with
  | hit reader known =>
      refine steady.put reader (fun _ same => ?_) fun _ same => by cases same
      cases same
      rw [known]
      exact Option.some_ne_none _
  | miss reader _ | take reader _ _ | fetch reader _ _ | refuse reader _ _ =>
      exact steady.put reader (fun _ same => by cases same) fun _ same => by cases same
  | interrupt reader found gone => exact absurd gone (steady.kept reader _ found)
  | @store reader key result fetched =>
      have moved : Steady (s.put reader (.returned key result)) :=
        steady.put reader (fun _ same => by cases same) fun _ same => by cases same
      refine ⟨fun other found known => ?_, moved.finished⟩
      by_cases same : found = key
      · rw [same]
        dsimp only
        rw [Function.update_self]
        exact Option.some_ne_none _
      · dsimp only
        rw [Function.update_of_ne same]
        exact moved.kept other found known
  | change _ => exact ⟨steady.kept, steady.finished⟩
  | clear _ => exact ⟨fun reader key found => absurd found (still reader key), steady.finished⟩

/-- In every run a read gives what the object has. -/
theorem run_sound [DecidableEq Key] (grows : Grows read change valid) {object : Object}
    (fine : valid object) {events : List (Event Change Key)}
    (run : Run (Step read change) (start object) events t) : Sound read valid t := by
  refine run.preserves (P := Sound read valid) ⟨fine, ?_, ?_, ?_⟩ fun _ _ _ sound step =>
    sound.step grows step
  · exact fun _ _ known => by cases known
  · exact fun _ _ _ known => by cases known
  · exact fun _ _ _ known => by cases known

/-- Without a disturbance every read gets to its end. -/
theorem run_steady [DecidableEq Key] {object : Object} {events : List (Event Change Key)}
    (run : Run (Guarded (Step read change) Undisturbed) (start object) events t) : Steady t := by
  refine run.preserves (P := Steady) ⟨?_, ?_⟩ fun _ _ _ steady taken => steady.step taken.1 taken.2
  · exact fun _ _ known => by cases known
  · exact fun _ _ known => by cases known

end Runs

end Memo
