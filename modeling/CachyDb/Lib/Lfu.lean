import CachyDb.Lib.Transition
import Mathlib.Data.Set.Card

set_option autoImplicit false

/-! A bounded map that evicts the key used least, and among those the one left alone longest. -/

namespace Lfu

open Transition

variable {Key Value : Type}

/-- The value put last, how often the key was used since it came, and when last. -/
structure Held (Value : Type) where
  value : Value
  uses : Nat
  touched : Nat

structure State (Key Value : Type) where
  held : Key → Option (Held Value)
  clock : Nat

inductive Op (Key Value : Type)
  | get (key : Key)
  | put (key : Key) (value : Value)
  | invalidate (key : Key)
  | clear

/-- A call, what it answers, and the key that it evicts. -/
structure Event (Key Value : Type) where
  op : Op Key Value
  answer : Option Value
  evicted : Option Key

namespace State

def empty : State Key Value := ⟨fun _ => none, 0⟩

noncomputable def size (s : State Key Value) : Nat := Set.ncard {key | s.held key ≠ none}

/-- The key `a` was left alone longer than the key `b`. -/
def Older (s : State Key Value) (a b : Key) : Prop :=
  ∀ first second, s.held a = some first → s.held b = some second → first.touched < second.touched

def Victim (s : State Key Value) (key : Key) : Prop :=
  ∃ least, s.held key = some least ∧ ∀ other held, s.held other = some held → other ≠ key →
    least.uses < held.uses ∨ least.uses = held.uses ∧ least.touched < held.touched

variable [DecidableEq Key]

def assign (s : State Key Value) (key : Key) (held : Held Value) : State Key Value :=
  ⟨Function.update s.held key (some held), s.clock + 1⟩

def remove (s : State Key Value) (key : Key) : State Key Value :=
  { s with held := Function.update s.held key none }

@[simp] theorem assign_self (s : State Key Value) (key : Key) (held : Held Value) :
    (s.assign key held).held key = some held := by simp [assign]

@[simp] theorem assign_ne (s : State Key Value) {key other : Key} (held : Held Value)
    (different : other ≠ key) : (s.assign key held).held other = s.held other := by
  simp [assign, different]

@[simp] theorem assign_clock (s : State Key Value) (key : Key) (held : Held Value) :
    (s.assign key held).clock = s.clock + 1 := rfl

@[simp] theorem remove_self (s : State Key Value) (key : Key) : (s.remove key).held key = none := by
  simp [remove]

@[simp] theorem remove_ne (s : State Key Value) {key other : Key} (different : other ≠ key) :
    (s.remove key).held other = s.held other := by
  simp [remove, different]

@[simp] theorem remove_clock (s : State Key Value) (key : Key) :
    (s.remove key).clock = s.clock := rfl

end State

variable [DecidableEq Key]

/-- What each call may do. Only a new key that finds the cache full evicts another. -/
inductive Step (capacity : Nat) (s : State Key Value) : Event Key Value → State Key Value → Prop
  | hit {key : Key} {held : Held Value} : s.held key = some held →
      Step capacity s ⟨.get key, some held.value, none⟩
        (s.assign key ⟨held.value, held.uses + 1, s.clock⟩)
  | miss {key : Key} : s.held key = none → Step capacity s ⟨.get key, none, none⟩ s
  | update {key : Key} {value : Value} {held : Held Value} : s.held key = some held →
      Step capacity s ⟨.put key value, none, none⟩ (s.assign key ⟨value, held.uses + 1, s.clock⟩)
  | insert {key : Key} {value : Value} : s.held key = none → s.size < capacity →
      Step capacity s ⟨.put key value, none, none⟩ (s.assign key ⟨value, 1, s.clock⟩)
  | replace {key victim : Key} {value : Value} : s.held key = none → s.size = capacity →
      s.Victim victim → Step capacity s ⟨.put key value, none, some victim⟩
        ((s.remove victim).assign key ⟨value, 1, s.clock⟩)
  | invalidate {key : Key} : Step capacity s ⟨.invalidate key, none, none⟩ (s.remove key)
  | clear : Step capacity s ⟨.clear, none, none⟩ ⟨fun _ => none, s.clock⟩

/-- What one call leaves of the value of a key. -/
def Event.leaves (e : Event Key Value) (key : Key) (current : Option Value) : Option Value :=
  if e.evicted = some key then none
  else
    match e.op with
    | .get _ => current
    | .put other value => if other = key then some value else current
    | .invalidate other => if other = key then none else current
    | .clear => none

/-- The value put last under a key, unless the key was evicted, invalidated or cleared since. -/
def lastPut (events : List (Event Key Value)) (key : Key) : Option Value :=
  events.foldl (fun current e => e.leaves key current) none

theorem Step.leaves {capacity : Nat} {s t : State Key Value} {e : Event Key Value}
    (step : Step capacity s e t) (key : Key) :
    (t.held key).map Held.value = e.leaves key ((s.held key).map Held.value) := by
  cases step with
  | @hit other held found =>
      by_cases same : key = other
      · simp [Event.leaves, same, found]
      · simp [Event.leaves, same]
  | miss _ => simp [Event.leaves]
  | @update other value held found =>
      by_cases same : key = other
      · simp [Event.leaves, same]
      · simp [Event.leaves, same, Ne.symm same]
  | @insert other value _ _ =>
      by_cases same : key = other
      · simp [Event.leaves, same]
      · simp [Event.leaves, same, Ne.symm same]
  | @replace other victim value absent _ least =>
      have different : victim ≠ other := by
        rintro rfl
        obtain ⟨held, found, _⟩ := least
        simp [absent] at found
      by_cases same : key = other
      · simp [Event.leaves, same, different]
      · by_cases gone : key = victim
        · simp [Event.leaves, gone, different]
        · simp [Event.leaves, same, gone, Ne.symm same, Ne.symm gone]
  | @invalidate other =>
      by_cases same : key = other
      · simp [Event.leaves, same]
      · simp [Event.leaves, same, Ne.symm same]
  | clear => simp [Event.leaves]

theorem held_lastPut {capacity : Nat} {s : State Key Value} {events : List (Event Key Value)}
    (run : Run (Step capacity) State.empty events s) (key : Key) :
    (s.held key).map Held.value = lastPut events key := by
  induction run with
  | nil => rfl
  | snoc _ step ih =>
      rw [step.leaves key, ih]
      simp [lastPut]

end Lfu
