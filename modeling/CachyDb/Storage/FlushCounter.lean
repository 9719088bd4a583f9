import CachyDb.Lib.Transition
import CachyDb.Storage.Router
import CachyDb.Wal.Checkpoint

set_option autoImplicit false

/-! The counter of the flushes in progress, which keeps the checkpoint away. A flush counts
itself in the middle of its body and uncounts itself in its `finally`, counted or not. -/

namespace CachyDb

open Transition

/-- Whether a call has ended before its `try`, behind it without the increment, or with it. -/
inductive Exit
  | unopened
  | early
  | counted
  deriving DecidableEq

/-- Where a call of `flush_memtable_to_disk` is: before `_get_table_state`, at the start of the
`try`, before the increment, behind it, in the `finally`, or at its end. -/
inductive Stage
  | entered
  | opened
  | counting
  | working
  | leaving (counted : Bool)
  | ended (exit : Exit)
  deriving DecidableEq

/-- A step of a call. An exception may come at any point. -/
inductive Action
  | getTableState
  | begin
  | increment
  | finish
  | raise
  | decrement
  deriving DecidableEq

/-- Where a step leads, and what it adds to `active_flushes`. `pending` says that the immutable
memtable has records. -/
def Stage.next (pending : Bool) : Action → Stage → Option (Stage × Int)
  | .getTableState, .entered => some (.opened, 0)
  | .begin, .opened => some (if pending then .counting else .leaving false, 0)
  | .increment, .counting => some (.working, 1)
  | .finish, .working => some (.leaving true, 0)
  -- `_get_table_state` stands before the `try`
  | .raise, .entered => some (.ended .unopened, 0)
  | .raise, .opened => some (.leaving false, 0)
  | .raise, .counting => some (.leaving false, 0)
  | .raise, .working => some (.leaving true, 0)
  | .decrement, .leaving counted => some (.ended (if counted then .counted else .early), -1)
  | _, _ => none

/-- Behind the increment, and not yet behind the decrement. -/
def Stage.inProgress (stage : Stage) : Bool := stage = .working || stage = .leaving true

/-- A call by a task of the executor or by `shutdown`. -/
structure FlushCall where
  name : String
  stage : Stage

structure FlushCounter where
  activeFlushes : Int
  tables : String → Table
  calls : List FlushCall

namespace FlushCounter

def start (tables : String → Table) : FlushCounter := ⟨0, tables, []⟩

/-- `access` is what the flushes and the clients do to a table in between. -/
inductive Event
  | call (name : String)
  | act (i : Nat) (action : Action)
  | access (name : String) (table : Table)

def perform (s : FlushCounter) : Event → Option FlushCounter
  | .call name => some { s with calls := s.calls ++ [⟨name, .entered⟩] }
  | .act i action =>
      match s.calls[i]? with
      | none => none
      | some call =>
          (call.stage.next (s.tables call.name).beginFlush.isSome action).map fun next =>
            { s with
              activeFlushes := s.activeFlushes + next.2
              calls := s.calls.set i { call with stage := next.1 } }
  | .access name table => some { s with tables := Function.update s.tables name table }

def Step (s : FlushCounter) (e : Event) (t : FlushCounter) : Prop := s.perform e = some t

def inProgress (s : FlushCounter) : Nat := s.calls.countP fun call => call.stage.inProgress

/-- The calls that have left the `try` before the increment and have ended. -/
def earlyExits (s : FlushCounter) : Nat := s.calls.countP fun call => call.stage = .ended .early

def Exact (s : FlushCounter) : Prop := s.activeFlushes = s.inProgress

/-- The guard of `run_checkpoint`. -/
def skipsCheckpoint (activeFlushes : Int) : Bool := activeFlushes > 0

theorem runCheckpoint_skips {activeFlushes : Int} (skips : skipsCheckpoint activeFlushes = true)
    (c : Wal.WALCheckpoint) : Wal.runCheckpoint activeFlushes.toNat c = c := by
  have positive : activeFlushes.toNat > 0 := by
    simp only [skipsCheckpoint, decide_eq_true_eq] at skips
    omega
  rw [Wal.runCheckpoint, if_pos positive]

/-- A call that enters its `try` reaches its increment: it finds records, and nothing is raised
before. -/
def Prompt (s : FlushCounter) : Event → Prop
  | .act i .begin => ∀ call, s.calls[i]? = some call → (s.tables call.name).beginFlush.isSome = true
  | .act i .raise => ∀ call, s.calls[i]? = some call → call.stage = .entered ∨ call.stage = .working
  | _ => True

/-- What a call has added to the counter so far. -/
def balance (stage : Stage) : Int :=
  (if stage.inProgress then 1 else 0) - (if stage = .ended .early then 1 else 0)

theorem next_balance {pending : Bool} {action : Action} {stage : Stage} {next : Stage × Int}
    (steps : stage.next pending action = some next) : balance next.1 = balance stage + next.2 := by
  cases action <;> cases stage <;> simp only [Stage.next, reduceCtorEq] at steps
  case begin.opened =>
    cases steps
    cases pending <;> decide
  case decrement.leaving counted =>
    cases steps
    cases counted <;> decide
  all_goals
    cases steps
    decide

theorem next_early {pending : Bool} {action : Action} {stage : Stage} {next : Stage × Int}
    (steps : stage.next pending action = some next) (calm : stage ≠ .leaving false)
    (prompt : action = .begin → pending = true)
    (raises : action = .raise → stage = .entered ∨ stage = .working) :
    next.1 ≠ .leaving false ∧ (next.1 = .ended .early → stage = .ended .early) := by
  cases action <;> cases stage <;> simp only [Stage.next, reduceCtorEq] at steps <;> cases steps <;>
    simp_all

theorem countP_set {p : FlushCall → Bool} {calls : List FlushCall} {i : Nat} {call : FlushCall}
    (there : calls[i]? = some call) (new : FlushCall) :
    ((calls.set i new).countP p : Int) =
      calls.countP p + (if p new then 1 else 0) - (if p call then 1 else 0) := by
  obtain ⟨inside, rfl⟩ := List.getElem?_eq_some_iff.mp there
  have counted : p calls[i] = true → 0 < calls.countP p := fun holds =>
    List.countP_pos_iff.mpr ⟨calls[i], List.getElem_mem inside, holds⟩
  rw [List.countP_set inside]
  by_cases before : p calls[i] <;> by_cases after : p new <;> simp [before, after] <;>
    (try have := counted before) <;> omega

/-- The counter is what the calls have added to it. -/
def Balanced (s : FlushCounter) : Prop := s.activeFlushes = (s.inProgress : Int) - s.earlyExits

theorem Balanced.step {s t : FlushCounter} {e : Event} (balanced : s.Balanced) (step : Step s e t) :
    t.Balanced := by
  cases e with
  | call name =>
      cases step
      simpa [Balanced, inProgress, earlyExits, Stage.inProgress] using balanced
  | access name table =>
      cases step
      exact balanced
  | act i action =>
      have done : s.perform (.act i action) = some t := step
      simp only [perform] at done
      split at done
      · cases done
      · rename_i call there
        obtain ⟨next, steps, rfl⟩ := Option.map_eq_some_iff.mp done
        have moved := next_balance steps
        simp only [balance] at moved
        simp only [Balanced, inProgress, earlyExits] at balanced ⊢
        rw [countP_set there, countP_set there]
        simp only [decide_eq_true_eq]
        omega

theorem run_balanced {tables : String → Table} {s : FlushCounter} {events : List Event}
    (run : Run Step (start tables) events s) : s.Balanced :=
  run.preserves (P := Balanced) rfl fun _ _ _ balanced step => balanced.step step

/-- No call has left its `try` before the increment. -/
def Punctual (s : FlushCounter) : Prop :=
  ∀ call ∈ s.calls, call.stage ≠ .leaving false ∧ call.stage ≠ .ended .early

theorem Punctual.step {s t : FlushCounter} {e : Event} (punctual : s.Punctual)
    (step : Guarded Step Prompt s e t) : t.Punctual := by
  obtain ⟨step, prompt⟩ := step
  cases e with
  | call name =>
      cases step
      intro call member
      rcases List.mem_append.mp member with before | new
      · exact punctual call before
      · rw [List.mem_singleton.mp new]
        simp
  | access name table =>
      cases step
      exact punctual
  | act i action =>
      have done : s.perform (.act i action) = some t := step
      simp only [perform] at done
      split at done
      · cases done
      · rename_i call there
        obtain ⟨next, steps, rfl⟩ := Option.map_eq_some_iff.mp done
        have before := punctual call (List.mem_of_getElem? there)
        have after := next_early steps before.1
          (fun begins => by subst begins; exact prompt call there)
          (fun raises => by subst raises; exact prompt call there)
        intro other member
        rcases List.mem_or_eq_of_mem_set member with old | rfl
        · exact punctual other old
        · exact ⟨after.1, fun ended => before.2 (after.2 ended)⟩

theorem Exact.guards {s : FlushCounter} (exact : s.Exact) :
    0 ≤ s.activeFlushes ∧ (skipsCheckpoint s.activeFlushes = true ↔ 0 < s.inProgress) := by
  simp only [Exact] at exact
  simp only [skipsCheckpoint, decide_eq_true_eq]
  omega

/-- The counter is exact as long as no call ends that has left its `try` before the increment,
and so in every run in which each flush finds records and raises nothing before it is counted. -/
theorem flush_counter_exact_iff (tables : String → Table) {events : List Event} {s : FlushCounter}
    (run : Run Step (start tables) events s) :
    (s.Exact ↔ ∀ call ∈ s.calls, call.stage ≠ .ended .early) ∧
      (s.Exact → 0 ≤ s.activeFlushes ∧
        (skipsCheckpoint s.activeFlushes = true ↔ 0 < s.inProgress)) ∧
      (Run (Guarded Step Prompt) (start tables) events s → s.Exact) := by
  have balanced := run_balanced run
  have none_early : s.earlyExits = 0 ↔ ∀ call ∈ s.calls, call.stage ≠ .ended .early := by
    simp [earlyExits, List.countP_eq_zero]
  have exact_iff : s.Exact ↔ ∀ call ∈ s.calls, call.stage ≠ .ended .early := by
    rw [← none_early]
    simp only [Balanced] at balanced
    simp only [Exact]
    omega
  refine ⟨exact_iff, Exact.guards, fun guarded => exact_iff.mpr fun call member => ?_⟩
  have punctual : s.Punctual :=
    guarded.preserves (P := Punctual) (fun _ member => by cases member)
      fun _ _ _ punctual step => punctual.step step
  exact (punctual call member).2

/-- Tables that have not been used, and one record on its way to the disk. -/
def idleTables (_ : String) : Table := Table.init File.empty

def fullTable : Table := ((Table.init File.empty).insert "k" [0, 1, 107, 49]).swap

/-- Two flushes overlap; the second raises behind its increment and is uncounted while the first
is at work. -/
def twoFlushes : List Event :=
  [.access "t" fullTable, .access "u" fullTable, .call "t", .call "u", .act 0 .getTableState,
    .act 1 .getTableState, .act 0 .begin, .act 1 .begin, .act 1 .increment, .act 0 .increment,
    .act 1 .raise, .act 1 .decrement]

theorem flush_counter_exact_of_two : ∃ s, Run Step (start idleTables) twoFlushes s ∧
    s.calls.map FlushCall.stage = [.working, .ended .counted] ∧ s.activeFlushes = 1 ∧ s.Exact ∧
    (skipsCheckpoint s.activeFlushes = true ↔ 0 < s.inProgress) := by
  have outcome : (play perform (start idleTables) twoFlushes).map
      (fun s => (s.calls.map FlushCall.stage, s.activeFlushes)) =
      some ([.working, .ended .counted], 1) := by decide
  obtain ⟨s, plays, result⟩ := Option.map_eq_some_iff.mp outcome
  obtain ⟨stages, counter⟩ := Prod.mk.inj result
  obtain ⟨exact_iff, guards, _⟩ := flush_counter_exact_iff idleTables (play_run plays)
  have exactly : s.Exact := exact_iff.mpr fun call member => by
    have stage : call.stage ∈ s.calls.map FlushCall.stage := List.mem_map_of_mem member
    rw [stages] at stage
    rcases List.mem_cons.mp stage with same | same
    · rw [same]
      decide
    · rw [List.mem_singleton.mp same]
      decide
  exact ⟨s, play_run plays, stages, counter, exactly, (guards exactly).2⟩

/-- A call by `shutdown` finds no records and takes the counter below zero; a flush that is then
at work does not keep the checkpoint away. -/
theorem checkpoint_beside_flush :
    (∃ s, Run Step (start idleTables)
      [.call "t", .act 0 .getTableState, .act 0 .begin, .act 0 .decrement] s ∧ s.activeFlushes = -1) ∧
    ∃ s, Run Step (start idleTables)
      [.call "t", .act 0 .getTableState, .act 0 .begin, .act 0 .decrement, .access "u" fullTable,
        .call "u", .act 1 .getTableState, .act 1 .begin, .act 1 .increment] s ∧
      s.inProgress = 1 ∧ skipsCheckpoint s.activeFlushes = false := by
  constructor
  · have outcome : (play perform (start idleTables) [.call "t", .act 0 .getTableState, .act 0 .begin,
        .act 0 .decrement]).map activeFlushes = some (-1) := by decide
    obtain ⟨s, plays, counter⟩ := Option.map_eq_some_iff.mp outcome
    exact ⟨s, play_run plays, counter⟩
  · have outcome : (play perform (start idleTables) [.call "t", .act 0 .getTableState, .act 0 .begin,
        .act 0 .decrement, .access "u" fullTable, .call "u", .act 1 .getTableState, .act 1 .begin,
        .act 1 .increment]).map (fun s => (s.inProgress, s.activeFlushes)) = some (1, 0) := by
      decide
    obtain ⟨s, plays, counters⟩ := Option.map_eq_some_iff.mp outcome
    rw [Prod.mk.injEq] at counters
    exact ⟨s, play_run plays, counters.1, by rw [counters.2]; rfl⟩

end FlushCounter

end CachyDb
