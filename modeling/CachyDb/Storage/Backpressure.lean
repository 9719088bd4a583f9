import CachyDb.Storage.Termination

set_option autoImplicit false

/-! The back-pressure of the log: a write waits while the WAL buffer holds two batches, a `set`
with the lock of its table. Nobody waits for ever. -/

namespace CachyDb

open ByteString TableHandler Transition

namespace Backlog

/-- A write as it is called. -/
inductive Write
  | set (name key : String) (value : Value)
  | setMany (name : String) (records : List (String × Value))

/-- What a write waits for before its records are in the log: a `set` for the lock of its
table, then both for the buffer. `admitted` has seen room in the buffer. -/
inductive Wait
  | nothing
  | forLock (name key : String) (value : Value)
  | forRoom (write : Write)
  | admitted (write : Write)

end Backlog

/-- The router at work, and the writes that have not come to the log. `locks` has the locks
that are held by writes which wait there. -/
structure Backlog where
  store : Store
  waits : Nat → Backlog.Wait
  locks : String → Option Nat

namespace Backlog

/-- The arguments are in order, and the records can be packed. -/
def Write.accepted (json : Json) : Write → Bool
  | .set name key value => name ≠ "" && key ≠ "" && (packRecord json key value).isOk
  | .setMany name records =>
      name ≠ "" && !records.isEmpty && (Router.packRecords json records).isOk

def Write.first : Write → Wait
  | .set name key value => .forLock name key value
  | .setMany name records => .forRoom (.setMany name records)

def Write.enter (json : Json) (s : Store) (client : Nat) : Write → Option Store
  | .set name key value => s.set json client name key value
  | .setMany name records => s.append json client name records

def Write.release (locks : String → Option Nat) : Write → String → Option Nat
  | .set name _ _ => Function.update locks name none
  | .setMany _ _ => locks

/-- The lock that a waiting write holds. -/
def Wait.holds : Wait → Option String
  | .forRoom (.set name _ _) | .admitted (.set name _ _) => some name
  | _ => none

/-- The next step of the flush is one of its two locked sections. -/
def inSection (s : Store) (name : String) (i : Nat) : Bool :=
  (s.shelves name).tasks[i]?.any fun task => task.phase = .queued || task.phase = .clearing

/-- The lock of a table that a step of the router takes. -/
def lock (s : Store) : Store.Event → Option String
  | .insertMany client | .swap client => (s.clients client).table
  | .getLocked name _ => some name
  | .flush name i => if inSection s name i then some name else none
  | _ => none

/-- A write comes to the log through the steps of `Backlog` only. -/
def enters : Store.Event → Bool
  | .set _ _ _ _ | .append _ _ _ => true
  | _ => false

def start (wal : Wal) (tableFiles : String → File) (maxMemtableSize cacheCapacity : Nat) :
    Backlog :=
  ⟨Store.start wal tableFiles maxMemtableSize cacheCapacity, fun _ => .nothing, fun _ => none⟩

def putWait (s : Backlog) (client : Nat) (wait : Wait) : Backlog :=
  { s with waits := Function.update s.waits client wait }

def call (json : Json) (s : Backlog) (client : Nat) (write : Write) : Option Backlog :=
  match s.store.clients client, s.waits client with
  | .idle, .nothing => if write.accepted json then some (s.putWait client write.first) else none
  | _, _ => none

def acquire (s : Backlog) (client : Nat) : Option Backlog :=
  match s.waits client with
  | .forLock name key value =>
      if s.locks name = none then
        some { s.putWait client (.forRoom (.set name key value)) with
          locks := Function.update s.locks name (some client) }
      else none
  | _ => none

/-- The end of `while len(self.wal_buffer) >= self.batch_size * 2`. -/
def findRoom (batchSize : Nat) (s : Backlog) (client : Nat) : Option Backlog :=
  match s.waits client with
  | .forRoom write =>
      if s.store.router.wal.walBuffer.length < batchSize * 2 then
        some (s.putWait client (.admitted write))
      else none
  | _ => none

/-- The rest of the call of the log; a `set` goes on to the end of its locked section. -/
def append (json : Json) (s : Backlog) (client : Nat) : Option Backlog :=
  match s.waits client with
  | .admitted write =>
      (write.enter json s.store client).map fun store =>
        ⟨store, Function.update s.waits client .nothing, write.release s.locks⟩
  | _ => none

inductive Event
  | call (client : Nat) (write : Write)
  | acquire (client : Nat)
  | findRoom (client : Nat)
  | append (client : Nat)
  | step (e : Store.Event)

def perform (json : Json) (batchSize : Nat) (s : Backlog) : Event → Option Backlog
  | .call client write => s.call json client write
  | .acquire client => s.acquire client
  | .findRoom client => s.findRoom batchSize client
  | .append client => s.append json client
  | .step e =>
      if enters e = false ∧ ∀ name ∈ lock s.store e, s.locks name = none then
        (s.store.perform json e).map fun store => { s with store := store }
      else none

def Step (json : Json) (batchSize : Nat) (s : Backlog) (e : Event) (t : Backlog) : Prop :=
  s.perform json batchSize e = some t

section Steps

variable {json : Json} {batchSize : Nat} {s t : Backlog} {e : Event}

/-- What a step does, and when it is possible. -/
inductive Moves (json : Json) (batchSize : Nat) (s : Backlog) : Event → Backlog → Prop
  | call (client : Nat) (write : Write) : s.store.clients client = .idle →
      s.waits client = .nothing → write.accepted json = true →
      Moves json batchSize s (.call client write) (s.putWait client write.first)
  | acquire (client : Nat) (name key : String) (value : Value) :
      s.waits client = .forLock name key value → s.locks name = none →
      Moves json batchSize s (.acquire client)
        { s.putWait client (.forRoom (.set name key value)) with
          locks := Function.update s.locks name (some client) }
  | findRoom (client : Nat) (write : Write) : s.waits client = .forRoom write →
      s.store.router.wal.walBuffer.length < batchSize * 2 →
      Moves json batchSize s (.findRoom client) (s.putWait client (.admitted write))
  | append (client : Nat) (write : Write) (store : Store) : s.waits client = .admitted write →
      write.enter json s.store client = some store →
      Moves json batchSize s (.append client)
        ⟨store, Function.update s.waits client .nothing, write.release s.locks⟩
  | step (e : Store.Event) (store : Store) : enters e = false →
      (∀ name ∈ lock s.store e, s.locks name = none) → Store.Step json s.store e store →
      Moves json batchSize s (.step e) { s with store := store }

theorem step_moves (step : Step json batchSize s e t) : Moves json batchSize s e t := by
  cases e with
  | call client write =>
      unfold Step perform call at step
      dsimp only at step
      split at step
      · rename_i idle nothing
        split at step
        · rename_i accepted
          cases step
          exact .call client write idle nothing accepted
        · cases step
      · cases step
  | acquire client =>
      unfold Step perform acquire at step
      dsimp only at step
      split at step
      · rename_i name key value waits
        split at step
        · rename_i free
          cases step
          exact .acquire client name key value waits free
        · cases step
      · cases step
  | findRoom client =>
      unfold Step perform findRoom at step
      dsimp only at step
      split at step
      · rename_i write waits
        split at step
        · rename_i room
          cases step
          exact .findRoom client write waits room
        · cases step
      · cases step
  | append client =>
      unfold Step perform append at step
      dsimp only at step
      split at step
      · rename_i write waits
        obtain ⟨store, entered, rfl⟩ := Option.map_eq_some_iff.mp step
        exact .append client write store waits entered
      · cases step
  | step e =>
      unfold Step perform at step
      dsimp only at step
      split at step
      · rename_i possible
        obtain ⟨store, done, rfl⟩ := Option.map_eq_some_iff.mp step
        exact .step e store possible.1 possible.2 done
      · cases step

theorem enter_step {write : Write} {client : Nat} {store : Store}
    (entered : write.enter json s.store client = some store) :
    ∃ e, Store.Step json s.store e store := by
  cases write with
  | set name key value => exact ⟨.set client name key value, entered⟩
  | setMany name records => exact ⟨.append client name records, entered⟩

/-- The router does not see the waits: its part of a run is a run of the router alone. -/
theorem run_store {events : List Event} (run : Run (Step json batchSize) s events t) :
    ∃ seen, Run (Store.Step json) s.store seen t.store := by
  induction run with
  | nil => exact ⟨[], Run.nil _⟩
  | snoc _ last ih =>
      obtain ⟨seen, before⟩ := ih
      cases step_moves last with
      | call _ _ _ _ _ => exact ⟨seen, before⟩
      | acquire _ _ _ _ _ _ => exact ⟨seen, before⟩
      | findRoom _ _ _ _ => exact ⟨seen, before⟩
      | append _ _ _ _ entered =>
          obtain ⟨e, step⟩ := enter_step entered
          exact ⟨seen ++ [e], Run.snoc before step⟩
      | step e _ _ _ step => exact ⟨seen ++ [e], Run.snoc before step⟩

/-- Whoever waits before the log is idle in the router, and only it can change that. -/
theorem idle_kept {client : Nat} {e : Store.Event} {store : Store} (outside : enters e = false)
    (idle : s.store.clients client = .idle) (step : Store.Step json s.store e store) :
    store.clients client = .idle := by
  have other {actor : Nat} {state : Client} (busy : s.store.clients actor ≠ .idle) :
      Function.update s.store.clients actor state client = .idle := by
    rw [Function.update_of_ne]
    · exact idle
    · rintro rfl
      exact busy idle
  cases e with
  | set _ _ _ _ => cases outside
  | append _ _ _ => cases outside
  | insertMany actor =>
      unfold Store.Step Store.perform Store.insertMany at step
      dsimp only at step
      split at step
      · rename_i logged
        cases step
        exact other fun same => by cases logged.symm.trans same
      · cases step
  | check actor =>
      unfold Store.Step Store.perform Store.check at step
      dsimp only at step
      split at step
      · rename_i full
        have busy : s.store.clients actor ≠ .idle := fun same => by cases full.symm.trans same
        split at step
        · cases step
          exact other busy
        · split at step
          · cases step
            exact other busy
          · cases step
            exact other busy
      · cases step
  | wake actor =>
      unfold Store.Step Store.perform Store.wake at step
      dsimp only at step
      split at step
      · rename_i waiting
        have busy : s.store.clients actor ≠ .idle := fun same => by cases waiting.symm.trans same
        split at step
        · cases step
        · split at step
          · cases step
            exact other busy
          · split at step
            · cases step
              exact other busy
            · cases step
      · cases step
  | swap actor =>
      unfold Store.Step Store.perform Store.swap at step
      dsimp only at step
      split at step
      · rename_i ready
        cases step
        exact other fun same => by cases ready.symm.trans same
      · cases step
  | getCached name key =>
      cases step
      exact idle
  | getLocked name key =>
      cases step
      exact idle
  | flush name i =>
      unfold Store.Step Store.perform Store.flush at step
      dsimp only at step
      split at step
      · cases step
      · split at step
        · cases step
          exact idle
        · cases step
          exact idle
  | raise name i =>
      unfold Store.Step Store.perform Store.raise at step
      dsimp only at step
      split at step
      · cases step
      · split at step
        · cases step
        · cases step
          exact idle
  | writer clock =>
      cases step
      exact idle

end Steps

/-- The write that waits. -/
def Wait.write : Wait → Option Write
  | .nothing => none
  | .forLock name key value => some (.set name key value)
  | .forRoom write | .admitted write => some write

/-- What waits can go on: a write that waits has an idle client and succeeds in the log, and
whoever holds a lock waits. -/
structure Alive (json : Json) (s : Backlog) : Prop where
  store : s.store.Alive json
  accepted : ∀ client write, (s.waits client).write = some write →
    write.accepted json = true ∧ s.store.clients client = .idle
  holder : ∀ name client, s.locks name = some client → (s.waits client).holds = some name

section Waits

variable {json : Json} {batchSize : Nat} {s t : Backlog} {e : Event} {write : Write}
  {client : Nat} {name : String}

theorem first_write (write : Write) : write.first.write = some write := by
  cases write with
  | set _ _ _ => rfl
  | setMany _ _ => rfl

/-- A write that has been accepted comes to the log. -/
theorem enter_possible {store : Store} (accepted : write.accepted json = true)
    (idle : store.clients client = .idle) :
    ∃ after, write.enter json store client = some after := by
  cases write with
  | set name key value =>
      unfold Write.accepted at accepted
      simp only [Bool.and_eq_true, decide_eq_true_eq] at accepted
      obtain ⟨⟨named, keyed⟩, packs⟩ := accepted
      cases packed : packRecord json key value with
      | error e =>
          rw [packed] at packs
          cases packs
      | ok bytes =>
          simp only [Write.enter, Store.set, idle, packed]
          rw [if_neg (not_or.mpr ⟨named, keyed⟩)]
          exact ⟨_, rfl⟩
  | setMany name records =>
      unfold Write.accepted at accepted
      simp only [Bool.and_eq_true, decide_eq_true_eq, Bool.not_eq_true',
        List.isEmpty_eq_false_iff] at accepted
      obtain ⟨⟨named, filled⟩, packs⟩ := accepted
      cases packed : Router.packRecords json records with
      | error e =>
          rw [packed] at packs
          cases packs
      | ok bytes =>
          simp only [Write.enter, Store.append, idle, packed]
          rw [if_neg (not_or.mpr ⟨named, filled⟩)]
          exact ⟨_, rfl⟩

theorem enter_others {store after : Store} (entered : write.enter json store client = some after)
    {other : Nat} (different : other ≠ client) : after.clients other = store.clients other := by
  cases write with
  | set name key value =>
      change store.set json client name key value = some after at entered
      unfold Store.set at entered
      split at entered
      · split at entered
        · cases entered
        · cases entered
          exact Function.update_of_ne different _ _
      · cases entered
  | setMany name records =>
      change store.append json client name records = some after at entered
      unfold Store.append at entered
      split at entered
      · split at entered
        · cases entered
        · cases entered
          exact Function.update_of_ne different _ _
      · cases entered

/-- A lock is held by whoever held it, unless the write of the client has given it up. -/
theorem release_holder {locks : String → Option Nat} {holder : Nat}
    (held : write.release locks name = some holder) : locks name = some holder ∧
      ∀ key value, write ≠ .set name key value := by
  cases write with
  | set other key value =>
      have different : name ≠ other := by
        rintro rfl
        rw [Write.release, Function.update_self] at held
        cases held
      rw [Write.release, Function.update_of_ne different] at held
      exact ⟨held, fun _ _ same => by cases same; exact different rfl⟩
  | setMany _ _ => exact ⟨held, fun _ _ same => by cases same⟩

theorem holds_inv {wait : Wait} (holds : wait.holds = some name) : ∃ key value,
    wait = .forRoom (.set name key value) ∨ wait = .admitted (.set name key value) := by
  cases wait with
  | nothing => cases holds
  | forLock _ _ _ => cases holds
  | forRoom write =>
      cases write with
      | set other key value =>
          cases holds
          exact ⟨key, value, Or.inl rfl⟩
      | setMany _ _ => cases holds
  | admitted write =>
      cases write with
      | set other key value =>
          cases holds
          exact ⟨key, value, Or.inr rfl⟩
      | setMany _ _ => cases holds

/-- A client that goes from one wait to the next. -/
theorem Alive.putWait (alive : s.Alive json) {wait : Wait}
    (accepted : ∀ write, wait.write = some write →
      write.accepted json = true ∧ s.store.clients client = .idle)
    (holds : ∀ name, (s.waits client).holds = some name → wait.holds = some name) :
    (s.putWait client wait).Alive json := by
  refine ⟨alive.store, fun other write waits => ?_, fun name other held => ?_⟩
  · change (Function.update s.waits client wait other).write = some write at waits
    by_cases same : other = client
    · subst same
      rw [Function.update_self] at waits
      exact accepted write waits
    · rw [Function.update_of_ne same] at waits
      exact alive.accepted other write waits
  · have before := alive.holder name other held
    show (Function.update s.waits client wait other).holds = some name
    by_cases same : other = client
    · subst same
      rw [Function.update_self]
      exact holds name before
    · rw [Function.update_of_ne same]
      exact before

theorem Alive.step (alive : s.Alive json) (step : Step json batchSize s e t) : t.Alive json := by
  cases step_moves step with
  | call client write idle nothing accepted =>
      apply alive.putWait
      · intro other waits
        rw [first_write] at waits
        cases waits
        exact ⟨accepted, idle⟩
      · intro name holds
        rw [nothing] at holds
        cases holds
  | acquire client name key value waits free =>
      have known := alive.accepted client (.set name key value) (by rw [waits]; rfl)
      have moved : (s.putWait client (.forRoom (.set name key value))).Alive json := by
        apply alive.putWait
        · intro other same
          cases same
          exact known
        · intro other holds
          rw [waits] at holds
          cases holds
      refine ⟨moved.store, moved.accepted, fun other holder held => ?_⟩
      change Function.update s.locks name (some client) other = some holder at held
      by_cases same : other = name
      · subst same
        rw [Function.update_self] at held
        cases held
        show (Function.update s.waits client (.forRoom (.set other key value)) client).holds = _
        rw [Function.update_self]
        rfl
      · rw [Function.update_of_ne same] at held
        exact moved.holder other holder held
  | findRoom client write waits room =>
      apply alive.putWait
      · intro other same
        cases same
        exact alive.accepted client write (by rw [waits]; rfl)
      · intro name holds
        rw [waits] at holds
        obtain ⟨key, value, here | impossible⟩ := holds_inv holds
        · cases here
          rfl
        · cases impossible
  | append client write store waits entered =>
      obtain ⟨e, step⟩ := enter_step entered
      refine ⟨alive.store.step step, fun other there pending => ?_, fun name holder held => ?_⟩
      · change (Function.update s.waits client .nothing other).write = some there at pending
        by_cases same : other = client
        · subst same
          rw [Function.update_self] at pending
          cases pending
        · rw [Function.update_of_ne same] at pending
          obtain ⟨accepted, idle⟩ := alive.accepted other there pending
          exact ⟨accepted, (enter_others entered same).trans idle⟩
      · obtain ⟨before, kept⟩ := release_holder held
        have holds := alive.holder name holder before
        show (Function.update s.waits client .nothing holder).holds = some name
        by_cases same : holder = client
        · subst same
          rw [waits] at holds
          obtain ⟨key, value, impossible | here⟩ := holds_inv holds
          · cases impossible
          · cases here
            exact absurd rfl (kept key value)
        · rw [Function.update_of_ne same]
          exact holds
  | step e store outside free taken =>
      refine ⟨alive.store.step taken, fun other write waits => ?_, alive.holder⟩
      obtain ⟨accepted, idle⟩ := alive.accepted other write waits
      exact ⟨accepted, idle_kept outside idle taken⟩

theorem Alive.run {events : List Event} (alive : s.Alive json)
    (run : Run (Step json batchSize) s events t) : t.Alive json :=
  run.preserves alive fun _ _ _ before step => before.step step

end Waits

/-- A step of the client, of a flush, of the writer of the log, or of a write that already waits
for the log. -/
def Event.Serves (client : Nat) : Event → Prop
  | .call _ _ => False
  | .acquire other => other = client
  | .findRoom _ | .append _ => True
  | .step (.insertMany other) | .step (.check other) | .step (.wake other) | .step (.swap other) =>
      other = client
  | .step (.flush _ _) | .step (.writer _) => True
  | .step _ => False

/-- The write of the client can be finished. -/
def Finishes (json : Json) (batchSize client : Nat) (s : Backlog) : Prop :=
  ∃ more t, Run (Step json batchSize) s more t ∧ t.waits client = .nothing ∧
    t.store.clients client = .idle ∧ ∀ e ∈ more, e.Serves client

section Ends

variable {json : Json} {batchSize : Nat} {s t : Backlog} {write : Write} {client i : Nat}
  {name : String}

theorem Finishes.after {more : List Event} (run : Run (Step json batchSize) s more t)
    (each : ∀ e ∈ more, e.Serves client) (finishes : t.Finishes json batchSize client) :
    s.Finishes json batchSize client := by
  obtain ⟨rest, u, later, nothing, idle, serves⟩ := finishes
  exact ⟨more ++ rest, u, run.append later, nothing, idle,
    List.forall_mem_append.mpr ⟨each, serves⟩⟩

theorem Finishes.before {e : Event} (step : Step json batchSize s e t) (serves : e.Serves client)
    (finishes : t.Finishes json batchSize client) : s.Finishes json batchSize client :=
  Finishes.after (Run.cons step (Run.nil t)) (List.forall_mem_singleton.mpr serves) finishes

/-- A step of the router is possible here too when no lock stands in its way. -/
theorem step_possible {e : Store.Event} {store : Store} (outside : enters e = false)
    (free : ∀ name ∈ lock s.store e, s.locks name = none)
    (step : Store.Step json s.store e store) :
    Step json batchSize s (.step e) { s with store := store } := by
  show (if enters e = false ∧ ∀ name ∈ lock s.store e, s.locks name = none then
    (s.store.perform json e).map fun store => { s with store := store } else none) = _
  rw [if_pos ⟨outside, free⟩, show s.store.perform json e = some store from step]
  rfl

theorem flush_lock {store : Store} {other : String}
    (there : other ∈ lock store (.flush name i)) : other = name := by
  change other ∈ (if inSection store name i then some name else none) at there
  split at there
  · exact (Option.mem_some_iff.mp there).symm
  · cases there

/-- A flush runs while the lock of its table is free. -/
theorem flushes_possible {events : List Store.Event} {store after : Store}
    (free : s.locks name = none) (run : Run (Store.Step json) store events after) :
    (∀ e ∈ events, e = .flush name i) →
      Run (Step json batchSize) { s with store := store } (events.map .step)
        { s with store := after } := by
  induction run with
  | nil =>
      intro _
      exact Run.nil _
  | snoc _ last ih =>
      intro flushes
      have before := ih fun e member => flushes e (List.mem_append_left _ member)
      have same := flushes _ (List.mem_append_right _ List.mem_cons_self)
      subst same
      rw [List.map_append]
      refine Run.snoc before (step_possible rfl (fun other there => ?_) last)
      rw [flush_lock there]
      exact free

theorem finishes_idle (nothing : s.waits client = .nothing)
    (idle : s.store.clients client = .idle) : s.Finishes json batchSize client :=
  ⟨[], s, Run.nil s, nothing, idle, fun e member => by cases member⟩

theorem finishes_ready (nothing : s.waits client = .nothing)
    (ready : s.store.clients client = .ready name) (free : s.locks name = none) :
    s.Finishes json batchSize client := by
  obtain ⟨store, step, idle⟩ : ∃ store, Store.Step json s.store (.swap client) store ∧
      store.clients client = .idle := by
    show ∃ store, s.store.swap client = some store ∧ store.clients client = .idle
    unfold Store.swap
    rw [ready]
    exact ⟨_, rfl, Function.update_self _ _ _⟩
  have possible : ∀ other ∈ lock s.store (.swap client), s.locks other = none := by
    intro other there
    change other ∈ (s.store.clients client).table at there
    rw [ready] at there
    rw [← Option.mem_some_iff.mp there]
    exact free
  exact Finishes.before (step_possible rfl possible step) rfl (finishes_idle nothing idle)

theorem finishes_waiting (alive : s.store.Alive json) (nothing : s.waits client = .nothing)
    (waits : s.store.clients client = .waiting name i) (free : s.locks name = none) :
    s.Finishes json batchSize client := by
  have inside := alive.waiting client name i waits
  obtain ⟨n, store, task, run, clients, known, ended⟩ :=
    alive.flush_ends (List.getElem?_eq_getElem inside)
  have flushes : Run (Step json batchSize) s _ { s with store := store } :=
    flushes_possible free run fun e member => List.eq_of_mem_replicate member
  rw [List.map_replicate] at flushes
  refine Finishes.after flushes (fun e member => ?_) ?_
  · rw [List.eq_of_mem_replicate member]
    trivial
  have there : store.clients client = .waiting name i := by
    rw [clients]
    exact waits
  have outcome : task.phase = .finished ∨ task.phase = .failed := by
    rcases Bool.or_eq_true_iff.mp ended with finished | failed
    · exact Or.inl (of_decide_eq_true finished)
    · exact Or.inr (of_decide_eq_true failed)
  have awake : ∃ after, Store.Step json store (.wake client) after ∧
      (after.clients client = .ready name ∨ after.clients client = .idle) := by
    show ∃ after, store.wake client = some after ∧
      (after.clients client = .ready name ∨ after.clients client = .idle)
    unfold Store.wake
    rw [there]
    dsimp only
    rw [show (store.shelves name).tasks[i]? = some task from known]
    dsimp only
    rcases outcome with finished | failed
    · rw [if_pos finished]
      exact ⟨_, rfl, Or.inl (Function.update_self _ _ _)⟩
    · rw [if_neg (by rw [failed]; decide), if_pos failed]
      exact ⟨_, rfl, Or.inr (Function.update_self _ _ _)⟩
  obtain ⟨after, step, woken⟩ := awake
  refine Finishes.before (s := { s with store := store })
    (step_possible rfl (fun other none_taken => by cases none_taken) step) rfl ?_
  rcases woken with ready | idle
  · exact finishes_ready nothing ready free
  · exact finishes_idle nothing idle

theorem finishes_full (alive : s.store.Alive json) (nothing : s.waits client = .nothing)
    (full : s.store.clients client = .full name) (free : s.locks name = none) :
    s.Finishes json batchSize client := by
  have looked : ∃ store, Store.Step json s.store (.check client) store ∧
      (store.clients client = .ready name ∨ ∃ i, store.clients client = .waiting name i) := by
    show ∃ store, s.store.check client = some store ∧
      (store.clients client = .ready name ∨ ∃ i, store.clients client = .waiting name i)
    unfold Store.check
    rw [full]
    dsimp only
    split
    · exact ⟨_, rfl, Or.inl (Function.update_self _ _ _)⟩
    · split
      · exact ⟨_, rfl, Or.inl (Function.update_self _ _ _)⟩
      · exact ⟨_, rfl, Or.inr ⟨_, Function.update_self _ _ _⟩⟩
  obtain ⟨store, step, found⟩ := looked
  refine Finishes.before (t := { s with store := store })
    (step_possible rfl (fun other none_taken => by cases none_taken) step) rfl ?_
  rcases found with ready | ⟨i, waits⟩
  · exact finishes_ready nothing ready free
  · exact finishes_waiting (alive.step step) nothing waits free

theorem afterWrite_outcome (name : String) (result : Except RouterError Bool) :
    Store.afterWrite name result = .full name ∨ Store.afterWrite name result = .idle := by
  unfold Store.afterWrite
  split
  · exact Or.inl rfl
  · exact Or.inr rfl

/-- What is left of a write whose records are in the log, while its lock is free. -/
theorem finishes_free (alive : s.store.Alive json) (nothing : s.waits client = .nothing)
    (free : ∀ name ∈ (s.store.clients client).table, s.locks name = none) :
    s.Finishes json batchSize client := by
  cases state : s.store.clients client with
  | idle => exact finishes_idle nothing state
  | full name => exact finishes_full alive nothing state (free name (by rw [state]; rfl))
  | waiting name i => exact finishes_waiting alive nothing state (free name (by rw [state]; rfl))
  | ready name => exact finishes_ready nothing state (free name (by rw [state]; rfl))
  | logged name records packedRecords txIds =>
      have unlocked : s.locks name = none := free name (by rw [state]; rfl)
      have inserted : ∃ store, Store.Step json s.store (.insertMany client) store ∧
          (store.clients client = .full name ∨ store.clients client = .idle) := by
        show ∃ store, s.store.insertMany client = some store ∧
          (store.clients client = .full name ∨ store.clients client = .idle)
        unfold Store.insertMany
        rw [state]
        refine ⟨_, rfl, ?_⟩
        dsimp only [Store.putClient]
        rw [Function.update_self]
        exact afterWrite_outcome _ _
      obtain ⟨store, step, outcome⟩ := inserted
      have possible : Step json batchSize s (.step (.insertMany client)) { s with store := store } :=
        step_possible rfl free step
      refine Finishes.before possible rfl ?_
      rcases outcome with full | idle
      · exact finishes_full (alive.step step) nothing full unlocked
      · exact finishes_idle nothing idle

/-- The write has come to the log, and nothing else has changed but the buffer and its lock. -/
structure Landed (s t : Backlog) (client : Nat) (write : Write) : Prop where
  waits : t.waits = Function.update s.waits client .nothing
  locks : t.locks = write.release s.locks
  others : ∀ other, other ≠ client → t.store.clients other = s.store.clients other

theorem Alive.lands_admitted (alive : s.Alive json) (admitted : s.waits client = .admitted write) :
    ∃ t, Step json batchSize s (.append client) t ∧ Landed s t client write := by
  obtain ⟨accepted, idle⟩ := alive.accepted client write (by rw [admitted]; rfl)
  obtain ⟨store, entered⟩ := enter_possible accepted idle
  refine ⟨⟨store, Function.update s.waits client .nothing, write.release s.locks⟩, ?_, rfl, rfl,
    fun other different => enter_others entered different⟩
  show s.append json client = _
  unfold append
  rw [admitted]
  dsimp only
  rw [entered]
  rfl

/-- A turn of the writer makes room. -/
theorem findRoom_possible (positive : 0 < batchSize) (waits : s.waits client = .forRoom write) :
    ∃ t, Run (Step json batchSize) s [.step (.writer fun _ => 0), .findRoom client] t ∧
      t.waits = Function.update s.waits client (.admitted write) ∧ t.locks = s.locks ∧
      t.store.clients = s.store.clients := by
  have written : ∃ store, Store.Step json s.store (.writer fun _ => 0) store ∧
      store.router.wal.walBuffer = [] ∧ store.clients = s.store.clients :=
    ⟨_, rfl, Wal.flushBuffer_empties _ _, rfl⟩
  obtain ⟨store, turn, empty, clients⟩ := written
  have writer : Step json batchSize s (.step (.writer fun _ => 0)) { s with store := store } :=
    step_possible rfl (fun other taken => by cases taken) turn
  have admitted : Step json batchSize { s with store := store } (.findRoom client)
      ({ s with store := store }.putWait client (.admitted write)) := by
    show findRoom batchSize _ client = _
    unfold findRoom
    dsimp only
    rw [waits]
    dsimp only
    rw [if_pos]
    rw [empty]
    show 0 < batchSize * 2
    omega
  exact ⟨_, Run.cons writer (Run.cons admitted (Run.nil _)), rfl, rfl, clients⟩

/-- A write that waits for the buffer comes to the log. -/
theorem Alive.lands (alive : s.Alive json) (positive : 0 < batchSize)
    (waits : s.waits client = .forRoom write ∨ s.waits client = .admitted write) :
    ∃ more t, Run (Step json batchSize) s more t ∧ Landed s t client write ∧
      ∀ e ∈ more, ∀ other, e.Serves other := by
  rcases waits with room | admitted
  · obtain ⟨u, run, waiting, locks, clients⟩ := findRoom_possible positive room
    have ready : u.waits client = .admitted write := by
      rw [waiting, Function.update_self]
    obtain ⟨t, step, landed⟩ := (alive.run run).lands_admitted ready
    refine ⟨_, t, Run.snoc run step, ⟨?_, ?_, ?_⟩, ?_⟩
    · rw [landed.waits, waiting, Function.update_idem]
    · rw [landed.locks, locks]
    · intro other different
      rw [landed.others other different, clients]
    · intro e member other
      simp only [List.mem_append, List.mem_cons, List.not_mem_nil, or_false] at member
      rcases member with (rfl | rfl) | rfl
      · trivial
      · trivial
      · trivial
  · obtain ⟨t, step, landed⟩ := alive.lands_admitted admitted
    refine ⟨_, t, Run.cons step (Run.nil t), landed, fun e member other => ?_⟩
    rw [List.mem_singleton.mp member]
    trivial

/-- Whoever holds the lock of a table gives it up, and the client stays where it is. -/
theorem Alive.frees (alive : s.Alive json) (positive : 0 < batchSize) (client : Nat)
    (name : String) (mine : (s.waits client).holds ≠ some name) :
    ∃ more t, Run (Step json batchSize) s more t ∧ t.locks name = none ∧
      t.waits client = s.waits client ∧ t.store.clients client = s.store.clients client ∧
      ∀ e ∈ more, e.Serves client := by
  cases held : s.locks name with
  | none => exact ⟨[], s, Run.nil s, held, rfl, rfl, fun e member => by cases member⟩
  | some holder =>
      have holds := alive.holder name holder held
      have different : client ≠ holder := by
        rintro rfl
        exact mine holds
      obtain ⟨key, value, waits⟩ := holds_inv holds
      obtain ⟨more, t, run, landed, serves⟩ := alive.lands positive waits
      refine ⟨more, t, run, ?_, ?_, landed.others client different, fun e member =>
        serves e member client⟩
      · rw [landed.locks, Write.release, Function.update_self]
      · rw [landed.waits, Function.update_of_ne different]

/-- A client whose records are in the log. -/
theorem Alive.finishes_logged (alive : s.Alive json) (positive : 0 < batchSize)
    (nothing : s.waits client = .nothing) : s.Finishes json batchSize client := by
  cases table : (s.store.clients client).table with
  | none =>
      apply finishes_free alive.store nothing
      intro name there
      rw [table] at there
      cases there
  | some name =>
      obtain ⟨more, t, run, free, waits, same, serves⟩ :=
        alive.frees positive client name (by rw [nothing]; exact nofun)
      refine Finishes.after run serves
        (finishes_free (alive.run run).store (waits.trans nothing) ?_)
      intro other there
      rw [same, table] at there
      cases there
      exact free

theorem Alive.finishes_waiting (alive : s.Alive json) (positive : 0 < batchSize)
    (waits : s.waits client = .forRoom write ∨ s.waits client = .admitted write) :
    s.Finishes json batchSize client := by
  obtain ⟨more, t, run, landed, serves⟩ := alive.lands positive waits
  refine Finishes.after run (fun e member => serves e member client)
    ((alive.run run).finishes_logged positive ?_)
  rw [landed.waits, Function.update_self]

theorem Alive.finishes (alive : s.Alive json) (positive : 0 < batchSize) (client : Nat) :
    s.Finishes json batchSize client := by
  cases waits : s.waits client with
  | nothing => exact alive.finishes_logged positive waits
  | forRoom write => exact alive.finishes_waiting positive (Or.inl waits)
  | admitted write => exact alive.finishes_waiting positive (Or.inr waits)
  | forLock name key value =>
      obtain ⟨more, t, run, free, same, _, serves⟩ :=
        alive.frees positive client name (by rw [waits]; exact nofun)
      refine Finishes.after run serves ?_
      have queued : t.waits client = .forLock name key value := same.trans waits
      have possible : ∃ u, Step json batchSize t (.acquire client) u ∧
          u.waits client = .forRoom (.set name key value) := by
        show ∃ u, t.acquire client = some u ∧ u.waits client = .forRoom (.set name key value)
        unfold acquire
        rw [queued]
        dsimp only
        rw [if_pos free]
        exact ⟨_, rfl, Function.update_self _ _ _⟩
      obtain ⟨u, step, holding⟩ := possible
      exact Finishes.before step rfl
        (((alive.run run).step step).finishes_waiting positive (Or.inl holding))

end Ends

/-- Nobody waits for ever: in every state of every run the write of a client, from its call on,
can be brought to its end without a new call, whoever holds the lock of its table and however
full the buffer is. -/
theorem writes_finish (json : Json) (wal : Wal) {tableFiles : String → File} {batchSize : Nat}
    (positive : 0 < batchSize) (maxMemtableSize cacheCapacity : Nat)
    (readable : ∀ name, (TableHandler.openTable (tableFiles name)).WellFormed)
    {events : List Event} {s : Backlog}
    (run : Run (Step json batchSize) (start wal tableFiles maxMemtableSize cacheCapacity) events s)
    (client : Nat) : s.Finishes json batchSize client := by
  have sound := Store.start_sound json wal maxMemtableSize cacheCapacity readable
  have alive : (start wal tableFiles maxMemtableSize cacheCapacity).Alive json := by
    refine ⟨⟨sound, fun _ _ => ⟨0, fun _ known => (by cases known), fun _ => rfl⟩,
      fun _ _ _ waits => (by cases waits)⟩, ?_, ?_⟩
    · exact fun _ _ waits => by cases waits
    · exact fun _ _ held => by cases held
  exact (alive.run run).finishes positive client

/-- With room for two records in the buffer: client 0 fills it and its table, client 1 waits for
room with the lock of the table, and client 2 waits for that lock. -/
def untilStuck : List Event :=
  [.call 0 (.setMany "t" [("k", .str "a"), ("l", .str "b")]), .findRoom 0, .append 0,
    .step (.insertMany 0), .step (.check 0), .step (.swap 0),
    .call 1 (.set "t" "m" (.str "c")), .acquire 1, .call 2 (.set "t" "n" (.str "d"))]

theorem writes_finish_stuck : ∃ s, Run (Step wordJson 1)
    (start ⟨0, [], ∅, none, FileSystem.empty, []⟩ (fun _ => File.empty) 1 1) untilStuck s ∧
      s.locks "t" = some 1 ∧ s.store.router.wal.walBuffer.length = 2 ∧
      s.Finishes wordJson 1 2 := by
  have outcome : (play (perform wordJson 1)
      (start ⟨0, [], ∅, none, FileSystem.empty, []⟩ (fun _ => File.empty) 1 1) untilStuck).map
        (fun s => (s.locks "t", s.store.router.wal.walBuffer.length)) = some (some 1, 2) := by
    decide +kernel
  obtain ⟨s, played, found⟩ := Option.map_eq_some_iff.mp outcome
  have run : Run (Step wordJson 1) _ untilStuck s := play_run played
  obtain ⟨locked, full⟩ := Prod.mk.inj found
  exact ⟨s, run, locked, full,
    writes_finish wordJson _ (by decide) 1 1 (fun _ => Store.empty_readable) run 2⟩

end Backlog

end CachyDb
