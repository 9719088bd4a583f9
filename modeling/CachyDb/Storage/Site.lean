import CachyDb.Storage.Growth

set_option autoImplicit false

/-! One table with everything that runs on it: the flushes that were submitted, each at
its place in `flush_memtable_to_disk`, and the history of what entered the memtables. A
call on a page or on the table file is one step of a flush. -/

namespace CachyDb

open ByteString

/-- A record that entered a memtable, with the transaction it was logged under. -/
structure Entry where
  txId : Nat
  key : String
  value : Value
  packed : Bytes

/-- The newest entry of a key. Histories hold the newest entry first. -/
def latest (history : List Entry) (key : String) : Option Entry :=
  history.find? fun e => e.key = key

/-- What a flush is about to do. -/
inductive Phase
  | queued
  | sizing
  | allocating
  | opening
  | checking
  | saving
  | growing
  | reopening
  | inserting
  | closing
  | dropping
  | indexing
  | syncing
  | marking
  | clearing
  | finished
  | failed
  deriving DecidableEq, Repr

/-- A submitted flush with its local variables. `entries` is the history of the memtable
that `records` were read from. -/
structure Task where
  phase : Phase
  records : List (String × Bytes)
  txIds : List Nat
  entries : List Entry
  job : Table.FlushJob

namespace Task

def queued : Task := ⟨.queued, [], [], [], ⟨[], 0, [], [], false⟩⟩

/-- `future.done()`. -/
def done (task : Task) : Bool := task.phase = .finished || task.phase = .failed

def move (task : Task) (phase : Phase) : Task := { task with phase := phase }

def onPage (task : Task) (pageId : Nat) (phase : Phase) : Task :=
  { task with phase := phase, job := { task.job with pageId := pageId } }

/-- The steps on pages and on the table file. What raises ends the flush. -/
def fill (h : TableHandler) (task : Task) : TableHandler × Task :=
  match task.phase with
  | .sizing =>
      if h.totalPages = 0 then (h, task.move .allocating)
      else (h, task.onPage (h.totalPages - 1) .opening)
  | .allocating =>
      match h.allocatePage with
      | .error _ => (h, task.move .failed)
      | .ok (pageId, h) => (h, task.onPage pageId .opening)
  | .opening =>
      match h.readPage task.job.pageId with
      | .error _ => (h, task.move .failed)
      | .ok (_, h) => (h, task.move .checking)
  | .checking =>
      match task.job.records, h.pageCache task.job.pageId with
      | [], _ => (h, task.move .closing)
      | (_, packed) :: _, some page =>
          if page.hasSpaceFor packed.length then (h, task.move .inserting)
          else (h, task.move .saving)
      | _ :: _, none => (h, task.move .failed)
  | .saving =>
      match Table.writeDirty h task.job with
      | .error _ => (h, task.move .failed)
      | .ok h => (h, task.move .growing)
  | .growing =>
      match h.allocatePage with
      | .error _ => (h, task.move .failed)
      | .ok (pageId, h) => (h, task.onPage pageId .reopening)
  | .reopening =>
      match h.readPage task.job.pageId with
      | .error _ => (h, task.move .failed)
      | .ok (_, h) => (h, { task with phase := .inserting, job := { task.job with dirty := false } })
  | .inserting =>
      match task.job.records with
      | [] => (h, task)
      | (key, packed) :: rest =>
          match Table.placeRecord h task.job key packed with
          | .error _ => (h, task.move .failed)
          | .ok (h, job) => (h, { task with phase := .checking, job := { job with records := rest } })
  | .closing =>
      match Table.writeDirty h task.job with
      | .error _ => (h, task.move .failed)
      | .ok h => (h, task.move .dropping)
  | _ => (h, task)

end Task

/-- The flushes of a table, in the order of their submission, its file as of the last
`sync`, and three histories: of the active memtable, of the immutable one, and of all. -/
structure Shelf where
  tasks : List Task
  synced : File
  active : List Entry
  immutable : List Entry
  written : List Entry

structure Site extends Shelf where
  table : Table

namespace Site

def putTask (s : Site) (i : Nat) (task : Task) : Site := { s with tasks := s.tasks.set i task }

def putHandler (s : Site) (h : TableHandler) : Site :=
  { s with table := { s.table with handler := h } }

/-- A record enters the active memtable. -/
def enter (s : Site) (e : Entry) : Site :=
  { s with
    table := s.table.insert e.key e.packed
    active := e :: s.active
    written := e :: s.written }

def addTxIds (s : Site) (txIds : List Nat) : Site := { s with table := s.table.addTxIds txIds }

/-- The swap, and the submission of a flush. -/
def swap (s : Site) : Site :=
  { s with
    table := s.table.swap
    tasks := s.tasks ++ [Task.queued]
    active := []
    immutable := s.active }

/-- The first locked section of a flush. -/
def begin (s : Site) (task : Task) : Task :=
  match s.table.beginFlush with
  | none => task.move .finished
  | some (records, txIds) => ⟨.sizing, records, txIds, s.immutable, ⟨records, 0, [], [], false⟩⟩

/-- The next step of the flush `task`, the marks in the log aside. -/
def advance (s : Site) (i : Nat) (task : Task) : Site :=
  match task.phase with
  | .queued => s.putTask i (s.begin task)
  | .dropping =>
      { s with table := { s.table with
          diskIndex := task.job.deletions.foldl (fun index key => index.erase key)
            s.table.diskIndex } }.putTask i (task.move .indexing)
  | .indexing =>
      { s with table := { s.table with
          diskIndex := Table.applyUpdates s.table.diskIndex task.job.updates } }.putTask i
        (task.move .syncing)
  | .syncing => { s with synced := s.table.handler.file }.putTask i (task.move .marking)
  | .marking => s.putTask i (task.move .clearing)
  | .clearing =>
      { s with table := s.table.endFlush, immutable := [] }.putTask i (task.move .finished)
  | _ =>
      let filled := task.fill s.table.handler
      (s.putHandler filled.1).putTask i filled.2

/-- What one step of the router does to one table. -/
inductive Act
  | stay
  | enter (entries : List Entry) (txIds : List Nat)
  | load (h : TableHandler)
  | swap
  | advance (i : Nat) (task : Task)
  | raise (i : Nat) (task : Task)

def act (s : Site) : Act → Site
  | .stay => s
  | .enter entries txIds => (entries.foldl Site.enter s).addTxIds txIds
  | .load h => s.putHandler h
  | .swap => s.swap
  | .advance i task => s.advance i task
  | .raise i task => s.putTask i (task.move .failed)

/-- What the router respects in its steps. -/
def Act.Valid (s : Site) : Act → Prop
  | .stay => True
  | .enter entries txIds =>
      (∀ e ∈ entries, e.packed ≠ []) ∧ ∀ txId ∈ txIds, ∃ e ∈ entries, e.txId = txId
  | .load h => s.table.handler.Coherent → TableHandler.Grows s.table.handler h
  | .swap => True
  | .advance i task => s.tasks[i]? = some task
  | .raise i task => s.tasks[i]? = some task ∧ task.done = false

end Site

end CachyDb
