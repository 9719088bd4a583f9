import Mathlib.Logic.Function.Basic
import CachyDb.Lib.Transition
import CachyDb.Storage.History

set_option autoImplicit false

/-! The router at work: any number of client threads and the flushes that they submit.
A section under a table's lock, a call of the log, a turn of the log's writer and a step of
a flush are one step each. -/

namespace CachyDb

open ByteString

/-- Where a client thread is in a write: between the log and the memtable of a
`set_many`, before the look at `flush_futures`, waiting for a flush, before the swap. -/
inductive Client
  | idle
  | logged (name : String) (records : List (String × Value)) (packedRecords : List (String × Bytes))
      (txIds : List Nat)
  | full (name : String)
  | waiting (name : String) (task : Nat)
  | ready (name : String)

/-- The table that a client is writing to. -/
def Client.table : Client → Option String
  | .idle => none
  | .logged name _ _ _ => some name
  | .full name => some name
  | .waiting name _ => some name
  | .ready name => some name

structure Store where
  router : Router
  shelves : String → Shelf
  clients : Nat → Client

def Shelf.enter (shelf : Shelf) (e : Entry) : Shelf :=
  { shelf with active := e :: shelf.active, written := e :: shelf.written }

namespace Router

def table (r : Router) (name : String) : Table := (r.getTableState name).1

theorem table_getTableState (r : Router) (name other : String) :
    (r.getTableState name).2.table other = r.table other := by
  cases known : r.tables.lookup name with
  | some t => simp only [getTableState, known]
  | none =>
      simp only [table, getTableState, known, putTable]
      by_cases same : other = name
      · subst same
        rw [AList.lookup_insert, known]
      · rw [AList.lookup_insert_ne same]
        cases r.tables.lookup other with
        | some t => rfl
        | none => rfl

@[simp] theorem table_putTable_self (r : Router) (name : String) (t : Table) :
    (r.putTable name t).table name = t := by
  simp only [table, getTableState, putTable, AList.lookup_insert]

theorem table_putTable_ne (r : Router) {name other : String} (t : Table) (different : other ≠ name) :
    (r.putTable name t).table other = r.table other := by
  simp only [table, getTableState, putTable, AList.lookup_insert_ne different]
  cases r.tables.lookup other with
  | some t => rfl
  | none => rfl

theorem table_congr {r r' : Router} (tables : r'.tables = r.tables)
    (files : r'.tableFiles = r.tableFiles) (name : String) : r'.table name = r.table name := by
  simp only [table, getTableState, tables, files]
  cases r.tables.lookup name with
  | some t => rfl
  | none => rfl

theorem putCache_frame (r : Router) (name key : String) (value : Value) :
    (r.putCache name key value).2.tables = r.tables ∧
      (r.putCache name key value).2.tableFiles = r.tableFiles ∧
      (r.putCache name key value).2.wal = r.wal ∧
      (r.putCache name key value).2.maxMemtableSize = r.maxMemtableSize := by
  unfold putCache
  cases r.cache.put (name, key) value with
  | none => exact ⟨rfl, rfl, rfl, rfl⟩
  | some cache => exact ⟨rfl, rfl, rfl, rfl⟩

end Router

namespace Store

def site (s : Store) (name : String) : Site := { s.shelves name with table := s.router.table name }

def putShelf (s : Store) (name : String) (shelf : Shelf) : Store :=
  { s with shelves := Function.update s.shelves name shelf }

/-- The table and what is known of it. -/
def putSite (s : Store) (name : String) (site : Site) : Store :=
  { s with
    router := s.router.putTable name site.table
    shelves := Function.update s.shelves name site.toShelf }

def putClient (s : Store) (client : Nat) (state : Client) : Store :=
  { s with clients := Function.update s.clients client state }

/-- A router without tables on a directory. -/
def start (wal : Wal) (tableFiles : String → File) (maxMemtableSize cacheCapacity : Nat) : Store :=
  ⟨Router.init wal tableFiles maxMemtableSize cacheCapacity,
    fun name => ⟨[], tableFiles name, [], [], []⟩, fun _ => .idle⟩

/-- `needs_flush`, when the locked section has not raised. -/
def afterWrite (name : String) : Except RouterError Bool → Client
  | .ok true => .full name
  | _ => .idle

/-- `_set_internal` up to the end of its first locked section. The wait for room in the WAL
buffer is `Backlog`'s. -/
def set (json : Json) (s : Store) (client : Nat) (name key : String) (value : Value) : Option Store :=
  match s.clients client, packRecord json key value with
  | .idle, .ok packed =>
      if name = "" ∨ key = "" then none
      else
        let locked := s.router.setLocked name key value packed
        let e : Entry := ⟨s.router.wal.globalTxId, key, value, packed⟩
        some (({ s with router := locked.2 }.putShelf name ((s.shelves name).enter e)).putClient client
          (afterWrite name locked.1))
  | _, _ => none

/-- `_set_many_internal` up to the log. Here too the wait for room is `Backlog`'s. -/
def append (json : Json) (s : Store) (client : Nat) (name : String)
    (records : List (String × Value)) : Option Store :=
  match s.clients client, Router.packRecords json records with
  | .idle, .ok packedRecords =>
      if name = "" ∨ records = [] then none
      else
        let appended := s.router.wal.appendManyToBuffer (packedRecords.map Prod.snd)
        some ({ s with router := { s.router with wal := appended.2 } }.putClient client
          (.logged name records packedRecords appended.1))
  | _, _ => none

/-- The entries that a `set_many` makes: those before its first empty key. -/
def entriesOf (records : List (String × Value)) (packedRecords : List (String × Bytes))
    (txIds : List Nat) : List Entry :=
  (((records.zip packedRecords).zip txIds).map fun r =>
    (⟨r.2, r.1.2.1, r.1.1.2, r.1.2.2⟩ : Entry)).takeWhile fun e => e.key ≠ ""

/-- The locked section of `_set_many_internal`. -/
def insertMany (s : Store) (client : Nat) : Option Store :=
  match s.clients client with
  | .logged name records packedRecords txIds =>
      let locked := s.router.setManyLocked name records packedRecords txIds
      let shelf := (entriesOf records packedRecords txIds).foldl Shelf.enter (s.shelves name)
      some (({ s with router := locked.2 }.putShelf name shelf).putClient client
        (afterWrite name locked.1))
  | _ => none

/-- The look at `flush_futures`, whose entry is the flush that was submitted last. -/
def check (s : Store) (client : Nat) : Option Store :=
  match s.clients client with
  | .full name =>
      match (s.shelves name).tasks.getLast? with
      | none => some (s.putClient client (.ready name))
      | some task =>
          if task.done then some (s.putClient client (.ready name))
          else some (s.putClient client (.waiting name ((s.shelves name).tasks.length - 1)))
  | _ => none

/-- `future.result()` returns, or raises what the flush has raised. -/
def wake (s : Store) (client : Nat) : Option Store :=
  match s.clients client with
  | .waiting name i =>
      match (s.shelves name).tasks[i]? with
      | none => none
      | some task =>
          if task.phase = .finished then some (s.putClient client (.ready name))
          else if task.phase = .failed then some (s.putClient client .idle)
          else none
  | _ => none

/-- The second locked section of a write. -/
def swap (s : Store) (client : Nat) : Option Store :=
  match s.clients client with
  | .ready name =>
      let swapped := s.router.swapLocked name
      let shelf := if swapped.1 then (s.site name).swap.toShelf else s.shelves name
      some (({ s with router := swapped.2 }.putShelf name shelf).putClient client .idle)
  | _ => none

/-- The next step of a flush. -/
def flush (s : Store) (name : String) (i : Nat) : Option Store :=
  match (s.shelves name).tasks[i]? with
  | none => none
  | some task =>
      let moved := s.putSite name ((s.site name).advance i task)
      if task.phase = .marking then
        some { moved with
          router := { moved.router with wal := moved.router.wal.markManyJobsComplete task.txIds } }
      else some moved

/-- The ids that the next step of a flush gives to `mark_many_jobs_complete`. -/
def marks (s : Store) (name : String) (i : Nat) : List Nat :=
  match (s.shelves name).tasks[i]? with
  | none => []
  | some task => if task.phase = .marking then task.txIds else []

/-- A flush that has not ended raises. -/
def raise (s : Store) (name : String) (i : Nat) : Option Store :=
  match (s.shelves name).tasks[i]? with
  | none => none
  | some task =>
      if task.done then none
      else some (s.putSite name ((s.site name).putTask i (task.move .failed)))

inductive Event
  | set (client : Nat) (name key : String) (value : Value)
  | append (client : Nat) (name : String) (records : List (String × Value))
  | insertMany (client : Nat)
  | check (client : Nat)
  | wake (client : Nat)
  | swap (client : Nat)
  | getCached (name key : String)
  | getLocked (name key : String)
  | flush (name : String) (i : Nat)
  | raise (name : String) (i : Nat)
  | writer (clock : Nat → Nat)

def perform (json : Json) (s : Store) : Event → Option Store
  | .set client name key value => s.set json client name key value
  | .append client name records => s.append json client name records
  | .insertMany client => s.insertMany client
  | .check client => s.check client
  | .wake client => s.wake client
  | .swap client => s.swap client
  | .getCached name key => some { s with router := (s.router.getCached name key).2 }
  | .getLocked name key => some { s with router := (s.router.getLocked json name key).2 }
  | .flush name i => s.flush name i
  | .raise name i => s.raise name i
  | .writer clock =>
      some { s with router := { s.router with wal := (s.router.wal.flushBuffer clock).2.2 } }

def play (json : Json) (s : Store) : List Event → Option Store
  | [] => some s
  | e :: rest => (s.perform json e).bind fun t => t.play json rest

def Step (json : Json) (s : Store) (e : Event) (t : Store) : Prop := s.perform json e = some t

/-- What an event does to the table `name`. -/
def actOn (json : Json) (s : Store) (name : String) : Event → Site.Act
  | .set _ other key value =>
      match packRecord json key value with
      | .ok packed =>
          if other = name then
            .enter [⟨s.router.wal.globalTxId, key, value, packed⟩] [s.router.wal.globalTxId]
          else .stay
      | .error _ => .stay
  | .insertMany client =>
      match s.clients client with
      | .logged other records packedRecords txIds =>
          if other = name then
            .enter (entriesOf records packedRecords txIds)
              (if ∀ record ∈ packedRecords, record.1 ≠ "" then txIds else [])
          else .stay
      | _ => .stay
  | .swap client =>
      match s.clients client with
      | .ready other =>
          if other = name ∧ (s.router.table name).active.size ≥ s.router.maxMemtableSize then .swap
          else .stay
      | _ => .stay
  | .getLocked other key =>
      if other = name then .load ((s.router.table name).find json key).2.handler else .stay
  | .flush other i =>
      if other = name then
        match (s.shelves name).tasks[i]? with
        | some task => .advance i task
        | none => .stay
      else .stay
  | .raise other i =>
      if other = name then
        match (s.shelves name).tasks[i]? with
        | some task => .raise i task
        | none => .stay
      else .stay
  | _ => .stay

end Store

end CachyDb
