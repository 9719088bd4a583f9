import CachyDb.Database.Recovery
import CachyDb.Storage.Filed
import CachyDb.Storage.Turns

set_option autoImplicit false

/-! The database over its processes: the router at work, the threads that prepare log files,
and openings of the directories that a process has left, each with its recovery. -/

namespace CachyDb.Database

open ByteString TableHandler Transition

/-- The running process, and what is known of it and of those before it. -/
structure Lifetime where
  store : Store
  /-- The log of the router, with its history. -/
  log : Wal.Log
  /-- The table files as this process has found them. -/
  files : String → File
  /-- The first id of this process. -/
  opened : Nat
  /-- The records in the log files at that time, and those of them that it has replayed. -/
  found : List Wal.Record
  replayed : List Wal.Record
  /-- What it has handed to the log, with the tables, newest first. -/
  recent : List (String × Entry)
  /-- The same of the processes before it. -/
  past : List (String × Entry)

namespace Lifetime

/-- A process on an empty data directory. -/
def first (maxMemtableSize cacheCapacity : Nat) : Lifetime :=
  ⟨Store.fresh maxMemtableSize cacheCapacity, Wal.Log.start, fun _ => File.empty, 0, [], [], [], []⟩

inductive Event
  | work (e : Store.Event)
  | preAllocate (fileId : Nat)
  | reopen (maxMemtableSize cacheCapacity : Nat)

def work (json : Json) (s : Lifetime) (e : Store.Event) : Option Lifetime :=
  (s.store.perform json e).map fun store =>
    { s with
      store := store
      log := s.store.follow json s.log e
      recent := (s.store.calls json e).reverse ++ s.recent }

/-- A thread of the log makes the next file. -/
def preAllocate (s : Lifetime) (fileId : Nat) : Option Lifetime :=
  let wal := s.store.router.wal
  if fileId ∈ wal.preallocating then
    some { s with
      store := { s.store with
        router := { s.store.router with wal := Wal.runPreAllocation wal fileId } }
      log := s.log.preAllocate fileId }
  else none

/-- What the replay of a record is for the log. -/
def replayLog (json : Json) (log : Wal.Log) (record : Wal.Record) : Wal.Log :=
  match recoveredEntry json record with
  | some _ => log.mark [record.1]
  | none => log

/-- A new process opens what is there: the table files as far as they were written, and the
log as far as its buffer was. Threads of the old process may still be making files. -/
def reopen (json : Json) (s : Lifetime) (maxMemtableSize cacheCapacity : Nat) : Option Lifetime :=
  if maxMemtableSize = 0 ∨ cacheCapacity = 0 then none
  else
    match Wal.openWal s.store.router.wal.disk with
    | .error _ => none
    | .ok opened =>
        let wal := { opened with preallocating := s.store.router.wal.preallocating }
        let files := fun name => (s.store.site name).table.handler.file
        let records := (Wal.readWal wal.disk).records
        some
          { store :=
              (Store.start wal files maxMemtableSize cacheCapacity).recoverTransactions json
            log := records.foldl (replayLog json) (s.log.after .restart)
            files := files
            opened := opened.globalTxId
            found := s.log.written
            replayed := records
            recent := []
            past := s.recent ++ s.past }

def perform (json : Json) (s : Lifetime) : Event → Option Lifetime
  | .work e => s.work json e
  | .preAllocate fileId => s.preAllocate fileId
  | .reopen maxMemtableSize cacheCapacity => s.reopen json maxMemtableSize cacheCapacity

def Step (json : Json) (s : Lifetime) (e : Event) (t : Lifetime) : Prop :=
  s.perform json e = some t

/-- All that was ever handed to the log, newest first. -/
def history (s : Lifetime) : List (String × Entry) := s.recent ++ s.past

/-- With an empty buffer the single form of a mark does what the other one does. -/
theorem markJobComplete_eq {w : Wal} (empty : w.walBuffer = []) {txId : Nat}
    (valid : Wal.validateTxId txId = .ok ()) :
    w.markJobComplete txId (txId / Wal.walCapacity) = .ok (w.markManyJobsComplete [txId]) := by
  have same : w.ramCompletedTx ∪ [txId].toFinset = insert txId w.ramCompletedTx := by
    rw [List.toFinset_cons, List.toFinset_nil, insert_empty_eq, Finset.union_comm,
      ← Finset.insert_eq]
  have group : Grouping.groupBy (fun txId => txId / Wal.walCapacity)
      ([txId].filter fun txId => (Wal.validateTxId txId).isOk) =
        [(txId / Wal.walCapacity, [txId])] := by
    rw [List.filter_cons_of_pos (by rw [valid]; rfl)]
    rfl
  have outside : [txId].filter (fun txId => !Wal.inBufferRange w.walBuffer txId) = [txId] := by
    rw [empty]
    rfl
  simp only [Wal.markJobComplete, valid, empty, Wal.inBufferRange, List.head?_nil,
    Wal.markManyJobsComplete, Wal.markLocked, Wal.markDisk, Bool.false_eq_true, ↓reduceIte,
    List.cons_ne_nil, Bool.not_false, List.filter_true, group, same, List.foldl_cons,
    List.foldl_nil]

theorem recoverRecord_wal (json : Json) {r : Router} (empty : r.wal.walBuffer = [])
    {record : Wal.Record} (valid : Wal.validateTxId record.1 = .ok ()) :
    (recoverRecord json r record).wal = match recoveredEntry json record with
      | some _ => r.wal.markManyJobsComplete [record.1]
      | none => r.wal := by
  unfold recoverRecord recoveredEntry
  cases unpackRecord json record.2 with
  | error e => rfl
  | ok both =>
      obtain ⟨key, value⟩ := both
      dsimp only
      obtain ⟨wal, _, _⟩ := r.getTableState_wal (recoveryTable key)
      by_cases unnamed : key = ""
      · rw [if_pos unnamed, if_pos unnamed]
        exact wal
      · rw [if_neg unnamed, if_neg unnamed]
        have path : Wal.getFilePath record.1 = .ok (record.1 / Wal.walCapacity) := by
          rw [Wal.getFilePath, valid]
        have inserted : ((r.getTableState (recoveryTable key)).2.putTable (recoveryTable key)
            ((r.getTableState (recoveryTable key)).1.insert key record.2)).wal = r.wal := wal
        rw [path]
        dsimp only
        rw [inserted, markJobComplete_eq empty valid]

/-- What the recovery has done to the tables. -/
structure Refilled (json : Json) (records : List Wal.Record) (s t : Store) : Prop where
  site : ∀ name, t.site name =
    (Recovery.entriesFor json records name).foldl Site.enter (s.site name)
  clients : t.clients = s.clients
  cache : t.router.cache = s.router.cache
  limit : t.router.maxMemtableSize = s.router.maxMemtableSize
  counter : t.router.wal.globalTxId = s.router.wal.globalTxId

theorem entriesFor_cons (json : Json) (record : Wal.Record) (records : List Wal.Record)
    (name : String) : Recovery.entriesFor json (record :: records) name =
      (match recoveredEntry json record with
        | some (other, e) => if other = name then [e] else []
        | none => []) ++ Recovery.entriesFor json records name := by
  unfold Recovery.entriesFor
  rw [List.filterMap_cons]
  cases entry : recoveredEntry json record with
  | none => rfl
  | some both =>
      by_cases same : both.1 = name
      · simp only [Option.bind_some, if_pos same, List.singleton_append]
      · simp only [Option.bind_some, if_neg same, List.nil_append]

theorem recover_refilled (json : Json) (records : List Wal.Record) (s : Store) :
    Refilled json records s (records.foldl (Store.recover json) s) := by
  induction records generalizing s with
  | nil => exact ⟨fun _ => rfl, rfl, rfl, rfl, rfl⟩
  | cons record rest ih =>
      have later := ih (s.recover json record)
      have spec := recoverRecord_spec json s.router record
      obtain ⟨router, clients⟩ := s.recover_router json record
      rw [List.foldl_cons]
      refine ⟨fun name => ?_, later.clients.trans clients, ?_, ?_, ?_⟩
      · rw [later.site, s.recover_site, entriesFor_cons, List.foldl_append]
        cases recoveredEntry json record with
        | none => rfl
        | some both =>
            by_cases same : both.1 = name
            · simp only [if_pos same, List.foldl_cons, List.foldl_nil]
            · simp only [if_neg same, List.foldl_nil]
      · rw [later.cache, router, spec.cache]
      · rw [later.limit, router, spec.limit]
      · rw [later.counter, router, spec.counter]

/-- The ids whose records the recovery has put into a memtable. -/
def recoveredIds (json : Json) (records : List Wal.Record) : List Nat :=
  (records.filter fun record => (recoveredEntry json record).isSome).map Prod.fst

/-- What the recovery has done to the log. -/
structure Completed (json : Json) (records : List Wal.Record) (log log' : Wal.Log) : Prop where
  inOrder : log'.InOrder
  whole : log'.Whole
  buffer : log'.wal.walBuffer = []
  written : log'.written = log.written
  marked : log'.marked = log.marked ∪ (recoveredIds json records).toFinset
  threads : log'.wal.preallocating = log.wal.preallocating

theorem replay_completed (json : Json) {records : List Wal.Record} {s : Store} {log : Wal.Log}
    (same : log.wal = s.router.wal) (inv : log.InOrder) (whole : log.Whole)
    (empty : log.wal.walBuffer = []) (ids : ∀ record ∈ records,
      record.1 < log.wal.globalTxId ∧ Wal.validateTxId record.1 = .ok ()) :
    (records.foldl (replayLog json) log).wal = (records.foldl (Store.recover json) s).router.wal ∧
      Completed json records log (records.foldl (replayLog json) log) := by
  induction records generalizing s log with
  | nil =>
      refine ⟨same, inv, whole, empty, rfl, ?_, rfl⟩
      rw [show recoveredIds json [] = [] from rfl, List.toFinset_nil, Finset.union_empty]
      rfl
  | cons record rest ih =>
      obtain ⟨⟨below, valid⟩, others⟩ := List.forall_mem_cons.mp ids
      have wal := recoverRecord_wal json (same ▸ empty : s.router.wal.walBuffer = []) valid
      rw [List.foldl_cons, List.foldl_cons]
      cases entry : recoveredEntry json record with
      | none =>
          rw [entry] at wal
          have alike : log.wal = (s.recover json record).router.wal := by
            rw [(s.recover_router json record).1, wal, same]
          have skipped : recoveredIds json (record :: rest) = recoveredIds json rest := by
            rw [recoveredIds, List.filter_cons_of_neg (by rw [entry]; exact Bool.false_ne_true)]
            rfl
          rw [replayLog, entry]
          obtain ⟨same', done⟩ := ih alike inv whole empty others
          exact ⟨same', done.inOrder, done.whole, done.buffer, done.written, skipped ▸ done.marked,
            done.threads⟩
      | some both =>
          rw [entry] at wal
          have queue := Wal.markMany_queue log.wal [record.1]
          have alike : (log.mark [record.1]).wal = (s.recover json record).router.wal := by
            rw [(s.recover_router json record).1, wal, ← same]
            rfl
          have taken : recoveredIds json (record :: rest) = record.1 :: recoveredIds json rest := by
            rw [recoveredIds, List.filter_cons_of_pos (by rw [entry]; rfl)]
            rfl
          have threads : (log.mark [record.1]).wal.preallocating = log.wal.preallocating :=
            (inv.mark_disk (List.cons_ne_nil _ _)).2.preallocating
          rw [replayLog, entry]
          obtain ⟨same', done⟩ := ih alike
            (inv.mark [record.1] fun txId member => (List.mem_singleton.mp member).symm ▸ below)
            ⟨whole.nothingLost, whole.all⟩ (queue.walBuffer.trans empty)
            (fun other member => ⟨queue.globalTxId.symm ▸ (others other member).1,
              (others other member).2⟩)
          refine ⟨same', done.inOrder, done.whole, done.buffer, done.written, ?_,
            done.threads.trans threads⟩
          rw [done.marked, taken, List.toFinset_cons]
          ext txId
          simp only [Wal.Log.mark, Finset.mem_union, List.toFinset_cons, List.toFinset_nil,
            Finset.mem_insert, Finset.notMem_empty, or_false, or_assoc]

/-- The router and its log, in a process whose log files have never been too small. -/
structure Logging (s : Lifetime) : Prop where
  wal : s.log.wal = s.store.router.wal
  inOrder : s.log.InOrder
  whole : s.log.Whole

/-- The router that a new process starts with. -/
def restarted (s : Lifetime) (txId maxMemtableSize cacheCapacity : Nat) : Store :=
  Store.start ⟨txId, [], ∅, none, s.log.wal.disk, s.log.wal.preallocating⟩
    (fun name => (s.store.site name).table.handler.file) maxMemtableSize cacheCapacity

/-- What an opening finds, and what it leaves to the new process. -/
structure Reopened (json : Json) (s t : Lifetime) (maxMemtableSize cacheCapacity : Nat) :
    Prop where
  logging : t.Logging
  buffer : t.log.wal.walBuffer = []
  written : t.log.written = s.log.written
  found : t.found = s.log.written
  replayed : t.replayed = s.log.written.filter fun r => r.1 ∉ s.log.marked
  marked : ∀ r ∈ s.log.written, r.1 ∈ t.log.marked ↔
    r.1 ∈ s.log.marked ∨ r.1 ∈ recoveredIds json t.replayed
  opened : t.store.router.wal.globalTxId = t.opened
  before : ∀ r ∈ s.log.written, r.1 < t.opened
  store : Refilled json t.replayed (s.restarted t.opened maxMemtableSize cacheCapacity) t.store
  router : t.store.router =
    recoverTransactions json (s.restarted t.opened maxMemtableSize cacheCapacity).router
  files : t.files = fun name => (s.store.site name).table.handler.file
  recent : t.recent = []
  past : t.past = s.history
  limits : 0 < maxMemtableSize ∧ 0 < cacheCapacity

theorem Logging.reopened {json : Json} {s t : Lifetime} (logging : s.Logging)
    {maxMemtableSize cacheCapacity : Nat}
    (done : s.reopen json maxMemtableSize cacheCapacity = some t) :
    Reopened json s t maxMemtableSize cacheCapacity := by
  obtain ⟨txId, _, result, before, _⟩ := logging.inOrder.reopen
  have restart := logging.inOrder.restart _ result
  have read := logging.inOrder.readWal
  have small := logging.inOrder.settled.valid
  unfold reopen at done
  split at done
  · cases done
  · rename_i positive
    rw [← logging.wal, result] at done
    have recovered := Store.recoverTransactions_router json
      (s.restarted txId maxMemtableSize cacheCapacity)
    have replays : (s.restarted txId maxMemtableSize cacheCapacity).recoverTransactions json =
        (s.log.written.filter fun r => r.1 ∉ s.log.marked).foldl (Store.recover json)
          (s.restarted txId maxMemtableSize cacheCapacity) := by
      show (Wal.readWal s.log.wal.disk).records.foldl (Store.recover json) _ = _
      rw [read]
    dsimp only at done
    rw [read] at done
    simp only [Wal.Log.after, result, Option.some.injEq] at done
    have ids : ∀ record ∈ s.log.written.filter (fun r => r.1 ∉ s.log.marked),
        record.1 < (s.log.restart ⟨txId, [], ∅, none, s.log.wal.disk, []⟩).wal.globalTxId ∧
          Wal.validateTxId record.1 = .ok () := by
      intro record member
      have inside := List.mem_of_mem_filter member
      exact ⟨before record inside, Wal.validateTxId_ok (small record inside)⟩
    obtain ⟨same, completed⟩ := replay_completed json
      (s := s.restarted txId maxMemtableSize cacheCapacity) rfl restart
      ⟨rfl, logging.whole.all⟩ rfl ids
    have refilled := recover_refilled json (s.log.written.filter fun r => r.1 ∉ s.log.marked)
      (s.restarted txId maxMemtableSize cacheCapacity)
    rw [← replays] at same refilled
    subst done
    refine ⟨⟨same, completed.inOrder, completed.whole⟩, completed.buffer, completed.written, rfl,
      rfl, fun r member => ?_, refilled.counter, before, refilled, recovered, rfl, rfl, rfl,
      by omega⟩
    dsimp only
    rw [completed.marked]
    have here := List.mem_map_of_mem member (f := Prod.fst)
    simp only [Wal.Log.restart, Finset.mem_union, Finset.mem_filter, here, and_true,
      List.mem_toFinset]

end Lifetime

end CachyDb.Database
