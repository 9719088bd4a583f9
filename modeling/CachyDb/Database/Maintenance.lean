import CachyDb.Database.Processes
import CachyDb.Lib.Simulation
import CachyDb.Storage.Exchanged
import CachyDb.Storage.Finished

set_option autoImplicit false

/-! The checkpoint thread beside the processes. It lists the sealed files of the log, looks at
one after the other, copies those that are completed and removes them, while the clients, the
flushes, the writer of the log and its own threads go on. -/

namespace CachyDb.Database

open ByteString TableHandler Transition

/-- Where the thread is with a file: it has found it completed, or it has made the archive. -/
inductive Stage
  | looking
  | found (fileId : Nat)
  | compressed (fileId : Nat)
  deriving DecidableEq

def Stage.file : Stage → Option Nat
  | .looking => none
  | .found fileId => some fileId
  | .compressed fileId => some fileId

/-- The running process and those before it, with a checkpoint thread. -/
structure Maintained where
  life : Lifetime
  archives : List (Nat × File)
  /-- The sealed files that the thread has not looked at yet. -/
  queue : List Nat
  stage : Stage

namespace Lifetime

/-- The same process over other log files. -/
def onLog (s : Lifetime) (wal : Wal) : Lifetime :=
  { s with
    store := s.store.onLog wal
    log := s.log.onLog wal }

def wal (s : Lifetime) : Wal := s.store.router.wal

end Lifetime

namespace Maintained

/-- A process on an empty data directory. -/
def first (maxMemtableSize cacheCapacity : Nat) : Maintained :=
  ⟨Lifetime.first maxMemtableSize cacheCapacity, [], [], .looking⟩

inductive Event
  | life (e : Lifetime.Event)
  | scan (activeFlushes : Nat)
  | examine
  | compress (succeeds : Bool)
  | remove (succeeds : Bool)

/-- What the processes are like without the thread. -/
def Event.visible : Event → Option Lifetime.Event
  | .life e => some e
  | _ => none

/-- The thread of a process ends with it. -/
def live (json : Json) (m : Maintained) (e : Lifetime.Event) : Option Maintained :=
  (m.life.perform json e).map fun life =>
    match e with
    | .reopen _ _ => { m with life := life, queue := [], stage := .looking }
    | _ => { m with life := life }

/-- `run_checkpoint` up to its loop. -/
def scan (m : Maintained) (activeFlushes : Nat) : Option Maintained :=
  if m.queue = [] ∧ m.stage = .looking then
    if activeFlushes > 0 then some m
    else some { m with queue := Wal.sealedFiles m.life.wal.disk }
  else none

/-- `is_file_fully_completed` for the next file. -/
def examine (m : Maintained) : Option Maintained :=
  match m.stage, m.queue with
  | .looking, fileId :: rest =>
      some { m with
        queue := rest
        stage :=
          if Wal.isFileFullyCompleted m.life.wal.disk fileId then .found fileId else .looking }
  | _, _ => none

/-- `archive_file` up to the end of the copy, which may fail. -/
def compress (m : Maintained) (succeeds : Bool) : Option Maintained :=
  match m.stage with
  | .found fileId =>
      if fileId ∈ m.archives.map Prod.fst ∨ succeeds = false then
        some { m with stage := .looking }
      else
        match m.life.wal.disk.file fileId with
        | none => some { m with stage := .looking }
        | some content =>
            some { m with
              archives := m.archives ++ [(fileId, content)]
              stage := .compressed fileId }
  | _ => none

/-- The end of `archive_file`. When the original cannot be removed, the archive stays. -/
def remove (m : Maintained) (succeeds : Bool) : Option Maintained :=
  match m.stage with
  | .compressed fileId =>
      let wal := m.life.wal
      if succeeds then
        some { m with
          life := m.life.onLog { wal with disk := wal.disk.unlink fileId }
          stage := .looking }
      else some { m with stage := .looking }
  | _ => none

/-- Without failures the two are `archive_file` as a whole. -/
theorem compress_remove {m : Maintained} {fileId : Nat} (stage : m.stage = .found fileId)
    (fresh : fileId ∉ m.archives.map Prod.fst) {content : File}
    (known : m.life.wal.disk.file fileId = some content) :
    (m.compress true).bind (fun m => m.remove true) = some { m with
      life := m.life.onLog (Wal.archiveFile ⟨m.life.wal, m.archives⟩ fileId).wal
      archives := (Wal.archiveFile ⟨m.life.wal, m.archives⟩ fileId).archives
      stage := .looking } := by
  have either : ¬ (fileId ∈ m.archives.map Prod.fst ∨ true = false) := by
    rintro (old | fails)
    · exact fresh old
    · cases fails
  have copied : m.compress true = some { m with
      archives := m.archives ++ [(fileId, content)]
      stage := .compressed fileId } := by
    simp only [compress, stage, if_neg either, known]
  rw [copied]
  simp only [Option.bind_some, remove, Wal.archiveFile, if_neg fresh, known, ↓reduceIte]

def perform (json : Json) (m : Maintained) : Event → Option Maintained
  | .life e => m.live json e
  | .scan activeFlushes => m.scan activeFlushes
  | .examine => m.examine
  | .compress succeeds => m.compress succeeds
  | .remove succeeds => m.remove succeeds

def Step (json : Json) (m : Maintained) (e : Event) (m' : Maintained) : Prop :=
  m.perform json e = some m'

/-- Of the files that the log may still write to, the thread finds none completed. -/
def Spares (m : Maintained) : Event → Prop
  | .examine => ∀ fileId rest, m.queue = fileId :: rest →
      Wal.isFileFullyCompleted m.life.wal.disk fileId = true →
        fileId < m.life.log.next / Wal.walCapacity
  | _ => True

/-- Where the processes are allowed what they do, and the thread spares the file of the next
record. -/
def Careful (allowed : Lifetime → Lifetime.Event → Prop) (m : Maintained) : Event → Prop
  | .life e => allowed m.life e
  | e => m.Spares e

theorem onLog_recoverRecord (json : Json) (r : Router) {log : Wal.Log}
    (empty : log.wal.walBuffer = []) {record : Wal.Record}
    (valid : Wal.validateTxId record.1 = .ok ()) :
    recoverRecord json (r.onLog log.wal) record =
      (recoverRecord json r record).onLog (Lifetime.replayLog json log record).wal := by
  unfold recoverRecord Lifetime.replayLog recoveredEntry
  cases unpackRecord json record.2 with
  | error e => rfl
  | ok both =>
      obtain ⟨key, value⟩ := both
      dsimp only
      rw [Router.onLog_getTableState]
      by_cases unnamed : key = ""
      · simp only [if_pos unnamed]
      · have path : Wal.getFilePath record.1 = .ok (record.1 / Wal.walCapacity) := by
          rw [Wal.getFilePath, valid]
        have marks (wal : Wal) : ∃ wal', wal.markJobComplete record.1
            (record.1 / Wal.walCapacity) = .ok wal' := by
          unfold Wal.markJobComplete
          rw [valid]
          dsimp only
          split
          · exact ⟨_, rfl⟩
          · exact ⟨_, rfl⟩
        obtain ⟨wal', marked⟩ := marks ((r.getTableState (recoveryTable key)).2.putTable
          (recoveryTable key) ((r.getTableState (recoveryTable key)).1.insert key record.2)).wal
        simp only [if_neg unnamed, path, Router.onLog_putTable, marked]
        rw [show (((r.getTableState (recoveryTable key)).2.putTable (recoveryTable key)
          ((r.getTableState (recoveryTable key)).1.insert key record.2)).onLog log.wal).wal =
            log.wal from rfl, Lifetime.markJobComplete_eq empty valid]
        rfl

theorem onLog_recover (json : Json) (s : Store) {log : Wal.Log} (empty : log.wal.walBuffer = [])
    {record : Wal.Record} (valid : Wal.validateTxId record.1 = .ok ()) :
    (s.onLog log.wal).recover json record =
      (s.recover json record).onLog (Lifetime.replayLog json log record).wal := by
  have same := onLog_recoverRecord json s.router empty valid
  unfold Store.recover
  dsimp only [Store.onLog]
  rw [same]
  split
  · rfl
  · rfl

section

variable {json : Json} {listed : List Nat} {found : Option Nat} {gone : Finset Nat}

/-- The recovery of an opening does the same over fewer files. -/
theorem replay_thinned {records : List Wal.Record} {s : Store} {log : Wal.Log} {w : Wal}
    (same : log.wal = s.router.wal) (inv : log.InOrder) (whole : log.Whole)
    (empty : log.wal.walBuffer = []) (ids : ∀ record ∈ records,
      record.1 < log.wal.globalTxId ∧ Wal.validateTxId record.1 = .ok ())
    (thinned : log.Thinned listed found gone w) :
    ∃ w₁, records.foldl (Store.recover json) (s.onLog w) =
        (records.foldl (Store.recover json) s).onLog w₁ ∧
      records.foldl (Lifetime.replayLog json) (log.onLog w) =
        (records.foldl (Lifetime.replayLog json) log).onLog w₁ ∧
      (records.foldl (Lifetime.replayLog json) log).Thinned listed found gone w₁ := by
  induction records generalizing s log w with
  | nil => exact ⟨w, rfl, rfl, thinned⟩
  | cons record rest ih =>
      obtain ⟨⟨below, valid⟩, others⟩ := List.forall_mem_cons.mp ids
      obtain ⟨same', done⟩ := @Lifetime.replay_completed json [record] s log same inv whole empty
        fun other member => List.mem_singleton.mp member ▸ ⟨below, valid⟩
      rw [List.foldl_cons, List.foldl_nil, List.foldl_cons, List.foldl_nil] at same'
      rw [List.foldl_cons, List.foldl_nil] at done
      have counter : (s.recover json record).router.wal.globalTxId = s.router.wal.globalTxId :=
        (Lifetime.recover_refilled json [record] s).counter
      -- what the replay of the record does to the log, it does to the thinned one
      have replayed : ∃ w₁, Lifetime.replayLog json (log.onLog w) record =
          (Lifetime.replayLog json log record).onLog w₁ ∧
          (Lifetime.replayLog json log record).Thinned listed found gone w₁ := by
        have whole' := done.whole
        unfold Lifetime.replayLog at whole' ⊢
        split
        · rename_i entry
          simp only [entry] at whole'
          obtain ⟨w₁, followed, kept⟩ := thinned.after inv whole (e := .mark [record.1])
            fun txId member => List.mem_singleton.mp member ▸ below
          exact ⟨w₁, followed, kept whole'⟩
        · exact ⟨w, rfl, thinned⟩
      obtain ⟨w₁, followed, thinned₁⟩ := replayed
      have first := @onLog_recover json s (log.onLog w)
        (thinned.archived.walBuffer.trans empty) record valid
      rw [followed] at first
      obtain ⟨w₂, store, logs, thinned₂⟩ := ih same' done.inOrder done.whole done.buffer
        (fun other member => by
          rw [same', counter, ← same]
          exact others other member) thinned₁
      refine ⟨w₂, ?_, ?_, thinned₂⟩
      · rw [List.foldl_cons, List.foldl_cons, ← store]
        exact congrArg (fun store => rest.foldl (Store.recover json) store) first
      · rw [List.foldl_cons, List.foldl_cons, followed, logs]

end

/-- The files that the thread has listed. -/
def listed (m : Maintained) : List Nat := m.stage.file.toList ++ m.queue

/-- Without the thread the processes are the same, but for the files that are gone. -/
structure Maintains (json : Json) (gone : Finset Nat) (s : Lifetime) (m : Maintained) : Prop where
  working : s.Working json
  life : m.life = s.onLog m.life.wal
  thinned : s.log.Thinned m.listed m.stage.file gone m.life.wal

section

variable {json : Json} {gone : Finset Nat} {s : Lifetime} {m m' : Maintained}

theorem Maintains.next (maintains : Maintains json gone s m) : m.life.log.next = s.log.next := by
  have archived := maintains.thinned.archived
  rw [maintains.life]
  show m.life.wal.globalTxId - m.life.wal.walBuffer.length = s.log.next
  rw [archived.globalTxId, archived.walBuffer, Wal.Log.next]

theorem follow_over (json : Json) (s : Store) (wal : Wal) (log : Wal.Log) (e : Store.Event) :
    (s.onLog wal).follow json log e = s.follow json log e := by
  cases e <;> rfl

theorem Maintains.work {e : Store.Event} {life : Lifetime} (maintains : Maintains json gone s m)
    (ordinary : e.Ordinary json) (step : m.life.work json e = some life)
    (fits : life.log.Fits) :
    ∃ t, s.work json e = some t ∧ Maintains json gone t { m with life := life } := by
  obtain ⟨working, exchanged, thinned⟩ := maintains
  have logging := working.logging
  have sound := working.sound
  generalize m.life.wal = w at exchanged thinned
  have counter : (s.log.onLog w).wal.globalTxId = s.store.router.wal.globalTxId := by
    rw [← logging.wal]
    exact thinned.archived.globalTxId
  obtain ⟨w₁, followed, kept⟩ : ∃ w₁, s.store.follow json (s.log.onLog w) e =
      (s.store.follow json s.log e).onLog w₁ ∧ ((s.store.follow json s.log e).Whole →
        (s.store.follow json s.log e).Thinned m.listed m.stage.file gone w₁) := by
    unfold Store.follow
    split
    · rename_i event event_of
      exact thinned.after logging.inOrder logging.whole
        (Store.follow_possible sound working.below working.traced logging.wal event_of)
    · exact ⟨w, rfl, fun _ => thinned⟩
  have moved : (s.store.onLog w).perform json e = (s.store.perform json e).map fun store =>
      store.onLog (s.store.follow json (s.log.onLog w) e).wal :=
    Store.onLog_perform json s.store counter e
  rw [exchanged] at step
  obtain ⟨store', performed, rfl⟩ := Option.map_eq_some_iff.mp step
  change (s.store.onLog w).perform json e = some store' at performed
  change ((s.store.onLog w).follow json (s.log.onLog w) e).Fits at fits
  rw [moved, followed] at performed
  rw [follow_over, followed] at fits
  obtain ⟨store, taken, rfl⟩ := Option.map_eq_some_iff.mp performed
  have fits' : (s.store.follow json s.log e).Fits := ⟨fits.room, fits.ids⟩
  have called : (s.store.onLog w).calls json e = s.store.calls json e :=
    Store.onLog_calls json s.store counter e
  have later := working.work ordinary taken fits'
  refine ⟨_, ?_, later, ?_, kept later.logging.whole⟩
  · rw [Lifetime.work, taken]
    rfl
  · dsimp only [Lifetime.onLog, Lifetime.wal]
    rw [follow_over, followed, called]
    rfl

theorem Maintains.preAllocated {fileId : Nat} {life : Lifetime}
    (maintains : Maintains json gone s m) (step : m.life.preAllocate fileId = some life) :
    ∃ t, s.preAllocate fileId = some t ∧ Maintains json gone t { m with life := life } := by
  obtain ⟨working, exchanged, thinned⟩ := maintains
  have logging := working.logging
  generalize m.life.wal = w at exchanged thinned
  rw [exchanged] at step
  unfold Lifetime.preAllocate at step
  dsimp only at step
  split at step
  · rename_i started
    cases step
    have started' : fileId ∈ s.log.wal.preallocating := by
      rw [← thinned.archived.preallocating]
      exact started
    obtain ⟨w₁, followed, kept⟩ := thinned.after logging.inOrder logging.whole
      (e := .preAllocate fileId) started'
    have allowed : s.preAllocate fileId = some { s with
        store := { s.store with
          router := { s.store.router with
            wal := Wal.runPreAllocation s.store.router.wal fileId } }
        log := s.log.preAllocate fileId } := by
      unfold Lifetime.preAllocate
      rw [← logging.wal, if_pos started']
    have later := working.preAllocated allowed
    have own : w₁ = Wal.runPreAllocation w fileId := (congrArg Wal.Log.wal followed).symm
    subst own
    exact ⟨_, allowed, later, rfl, kept later.logging.whole⟩
  · cases step

theorem openWal_shape {disk : FileSystem Nat} {opened : Wal} (done : Wal.openWal disk = .ok opened) :
    opened = ⟨opened.globalTxId, [], ∅, none, disk, []⟩ := by
  unfold Wal.openWal at done
  split at done
  · cases done
  · cases done
    rfl

theorem Maintains.reopened {maxMemtableSize cacheCapacity : Nat} {life : Lifetime}
    (maintains : Maintains json gone s m)
    (step : m.life.reopen json maxMemtableSize cacheCapacity = some life) :
    ∃ t, s.reopen json maxMemtableSize cacheCapacity = some t ∧
      Maintains json gone t { m with life := life, queue := [], stage := .looking } := by
  obtain ⟨working, exchanged, thinned⟩ := maintains
  have logging := working.logging
  have inv := logging.inOrder
  generalize m.life.wal = w at exchanged thinned
  obtain ⟨txId, _, result, before, _⟩ := inv.reopen
  obtain ⟨opened, result', alike⟩ := thinned.archived.openWal result
  have shape := openWal_shape result'
  rw [alike.globalTxId] at shape
  subst shape
  -- the log that starts over the same files
  obtain ⟨w₁, followed, kept⟩ := thinned.forget.after inv logging.whole (e := .restart)
    ⟨_, result⟩
  have restart := inv.restart _ result
  have after : s.log.after .restart = s.log.restart ⟨txId, [], ∅, none, s.log.wal.disk, []⟩ := by
    simp only [Wal.Log.after, result]
  have own : w₁ = ⟨txId, [], ∅, none, w.disk, w.preallocating⟩ := by
    simp only [Wal.Log.after, Wal.Log.onLog, result, result'] at followed
    exact (congrArg Wal.Log.wal followed).symm
  subst own
  rw [after] at followed kept
  have ids : ∀ record ∈ (Wal.readWal s.log.wal.disk).records,
      record.1 < txId ∧ Wal.validateTxId record.1 = .ok () := by
    rw [inv.readWal]
    intro record member
    have inside := List.mem_of_mem_filter member
    exact ⟨before record inside, Wal.validateTxId_ok (inv.settled.valid record inside)⟩
  obtain ⟨w₂, stores, logs, thinned₂⟩ := @replay_thinned json [] none gone _
    (s.restarted txId maxMemtableSize cacheCapacity) _ _ rfl restart ⟨rfl, logging.whole.all⟩ rfl
    ids (kept ⟨rfl, logging.whole.all⟩)
  have recovers : ((s.restarted txId maxMemtableSize cacheCapacity).onLog
      ⟨txId, [], ∅, none, w.disk, w.preallocating⟩).recoverTransactions json =
        ((s.restarted txId maxMemtableSize cacheCapacity).recoverTransactions json).onLog w₂ := by
    show (Wal.readWal w.disk).records.foldl (Store.recover json) _ = _
    rw [thinned.readWal inv]
    exact stores
  rw [exchanged] at step
  unfold Lifetime.reopen at step
  have opens : Wal.openWal (s.onLog w).store.router.wal.disk =
      .ok ⟨txId, [], ∅, none, w.disk, []⟩ := result'
  split at step
  · cases step
  · rename_i positive
    have files : (fun name => ((s.onLog w).store.site name).table.handler.file) =
        fun name => (s.store.site name).table.handler.file :=
      funext fun name => congrArg (fun site : Site => site.table.handler.file)
        (s.store.onLog_site w name)
    rw [opens] at step
    dsimp only at step
    rw [files, show (s.onLog w).log = s.log.onLog w from rfl, followed,
      thinned.readWal inv] at step
    rw [show Store.start ⟨txId, [], ∅, none, w.disk, (s.onLog w).store.router.wal.preallocating⟩
      (fun name => (s.store.site name).table.handler.file) maxMemtableSize cacheCapacity =
        (s.restarted txId maxMemtableSize cacheCapacity).onLog
          ⟨txId, [], ∅, none, w.disk, w.preallocating⟩ from rfl, recovers, logs] at step
    cases step
    have done : s.reopen json maxMemtableSize cacheCapacity = some
        { store := (s.restarted txId maxMemtableSize cacheCapacity).recoverTransactions json
          log := (Wal.readWal s.log.wal.disk).records.foldl (Lifetime.replayLog json)
            (s.log.restart ⟨txId, [], ∅, none, s.log.wal.disk, []⟩)
          files := fun name => (s.store.site name).table.handler.file
          opened := txId
          found := s.log.written
          replayed := (Wal.readWal s.log.wal.disk).records
          recent := []
          past := s.recent ++ s.past } := by
      unfold Lifetime.reopen
      rw [if_neg positive, ← logging.wal, result, ← after]
      rfl
    exact ⟨_, done, working.reopened (logging.reopened done), rfl, thinned₂⟩

/-- A step of the process is one without the thread. -/
theorem Maintains.live {e : Lifetime.Event} (maintains : Maintains json gone s m)
    (ordinary : m.life.Ordinary json e) (step : m.live json e = some m')
    (fits : m'.life.log.Fits) :
    ∃ t, Lifetime.Step json s e t ∧ Maintains json gone t m' := by
  obtain ⟨life, performed, rfl⟩ := Option.map_eq_some_iff.mp step
  cases e with
  | work e => exact maintains.work ordinary performed fits
  | preAllocate fileId => exact maintains.preAllocated performed
  | reopen maxMemtableSize cacheCapacity => exact maintains.reopened performed

/-- The thread moves on with what it has listed. -/
theorem Maintains.relist (maintains : Maintains json gone s m) (queue : List Nat) (stage : Stage)
    (archives : List (Nat × File))
    (known : ∀ fileId ∈ stage.file.toList ++ queue, s.log.wal.disk.present fileId = true ∧
      Wal.Superseded gone s.log.wal fileId)
    (finished : ∀ fileId, stage.file = some fileId → s.log.Finished fileId) :
    Maintains json gone s ⟨m.life, archives, queue, stage⟩ := by
  obtain ⟨working, exchanged, thinned⟩ := maintains
  refine ⟨working, exchanged, ⟨thinned.archived.list (fun fileId member => (known fileId member).1)
    fun fileId member => (known fileId member).2, fun fileId here => ?_, fun fileId aside => ?_⟩⟩
  · dsimp only [listed] at here ⊢
    rw [here]
    exact List.mem_cons_self
  · rcases aside with removed | here
    · exact thinned.finished fileId (Or.inl removed)
    · exact finished fileId here

theorem Maintains.known (maintains : Maintains json gone s m) {fileId : Nat}
    (member : fileId ∈ m.listed) : s.log.wal.disk.present fileId = true ∧
      Wal.Superseded gone s.log.wal fileId :=
  ⟨maintains.thinned.archived.kept fileId (Or.inr member),
    maintains.thinned.archived.superseded fileId (Or.inr member)⟩

theorem Maintains.scan {activeFlushes : Nat} (maintains : Maintains json gone s m)
    (step : m.scan activeFlushes = some m') : Maintains json gone s m' := by
  unfold Maintained.scan at step
  split at step
  · rename_i idle
    split at step
    · cases step
      exact maintains
    · cases step
      refine maintains.relist _ m.stage _ (fun fileId member => ?_)
        fun fileId here => maintains.thinned.finished fileId (Or.inr here)
      rw [idle.2] at member
      exact maintains.thinned.archived.sealed member
  · cases step

/-- A file without an uncompleted entry has only records that were marked. -/
theorem Maintains.completed (maintains : Maintains json gone s m) {fileId : Nat}
    (whole : Wal.isFileFullyCompleted m.life.wal.disk fileId = true)
    (behind : fileId < m.life.log.next / Wal.walCapacity) : s.log.Finished fileId := by
  by_cases removed : fileId ∈ gone
  · exact maintains.thinned.finished fileId (Or.inl removed)
  · have inv := maintains.working.logging.inOrder
    have whole' : Wal.isFileFullyCompleted s.log.wal.disk fileId = true := by
      have same := maintains.thinned.archived.same fileId removed
      unfold Wal.isFileFullyCompleted at whole ⊢
      rwa [same] at whole
    exact ⟨maintains.next ▸ behind, fun r member home => inv.settled.disk.fullyCompleted whole' r
      (Wal.mem_fileRecords.mpr ⟨member, home⟩)⟩

theorem Maintains.examine (maintains : Maintains json gone s m) (spares : m.Spares .examine)
    (step : m.examine = some m') : Maintains json gone s m' := by
  unfold Maintained.examine at step
  split at step
  · rename_i fileId rest stage queue
    cases step
    have inside {other : Nat} (member : other ∈ fileId :: rest) : other ∈ m.listed := by
      rw [listed, stage, queue]
      exact member
    refine maintains.relist rest _ _ (fun other member => ?_) fun other here => ?_
    · apply maintains.known (inside _)
      split at member
      · exact member
      · exact List.mem_cons_of_mem _ member
    · split at here
      · rename_i whole
        cases here
        exact maintains.completed whole (spares _ rest queue whole)
      · cases here
  · cases step

theorem Maintains.compress {succeeds : Bool} (maintains : Maintains json gone s m)
    (step : m.compress succeeds = some m') : Maintains json gone s m' := by
  have idle : Maintains json gone s { m with stage := .looking } :=
    maintains.relist m.queue .looking _
      (fun fileId member => maintains.known (List.mem_append_right _ member))
      fun fileId here => by cases here
  unfold Maintained.compress at step
  split at step
  · rename_i fileId stage
    split at step
    · cases step
      exact idle
    · split at step
      · cases step
        exact idle
      · cases step
        refine maintains.relist m.queue (.compressed fileId) _
          (fun other member => maintains.known ?_) fun other here => ?_
        · rw [listed, stage]
          exact member
        · cases here
          exact maintains.thinned.finished fileId (Or.inr (by rw [stage]; rfl))
  · cases step

theorem Maintains.remove {succeeds : Bool} (maintains : Maintains json gone s m)
    (step : m.remove succeeds = some m') : ∃ gone', Maintains json gone' s m' := by
  unfold Maintained.remove at step
  split at step
  · rename_i fileId stage
    dsimp only at step
    have here : fileId ∈ m.listed := by
      rw [listed, stage]
      exact List.mem_cons_self
    obtain ⟨known, superseded⟩ := maintains.known here
    split at step
    · cases step
      obtain ⟨working, exchanged, thinned⟩ := maintains
      have unlinked := thinned.archived.unlink superseded known
      have exchanged' : m.life.onLog { m.life.wal with disk := m.life.wal.disk.unlink fileId } =
          s.onLog { m.life.wal with disk := m.life.wal.disk.unlink fileId } := by
        generalize m.life.wal = w at exchanged ⊢
        rw [exchanged]
        rfl
      refine ⟨insert fileId gone, working, exchanged', ⟨unlinked.list (fun other member => ?_)
        fun other member => ?_, fun other none => (by cases none), fun other aside => ?_⟩⟩
      · exact unlinked.kept other (Or.inr (List.mem_append_right _ member))
      · exact unlinked.superseded other (Or.inr (List.mem_append_right _ member))
      · rcases aside with removed | none
        · rcases Finset.mem_insert.mp removed with same | old
          · exact thinned.finished other (Or.inr (by rw [stage, same]; rfl))
          · exact thinned.finished other (Or.inl old)
        · cases none
    · cases step
      exact ⟨gone, maintains.relist m.queue .looking _
        (fun other member => maintains.known (List.mem_append_right _ member))
        fun other none => by cases none⟩
  · cases step

theorem first_maintains (json : Json) (maxMemtableSize cacheCapacity : Nat) :
    Maintains json ∅ (Lifetime.first maxMemtableSize cacheCapacity)
      (first maxMemtableSize cacheCapacity) := by
  have closed : Wal.Linked ∅ (Lifetime.first maxMemtableSize cacheCapacity).wal :=
    ⟨fun _ _ opened => (by cases opened), fun _ _ opened => (by cases opened)⟩
  refine ⟨Lifetime.first_working json maxMemtableSize cacheCapacity, rfl, ⟨?_, ?_, ?_⟩⟩
  · exact ⟨rfl, rfl, rfl, rfl, fun _ _ => rfl, fun _ none => (by cases none),
      fun _ none => (by rcases none with ⟨⟨⟩⟩ | ⟨⟨⟩⟩),
      fun _ none => (by rcases none with ⟨⟨⟩⟩ | ⟨⟨⟩⟩), closed, closed⟩
  · exact fun _ none => by cases none
  · exact fun _ none => by rcases none with ⟨⟨⟩⟩ | ⟨⟨⟩⟩

/-- What was handed to the writer stays so. -/
theorem perform_swapped {e : Event} (step : Step json m e m') :
    m.life.log.swapped <+: m'.life.log.swapped := by
  cases e with
  | life e =>
      obtain ⟨life, performed, rfl⟩ := Option.map_eq_some_iff.mp step
      have kept := Lifetime.perform_swapped performed
      cases e <;> exact kept
  | scan activeFlushes =>
      change m.scan activeFlushes = some m' at step
      unfold Maintained.scan at step
      split at step
      · split at step
        · cases step
          exact List.prefix_rfl
        · cases step
          exact List.prefix_rfl
      · cases step
  | examine =>
      change m.examine = some m' at step
      unfold Maintained.examine at step
      split at step
      · cases step
        exact List.prefix_rfl
      · cases step
  | compress succeeds =>
      change m.compress succeeds = some m' at step
      unfold Maintained.compress at step
      split at step
      · split at step
        · cases step
          exact List.prefix_rfl
        · split at step
          · cases step
            exact List.prefix_rfl
          · cases step
            exact List.prefix_rfl
      · cases step
  | remove succeeds =>
      change m.remove succeeds = some m' at step
      unfold Maintained.remove at step
      split at step
      · dsimp only at step
        split at step
        · cases step
          exact List.prefix_rfl
        · cases step
          exact List.prefix_rfl
      · cases step

/-- What the processes are allowed does not depend on their log files. -/
def Blind (allowed : Lifetime → Lifetime.Event → Prop) : Prop :=
  ∀ s wal e, wal.globalTxId = s.wal.globalTxId → allowed (s.onLog wal) e → allowed s e

variable {allowed : Lifetime → Lifetime.Event → Prop}

/-- A step of the thread is none of the processes, and theirs are the same without it. -/
theorem simulates (blind : Blind allowed) (ordinary : ∀ s e, allowed s e → s.Ordinary json e) :
    Simulates (Guarded (Lifetime.Step json) allowed)
      (fun m e m' => Guarded (Step json) (Careful allowed) m e m' ∧ m'.life.log.Fits)
      Event.visible (fun s m => ∃ gone, Maintains json gone s m) := by
  constructor
  · rintro s m e e' m' ⟨gone, maintains⟩ ⟨⟨step, careful⟩, fits⟩ visible
    cases e' with
    | life e' =>
        cases visible
        obtain ⟨t, taken, later⟩ := maintains.live (ordinary _ _ careful) step fits
        have counter : m.life.wal.globalTxId = s.wal.globalTxId :=
          maintains.thinned.archived.globalTxId.trans
            (congrArg Wal.globalTxId maintains.working.logging.wal)
        refine ⟨t, ⟨taken, blind s m.life.wal e counter ?_⟩, gone, later⟩
        rw [← maintains.life]
        exact careful
    | _ => cases visible
  · rintro s m e m' ⟨gone, maintains⟩ ⟨⟨step, careful⟩, _⟩ silent
    cases e with
    | life e => cases silent
    | scan activeFlushes => exact ⟨gone, maintains.scan step⟩
    | examine => exact ⟨gone, maintains.examine careful step⟩
    | compress succeeds => exact ⟨gone, maintains.compress step⟩
    | remove succeeds => exact maintains.remove step

/-- A run beside the thread is one without it. -/
theorem run_maintains {maxMemtableSize cacheCapacity : Nat} {events : List Event}
    (blind : Blind allowed) (ordinary : ∀ s e, allowed s e → s.Ordinary json e)
    (run : Run (Guarded (Step json) (Careful allowed)) (first maxMemtableSize cacheCapacity)
      events m) (fits : m.life.log.Fits) :
    ∃ s, Run (Guarded (Lifetime.Step json) allowed)
        (Lifetime.first maxMemtableSize cacheCapacity) (events.filterMap Event.visible) s ∧
      ∃ gone, Maintains json gone s m :=
  (simulates blind ordinary).run (run.throughout (P := fun m => m.life.log.Fits) fits
      fun _ _ _ taken fits => fits.before (perform_swapped taken.1))
    ⟨∅, first_maintains json maxMemtableSize cacheCapacity⟩

theorem ordinary_blind (json : Json) : Blind (Lifetime.Ordinary json) :=
  fun _ _ e _ allowed => by cases e <;> exact allowed

theorem allowed_blind (json : Json) : Blind (Lifetime.Allowed json) := by
  intro s wal e counter allowed
  cases e with
  | work e =>
      obtain ⟨free, inTurn, homed⟩ := allowed
      have counter' : (s.log.onLog wal).wal.globalTxId = s.store.router.wal.globalTxId := counter
      refine ⟨?_, fun name entries txIds acted => inTurn name entries txIds ?_, homed⟩
      · have table (name : String) : (s.onLog wal).store.router.table name =
            s.store.router.table name := s.store.router.onLog_table wal name
        unfold Store.Unblocked at free ⊢
        simp only [table] at free
        exact free
      · exact (Store.onLog_actOn json s.store counter' name e).trans acted
  | preAllocate fileId => trivial
  | reopen maxMemtableSize cacheCapacity =>
      intro name e member
      have site : (s.onLog wal).store.site name = s.store.site name := s.store.onLog_site wal name
      have held := allowed name e
      rw [site] at held
      exact held member

/-- What is allowed where reads last is ordinary. -/
theorem Careful.ordinary {e : Event} (careful : m.Careful (Lifetime.Allowed json) e) :
    m.Careful (Lifetime.Ordinary json) e := by
  cases e with
  | life e => exact Lifetime.Allowed.ordinary careful
  | _ => exact careful

/-- A record is written, its file is followed by an empty one, and the next process recovers
it. Then the thread finds the file completed and archives it. -/
def archivedOnce : List Event :=
  [.life (.work (.set 0 "t" "t:a" (.str "x")))] ++
    ([.life (.work (.writer fun _ => 0)), .life (.preAllocate 1)] ++
      ([.life (.reopen 2 1), .scan 0] ++ ([.examine] ++ [.compress true, .remove true])))

theorem archived_once : ∃ m,
    Run (Guarded (Step wordJson) (Careful (Lifetime.Allowed wordJson))) (first 2 1) archivedOnce m ∧
      m.archives.map Prod.fst = [0] ∧ m.life.log.swapped = Lifetime.oneRecord := by
  have outcome : (play (perform wordJson) (first 2 1)
      [.life (.work (.set 0 "t" "t:a" (.str "x")))]).bind (fun a =>
      (play (perform wordJson) a [.life (.work (.writer fun _ => 0)), .life (.preAllocate 1)]).bind
      fun b => (play (perform wordJson) b [.life (.reopen 2 1), .scan 0]).bind
      fun c => (play (perform wordJson) c [.examine]).bind
      fun d => (play (perform wordJson) d [.compress true, .remove true]).map
      fun m => decide (b.life.replayed = [] ∧ c.queue = [0] ∧
        c.life.log.next / Wal.walCapacity = 1 ∧ m.archives.map Prod.fst = [0] ∧
          m.life.log.swapped = Lifetime.oneRecord)) = some true := by decide +kernel
  obtain ⟨a, written, outcome⟩ := Option.bind_eq_some_iff.mp outcome
  obtain ⟨b, flushed, outcome⟩ := Option.bind_eq_some_iff.mp outcome
  obtain ⟨c, reopened, outcome⟩ := Option.bind_eq_some_iff.mp outcome
  obtain ⟨d, examined, outcome⟩ := Option.bind_eq_some_iff.mp outcome
  obtain ⟨m, removed, outcome⟩ := Option.map_eq_some_iff.mp outcome
  obtain ⟨replayed, queue, next, archives, swapped⟩ := of_decide_eq_true outcome
  refine ⟨m, ?_, archives, swapped⟩
  have first_step : Run (Guarded (Step wordJson) (Careful (Lifetime.Allowed wordJson))) (first 2 1)
      [.life (.work (.set 0 "t" "t:a" (.str "x")))] a := by
    obtain ⟨a', taken, same⟩ := Option.bind_eq_some_iff.mp written
    cases same
    refine Run.cons ⟨taken, trivial, ?_, by decide, ⟨_, rfl, by rfl⟩⟩ (Run.nil _)
    rintro name entries txIds _ new _ client w ⟨_, _, _, at_log, _⟩
    cases at_log
  have second : Run (Guarded (Step wordJson) (Careful (Lifetime.Allowed wordJson))) a
      [.life (.work (.writer fun _ => 0)), .life (.preAllocate 1)] b :=
    play_guarded flushed fun e member u => by
      rcases List.mem_cons.mp member with rfl | later
      · exact ⟨trivial, fun name entries txIds acted => (by cases acted), trivial⟩
      · rw [List.mem_singleton.mp later]
        trivial
  have third : Run (Guarded (Step wordJson) (Careful (Lifetime.Allowed wordJson))) b
      [.life (.reopen 2 1), .scan 0] c := by
    obtain ⟨b', taken, rest⟩ := Option.bind_eq_some_iff.mp reopened
    have died := Lifetime.reflushed_of_unreplayed wordJson replayed
    refine Run.cons ⟨taken, died⟩ (play_guarded rest fun e member u => ?_)
    rw [List.mem_singleton.mp member]
    trivial
  have fourth : Run (Guarded (Step wordJson) (Careful (Lifetime.Allowed wordJson))) c
      [.examine] d := by
    obtain ⟨d', taken, same⟩ := Option.bind_eq_some_iff.mp examined
    cases same
    refine Run.cons ⟨taken, fun fileId rest listed _ => ?_⟩ (Run.nil _)
    rw [queue] at listed
    cases listed
    rw [next]
    exact Nat.one_pos
  have last : Run (Guarded (Step wordJson) (Careful (Lifetime.Allowed wordJson))) d
      [.compress true, .remove true] m :=
    play_guarded removed fun e member u => by
      rcases List.mem_cons.mp member with rfl | later
      · trivial
      · rw [List.mem_singleton.mp later]
        trivial
  exact first_step.append (second.append (third.append (fourth.append last)))
/-- The thread changes nothing for the processes but which log files there are. -/
theorem checkpoint_invisible (json : Json) {maxMemtableSize cacheCapacity : Nat}
    {events : List Event} {m : Maintained}
    (run : Run (Guarded (Step json) (Careful (Lifetime.Ordinary json)))
      (first maxMemtableSize cacheCapacity) events m) (fits : m.life.log.Fits) :
    ∃ s, Run (Guarded (Lifetime.Step json) (Lifetime.Ordinary json))
        (Lifetime.first maxMemtableSize cacheCapacity) (events.filterMap Event.visible) s ∧
      m.life = s.onLog m.life.wal ∧ m.life.wal.walBuffer = s.wal.walBuffer ∧
      Wal.readWal m.life.wal.disk = Wal.readWal s.wal.disk := by
  obtain ⟨s, plain, gone, maintains⟩ :=
    run_maintains (ordinary_blind json) (fun _ _ => id) run fits
  have logging := maintains.working.logging
  have read := maintains.thinned.readWal logging.inOrder
  have buffer := maintains.thinned.archived.walBuffer
  rw [logging.wal] at read buffer
  exact ⟨s, plain, maintains.life, buffer, read⟩

/-- The file that has been archived had the record of the first process. -/
theorem checkpoint_invisible_once : ∃ m s,
    Run (Guarded (Step wordJson) (Careful (Lifetime.Ordinary wordJson))) (first 2 1)
      archivedOnce m ∧ m.archives.map Prod.fst = [0] ∧
    Run (Guarded (Lifetime.Step wordJson) (Lifetime.Ordinary wordJson)) (Lifetime.first 2 1)
      (archivedOnce.filterMap Event.visible) s ∧
    m.life = s.onLog m.life.wal ∧ Wal.readWal m.life.wal.disk = Wal.readWal s.wal.disk := by
  obtain ⟨m, allowed, archives, swapped⟩ := archived_once
  have run : Run (Guarded (Step wordJson) (Careful (Lifetime.Ordinary wordJson))) (first 2 1)
      archivedOnce m :=
    allowed.mono fun _ _ _ taken => ⟨taken.1, Careful.ordinary taken.2⟩
  obtain ⟨s, plain, life, _, read⟩ :=
    checkpoint_invisible wordJson run (Lifetime.oneRecord_fits swapped)
  exact ⟨m, s, run, archives, plain, life, read⟩

/-- Also where the thread archives files, what was logged can be found again. -/
theorem archiving_loses_nothing (json : Json) {maxMemtableSize cacheCapacity : Nat}
    {events : List Event} {m : Maintained}
    (run : Run (Guarded (Step json) (Careful (Lifetime.Ordinary json)))
      (first maxMemtableSize cacheCapacity) events m) (fits : m.life.log.Fits) :
    ∀ call ∈ m.life.recent, call.2.record ∈ m.life.wal.walBuffer ∨
      call.2.record ∈ (Wal.readWal m.life.wal.disk).records ∨
      (m.life.store.site call.1).Remembers call.2 := by
  obtain ⟨s, _, gone, maintains⟩ :=
    run_maintains (ordinary_blind json) (fun _ _ => id) run fits
  have logging := maintains.working.logging
  have read := maintains.thinned.readWal logging.inOrder
  have buffer := maintains.thinned.archived.walBuffer
  rw [logging.wal] at read buffer
  intro call recent
  have site : m.life.store.site call.1 = s.store.site call.1 := by
    rw [maintains.life]
    exact s.store.onLog_site _ _
  rw [maintains.life] at recent
  rw [buffer, read, site]
  exact maintains.working.recoverable call recent

/-- A record is written, its file is followed by an empty one, and the next process recovers it
and writes another, which goes to the second file. -/
def writtenTwice : List Event :=
  [.life (.work (.set 0 "t" "t:a" (.str "x"))), .life (.work (.writer fun _ => 0)),
    .life (.preAllocate 1), .life (.reopen 2 1), .life (.work (.set 0 "t" "t:b" (.str "y"))),
    .life (.work (.writer fun _ => 0)), .scan 0]

/-- The thread archives the first file. The record of the running process is in the other. -/
theorem archiving_loses_nothing_once : ∃ m call,
    Run (Guarded (Step wordJson) (Careful (Lifetime.Ordinary wordJson))) (first 2 1)
      (writtenTwice ++ [.examine] ++ [.compress true, .remove true]) m ∧
    m.archives.map Prod.fst = [0] ∧ m.life.recent = [call] ∧ m.life.wal.walBuffer = [] ∧
    (call.2.record ∈ m.life.wal.walBuffer ∨
      call.2.record ∈ (Wal.readWal m.life.wal.disk).records ∨
      (m.life.store.site call.1).Remembers call.2) := by
  have outcome : (play (perform wordJson) (first 2 1) writtenTwice).bind (fun c =>
      (c.perform wordJson .examine).bind fun d =>
      (play (perform wordJson) d [.compress true, .remove true]).map fun m =>
        decide (c.queue = [0] ∧ c.life.log.next / Wal.walCapacity = 1 ∧
          m.archives.map Prod.fst = [0] ∧ m.life.recent.length = 1 ∧ m.life.wal.walBuffer = [] ∧
          Wal.payloadBytes m.life.log.swapped ≤ Wal.payloadAreaSize ∧
          ∀ r ∈ m.life.log.swapped, Wal.validateTxId (r.1 + Wal.walCapacity) = .ok ())) =
      some true := by decide +kernel
  obtain ⟨c, played, outcome⟩ := Option.bind_eq_some_iff.mp outcome
  obtain ⟨d, examined, outcome⟩ := Option.bind_eq_some_iff.mp outcome
  obtain ⟨m, removed, outcome⟩ := Option.map_eq_some_iff.mp outcome
  obtain ⟨queue, next, archives, one, buffer, small, ids⟩ := of_decide_eq_true outcome
  have before : Run (Guarded (Step wordJson) (Careful (Lifetime.Ordinary wordJson))) (first 2 1)
      writtenTwice c :=
    play_guarded played fun e member u => by
      simp only [writtenTwice, List.mem_cons, List.not_mem_nil, or_false] at member
      rcases member with rfl | rfl | rfl | rfl | rfl | rfl | rfl
      · exact ⟨_, rfl, by rfl⟩
      · trivial
      · trivial
      · trivial
      · exact ⟨_, rfl, by rfl⟩
      · trivial
      · trivial
  have spares : c.Spares .examine := by
    intro fileId rest listed _
    rw [queue] at listed
    cases listed
    rw [next]
    exact Nat.one_pos
  have after : Run (Guarded (Step wordJson) (Careful (Lifetime.Ordinary wordJson))) d
      [.compress true, .remove true] m :=
    play_guarded removed fun e member u => by
      rcases List.mem_cons.mp member with rfl | later
      · trivial
      · rw [List.mem_singleton.mp later]
        trivial
  have run := (before.snoc ⟨examined, spares⟩).append after
  obtain ⟨call, recent⟩ := List.length_eq_one_iff.mp one
  exact ⟨m, call, run, archives, recent, buffer,
    archiving_loses_nothing wordJson run (Lifetime.fits_of_small small ids) call
      (recent ▸ List.mem_singleton_self call)⟩

/-- Also where the thread archives files, a key reads as a write that no lasting write of the
key is newer than, and what the cache has for the key is the same. -/
theorem reads_outlive_archiving (json : Json) {maxMemtableSize cacheCapacity : Nat}
    (room : 0 < cacheCapacity) {events : List Event} {m : Maintained}
    (run : Run (Guarded (Step json) (Careful (Lifetime.Allowed json)))
      (first maxMemtableSize cacheCapacity) events m) (fits : m.life.log.Fits)
    (name key : String) :
    ∃ answer : Option Entry, (∀ e ∈ answer, e.key = key) ∧
      Chronicle.UpToDate (m.life.Lasting name key) m.life.history
        (answer.map fun e => (name, e)) ∧
      (m.life.store.router.getLocked json name key).1 = .ok (Lifetime.worth answer) ∧
      ∀ held, (m.life.store.router.getCached name key).1 = .ok (some held) →
        held = Lifetime.worth answer := by
  obtain ⟨s, plain, gone, maintains⟩ := run_maintains (allowed_blind json)
    (fun _ _ => Lifetime.Allowed.ordinary) run fits
  have exchanged := maintains.life
  generalize m.life.wal = w at exchanged
  rw [exchanged] at fits ⊢
  have durable := Lifetime.run_durable room plain ⟨fits.room, fits.ids⟩
  obtain ⟨answer, own, current, locked, cached⟩ := durable.reads name key
  have lasting : (s.onLog w).Lasting name key = s.Lasting name key := by
    funext call
    exact propext ⟨fun l => ⟨l.table, l.key, l.logged, l.entered⟩,
      fun l => ⟨l.table, l.key, l.logged, l.entered⟩⟩
  have locked' := congrArg Prod.fst (s.store.router.onLog_getLocked w name key json)
  have cached' := congrArg Prod.fst (s.store.router.onLog_getCached w name key)
  exact ⟨answer, own, lasting ▸ current, locked'.trans locked,
    fun held hit => cached held (cached'.symm.trans hit)⟩

/-- The record of the file that has been archived is read. -/
theorem reads_outlive_archiving_once : ∃ m, ∃ answer : Option Entry,
    Run (Guarded (Step wordJson) (Careful (Lifetime.Allowed wordJson))) (first 2 1)
      archivedOnce m ∧ m.archives.map Prod.fst = [0] ∧
    Chronicle.UpToDate (m.life.Lasting "t" "t:a") m.life.history
      (answer.map fun e => ("t", e)) ∧
    (m.life.store.router.getLocked wordJson "t" "t:a").1 = .ok (Lifetime.worth answer) := by
  obtain ⟨m, run, archives, swapped⟩ := archived_once
  obtain ⟨answer, _, current, locked, _⟩ := reads_outlive_archiving wordJson (by decide) run
    (Lifetime.oneRecord_fits swapped) "t" "t:a"
  exact ⟨m, answer, run, archives, current, locked⟩

end

end Maintained

end CachyDb.Database
