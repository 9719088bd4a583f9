import CachyDb.Storage.Marked
import CachyDb.Storage.Orderly
import CachyDb.Wal.Atomicity

set_option autoImplicit false

/-! The log under the router: a step of the router is at most one step of the log, taken on
the same buffer and the same files. -/

namespace CachyDb

open ByteString Transition

namespace Wal.Log

/-- The log after an event. A directory that cannot be opened is left alone. -/
def after (log : Log) : Event → Log
  | .append payload => log.append payload
  | .appendMany payloads => log.appendMany payloads
  | .flush clock => log.flush clock
  | .preAllocate fileId => log.preAllocate fileId
  | .mark txIds => log.mark txIds
  | .restart =>
      match openWal log.wal.disk with
      | .ok opened => log.restart opened
      | .error _ => log

/-- Where an event is possible, its step leads there. -/
def Possible (log : Log) : Event → Prop
  | .preAllocate fileId => fileId ∈ log.wal.preallocating
  | .mark txIds => ∀ txId ∈ txIds, txId < log.wal.globalTxId
  | .restart => ∃ opened, openWal log.wal.disk = .ok opened
  | _ => True

theorem step_after {log : Log} {e : Event} (possible : log.Possible e) :
    Step log e (log.after e) := by
  cases e with
  | append payload => exact .append log payload
  | appendMany payloads => exact .appendMany log payloads
  | flush clock => exact .flush log clock
  | preAllocate fileId => exact .preAllocate log fileId possible
  | mark txIds => exact .mark log txIds possible
  | restart =>
      obtain ⟨opened, reopened⟩ := possible
      have done := Step.restart log opened reopened
      simpa only [after, reopened] using done

/-- Every record that left the buffer has been written. -/
structure Whole (s : Log) : Prop where
  nothingLost : s.lost = []
  all : s.written = s.swapped

/-- Which ids were handed out does not matter for the files. -/
theorem InOrder.assign {s : Log} (inv : InOrder s) (assigned : List Nat) :
    InOrder { s with assigned := assigned } :=
  ⟨inv.settled, inv.counter, inv.ids, inv.payloads, inv.lostBefore, inv.aligned, inv.pending,
    inv.markedBelow, inv.ramBelow, inv.targets⟩

theorem Whole.flush {s : Log} (inv : InOrder s) (whole : Whole s) (clock : Nat → Nat)
    (fits : Fits (s.flush clock)) : InOrder (s.flush clock) ∧ Whole (s.flush clock) := by
  let ids := (s.swapped ++ s.wal.walBuffer).map Prod.fst
  have complete : Complete { s with assigned := ids } := ⟨whole.nothingLost, whole.all, rfl⟩
  obtain ⟨valid, behind, complete'⟩ := complete.flush (inv.assign ids) clock
    ⟨fits.room, fits.ids⟩
  exact ⟨inv.flush clock valid behind, complete'.nothingLost, complete'.all⟩

theorem whole_step {s t : Log} {e : Event} (inv : InOrder s) (whole : Whole s)
    (step : Step s e t) (nonempty : e.NonEmpty) (fits : Fits t) : InOrder t ∧ Whole t := by
  cases step with
  | append payload => exact ⟨inv.append payload nonempty, whole.nothingLost, whole.all⟩
  | appendMany payloads => exact ⟨inv.appendMany payloads nonempty, whole.nothingLost, whole.all⟩
  | flush clock => exact whole.flush inv clock fits
  | preAllocate fileId started =>
      exact ⟨inv.preAllocate fileId started, whole.nothingLost, whole.all⟩
  | mark txIds passed => exact ⟨inv.mark txIds passed, whole.nothingLost, whole.all⟩
  | restart opened reopened => exact ⟨inv.restart opened reopened, rfl, whole.all⟩

/-- What fits in the files fitted before more was handed to the writer. -/
theorem Fits.before {s t : Log} (fits : Fits t) (more : s.swapped <+: t.swapped) : Fits s := by
  obtain ⟨back, whole⟩ := more
  refine ⟨fun fileId => ?_, fun r member => fits.ids r ?_⟩
  · have room := fits.room fileId
    rw [← whole, fileRecords_append, payloadBytes_append] at room
    omega
  · rw [← whole]
    exact List.mem_append_left _ member

/-- All records that were handed to the log, in the order of their ids. -/
def records (s : Log) : List Record := s.swapped ++ s.wal.walBuffer

/-- The ids of all these records go up. -/
theorem InOrder.ascending {s : Log} (inv : InOrder s) (whole : Whole s) :
    (s.records.map Prod.fst).Pairwise (· < ·) := by
  have ascending := inv.settled.disk.ascending
  rw [whole.all] at ascending
  rw [records, List.map_append, List.pairwise_append, inv.ids]
  refine ⟨ascending, List.pairwise_lt_range', fun txId old txId' new => ?_⟩
  obtain ⟨r, member, rfl⟩ := List.mem_map.mp old
  have before := inv.settled.before r (whole.all ▸ member)
  have after := List.mem_range'_1.mp new
  omega

end Wal.Log

namespace Wal

theorem flushBuffer_empty (w : Wal) (clock : Nat → Nat) :
    (flushBuffer clock w).2.2.walBuffer = [] := by
  by_cases empty : w.walBuffer = []
  · simp only [flushBuffer, swapBuffer, writeBufferToDisk, empty, ↓reduceIte]
  · simp only [flushBuffer, swapBuffer, writeBufferToDisk, empty, ↓reduceIte]
    exact (writeBatches_queue _ _ _ _).walBuffer

end Wal

namespace Site

/-- A flush works on a memtable that was written, one entry after the other. -/
def Traced (s : Site) : Prop := ∀ task ∈ s.tasks, task.entries <:+: s.written

theorem Traced.written {s : Site} (traced : s.Traced) {task : Task} (member : task ∈ s.tasks)
    {e : Entry} (inside : e ∈ task.entries) : e ∈ s.written := (traced task member).subset inside

theorem Traced.putTask {s s' : Site} (traced : s.Traced) {i : Nat} {task task' : Task}
    (known : s.tasks[i]? = some task) (tasks : s'.tasks = s.tasks.set i task')
    (entries : task'.entries = task.entries) (written : s'.written = s.written) : s'.Traced := by
  intro other member
  rw [written]
  rw [tasks] at member
  rcases List.mem_or_eq_of_mem_set member with old | new
  · exact traced other old
  · rw [new, entries]
    exact traced task (List.mem_of_getElem? known)

theorem Traced.act {s : Site} (traced : s.Traced) (sound : s.Sound) {act : Act}
    (valid : act.Valid s) : (s.act act).Traced := by
  cases act with
  | stay => exact traced
  | load h => exact traced
  | enter entries txIds =>
      obtain ⟨tasks, _, written, _⟩ := s.enterAll_frame entries
      intro task member
      show task.entries <:+: (entries.foldl Site.enter s).written
      rw [written]
      have old : task ∈ s.tasks := by
        rw [← tasks]
        exact member
      exact (traced task old).trans (List.suffix_append _ _).isInfix
  | swap =>
      intro task member
      rcases List.mem_append.mp member with old | new
      · exact traced task old
      · rw [List.mem_singleton.mp new]
        exact List.nil_infix
  | raise i task => exact traced.putTask valid.1 rfl rfl rfl
  | advance i task =>
      have known : s.tasks[i]? = some task := valid
      have member := List.mem_of_getElem? known
      show (s.advance i task).Traced
      unfold advance
      split
      · intro other inside
        rcases List.mem_or_eq_of_mem_set inside with old | new
        · exact traced other old
        · rw [new]
          unfold begin
          split
          · exact traced task member
          · obtain ⟨older, whole⟩ := sound.history
            show s.immutable <:+: s.written
            rw [whole, ← List.append_assoc]
            exact ⟨s.active, older, rfl⟩
      · exact traced.putTask known rfl rfl rfl
      · exact traced.putTask known rfl rfl rfl
      · exact traced.putTask known rfl rfl rfl
      · exact traced.putTask known rfl rfl rfl
      · exact traced.putTask known rfl rfl rfl
      · have keeps := ((sound.tasks task member).fill sound.coherent).2.2
        exact traced.putTask known rfl keeps.entries rfl

end Site

namespace Store

/-- What a step of the router is for the log. -/
def logEvent (json : Json) (s : Store) : Event → Option Wal.Log.Event
  | .set _ _ key value =>
      match packRecord json key value with
      | .ok packed => some (.append packed)
      | .error _ => none
  | .append _ _ records =>
      match Router.packRecords json records with
      | .ok packedRecords => some (.appendMany (packedRecords.map Prod.snd))
      | .error _ => none
  | .flush name i => some (.mark (s.marks name i))
  | .writer clock => some (.flush clock)
  | _ => none

/-- The log after a step of the router. -/
def follow (json : Json) (s : Store) (log : Wal.Log) (e : Event) : Wal.Log :=
  match s.logEvent json e with
  | some event => log.after event
  | none => log

/-- The records that a step hands to the log. -/
def loggedRecords (json : Json) (s : Store) : Event → List Wal.Record
  | .set _ _ key value =>
      match packRecord json key value with
      | .ok packed => [(s.router.wal.globalTxId, packed)]
      | .error _ => []
  | .append _ _ records =>
      match Router.packRecords json records with
      | .ok packedRecords => Wal.callRecords s.router.wal (packedRecords.map Prod.snd)
      | .error _ => []
  | _ => []

/-- The ids that a memtable holds have been handed out. -/
def Below (s : Store) : Prop :=
  ∀ name, ∀ e ∈ (s.site name).written, e.txId < s.router.wal.globalTxId

section Steps

variable {json : Json} {s t : Store} {e : Event} {log : Wal.Log}

/-- A flush marks ids of records that entered its memtable. -/
theorem marks_entered (sound : s.Sound json) {name : String} {i txId : Nat}
    (marked : txId ∈ s.marks name i) : ∃ task, (s.shelves name).tasks[i]? = some task ∧
      task.phase = .marking ∧ ∃ entry ∈ task.entries, entry.txId = txId := by
  unfold marks at marked
  split at marked
  · cases marked
  · rename_i task known
    split at marked
    · rename_i marking
      have sourced := ((sound.sites name).tasks task (List.mem_of_getElem? known)).sourced
        (by rw [marking]; decide)
      exact ⟨task, known, marking, sourced.txIds txId marked⟩
    · cases marked

theorem set_wal (formed : s.router.cache.WellFormed) {client : Nat} {name key : String}
    {value : Value} (done : s.set json client name key value = some t) :
    ∃ packed, packRecord json key value = .ok packed ∧
      t.router.wal = (s.router.wal.appendToBuffer packed).2 := by
  unfold set at done
  split at done
  · rename_i packed _ packs
    split at done
    · cases done
    · cases done
      obtain ⟨r', locked, _, kept, _⟩ := s.router.setLocked_spec formed name
        ⟨s.router.wal.globalTxId, key, value, packed⟩ rfl
      dsimp only at locked
      rw [locked]
      exact ⟨packed, packs, kept.wal⟩
  · cases done

theorem append_wal {client : Nat} {name : String} {records : List (String × Value)}
    (done : s.append json client name records = some t) :
    ∃ packedRecords, Router.packRecords json records = .ok packedRecords ∧
      t.router.wal = (s.router.wal.appendManyToBuffer (packedRecords.map Prod.snd)).2 := by
  unfold append at done
  split at done
  · rename_i packedRecords _ packs
    split at done
    · cases done
    · cases done
      exact ⟨packedRecords, packs, rfl⟩
  · cases done

/-- The other steps leave the log alone. -/
theorem quiet_wal (sound : s.Sound json) (step : Step json s e t)
    (quiet : s.logEvent json e = none) : t.router.wal = s.router.wal := by
  cases e with
  | set client name key value =>
      obtain ⟨packed, packs, _⟩ := set_wal sound.cache step
      simp only [logEvent, packs] at quiet
      cases quiet
  | append client name records =>
      obtain ⟨packedRecords, packs, _⟩ := append_wal step
      simp only [logEvent, packs] at quiet
      cases quiet
  | insertMany client =>
      unfold Step perform insertMany at step
      dsimp only at step
      split at step
      · rename_i name records packedRecords txIds at_log
        cases step
        obtain ⟨packing, first, range, _⟩ :=
          sound.pending client name records packedRecords txIds at_log
        obtain ⟨packs, _⟩ := packRecords_spec packing
        have ids : txIds.length = records.length := by
          rw [range, List.length_range']
        exact (s.router.setManyLocked_spec sound.cache name packs ids).2.1.wal
      · cases step
  | check client =>
      unfold Step perform check at step
      dsimp only at step
      split at step
      · split at step
        · cases step
          rfl
        · split at step
          · cases step
            rfl
          · cases step
            rfl
      · cases step
  | wake client =>
      unfold Step perform wake at step
      dsimp only at step
      split at step
      · split at step
        · cases step
        · split at step
          · cases step
            rfl
          · split at step
            · cases step
              rfl
            · cases step
      · cases step
  | swap client =>
      unfold Step perform swap at step
      dsimp only at step
      split at step
      · rename_i name _
        cases step
        exact (s.router.swapLocked_spec name).2.2.1
      · cases step
  | getCached name key =>
      cases step
      obtain ⟨counted, got, _⟩ := sound.cache.get (name, key)
      show (s.router.getCached name key).2.wal = s.router.wal
      rw [Router.getCached, got]
      dsimp only
      split
      · rfl
      · rfl
  | getLocked name key =>
      cases step
      exact (s.router.getLocked_spec json sound.cache name key).keeps.wal
  | flush name i => cases quiet
  | raise name i =>
      unfold Step perform raise at step
      dsimp only at step
      split at step
      · cases step
      · split at step
        · cases step
        · cases step
          rfl
  | writer clock => cases quiet

/-- The log takes the step that the router takes on it. -/
theorem follow_wal (sound : s.Sound json) (step : Step json s e t)
    (same : log.wal = s.router.wal) : (s.follow json log e).wal = t.router.wal := by
  cases quiet : s.logEvent json e with
  | none =>
      rw [follow, quiet, quiet_wal sound step quiet]
      exact same
  | some event =>
      rw [follow, quiet]
      cases e with
      | set client name key value =>
          obtain ⟨packed, packs, wal⟩ := set_wal sound.cache step
          simp only [logEvent, packs, Option.some.injEq] at quiet
          rw [wal, ← quiet, ← same]
          rfl
      | append client name records =>
          obtain ⟨packedRecords, packs, wal⟩ := append_wal step
          simp only [logEvent, packs, Option.some.injEq] at quiet
          rw [wal, ← quiet, ← same]
          rfl
      | flush name i =>
          cases quiet
          rw [flush_wal step, ← same]
          rfl
      | writer clock =>
          cases quiet
          cases step
          show (Wal.flushBuffer clock log.wal).2.2 = (s.router.wal.flushBuffer clock).2.2
          rw [same]
      | _ => cases quiet

/-- What the router does to its log, the log can do. -/
theorem follow_possible (sound : s.Sound json) (below : s.Below)
    (traced : ∀ name, (s.site name).Traced) (same : log.wal = s.router.wal)
    {event : Wal.Log.Event} (event_of : s.logEvent json e = some event) : log.Possible event := by
  cases e with
  | set client name key value =>
      cases packs : packRecord json key value with
      | ok packed =>
          simp only [logEvent, packs, Option.some.injEq] at event_of
          rw [← event_of]
          trivial
      | error _ => simp only [logEvent, packs, reduceCtorEq] at event_of
  | append client name records =>
      cases packs : Router.packRecords json records with
      | ok packedRecords =>
          simp only [logEvent, packs, Option.some.injEq] at event_of
          rw [← event_of]
          trivial
      | error _ => simp only [logEvent, packs, reduceCtorEq] at event_of
  | flush name i =>
      cases event_of
      intro txId marked
      obtain ⟨task, known, _, entry, member, id⟩ := marks_entered sound marked
      rw [same, ← id]
      exact below name entry ((traced name).written (List.mem_of_getElem? known) member)
  | writer clock =>
      cases event_of
      trivial
  | _ => cases event_of

/-- The log grows by what the step hands to it. -/
theorem follow_records (sound : s.Sound json) (step : Step json s e t)
    (same : log.wal = s.router.wal) :
    (s.follow json log e).records = log.records ++ s.loggedRecords json e := by
  have quietly (quiet : s.logEvent json e = none) (nothing : s.loggedRecords json e = []) :
      (s.follow json log e).records = log.records ++ s.loggedRecords json e := by
    rw [follow, quiet, nothing, List.append_nil]
  cases e with
  | set client name key value =>
      obtain ⟨packed, packs, _⟩ := set_wal sound.cache step
      simp only [follow, logEvent, loggedRecords, packs, Wal.Log.after, Wal.Log.records,
        Wal.Log.append, Wal.appendToBuffer, same, List.append_assoc]
  | append client name records =>
      obtain ⟨packedRecords, packs, _⟩ := append_wal step
      simp only [follow, logEvent, loggedRecords, packs, Wal.Log.after, Wal.Log.records,
        Wal.Log.appendMany, Wal.appendMany_buffer, same, List.append_assoc]
  | flush name i =>
      rw [show s.loggedRecords json (.flush name i) = [] from rfl, List.append_nil]
      show log.swapped ++ (log.wal.markManyJobsComplete (s.marks name i)).walBuffer = log.records
      rw [(Wal.markMany_queue _ _).walBuffer]
      rfl
  | writer clock =>
      rw [show s.loggedRecords json (.writer clock) = [] from rfl, List.append_nil]
      show (log.swapped ++ log.wal.walBuffer) ++ (log.wal.flushBuffer clock).2.2.walBuffer =
        log.records
      rw [Wal.flushBuffer_empty, List.append_nil]
      rfl
  | _ => exact quietly rfl rfl

/-- The ids that a step marks. -/
def marked (s : Store) : Event → List Nat
  | .flush name i => s.marks name i
  | _ => []

theorem follow_marked (sound : s.Sound json) (step : Step json s e t) :
    (s.follow json log e).marked = log.marked ∪ (s.marked e).toFinset := by
  cases e with
  | set client name key value =>
      obtain ⟨packed, packs, _⟩ := set_wal sound.cache step
      simp only [follow, logEvent, packs, Wal.Log.after, Wal.Log.append, marked,
        List.toFinset_nil, Finset.union_empty]
  | append client name records =>
      obtain ⟨packedRecords, packs, _⟩ := append_wal step
      simp only [follow, logEvent, packs, Wal.Log.after, Wal.Log.appendMany, marked,
        List.toFinset_nil, Finset.union_empty]
  | flush name i => rfl
  | _ => exact (Finset.union_empty _).symm

/-- A payload that a step appends is not empty. -/
theorem logEvent_nonEmpty {event : Wal.Log.Event} (event_of : s.logEvent json e = some event) :
    event.NonEmpty := by
  cases e with
  | set client name key value =>
      cases packs : packRecord json key value with
      | ok packed =>
          simp only [logEvent, packs, Option.some.injEq] at event_of
          rw [← event_of]
          exact packed_ne_nil packs
      | error _ => simp only [logEvent, packs, reduceCtorEq] at event_of
  | append client name records =>
      cases packs : Router.packRecords json records with
      | ok packedRecords =>
          simp only [logEvent, packs, Option.some.injEq] at event_of
          rw [← event_of]
          intro payload member
          obtain ⟨record, inside, rfl⟩ := List.mem_map.mp member
          exact (packRecords_spec packs).2.1 record inside
      | error _ => simp only [logEvent, packs, reduceCtorEq] at event_of
  | flush name i =>
      cases event_of
      trivial
  | writer clock =>
      cases event_of
      trivial
  | _ => cases event_of

/-- What was handed to the writer, and what was written, stays. -/
theorem follow_prefix (json : Json) (s : Store) (log : Wal.Log) (e : Event) :
    log.swapped <+: (s.follow json log e).swapped ∧
      log.written <+: (s.follow json log e).written := by
  unfold follow
  cases s.logEvent json e with
  | none => exact ⟨List.prefix_rfl, List.prefix_rfl⟩
  | some event =>
      cases event with
      | flush clock => exact ⟨List.prefix_append _ _, List.prefix_append _ _⟩
      | restart =>
          simp only [Wal.Log.after]
          split
          · exact ⟨List.prefix_rfl, List.prefix_rfl⟩
          · exact ⟨List.prefix_rfl, List.prefix_rfl⟩
      | _ => exact ⟨List.prefix_rfl, List.prefix_rfl⟩

theorem follow_whole (sound : s.Sound json) (below : s.Below)
    (traced : ∀ name, (s.site name).Traced) (same : log.wal = s.router.wal) (inv : log.InOrder)
    (whole : log.Whole) (fits : (s.follow json log e).Fits) :
    (s.follow json log e).InOrder ∧ (s.follow json log e).Whole := by
  unfold follow at fits ⊢
  split
  · rename_i event event_of
    rw [event_of] at fits
    have possible := follow_possible sound below traced same event_of
    exact Wal.Log.whole_step inv whole (Wal.Log.step_after possible) (logEvent_nonEmpty event_of)
      fits
  · exact ⟨inv, whole⟩

end Steps

end Store

end CachyDb
