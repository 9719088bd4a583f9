import CachyDb.Storage.Logged
import CachyDb.Wal.Archival

set_option autoImplicit false

/-! The log with its history, after files have been archived. A file is finished when the log
has gone past it and all its records are completed. -/

namespace CachyDb.Wal

open ByteString

namespace Log

/-- The same history over other files. -/
def onLog (log : Log) (wal : Wal) : Log := { log with wal := wal }

/-- No more records come to the file, and those that it has are completed. -/
structure Finished (log : Log) (fileId : Nat) : Prop where
  behind : fileId < log.next / walCapacity
  completed : ∀ r ∈ log.written, r.1 / walCapacity = fileId → r.1 ∈ log.marked

section

variable {log : Log} {listed : List Nat} {gone : Finset Nat} {w : Wal} {fileId : Nat} {e : Event}

theorem next_append (log : Log) (payload : Bytes) : (log.append payload).next = log.next := by
  simp only [next, append, appendToBuffer, List.length_append, List.length_singleton,
    Nat.add_sub_add_right]

theorem next_appendMany (log : Log) (payloads : List Bytes) :
    (log.appendMany payloads).next = log.next := by
  induction payloads generalizing log with
  | nil => rfl
  | cons payload rest ih => rw [appendMany_cons, ih, next_append]

/-- The counter of an opening is behind the newest file. -/
theorem restore_newest {disk : FileSystem Nat} {txId : Nat}
    (restored : restoreGlobalTxId disk = .ok txId) (known : disk.present fileId = true) :
    fileId ≤ txId / walCapacity := by
  have listed := FileSystem.mem_sortedNames.mpr (FileSystem.present_iff.mp known)
  unfold restoreGlobalTxId at restored
  split at restored
  · rename_i nothing
    rw [List.getLast?_eq_none_iff.mp nothing] at listed
    cases listed
  · rename_i newest last
    have below := FileSystem.le_of_getLast_sortedNames last listed
    have room (count : Nat) : fileId ≤ (newest * walCapacity + count) / walCapacity := by
      rw [Nat.mul_comm, Nat.mul_add_div (by decide)]
      exact Nat.le_trans below (Nat.le_add_right _ _)
    split at restored
    · cases restored
    · dsimp only at restored
      split at restored
      · split at restored
        · cases restored
        · cases restored
          exact room _
      · cases restored
        have bound := room 0
        rwa [Nat.add_zero] at bound

/-- A finished file stays finished, also over a restart when there is a newer one. -/
theorem Finished.after (finished : log.Finished fileId) (inv : log.InOrder) (whole : log.Whole)
    (possible : log.Possible e) (whole' : (log.after e).Whole)
    (superseded : Superseded gone log.wal fileId) : (log.after e).Finished fileId := by
  obtain ⟨behind, completed⟩ := finished
  cases e with
  | append payload =>
      exact ⟨(next_append log payload).symm ▸ behind, completed⟩
  | appendMany payloads =>
      exact ⟨(next_appendMany log payloads).symm ▸ behind, completed⟩
  | preAllocate other =>
      obtain ⟨counter, buffer, _⟩ := preAllocateAsync_fields log.wal other
      have same : (log.preAllocate other).next = log.next := by
        show (Wal.preAllocateAsync log.wal other).globalTxId -
          (Wal.preAllocateAsync log.wal other).walBuffer.length = log.next
        rw [counter, buffer, next]
      exact ⟨same.symm ▸ behind, completed⟩
  | mark txIds =>
      have queue := markMany_queue log.wal txIds
      have same : (log.mark txIds).next = log.next := by
        rw [next, mark, queue.globalTxId, queue.walBuffer, next]
      exact ⟨same.symm ▸ behind,
        fun r member home => Finset.mem_union_left _ (completed r member home)⟩
  | flush clock =>
      have written : (log.flush clock).written = log.written ++ log.wal.walBuffer := by
        have all : (log.flush clock).written = (log.flush clock).swapped := whole'.all
        rw [all, whole.all]
        rfl
      have later : log.next ≤ (log.flush clock).next := by
        have empty : (log.flush clock).wal.walBuffer = [] := flushBuffer_empty log.wal clock
        have counter : (log.flush clock).wal.globalTxId = log.wal.globalTxId :=
          flushBuffer_counter log.wal clock
        rw [next, next, empty, counter, List.length_nil]
        omega
      refine ⟨Nat.lt_of_lt_of_le behind (Nat.div_le_div_right later), fun r member home => ?_⟩
      change r ∈ (log.flush clock).written at member
      rw [written] at member
      rcases List.mem_append.mp member with old | new
      · exact completed r old home
      · -- the records of the buffer belong to later files
        have id := List.mem_map_of_mem new (f := Prod.fst)
        rw [inv.ids] at id
        have above := Nat.div_le_div_right (c := walCapacity) (List.mem_range'_1.mp id).1
        omega
  | restart =>
      obtain ⟨opened, reopened⟩ := possible
      simp only [Log.after, reopened]
      obtain ⟨newer, _, above, known⟩ := superseded
      have counter : ∃ txId, restoreGlobalTxId log.wal.disk = .ok txId ∧
          (log.restart opened).next = txId := by
        unfold openWal at reopened
        split at reopened
        · cases reopened
        · rename_i txId restored
          cases reopened
          exact ⟨txId, restored, rfl⟩
      obtain ⟨txId, restored, next⟩ := counter
      refine ⟨?_, fun r member home => ?_⟩
      · rw [next]
        exact Nat.lt_of_lt_of_le above (restore_newest restored known)
      · exact Finset.mem_filter.mpr ⟨completed r member home, List.mem_map_of_mem member⟩

/-- A step of the log is the same over fewer files, when those that are gone are finished. -/
theorem after_archived (archived : Archived listed gone log.wal w) (inv : log.InOrder)
    (finished : ∀ fileId ∈ gone, log.Finished fileId) (possible : log.Possible e) :
    ∃ w₁, (log.onLog w).after e = (log.after e).onLog w₁ ∧
      Archived listed gone (log.after e).wal w₁ := by
  cases e with
  | append payload =>
      obtain ⟨id, appended⟩ := archived.append payload
      refine ⟨_, ?_, appended⟩
      simp only [Log.after, append, onLog, id]
  | appendMany payloads =>
      obtain ⟨ids, appended⟩ := archived.appendMany payloads
      refine ⟨_, ?_, appended⟩
      simp only [Log.after, appendMany, onLog, ids]
  | preAllocate fileId =>
      exact ⟨_, rfl, archived.runPreAllocation (inv.targets fileId possible)⟩
  | mark txIds => exact ⟨_, rfl, archived.mark txIds⟩
  | flush clock =>
      obtain ⟨outcome, kept, w₁, w₁', done, done', written⟩ := archived.flushBuffer clock
        fun r member removed => by
          have id := List.mem_map_of_mem member (f := Prod.fst)
          rw [inv.ids] at id
          have above := Nat.div_le_div_right (c := walCapacity) (List.mem_range'_1.mp id).1
          have below := (finished _ removed).behind
          omega
      refine ⟨w₁', ?_, ?_⟩
      · simp only [Log.after, flush, onLog, done, done', archived.walBuffer]
      · simp only [Log.after, flush, done]
        exact written
  | restart =>
      obtain ⟨opened, reopened⟩ := possible
      obtain ⟨opened', reopened', alike⟩ := archived.openWal reopened
      refine ⟨{ opened' with preallocating := w.preallocating }, ?_, ?_⟩
      · simp only [Log.after, onLog, reopened, reopened', restart]
        rfl
      · simp only [Log.after, reopened, restart]
        exact ⟨alike.globalTxId, alike.walBuffer, alike.ramCompletedTx, archived.preallocating,
          alike.same, alike.unused, alike.kept, alike.superseded,
          ⟨alike.before.held, alike.before.found⟩, ⟨alike.after.held, alike.after.found⟩⟩

/-- The files of the log without those that are gone. These are finished, and so is the file
that has been found completed. -/
structure Thinned (listed : List Nat) (found : Option Nat) (gone : Finset Nat) (log : Log)
    (w : Wal) : Prop where
  archived : Archived listed gone log.wal w
  inside : ∀ fileId, found = some fileId → fileId ∈ listed
  finished : ∀ fileId, fileId ∈ gone ∨ found = some fileId → log.Finished fileId

variable {found : Option Nat}

theorem Thinned.superseded (thinned : Thinned listed found gone log w)
    (aside : fileId ∈ gone ∨ found = some fileId) : Superseded gone log.wal fileId :=
  thinned.archived.superseded fileId (aside.imp id (thinned.inside fileId))

/-- A step of the log thins the same files, unless it loses records. -/
theorem Thinned.after (thinned : Thinned listed found gone log w) (inv : log.InOrder)
    (whole : log.Whole) (possible : log.Possible e) :
    ∃ w₁, (log.onLog w).after e = (log.after e).onLog w₁ ∧
      ((log.after e).Whole → Thinned listed found gone (log.after e) w₁) := by
  obtain ⟨w₁, followed, archived⟩ := after_archived thinned.archived inv
    (fun fileId removed => thinned.finished fileId (Or.inl removed)) possible
  exact ⟨w₁, followed, fun whole' => ⟨archived, thinned.inside, fun fileId aside =>
    (thinned.finished fileId aside).after inv whole possible whole' (thinned.superseded aside)⟩⟩

/-- The thread has ended. -/
theorem Thinned.forget (thinned : Thinned listed found gone log w) :
    Thinned [] none gone log w :=
  ⟨thinned.archived.list (fun _ none => (by cases none)) fun _ none => (by cases none),
    fun _ none => (by cases none), fun fileId aside =>
      thinned.finished fileId (Or.inl (aside.resolve_right (by rintro ⟨⟩)))⟩

/-- The reader yields the same. -/
theorem Thinned.readWal (thinned : Thinned listed found gone log w) (inv : log.InOrder) :
    Wal.readWal w.disk = Wal.readWal log.wal.disk :=
  thinned.archived.readWal inv.settled.disk fun r member removed =>
    (thinned.finished _ (Or.inl removed)).completed r member rfl

end

end Log

end CachyDb.Wal
