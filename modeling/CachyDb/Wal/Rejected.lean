import CachyDb.Wal.Log

set_option autoImplicit false

/-! What a rejected batch does to its file. The writer advances `current_records`
by the length of a batch but places it by its first id, so the two part ways once
a batch is written behind ids that were handed over in vain. -/

namespace CachyDb.Wal

open ByteString Transition

namespace Log

/-- One plus the highest slot written in a file, zero if there is none. -/
def slotsEnd (written : List Record) (fileId : Nat) : Nat :=
  ((fileRecords written fileId).map (fun r => getSlotIndex r.1 + 1)).foldr max 0

/-- The headers count up to the highest slot, the reader yields every written and
unmarked record, and a restart continues beyond every id on disk. -/
structure Undamaged (s : Log) : Prop where
  counts : ∀ fileId file, s.wal.disk.file fileId = some file →
    ∃ h, checkFileHeader (file.read 0 walFileHeaderSize) = .ok h ∧
      h.currentRecords = slotsEnd s.written fileId
  yielded : ∀ r ∈ s.written, r.1 ∉ s.marked → r ∈ (Wal.readWal s.wal.disk).records
  restored : ∃ txId, restoreGlobalTxId s.wal.disk = .ok txId ∧ ∀ r ∈ s.written, r.1 < txId

theorem slotsEnd_of_consecutive (recs : List Record) (start : Nat) (fileId : Nat)
    (slots : ∀ i, (inside : i < recs.length) → recs[i].1 = fileId * walCapacity + (start + i))
    (capacity : start + recs.length ≤ walCapacity) (some : recs ≠ []) :
    (recs.map (fun r => getSlotIndex r.1 + 1)).foldr max 0 = start + recs.length := by
  induction recs generalizing start with
  | nil => exact absurd rfl some
  | cons r rest ih =>
      have first := slots 0 (by simp)
      rw [List.length_cons] at capacity
      have slot : getSlotIndex r.1 = start := by
        simp only [List.getElem_cons_zero] at first
        simp only [getSlotIndex, walCapacity] at *
        omega
      by_cases last : rest = []
      · subst last
        simp [slot]
      · have later := ih (start + 1) (fun i inside => by
          have := slots (i + 1) (by simpa using inside)
          simp only [List.getElem_cons_succ] at this
          omega) (by omega) last
        rw [List.map_cons, List.foldr_cons, later, slot, List.length_cons]
        omega

/-- A file in order counts exactly the slots written. -/
theorem slotsEnd_layout {file : File} {fileId : Nat} {written : List Record} {done : Finset Nat}
    (layout : Layout file fileId (fileRecords written fileId) done) :
    slotsEnd written fileId = (fileRecords written fileId).length := by
  by_cases empty : fileRecords written fileId = []
  · rw [slotsEnd, empty]
    rfl
  · have whole := slotsEnd_of_consecutive (fileRecords written fileId) 0 fileId
      (by simpa using layout.slots) (by simpa using layout.capacity) empty
    rw [slotsEnd, whole, Nat.zero_add]

theorem InOrder.undamaged {s : Log} (inv : InOrder s) : Undamaged s := by
  refine ⟨?_, ?_, ?_⟩
  · intro fileId file known
    have layout := inv.settled.disk.files fileId file known
    exact ⟨_, layout.readHeader, (slotsEnd_layout layout).symm⟩
  · intro r member unmarked
    rw [inv.readWal, List.mem_filter]
    exact ⟨member, decide_eq_true unmarked⟩
  · obtain ⟨txId, restored, _, above, _⟩ := inv.reopen
    exact ⟨txId, restored, above⟩

theorem careful_first_flush (payload : Bytes) (clock : Nat → Nat) :
    Careful (start.append payload) (.flush clock) := by
  constructor
  · intro r member
    rw [List.mem_singleton.mp member]
    exact validateTxId_ok (show 0 + walCapacity < 2 ^ 63 by decide)
  · intro r member txId lost
    cases lost

/-- The log stays undamaged in every run of non-empty payloads whose flushes write
no batch behind lost ids. -/
theorem undamaged_unless_behind_loss {t : Log} {events : List Event}
    (run : Run (Guarded Step fun s e => e.NonEmpty ∧ Careful s e) start events t) :
    Undamaged t := by
  have inv : InOrder t := run.preserves start_inOrder
    (fun s e u before step => before.step step.1 step.2.1 step.2.2)
  exact inv.undamaged

theorem oversized_ne_nil : List.replicate payloadAreaSize (0 : UInt8) ≠ [] := by
  apply List.ne_nil_of_length_pos
  rw [List.length_replicate]
  decide

/-- One record larger than the payload area is rejected without any damage. -/
theorem undamaged_after_first_rejection :
    Undamaged ((start.append (List.replicate payloadAreaSize 0)).flush (fun _ => 0)) := by
  apply undamaged_unless_behind_loss
  apply Run.cons ⟨Step.append _ (List.replicate payloadAreaSize 0), oversized_ne_nil, trivial⟩
  apply Run.cons ⟨Step.flush _ (fun _ => 0), trivial, careful_first_flush _ _⟩
  exact Run.nil _

theorem writtenFile_header (clock : Nat → Nat) (completedCopy : Finset Nat) (batch : List Record)
    (slot currentRecords usedSpace : Nat) (file : File) :
    (writtenFile clock completedCopy batch slot currentRecords usedSpace file).Holds 0
      (packFileHeader magicBytes walCapacity (currentRecords + batch.length)
        (usedSpace + payloadBytes batch)) :=
  File.write_holds_self _ _ _

/-- A batch that fits is written whether or not its first slot is the next one,
and the header then counts its records on top of those before. -/
theorem counted_batch {w : Wal} {written batch : List Record} {marked : Finset Nat} {first : Nat}
    (settled : Settled w written marked first) (formed : IsBatch batch first)
    (clock : Nat → Nat) (copy : Finset Nat) (valid : first + walCapacity < 2 ^ 63)
    (fits : payloadBytes (fileRecords written (first / walCapacity)) + payloadBytes batch ≤
      payloadAreaSize) :
    ∃ w' file h, writeBatchToDisk clock copy w batch = (.ok (), w') ∧
      w'.disk.file (first / walCapacity) = some file ∧
      checkFileHeader (file.read 0 walFileHeaderSize) = .ok h ∧
      h.currentRecords =
        (fileRecords written (first / walCapacity)).length + batch.length := by
  obtain ⟨opened, i, found, _, inv, _, result⟩ := settled.disk.openBatchFile clock copy batch first
    formed.head valid (settled.reachable _)
  have layout := inv.files _ _ (FileSystem.file_of_lookup found)
  have capacity := layout.capacity
  have within := formed.inFile
  have small : ∀ r ∈ batch, r.1 < 2 ^ 63 := by
    intro r member
    have := formed.bounds member
    omega
  have accepted := layout.appendBatch_fits clock copy batch (by omega) small fits
  rw [accepted] at result
  have few : (fileRecords written (first / walCapacity)).length + batch.length < 256 ^ 4 := by
    simp only [walCapacity] at *
    omega
  have small_used : payloadBytes (fileRecords written (first / walCapacity)) +
      payloadBytes batch < 256 ^ 8 := by
    simp only [payloadAreaSize] at *
    omega
  have checked := checkFileHeader_pack few small_used
  have header := (writtenFile_header clock copy batch
    (getSlotIndex ((batch.map Prod.fst).headD 0)) (fileRecords written (first / walCapacity)).length
    (payloadBytes (fileRecords written (first / walCapacity))) (opened.disk.inode i)).read
    (packFileHeader_length _ _ _ _ rfl)
  rw [← header] at checked
  exact ⟨_, _, _, result, FileSystem.update_file_self found _, checked, rfl⟩

/-- A record that no payload area can take is dropped by the flush. -/
theorem flush_oversized (clock : Nat → Nat) (payload : Bytes) (nonempty : payload ≠ [])
    (large : payloadAreaSize < payload.length + 4) :
    InOrder ((start.append payload).flush clock) ∧
      ((start.append payload).flush clock).written = [] ∧
      ((start.append payload).flush clock).wal.walBuffer = [] ∧
      ((start.append payload).flush clock).wal.globalTxId = 1 := by
  have inv := start_inOrder.append payload nonempty
  obtain ⟨valid, behind⟩ := careful_first_flush payload clock
  have after := inv.flush clock valid behind
  obtain ⟨outcome, kept, dropped, w', result, whole, _, reached, _⟩ :=
    inv.flushBuffer clock valid behind (List.cons_ne_nil _ _)
  refine ⟨after, ?_, by simp only [Log.flush, result, reached.walBuffer],
    by simp only [Log.flush, result, reached.globalTxId]; rfl⟩
  have written : ((start.append payload).flush clock).written = kept := by
    simp only [Log.flush, result]
    rfl
  rw [written]
  cases kept with
  | nil => rfl
  | cons r rest =>
      -- a written record would have to lie in the payload area of its file
      have here : r ∈ ((start.append payload).flush clock).written := by
        rw [written]
        exact List.mem_cons_self
      have same : r = (0, payload) := by
        rw [List.cons_append] at whole
        exact (List.cons.inj whole).1.symm
      obtain ⟨file, known⟩ := present_iff.mp (after.settled.homes r here)
      have room := (after.settled.disk.files _ file known).room
      obtain ⟨front, back, shape⟩ := List.append_of_mem (mem_fileRecords.mpr ⟨here, rfl⟩)
      rw [shape, payloadBytes_append, payloadBytes_cons, same] at room
      dsimp only at room
      omega

/-- With id 0 lost and nothing written, the record of id 1 goes to slot 1 of a file
whose header then counts one record. -/
theorem damaged_of_first_id_lost {s : Log} (inv : InOrder s) (none : s.written = [])
    (empty : s.wal.walBuffer = []) (counter : s.wal.globalTxId = 1) (clock : Nat → Nat) :
    ¬ Undamaged ((s.append [1]).flush clock) := by
  have buffer : (s.append [1]).wal.walBuffer = [(1, [1])] := by
    simp only [Log.append, appendToBuffer, empty, counter, List.nil_append]
  have settled : Settled { (s.append [1]).wal with walBuffer := [], ramCompletedTx := ∅ } []
      s.marked 1 := by
    have here := inv.settled
    have next : s.next = 1 := by
      simp only [Log.next, empty, counter, List.length_nil]
    rw [next, none] at here
    exact here.frame rfl rfl
  have formed : IsBatch [(1, [1])] 1 := ⟨by decide, by decide, by decide⟩
  obtain ⟨w', file, h, accepted, known, checked, count⟩ := counted_batch settled formed clock
    (s.append [1]).wal.ramCompletedTx (by decide) (by decide)
  have pieces : fileBatches [(1, [1])] = [[(1, [1])]] := rfl
  have flushed : flushBuffer clock (s.append [1]).wal = (.ok (), [(1, [1])], w') := by
    simp only [flushBuffer, swapBuffer, writeBufferToDisk, buffer, List.cons_ne_nil, ↓reduceIte,
      takeCompleted, pieces, writeBatches, accepted, List.append_nil]
  have written : ((s.append [1]).flush clock).written = [(1, [1])] := by
    simp only [Log.flush, flushed]
    rw [show (s.append [1]).written = [] from none, List.nil_append]
  intro undamaged
  obtain ⟨h', checked', count'⟩ := undamaged.counts 0 file (by
    simp only [Log.flush, flushed]
    exact known)
  rw [checked, Except.ok.injEq] at checked'
  rw [written, ← checked', count] at count'
  revert count'
  decide

/-- A record that its file may not take, and one behind it. -/
def behindOversized (payload : Bytes) : List Event :=
  [.append payload, .flush fun _ => 0, .append [1], .flush fun _ => 0]

/-- After a record larger than the payload area was rejected, the next record is
written to a slot that the header of its file does not count. -/
theorem damaged_behind_rejected_batch : ∃ t,
    Run (Guarded Step fun _ e => e.NonEmpty) start (behindOversized (List.replicate payloadAreaSize 0)) t ∧
      ¬ Undamaged t := by
  have large : payloadAreaSize < (List.replicate payloadAreaSize (0 : UInt8)).length + 4 := by
    rw [List.length_replicate]
    omega
  have nonempty := oversized_ne_nil
  generalize List.replicate payloadAreaSize (0 : UInt8) = payload at large nonempty ⊢
  obtain ⟨inv, none, empty, counter⟩ := flush_oversized (fun _ => 0) payload nonempty large
  refine ⟨_, ?_, damaged_of_first_id_lost inv none empty counter (fun _ => 0)⟩
  apply Run.cons ⟨Step.append _ _, nonempty⟩
  apply Run.cons ⟨Step.flush _ _, trivial⟩
  apply Run.cons ⟨Step.append _ _, List.cons_ne_nil _ _⟩
  apply Run.cons ⟨Step.flush _ _, trivial⟩
  exact Run.nil _

end Log

end CachyDb.Wal
