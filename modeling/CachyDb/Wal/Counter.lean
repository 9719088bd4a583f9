import CachyDb.Wal.Model

set_option autoImplicit false

/-! The id counter and the buffer of the log: appends advance them, batch writes and marks
leave them as they are. -/

namespace CachyDb.Wal

open ByteString

theorem appendMany_ids (w : Wal) (payloads : List Bytes) :
    (appendManyToBuffer w payloads).1 = List.range' w.globalTxId payloads.length ∧
      (appendManyToBuffer w payloads).2.globalTxId = w.globalTxId + payloads.length := by
  induction payloads generalizing w with
  | nil => exact ⟨rfl, rfl⟩
  | cons payload rest ih =>
      obtain ⟨ids, counter⟩ := ih (appendToBuffer w payload).2
      have next : (appendToBuffer w payload).2.globalTxId = w.globalTxId + 1 := rfl
      rw [next] at ids counter
      refine ⟨?_, ?_⟩
      · rw [List.length_cons, List.range'_succ, ← ids]
        rfl
      · rw [List.length_cons]
        show (appendManyToBuffer (appendToBuffer w payload).2 rest).2.globalTxId = _
        rw [counter]
        omega

/-- The id counter and the buffer are the same. -/
structure SameQueue (w w' : Wal) : Prop where
  globalTxId : w'.globalTxId = w.globalTxId
  walBuffer : w'.walBuffer = w.walBuffer

theorem SameQueue.refl (w : Wal) : SameQueue w w := ⟨rfl, rfl⟩

theorem SameQueue.trans {w w' w'' : Wal} (first : SameQueue w w') (second : SameQueue w' w'') :
    SameQueue w w'' :=
  ⟨second.globalTxId.trans first.globalTxId, second.walBuffer.trans first.walBuffer⟩

theorem getOpenFile_queue (w : Wal) (fileId : Nat) : SameQueue w (getOpenFile w fileId).2 := by
  have reopened : SameQueue w (getOpenFile.reopen w fileId).2 := by
    unfold getOpenFile.reopen
    split
    · exact ⟨rfl, rfl⟩
    · exact ⟨rfl, rfl⟩
  unfold getOpenFile
  split
  · split
    · exact SameQueue.refl w
    · exact reopened
  · exact reopened

theorem ensureFile_queue (w : Wal) (firstTxId : Nat) (batch : List Record) :
    SameQueue w (ensureFile w firstTxId batch).2 := by
  unfold ensureFile
  generalize getFilePath (firstTxId + walCapacity) = next
  split
  · exact SameQueue.refl w
  · split
    · exact SameQueue.refl w
    · cases next with
      | error e => exact ⟨rfl, rfl⟩
      | ok later => exact ⟨rfl, rfl⟩

theorem writeBatch_queue (clock : Nat → Nat) (copy : Finset Nat) (w : Wal)
    (batch : List Record) : SameQueue w (writeBatchToDisk clock copy w batch).2 := by
  have ensured := ensureFile_queue w ((batch.map Prod.fst).headD 0) batch
  unfold writeBatchToDisk
  dsimp only
  split
  · rename_i created
    rw [created] at ensured
    exact ensured
  · rename_i w' created
    rw [created] at ensured
    have opened := getOpenFile_queue w' ((batch.map Prod.fst).headD 0 / walCapacity)
    split
    · rename_i result
      rw [result] at opened
      exact ensured.trans opened
    · rename_i result
      rw [result] at opened
      exact ensured.trans ⟨opened.globalTxId, opened.walBuffer⟩

theorem writeBatches_queue (clock : Nat → Nat) (copy : Finset Nat) (w : Wal)
    (batches : List (List Record)) : SameQueue w (writeBatches clock copy w batches).2.2 := by
  induction batches generalizing w with
  | nil => exact SameQueue.refl w
  | cons batch rest ih =>
      have first := writeBatch_queue clock copy w batch
      unfold writeBatches
      split
      · rename_i result
        rw [result] at first
        exact first
      · rename_i w' result
        rw [result] at first
        exact first.trans (ih w')

theorem flushBuffer_counter (w : Wal) (clock : Nat → Nat) :
    (flushBuffer clock w).2.2.globalTxId = w.globalTxId := by
  unfold flushBuffer writeBufferToDisk
  dsimp only
  split
  · rfl
  · exact (writeBatches_queue _ _ _ _).globalTxId

/-- A turn of the writer takes the whole buffer. -/
theorem flushBuffer_empties (w : Wal) (clock : Nat → Nat) :
    (flushBuffer clock w).2.2.walBuffer = [] := by
  unfold flushBuffer writeBufferToDisk
  dsimp only
  split
  · rfl
  · exact (writeBatches_queue _ _ _ _).walBuffer

theorem markFile_queue (w : Wal) (fileId : Nat) (txIds : List Nat) :
    SameQueue w (markFile w fileId txIds) := by
  have opened := getOpenFile_queue w fileId
  unfold markFile
  split
  · split
    · rename_i result
      rw [result] at opened
      exact opened
    · rename_i result
      rw [result] at opened
      exact ⟨opened.globalTxId, opened.walBuffer⟩
  · exact SameQueue.refl w

theorem markMany_queue (w : Wal) (txIds : List Nat) :
    SameQueue w (markManyJobsComplete w txIds) := by
  have each (groups : List (Nat × List Nat)) (w : Wal) :
      SameQueue w (groups.foldl (fun w group => markFile w group.1 group.2) w) := by
    induction groups generalizing w with
    | nil => exact SameQueue.refl w
    | cons group rest ih => exact (markFile_queue w group.1 group.2).trans (ih _)
  unfold markManyJobsComplete
  split
  · exact SameQueue.refl w
  · have marked := each (Grouping.groupBy (fun txId => txId / walCapacity)
      ((markLocked w txIds).1.filter fun txId => (validateTxId txId).isOk)) (markLocked w txIds).2
    exact ⟨marked.globalTxId, marked.walBuffer⟩

end CachyDb.Wal
