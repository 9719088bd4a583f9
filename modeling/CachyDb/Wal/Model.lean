import Mathlib.Data.Finset.Lattice.Lemmas
import CachyDb.Lib.FileSystem
import CachyDb.Lib.Grouping
import CachyDb.Wal.Format

set_option autoImplicit false

/-! The write-ahead log object and its methods. File names are the numbers in
`global_<id>.wal`; `clock` is what `time.time()` returns for each entry. The wait
for buffer space before an append only delays it and is left out. -/

namespace CachyDb

open ByteString Crc32

/-- The WAL directory together with the volatile fields of the `WAL` object.
`currentFile` pairs `_current_file_path` with the inode behind the open handle,
and `preallocating` lists the targets of the started background threads. -/
structure Wal where
  globalTxId : Nat
  walBuffer : List Wal.Record
  ramCompletedTx : Finset Nat
  currentFile : Option (Nat × Nat)
  disk : FileSystem Nat
  preallocating : List Nat

namespace Wal

/-- What a call raised, if anything, together with the object it leaves behind. -/
abbrev Outcome := Except Error Unit

def openForWriting (disk : FileSystem Nat) (fileId : Nat) : FileSystem Nat := disk.truncate fileId

def fallocate (disk : FileSystem Nat) (fileId sizeBytes : Nat) : FileSystem Nat :=
  disk.modify fileId (fun file => file.allocate sizeBytes)

def createFileHeader (disk : FileSystem Nat) (fileId currentRecords usedSpace : Nat) :
    FileSystem Nat :=
  disk.modify fileId (fun file =>
    file.write 0 (packFileHeader magicBytes walCapacity currentRecords usedSpace))

def preAllocateWal (disk : FileSystem Nat) (fileId sizeBytes : Nat) : FileSystem Nat :=
  createFileHeader (fallocate (openForWriting disk fileId) fileId sizeBytes) fileId 0 0

/-- The size a background thread allocates: header, entry table, payload area. -/
def fullSize : Nat :=
  walFileHeaderSize + walCapacity * walEntryHeaderSize + payloadAreaSize

/-- One background thread runs from its existence check to its end. -/
def preAllocateAsync (w : Wal) (fileId : Nat) : Wal :=
  if w.disk.present fileId then w
  else { w with disk := preAllocateWal w.disk fileId fullSize }

/-- A started thread runs and is gone. -/
def runPreAllocation (w : Wal) (fileId : Nat) : Wal :=
  { preAllocateAsync w fileId with preallocating := w.preallocating.erase fileId }

/-- The id after the last record of the newest file. -/
def restoreGlobalTxId (disk : FileSystem Nat) : Except Error Nat :=
  match disk.sortedNames.getLast? with
  | none => .ok 0
  | some fileId =>
      match disk.file fileId with
      | none => .error .osError
      | some file =>
          let data := file.read 0 walFileHeaderSize
          if data.length = walFileHeaderSize then
            match checkFileHeader data with
            | .error e => .error e
            | .ok h => .ok (fileId * walCapacity + h.currentRecords)
          else .ok (fileId * walCapacity)

/-- `WAL()` on an existing directory. -/
def openWal (disk : FileSystem Nat) : Except Error Wal :=
  match restoreGlobalTxId disk with
  | .error e => .error e
  | .ok txId => .ok ⟨txId, [], ∅, none, disk, []⟩

/-- `_get_open_file`: the cached handle when its path is the one asked for, else
a fresh one. -/
def getOpenFile (w : Wal) (fileId : Nat) : Option Nat × Wal :=
  match w.currentFile with
  | some (path, handle) => if path = fileId then (some handle, w) else reopen
  | none => reopen
where
  reopen : Option Nat × Wal :=
    match w.disk.dir.lookup fileId with
    | some handle => (some handle, { w with currentFile := some (fileId, handle) })
    | none => (none, { w with currentFile := none })

def appendToBuffer (w : Wal) (payload : Bytes) : Nat × Wal :=
  (w.globalTxId,
    { w with
      globalTxId := w.globalTxId + 1
      walBuffer := w.walBuffer ++ [(w.globalTxId, payload)] })

def appendManyToBuffer (w : Wal) : List Bytes → List Nat × Wal
  | [] => ([], w)
  | payload :: rest =>
      let first := appendToBuffer w payload
      let later := appendManyToBuffer first.2 rest
      (first.1 :: later.1, later.2)

/-- Phase 1: where each payload goes, the bytes to write, and the space used after them. -/
def layoutPayloads (usedSpace : Nat) : List Record → Except Error (List Nat × Bytes × Nat)
  | [] => .ok ([], [], usedSpace)
  | (_, payload) :: rest =>
      if payload.length ≥ 256 ^ 4 then .error .osError
      else
        match validatePayloadSize (payloadWithLen payload).length usedSpace with
        | .error e => .error e
        | .ok () =>
            match layoutPayloads (usedSpace + (payloadWithLen payload).length) rest with
            | .error e => .error e
            | .ok (offsets, block, used) =>
                .ok ((headerBlockSize + usedSpace) :: offsets, payloadWithLen payload ++ block, used)

/-- Phase 2: the entry headers of the batch, in order. -/
def entryBlock (clock : Nat → Nat) (completedCopy : Finset Nat) :
    List Record → List Nat → Except Error Bytes
  | (txId, _) :: rest, offset :: offsets =>
      match createEntryHeader clock txId offset (txId ∈ completedCopy) with
      | .error e => .error e
      | .ok header =>
          match entryBlock clock completedCopy rest offsets with
          | .error e => .error e
          | .ok block => .ok (header ++ block)
  | _, _ => .ok []

/-- `struct.pack` refuses integers its fields cannot hold. -/
def packUpdatedHeader (h : FileHeader) (currentRecords usedSpace : Nat) : Except Error Bytes :=
  if h.capacity < 256 ^ 4 ∧ currentRecords < 256 ^ 4 ∧ usedSpace < 256 ^ 8 then
    .ok (packFileHeader h.magic h.capacity currentRecords usedSpace)
  else .error .osError

/-- The part of `_write_batch_to_disk` that works through the open handle. -/
def appendBatch (clock : Nat → Nat) (completedCopy : Finset Nat) (batch : List Record)
    (file : File) : Outcome × File :=
  match checkFileHeader (file.read 0 walFileHeaderSize) with
  | .error e => (.error e, file)
  | .ok h =>
      match layoutPayloads h.usedSpace batch with
      | .error e => (.error e, file)
      | .ok (offsets, payloadBlock, usedSpace) =>
          let paid := file.write (headerBlockSize + h.usedSpace) payloadBlock
          match entryBlock clock completedCopy batch offsets with
          | .error e => (.error e, paid)
          | .ok entries =>
              let firstSlot := getSlotIndex ((batch.map Prod.fst).headD 0)
              let listed := paid.write (entryOffset firstSlot) entries
              match packUpdatedHeader h (h.currentRecords + batch.length) usedSpace with
              | .error e => (.error e, listed)
              | .ok header => (.ok (), listed.write 0 header)

/-- Bytes a batch takes in the payload area, length prefixes included. -/
def payloadBytes (batch : List Record) : Nat := (batch.map (fun r => r.2.length + 4)).sum

/-- The file of a batch is created on first use, and a background thread for the
next file is started then. -/
def ensureFile (w : Wal) (firstTxId : Nat) (batch : List Record) : Outcome × Wal :=
  match getFilePath firstTxId with
  | .error e => (.error e, w)
  | .ok fileId =>
      if w.disk.present fileId then (.ok (), w)
      else
        let created :=
          { w with disk := preAllocateWal w.disk fileId (walFileHeaderSize + payloadBytes batch) }
        match getFilePath (firstTxId + walCapacity) with
        | .error e => (.error e, created)
        | .ok next => (.ok (), { created with preallocating := next :: created.preallocating })

def writeBatchToDisk (clock : Nat → Nat) (completedCopy : Finset Nat) (w : Wal)
    (batch : List Record) : Outcome × Wal :=
  let firstTxId := (batch.map Prod.fst).headD 0
  match ensureFile w firstTxId batch with
  | (.error e, w) => (.error e, w)
  | (.ok (), w) =>
      match getOpenFile w (firstTxId / walCapacity) with
      | (none, w) => (.error .osError, w)
      | (some handle, w) =>
          let done := appendBatch clock completedCopy batch (w.disk.inode handle)
          (done.1, { w with disk := w.disk.update handle done.2 })

/-- One batch a file, in order, up to the first that raises. The middle component
collects the records whose batch was written. -/
def writeBatches (clock : Nat → Nat) (completedCopy : Finset Nat) :
    Wal → List (List Record) → Outcome × List Record × Wal
  | w, [] => (.ok (), [], w)
  | w, batch :: rest =>
      match writeBatchToDisk clock completedCopy w batch with
      | (.error e, w) => (.error e, [], w)
      | (.ok (), w) =>
          let later := writeBatches clock completedCopy w rest
          (later.1, batch ++ later.2.1, later.2.2)

/-- The records of a buffer, split at the file boundaries. -/
def fileBatches (buffer : List Record) : List (List Record) :=
  (Grouping.groupBy (fun r : Record => r.1 / walCapacity) buffer).map Prod.snd

/-- The copy and the clearing of `ram_completed_tx`, one section under the lock. -/
def takeCompleted (w : Wal) : Finset Nat × Wal :=
  (w.ramCompletedTx, { w with ramCompletedTx := ∅ })

def writeBufferToDisk (clock : Nat → Nat) (w : Wal) (buffer : List Record) :
    Outcome × List Record × Wal :=
  if buffer = [] then (.ok (), [], w)
  else
    let taken := takeCompleted w
    writeBatches clock taken.1 taken.2 (fileBatches buffer)

/-- The swap of the writer loop. -/
def swapBuffer (w : Wal) : List Record × Wal := (w.walBuffer, { w with walBuffer := [] })

/-- One turn of the writer loop without interruption. -/
def flushBuffer (clock : Nat → Nat) (w : Wal) : Outcome × List Record × Wal :=
  let swapped := swapBuffer w
  writeBufferToDisk clock swapped.2 swapped.1

/-- Offset of the completion flag of a transaction within its file. -/
def flagOffset (txId : Nat) : Nat := entryOffset (getSlotIndex txId) + 16

/-- `wal_buffer[0][0] <= tx_id <= wal_buffer[-1][0]`. -/
def inBufferRange (buffer : List Record) (txId : Nat) : Bool :=
  match buffer.head?, buffer.getLast? with
  | some first, some last => first.1 ≤ txId && txId ≤ last.1
  | _, _ => false

/-- The part of `mark_many_jobs_complete` under the lock; it returns the ids that
are left for the disk. -/
def markLocked (w : Wal) (txIds : List Nat) : List Nat × Wal :=
  (txIds.filter (fun txId => !inBufferRange w.walBuffer txId),
    { w with ramCompletedTx := w.ramCompletedTx ∪ txIds.toFinset })

/-- Set the completion flags of one file. A file that does not exist is skipped. -/
def markFile (w : Wal) (fileId : Nat) (txIds : List Nat) : Wal :=
  if w.disk.present fileId then
    match getOpenFile w fileId with
    | (none, w) => w
    | (some handle, w) =>
        { w with
          disk := w.disk.update handle
            (txIds.foldl (fun file txId => file.write (flagOffset txId) [1]) (w.disk.inode handle)) }
  else w

/-- The disk part of `mark_many_jobs_complete`: the ids grouped by file, ids
without a path left out. -/
def markDisk (w : Wal) (txIds : List Nat) : Wal :=
  (Grouping.groupBy (fun txId => txId / walCapacity)
      (txIds.filter (fun txId => (validateTxId txId).isOk))).foldl
    (fun w group => markFile w group.1 group.2) w

def markManyJobsComplete (w : Wal) (txIds : List Nat) : Wal :=
  if txIds = [] then w
  else
    let locked := markLocked w txIds
    markDisk locked.2 locked.1

/-- `mark_job_complete`, the single form that recovery uses. -/
def markJobComplete (w : Wal) (txId fileId : Nat) : Except Error Wal :=
  match validateTxId txId with
  | .error e => .error e
  | .ok () =>
      let marked := { w with ramCompletedTx := insert txId w.ramCompletedTx }
      if inBufferRange w.walBuffer txId then .ok marked
      else .ok (markFile marked fileId [txId])

inductive EntryRead
  | stop
  | skip
  | raises
  | yields (record : Record)
  deriving DecidableEq, Repr

/-- One turn of the entry loop of `read_wal`. A seek past the range of a file
offset raises out of the generator. -/
def readEntry (file : File) (slot : Nat) : EntryRead :=
  let entryData := file.read (entryOffset slot) walEntryHeaderSize
  if entryData.length < walEntryHeaderSize then .stop
  else
    let e := unpackEntryHeader entryData
    if e.isCompleted then .skip
    else if e.payloadOffset ≥ 2 ^ 63 then .raises
    else
      let lengthBytes := file.read e.payloadOffset 4
      if lengthBytes.length < 4 then .skip
      else
        let recordLength := ofBE lengthBytes
        if recordLength = 0 ∨ recordLength > payloadAreaSize then .skip
        else
          let packedRecord := file.read (e.payloadOffset + 4) recordLength
          if packedRecord.length < recordLength then .skip
          else .yields (e.txId, packedRecord)

/-- What a generator has yielded when it ends, and whether it ended by raising. -/
structure Yielded where
  records : List Record
  raised : Bool
  deriving DecidableEq, Repr

def readEntries (file : File) : Nat → Nat → Yielded
  | _, 0 => ⟨[], false⟩
  | slot, count + 1 =>
      match readEntry file slot with
      | .stop => ⟨[], false⟩
      | .skip => readEntries file (slot + 1) count
      | .raises => ⟨[], true⟩
      | .yields record =>
          let rest := readEntries file (slot + 1) count
          ⟨record :: rest.records, rest.raised⟩

/-- A file with a bad header is skipped. -/
def readFile (file : File) : Yielded :=
  match checkFileHeader (file.read 0 walFileHeaderSize) with
  | .error _ => ⟨[], false⟩
  | .ok h => readEntries file 0 h.currentRecords

def readFiles (disk : FileSystem Nat) : List Nat → Yielded
  | [] => ⟨[], false⟩
  | fileId :: rest =>
      match disk.file fileId with
      | none => readFiles disk rest
      | some file =>
          let first := readFile file
          if first.raised then first
          else
            let later := readFiles disk rest
            ⟨first.records ++ later.records, later.raised⟩

def readWal (disk : FileSystem Nat) : Yielded := readFiles disk disk.sortedNames

end Wal

end CachyDb
