import CachyDb.Wal.Flush

set_option autoImplicit false

/-! What a crash leaves of a flush: the disk after each single write to a WAL file, the
creation of a file included. Whatever the moment, the log is that of the batches that
were finished. -/

namespace CachyDb.Wal

open ByteString

/-- The content of the file after each write of `appendBatch`. -/
def appendTrace (clock : Nat → Nat) (completedCopy : Finset Nat) (batch : List Record)
    (file : File) : List File :=
  match checkFileHeader (file.read 0 walFileHeaderSize) with
  | .error _ => []
  | .ok h =>
      match layoutPayloads h.usedSpace batch with
      | .error _ => []
      | .ok (offsets, payloadBlock, usedSpace) =>
          let paid := file.write (headerBlockSize + h.usedSpace) payloadBlock
          match entryBlock clock completedCopy batch offsets with
          | .error _ => [paid]
          | .ok entries =>
              let firstSlot := getSlotIndex ((batch.map Prod.fst).headD 0)
              let listed := paid.write (entryOffset firstSlot) entries
              match packUpdatedHeader h (h.currentRecords + batch.length) usedSpace with
              | .error _ => [paid, listed]
              | .ok header => [paid, listed, listed.write 0 header]

theorem appendTrace_last (clock : Nat → Nat) (copy : Finset Nat) (batch : List Record)
    (file : File) :
    (appendTrace clock copy batch file).getLastD file = (appendBatch clock copy batch file).2 := by
  unfold appendTrace appendBatch
  cases checkFileHeader (file.read 0 walFileHeaderSize) with
  | error e => rfl
  | ok h =>
      dsimp only
      cases layoutPayloads h.usedSpace batch with
      | error e => rfl
      | ok placed =>
          obtain ⟨offsets, block, usedSpace⟩ := placed
          dsimp only
          cases entryBlock clock copy batch offsets with
          | error e => rfl
          | ok entries =>
              dsimp only
              cases packUpdatedHeader h (h.currentRecords + batch.length) usedSpace with
              | error e => rfl
              | ok header => rfl

/-- The disk after each step of `pre_allocate_wal`: the truncating open, the allocation,
the header. -/
def creationTrace (disk : FileSystem Nat) (fileId sizeBytes : Nat) : List (FileSystem Nat) :=
  let opened := openForWriting disk fileId
  let allocated := fallocate opened fileId sizeBytes
  [opened, allocated, createFileHeader allocated fileId 0 0]

theorem creationTrace_last (disk : FileSystem Nat) (fileId sizeBytes : Nat) :
    (creationTrace disk fileId sizeBytes).getLastD disk = preAllocateWal disk fileId sizeBytes := rfl

def ensureTrace (w : Wal) (firstTxId : Nat) (batch : List Record) : List (FileSystem Nat) :=
  match getFilePath firstTxId with
  | .error _ => []
  | .ok fileId =>
      if w.disk.present fileId then []
      else creationTrace w.disk fileId (walFileHeaderSize + payloadBytes batch)

theorem ensureTrace_last (w : Wal) (firstTxId : Nat) (batch : List Record) :
    (ensureTrace w firstTxId batch).getLastD w.disk = (ensureFile w firstTxId batch).2.disk := by
  unfold ensureTrace ensureFile
  cases getFilePath firstTxId with
  | error e => rfl
  | ok fileId =>
      dsimp only
      split
      · rfl
      · cases getFilePath (firstTxId + walCapacity) with
        | error e => rfl
        | ok next => rfl

/-- The disk after each write of `_write_batch_to_disk`. -/
def writeTrace (clock : Nat → Nat) (completedCopy : Finset Nat) (w : Wal) (batch : List Record) :
    List (FileSystem Nat) :=
  let firstTxId := (batch.map Prod.fst).headD 0
  ensureTrace w firstTxId batch ++
    match ensureFile w firstTxId batch with
    | (.error _, _) => []
    | (.ok (), w) =>
        match getOpenFile w (firstTxId / walCapacity) with
        | (none, _) => []
        | (some handle, w) =>
            (appendTrace clock completedCopy batch (w.disk.inode handle)).map
              (w.disk.update handle)

/-- The disk after each write of a buffer's batches, up to the first that raises. -/
def flushTrace (clock : Nat → Nat) (completedCopy : Finset Nat) :
    Wal → List (List Record) → List (FileSystem Nat)
  | _, [] => []
  | w, batch :: rest =>
      writeTrace clock completedCopy w batch ++
        match writeBatchToDisk clock completedCopy w batch with
        | (.error _, _) => []
        | (.ok (), w) => flushTrace clock completedCopy w rest

theorem readFile_empty : readFile File.empty = ⟨[], false⟩ := rfl

theorem read_allocated (size : Nat) :
    (File.empty.allocate size).read 0 walFileHeaderSize =
      List.replicate (min walFileHeaderSize size) 0 := by
  apply List.ext_getElem
  · rw [File.read_length, List.length_replicate, File.allocate_size, File.empty_size]
    omega
  · intro i left right
    rw [File.read_getElem, List.getElem_replicate]
    rfl

/-- A file of zeros has no header that passes the check. -/
theorem checkFileHeader_zeros (count : Nat) :
    ∃ e, checkFileHeader (List.replicate count 0) = .error e := by
  by_cases whole : count = walFileHeaderSize
  · rw [whole]
    exact ⟨.checksumMismatch 0 (unpackFileHeader (List.replicate walFileHeaderSize 0)).computedChecksum,
      by decide +kernel⟩
  · refine ⟨.headerTruncated count, ?_⟩
    rw [checkFileHeader, List.length_replicate, if_pos whole]

theorem readFile_allocated (size : Nat) :
    readFile (File.empty.allocate size) = ⟨[], false⟩ := by
  obtain ⟨e, refused⟩ := checkFileHeader_zeros (min walFileHeaderSize size)
  rw [readFile, read_allocated, refused]

/-- A new file without a usable header does not disturb the reader. -/
theorem Readable.create {disk disk' : FileSystem Nat} {flushed : List Record} {marked : Finset Nat}
    (readable : Readable disk flushed marked) {fileId : Nat}
    (unused : fileRecords flushed fileId = []) {content : File}
    (created : disk'.file fileId = some content) (blank : readFile content = ⟨[], false⟩)
    (others : ∀ other, other ≠ fileId → disk'.file other = disk.file other) :
    Readable disk' flushed marked := by
  refine ⟨readable.ascending, ?_, ?_⟩
  · intro other file known
    by_cases here : other = fileId
    · rw [here, created, Option.some.injEq] at known
      rw [← known, here, unused, blank]
      rfl
    · rw [others other here] at known
      exact readable.files other file known
  · intro r member
    refine (readable.kept r member).imp id fun present => ?_
    have elsewhere : r.1 / walCapacity ≠ fileId := by
      intro here
      have inside : r ∈ fileRecords flushed fileId := mem_fileRecords.mpr ⟨member, here⟩
      rw [unused] at inside
      cases inside
    rw [FileSystem.present_iff] at present ⊢
    rw [others _ elsewhere]
    exact present

/-- The three crash points of a file's creation. -/
theorem creationTrace_files (disk : FileSystem Nat) (fileId sizeBytes : Nat) {disk' : FileSystem Nat}
    (member : disk' ∈ creationTrace disk fileId sizeBytes) :
    (disk'.file fileId = some File.empty ∨
      disk'.file fileId = some (File.empty.allocate sizeBytes) ∨
      disk' = preAllocateWal disk fileId sizeBytes) ∧
    ∀ other, other ≠ fileId → disk'.file other = disk.file other := by
  have opened := FileSystem.truncate_file_self disk fileId
  simp only [creationTrace, List.mem_cons, List.not_mem_nil, or_false] at member
  rcases member with rfl | rfl | rfl
  · exact ⟨Or.inl opened, fun other different => FileSystem.truncate_file_ne disk different⟩
  · refine ⟨Or.inr (Or.inl (FileSystem.modify_file_self opened _)), fun other different => ?_⟩
    rw [fallocate, FileSystem.modify_file_ne _ _ different, openForWriting,
      FileSystem.truncate_file_ne disk different]
  · exact ⟨Or.inr (Or.inr rfl), fun other different =>
      preAllocateWal_file_ne disk sizeBytes different⟩

theorem readFile_created (sizeBytes : Nat) :
    readFile ((File.empty.allocate sizeBytes).write 0 (packFileHeader magicBytes walCapacity 0 0)) =
      ⟨[], false⟩ := by
  have layout := layout_created File.empty 0 sizeBytes ∅ (by decide)
  exact layout.readFile fun r member => by cases member

theorem Readable.creation {disk disk' : FileSystem Nat} {flushed : List Record}
    {marked : Finset Nat} (readable : Readable disk flushed marked) {fileId sizeBytes : Nat}
    (unused : fileRecords flushed fileId = [])
    (member : disk' ∈ creationTrace disk fileId sizeBytes) : Readable disk' flushed marked := by
  obtain ⟨content, others⟩ := creationTrace_files disk fileId sizeBytes member
  rcases content with empty | allocated | rfl
  · exact readable.create unused empty readFile_empty others
  · exact readable.create unused allocated (readFile_allocated sizeBytes) others
  · exact readable.create unused (preAllocateWal_file_self disk fileId sizeBytes)
      (readFile_created sizeBytes) others

/-- The contents that a batch that fits goes through. -/
theorem Layout.appendTrace_fits {file : File} {fileId : Nat} {recs : List Record}
    {done : Finset Nat} (layout : Layout file fileId recs done) (clock : Nat → Nat)
    (copy : Finset Nat) (batch : List Record)
    (few : batch.length ≤ walCapacity) (valid : ∀ r ∈ batch, r.1 < 2 ^ 63)
    (fits : payloadBytes recs + payloadBytes batch ≤ payloadAreaSize) :
    appendTrace clock copy batch file =
      [file.write (headerBlockSize + payloadBytes recs) (payloadBlock batch),
        (file.write (headerBlockSize + payloadBytes recs) (payloadBlock batch)).write
          (entryOffset (getSlotIndex ((batch.map Prod.fst).headD 0)))
          ((entryHeaders clock copy (payloadBytes recs) batch).flatMap EntryHeader.pack),
        writtenFile clock copy batch (getSlotIndex ((batch.map Prod.fst).headD 0)) recs.length
          (payloadBytes recs) file] := by
  have capacity := layout.capacity
  have packable : (walCapacity < 256 ^ 4 ∧ recs.length + batch.length < 256 ^ 4 ∧
      payloadBytes recs + payloadBytes batch < 256 ^ 8) := by
    simp only [walCapacity, payloadAreaSize] at *
    omega
  simp only [appendTrace, layout.readHeader, layoutPayloads_ok batch _ fits,
    entryBlock_ok clock copy batch _ valid, packUpdatedHeader, packable, and_self,
    ↓reduceIte, writtenFile]

theorem Layout.appendTrace_overflow {file : File} {fileId : Nat} {recs : List Record}
    {done : Finset Nat} (layout : Layout file fileId recs done) (clock : Nat → Nat)
    (copy : Finset Nat) (batch : List Record) (nonempty : batch ≠ [])
    (overflow : payloadAreaSize < payloadBytes recs + payloadBytes batch) :
    appendTrace clock copy batch file = [] := by
  obtain ⟨e, refused⟩ := layoutPayloads_error batch _ nonempty overflow
  simp only [appendTrace, layout.readHeader, refused]

/-- Until the header is written the file holds what it held before, whatever has been put
into its free slots and its free space. -/
theorem OnDisk.appendTrace_fits {w : Wal} {flushed batch : List Record} {done : Finset Nat}
    {first i : Nat} (inv : OnDisk w flushed done)
    (found : w.disk.dir.lookup (first / walCapacity) = some i) (formed : IsBatch batch first)
    (payloads : ∀ r ∈ batch, r.2 ≠ []) (clock : Nat → Nat) (copy : Finset Nat)
    (valid : first + walCapacity < 2 ^ 63)
    (before : ∀ r ∈ flushed, r.1 < first) (aligned : Aligned flushed first)
    (copied : ∀ r ∈ batch, r.1 ∈ done ↔ r.1 ∈ copy)
    (fits : payloadBytes (fileRecords flushed (first / walCapacity)) + payloadBytes batch ≤
      payloadAreaSize) :
    ∃ paid listed full, Wal.appendTrace clock copy batch (w.disk.inode i) = [paid, listed, full] ∧
      OnDisk { w with disk := w.disk.update i paid } flushed done ∧
      OnDisk { w with disk := w.disk.update i listed } flushed done ∧
      OnDisk { w with disk := w.disk.update i full } (flushed ++ batch) done := by
  have layout := inv.files _ _ (FileSystem.file_of_lookup found)
  have room := formed.inFile
  have slot : getSlotIndex ((batch.map Prod.fst).headD 0) =
      (fileRecords flushed (first / walCapacity)).length := by
    rw [formed.head, getSlotIndex, aligned]
  have validIds : ∀ r ∈ batch, r.1 < 2 ^ 63 := by
    intro r member
    have bounds := formed.bounds member
    omega
  obtain ⟨_, extended⟩ := inv.append_fits found formed payloads clock copy valid before aligned
    fits (fun _ _ => Iff.rfl) copied
  have paid := layout.write_free (headerBlockSize +
    payloadBytes (fileRecords flushed (first / walCapacity))) (payloadBlock batch)
    (Or.inl (Nat.le_refl _))
  have listed := paid.write_free
    (entryOffset (fileRecords flushed (first / walCapacity)).length)
    ((entryHeaders clock copy (payloadBytes (fileRecords flushed (first / walCapacity)))
      batch).flatMap EntryHeader.pack) (by
      right
      rw [Aligned] at aligned
      rw [flatMap_pack_length, entryHeaders_length, aligned]
      simp only [entryOffset, headerBlockSize, walEntryHeaderSize, walCapacity] at room ⊢
      omega)
  have unchanged {content : File}
      (layout : Layout content (first / walCapacity)
        (fileRecords flushed (first / walCapacity)) done) :
      OnDisk { w with disk := w.disk.update i content } flushed done :=
    inv.update found layout (fun _ _ => rfl) (fun _ _ _ => Iff.rfl) inv.ascending inv.nonempty
  have trace := layout.appendTrace_fits clock copy batch (by omega) validIds fits
  rw [slot] at trace
  exact ⟨_, _, _, trace, unchanged paid, unchanged listed, extended⟩

theorem OnDisk.appendTrace_overflow {w : Wal} {flushed batch : List Record} {done : Finset Nat}
    {first i : Nat} (inv : OnDisk w flushed done)
    (found : w.disk.dir.lookup (first / walCapacity) = some i) (formed : IsBatch batch first)
    (clock : Nat → Nat) (copy : Finset Nat)
    (overflow : payloadAreaSize <
      payloadBytes (fileRecords flushed (first / walCapacity)) + payloadBytes batch) :
    Wal.appendTrace clock copy batch (w.disk.inode i) = [] :=
  (inv.files _ _ (FileSystem.file_of_lookup found)).appendTrace_overflow clock copy batch
    formed.nonempty overflow

/-- After each write of a batch, the creation of its file included, the reader finds the
records before the batch, and after the last write those of the batch as well. -/
theorem Settled.writeTrace {w : Wal} {written batch : List Record} {marked : Finset Nat}
    {first : Nat} (settled : Settled w written marked first) (formed : IsBatch batch first)
    (payloads : ∀ r ∈ batch, r.2 ≠ []) (clock : Nat → Nat) (copy : Finset Nat)
    (valid : first + walCapacity < 2 ^ 63) (aligned : Aligned written first)
    (copied : ∀ r ∈ batch, r.1 ∈ marked ↔ r.1 ∈ copy) {disk : FileSystem Nat}
    (member : disk ∈ Wal.writeTrace clock copy w batch) :
    Readable disk written marked ∨
      (payloadBytes (fileRecords written (first / walCapacity)) + payloadBytes batch ≤
        payloadAreaSize ∧ Readable disk (written ++ batch) marked) := by
  have reachable := settled.reachable (first / walCapacity)
  unfold Wal.writeTrace at member
  dsimp only at member
  rw [formed.head] at member
  rcases List.mem_append.mp member with creating | appending
  · left
    unfold ensureTrace at creating
    rw [getFilePath_ok (by omega)] at creating
    dsimp only at creating
    split at creating
    · cases creating
    · rename_i missing
      exact settled.disk.readable.creation (reachable.resolve_left missing).1 creating
  · obtain ⟨w', ensured, inv, touches⟩ :=
      settled.disk.ensureFile first batch valid reachable
    obtain ⟨i, found⟩ := Option.isSome_iff_exists.mp touches.exists_file
    rw [ensured] at appending
    dsimp only at appending
    rw [inv.getOpenFile found] at appending
    dsimp only at appending
    obtain ⟨content, appended, rfl⟩ := List.mem_map.mp appending
    by_cases fits : payloadBytes (fileRecords written (first / walCapacity)) +
        payloadBytes batch ≤ payloadAreaSize
    · obtain ⟨paid, listed, full, trace, inv₁, inv₂, inv₃⟩ :=
        (inv.opened found).appendTrace_fits found formed payloads clock copy valid
          settled.before aligned copied fits
      rw [trace] at appended
      simp only [List.mem_cons, List.not_mem_nil, or_false] at appended
      rcases appended with rfl | rfl | rfl
      · exact Or.inl inv₁.readable
      · exact Or.inl inv₂.readable
      · exact Or.inr ⟨fits, inv₃.readable⟩
    · rw [(inv.opened found).appendTrace_overflow found formed clock copy (by omega)] at appended
      cases appended

/-- The files of these records have room for them. -/
def RoomFor (written added : List Record) : Prop :=
  ∀ fileId, fileRecords added fileId ≠ [] →
    payloadBytes (fileRecords (written ++ added) fileId) ≤ payloadAreaSize

theorem roomFor_nil (written : List Record) : RoomFor written [] :=
  fun _ some => absurd rfl some

theorem IsBatch.roomFor {written batch : List Record} {first : Nat} (formed : IsBatch batch first)
    (fits : payloadBytes (fileRecords written (first / walCapacity)) + payloadBytes batch ≤
      payloadAreaSize) : RoomFor written batch := by
  intro fileId some
  by_cases here : fileId = first / walCapacity
  · rw [here, fileRecords_append, payloadBytes_append, fileRecords_all formed.home]
    exact fits
  · exact absurd (fileRecords_none formed.home here) some

theorem RoomFor.append {written front back : List Record} (first : RoomFor written front)
    (second : RoomFor (written ++ front) back) : RoomFor written (front ++ back) := by
  intro fileId some
  rw [fileRecords_append] at some
  by_cases none : fileRecords back fileId = []
  · rw [none, List.append_nil] at some
    rw [← List.append_assoc, fileRecords_append, none, List.append_nil]
    exact first fileId some
  · rw [← List.append_assoc]
    exact second fileId none

/-- Whatever the moment of the crash, some of a buffer's batches are in the log, from the
first on, and each of them in whole. -/
theorem Settled.flushTrace {w : Wal} {written : List Record} {marked : Finset Nat} {first : Nat}
    (batches : List (List Record)) (settled : Settled w written marked first)
    (chain : Chain first batches) (payloads : ∀ r ∈ batches.flatten, r.2 ≠ [])
    (clock : Nat → Nat) (copy : Finset Nat)
    (valid : ∀ r ∈ batches.flatten, r.1 + walCapacity < 2 ^ 63) (aligned : Aligned written first)
    (copied : ∀ r ∈ batches.flatten, r.1 ∈ marked ↔ r.1 ∈ copy) {disk : FileSystem Nat}
    (member : disk ∈ w.disk :: Wal.flushTrace clock copy w batches) :
    ∃ finished rest, batches = finished ++ rest ∧
      Readable disk (written ++ finished.flatten) marked ∧ RoomFor written finished.flatten := by
  induction batches generalizing w written first with
  | nil =>
      have same : disk = w.disk := by simpa [Wal.flushTrace] using member
      refine ⟨[], [], rfl, ?_, roomFor_nil written⟩
      rw [same]
      simpa using settled.disk.readable
  | cons batch rest ih =>
      obtain ⟨formed, boundary, later⟩ := chain
      rw [List.flatten_cons] at payloads valid copied
      have untouched (readable : Readable disk written marked) :
          ∃ finished others, batch :: rest = finished ++ others ∧
            Readable disk (written ++ finished.flatten) marked ∧
            RoomFor written finished.flatten :=
        ⟨[], batch :: rest, rfl, by simpa using readable, roomFor_nil written⟩
      have payloadsHere := fun r member => payloads r (List.mem_append_left _ member)
      have copiedHere := fun r member => copied r (List.mem_append_left _ member)
      have validFirst : first + walCapacity < 2 ^ 63 := by
        obtain ⟨r, tail, shape⟩ := List.exists_cons_of_ne_nil formed.nonempty
        have first : r ∈ batch := by
          rw [shape]
          exact List.mem_cons_self
        have low := (formed.bounds first).1
        have high := valid r (List.mem_append_left _ first)
        omega
      rcases List.mem_cons.mp member with same | writing
      · rw [same]
        exact same ▸ untouched (same ▸ settled.disk.readable)
      · unfold Wal.flushTrace at writing
        rcases List.mem_append.mp writing with here | after
        · rcases settled.writeTrace formed payloadsHere clock copy validFirst aligned copiedHere
            here with old | ⟨fits, new⟩
          · exact untouched old
          · refine ⟨[batch], rest, rfl, ?_, ?_⟩
            · simpa using new
            · simpa using formed.roomFor fits
        · by_cases fits : payloadBytes (fileRecords written (first / walCapacity)) +
              payloadBytes batch ≤ payloadAreaSize
          · obtain ⟨w', accepted, settled', _⟩ := settled.writeBatch_fits formed payloadsHere clock
              copy validFirst aligned copiedHere fits
            rw [accepted] at after
            obtain ⟨finished, others, split, readable, room⟩ := ih settled' later
              (fun r member => payloads r (List.mem_append_right _ member))
              (fun r member => valid r (List.mem_append_right _ member))
              (formed.aligned settled.before aligned)
              (fun r member => copied r (List.mem_append_right _ member))
              (List.mem_cons_of_mem _ after)
            refine ⟨batch :: finished, others, by rw [split]; rfl, ?_, ?_⟩
            · rw [List.flatten_cons, ← List.append_assoc]
              exact readable
            · rw [List.flatten_cons]
              exact (formed.roomFor fits).append room
          · obtain ⟨e, w', refused, _⟩ := settled.writeBatch_overflow formed clock copy validFirst
              (by omega)
            rw [refused] at after
            cases after

/-- The last state a list of states leads to is among them, or the state before them. -/
theorem getLastD_mem {State : Type} (states : List State) (start : State) :
    states.getLastD start ∈ start :: states := by
  cases last : states.getLast? with
  | none =>
      rw [List.getLastD_eq_getLast?, last]
      exact List.mem_cons_self
  | some state =>
      rw [List.getLastD_eq_getLast?, last]
      exact List.mem_cons_of_mem _ (List.mem_of_getLast? last)

theorem getLastD_append {State : Type} (front back : List State) (start : State) :
    (front ++ back).getLastD start = back.getLastD (front.getLastD start) := by
  simp only [List.getLastD_eq_getLast?, List.getLast?_append]
  cases back.getLast? with
  | none => rfl
  | some state => rfl

/-- The writes of a batch lead to the disk that `_write_batch_to_disk` leaves. -/
theorem writeTrace_last (clock : Nat → Nat) (copy : Finset Nat) (w : Wal) (batch : List Record) :
    (writeTrace clock copy w batch).getLastD w.disk =
      (writeBatchToDisk clock copy w batch).2.disk := by
  unfold writeTrace writeBatchToDisk
  dsimp only
  rw [getLastD_append, ensureTrace_last]
  rcases ensureFile w ((batch.map Prod.fst).headD 0) batch with ⟨outcome, w'⟩
  cases outcome with
  | error e => rfl
  | ok done =>
      dsimp only
      have disk : (getOpenFile w' ((batch.map Prod.fst).headD 0 / walCapacity)).2.disk = w'.disk := by
        unfold getOpenFile getOpenFile.reopen
        split
        · split
          · rfl
          · split <;> rfl
        · split <;> rfl
      rcases step : getOpenFile w' ((batch.map Prod.fst).headD 0 / walCapacity) with ⟨handle, opened⟩
      rw [step] at disk
      cases handle with
      | none => exact disk.symm
      | some i =>
          dsimp only at disk ⊢
          rw [← disk, ← appendTrace_last]
          cases shape : (appendTrace clock copy batch (opened.disk.inode i)).getLast? with
          | none =>
              simp only [List.getLastD_eq_getLast?, List.getLast?_map, shape, Option.map_none,
                Option.getD_none, FileSystem.update_same]
          | some last =>
              simp only [List.getLastD_eq_getLast?, List.getLast?_map, shape, Option.map_some,
                Option.getD_some]

/-- Every beginning of the list of batches that fits is what some crash leaves. -/
theorem Settled.flushTrace_reaches {w : Wal} {written : List Record} {marked : Finset Nat}
    {first : Nat} (finished rest : List (List Record)) (settled : Settled w written marked first)
    (chain : Chain first (finished ++ rest))
    (payloads : ∀ r ∈ finished.flatten, r.2 ≠ []) (clock : Nat → Nat) (copy : Finset Nat)
    (valid : ∀ r ∈ finished.flatten, r.1 + walCapacity < 2 ^ 63) (aligned : Aligned written first)
    (copied : ∀ r ∈ finished.flatten, r.1 ∈ marked ↔ r.1 ∈ copy)
    (room : RoomFor written finished.flatten) :
    ∃ disk ∈ w.disk :: Wal.flushTrace clock copy w (finished ++ rest),
      Readable disk (written ++ finished.flatten) marked := by
  induction finished generalizing w written first with
  | nil => exact ⟨w.disk, List.mem_cons_self, by simpa using settled.disk.readable⟩
  | cons batch finished ih =>
      obtain ⟨formed, boundary, later⟩ := chain
      rw [List.flatten_cons] at payloads valid copied room
      have validFirst : first + walCapacity < 2 ^ 63 := by
        obtain ⟨r, tail, shape⟩ := List.exists_cons_of_ne_nil formed.nonempty
        have first : r ∈ batch := by
          rw [shape]
          exact List.mem_cons_self
        have low := (formed.bounds first).1
        have high := valid r (List.mem_append_left _ first)
        omega
      have fits : payloadBytes (fileRecords written (first / walCapacity)) +
          payloadBytes batch ≤ payloadAreaSize := by
        have whole := room (first / walCapacity) (by
          rw [fileRecords_append, fileRecords_all formed.home]
          exact List.append_ne_nil_of_left_ne_nil formed.nonempty _)
        rw [fileRecords_append, fileRecords_append, fileRecords_all formed.home,
          payloadBytes_append, payloadBytes_append] at whole
        omega
      have roomLater : RoomFor (written ++ batch) finished.flatten := by
        intro fileId some
        rw [List.append_assoc]
        apply room fileId
        rw [fileRecords_append]
        exact List.append_ne_nil_of_right_ne_nil _ some
      obtain ⟨w', accepted, settled', _⟩ := settled.writeBatch_fits formed
        (fun r member => payloads r (List.mem_append_left _ member)) clock copy validFirst aligned
        (fun r member => copied r (List.mem_append_left _ member)) fits
      obtain ⟨disk, member, readable⟩ := ih settled' later
        (fun r member => payloads r (List.mem_append_right _ member))
        (fun r member => valid r (List.mem_append_right _ member))
        (formed.aligned settled.before aligned)
        (fun r member => copied r (List.mem_append_right _ member)) roomLater
      have reached : w'.disk ∈ w.disk :: Wal.writeTrace clock copy w batch := by
        have last := writeTrace_last clock copy w batch
        rw [accepted] at last
        rw [← last]
        exact getLastD_mem _ _
      refine ⟨disk, ?_, by rwa [List.flatten_cons, ← List.append_assoc]⟩
      rw [List.cons_append, Wal.flushTrace, accepted, ← List.cons_append]
      rcases List.mem_cons.mp member with rfl | after
      · exact List.mem_append_left _ reached
      · exact List.mem_append_right _ after

theorem Chain.later_files {finished rest : List (List Record)} {first : Nat}
    (chain : Chain first (finished ++ rest)) :
    ∀ r ∈ finished.flatten, ∀ r' ∈ rest.flatten, r.1 / walCapacity < r'.1 / walCapacity := by
  induction finished generalizing first with
  | nil =>
      intro r member
      cases member
  | cons batch finished ih =>
      obtain ⟨formed, boundary, later⟩ := chain
      intro r member r' member'
      rw [List.flatten_cons] at member
      rcases List.mem_append.mp member with here | there
      · have home := formed.home r here
        have behind : r' ∈ (finished ++ rest).flatten := by
          rw [List.flatten_append]
          exact List.mem_append_right _ member'
        have more : finished ++ rest ≠ [] := by
          intro empty
          rw [empty] at behind
          cases behind
        have newFile := boundary more
        have above := List.mem_range'_1.mp (later.ids ▸ List.mem_map_of_mem behind)
        have within := formed.inFile
        have positive := List.length_pos_iff.mpr formed.nonempty
        simp only [walCapacity] at *
        omega
      · exact ih later r there r' member'

/-- The batches of the files up to a given one come first. -/
theorem Chain.split_at {batches : List (List Record)} {first : Nat} (chain : Chain first batches)
    (fileId : Nat) :
    ∃ finished rest, batches = finished ++ rest ∧
      (∀ r ∈ finished.flatten, r.1 / walCapacity ≤ fileId) ∧
      ∀ r ∈ rest.flatten, fileId < r.1 / walCapacity := by
  induction batches generalizing first with
  | nil => exact ⟨[], [], rfl, by simp, by simp⟩
  | cons batch rest ih =>
      have whole := chain
      obtain ⟨formed, _, later⟩ := chain
      by_cases below : first / walCapacity ≤ fileId
      · obtain ⟨finished, others, split, low, high⟩ := ih later
        refine ⟨batch :: finished, others, by rw [split]; rfl, ?_, high⟩
        intro r member
        rw [List.flatten_cons] at member
        rcases List.mem_append.mp member with here | there
        · rw [formed.home r here]
          exact below
        · exact low r there
      · refine ⟨[], batch :: rest, rfl, by simp, ?_⟩
        intro r member
        rw [List.flatten_cons] at member
        obtain ⟨r₀, tail, shape⟩ := List.exists_cons_of_ne_nil formed.nonempty
        have first_record : r₀ ∈ batch := by
          rw [shape]
          exact List.mem_cons_self
        rcases List.mem_append.mp member with here | there
        · rw [formed.home r here]
          omega
        · have := @Chain.later_files [batch] rest first whole r₀ (by simpa using first_record) r there
          rw [formed.home r₀ first_record] at this
          omega

end CachyDb.Wal
