import CachyDb.Wal.Flush

set_option autoImplicit false

/-! The checkpoint archives sealed and fully completed WAL files. "Sealed" means
not the newest by name, while the writer picks the file of a batch by its ids. -/

namespace CachyDb.Wal

open ByteString

/-- The WAL with the archive directory next to it. Archives keep the content they
were made of; the compression is not modelled. -/
structure WALCheckpoint where
  wal : Wal
  archives : List (Nat × File)

/-- The entry loop of `is_file_fully_completed`. -/
def entriesCompleted (file : File) : Nat → Nat → Bool
  | _, 0 => true
  | slot, count + 1 =>
      let entryData := file.read (entryOffset slot) walEntryHeaderSize
      if entryData.length < walEntryHeaderSize then false
      else if (unpackEntryHeader entryData).isCompleted then entriesCompleted file (slot + 1) count
      else false

/-- The magic is checked before the checksum here, and any failure keeps the file. -/
def isFileFullyCompleted (disk : FileSystem Nat) (fileId : Nat) : Bool :=
  match disk.file fileId with
  | none => false
  | some file =>
      let headerData := file.read 0 walFileHeaderSize
      if headerData.length < walFileHeaderSize then false
      else
        let h := unpackFileHeader headerData
        if h.magic ≠ magicBytes then false
        else if h.computedChecksum ≠ h.checksum then false
        else entriesCompleted file 0 h.currentRecords

def archiveFile (c : WALCheckpoint) (fileId : Nat) : WALCheckpoint :=
  if fileId ∈ c.archives.map Prod.fst then c
  else
    match c.wal.disk.file fileId with
    | none => c
    | some content =>
        { wal := { c.wal with disk := c.wal.disk.unlink fileId }
          archives := c.archives ++ [(fileId, content)] }

/-- All files but the newest. -/
def sealedFiles (disk : FileSystem Nat) : List Nat := disk.sortedNames.dropLast

def runCheckpoint (activeFlushes : Nat) (c : WALCheckpoint) : WALCheckpoint :=
  if activeFlushes > 0 then c
  else
    (sealedFiles c.wal.disk).foldl
      (fun c fileId => if isFileFullyCompleted c.wal.disk fileId then archiveFile c fileId else c) c

/-- The background threads a batch write has started, run to their end. -/
def runPreAllocations (w : Wal) : Wal :=
  { w.preallocating.foldl preAllocateAsync w with preallocating := [] }

/-- The state between two batches when completed files may be gone: the file of the
next id `first` is there as soon as it has records, no file lies beyond the one
after it, and a stale handle can only belong to an earlier file. -/
structure Attended (w : Wal) (written : List Record) (flagged : Finset Nat) (first : Nat) :
    Prop where
  disk : OnDisk w written flagged
  live : ∀ r ∈ written, r.1 / walCapacity = first / walCapacity →
    w.disk.present (first / walCapacity) = true
  ahead : ∀ fileId, w.disk.present fileId = true → fileId ≤ first / walCapacity + 1
  current : ∀ path handle, w.currentFile = some (path, handle) →
    w.disk.present path = true ∨ path < first / walCapacity
  before : ∀ r ∈ written, r.1 < first
  valid : ∀ r ∈ written, r.1 < 2 ^ 63

theorem Attended.frame {w w' : Wal} {written : List Record} {flagged : Finset Nat} {first : Nat}
    (attended : Attended w written flagged first) (disk : w'.disk = w.disk)
    (current : w'.currentFile = w.currentFile) : Attended w' written flagged first := by
  refine ⟨attended.disk.frame disk current, ?_, ?_, ?_, attended.before, attended.valid⟩
  · rw [disk]
    exact attended.live
  · rw [disk]
    exact attended.ahead
  · rw [disk, current]
    exact attended.current

theorem Attended.reachable {w : Wal} {written : List Record} {flagged : Finset Nat}
    {first fileId : Nat} (attended : Attended w written flagged first)
    (ahead : first / walCapacity ≤ fileId) : Reachable w written fileId := by
  by_cases known : w.disk.present fileId = true
  · exact Or.inl known
  · refine Or.inr ⟨?_, ?_⟩
    · rw [List.eq_nil_iff_forall_not_mem]
      intro r member
      obtain ⟨inside, home⟩ := mem_fileRecords.mp member
      have below := attended.before r inside
      have same : r.1 / walCapacity = first / walCapacity := by
        simp only [walCapacity] at *
        omega
      have here := attended.live r inside same
      rw [← same, home] at here
      exact known here
    · intro handle opened
      rcases attended.current fileId handle opened with here | behind
      · exact known here
      · omega

/-- Creating the file of a later batch disturbs nothing. -/
theorem Attended.preAllocateAsync {w : Wal} {written : List Record} {flagged : Finset Nat}
    {first fileId : Nat} (attended : Attended w written flagged first)
    (ahead : first / walCapacity ≤ fileId) (near : fileId ≤ first / walCapacity + 1)
    (valid : fileId * walCapacity ≤ 2 ^ 63) :
    Attended (Wal.preAllocateAsync w fileId) written flagged first := by
  by_cases known : w.disk.present fileId = true
  · have same : Wal.preAllocateAsync w fileId = w := by
      simp only [Wal.preAllocateAsync, known, ↓reduceIte]
    rw [same]
    exact attended
  · have created : Wal.preAllocateAsync w fileId =
        { w with disk := preAllocateWal w.disk fileId fullSize } := by
      simp only [Wal.preAllocateAsync, known, Bool.false_eq_true, ↓reduceIte]
    obtain ⟨unused, closed⟩ := (attended.reachable ahead).resolve_left known
    have grows : ∀ other, w.disk.present other = true →
        (preAllocateWal w.disk fileId fullSize).present other = true := by
      intro other before
      rw [preAllocateWal_present, before, Bool.or_true]
    rw [created]
    refine ⟨attended.disk.preAllocate fileId fullSize unused valid closed, ?_, ?_, ?_,
      attended.before, attended.valid⟩
    · exact fun r member home => grows _ (attended.live r member home)
    · intro other known'
      rw [preAllocateWal_present, Bool.or_eq_true, decide_eq_true_eq] at known'
      rcases known' with same | before
      · omega
      · exact attended.ahead other before
    · exact fun path handle opened => (attended.current path handle opened).imp (grows _) id

theorem Attended.afterThreads {w : Wal} {written : List Record} {flagged : Finset Nat}
    {first : Nat} (attended : Attended w written flagged first)
    (targets : ∀ target ∈ w.preallocating, first / walCapacity ≤ target ∧
      target ≤ first / walCapacity + 1 ∧ target * walCapacity ≤ 2 ^ 63) :
    Attended (runPreAllocations w) written flagged first := by
  have each : ∀ (targets : List Nat) (w : Wal), Attended w written flagged first →
      (∀ target ∈ targets, first / walCapacity ≤ target ∧ target ≤ first / walCapacity + 1 ∧
        target * walCapacity ≤ 2 ^ 63) →
      Attended (targets.foldl Wal.preAllocateAsync w) written flagged first := by
    intro targets
    induction targets with
    | nil => exact fun w here _ => here
    | cons target rest ih =>
        intro w here bounds
        obtain ⟨ahead, near, valid⟩ := bounds target List.mem_cons_self
        exact ih _ (here.preAllocateAsync ahead near valid)
          (fun other member => bounds other (List.mem_cons_of_mem _ member))
  exact (each _ w attended targets).frame rfl rfl

/-- The writer may move on past ids it has given up. -/
theorem Attended.advance {w : Wal} {written : List Record} {flagged : Finset Nat}
    {first first' : Nat} (attended : Attended w written flagged first) (after : first ≤ first') :
    Attended w written flagged first' := by
  have files : first / walCapacity ≤ first' / walCapacity := Nat.div_le_div_right after
  refine ⟨attended.disk, ?_, ?_, ?_, ?_, attended.valid⟩
  · intro r member home
    have below := attended.before r member
    have same : first' / walCapacity = first / walCapacity := by
      simp only [walCapacity] at *
      omega
    rw [same] at home ⊢
    exact attended.live r member home
  · intro fileId known
    have := attended.ahead fileId known
    omega
  · intro path handle opened
    exact (attended.current path handle opened).imp id (fun behind => by omega)
  · intro r member
    exact Nat.lt_of_lt_of_le (attended.before r member) after

theorem preAllocateAsync_fields (w : Wal) (fileId : Nat) :
    (preAllocateAsync w fileId).globalTxId = w.globalTxId ∧
      (preAllocateAsync w fileId).walBuffer = w.walBuffer ∧
      (preAllocateAsync w fileId).ramCompletedTx = w.ramCompletedTx := by
  unfold preAllocateAsync
  split <;> exact ⟨rfl, rfl, rfl⟩

theorem runPreAllocations_fields (w : Wal) :
    (runPreAllocations w).globalTxId = w.globalTxId ∧
      (runPreAllocations w).walBuffer = w.walBuffer ∧
      (runPreAllocations w).ramCompletedTx = w.ramCompletedTx := by
  have each : ∀ (targets : List Nat) (w : Wal),
      (targets.foldl preAllocateAsync w).globalTxId = w.globalTxId ∧
        (targets.foldl preAllocateAsync w).walBuffer = w.walBuffer ∧
        (targets.foldl preAllocateAsync w).ramCompletedTx = w.ramCompletedTx := by
    intro targets
    induction targets with
    | nil => exact fun w => ⟨rfl, rfl, rfl⟩
    | cons target rest ih =>
        intro w
        obtain ⟨counter, buffer, ram⟩ := preAllocateAsync_fields w target
        obtain ⟨counter', buffer', ram'⟩ := ih (preAllocateAsync w target)
        exact ⟨counter'.trans counter, buffer'.trans buffer, ram'.trans ram⟩
  exact each w.preallocating w

/-- What a batch write leaves of the fields under the lock. -/
structure SameVolatile (w w' : Wal) : Prop where
  globalTxId : w'.globalTxId = w.globalTxId
  walBuffer : w'.walBuffer = w.walBuffer
  ramCompletedTx : w'.ramCompletedTx = w.ramCompletedTx
  idle : w'.preallocating = []

theorem Touches.sameVolatile {w w' : Wal} {fileId : Nat} (touches : Touches w w' fileId) :
    SameVolatile w (runPreAllocations w') := by
  obtain ⟨counter, buffer, ram⟩ := runPreAllocations_fields w'
  exact ⟨counter.trans touches.globalTxId, buffer.trans touches.walBuffer,
    ram.trans touches.ramCompletedTx, rfl⟩

theorem Attended.writeBatch_fits {w : Wal} {written batch : List Record}
    {flagged flagged' : Finset Nat} {first : Nat} (attended : Attended w written flagged first)
    (idle : w.preallocating = []) (formed : IsBatch batch first)
    (payloads : ∀ r ∈ batch, r.2 ≠ []) (clock : Nat → Nat)
    (copy : Finset Nat) (valid : first + walCapacity < 2 ^ 63) (aligned : Aligned written first)
    (fits : payloadBytes (fileRecords written (first / walCapacity)) + payloadBytes batch ≤
      payloadAreaSize)
    (kept : ∀ r ∈ written, r.1 ∈ flagged' ↔ r.1 ∈ flagged)
    (copied : ∀ r ∈ batch, r.1 ∈ flagged' ↔ r.1 ∈ copy) :
    ∃ w', writeBatchToDisk clock copy w batch = (.ok (), w') ∧
      Attended (runPreAllocations w') (written ++ batch) flagged' (first + batch.length) ∧
      SameVolatile w (runPreAllocations w') := by
  obtain ⟨w', accepted, disk, touches, handle, current⟩ :=
    attended.disk.writeBatch_fits formed payloads clock copy valid (attended.reachable (Nat.le_refl _))
      attended.before aligned fits kept copied
  have within := formed.inFile
  have low := div_mul_le first
  have exists_file := touches.exists_file
  have after : Attended w' (written ++ batch) flagged' (first + batch.length) := by
    refine ⟨disk, ?_, ?_, ?_, ?_, ?_⟩
    · intro r member home
      have inFile : (first + batch.length) / walCapacity = first / walCapacity := by
        rcases List.mem_append.mp member with old | new
        · have := attended.before r old
          simp only [walCapacity] at *
          omega
        · have := formed.home r new
          simp only [walCapacity] at *
          omega
      rw [inFile]
      exact exists_file
    · intro fileId known
      have files : first / walCapacity ≤ (first + batch.length) / walCapacity :=
        Nat.div_le_div_right (Nat.le_add_right _ _)
      rw [touches.present, Bool.or_eq_true, decide_eq_true_eq] at known
      rcases known with same | before
      · omega
      · have := attended.ahead fileId before
        omega
    · intro path handle' opened
      rw [current] at opened
      cases opened
      exact Or.inl exists_file
    · intro r member
      rcases List.mem_append.mp member with old | new
      · have := attended.before r old
        omega
      · exact (formed.bounds new).2
    · intro r member
      rcases List.mem_append.mp member with old | new
      · exact attended.valid r old
      · have := formed.bounds new
        omega
  refine ⟨w', accepted, after.afterThreads ?_, touches.sameVolatile⟩
  intro target member
  rcases touches.threads target member with old | next
  · rw [idle] at old
    cases old
  · rw [next]
    simp only [walCapacity] at *
    omega

theorem Attended.writeBatch_overflow {w : Wal} {written batch : List Record}
    {flagged : Finset Nat} {first : Nat} (attended : Attended w written flagged first)
    (idle : w.preallocating = []) (formed : IsBatch batch first) (clock : Nat → Nat)
    (copy : Finset Nat) (valid : first + walCapacity < 2 ^ 63)
    (overflow : payloadAreaSize <
      payloadBytes (fileRecords written (first / walCapacity)) + payloadBytes batch) :
    ∃ e w', writeBatchToDisk clock copy w batch = (.error e, w') ∧
      Attended (runPreAllocations w') written flagged first ∧
      SameVolatile w (runPreAllocations w') := by
  obtain ⟨e, w', refused, disk, touches, handle, current⟩ :=
    attended.disk.writeBatch_overflow formed clock copy valid
      (attended.reachable (Nat.le_refl _)) overflow
  have low := div_mul_le first
  have after : Attended w' written flagged first := by
    refine ⟨disk, fun _ _ _ => touches.exists_file, ?_, ?_, attended.before, attended.valid⟩
    · intro fileId known
      rw [touches.present, Bool.or_eq_true, decide_eq_true_eq] at known
      rcases known with same | before
      · omega
      · exact attended.ahead fileId before
    · intro path handle' opened
      rw [current] at opened
      cases opened
      exact Or.inl touches.exists_file
  refine ⟨e, w', refused, after.afterThreads ?_, touches.sameVolatile⟩
  intro target member
  rcases touches.threads target member with old | next
  · rw [idle] at old
    cases old
  · rw [next]
    simp only [walCapacity] at *
    omega

theorem Attended.keeps {w w' : Wal} {written : List Record} {flagged flagged' : Finset Nat}
    {first : Nat} (attended : Attended w written flagged first) (disk : OnDisk w' written flagged')
    (keeps : KeepsNames w w') : Attended w' written flagged' first := by
  refine ⟨disk, ?_, ?_, ?_, attended.before, attended.valid⟩
  · rw [keeps.present]
    exact attended.live
  · intro fileId known
    rw [keeps.present] at known
    exact attended.ahead fileId known
  · intro path handle opened
    rw [keeps.present]
    exact (keeps.current path handle opened).elim (attended.current path handle) Or.inl

theorem Layout.entriesCompleted {file : File} {fileId : Nat} {recs : List Record}
    {done : Finset Nat} (layout : Layout file fileId recs done) (count : Nat) :
    ∀ slot, slot + count = recs.length → Wal.entriesCompleted file slot count = true →
      ∀ r ∈ recs.drop slot, r.1 ∈ done := by
  induction count with
  | zero =>
      intro slot atEnd _ r member
      rw [List.drop_eq_nil_of_le (by omega)] at member
      cases member
  | succ count ih =>
      intro slot atEnd completed r member
      have inside : slot < recs.length := by omega
      obtain ⟨whole, _, flag, _⟩ := layout.readHeaderEntry slot inside
      simp only [Wal.entriesCompleted, whole, lt_self_iff_false, ↓reduceIte, flag,
        decide_eq_true_eq, Bool.if_false_right, Bool.and_eq_true] at completed
      rw [List.drop_eq_getElem_cons inside] at member
      rcases List.mem_cons.mp member with rfl | later
      · exact completed.1
      · exact ih (slot + 1) (by omega) completed.2 r later

/-- A file that passes the check has every record flagged. -/
theorem OnDisk.fullyCompleted {w : Wal} {written : List Record} {flagged : Finset Nat}
    (inv : OnDisk w written flagged) {fileId : Nat}
    (completed : isFileFullyCompleted w.disk fileId = true) :
    ∀ r ∈ fileRecords written fileId, r.1 ∈ flagged := by
  cases known : w.disk.file fileId with
  | none =>
      simp only [isFileFullyCompleted, known, Bool.false_eq_true] at completed
  | some file =>
      have layout := inv.files fileId file known
      have capacity := layout.capacity
      have room := layout.room
      have header := layout.header.read (packFileHeader_length _ _ _ _ rfl)
      have unpacked := unpackFileHeader_pack magicBytes walCapacity
        (fileRecords written fileId).length (payloadBytes (fileRecords written fileId)) rfl
        (by decide) (by simp only [walCapacity] at *; omega)
        (by simp only [payloadAreaSize] at *; omega)
      have width := packFileHeader_length magicBytes walCapacity (fileRecords written fileId).length
        (payloadBytes (fileRecords written fileId)) rfl
      simp only [isFileFullyCompleted, known, header, width, unpacked, lt_self_iff_false,
        ↓reduceIte, ne_eq, not_true_eq_false, FileHeader.computedChecksum] at completed
      exact layout.entriesCompleted _ 0 (Nat.zero_add _) completed

/-- Archiving a file of flagged records before the writer's file keeps the log. -/
theorem Attended.archiveFile {c : WALCheckpoint} {written : List Record} {flagged : Finset Nat}
    {first fileId : Nat} (attended : Attended c.wal written flagged first)
    (completed : ∀ r ∈ fileRecords written fileId, r.1 ∈ flagged)
    (behind : fileId ∉ c.archives.map Prod.fst → fileId < first / walCapacity) :
    Attended (Wal.archiveFile c fileId).wal written flagged first := by
  unfold Wal.archiveFile
  split
  · exact attended
  · rename_i absent
    have before := behind absent
    split
    · exact attended
    · have lookup : ∀ other, other ≠ fileId →
          (c.wal.disk.unlink fileId).dir.lookup other = c.wal.disk.dir.lookup other :=
        fun other different => AList.lookup_erase_ne different
      have present : ∀ other, other ≠ fileId →
          (c.wal.disk.unlink fileId).present other = c.wal.disk.present other :=
        fun other different => by simp only [FileSystem.present, lookup other different]
      refine ⟨⟨attended.disk.ascending, attended.disk.nonempty, ?_, ?_, ?_⟩, ?_, ?_, ?_,
        attended.before, attended.valid⟩
      · intro other file known
        by_cases same : other = fileId
        · subst same
          rw [FileSystem.unlink_file_self] at known
          cases known
        · rw [FileSystem.unlink_file_ne _ same] at known
          exact attended.disk.files other file known
      · intro r member
        by_cases same : r.1 / walCapacity = fileId
        · exact Or.inl (completed r (mem_fileRecords.mpr ⟨member, same⟩))
        · rw [present _ same]
          exact attended.disk.kept r member
      · intro path handle i opened known
        by_cases same : path = fileId
        · subst same
          rw [show (c.wal.disk.unlink path).dir.lookup path = none from AList.lookup_erase _ _]
            at known
          cases known
        · rw [lookup path same] at known
          exact attended.disk.handle path handle i opened known
      · intro r member home
        rw [present _ (Nat.ne_of_gt before)]
        exact attended.live r member home
      · intro other known
        by_cases same : other = fileId
        · omega
        · rw [present other same] at known
          exact attended.ahead other known
      · intro path handle opened
        by_cases same : path = fileId
        · exact Or.inr (by rw [same]; exact before)
        · rw [present path same]
          exact attended.current path handle opened

theorem archiveFile_fields (c : WALCheckpoint) (fileId : Nat) :
    (archiveFile c fileId).wal.globalTxId = c.wal.globalTxId ∧
      (archiveFile c fileId).wal.walBuffer = c.wal.walBuffer ∧
      (archiveFile c fileId).wal.ramCompletedTx = c.wal.ramCompletedTx ∧
      (archiveFile c fileId).wal.preallocating = c.wal.preallocating := by
  unfold archiveFile
  split
  · exact ⟨rfl, rfl, rfl, rfl⟩
  · split <;> exact ⟨rfl, rfl, rfl, rfl⟩

/-- Archiving one file makes no other file look completed, and no archive goes. -/
theorem archiveFile_shrinks (c : WALCheckpoint) (fileId other : Nat) :
    (isFileFullyCompleted (archiveFile c fileId).wal.disk other = true →
      isFileFullyCompleted c.wal.disk other = true) ∧
    (other ∈ c.archives.map Prod.fst → other ∈ (archiveFile c fileId).archives.map Prod.fst) := by
  unfold archiveFile
  split
  · exact ⟨id, id⟩
  · split
    · exact ⟨id, id⟩
    · constructor
      · intro completed
        by_cases same : other = fileId
        · simp only [isFileFullyCompleted, same, FileSystem.unlink_file_self,
            Bool.false_eq_true] at completed
        · simpa only [isFileFullyCompleted, FileSystem.unlink_file_ne _ same] using completed
      · intro member
        rw [List.map_append]
        exact List.mem_append_left _ member

/-- The checkpoint would archive the file `active`: a newer file seals it, and it
has no uncompleted entry. -/
def Archives (c : WALCheckpoint) (active : Nat) : Prop :=
  active ∈ sealedFiles c.wal.disk ∧ isFileFullyCompleted c.wal.disk active = true ∧
    active ∉ c.archives.map Prod.fst

instance (c : WALCheckpoint) (active : Nat) : Decidable (Archives c active) :=
  inferInstanceAs (Decidable (_ ∧ _ ∧ _))

/-- The newest file is not sealed. -/
theorem sealed_lt_newest {disk : FileSystem Nat} {fileId : Nat}
    (closed : fileId ∈ sealedFiles disk) : ∃ newer, disk.present newer = true ∧ fileId < newer := by
  cases last : disk.sortedNames.getLast? with
  | none =>
      rw [sealedFiles, List.getLast?_eq_none_iff.mp last] at closed
      cases closed
  | some newest =>
      obtain ⟨front, shape⟩ := List.getLast?_eq_some_iff.mp last
      have ordered := FileSystem.sortedNames_strict disk
      rw [shape, List.pairwise_append] at ordered
      rw [sealedFiles, shape, List.dropLast_concat] at closed
      refine ⟨newest, ?_, ordered.2.2 fileId closed newest (by simp)⟩
      exact FileSystem.present_iff.mpr
        (FileSystem.mem_sortedNames.mp (List.mem_of_getLast? last))

theorem Attended.runCheckpoint {c : WALCheckpoint} {written : List Record} {flagged : Finset Nat}
    {first : Nat} (attended : Attended c.wal written flagged first) (activeFlushes : Nat)
    (spares : activeFlushes = 0 → ¬ Archives c (first / walCapacity)) :
    Attended (Wal.runCheckpoint activeFlushes c).wal written flagged first ∧
      (Wal.runCheckpoint activeFlushes c).wal.globalTxId = c.wal.globalTxId ∧
      (Wal.runCheckpoint activeFlushes c).wal.walBuffer = c.wal.walBuffer ∧
      (Wal.runCheckpoint activeFlushes c).wal.ramCompletedTx = c.wal.ramCompletedTx ∧
      (Wal.runCheckpoint activeFlushes c).wal.preallocating = c.wal.preallocating := by
  unfold Wal.runCheckpoint
  split
  · exact ⟨attended, rfl, rfl, rfl, rfl⟩
  · rename_i idle
    have behind : ∀ fileId ∈ sealedFiles c.wal.disk,
        isFileFullyCompleted c.wal.disk fileId = true → fileId ∉ c.archives.map Prod.fst →
          fileId < first / walCapacity := by
      intro fileId closed completed absent
      obtain ⟨newer, known, below⟩ := sealed_lt_newest closed
      have near := attended.ahead newer known
      have other : fileId ≠ first / walCapacity := by
        rintro rfl
        exact spares (by omega) ⟨closed, completed, absent⟩
      omega
    clear spares
    generalize sealedFiles c.wal.disk = files at behind ⊢
    induction files generalizing c with
    | nil => exact ⟨attended, rfl, rfl, rfl, rfl⟩
    | cons fileId rest ih =>
        rw [List.foldl_cons]
        by_cases completed : isFileFullyCompleted c.wal.disk fileId = true
        · simp only [completed, ↓reduceIte]
          have archived := attended.archiveFile (attended.disk.fullyCompleted completed)
            (behind fileId List.mem_cons_self completed)
          obtain ⟨counter, buffer, ram, threads⟩ := archiveFile_fields c fileId
          obtain ⟨attended', counter', buffer', ram', threads'⟩ := ih archived (by
            intro other member completed' absent
            obtain ⟨before, kept⟩ := archiveFile_shrinks c fileId other
            exact behind other (List.mem_cons_of_mem _ member) (before completed')
              (fun listed => absent (kept listed)))
          exact ⟨attended', counter'.trans counter, buffer'.trans buffer, ram'.trans ram,
            threads'.trans threads⟩
        · simp only [completed, Bool.false_eq_true, ↓reduceIte]
          exact ih attended
            (fun other member => behind other (List.mem_cons_of_mem _ member))

end CachyDb.Wal
