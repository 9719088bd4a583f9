import CachyDb.Wal.Checkpoint

set_option autoImplicit false

/-! Two parsers of one file: the completeness test of the checkpoint, which gives up at
the first thing it does not like, and the reader of the recovery, which skips what it
cannot use and stops where the entries stop. -/

namespace CachyDb.Wal

open ByteString

/-- The entry header at `slot`. -/
def entryAt (file : File) (slot : Nat) : EntryHeader :=
  unpackEntryHeader (file.read (entryOffset slot) walEntryHeaderSize)

/-- All of the entry header at `slot` is in the file. -/
def HeaderPresent (file : File) (slot : Nat) : Prop :=
  (file.read (entryOffset slot) walEntryHeaderSize).length = walEntryHeaderSize

/-- A length the reader accepts stands at the payload offset, and as many bytes behind it. -/
structure PayloadPresent (file : File) (payloadOffset : Nat) : Prop where
  lengthBytes : (file.read payloadOffset 4).length = 4
  positive : 1 ≤ ofBE (file.read payloadOffset 4)
  bounded : ofBE (file.read payloadOffset 4) ≤ payloadAreaSize
  complete : (file.read (payloadOffset + 4) (ofBE (file.read payloadOffset 4))).length =
    ofBE (file.read payloadOffset 4)

/-- The entries that a header speaks for are there, the open ones with their payloads. -/
structure Intact (file : File) (currentRecords : Nat) : Prop where
  headers : ∀ slot, slot < currentRecords → HeaderPresent file slot
  payloads : ∀ slot, slot < currentRecords → (entryAt file slot).isCompleted = false →
    PayloadPresent file (entryAt file slot).payloadOffset

/-- The test looks at one entry after the other and asks the same of each. -/
theorem entriesCompleted_iff (file : File) (slot count : Nat) :
    entriesCompleted file slot count = true ↔
      ∀ i, i < count →
        HeaderPresent file (slot + i) ∧ (entryAt file (slot + i)).isCompleted = true := by
  induction count generalizing slot with
  | zero => simp [entriesCompleted]
  | succ count ih =>
      have width : (file.read (entryOffset slot) walEntryHeaderSize).length ≤
          walEntryHeaderSize := by
        rw [File.read_length]
        omega
      have here : entriesCompleted file slot (count + 1) = true ↔
          (HeaderPresent file slot ∧ (entryAt file slot).isCompleted = true) ∧
            entriesCompleted file (slot + 1) count = true := by
        simp only [entriesCompleted, HeaderPresent, entryAt]
        by_cases short : (file.read (entryOffset slot) walEntryHeaderSize).length <
          walEntryHeaderSize
        · simp only [short, Nat.ne_of_lt short, Bool.false_eq_true, false_and, ↓reduceIte]
        · have whole : (file.read (entryOffset slot) walEntryHeaderSize).length =
              walEntryHeaderSize := by
            omega
          simp only [whole, Nat.lt_irrefl, true_and, ↓reduceIte, Bool.if_false_right,
            Bool.and_eq_true, decide_eq_true_eq]
      rw [here, ih]
      constructor
      · rintro ⟨first, rest⟩ i below
        cases i with
        | zero => exact first
        | succ i =>
            have later := rest i (by omega)
            rwa [show slot + 1 + i = slot + (i + 1) by omega] at later
      · intro all
        refine ⟨all 0 (by omega), fun i below => ?_⟩
        have later := all (i + 1) (by omega)
        rwa [show slot + (i + 1) = slot + 1 + i by omega] at later

/-- The reader passes over a completed entry. -/
theorem readEntry_completed {file : File} {slot : Nat} (present : HeaderPresent file slot)
    (completed : (entryAt file slot).isCompleted = true) : readEntry file slot = .skip := by
  simp only [HeaderPresent] at present
  simp only [entryAt] at completed
  simp only [readEntry, present, completed, Nat.lt_irrefl, ↓reduceIte]

/-- An open entry with its payload is either yielded, or too far out to be sought. -/
theorem readEntry_open {file : File} {slot : Nat} (present : HeaderPresent file slot)
    (uncompleted : (entryAt file slot).isCompleted = false)
    (payload : PayloadPresent file (entryAt file slot).payloadOffset) :
    readEntry file slot =
      if (entryAt file slot).payloadOffset ≥ 2 ^ 63 then .raises
      else .yields ((entryAt file slot).txId,
        file.read ((entryAt file slot).payloadOffset + 4)
          (ofBE (file.read (entryAt file slot).payloadOffset 4))) := by
  obtain ⟨lengthBytes, positive, bounded, complete⟩ := payload
  simp only [HeaderPresent] at present
  simp only [entryAt] at *
  have accepted : ¬ (ofBE (file.read (unpackEntryHeader
      (file.read (entryOffset slot) walEntryHeaderSize)).payloadOffset 4) = 0 ∨
      ofBE (file.read (unpackEntryHeader
        (file.read (entryOffset slot) walEntryHeaderSize)).payloadOffset 4) > payloadAreaSize) := by
    omega
  simp only [readEntry, present, uncompleted, lengthBytes, accepted, complete, Nat.lt_irrefl,
    Bool.false_eq_true, ↓reduceIte]
  rfl

/-- What the test accepts, the reader skips to the end. -/
theorem readEntries_completed {file : File} {slot count : Nat}
    (completed : entriesCompleted file slot count = true) :
    readEntries file slot count = ⟨[], false⟩ := by
  have all := (entriesCompleted_iff file slot count).mp completed
  clear completed
  induction count generalizing slot with
  | zero => rfl
  | succ count ih =>
      obtain ⟨present, done⟩ := all 0 (by omega)
      rw [Nat.add_zero] at present done
      simp only [readEntries, readEntry_completed present done]
      apply ih
      intro i below
      have later := all (i + 1) (by omega)
      rwa [show slot + (i + 1) = slot + 1 + i by omega] at later

/-- Reading an intact file to its end without a record takes completed entries only. -/
theorem Intact.completed {file : File} {currentRecords : Nat} (intact : Intact file currentRecords)
    {slot count : Nat} (within : slot + count ≤ currentRecords)
    (silent : readEntries file slot count = ⟨[], false⟩) :
    entriesCompleted file slot count = true := by
  rw [entriesCompleted_iff]
  induction count generalizing slot with
  | zero => simp
  | succ count ih =>
      have present := intact.headers slot (by omega)
      cases done : (entryAt file slot).isCompleted with
      | false =>
          have reads := readEntry_open present done (intact.payloads slot (by omega) done)
          by_cases far : (entryAt file slot).payloadOffset ≥ 2 ^ 63
          · simp only [readEntries, reads, far, ↓reduceIte, Yielded.mk.injEq, Bool.true_eq_false,
              and_false] at silent
          · simp only [readEntries, reads, far, ↓reduceIte, Yielded.mk.injEq, reduceCtorEq,
              false_and] at silent
      | true =>
          simp only [readEntries, readEntry_completed present done] at silent
          have fewer : slot + 1 + count ≤ currentRecords := by omega
          have rest := ih fewer silent
          intro i below
          cases i with
          | zero => exact ⟨present, done⟩
          | succ i =>
              have later := rest i (by omega)
              rwa [show slot + 1 + i = slot + (i + 1) by omega] at later

/-- In a file that can exist every payload can be sought, so the reader does not raise. -/
theorem Intact.readEntries_raised {file : File} {currentRecords : Nat}
    (intact : Intact file currentRecords) (addressable : file.size ≤ 2 ^ 63) {slot count : Nat}
    (within : slot + count ≤ currentRecords) : (readEntries file slot count).raised = false := by
  induction count generalizing slot with
  | zero => rfl
  | succ count ih =>
      have fewer : slot + 1 + count ≤ currentRecords := by omega
      have rest := ih fewer
      have present := intact.headers slot (by omega)
      cases done : (entryAt file slot).isCompleted with
      | false =>
          have payload := intact.payloads slot (by omega) done
          have width := payload.lengthBytes
          rw [File.read_length] at width
          have near : ¬ (entryAt file slot).payloadOffset ≥ 2 ^ 63 := by omega
          simp only [readEntries, readEntry_open present done payload, near, ↓reduceIte]
          exact rest
      | true =>
          simp only [readEntries, readEntry_completed present done]
          exact rest

/-- The checks of the two headers come in another order and accept the same headers. -/
theorem isFileFullyCompleted_iff {disk : FileSystem Nat} {fileId : Nat} {file : File}
    (here : disk.file fileId = some file) :
    isFileFullyCompleted disk fileId = true ↔
      ∃ h, checkFileHeader (file.read 0 walFileHeaderSize) = .ok h ∧
        entriesCompleted file 0 h.currentRecords = true := by
  have width : (file.read 0 walFileHeaderSize).length ≤ walFileHeaderSize := by
    rw [File.read_length]
    omega
  simp only [isFileFullyCompleted, here, checkFileHeader]
  by_cases short : (file.read 0 walFileHeaderSize).length < walFileHeaderSize
  · simp only [short, Nat.ne_of_lt short, ne_eq, not_false_eq_true, Bool.false_eq_true,
      reduceCtorEq, false_and, exists_false, ↓reduceIte]
  · have exactly : (file.read 0 walFileHeaderSize).length = walFileHeaderSize := by omega
    simp only [exactly, Nat.lt_irrefl, ne_eq, not_true_eq_false, ↓reduceIte]
    by_cases magic : (unpackFileHeader (file.read 0 walFileHeaderSize)).magic = magicBytes
    · by_cases sum : (unpackFileHeader (file.read 0 walFileHeaderSize)).computedChecksum =
        (unpackFileHeader (file.read 0 walFileHeaderSize)).checksum
      · simp [magic, sum]
      · simp [magic, sum]
    · by_cases sum : (unpackFileHeader (file.read 0 walFileHeaderSize)).computedChecksum =
        (unpackFileHeader (file.read 0 walFileHeaderSize)).checksum
      · simp [magic, sum]
      · simp [magic, sum]

/-- Whatever the bytes of a file are, the recovery finds nothing in it when the checkpoint
calls it completed. Where the entries and the open payloads are all there, the recovery
finds nothing only then. -/
theorem completed_iff_reads_nothing (disk : FileSystem Nat) (fileId : Nat) (file : File)
    (here : disk.file fileId = some file) :
    (isFileFullyCompleted disk fileId = true → readFile file = ⟨[], false⟩) ∧
      ∀ h, checkFileHeader (file.read 0 walFileHeaderSize) = .ok h →
        Intact file h.currentRecords →
          (isFileFullyCompleted disk fileId = true ↔ readFile file = ⟨[], false⟩) ∧
          (file.size ≤ 2 ^ 63 →
            (isFileFullyCompleted disk fileId = true ↔ (readFile file).records = [])) := by
  have sound : isFileFullyCompleted disk fileId = true → readFile file = ⟨[], false⟩ := by
    intro completed
    obtain ⟨h, checked, entries⟩ := (isFileFullyCompleted_iff here).mp completed
    simp only [readFile, checked]
    exact readEntries_completed entries
  refine ⟨sound, fun h checked intact => ?_⟩
  have exact : isFileFullyCompleted disk fileId = true ↔ readFile file = ⟨[], false⟩ := by
    refine ⟨sound, fun silent => ?_⟩
    simp only [readFile, checked] at silent
    exact (isFileFullyCompleted_iff here).mpr ⟨h, checked, intact.completed (by omega) silent⟩
  refine ⟨exact, fun addressable => exact.trans ?_⟩
  have calm := intact.readEntries_raised addressable (Nat.le_of_eq (Nat.zero_add _))
  simp only [readFile, checked]
  constructor
  · intro silent
    rw [silent]
  · intro silent
    cases read : readEntries file 0 h.currentRecords with
    | mk records raised =>
        rw [read] at silent calm
        simp only at silent calm
        rw [silent, calm]

/-- A file with one entry that is still open, its payload right behind the entry. -/
def openFile : File :=
  File.ofBytes (packFileHeader magicBytes 2 1 5 ++ EntryHeader.pack ⟨1, 0, false, 57⟩ ++
    payloadWithLen [7])

def openLog : FileSystem Nat := (FileSystem.empty.truncate 0).modify 0 fun _ => openFile

theorem open_file_reads_its_record :
    isFileFullyCompleted openLog 0 = false ∧ readFile openFile = ⟨[(1, [7])], false⟩ := by
  have here : openLog.file 0 = some openFile := rfl
  have facts : readFile openFile = ⟨[(1, [7])], false⟩ ∧
      checkFileHeader (openFile.read 0 walFileHeaderSize) =
        .ok (unpackFileHeader (openFile.read 0 walFileHeaderSize)) ∧
      (unpackFileHeader (openFile.read 0 walFileHeaderSize)).currentRecords = 1 ∧
      HeaderPresent openFile 0 ∧
      openFile.read (entryAt openFile 0).payloadOffset 4 = [0, 0, 0, 1] ∧
      openFile.read ((entryAt openFile 0).payloadOffset + 4) 1 = [7] := by
    unfold HeaderPresent
    decide +kernel
  obtain ⟨reads, checked, one, present, word, byte⟩ := facts
  have length : ofBE (openFile.read (entryAt openFile 0).payloadOffset 4) = 1 := by
    rw [word]
    decide
  have intact : Intact openFile
      (unpackFileHeader (openFile.read 0 walFileHeaderSize)).currentRecords := by
    rw [one]
    constructor
    · intro slot below
      rw [Nat.lt_one_iff.mp below]
      exact present
    · intro slot below _
      rw [Nat.lt_one_iff.mp below]
      refine ⟨by rw [word]; rfl, Nat.le_of_eq length.symm, by rw [length]; decide, ?_⟩
      rw [length, byte]
      rfl
  obtain ⟨_, exact⟩ := completed_iff_reads_nothing openLog 0 openFile here
  obtain ⟨agrees, _⟩ := exact _ checked intact
  refine ⟨Bool.eq_false_iff.mpr fun completed => ?_, reads⟩
  rw [agrees.mp completed] at reads
  cases reads

end CachyDb.Wal
