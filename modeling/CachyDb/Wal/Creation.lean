import CachyDb.Wal.CrashLog

set_option autoImplicit false

/-! Deaths while a WAL file is being created. The header is the last thing that
`pre_allocate_wal` writes, and a file without one stops the next process. -/

namespace CachyDb.Wal.Log

open ByteString Transition

/-- `pre_allocate_wal` runs for a file that does not exist, either for the writer, before
the first batch of the file, or in a background thread. The batches `finished` of the
buffer have been written by then, which led to `w`. -/
inductive Creating (s : Log) (clock : Nat → Nat) (finished : List (List Record)) (w : Wal) :
    Nat → Nat → Prop
  | writer {batch : List Record} {rest : List (List Record)}
      (pieces : fileBatches s.wal.walBuffer = finished ++ batch :: rest)
      (begun : writeBatches clock s.wal.ramCompletedTx
        { s.wal with walBuffer := [], ramCompletedTx := ∅ } finished = (.ok (), finished.flatten, w))
      (missing : w.disk.present ((batch.map Prod.fst).headD 0 / walCapacity) = false) :
      Creating s clock finished w ((batch.map Prod.fst).headD 0 / walCapacity)
        (walFileHeaderSize + payloadBytes batch)
  | background {fileId : Nat} {rest : List (List Record)}
      (pieces : fileBatches s.wal.walBuffer = finished ++ rest)
      (begun : writeBatches clock s.wal.ramCompletedTx
        { s.wal with walBuffer := [], ramCompletedTx := ∅ } finished = (.ok (), finished.flatten, w))
      (started : fileId ∈ w.preallocating) (missing : w.disk.present fileId = false) :
      Creating s clock finished w fileId fullSize

/-- The directory opens, and the log works from then on, in every run. -/
def Survives (s : Log) (finished : List (List Record)) (disk : FileSystem Nat) : Prop :=
  ∃ opened, openWal disk = .ok opened ∧ ∀ later t,
    Run (Guarded LifeStep Permitted) (s.reborn finished.flatten opened) later t → Works t

/-- Where a file is created the directory is settled, and the file has no records. -/
theorem InOrder.creating {s : Log} (inv : InOrder s) (valid : IdsValid s) (behind : NotBehindLoss s)
    {clock : Nat → Nat} {finished : List (List Record)} {w : Wal} {fileId sizeBytes : Nat}
    (creating : Creating s clock finished w fileId sizeBytes) :
    (∃ first, Settled w (s.written ++ finished.flatten) s.marked first) ∧
      ¬ w.disk.present fileId = true ∧ fileId * walCapacity ≤ 2 ^ 63 ∧
      walFileHeaderSize ≤ sizeBytes := by
  cases creating with
  | @writer batch rest pieces begun missing =>
      obtain ⟨settled, _, _⟩ := inv.begun valid behind pieces begun
      obtain ⟨chain, flat⟩ := fileBatches_chain inv.ids
      rw [pieces] at chain
      rw [pieces, List.flatten_append, List.flatten_cons] at flat
      have formed := chain.next
      obtain ⟨r, tail, shape⟩ := List.exists_cons_of_ne_nil formed.nonempty
      have first : r ∈ batch := by
        rw [shape]
        exact List.mem_cons_self
      have bound := validateTxId_iff.mp (valid r (by
        rw [← flat]
        exact List.mem_append_right _ (List.mem_append_left _ first)))
      have head : (batch.map Prod.fst).headD 0 = r.1 := by
        rw [shape]
        rfl
      have low := div_mul_le r.1
      refine ⟨⟨_, settled⟩, by rw [missing]; decide, ?_, Nat.le_add_right _ _⟩
      rw [head]
      omega
  | background pieces begun started missing =>
      obtain ⟨settled, extends', _⟩ := inv.begun valid behind pieces begun
      refine ⟨⟨_, settled⟩, by rw [missing]; decide, ?_, by decide⟩
      exact (extends'.threads fileId started).elim (inv.targets fileId) id

/-- After the header write the log goes on as if nothing had happened. -/
theorem InOrder.survives {s : Log} (inv : InOrder s) (valid : IdsValid s) (behind : NotBehindLoss s)
    {clock : Nat → Nat} {finished : List (List Record)} {w : Wal} {fileId sizeBytes : Nat}
    (creating : Creating s clock finished w fileId sizeBytes) :
    Survives s finished (preAllocateWal w.disk fileId sizeBytes) := by
  obtain ⟨⟨first, settled⟩, missing, target, _⟩ := inv.creating valid behind creating
  obtain ⟨opened, result, fresh⟩ := settled_reborn (settled.create sizeBytes missing target)
  refine ⟨opened, result, fun later t rest => ?_⟩
  apply InOrder.works
  exact rest.preserves fresh fun u life v before step => before.lifeStep step.1 step.2

/-- The half-created file is the last one in the listing. -/
theorem newest_created {disk disk' : FileSystem Nat} {fileId : Nat}
    (newest : ∀ other ∈ disk.sortedNames, other < fileId) {content : File}
    (created : disk'.file fileId = some content)
    (others : ∀ other, other ≠ fileId → disk'.file other = disk.file other) :
    disk'.sortedNames.getLast? = some fileId := by
  have listed : fileId ∈ disk'.sortedNames := FileSystem.mem_sortedNames.mpr ⟨content, created⟩
  cases last : disk'.sortedNames.getLast? with
  | none =>
      rw [List.getLast?_eq_none_iff.mp last] at listed
      cases listed
  | some greatest =>
      have above := FileSystem.le_of_getLast_sortedNames last listed
      by_contra different
      have elsewhere : greatest ≠ fileId := fun same => different (by rw [same])
      obtain ⟨file, known⟩ := FileSystem.mem_sortedNames.mp (List.mem_of_getLast? last)
      rw [others greatest elsewhere] at known
      have below := newest greatest (FileSystem.mem_sortedNames.mpr ⟨file, known⟩)
      omega

/-- A file of zeros as its newest one keeps the directory from being opened. -/
theorem openWal_allocated {disk disk' : FileSystem Nat} {fileId sizeBytes : Nat}
    (newest : ∀ other ∈ disk.sortedNames, other < fileId)
    (created : disk'.file fileId = some (File.empty.allocate sizeBytes))
    (others : ∀ other, other ≠ fileId → disk'.file other = disk.file other)
    (large : walFileHeaderSize ≤ sizeBytes) : ∃ e, openWal disk' = .error e := by
  obtain ⟨e, refused⟩ := checkFileHeader_zeros walFileHeaderSize
  refine ⟨e, ?_⟩
  simp only [openWal, restoreGlobalTxId, newest_created newest created others, created,
    read_allocated, Nat.min_eq_left large, List.length_replicate, ↓reduceIte, refused]

/-- An empty newest file opens with the first id of the file. -/
theorem openWal_empty {disk disk' : FileSystem Nat} {fileId : Nat}
    (newest : ∀ other ∈ disk.sortedNames, other < fileId)
    (created : disk'.file fileId = some File.empty)
    (others : ∀ other, other ≠ fileId → disk'.file other = disk.file other) :
    openWal disk' = .ok ⟨fileId * walCapacity, [], ∅, none, disk', []⟩ := by
  have short : (File.empty.read 0 walFileHeaderSize).length ≠ walFileHeaderSize := by decide
  simp only [openWal, restoreGlobalTxId, newest_created newest created others, created, short,
    ↓reduceIte]

/-- Every batch for an empty file is refused. -/
theorem writeBatch_empty {w : Wal} {fileId : Nat} (created : w.disk.file fileId = some File.empty)
    (closed : w.currentFile = none) (clock : Nat → Nat) (copy : Finset Nat) (batch : List Record)
    (home : (batch.map Prod.fst).headD 0 / walCapacity = fileId)
    (valid : (batch.map Prod.fst).headD 0 < 2 ^ 63) :
    ∃ e w', writeBatchToDisk clock copy w batch = (.error e, w') := by
  obtain ⟨i, found, content⟩ := Option.map_eq_some_iff.mp created
  have known : w.disk.present fileId = true := by
    rw [FileSystem.present, found]
    rfl
  have path := getFilePath_ok valid
  rw [home] at path
  have handle : getOpenFile w fileId = (some i, { w with currentFile := some (fileId, i) }) :=
    getOpenFile_of_lookup (fun path handle j opened => by rw [closed] at opened; cases opened) found
  have refused : appendBatch clock copy batch File.empty =
      (.error (.headerTruncated 0), File.empty) := rfl
  refine ⟨.headerTruncated 0, { w with
    currentFile := some (fileId, i)
    disk := w.disk.update i File.empty }, ?_⟩
  simp only [writeBatchToDisk, ensureFile, path, known, ↓reduceIte, home, handle, content, refused]

/-- The first record after an empty file was left behind cannot be written. -/
theorem empty_refuses {s : Log} {kept : List Record} {disk : FileSystem Nat} {fileId : Nat}
    (created : disk.file fileId = some File.empty)
    (unused : fileRecords (s.written ++ kept) fileId = [])
    (range : validateTxId (fileId * walCapacity + walCapacity) = .ok ())
    (works : Works ((s.reborn kept ⟨fileId * walCapacity, [], ∅, none, disk, []⟩).append [1])) :
    False := by
  have bound := validateTxId_iff.mp range
  have home : fileId * walCapacity / walCapacity = fileId := Nat.mul_div_cancel _ (by decide)
  have only : fileRecords [((fileId * walCapacity, [1]) : Record)] fileId =
      [(fileId * walCapacity, [1])] :=
    fileRecords_all fun r member => by rw [List.mem_singleton.mp member]; exact home
  have batches : fileBatches [((fileId * walCapacity, [1]) : Record)] =
      [[(fileId * walCapacity, [1])]] := rfl
  have valid : IdsValid ((s.reborn kept ⟨fileId * walCapacity, [], ∅, none, disk, []⟩).append [1]) := by
    intro r member
    rw [List.mem_singleton.mp member]
    exact range
  have unspoiled :
      Unspoiled ((s.reborn kept ⟨fileId * walCapacity, [], ∅, none, disk, []⟩).append [1]) := by
    intro txId lost
    cases lost
  have room : RoomFor (s.written ++ kept) [(fileId * walCapacity, [1])] := by
    intro other some
    by_cases here : other = fileId
    · rw [here, fileRecords_append, unused, only]
      exact (show 5 ≤ payloadAreaSize by decide)
    · refine absurd (@fileRecords_none _ fileId other ?_ here) some
      intro r member
      rw [List.mem_singleton.mp member]
      exact home
  obtain ⟨e, w', refused⟩ := @writeBatch_empty
    ⟨fileId * walCapacity + 1, [], ∅, none, disk, []⟩ fileId created rfl (fun _ => 0) ∅
    [(fileId * walCapacity, [1])] home (by show fileId * walCapacity < 2 ^ 63; omega)
  have whole := works.2 (fun _ => 0) valid unspoiled room
  have stuck : Wal.flushBuffer (fun _ => 0)
      ((s.reborn kept ⟨fileId * walCapacity, [], ∅, none, disk, []⟩).append [1]).wal =
      (.error e, [], w') := by
    show writeBatches (fun _ => 0) ∅ ⟨fileId * walCapacity + 1, [], ∅, none, disk, []⟩
      (fileBatches [((fileId * walCapacity, [1]) : Record)]) = _
    rw [batches, writeBatches, refused]
  simp only [Log.flush, stuck, List.append_nil] at whole
  have lengths := congrArg List.length whole
  rw [List.length_append] at lengths
  exact absurd lengths (by show ¬ _ = _ + 1; omega)

/-- Of the three moments only the last one leaves a directory to go on from. -/
theorem InOrder.survives_iff {s : Log} (inv : InOrder s) (valid : IdsValid s)
    (behind : NotBehindLoss s) {clock : Nat → Nat} {finished : List (List Record)} {w : Wal}
    {fileId sizeBytes : Nat} (creating : Creating s clock finished w fileId sizeBytes)
    (range : validateTxId (fileId * walCapacity + walCapacity) = .ok ())
    (newest : ∀ other ∈ w.disk.sortedNames, other < fileId) {point : Nat} {disk : FileSystem Nat}
    (died : (creationTrace w.disk fileId sizeBytes)[point]? = some disk) :
    Survives s finished disk ↔ point = 2 := by
  obtain ⟨⟨first, settled⟩, missing, _, large⟩ := inv.creating valid behind creating
  have unused := ((settled.reachable fileId).resolve_left missing).1
  have empty : (openForWriting w.disk fileId).file fileId = some File.empty :=
    FileSystem.truncate_file_self w.disk fileId
  match point with
  | 0 =>
      have same : openForWriting w.disk fileId = disk := Option.some.inj died
      subst same
      have reopened := openWal_empty newest empty
        (fun other different => FileSystem.truncate_file_ne w.disk different)
      constructor
      · rintro ⟨opened, result, works⟩
        rw [reopened, Except.ok.injEq] at result
        subst result
        refine absurd (works [.event (.append [1])] _ (Run.cons ⟨.event (.append _ _), ?_, trivial⟩
          (Run.nil _))) (empty_refuses empty unused range)
        exact List.cons_ne_nil _ _
      · intro last
        cases last
  | 1 =>
      have same : fallocate (openForWriting w.disk fileId) fileId sizeBytes = disk :=
        Option.some.inj died
      have created : disk.file fileId = some (File.empty.allocate sizeBytes) := by
        rw [← same]
        exact FileSystem.modify_file_self empty _
      have others : ∀ other, other ≠ fileId → disk.file other = w.disk.file other := by
        intro other different
        rw [← same, fallocate, FileSystem.modify_file_ne _ _ different, openForWriting,
          FileSystem.truncate_file_ne _ different]
      obtain ⟨e, refused⟩ := openWal_allocated newest created others large
      constructor
      · rintro ⟨opened, result, _⟩
        rw [refused] at result
        cases result
      · intro last
        cases last
  | 2 =>
      have same : preAllocateWal w.disk fileId sizeBytes = disk := Option.some.inj died
      subst same
      exact ⟨fun _ => rfl, fun _ => inv.survives valid behind creating⟩
  | point + 3 => cases died

/-- A death while a file is being created, as the newest of its directory, is survived
exactly when the header has been written. -/
theorem creation_survived_iff {s : Log} {lives : List Life}
    (run : Run (Guarded LifeStep Permitted) start lives s) (valid : IdsValid s)
    (behind : NotBehindLoss s) {clock : Nat → Nat} {finished : List (List Record)} {w : Wal}
    {fileId sizeBytes : Nat} (creating : Creating s clock finished w fileId sizeBytes)
    (range : validateTxId (fileId * walCapacity + walCapacity) = .ok ())
    (newest : ∀ other ∈ w.disk.sortedNames, other < fileId) {point : Nat} {disk : FileSystem Nat}
    (died : (creationTrace w.disk fileId sizeBytes)[point]? = some disk) :
    Survives s finished disk ↔ point = 2 := by
  have inv : InOrder s := run.preserves start_inOrder
    fun u life v before step => before.lifeStep step.1 step.2
  exact inv.survives_iff valid behind creating range newest died

/-- A new log with one byte in its buffer. -/
def oneByte : Log := start.append [7]

theorem oneByte_inOrder : InOrder oneByte :=
  start_inOrder.append [7] (List.cons_ne_nil _ _)

theorem oneByte_valid : IdsValid oneByte := by
  show ∀ r ∈ [((0, [7]) : Record)], validateTxId (r.1 + walCapacity) = .ok ()
  decide

theorem oneByte_behind : NotBehindLoss oneByte := by
  intro r member txId lost
  cases lost

/-- The writer creates the first file for it. -/
theorem oneByte_creating : Creating oneByte (fun _ => 0) []
    { oneByte.wal with walBuffer := [], ramCompletedTx := ∅ } 0 (walFileHeaderSize + 5) :=
  @Creating.writer oneByte (fun _ => 0) [] _ [(0, [7])] [] rfl rfl rfl

theorem oneByte_newest : ∀ other ∈ (FileSystem.empty : FileSystem Nat).sortedNames, other < 0 := by
  intro other member
  cases member

theorem survives_with_header :
    Survives oneByte [] (preAllocateWal FileSystem.empty 0 (walFileHeaderSize + 5)) :=
  (creation_survived_iff
    (Run.cons ⟨.event (.append start [7]), List.cons_ne_nil _ _, trivial⟩ (Run.nil _))
    oneByte_valid oneByte_behind oneByte_creating (by decide) oneByte_newest
    (show (creationTrace FileSystem.empty 0 (walFileHeaderSize + 5))[2]? = some _ from rfl)).mpr rfl

/-- The process dies after the file has been allocated and before its header is written. -/
theorem not_survives_without_header :
    ¬ ∀ (point : Nat) (disk : FileSystem Nat),
      (creationTrace FileSystem.empty 0 (walFileHeaderSize + 5))[point]? = some disk →
        Survives oneByte [] disk := by
  intro always
  have died : (creationTrace FileSystem.empty 0 (walFileHeaderSize + 5))[1]? =
      some (fallocate (openForWriting FileSystem.empty 0) 0 (walFileHeaderSize + 5)) := rfl
  have last : 1 = 2 := (oneByte_inOrder.survives_iff oneByte_valid oneByte_behind
    oneByte_creating (by decide) oneByte_newest died).mp (always 1 _ died)
  cases last

end CachyDb.Wal.Log
