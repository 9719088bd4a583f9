import CachyDb.Wal.Layout

set_option autoImplicit false

/-! The whole WAL directory: which records have been flushed, which ids are
marked, and how the writer and the marks change that. -/

namespace CachyDb.Wal

open ByteString

/-- The records whose slot lies in the file `fileId`. -/
def fileRecords (flushed : List Record) (fileId : Nat) : List Record :=
  flushed.filter (fun r => r.1 / walCapacity = fileId)

/-- The files hold exactly the flushed records with the marked ids flagged. A
file may be missing only once all its records are marked, and the cached handle
is never a stale one for a file that exists. -/
structure OnDisk (w : Wal) (flushed : List Record) (marked : Finset Nat) : Prop where
  ascending : (flushed.map Prod.fst).Pairwise (· < ·)
  nonempty : ∀ r ∈ flushed, r.2 ≠ []
  files : ∀ fileId file, w.disk.file fileId = some file →
    Layout file fileId (fileRecords flushed fileId) marked
  kept : ∀ r ∈ flushed, r.1 ∈ marked ∨ w.disk.present (r.1 / walCapacity) = true
  handle : ∀ fileId handle i, w.currentFile = some (fileId, handle) →
    w.disk.dir.lookup fileId = some i → i = handle

theorem mem_fileRecords {flushed : List Record} {fileId : Nat} {r : Record} :
    r ∈ fileRecords flushed fileId ↔ r ∈ flushed ∧ r.1 / walCapacity = fileId := by
  simp only [fileRecords, List.mem_filter, decide_eq_true_eq]

@[simp] theorem fileRecords_nil (fileId : Nat) : fileRecords [] fileId = [] := rfl

@[simp] theorem fileRecords_append (front back : List Record) (fileId : Nat) :
    fileRecords (front ++ back) fileId = fileRecords front fileId ++ fileRecords back fileId := by
  simp only [fileRecords, List.filter_append]

theorem fileRecords_all {batch : List Record} {fileId : Nat}
    (home : ∀ r ∈ batch, r.1 / walCapacity = fileId) : fileRecords batch fileId = batch := by
  simp only [fileRecords, List.filter_eq_self, decide_eq_true_eq]
  exact home

theorem fileRecords_none {batch : List Record} {fileId other : Nat}
    (home : ∀ r ∈ batch, r.1 / walCapacity = fileId) (different : other ≠ fileId) :
    fileRecords batch other = [] := by
  simp only [fileRecords, List.filter_eq_nil_iff, decide_eq_true_eq]
  intro r member same
  exact different (same ▸ home r member)

theorem present_iff {w : Wal} {fileId : Nat} :
    w.disk.present fileId = true ↔ ∃ file, w.disk.file fileId = some file :=
  FileSystem.present_iff

/-- Every file reads as its unmarked records. A file with a header that cannot be read is
one of a file id without records. -/
structure Readable (disk : FileSystem Nat) (flushed : List Record) (marked : Finset Nat) : Prop where
  ascending : (flushed.map Prod.fst).Pairwise (· < ·)
  files : ∀ fileId file, disk.file fileId = some file →
    readFile file = ⟨(fileRecords flushed fileId).filter (fun r => r.1 ∉ marked), false⟩
  kept : ∀ r ∈ flushed, r.1 ∈ marked ∨ disk.present (r.1 / walCapacity) = true

theorem OnDisk.readable {w : Wal} {flushed : List Record} {marked : Finset Nat}
    (inv : OnDisk w flushed marked) : Readable w.disk flushed marked := by
  refine ⟨inv.ascending, ?_, inv.kept⟩
  intro fileId file known
  exact (inv.files fileId file known).readFile fun r member =>
    inv.nonempty r (mem_fileRecords.mp member).1

/-- The file reader over a list of names returns the unmarked records file by file. -/
theorem Readable.readFiles {disk : FileSystem Nat} {flushed : List Record} {marked : Finset Nat}
    (readable : Readable disk flushed marked) (fileIds : List Nat)
    (listed : ∀ fileId ∈ fileIds, ∃ file, disk.file fileId = some file) :
    Wal.readFiles disk fileIds =
      ⟨fileIds.flatMap (fun fileId =>
        (fileRecords flushed fileId).filter (fun r => r.1 ∉ marked)), false⟩ := by
  induction fileIds with
  | nil => rfl
  | cons fileId rest ih =>
      obtain ⟨file, known⟩ := listed fileId List.mem_cons_self
      have later := ih (fun other member => listed other (List.mem_cons_of_mem _ member))
      simp only [Wal.readFiles, known, readable.files fileId file known, later, Bool.false_eq_true,
        ↓reduceIte, List.flatMap_cons]

/-- Two lists that ascend strictly by id and have the same members are equal. -/
theorem eq_of_ascending {left right : List Record}
    (ascending : (left.map Prod.fst).Pairwise (· < ·))
    (ascending' : (right.map Prod.fst).Pairwise (· < ·))
    (same : ∀ r, r ∈ left ↔ r ∈ right) : left = right := by
  rw [List.pairwise_map] at ascending ascending'
  have distinct : left.Nodup := ascending.imp fun before equal => by
    rw [equal] at before
    exact Nat.lt_irrefl _ before
  have distinct' : right.Nodup := ascending'.imp fun before equal => by
    rw [equal] at before
    exact Nat.lt_irrefl _ before
  have perm := (List.perm_ext_iff_of_nodup distinct distinct').mpr same
  exact perm.eq_of_pairwise (fun a b _ _ before after => by omega) ascending ascending'

/-- `read_wal` yields exactly the flushed records that are not marked, in
ascending order of their ids. -/
theorem Readable.readWal {disk : FileSystem Nat} {flushed : List Record} {marked : Finset Nat}
    (readable : Readable disk flushed marked) :
    Wal.readWal disk = ⟨flushed.filter (fun r => r.1 ∉ marked), false⟩ := by
  have listed : ∀ fileId ∈ disk.sortedNames, ∃ file, disk.file fileId = some file :=
    fun fileId member => FileSystem.mem_sortedNames.mp member
  have records := readable.ascending
  rw [List.pairwise_map] at records
  rw [Wal.readWal, readable.readFiles _ listed]
  congr 1
  apply eq_of_ascending
  · rw [List.pairwise_map, List.pairwise_flatMap]
    refine ⟨fun fileId _ => (records.filter _).filter _, ?_⟩
    refine (FileSystem.sortedNames_strict disk).imp ?_
    intro first second before r member r' member'
    have home := (mem_fileRecords.mp (List.mem_of_mem_filter member)).2
    have home' := (mem_fileRecords.mp (List.mem_of_mem_filter member')).2
    by_contra backwards
    have := Nat.div_le_div_right (c := walCapacity) (Nat.le_of_not_lt backwards)
    omega
  · rw [List.pairwise_map]
    exact records.filter _
  · intro r
    simp only [List.mem_flatMap, List.mem_filter, mem_fileRecords, decide_eq_true_eq]
    constructor
    · rintro ⟨_, _, ⟨member, _⟩, unmarked⟩
      exact ⟨member, unmarked⟩
    · rintro ⟨member, unmarked⟩
      have exists_file := FileSystem.present_iff.mp
        ((readable.kept r member).resolve_left unmarked)
      exact ⟨r.1 / walCapacity, FileSystem.mem_sortedNames.mpr exists_file, ⟨member, rfl⟩, unmarked⟩

theorem OnDisk.readWal {w : Wal} {flushed : List Record} {marked : Finset Nat}
    (inv : OnDisk w flushed marked) :
    Wal.readWal w.disk = ⟨flushed.filter (fun r => r.1 ∉ marked), false⟩ :=
  inv.readable.readWal

/-- The volatile fields other than the handle are not part of what is on disk. -/
theorem OnDisk.frame {w w' : Wal} {flushed : List Record} {marked : Finset Nat}
    (inv : OnDisk w flushed marked) (disk : w'.disk = w.disk)
    (current : w'.currentFile = w.currentFile) : OnDisk w' flushed marked := by
  refine ⟨inv.ascending, inv.nonempty, ?_, ?_, ?_⟩
  · rw [disk]
    exact inv.files
  · rw [disk]
    exact inv.kept
  · rw [disk, current]
    exact inv.handle

/-- Only the marks of flushed records matter on disk. -/
theorem OnDisk.congr {w : Wal} {flushed : List Record} {marked marked' : Finset Nat}
    (inv : OnDisk w flushed marked)
    (same : ∀ r ∈ flushed, r.1 ∈ marked' ↔ r.1 ∈ marked) : OnDisk w flushed marked' := by
  refine ⟨inv.ascending, inv.nonempty, ?_, ?_, inv.handle⟩
  · intro fileId file known
    exact (inv.files fileId file known).congr fun r member =>
      same r (mem_fileRecords.mp member).1
  · intro r member
    rw [same r member]
    exact inv.kept r member

/-- Replacing the content behind the handle of one existing file. -/
theorem OnDisk.update {w : Wal} {flushed flushed' : List Record} {marked marked' : Finset Nat}
    {fileId i : Nat} {content : File} (inv : OnDisk w flushed marked)
    (found : w.disk.dir.lookup fileId = some i)
    (layout : Layout content fileId (fileRecords flushed' fileId) marked')
    (others : ∀ other, other ≠ fileId → fileRecords flushed' other = fileRecords flushed other)
    (flags : ∀ r ∈ flushed, r.1 / walCapacity ≠ fileId → (r.1 ∈ marked' ↔ r.1 ∈ marked))
    (ascending : (flushed'.map Prod.fst).Pairwise (· < ·))
    (nonempty : ∀ r ∈ flushed', r.2 ≠ []) :
    OnDisk { w with disk := w.disk.update i content } flushed' marked' := by
  refine ⟨ascending, nonempty, ?_, ?_, inv.handle⟩
  · intro other file known
    by_cases same : other = fileId
    · subst same
      rw [FileSystem.update_file_self found, Option.some.injEq] at known
      rw [← known]
      exact layout
    · rw [FileSystem.update_file_ne found content same] at known
      rw [others other same]
      refine (inv.files other file known).congr fun r member => ?_
      obtain ⟨inside, home⟩ := mem_fileRecords.mp member
      exact flags r inside (by rw [home]; exact same)
  · intro r member
    have unchanged : ({ w with disk := w.disk.update i content } : Wal).disk.present
        (r.1 / walCapacity) = w.disk.present (r.1 / walCapacity) := rfl
    rw [unchanged]
    by_cases same : r.1 / walCapacity = fileId
    · right
      rw [same, FileSystem.present, found]
      rfl
    · have old : r ∈ flushed := by
        have here : r ∈ fileRecords flushed' (r.1 / walCapacity) :=
          mem_fileRecords.mpr ⟨member, rfl⟩
        rw [others _ same] at here
        exact (mem_fileRecords.mp here).1
      rw [flags r old same]
      exact inv.kept r old

/-- Opening an existing file returns the handle of its directory entry, which is
then the cached one. -/
theorem getOpenFile_of_lookup {w : Wal} {fileId i : Nat}
    (handles : ∀ path handle j, w.currentFile = some (path, handle) →
      w.disk.dir.lookup path = some j → j = handle)
    (found : w.disk.dir.lookup fileId = some i) :
    Wal.getOpenFile w fileId = (some i, { w with currentFile := some (fileId, i) }) := by
  have reopened : Wal.getOpenFile.reopen w fileId =
      (some i, { w with currentFile := some (fileId, i) }) := by
    simp only [Wal.getOpenFile.reopen, found]
  cases cached : w.currentFile with
  | none => simp only [Wal.getOpenFile, cached, reopened]
  | some entry =>
      obtain ⟨path, handle⟩ := entry
      by_cases same : path = fileId
      · subst same
        obtain rfl := handles path handle i cached found
        simp only [Wal.getOpenFile, cached, ↓reduceIte]
        rw [← cached]
      · simp only [Wal.getOpenFile, cached, same, ↓reduceIte, reopened]

theorem OnDisk.getOpenFile {w : Wal} {flushed : List Record} {marked : Finset Nat} {fileId i : Nat}
    (inv : OnDisk w flushed marked) (found : w.disk.dir.lookup fileId = some i) :
    Wal.getOpenFile w fileId = (some i, { w with currentFile := some (fileId, i) }) :=
  getOpenFile_of_lookup inv.handle found

/-- The handle of an existing file may be cached. -/
theorem OnDisk.opened {w : Wal} {flushed : List Record} {marked : Finset Nat} {fileId i : Nat}
    (inv : OnDisk w flushed marked) (found : w.disk.dir.lookup fileId = some i) :
    OnDisk { w with currentFile := some (fileId, i) } flushed marked := by
  refine ⟨inv.ascending, inv.nonempty, inv.files, inv.kept, ?_⟩
  intro path handle j opened known
  cases opened
  rw [found] at known
  exact (Option.some.inj known).symm

theorem preAllocateWal_file_self (disk : FileSystem Nat) (fileId sizeBytes : Nat) :
    (preAllocateWal disk fileId sizeBytes).file fileId =
      some ((File.empty.allocate sizeBytes).write 0
        (packFileHeader magicBytes walCapacity 0 0)) := by
  have opened := FileSystem.truncate_file_self disk fileId
  exact FileSystem.modify_file_self (FileSystem.modify_file_self opened _) _

theorem preAllocateWal_file_ne (disk : FileSystem Nat) {fileId other : Nat} (sizeBytes : Nat)
    (different : other ≠ fileId) :
    (preAllocateWal disk fileId sizeBytes).file other = disk.file other := by
  rw [preAllocateWal, createFileHeader, FileSystem.modify_file_ne _ _ different, fallocate,
    FileSystem.modify_file_ne _ _ different, openForWriting,
    FileSystem.truncate_file_ne _ different]

theorem preAllocateWal_lookup_ne (disk : FileSystem Nat) {fileId other : Nat} (sizeBytes : Nat)
    (different : other ≠ fileId) :
    (preAllocateWal disk fileId sizeBytes).dir.lookup other = disk.dir.lookup other := by
  simp only [preAllocateWal, createFileHeader, fallocate, openForWriting, FileSystem.modify_dir,
    FileSystem.truncate_lookup_ne _ different]

theorem preAllocateWal_present (disk : FileSystem Nat) (fileId sizeBytes other : Nat) :
    (preAllocateWal disk fileId sizeBytes).present other =
      (decide (other = fileId) || disk.present other) := by
  by_cases same : other = fileId
  · subst same
    simp [FileSystem.present_iff, preAllocateWal_file_self]
  · simp only [same, decide_false, Bool.false_or, FileSystem.present,
      preAllocateWal_lookup_ne disk sizeBytes same]

/-- Creating a file no record belongs to. The cached handle must not be one for
that very path. -/
theorem OnDisk.preAllocate {w : Wal} {flushed : List Record} {marked : Finset Nat}
    (inv : OnDisk w flushed marked) (fileId sizeBytes : Nat)
    (unused : fileRecords flushed fileId = []) (valid : fileId * walCapacity ≤ 2 ^ 63)
    (closed : ∀ handle, w.currentFile ≠ some (fileId, handle)) :
    OnDisk { w with disk := preAllocateWal w.disk fileId sizeBytes } flushed marked := by
  refine ⟨inv.ascending, inv.nonempty, ?_, ?_, ?_⟩
  · intro other file known
    by_cases same : other = fileId
    · subst same
      rw [preAllocateWal_file_self, Option.some.injEq] at known
      rw [← known, unused]
      exact layout_created _ _ _ _ valid
    · rw [preAllocateWal_file_ne _ _ same] at known
      exact inv.files other file known
  · intro r member
    rw [preAllocateWal_present, Bool.or_eq_true]
    exact (inv.kept r member).imp id Or.inr
  · intro path handle i opened known
    have different : path ≠ fileId := by
      rintro rfl
      exact closed handle opened
    rw [preAllocateWal_lookup_ne _ _ different] at known
    exact inv.handle path handle i opened known

end CachyDb.Wal
