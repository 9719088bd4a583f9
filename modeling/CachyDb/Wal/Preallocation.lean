import Mathlib.Data.Finset.Filter
import CachyDb.Lib.Transition
import CachyDb.Wal.Flush

set_option autoImplicit false

/-! The background pre-allocation of a WAL file against the writer's batches for the
same file, step by step. Both test for existence and then create, without a lock in
common. No name is removed here, so the writer's handle and the path lead to the
same content. -/

namespace CachyDb.Wal

open ByteString Crc32 Transition

/-! ### The stages of a batch -/

/-- What the writer has computed once it has read the header and laid out a batch. -/
structure Plan where
  header : FileHeader
  offsets : List Nat
  block : Bytes
  usedSpace : Nat
  deriving DecidableEq

def planBatch (batch : List Record) (file : File) : Except Error Plan :=
  match checkFileHeader (file.read 0 walFileHeaderSize) with
  | .error e => .error e
  | .ok h =>
      match layoutPayloads h.usedSpace batch with
      | .error e => .error e
      | .ok (offsets, block, usedSpace) => .ok ⟨h, offsets, block, usedSpace⟩

def payBatch (plan : Plan) (file : File) : File :=
  file.write (headerBlockSize + plan.header.usedSpace) plan.block

def listBatch (clock : Nat → Nat) (completedCopy : Finset Nat) (batch : List Record) (plan : Plan)
    (file : File) : Except Error File :=
  match entryBlock clock completedCopy batch plan.offsets with
  | .error e => .error e
  | .ok entries =>
      .ok (file.write (entryOffset (getSlotIndex ((batch.map Prod.fst).headD 0))) entries)

def countBatch (batch : List Record) (plan : Plan) (file : File) : Except Error File :=
  match packUpdatedHeader plan.header (plan.header.currentRecords + batch.length)
      plan.usedSpace with
  | .error e => .error e
  | .ok header => .ok (file.write 0 header)

/-- Without interruption the stages are `appendBatch`. -/
theorem appendBatch_stages (clock : Nat → Nat) (completedCopy : Finset Nat) (batch : List Record)
    (file : File) :
    appendBatch clock completedCopy batch file =
      match planBatch batch file with
      | .error e => (.error e, file)
      | .ok plan =>
          match listBatch clock completedCopy batch plan (payBatch plan file) with
          | .error e => (.error e, payBatch plan file)
          | .ok listed =>
              match countBatch batch plan listed with
              | .error e => (.error e, listed)
              | .ok counted => (.ok (), counted) := by
  unfold appendBatch planBatch
  cases checkFileHeader (file.read 0 walFileHeaderSize) with
  | error e => rfl
  | ok h =>
      dsimp only
      cases layoutPayloads h.usedSpace batch with
      | error e => rfl
      | ok laid =>
          dsimp only [payBatch, listBatch]
          cases entryBlock clock completedCopy batch laid.1 with
          | error e => rfl
          | ok entries =>
              dsimp only [countBatch]
              cases packUpdatedHeader h (h.currentRecords + batch.length) laid.2.2 with
              | error e => rfl
              | ok header => rfl

/-! ### The two threads -/

/-- The background thread: before its existence check, behind a negative one, behind
the truncating open, behind the allocation, or at its end. -/
inductive BackState
  | unstarted
  | missing
  | truncated
  | allocated
  | finished
  deriving DecidableEq

/-- A batch with the writer's copy of the completion set. -/
structure Job where
  batch : List Record
  completedCopy : Finset Nat
  deriving DecidableEq

/-- The writer: between two batches, behind a negative existence check, behind the
steps of its own pre-allocation, with the file found or made, and behind the header
check, the payloads and the entries of the batch. -/
inductive WriterPlace
  | idle
  | missing (job : Job)
  | truncated (job : Job)
  | allocated (job : Job)
  | opened (job : Job)
  | laid (job : Job) (plan : Plan)
  | paid (job : Job) (plan : Plan)
  | listed (job : Job) (plan : Plan)
  deriving DecidableEq

/-- `records` are those whose batch was written, `completed` the ids they were
written as completed with, and `failed` the ids of batches that raised. -/
structure Race where
  fileId : Nat
  disk : FileSystem Nat
  back : BackState
  writer : WriterPlace
  records : List Record
  completed : Finset Nat
  failed : List Nat

namespace Race

def start (fileId : Nat) : Race :=
  ⟨fileId, FileSystem.empty, .unstarted, .idle, [], ∅, []⟩

/-- The first id no batch of the file has used yet. -/
def next (s : Race) : Nat := s.fileId * walCapacity + s.records.length + s.failed.length

/-- The content of the file, for the writer's reads. -/
def content (s : Race) : File := (s.disk.file s.fileId).getD File.empty

def writeFile (s : Race) (file : File) : FileSystem Nat := s.disk.modify s.fileId (fun _ => file)

/-- The batch raises and the writer loop goes on. -/
def fail (s : Race) (job : Job) : Race :=
  { s with writer := .idle, failed := s.failed ++ job.batch.map Prod.fst }

inductive Event
  | backCheck
  | backOpen
  | backAllocate
  | backHeader
  | batch (job : Job)
  | writerOpen
  | writerAllocate
  | writerHeader
  | readHeader
  | writePayloads
  | writeEntries (clock : Nat → Nat)
  | writeCount

inductive Step : Race → Event → Race → Prop
  | backCheck (s : Race) (unstarted : s.back = .unstarted) :
      Step s .backCheck
        { s with back := if s.disk.present s.fileId then .finished else .missing }
  | backOpen (s : Race) (missing : s.back = .missing) :
      Step s .backOpen { s with disk := openForWriting s.disk s.fileId, back := .truncated }
  | backAllocate (s : Race) (truncated : s.back = .truncated) :
      Step s .backAllocate { s with disk := fallocate s.disk s.fileId fullSize, back := .allocated }
  | backHeader (s : Race) (allocated : s.back = .allocated) :
      Step s .backHeader { s with disk := createFileHeader s.disk s.fileId 0 0, back := .finished }
  | batch (s : Race) (job : Job) (idle : s.writer = .idle) (formed : IsBatch job.batch s.next)
      (home : s.next / walCapacity = s.fileId) :
      Step s (.batch job)
        { s with
          writer := if s.disk.present s.fileId then .opened job else .missing job }
  | writerOpen (s : Race) (job : Job) (missing : s.writer = .missing job) :
      Step s .writerOpen
        { s with disk := openForWriting s.disk s.fileId, writer := .truncated job }
  | writerAllocate (s : Race) (job : Job) (truncated : s.writer = .truncated job) :
      Step s .writerAllocate
        { s with
          disk := fallocate s.disk s.fileId (walFileHeaderSize + payloadBytes job.batch)
          writer := .allocated job }
  | writerHeader (s : Race) (job : Job) (allocated : s.writer = .allocated job) :
      Step s .writerHeader
        { s with disk := createFileHeader s.disk s.fileId 0 0, writer := .opened job }
  | readHeader (s : Race) (job : Job) (opened : s.writer = .opened job) :
      Step s .readHeader
        (match planBatch job.batch s.content with
        | .error _ => s.fail job
        | .ok plan => { s with writer := .laid job plan })
  | writePayloads (s : Race) (job : Job) (plan : Plan) (laid : s.writer = .laid job plan) :
      Step s .writePayloads
        { s with disk := s.writeFile (payBatch plan s.content), writer := .paid job plan }
  | writeEntries (s : Race) (clock : Nat → Nat) (job : Job) (plan : Plan)
      (paid : s.writer = .paid job plan) :
      Step s (.writeEntries clock)
        (match listBatch clock job.completedCopy job.batch plan s.content with
        | .error _ => s.fail job
        | .ok file => { s with disk := s.writeFile file, writer := .listed job plan })
  | writeCount (s : Race) (job : Job) (plan : Plan) (listed : s.writer = .listed job plan) :
      Step s .writeCount
        (match countBatch job.batch plan s.content with
        | .error _ => s.fail job
        | .ok file =>
            { s with
              disk := s.writeFile file
              writer := .idle
              records := s.records ++ job.batch
              completed := s.completed ∪
                job.completedCopy.filter (fun txId => txId ∈ job.batch.map Prod.fst) })

/-- No batch has failed, and every uncompleted record of a written batch is yielded. -/
structure Kept (s : Race) : Prop where
  written : s.failed = []
  yielded : ∀ r ∈ s.records, r.1 ∉ s.completed → r ∈ (readWal s.disk).records

end Race

/-! ### Files that agree behind their headers -/

/-- `file` has every byte of `model` behind the header, and is at least as long. -/
structure Agrees (model file : File) : Prop where
  size : model.size ≤ file.size
  bytes : ∀ i, walFileHeaderSize ≤ i → file.byte i = model.byte i

theorem Agrees.write {model file : File} (agrees : Agrees model file) (start : Nat) (data : Bytes) :
    Agrees (model.write start data) (file.write start data) := by
  have size := agrees.size
  constructor
  · simp only [File.write]
    split <;> omega
  · intro i behind
    simp only [File.write, agrees.bytes i behind]

theorem Agrees.allocate {model file : File} (agrees : Agrees model file) (count : Nat) :
    Agrees model (file.allocate count) :=
  ⟨Nat.le_trans agrees.size (Nat.le_max_left _ _), agrees.bytes⟩

theorem Agrees.writeHeader {model file : File} (agrees : Agrees model file) {header : Bytes}
    (width : header.length = walFileHeaderSize) : Agrees model (file.write 0 header) := by
  refine ⟨Nat.le_trans agrees.size (File.size_le_write _ _ _), ?_⟩
  intro i behind
  rw [File.write_byte_outside _ _ _ _ (by omega)]
  exact agrees.bytes i behind

theorem Agrees.holds {model file : File} (agrees : Agrees model file) {start : Nat} {data : Bytes}
    (behind : walFileHeaderSize ≤ start) (held : model.Holds start data) :
    file.Holds start data := by
  intro i inside
  obtain ⟨bound, same⟩ := held i inside
  exact ⟨Nat.lt_of_lt_of_le bound agrees.size, by rw [agrees.bytes _ (by omega), same]⟩

/-- A layout carries over to a file that agrees behind the same header. -/
theorem Agrees.layout {model file : File} (agrees : Agrees model file) {fileId : Nat}
    {recs : List Record} {done : Finset Nat} (layout : Layout model fileId recs done)
    (header : file.Holds 0
      (packFileHeader magicBytes walCapacity recs.length (payloadBytes recs))) :
    Layout file fileId recs done := by
  refine ⟨layout.slots, layout.capacity, layout.room, layout.valid, header, ?_, ?_⟩
  · intro i inside
    refine (layout.entry i inside).imp fun _ held => agrees.holds ?_ held
    exact Nat.le_add_right _ _
  · intro i inside
    apply agrees.holds _ (layout.payload i inside)
    simp only [headerBlockSize]
    omega

/-! ### A file without records -/

/-- A file that only pre-allocations have touched: all zero, or with an empty header. -/
def Blank (file : File) : Prop :=
  (∀ i, file.byte i = 0) ∨ file.Holds 0 (packFileHeader magicBytes walCapacity 0 0)

theorem blank_empty : Blank File.empty := Or.inl fun _ => rfl

theorem Blank.allocate {file : File} (blank : Blank file) (count : Nat) :
    Blank (file.allocate count) :=
  blank.imp id fun held => held.allocate count

theorem blank_header (file : File) :
    Blank (file.write 0 (packFileHeader magicBytes walCapacity 0 0)) :=
  Or.inr (File.write_holds_self _ _ _)

/-- The header check rejects zeros by their magic at the latest. -/
theorem Blank.header {file : File} (blank : Blank file) {h : FileHeader}
    (checked : checkFileHeader (file.read 0 walFileHeaderSize) = .ok h) :
    file.Holds 0 (packFileHeader magicBytes walCapacity 0 0) := by
  rcases blank with zeros | held
  · exfalso
    obtain ⟨unpacked, magic⟩ := checkFileHeader_ok checked
    rw [unpacked] at magic
    have first : (0x57 : UInt8) ∈ file.read 0 walFileHeaderSize := by
      have inside : (0x57 : UInt8) ∈ magicBytes := List.mem_cons_self
      rw [← magic] at inside
      exact List.mem_of_mem_take inside
    rw [File.read, List.mem_map] at first
    obtain ⟨i, _, byte⟩ := first
    rw [zeros] at byte
    revert byte
    decide
  · exact held

namespace Race

/-! ### The invariant -/

/-- A batch as it reaches a file with `records`: in step with them, and fitting. -/
structure JobFits (fileId : Nat) (records : List Record) (job : Job) : Prop where
  formed : IsBatch job.batch (fileId * walCapacity + records.length)
  home : (fileId * walCapacity + records.length) / walCapacity = fileId
  payloads : ∀ r ∈ job.batch, r.2 ≠ []
  ids : ∀ r ∈ job.batch, r.1 < 2 ^ 63
  room : payloadBytes records + payloadBytes job.batch ≤ payloadAreaSize

/-- The plan for a batch behind `records`. -/
def planFor (records batch : List Record) : Plan where
  header := ⟨magicBytes, walCapacity, records.length, payloadBytes records,
    crc32 (headerWithoutChecksum magicBytes walCapacity records.length (payloadBytes records))⟩
  offsets := payloadOffsets (payloadBytes records) batch
  block := payloadBlock batch
  usedSpace := payloadBytes records + payloadBytes batch

/-- The batch is partly in the file. -/
def Busy : WriterPlace → Prop
  | .paid _ _ => True
  | .listed _ _ => True
  | _ => False

/-- What each place of the writer says about the file. Once payloads are written the
file agrees with one in which nothing interfered. -/
def WriterFits (file : Option File) (fileId : Nat) (records : List Record)
    (completed : Finset Nat) : WriterPlace → Prop
  | .idle => True
  | .missing job => records = [] ∧ JobFits fileId records job
  | .truncated job => records = [] ∧ JobFits fileId records job ∧ file.isSome
  | .allocated job => records = [] ∧ JobFits fileId records job ∧ file.isSome
  | .opened job => JobFits fileId records job ∧ file.isSome
  | .laid job plan =>
      JobFits fileId records job ∧ file.isSome ∧ plan = planFor records job.batch
  | .paid job plan =>
      JobFits fileId records job ∧ plan = planFor records job.batch ∧
        ∃ content model, file = some content ∧ Layout model fileId records completed ∧
          Agrees (payBatch plan model) content
  | .listed job plan =>
      JobFits fileId records job ∧ plan = planFor records job.batch ∧
        ∃ content model clock, file = some content ∧ Layout model fileId records completed ∧
          Agrees ((payBatch plan model).write (entryOffset records.length)
            ((entryHeaders clock job.completedCopy (payloadBytes records) job.batch).flatMap
              EntryHeader.pack)) content

structure Inv (s : Race) : Prop where
  alone : ∀ other, other ≠ s.fileId → s.disk.file other = none
  written : s.failed = []
  payloads : ∀ r ∈ s.records, r.2 ≠ []
  below : ∀ txId ∈ s.completed, txId < s.fileId * walCapacity + s.records.length
  blank : s.records = [] → ¬ Busy s.writer → ∀ content, s.disk.file s.fileId = some content →
    Blank content
  layout : s.records ≠ [] → ∃ content, s.disk.file s.fileId = some content ∧
    Layout content s.fileId s.records s.completed
  writer : WriterFits (s.disk.file s.fileId) s.fileId s.records s.completed s.writer

/-- A change of the file that keeps agreement keeps the writer's place. -/
theorem WriterFits.change {file file' : Option File} {fileId : Nat} {records : List Record}
    {completed : Finset Nat} {place : WriterPlace}
    (fits : WriterFits file fileId records completed place)
    (exists_file : file.isSome → file'.isSome)
    (agreeing : Busy place → ∀ content, file = some content → ∃ content', file' = some content' ∧
      ∀ model, Agrees model content → Agrees model content') :
    WriterFits file' fileId records completed place := by
  cases place with
  | idle => trivial
  | missing job => exact fits
  | truncated job => exact ⟨fits.1, fits.2.1, exists_file fits.2.2⟩
  | allocated job => exact ⟨fits.1, fits.2.1, exists_file fits.2.2⟩
  | opened job => exact ⟨fits.1, exists_file fits.2⟩
  | laid job plan => exact ⟨fits.1, exists_file fits.2.1, fits.2.2⟩
  | paid job plan =>
      obtain ⟨jobFits, planned, content, model, known, layout, agrees⟩ := fits
      obtain ⟨content', known', carry⟩ := agreeing trivial content known
      exact ⟨jobFits, planned, content', model, known', layout, carry _ agrees⟩
  | listed job plan =>
      obtain ⟨jobFits, planned, content, model, clock, known, layout, agrees⟩ := fits
      obtain ⟨content', known', carry⟩ := agreeing trivial content known
      exact ⟨jobFits, planned, content', model, clock, known', layout, carry _ agrees⟩

theorem start_inv (fileId : Nat) : Inv (start fileId) := by
  refine ⟨fun other _ => FileSystem.empty_file other, rfl, ?_, ?_, ?_, ?_, trivial⟩
  · intro r member
    cases member
  · intro txId member
    cases member
  · intro _ _ content known
    have missing : (start fileId).disk.file (start fileId).fileId = none :=
      FileSystem.empty_file fileId
    rw [missing] at known
    cases known
  · intro nonempty
    exact absurd rfl nonempty

theorem modify_file (disk : FileSystem Nat) (fileId : Nat) (change : File → File) :
    (disk.modify fileId change).file fileId = (disk.file fileId).map change := by
  cases known : disk.file fileId with
  | none =>
      have missing := FileSystem.file_eq_none.mp known
      unfold FileSystem.modify
      split
      · rename_i i found
        rw [missing] at found
        cases found
      · exact known
  | some content => exact FileSystem.modify_file_self known change

/-- A background step that only changes the file by `change`. -/
theorem Inv.modify {s : Race} (inv : Inv s) (back : BackState) (change : File → File)
    (blank : ∀ file, s.records = [] → Blank file → Blank (change file))
    (layout : ∀ file, s.records ≠ [] → Layout file s.fileId s.records s.completed →
      Layout (change file) s.fileId s.records s.completed)
    (agrees : ∀ model file, Agrees model file → Agrees model (change file)) :
    Inv { s with disk := s.disk.modify s.fileId change, back := back } := by
  have changed := modify_file s.disk s.fileId change
  refine ⟨?_, inv.written, inv.payloads, inv.below, ?_, ?_, ?_⟩
  · intro other different
    dsimp only
    rw [FileSystem.modify_file_ne _ _ different]
    exact inv.alone other different
  · intro unused idle content known
    dsimp only at known
    rw [changed, Option.map_eq_some_iff] at known
    obtain ⟨old, known, rfl⟩ := known
    exact blank old unused (inv.blank unused idle old known)
  · intro nonempty
    obtain ⟨old, known, held⟩ := inv.layout nonempty
    exact ⟨change old, by dsimp only; rw [changed, known]; rfl, layout old nonempty held⟩
  · dsimp only
    rw [changed]
    apply inv.writer.change
    · intro exists_file
      rw [Option.isSome_map]
      exact exists_file
    · intro _ old known
      exact ⟨change old, by rw [known]; rfl, fun model => agrees model old⟩

/-- A truncation hurts only a file that has payloads or records. -/
theorem Inv.truncate {s : Race} (inv : Inv s) (unused : s.records = []) (back : BackState)
    (writer : WriterPlace)
    (fits : WriterFits (some File.empty) s.fileId s.records s.completed writer) :
    Inv { s with disk := openForWriting s.disk s.fileId, back := back, writer := writer } := by
  have truncated := FileSystem.truncate_file_self s.disk s.fileId
  refine ⟨?_, inv.written, inv.payloads, inv.below, ?_, ?_, ?_⟩
  · intro other different
    show (s.disk.truncate s.fileId).file other = none
    rw [FileSystem.truncate_file_ne _ different]
    exact inv.alone other different
  · intro _ _ content known
    change (s.disk.truncate s.fileId).file s.fileId = some content at known
    rw [truncated] at known
    cases known
    exact blank_empty
  · intro nonempty
    exact absurd unused nonempty
  · show WriterFits ((s.disk.truncate s.fileId).file s.fileId) _ _ _ _
    rw [truncated]
    exact fits

/-- A step of the writer that leaves the file alone. -/
theorem Inv.place {s : Race} (inv : Inv s) (writer : WriterPlace)
    (idle : ¬ Busy writer → ¬ Busy s.writer)
    (fits : WriterFits (s.disk.file s.fileId) s.fileId s.records s.completed writer) :
    Inv { s with writer := writer } :=
  ⟨inv.alone, inv.written, inv.payloads, inv.below,
    fun unused free => inv.blank unused (idle free), inv.layout, fits⟩

/-- The writer puts new content into the file, which is there. -/
theorem writeFile_self {s : Race} (exists_file : (s.disk.file s.fileId).isSome) (file : File) :
    (s.writeFile file).file s.fileId = some file := by
  obtain ⟨content, known⟩ := Option.isSome_iff_exists.mp exists_file
  exact FileSystem.modify_file_self known _

theorem writeFile_ne (s : Race) (file : File) {other : Nat} (different : other ≠ s.fileId) :
    (s.writeFile file).file other = s.disk.file other :=
  FileSystem.modify_file_ne _ _ different

theorem Inv.alone_write {s : Race} (inv : Inv s) (file : File) :
    ∀ other, other ≠ s.fileId → (s.writeFile file).file other = none := by
  intro other different
  rw [writeFile_ne s file different]
  exact inv.alone other different

theorem content_eq {s : Race} {content : File} (known : s.disk.file s.fileId = some content) :
    s.content = content := by
  rw [Race.content, known]
  rfl

/-- An empty header in front makes any content a file without records. -/
theorem layout_unused {file : File} (fileId : Nat) (completed : Finset Nat)
    (valid : fileId * walCapacity ≤ 2 ^ 63)
    (header : file.Holds 0 (packFileHeader magicBytes walCapacity 0 0)) :
    Layout file fileId [] completed := by
  refine ⟨?_, Nat.zero_le _, Nat.zero_le _, by simpa using valid, header, ?_, ?_⟩ <;>
  · intro i inside
    cases inside

theorem JobFits.valid {fileId : Nat} {records : List Record} {job : Job}
    (fits : JobFits fileId records job) :
    fileId * walCapacity + (records.length + job.batch.length) ≤ 2 ^ 63 := by
  have positive := List.length_pos_iff.mpr fits.formed.nonempty
  have last := fits.formed.getElem (job.batch.length - 1) (by omega)
  have small := fits.ids _ (List.getElem_mem (show job.batch.length - 1 < job.batch.length by omega))
  omega

/-- The first slot of a batch is the one behind the records. -/
theorem JobFits.slot {fileId : Nat} {records : List Record} {job : Job}
    (fits : JobFits fileId records job) :
    getSlotIndex ((job.batch.map Prod.fst).headD 0) = records.length := by
  have home := fits.home
  rw [fits.formed.head]
  simp only [getSlotIndex, walCapacity] at home ⊢
  omega

theorem JobFits.capacity {fileId : Nat} {records : List Record} {job : Job}
    (fits : JobFits fileId records job) :
    records.length + job.batch.length ≤ walCapacity := by
  have inside := fits.formed.inFile
  have home := fits.home
  simp only [walCapacity] at inside home ⊢
  omega

/-- A complete header is the one of the records, so the plan continues them. -/
theorem Inv.plan {s : Race} (inv : Inv s) {job : Job} (opened : s.writer = .opened job)
    {h : FileHeader} (checked : checkFileHeader (s.content.read 0 walFileHeaderSize) = .ok h) :
    planBatch job.batch s.content = .ok (planFor s.records job.batch) := by
  have writer := inv.writer
  rw [opened] at writer
  obtain ⟨fits, exists_file⟩ := writer
  obtain ⟨content, known⟩ := Option.isSome_iff_exists.mp exists_file
  have layout : Layout content s.fileId s.records s.completed := by
    by_cases unused : s.records = []
    · have free : ¬ Busy s.writer := by
        rw [opened]
        exact id
      rw [content_eq known] at checked
      have header := (inv.blank unused free content known).header checked
      rw [unused]
      apply layout_unused _ _ _ header
      have valid := fits.valid
      omega
    · obtain ⟨content', known', layout⟩ := inv.layout unused
      rw [known] at known'
      cases known'
      exact layout
  rw [content_eq known]
  simp only [planBatch, layout.readHeader, layoutPayloads_ok job.batch _ fits.room]
  rfl

/-- A missing header may be restored in front of what is written behind it. -/
theorem agrees_restored (content : File) {header : Bytes}
    (width : header.length = walFileHeaderSize) {start : Nat} {data : Bytes}
    (behind : walFileHeaderSize ≤ start) (nonempty : data ≠ []) :
    Agrees ((content.write 0 header).write start data) (content.write start data) := by
  have positive := List.length_pos_iff.mpr nonempty
  have some_data : ¬ data.length = 0 := by omega
  have some_header : ¬ header.length = 0 := by
    rw [width]
    decide
  constructor
  · simp only [File.write, some_data, some_header, ↓reduceIte]
    omega
  · intro i outside
    have unchanged : (content.write 0 header).byte i = content.byte i :=
      File.write_byte_outside _ _ _ _ (by omega)
    simp only [File.write] at unchanged ⊢
    rw [unchanged]

/-! ### What each step preserves -/

/-- The writer finds a complete header, and the background thread truncates before
any payload of a batch and writes its header before any batch is counted. -/
def Careful (s : Race) : Event → Prop
  | .backOpen => s.records = [] ∧ ¬ Busy s.writer
  | .backHeader => s.records = []
  | .batch job =>
      (∀ r ∈ job.batch, r.2 ≠ []) ∧ (∀ r ∈ job.batch, r.1 < 2 ^ 63) ∧
        payloadBytes s.records + payloadBytes job.batch ≤ payloadAreaSize
  | .readHeader => ∃ h, checkFileHeader (s.content.read 0 walFileHeaderSize) = .ok h
  | _ => True

theorem Inv.backOpen {s : Race} (inv : Inv s) (careful : Careful s .backOpen) :
    Inv { s with disk := openForWriting s.disk s.fileId, back := .truncated } := by
  obtain ⟨unused, free⟩ := careful
  apply inv.truncate unused .truncated s.writer
  apply inv.writer.change
  · intro _
    rfl
  · intro busy
    exact absurd busy free

theorem Inv.allocate {s : Race} (inv : Inv s) (back : BackState) (size : Nat) :
    Inv { s with disk := fallocate s.disk s.fileId size, back := back } := by
  apply inv.modify back (fun file => file.allocate size)
  · intro file _ blank
    exact blank.allocate size
  · intro file _ layout
    exact layout.allocate size
  · intro model file agrees
    exact agrees.allocate size

theorem Inv.header {s : Race} (inv : Inv s) (back : BackState) (unused : s.records = []) :
    Inv { s with disk := createFileHeader s.disk s.fileId 0 0, back := back } := by
  apply inv.modify back
    (fun file => file.write 0 (packFileHeader magicBytes walCapacity 0 0))
  · intro file _ _
    exact blank_header file
  · intro file used
    exact absurd unused used
  · intro model file agrees
    exact agrees.writeHeader (packFileHeader_length _ _ _ _ rfl)

theorem Inv.batch {s : Race} (inv : Inv s) {job : Job} (idle : s.writer = .idle)
    (formed : IsBatch job.batch s.next) (home : s.next / walCapacity = s.fileId)
    (careful : Careful s (.batch job)) :
    Inv { s with writer := if s.disk.present s.fileId then .opened job else .missing job } := by
  obtain ⟨payloads, ids, room⟩ := careful
  have next : s.next = s.fileId * walCapacity + s.records.length := by
    rw [Race.next, inv.written, List.length_nil, Nat.add_zero]
  rw [next] at formed home
  have fits : JobFits s.fileId s.records job := ⟨formed, home, payloads, ids, room⟩
  have free : ¬ Busy s.writer := by
    rw [idle]
    exact id
  apply inv.place _ fun _ => free
  by_cases present : s.disk.present s.fileId = true
  · rw [if_pos present]
    obtain ⟨content, known⟩ := FileSystem.present_iff.mp present
    exact ⟨fits, by rw [known]; rfl⟩
  · rw [if_neg present]
    refine ⟨?_, fits⟩
    by_contra used
    obtain ⟨content, known, _⟩ := inv.layout used
    exact present (FileSystem.present_iff.mpr ⟨content, known⟩)

/-- The payloads go behind the records, or behind a header that may be missing yet. -/
theorem Inv.writePayloads {s : Race} (inv : Inv s) {job : Job} {plan : Plan}
    (laid : s.writer = .laid job plan) :
    Inv { s with disk := s.writeFile (payBatch plan s.content), writer := .paid job plan } := by
  have writer := inv.writer
  rw [laid] at writer
  obtain ⟨fits, exists_file, rfl⟩ := writer
  obtain ⟨content, known⟩ := Option.isSome_iff_exists.mp exists_file
  have written := writeFile_self exists_file (payBatch (planFor s.records job.batch) s.content)
  rw [content_eq known] at written ⊢
  have behind : headerBlockSize + payloadBytes s.records ≤
      headerBlockSize + (planFor s.records job.batch).header.usedSpace := Nat.le_refl _
  refine ⟨?_, inv.written, inv.payloads, inv.below, ?_, ?_, ?_⟩
  · exact inv.alone_write _
  · intro _ free
    exact absurd trivial free
  · intro used
    obtain ⟨content', known', layout⟩ := inv.layout used
    rw [known] at known'
    cases known'
    exact ⟨_, written, layout.write_free _ _ (Or.inl behind)⟩
  · refine ⟨fits, rfl, payBatch (planFor s.records job.batch) content, ?_⟩
    by_cases unused : s.records = []
    · refine ⟨content.write 0 (packFileHeader magicBytes walCapacity 0 0), written, ?_, ?_⟩
      · rw [unused]
        apply layout_unused
        · exact Nat.le_trans (Nat.le_add_right _ _) fits.valid
        · exact File.write_holds_self _ _ _
      · apply agrees_restored content (packFileHeader_length _ _ _ _ rfl)
        · show walFileHeaderSize ≤ headerBlockSize + _
          simp only [headerBlockSize]
          omega
        · intro none_written
          have length := payloadBlock_length job.batch
          change payloadBlock job.batch = [] at none_written
          obtain ⟨r, rest, shape⟩ := List.exists_cons_of_ne_nil fits.formed.nonempty
          rw [none_written, shape, payloadBytes_cons, List.length_nil] at length
          omega
    · obtain ⟨content', known', layout⟩ := inv.layout unused
      rw [known] at known'
      cases known'
      exact ⟨content, written, layout, Nat.le_refl _, fun _ _ => rfl⟩

theorem JobFits.list {fileId : Nat} {records : List Record} {job : Job}
    (fits : JobFits fileId records job) (clock : Nat → Nat) (file : File) :
    listBatch clock job.completedCopy job.batch (planFor records job.batch) file =
      .ok (file.write (entryOffset records.length)
        ((entryHeaders clock job.completedCopy (payloadBytes records) job.batch).flatMap
          EntryHeader.pack)) := by
  have entries := entryBlock_ok clock job.completedCopy job.batch (payloadBytes records) fits.ids
  simp only [listBatch, planFor, entries, fits.slot]

theorem JobFits.count {fileId : Nat} {records : List Record} {job : Job}
    (fits : JobFits fileId records job) (file : File) :
    countBatch job.batch (planFor records job.batch) file =
      .ok (file.write 0 (packFileHeader magicBytes walCapacity
        (records.length + job.batch.length) (payloadBytes records + payloadBytes job.batch))) := by
  have capacity := fits.capacity
  have room := fits.room
  have packable : walCapacity < 256 ^ 4 ∧ records.length + job.batch.length < 256 ^ 4 ∧
      payloadBytes records + payloadBytes job.batch < 256 ^ 8 := by
    simp only [walCapacity, payloadAreaSize] at *
    omega
  simp only [countBatch, planFor, packUpdatedHeader, packable, and_self, ↓reduceIte]

/-- The entries go into the slots behind the records. -/
theorem Inv.writeEntries {s : Race} (inv : Inv s) {job : Job} {plan : Plan}
    (paid : s.writer = .paid job plan) (clock : Nat → Nat) {file : File}
    (listed : listBatch clock job.completedCopy job.batch plan s.content = .ok file) :
    Inv { s with disk := s.writeFile file, writer := .listed job plan } := by
  have writer := inv.writer
  rw [paid] at writer
  obtain ⟨fits, rfl, content, model, known, layout, agrees⟩ := writer
  rw [fits.list, content_eq known] at listed
  cases listed
  have capacity := fits.capacity
  have written := writeFile_self (Option.isSome_iff_exists.mpr ⟨content, known⟩)
    (content.write (entryOffset s.records.length)
      ((entryHeaders clock job.completedCopy (payloadBytes s.records) job.batch).flatMap
        EntryHeader.pack))
  refine ⟨?_, inv.written, inv.payloads, inv.below, ?_, ?_, ?_⟩
  · exact inv.alone_write _
  · intro _ free
    exact absurd trivial free
  · intro used
    obtain ⟨content', known', held⟩ := inv.layout used
    rw [known] at known'
    cases known'
    refine ⟨_, written, held.write_free _ _ (Or.inr ⟨Nat.le_refl _, ?_⟩)⟩
    rw [flatMap_pack_length, entryHeaders_length]
    simp only [entryOffset, headerBlockSize, walEntryHeaderSize, walCapacity] at *
    omega
  · exact ⟨fits, rfl, _, model, clock, written, layout, agrees.write _ _⟩

/-- The header counts the batch, whatever the background thread wrote before. -/
theorem Inv.writeCount {s : Race} (inv : Inv s) {job : Job} {plan : Plan}
    (listed : s.writer = .listed job plan) {file : File}
    (counted : countBatch job.batch plan s.content = .ok file) :
    Inv { s with
      disk := s.writeFile file
      writer := .idle
      records := s.records ++ job.batch
      completed := s.completed ∪
        job.completedCopy.filter (fun txId => txId ∈ job.batch.map Prod.fst) } := by
  have writer := inv.writer
  rw [listed] at writer
  obtain ⟨fits, rfl, content, model, clock, known, layout, agrees⟩ := writer
  rw [fits.count, content_eq known] at counted
  cases counted
  have written := writeFile_self (Option.isSome_iff_exists.mpr ⟨content, known⟩)
    (content.write 0 (packFileHeader magicBytes walCapacity
      (s.records.length + job.batch.length)
      (payloadBytes s.records + payloadBytes job.batch)))
  have older : ∀ r ∈ s.records, r.1 < s.fileId * walCapacity + s.records.length := by
    intro r member
    obtain ⟨i, inside, rfl⟩ := List.getElem_of_mem member
    have slot := layout.slots i inside
    omega
  have kept : ∀ r ∈ s.records, r.1 ∈ s.completed ∪
      job.completedCopy.filter (fun txId => txId ∈ job.batch.map Prod.fst) ↔
        r.1 ∈ s.completed := by
    intro r member
    have below := older r member
    rw [Finset.mem_union, Finset.mem_filter, List.mem_map]
    constructor
    · rintro (before | ⟨_, other, inside, same⟩)
      · exact before
      · have above := fits.formed.bounds inside
        omega
    · exact Or.inl
  have copied : ∀ r ∈ job.batch, r.1 ∈ s.completed ∪
      job.completedCopy.filter (fun txId => txId ∈ job.batch.map Prod.fst) ↔
        r.1 ∈ job.completedCopy := by
    intro r member
    have above := fits.formed.bounds member
    rw [Finset.mem_union, Finset.mem_filter]
    constructor
    · rintro (before | ⟨inCopy, _⟩)
      · have below := inv.below r.1 before
        omega
      · exact inCopy
    · intro inCopy
      exact Or.inr ⟨inCopy, List.mem_map_of_mem member⟩
  have next : ∀ i, (inside : i < job.batch.length) →
      job.batch[i].1 = s.fileId * walCapacity + (s.records.length + i) := by
    intro i inside
    rw [fits.formed.getElem i inside, Nat.add_assoc]
  have extended := layout.append clock job.completedCopy job.batch next fits.capacity fits.valid
    fits.room kept copied
  have grown : (s.records ++ job.batch).length = s.records.length + job.batch.length :=
    List.length_append
  refine ⟨?_, inv.written, ?_, ?_, ?_, ?_, trivial⟩
  · exact inv.alone_write _
  · intro r member
    rcases List.mem_append.mp member with before | new
    · exact inv.payloads r before
    · exact fits.payloads r new
  · intro txId member
    dsimp only at member ⊢
    rw [grown]
    rcases Finset.mem_union.mp member with before | new
    · have below := inv.below txId before
      omega
    · obtain ⟨r, inside, rfl⟩ := List.mem_map.mp (Finset.mem_filter.mp new).2
      have above := fits.formed.bounds inside
      omega
  · intro unused
    exact absurd (List.append_eq_nil_iff.mp unused).2 fits.formed.nonempty
  · intro _
    refine ⟨_, written, ?_⟩
    apply (agrees.write 0 _).layout extended
    rw [grown, payloadBytes_append]
    exact File.write_holds_self _ _ _

theorem step_inv {s t : Race} {e : Event} (step : Step s e t) (careful : Careful s e)
    (inv : Inv s) : Inv t := by
  have writer := inv.writer
  cases step with
  | backCheck =>
      exact ⟨inv.alone, inv.written, inv.payloads, inv.below, inv.blank, inv.layout, inv.writer⟩
  | backOpen => exact inv.backOpen careful
  | backAllocate => exact inv.allocate .allocated fullSize
  | backHeader => exact inv.header .finished careful
  | batch job idle formed home => exact inv.batch idle formed home careful
  | writerOpen job missing =>
      rw [missing] at writer
      apply inv.truncate writer.1 s.back
      exact ⟨writer.1, writer.2, rfl⟩
  | writerAllocate job truncated =>
      have allocated := inv.allocate s.back (walFileHeaderSize + payloadBytes job.batch)
      have place := allocated.writer
      simp only [truncated] at place
      apply allocated.place (.allocated job) _ place
      intro _
      simp only [truncated]
      exact id
  | writerHeader job allocated =>
      rw [allocated] at writer
      have headed := inv.header s.back writer.1
      have place := headed.writer
      simp only [allocated] at place
      apply headed.place (.opened job) _ place.2
      intro _
      simp only [allocated]
      exact id
  | readHeader job opened =>
      obtain ⟨h, checked⟩ := careful
      have fits := writer
      rw [opened] at fits
      rw [inv.plan opened checked]
      apply inv.place (.laid job (planFor s.records job.batch))
      · intro _
        rw [opened]
        exact id
      · exact ⟨fits.1, fits.2, rfl⟩
  | writePayloads job plan laid => exact inv.writePayloads laid
  | writeEntries clock job plan paid =>
      have fits := writer
      rw [paid] at fits
      obtain ⟨fits, rfl, _⟩ := fits
      rw [fits.list clock s.content]
      exact inv.writeEntries paid clock (fits.list clock s.content)
  | writeCount job plan listed =>
      have fits := writer
      rw [listed] at fits
      obtain ⟨fits, rfl, _⟩ := fits
      rw [fits.count s.content]
      exact inv.writeCount listed (fits.count s.content)

/-- With one file in the directory the reader yields what that file has. -/
theorem Inv.kept {s : Race} (inv : Inv s) : Kept s := by
  refine ⟨inv.written, ?_⟩
  intro r member uncompleted
  have used : s.records ≠ [] := List.ne_nil_of_mem member
  obtain ⟨content, known, layout⟩ := inv.layout used
  have only : s.disk.sortedNames = [s.fileId] := by
    have present : s.fileId ∈ s.disk.sortedNames := FileSystem.mem_sortedNames.mpr ⟨content, known⟩
    have all : ∀ name ∈ s.disk.sortedNames, name = s.fileId := by
      intro name listed
      by_contra different
      obtain ⟨other, there⟩ := FileSystem.mem_sortedNames.mp listed
      rw [inv.alone name different] at there
      cases there
    have strict := FileSystem.sortedNames_strict s.disk
    match shape : s.disk.sortedNames with
    | [] => rw [shape] at present; cases present
    | [name] => rw [all name (by rw [shape]; exact List.mem_cons_self)]
    | first :: second :: rest =>
        rw [shape, List.pairwise_cons] at strict
        have ordered := strict.1 second List.mem_cons_self
        rw [all first (by rw [shape]; exact List.mem_cons_self),
          all second (by rw [shape]; exact List.mem_cons_of_mem _ List.mem_cons_self)] at ordered
        exact absurd ordered (Nat.lt_irrefl _)
  have read := layout.readFile inv.payloads
  simp only [readWal, only, readFiles, known, read, Bool.false_eq_true, ↓reduceIte]
  apply List.mem_append_left
  exact List.mem_filter.mpr ⟨member, by simpa using uncompleted⟩

/-! ### The runs -/

/-- In every run in which the writer always finds a complete header and the background
thread creates the file before a batch is in it, no batch fails and none is lost. -/
theorem kept_unless_interrupted (fileId : Nat) {s : Race} {events : List Event}
    (run : Run (Guarded Step Careful) (start fileId) events s) : Kept s := by
  apply Inv.kept
  apply run.preserves (start_inv fileId)
  intro u e v inv step
  exact step_inv step.1 step.2 inv

/-! ### Runs of the two threads on file 0 -/

/-- A batch of one record with nothing completed. -/
def oneRecord : Job := ⟨[(0, [1])], ∅⟩

theorem oneRecord_formed : IsBatch oneRecord.batch 0 := ⟨by decide, by decide, by decide⟩

/-- The writer finds the file that the background thread has made. -/
theorem kept_after_pre_allocation : ∃ s, Kept s ∧ s.records = [(0, [1])] := by
  have run : ∃ s, Run (Guarded Step Careful) (start 0) [.backCheck, .backOpen, .backAllocate,
      .backHeader, .batch oneRecord, .readHeader, .writePayloads, .writeEntries (fun _ => 0),
      .writeCount] s ∧ s.records = [(0, [1])] := by
    refine ⟨?last, ?run, ?records⟩
    case run =>
      apply Run.cons ⟨Step.backCheck _ rfl, trivial⟩
      apply Run.cons ⟨Step.backOpen _ (by decide), rfl, id⟩
      apply Run.cons ⟨Step.backAllocate _ rfl, trivial⟩
      apply Run.cons ⟨Step.backHeader _ rfl, rfl⟩
      apply Run.cons ⟨Step.batch _ oneRecord rfl oneRecord_formed rfl, by decide, by decide,
        by decide⟩
      apply Run.cons ⟨Step.readHeader _ oneRecord (by decide +kernel),
        (planFor [] oneRecord.batch).header, by decide +kernel⟩
      apply Run.cons ⟨Step.writePayloads _ oneRecord (planFor [] oneRecord.batch)
        (by decide +kernel), trivial⟩
      apply Run.cons ⟨Step.writeEntries _ (fun _ => 0) oneRecord (planFor [] oneRecord.batch)
        (by decide +kernel), trivial⟩
      apply Run.cons ⟨Step.writeCount _ oneRecord (planFor [] oneRecord.batch)
        (by decide +kernel), trivial⟩
      exact Run.nil _
    case records => decide +kernel
  obtain ⟨s, run, records⟩ := run
  exact ⟨s, kept_unless_interrupted 0 run, records⟩

/-- The writer gives a batch up when the header is not complete. -/
theorem Step.readHeader_raises {s : Race} {job : Job} (opened : s.writer = .opened job) {e : Error}
    (incomplete : checkFileHeader (s.content.read 0 walFileHeaderSize) = .error e) :
    Step s .readHeader (s.fail job) := by
  have step := Step.readHeader s job opened
  have raised : planBatch job.batch s.content = .error e := by
    simp only [planBatch, incomplete]
  rwa [raised] at step

/-- The background thread finds no file, the writer makes it and writes its batch, and
then the background thread goes on. -/
def truncatedBehindWriter : List Event :=
  [.backCheck, .batch oneRecord, .writerOpen, .writerAllocate, .writerHeader, .readHeader,
    .writePayloads, .writeEntries (fun _ => 0), .writeCount, .backOpen, .backAllocate, .backHeader]

/-- The writer meets a file that has been opened but has no header yet. -/
def readBeforeHeader : List Event := [.backCheck, .backOpen, .batch oneRecord, .readHeader]

def incomplete : Race :=
  { start 0 with
    disk := openForWriting FileSystem.empty 0
    back := .truncated
    writer := .opened oneRecord }

theorem record_lost_by_pre_allocation :
    (∃ s, Run Step (start 0) truncatedBehindWriter s ∧ s.failed = [] ∧ ¬ Kept s) ∧
      ∃ s, Run Step (start 0) readBeforeHeader s ∧ ¬ Kept s := by
  constructor
  · have run : ∃ s, Run Step (start 0) truncatedBehindWriter s ∧ s.failed = [] ∧
        (0, [1]) ∈ s.records ∧ 0 ∉ s.completed ∧ (readWal s.disk).records = [] := by
      refine ⟨?last, ?run, ?results⟩
      case run =>
        apply Run.cons (Step.backCheck _ rfl)
        apply Run.cons (Step.batch _ oneRecord rfl (by exact oneRecord_formed) rfl)
        apply Run.cons (Step.writerOpen _ oneRecord (by decide))
        apply Run.cons (Step.writerAllocate _ oneRecord rfl)
        apply Run.cons (Step.writerHeader _ oneRecord rfl)
        apply Run.cons (Step.readHeader _ oneRecord rfl)
        apply Run.cons (Step.writePayloads _ oneRecord (planFor [] oneRecord.batch)
          (by decide +kernel))
        apply Run.cons (Step.writeEntries _ (fun _ => 0) oneRecord (planFor [] oneRecord.batch)
          (by decide +kernel))
        apply Run.cons (Step.writeCount _ oneRecord (planFor [] oneRecord.batch)
          (by decide +kernel))
        apply Run.cons (Step.backOpen _ (by decide +kernel))
        apply Run.cons (Step.backAllocate _ rfl)
        apply Run.cons (Step.backHeader _ rfl)
        exact Run.nil _
      case results => decide +kernel
    obtain ⟨s, run, written, member, uncompleted, yielded⟩ := run
    refine ⟨s, run, written, fun kept => ?_⟩
    have found := kept.yielded (0, [1]) member uncompleted
    rw [yielded] at found
    cases found
  · have opened := Run.append
      (Run.cons (Step.backCheck (start 0) rfl) (Run.cons (Step.backOpen _ (by decide)) (Run.nil _)))
      (Run.cons (Step.batch _ oneRecord rfl (by exact oneRecord_formed) rfl) (Run.nil _))
    have raised := Step.readHeader_raises
      (show incomplete.writer = .opened oneRecord from rfl)
      (show checkFileHeader (incomplete.content.read 0 walFileHeaderSize) =
        .error (.headerTruncated 0) by decide)
    refine ⟨incomplete.fail oneRecord, Run.snoc opened raised, fun kept => ?_⟩
    have none_failed := kept.written
    cases none_failed

end Race

end CachyDb.Wal
