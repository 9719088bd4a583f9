import CachyDb.Lib.Handles
import CachyDb.Wal.Checkpoint
import CachyDb.Wal.Log

set_option autoImplicit false

/-! Two logs that differ only by archived files. What the writer, the marks, the reader and
an opening do is the same for both. -/

namespace CachyDb.Wal

open ByteString

/-- The open file is the one that its path leads to, unless the path is one of those gone. -/
structure Linked (gone : Finset Nat) (w : Wal) : Prop where
  held : ∀ path handle, w.currentFile = some (path, handle) → w.disk.Held path handle
  found : ∀ path handle, w.currentFile = some (path, handle) → path ∉ gone →
    w.disk.dir.lookup path = some handle

section

variable {gone : Finset Nat} {w : Wal} {fileId i : Nat}

theorem Linked.opened (found : w.disk.dir.lookup fileId = some i) :
    Linked gone { w with currentFile := some (fileId, i) } := by
  refine ⟨fun path handle opened => ?_, fun path handle opened _ => ?_⟩
  · cases opened
    exact FileSystem.held_of_lookup found
  · cases opened
    exact found

theorem Linked.update (linked : Linked gone w) (j : Nat) (content : File) :
    Linked gone { w with disk := w.disk.update j content } :=
  ⟨fun path handle opened => (linked.held path handle opened).update j content,
    linked.found⟩

theorem Linked.create (linked : Linked gone w) (fileId sizeBytes : Nat) :
    Linked gone { w with disk := preAllocateWal w.disk fileId sizeBytes } := by
  refine ⟨fun path handle opened => ?_, fun path handle opened there => ?_⟩
  · dsimp only [preAllocateWal, createFileHeader, fallocate, openForWriting]
    exact (((linked.held path handle opened).truncate fileId).modify _ _).modify _ _
  · have found := linked.found path handle opened there
    simp only [preAllocateWal, createFileHeader, fallocate, openForWriting,
      FileSystem.modify_dir]
    exact FileSystem.truncate_lookup_of_some found fileId

theorem Linked.unlink (linked : Linked gone w) (fileId : Nat) :
    Linked (insert fileId gone) { w with disk := w.disk.unlink fileId } := by
  refine ⟨fun path handle opened => (linked.held path handle opened).unlink fileId,
    fun path handle opened there => ?_⟩
  obtain ⟨different, kept⟩ := not_or.mp (Finset.mem_insert.not.mp there)
  have found := linked.found path handle opened kept
  dsimp only [FileSystem.unlink]
  rw [AList.lookup_erase_ne different]
  exact found

/-- A file that is there is opened, or its handle is the cached one. -/
theorem Linked.getOpenFile (linked : Linked gone w)
    (found : w.disk.dir.lookup fileId = some i) :
    ∃ handle, Wal.getOpenFile w fileId =
        (some handle, { w with currentFile := some (fileId, handle) }) ∧
      w.disk.Held fileId handle ∧ (fileId ∉ gone → handle = i) ∧
      Linked gone { w with currentFile := some (fileId, handle) } := by
  have fresh : Wal.getOpenFile.reopen w fileId =
      (some i, { w with currentFile := some (fileId, i) }) := by
    simp only [Wal.getOpenFile.reopen, found]
  unfold Wal.getOpenFile
  split
  · rename_i path handle opened
    split
    · rename_i same
      subst same
      have itself : { w with currentFile := some (path, handle) } = w := by
        rw [← opened]
      refine ⟨handle, Prod.ext rfl itself.symm, linked.held path handle opened,
        fun there => ?_, itself.symm ▸ linked⟩
      have here := linked.found path handle opened there
      rw [found, Option.some.injEq] at here
      exact here.symm
    · exact ⟨i, fresh, FileSystem.held_of_lookup found, fun _ => rfl, .opened found⟩
  · exact ⟨i, fresh, FileSystem.held_of_lookup found, fun _ => rfl, .opened found⟩

/-- No handle is cached for a missing file. -/
theorem Linked.getOpenFile_missing (linked : Linked gone w) (there : fileId ∉ gone)
    (missing : w.disk.dir.lookup fileId = none) :
    Wal.getOpenFile w fileId = (none, { w with currentFile := none }) := by
  have nothing : Wal.getOpenFile.reopen w fileId = (none, { w with currentFile := none }) := by
    simp only [Wal.getOpenFile.reopen, missing]
  unfold Wal.getOpenFile
  split
  · rename_i path handle opened
    split
    · rename_i same
      subst same
      rw [linked.found path handle opened there] at missing
      cases missing
    · exact nothing
  · exact nothing

end

/-- A newer file has not been archived. -/
def Superseded (gone : Finset Nat) (w : Wal) (fileId : Nat) : Prop :=
  ∃ newer, newer ∉ gone ∧ fileId < newer ∧ w.disk.present newer = true

/-- `w'` is `w` after the files `gone` have been archived. A late thread may have made one of
them again, which then holds no record. The files `listed` may be archived next. -/
structure Archived (listed : List Nat) (gone : Finset Nat) (w w' : Wal) : Prop where
  globalTxId : w'.globalTxId = w.globalTxId
  walBuffer : w'.walBuffer = w.walBuffer
  ramCompletedTx : w'.ramCompletedTx = w.ramCompletedTx
  preallocating : w'.preallocating = w.preallocating
  same : ∀ fileId, fileId ∉ gone → w'.disk.file fileId = w.disk.file fileId
  unused : ∀ fileId ∈ gone, ∀ file, w'.disk.file fileId = some file → Layout file fileId [] ∅
  kept : ∀ fileId, fileId ∈ gone ∨ fileId ∈ listed → w.disk.present fileId = true
  superseded : ∀ fileId, fileId ∈ gone ∨ fileId ∈ listed → Superseded gone w fileId
  before : Linked ∅ w
  after : Linked gone w'

section

variable {listed : List Nat} {gone : Finset Nat} {w w' : Wal} {fileId : Nat}

theorem Archived.present (archived : Archived listed gone w w') (there : fileId ∉ gone) :
    w'.disk.present fileId = w.disk.present fileId := by
  have same := archived.same fileId there
  rw [Bool.eq_iff_iff, FileSystem.present_iff, FileSystem.present_iff, same]

/-- Files that are created are superseded no less. -/
theorem Superseded.mono {w₁ : Wal} (superseded : Superseded gone w fileId)
    (present : ∀ other, w.disk.present other = true → w₁.disk.present other = true) :
    Superseded gone w₁ fileId := by
  obtain ⟨newer, there, above, known⟩ := superseded
  exact ⟨newer, there, above, present newer known⟩

theorem Archived.create (archived : Archived listed gone w w') (there : fileId ∉ gone) (sizeBytes : Nat) :
    Archived listed gone { w with disk := preAllocateWal w.disk fileId sizeBytes }
      { w' with disk := preAllocateWal w'.disk fileId sizeBytes } := by
  have present (other : Nat) (known : w.disk.present other = true) :
      (preAllocateWal w.disk fileId sizeBytes).present other = true := by
    rw [preAllocateWal_present, known, Bool.or_true]
  refine ⟨archived.globalTxId, archived.walBuffer, archived.ramCompletedTx,
    archived.preallocating, fun other spared => ?_, fun other removed file known => ?_,
    fun other removed => present other (archived.kept other removed),
    fun other removed => (archived.superseded other removed).mono present,
    archived.before.create _ _, archived.after.create _ _⟩
  · by_cases same : other = fileId
    · subst same
      rw [preAllocateWal_file_self, preAllocateWal_file_self]
    · rw [preAllocateWal_file_ne _ _ same, preAllocateWal_file_ne _ _ same]
      exact archived.same other spared
  · have different : other ≠ fileId := fun same => there (same ▸ removed)
    dsimp only at known
    rw [preAllocateWal_file_ne _ _ different] at known
    exact archived.unused other removed file known

/-- A late thread makes an archived file again, without records. -/
theorem Archived.recreate (archived : Archived listed gone w w') (removed : fileId ∈ gone)
    (valid : fileId * walCapacity ≤ 2 ^ 63) (sizeBytes : Nat) :
    Archived listed gone w { w' with disk := preAllocateWal w'.disk fileId sizeBytes } := by
  refine ⟨archived.globalTxId, archived.walBuffer, archived.ramCompletedTx,
    archived.preallocating, fun other spared => ?_, fun other inside file known => ?_,
    archived.kept, archived.superseded, archived.before, archived.after.create _ _⟩
  · have different : other ≠ fileId := fun same => spared (same ▸ removed)
    dsimp only
    rw [preAllocateWal_file_ne _ _ different]
    exact archived.same other spared
  · dsimp only at known
    by_cases same : other = fileId
    · subst same
      rw [preAllocateWal_file_self, Option.some.injEq] at known
      rw [← known]
      exact layout_created _ _ _ _ valid
    · rw [preAllocateWal_file_ne _ _ same] at known
      exact archived.unused other inside file known

theorem Archived.preAllocateAsync (archived : Archived listed gone w w')
    (valid : fileId * walCapacity ≤ 2 ^ 63) :
    Archived listed gone (Wal.preAllocateAsync w fileId) (Wal.preAllocateAsync w' fileId) := by
  by_cases removed : fileId ∈ gone
  · have known := archived.kept fileId (Or.inl removed)
    simp only [Wal.preAllocateAsync, known, ↓reduceIte]
    split
    · exact archived
    · exact archived.recreate removed valid _
  · simp only [Wal.preAllocateAsync, archived.present removed]
    split
    · exact archived
    · exact archived.create removed _

theorem Archived.runPreAllocation (archived : Archived listed gone w w')
    (valid : fileId * walCapacity ≤ 2 ^ 63) :
    Archived listed gone (Wal.runPreAllocation w fileId) (Wal.runPreAllocation w' fileId) := by
  have made := archived.preAllocateAsync valid
  exact ⟨made.globalTxId, made.walBuffer, made.ramCompletedTx,
    congrArg (fun targets => targets.erase fileId) archived.preallocating, made.same, made.unused,
    made.kept, made.superseded, ⟨made.before.held, made.before.found⟩,
    ⟨made.after.held, made.after.found⟩⟩

/-- The file of a later batch is made in both, or is there in both. -/
theorem Archived.ensureFile (archived : Archived listed gone w w') (first : Nat) (batch : List Record)
    (there : first / walCapacity ∉ gone) :
    ∃ outcome w₁ w₁', Wal.ensureFile w first batch = (outcome, w₁) ∧
      Wal.ensureFile w' first batch = (outcome, w₁') ∧ Archived listed gone w₁ w₁' := by
  unfold Wal.ensureFile
  cases path : getFilePath first with
  | error e => exact ⟨_, _, _, rfl, rfl, archived⟩
  | ok fileId =>
      have home : fileId = first / walCapacity := by
        unfold getFilePath at path
        split at path
        · cases path
        · exact (Except.ok.inj path).symm
      subst home
      dsimp only
      rw [archived.present there]
      split
      · exact ⟨_, _, _, rfl, rfl, archived⟩
      · have created := archived.create there (walFileHeaderSize + payloadBytes batch)
        cases getFilePath (first + walCapacity) with
        | error e => exact ⟨_, _, _, rfl, rfl, created⟩
        | ok next =>
            exact ⟨_, _, _, rfl, rfl, created.globalTxId, created.walBuffer,
              created.ramCompletedTx, congrArg (List.cons next) archived.preallocating,
              created.same, created.unused, created.kept, created.superseded,
              ⟨created.before.held, created.before.found⟩,
              ⟨created.after.held, created.after.found⟩⟩

/-- What is behind the handles of one file is written alike. -/
theorem Archived.update (archived : Archived listed gone w w') {i j : Nat}
    (found : w.disk.dir.lookup fileId = some i) (found' : w'.disk.dir.lookup fileId = some j)
    (there : fileId ∉ gone) (content : File) :
    Archived listed gone { w with disk := w.disk.update i content }
      { w' with disk := w'.disk.update j content } := by
  refine ⟨archived.globalTxId, archived.walBuffer, archived.ramCompletedTx,
    archived.preallocating, fun other spared => ?_, fun other removed file known => ?_,
    archived.kept, archived.superseded, archived.before.update i content,
    archived.after.update j content⟩
  · by_cases same : other = fileId
    · subst same
      rw [FileSystem.update_file_self found, FileSystem.update_file_self found']
    · rw [FileSystem.update_file_ne found _ same, FileSystem.update_file_ne found' _ same]
      exact archived.same other spared
  · have different : other ≠ fileId := fun same => there (same ▸ removed)
    dsimp only at known
    rw [FileSystem.update_file_ne found' _ different] at known
    exact archived.unused other removed file known

/-- The file is open in both, with the same content, or missing in both. -/
theorem Archived.getOpenFile (archived : Archived listed gone w w') (there : fileId ∉ gone) :
    (∃ i j, w.disk.dir.lookup fileId = some i ∧ w'.disk.dir.lookup fileId = some j ∧
      w'.disk.inode j = w.disk.inode i ∧
      Wal.getOpenFile w fileId = (some i, { w with currentFile := some (fileId, i) }) ∧
      Wal.getOpenFile w' fileId = (some j, { w' with currentFile := some (fileId, j) })) ∨
    (Wal.getOpenFile w fileId = (none, { w with currentFile := none }) ∧
      Wal.getOpenFile w' fileId = (none, { w' with currentFile := none })) := by
  have same := archived.same fileId there
  cases found : w.disk.dir.lookup fileId with
  | none =>
      right
      rw [FileSystem.file_eq_none.mpr found, FileSystem.file_eq_none] at same
      exact ⟨archived.before.getOpenFile_missing (Finset.notMem_empty _) found,
        archived.after.getOpenFile_missing there same⟩
  | some i =>
      left
      have known := archived.present there
      rw [FileSystem.present_of_lookup found] at known
      obtain ⟨j, found'⟩ := Option.isSome_iff_exists.mp known
      rw [FileSystem.file_of_lookup found, FileSystem.file_of_lookup found',
        Option.some.injEq] at same
      obtain ⟨handle, opened, _, own, _⟩ := archived.before.getOpenFile found
      obtain ⟨handle', opened', _, own', _⟩ := archived.after.getOpenFile found'
      obtain rfl := own (Finset.notMem_empty _)
      obtain rfl := own' there
      exact ⟨_, _, rfl, found', same, opened, opened'⟩

theorem Archived.opened (archived : Archived listed gone w w') {i j : Nat}
    (found : w.disk.dir.lookup fileId = some i) (found' : w'.disk.dir.lookup fileId = some j) :
    Archived listed gone { w with currentFile := some (fileId, i) }
      { w' with currentFile := some (fileId, j) } :=
  ⟨archived.globalTxId, archived.walBuffer, archived.ramCompletedTx, archived.preallocating,
    archived.same, archived.unused, archived.kept, archived.superseded, .opened found,
    .opened found'⟩

theorem Archived.closed (archived : Archived listed gone w w') :
    Archived listed gone { w with currentFile := none } { w' with currentFile := none } :=
  ⟨archived.globalTxId, archived.walBuffer, archived.ramCompletedTx, archived.preallocating,
    archived.same, archived.unused, archived.kept, archived.superseded,
    ⟨fun _ _ opened => (by cases opened), fun _ _ opened => (by cases opened)⟩,
    ⟨fun _ _ opened => (by cases opened), fun _ _ opened => (by cases opened)⟩⟩

theorem Archived.writeBatch (archived : Archived listed gone w w') (clock : Nat → Nat)
    (copy : Finset Nat) (batch : List Record)
    (there : (batch.map Prod.fst).headD 0 / walCapacity ∉ gone) :
    ∃ outcome w₁ w₁', writeBatchToDisk clock copy w batch = (outcome, w₁) ∧
      writeBatchToDisk clock copy w' batch = (outcome, w₁') ∧ Archived listed gone w₁ w₁' := by
  obtain ⟨outcome, w₁, w₁', made, made', ensured⟩ := archived.ensureFile _ batch there
  unfold writeBatchToDisk
  dsimp only
  rw [made, made']
  cases outcome with
  | error e => exact ⟨_, _, _, rfl, rfl, ensured⟩
  | ok done =>
      dsimp only
      rcases ensured.getOpenFile there with
        ⟨i, j, found, found', same, opened, opened'⟩ | ⟨missing, missing'⟩
      · rw [opened, opened']
        dsimp only
        rw [same]
        exact ⟨_, _, _, rfl, rfl, (ensured.opened found found').update found found' there _⟩
      · rw [missing, missing']
        exact ⟨_, _, _, rfl, rfl, ensured.closed⟩

theorem Archived.writeBatches (archived : Archived listed gone w w') (clock : Nat → Nat)
    (copy : Finset Nat) (batches : List (List Record))
    (there : ∀ batch ∈ batches, (batch.map Prod.fst).headD 0 / walCapacity ∉ gone) :
    ∃ outcome kept w₁ w₁', Wal.writeBatches clock copy w batches = (outcome, kept, w₁) ∧
      Wal.writeBatches clock copy w' batches = (outcome, kept, w₁') ∧ Archived listed gone w₁ w₁' := by
  induction batches generalizing w w' with
  | nil => exact ⟨_, _, _, _, rfl, rfl, archived⟩
  | cons batch rest ih =>
      obtain ⟨here, others⟩ := List.forall_mem_cons.mp there
      obtain ⟨outcome, w₁, w₁', done, done', written⟩ := archived.writeBatch clock copy batch here
      unfold Wal.writeBatches
      rw [done, done']
      cases outcome with
      | error e => exact ⟨_, _, _, _, rfl, rfl, written⟩
      | ok _ =>
          obtain ⟨outcome, kept, w₂, w₂', later, later', rest_written⟩ := ih written others
          dsimp only
          rw [later, later']
          exact ⟨_, _, _, _, rfl, rfl, rest_written⟩

/-- One turn of the writer, when no record of the buffer belongs to an archived file. -/
theorem Archived.flushBuffer (archived : Archived listed gone w w') (clock : Nat → Nat)
    (there : ∀ r ∈ w.walBuffer, r.1 / walCapacity ∉ gone) :
    ∃ outcome kept w₁ w₁', Wal.flushBuffer clock w = (outcome, kept, w₁) ∧
      Wal.flushBuffer clock w' = (outcome, kept, w₁') ∧ Archived listed gone w₁ w₁' := by
  have homes : ∀ batch ∈ fileBatches w.walBuffer,
      (batch.map Prod.fst).headD 0 / walCapacity ∉ gone := by
    intro batch member
    obtain ⟨group, inside, rfl⟩ := List.mem_map.mp member
    obtain ⟨some_record, each⟩ := Grouping.mem_groupBy inside
    obtain ⟨r, rest, shape⟩ := List.exists_cons_of_ne_nil some_record
    rw [shape]
    exact there r (each r (shape ▸ List.mem_cons_self)).2
  have swapped : Archived listed gone { w with walBuffer := [] } { w' with walBuffer := [] } :=
    ⟨archived.globalTxId, rfl, archived.ramCompletedTx, archived.preallocating, archived.same,
      archived.unused, archived.kept, archived.superseded,
      ⟨archived.before.held, archived.before.found⟩, ⟨archived.after.held, archived.after.found⟩⟩
  have taken : Archived listed gone { w with walBuffer := [], ramCompletedTx := ∅ }
      { w' with walBuffer := [], ramCompletedTx := ∅ } :=
    ⟨archived.globalTxId, rfl, rfl, archived.preallocating, archived.same, archived.unused,
      archived.kept, archived.superseded, ⟨archived.before.held, archived.before.found⟩,
      ⟨archived.after.held, archived.after.found⟩⟩
  by_cases empty : w.walBuffer = []
  · have empty' := archived.walBuffer.trans empty
    simp only [Wal.flushBuffer, swapBuffer, writeBufferToDisk, empty, empty', ↓reduceIte]
    exact ⟨_, _, _, _, rfl, rfl, swapped⟩
  · have more' : w'.walBuffer ≠ [] := fun none => empty (archived.walBuffer.symm.trans none)
    simp only [Wal.flushBuffer, swapBuffer, writeBufferToDisk, takeCompleted, empty, more',
      ↓reduceIte]
    rw [archived.walBuffer, archived.ramCompletedTx]
    exact taken.writeBatches clock w.ramCompletedTx _ homes

theorem Archived.append (archived : Archived listed gone w w') (payload : Bytes) :
    (appendToBuffer w' payload).1 = (appendToBuffer w payload).1 ∧
      Archived listed gone (appendToBuffer w payload).2 (appendToBuffer w' payload).2 := by
  refine ⟨archived.globalTxId, congrArg (· + 1) archived.globalTxId, ?_,
    archived.ramCompletedTx, archived.preallocating, archived.same, archived.unused,
    archived.kept, archived.superseded, ⟨archived.before.held, archived.before.found⟩,
    ⟨archived.after.held, archived.after.found⟩⟩
  simp only [appendToBuffer, archived.walBuffer, archived.globalTxId]

theorem Archived.appendMany (archived : Archived listed gone w w') (payloads : List Bytes) :
    (appendManyToBuffer w' payloads).1 = (appendManyToBuffer w payloads).1 ∧
      Archived listed gone (appendManyToBuffer w payloads).2 (appendManyToBuffer w' payloads).2 := by
  induction payloads generalizing w w' with
  | nil => exact ⟨rfl, archived⟩
  | cons payload rest ih =>
      obtain ⟨first, appended⟩ := archived.append payload
      obtain ⟨later, all⟩ := ih appended
      unfold appendManyToBuffer
      dsimp only
      rw [first, later]
      exact ⟨rfl, all⟩

/-- A mark in an archived file is one in a file that is not there, or has no records. -/
theorem Archived.markGone (archived : Archived listed gone w w') (removed : fileId ∈ gone)
    (txIds : List Nat) (home : ∀ txId ∈ txIds, txId / walCapacity = fileId) :
    Archived listed gone (Wal.markFile w fileId txIds) (Wal.markFile w' fileId txIds) := by
  have known := archived.kept fileId (Or.inl removed)
  obtain ⟨i, found⟩ := Option.isSome_iff_exists.mp known
  obtain ⟨handle, opened, _, own, linked⟩ := archived.before.getOpenFile found
  obtain rfl := own (Finset.notMem_empty _)
  -- the whole log writes to the file, which the other one does not look at
  have marked (content : File) : Archived listed gone
      { w with currentFile := some (fileId, handle), disk := w.disk.update handle content } w' := by
    refine ⟨archived.globalTxId, archived.walBuffer, archived.ramCompletedTx,
      archived.preallocating, fun other spared => ?_, archived.unused, archived.kept,
      archived.superseded, linked.update handle content, archived.after⟩
    have different : other ≠ fileId := fun same => spared (same ▸ removed)
    dsimp only
    rw [FileSystem.update_file_ne found _ different]
    exact archived.same other spared
  have left := marked (txIds.foldl (fun file txId => file.write (flagOffset txId) [1])
    (w.disk.inode handle))
  unfold Wal.markFile
  rw [if_pos known, opened]
  dsimp only
  split
  · rename_i again
    obtain ⟨j, found'⟩ := Option.isSome_iff_exists.mp again
    obtain ⟨handle', opened', held, _, linked'⟩ := archived.after.getOpenFile found'
    rw [opened']
    dsimp only
    refine ⟨left.globalTxId, left.walBuffer, left.ramCompletedTx, left.preallocating,
      fun other spared => ?_, fun other inside file there => ?_, left.kept, left.superseded,
      left.before, linked'.update _ _⟩
    · have different : other ≠ fileId := fun same => spared (same ▸ removed)
      dsimp only
      rw [held.update_file_ne _ different]
      exact left.same other spared
    · dsimp only at there
      by_cases same : other = fileId
      · subst same
        rw [FileSystem.Held.update_file_self found', Option.some.injEq] at there
        have blank := archived.unused other inside _ (FileSystem.file_of_lookup found')
        split at there
        · rename_i behind
          rw [← there, ← behind]
          exact (blank.markAll txIds home).congr fun r member => by cases member
        · rw [← there]
          exact blank
      · rw [held.update_file_ne _ same] at there
        exact archived.unused other inside file there
  · exact left

theorem Archived.markFile (archived : Archived listed gone w w') (fileId : Nat) (txIds : List Nat)
    (home : ∀ txId ∈ txIds, txId / walCapacity = fileId) :
    Archived listed gone (Wal.markFile w fileId txIds) (Wal.markFile w' fileId txIds) := by
  by_cases removed : fileId ∈ gone
  · exact archived.markGone removed txIds home
  · unfold Wal.markFile
    rw [archived.present removed]
    split
    · rcases archived.getOpenFile removed with
        ⟨i, j, found, found', same, opened, opened'⟩ | ⟨missing, missing'⟩
      · rw [opened, opened']
        dsimp only
        rw [same]
        exact (archived.opened found found').update found found' removed _
      · rw [missing, missing']
        exact archived.closed
    · exact archived

theorem Archived.markDisk (archived : Archived listed gone w w') (txIds : List Nat) :
    Archived listed gone (Wal.markDisk w txIds) (Wal.markDisk w' txIds) := by
  have homes : ∀ group ∈ Grouping.groupBy (fun txId => txId / walCapacity)
      (txIds.filter fun txId => (validateTxId txId).isOk),
      ∀ txId ∈ group.2, txId / walCapacity = group.1 :=
    fun group member txId inside => ((Grouping.mem_groupBy member).2 txId inside).1
  unfold Wal.markDisk
  generalize Grouping.groupBy (fun txId => txId / walCapacity)
    (txIds.filter fun txId => (validateTxId txId).isOk) = groups at homes
  induction groups generalizing w w' with
  | nil => exact archived
  | cons group rest ih =>
      obtain ⟨here, others⟩ := List.forall_mem_cons.mp homes
      exact ih (archived.markFile group.1 group.2 here) others

theorem Archived.mark (archived : Archived listed gone w w') (txIds : List Nat) :
    Archived listed gone (markManyJobsComplete w txIds) (markManyJobsComplete w' txIds) := by
  have locked : Archived listed gone (markLocked w txIds).2 (markLocked w' txIds).2 :=
    ⟨archived.globalTxId, archived.walBuffer,
      congrArg (· ∪ txIds.toFinset) archived.ramCompletedTx, archived.preallocating,
      archived.same, archived.unused, archived.kept, archived.superseded,
      ⟨archived.before.held, archived.before.found⟩, ⟨archived.after.held, archived.after.found⟩⟩
  have left : (markLocked w' txIds).1 = (markLocked w txIds).1 := by
    simp only [markLocked, archived.walBuffer]
  unfold markManyJobsComplete
  split
  · exact archived
  · dsimp only
    rw [left]
    exact locked.markDisk _

theorem Archived.newest (archived : Archived listed gone w w') :
    w'.disk.sortedNames.getLast? = w.disk.sortedNames.getLast? ∧
      ∀ newest, w.disk.sortedNames.getLast? = some newest → newest ∉ gone := by
  have spared {newest : Nat} (last : w.disk.sortedNames.getLast? = some newest) :
      newest ∉ gone := by
    intro removed
    obtain ⟨newer, _, above, known⟩ := archived.superseded newest (Or.inl removed)
    have listed := FileSystem.mem_sortedNames.mpr (FileSystem.present_iff.mp known)
    have below := FileSystem.le_of_getLast_sortedNames last listed
    omega
  have listed' {fileId : Nat} (there : fileId ∉ gone) :
      fileId ∈ w'.disk.sortedNames ↔ fileId ∈ w.disk.sortedNames := by
    rw [FileSystem.mem_sortedNames, FileSystem.mem_sortedNames, archived.same fileId there]
  refine ⟨?_, fun newest last => spared last⟩
  cases last : w.disk.sortedNames.getLast? with
  | none =>
      have nothing := List.getLast?_eq_none_iff.mp last
      rw [List.getLast?_eq_none_iff, List.eq_nil_iff_forall_not_mem]
      intro fileId listed
      by_cases removed : fileId ∈ gone
      · have inside := FileSystem.mem_sortedNames.mpr
          (FileSystem.present_iff.mp (archived.kept fileId (Or.inl removed)))
        rw [nothing] at inside
        cases inside
      · have inside := (listed' removed).mp listed
        rw [nothing] at inside
        cases inside
  | some newest =>
      have here := (listed' (spared last)).mpr (List.mem_of_getLast? last)
      cases last' : w'.disk.sortedNames.getLast? with
      | none =>
          rw [List.getLast?_eq_none_iff.mp last'] at here
          cases here
      | some newest' =>
          have low := FileSystem.le_of_getLast_sortedNames last' here
          have high : newest' ≤ newest := by
            by_cases removed : newest' ∈ gone
            · exact FileSystem.le_of_getLast_sortedNames last (FileSystem.mem_sortedNames.mpr
                (FileSystem.present_iff.mp (archived.kept newest' (Or.inl removed))))
            · exact FileSystem.le_of_getLast_sortedNames last
                ((listed' removed).mp (List.mem_of_getLast? last'))
          rw [Nat.le_antisymm high low]

theorem Archived.restoreGlobalTxId (archived : Archived listed gone w w') :
    Wal.restoreGlobalTxId w'.disk = Wal.restoreGlobalTxId w.disk := by
  obtain ⟨same, spared⟩ := archived.newest
  unfold Wal.restoreGlobalTxId
  rw [same]
  cases last : w.disk.sortedNames.getLast? with
  | none => rfl
  | some newest =>
      dsimp only
      rw [archived.same newest (spared newest last)]

/-- An opening finds the same counter. -/
theorem Archived.openWal (archived : Archived listed gone w w') {opened : Wal}
    (done : Wal.openWal w.disk = .ok opened) :
    ∃ opened', Wal.openWal w'.disk = .ok opened' ∧ Archived listed gone opened opened' := by
  unfold Wal.openWal at done ⊢
  rw [archived.restoreGlobalTxId]
  cases counter : Wal.restoreGlobalTxId w.disk with
  | error e =>
      rw [counter] at done
      cases done
  | ok txId =>
      rw [counter] at done
      cases done
      exact ⟨_, rfl, rfl, rfl, rfl, rfl, archived.same, archived.unused, archived.kept,
        archived.superseded, ⟨fun _ _ opened => (by cases opened),
          fun _ _ opened => (by cases opened)⟩,
        ⟨fun _ _ opened => (by cases opened), fun _ _ opened => (by cases opened)⟩⟩

/-- The reader yields the same where only completed records have been archived. -/
theorem Archived.readWal (archived : Archived listed gone w w') {written : List Record}
    {marked : Finset Nat} (inv : OnDisk w written marked)
    (completed : ∀ r ∈ written, r.1 / walCapacity ∈ gone → r.1 ∈ marked) :
    Wal.readWal w'.disk = Wal.readWal w.disk := by
  have readable : Readable w'.disk written marked := by
    refine ⟨inv.ascending, fun fileId file known => ?_, fun r member => ?_⟩
    · by_cases removed : fileId ∈ gone
      · have nothing : (fileRecords written fileId).filter (fun r => r.1 ∉ marked) = [] := by
          rw [List.filter_eq_nil_iff]
          intro r member
          obtain ⟨inside, home⟩ := mem_fileRecords.mp member
          exact fun unmarked => of_decide_eq_true unmarked (completed r inside (home ▸ removed))
        rw [nothing, (archived.unused fileId removed file known).readFile fun r member => by
          cases member]
        rfl
      · rw [archived.same fileId removed] at known
        exact inv.readable.files fileId file known
    · rcases inv.kept r member with done | known
      · exact Or.inl done
      · by_cases removed : r.1 / walCapacity ∈ gone
        · exact Or.inl (completed r member removed)
        · exact Or.inr ((archived.present removed).trans known)
  rw [readable.readWal, inv.readWal]

/-- One more file is archived, which a newer one has superseded. -/
theorem Archived.unlink (archived : Archived listed gone w w')
    (superseded : Superseded gone w fileId) (known : w.disk.present fileId = true) :
    Archived listed (insert fileId gone) w { w' with disk := w'.disk.unlink fileId } := by
  have later {other : Nat} (old : Superseded gone w other) :
      Superseded (insert fileId gone) w other := by
    obtain ⟨newer, there, above, present⟩ := old
    by_cases same : newer = fileId
    · -- the file that was newer is the one that goes, and a still newer one stays
      subst same
      obtain ⟨newest, there', above', present'⟩ := superseded
      exact ⟨newest, fun inside => (Finset.mem_insert.mp inside).elim
        (Nat.ne_of_gt above') there', Nat.lt_trans above above', present'⟩
    · exact ⟨newer, fun inside => (Finset.mem_insert.mp inside).elim same there, above, present⟩
  refine ⟨archived.globalTxId, archived.walBuffer, archived.ramCompletedTx,
    archived.preallocating, fun other spared => ?_, fun other removed file there => ?_,
    fun other removed => ?_, fun other removed => ?_,
    ⟨archived.before.held, archived.before.found⟩, archived.after.unlink fileId⟩
  · obtain ⟨different, old⟩ := not_or.mp (Finset.mem_insert.not.mp spared)
    dsimp only
    rw [FileSystem.unlink_file_ne _ different]
    exact archived.same other old
  · dsimp only at there
    by_cases same : other = fileId
    · subst same
      rw [FileSystem.unlink_file_self] at there
      cases there
    · rw [FileSystem.unlink_file_ne _ same] at there
      exact archived.unused other ((Finset.mem_insert.mp removed).resolve_left same) file there
  · rcases removed with inside | listed
    · rcases Finset.mem_insert.mp inside with same | old
      · exact same ▸ known
      · exact archived.kept other (Or.inl old)
    · exact archived.kept other (Or.inr listed)
  · rcases removed with inside | listed
    · rcases Finset.mem_insert.mp inside with same | old
      · exact later (same ▸ superseded)
      · exact later (archived.superseded other (Or.inl old))
    · exact later (archived.superseded other (Or.inr listed))

/-- Other files are listed, sealed ones. -/
theorem Archived.list (archived : Archived listed gone w w') {listed' : List Nat}
    (known : ∀ fileId ∈ listed', w.disk.present fileId = true)
    (superseded : ∀ fileId ∈ listed', Superseded gone w fileId) : Archived listed' gone w w' :=
  ⟨archived.globalTxId, archived.walBuffer, archived.ramCompletedTx, archived.preallocating,
    archived.same, archived.unused,
    fun fileId aside => aside.elim (fun old => archived.kept fileId (Or.inl old)) (known fileId),
    fun fileId aside =>
      aside.elim (fun old => archived.superseded fileId (Or.inl old)) (superseded fileId),
    archived.before, archived.after⟩

/-- The files that the checkpoint lists are there, and a newer one is. -/
theorem Archived.sealed (archived : Archived listed gone w w')
    (member : fileId ∈ sealedFiles w'.disk) :
    w.disk.present fileId = true ∧ Superseded gone w fileId := by
  obtain ⟨same, spared⟩ := archived.newest
  have listed' := List.dropLast_subset _ member
  have known : w.disk.present fileId = true := by
    by_cases removed : fileId ∈ gone
    · exact archived.kept fileId (Or.inl removed)
    · rw [← archived.present removed]
      exact FileSystem.present_iff.mpr (FileSystem.mem_sortedNames.mp listed')
  refine ⟨known, ?_⟩
  obtain ⟨newest, last⟩ : ∃ newest, w'.disk.sortedNames.getLast? = some newest := by
    rw [← Option.isSome_iff_exists, List.getLast?_isSome]
    exact List.ne_nil_of_mem listed'
  obtain ⟨front, shape⟩ := List.getLast?_eq_some_iff.mp last
  have ordered := FileSystem.sortedNames_strict w'.disk
  rw [shape, List.pairwise_append] at ordered
  rw [sealedFiles, shape, List.dropLast_concat] at member
  rw [same] at last
  refine ⟨newest, spared newest last,
    ordered.2.2 fileId member newest (List.mem_singleton.mpr rfl), ?_⟩
  exact FileSystem.present_iff.mpr (FileSystem.mem_sortedNames.mp (List.mem_of_getLast? last))

end

end CachyDb.Wal
