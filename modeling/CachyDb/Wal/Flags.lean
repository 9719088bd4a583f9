import CachyDb.Wal.Flush

set_option autoImplicit false

/-! The completion flags alone. They survive every operation on a file but the
write of their own entry, whatever else the file holds. -/

namespace CachyDb.Wal

open ByteString

/-- The completion flag of a transaction is set in its entry on disk. -/
def Flagged (disk : FileSystem Nat) (txId : Nat) : Prop :=
  ∃ file, disk.file (txId / walCapacity) = some file ∧ file.Holds (flagOffset txId) [1]

/-- The flag as a reader of the entry sees it. -/
def entryCompleted (disk : FileSystem Nat) (txId : Nat) : Bool :=
  match disk.file (txId / walCapacity) with
  | none => false
  | some file =>
      (unpackEntryHeader (file.read (entryOffset (getSlotIndex txId))
        walEntryHeaderSize)).isCompleted

theorem Flagged.entryCompleted {disk : FileSystem Nat} {txId : Nat} (flagged : Flagged disk txId) :
    Wal.entryCompleted disk txId = true := by
  obtain ⟨file, known, held⟩ := flagged
  obtain ⟨bound, same⟩ := held 0 (by decide)
  have long : 16 < (file.read (entryOffset (getSlotIndex txId)) walEntryHeaderSize).length := by
    rw [File.read_length]
    simp only [flagOffset, walEntryHeaderSize] at *
    omega
  have byte : (file.read (entryOffset (getSlotIndex txId)) walEntryHeaderSize)[16] = 1 := by
    rw [File.read_getElem]
    exact same
  simp only [Wal.entryCompleted, known, unpackEntryHeader, field, List.drop_eq_getElem_cons long,
    List.take_succ_cons, List.take_zero, byte]
  decide

theorem flagOffset_lt_headerBlock (txId : Nat) : flagOffset txId + 1 ≤ headerBlockSize := by
  have slot : getSlotIndex txId < walCapacity := Nat.mod_lt _ (by decide)
  have tableEnd := entryOffset_lt_headerBlock slot
  simp only [flagOffset, walEntryHeaderSize] at *
  omega

theorem walFileHeaderSize_le_flagOffset (txId : Nat) : walFileHeaderSize ≤ flagOffset txId := by
  simp only [flagOffset, entryOffset]
  omega

/-- Ids of one file with different slots have flags apart. -/
theorem setFlag_holds {file : File} {txId other : Nat}
    (held : file.Holds (flagOffset txId) [1]) :
    (file.write (flagOffset other) [1]).Holds (flagOffset txId) [1] := by
  by_cases same : flagOffset other = flagOffset txId
  · rw [same]
    exact File.write_holds_self _ _ _
  · apply held.write
    simp only [List.length_singleton]
    omega

theorem setFlags_keeps {file : File} {txId : Nat} (txIds : List Nat)
    (held : file.Holds (flagOffset txId) [1]) :
    (txIds.foldl (fun file other => file.write (flagOffset other) [1]) file).Holds
      (flagOffset txId) [1] := by
  induction txIds generalizing file with
  | nil => exact held
  | cons other rest ih => exact ih (setFlag_holds held)

theorem setFlags_sets {file : File} {txId : Nat} {txIds : List Nat} (named : txId ∈ txIds) :
    (txIds.foldl (fun file other => file.write (flagOffset other) [1]) file).Holds
      (flagOffset txId) [1] := by
  induction txIds generalizing file with
  | nil => cases named
  | cons other rest ih =>
      rcases List.mem_cons.mp named with rfl | later
      · exact setFlags_keeps rest (File.write_holds_self _ _ _)
      · exact ih later

/-- The entry headers `_write_batch_to_disk` packs have one width each. -/
theorem entryBlock_shape (clock : Nat → Nat) (copy : Finset Nat) (batch : List Record)
    (offsets : List Nat) (lengths : offsets.length = batch.length) (entries : Bytes)
    (packed : entryBlock clock copy batch offsets = .ok entries) :
    ∃ headers : List EntryHeader, entries = headers.flatMap EntryHeader.pack ∧
      headers.length = batch.length ∧
      ∀ i, (inside : i < batch.length) → (inside' : i < headers.length) →
        headers[i].isCompleted = decide (batch[i].1 ∈ copy) ∧ batch[i].1 < 2 ^ 63 := by
  induction batch generalizing offsets entries with
  | nil =>
      cases packed
      exact ⟨[], rfl, rfl, fun i inside => by cases inside⟩
  | cons r rest ih =>
      obtain ⟨txId, payload⟩ := r
      cases offsets with
      | nil => cases lengths
      | cons offset offsets =>
          simp only [entryBlock, createEntryHeader] at packed
          cases accepted : validateTxId txId with
          | error e =>
              rw [accepted] at packed
              cases packed
          | ok =>
              rw [accepted] at packed
              cases later : entryBlock clock copy rest offsets with
              | error e =>
                  rw [later] at packed
                  cases packed
              | ok block =>
                  rw [later] at packed
                  cases packed
                  obtain ⟨headers, shape, length, each⟩ :=
                    ih offsets (by simpa using lengths) block later
                  refine ⟨⟨txId, clock txId, txId ∈ copy, offset⟩ :: headers, ?_, ?_, ?_⟩
                  · rw [shape, List.flatMap_cons]
                  · rw [List.length_cons, List.length_cons, length]
                  · intro i inside inside'
                    cases i with
                    | zero => exact ⟨rfl, validateTxId_iff.mp accepted⟩
                    | succ i => exact each i (by simpa using inside) (by simpa using inside')

theorem layoutPayloads_length (batch : List Record) (usedSpace : Nat) (offsets : List Nat)
    (block : Bytes) (used : Nat)
    (laid : layoutPayloads usedSpace batch = .ok (offsets, block, used)) :
    offsets.length = batch.length := by
  induction batch generalizing usedSpace offsets block used with
  | nil =>
      cases laid
      rfl
  | cons r rest ih =>
      obtain ⟨txId, payload⟩ := r
      simp only [layoutPayloads] at laid
      split at laid
      · cases laid
      · split at laid
        · cases laid
        · split at laid
          · cases laid
          · rename_i _ rest_offsets rest_block rest_used later
            cases laid
            rw [List.length_cons, List.length_cons, ih _ _ _ _ later]

/-- A completed entry header has its flag set. -/
theorem pack_holds_flag {file : File} {start : Nat} {e : EntryHeader}
    (held : file.Holds start e.pack) (completed : e.isCompleted = true) :
    file.Holds (start + 16) [1] := by
  rw [EntryHeader.pack, completed, File.holds_append, File.holds_append] at held
  have flag := held.1.2
  rw [List.length_append, toBE_length, toBE_length] at flag
  exact flag

/-- An id of the same file that is not in the batch has its slot outside the batch's. -/
theorem IsBatch.slot_outside {batch : List Record} {first txId : Nat}
    (formed : IsBatch batch first) (home : txId / walCapacity = first / walCapacity)
    (other : txId ∉ batch.map Prod.fst) :
    getSlotIndex txId < getSlotIndex first ∨
      getSlotIndex first + batch.length ≤ getSlotIndex txId := by
  rw [formed.ids, List.mem_range'_1] at other
  simp only [getSlotIndex, walCapacity] at *
  omega

/-- The writes of a batch keep every flag of the file but those of its own entries,
and once it has succeeded the copied ids among them are flagged. -/
theorem appendBatch_flags {batch : List Record} {first : Nat} (formed : IsBatch batch first)
    (clock : Nat → Nat) (copy : Finset Nat) (file : File) :
    (∀ txId, txId / walCapacity = first / walCapacity → txId ∉ batch.map Prod.fst →
      file.Holds (flagOffset txId) [1] →
      (appendBatch clock copy batch file).2.Holds (flagOffset txId) [1]) ∧
    ((appendBatch clock copy batch file).1 = .ok () → ∀ r ∈ batch, r.1 < 2 ^ 63 ∧
      (r.1 ∈ copy → (appendBatch clock copy batch file).2.Holds (flagOffset r.1) [1])) := by
  have head := formed.head
  unfold appendBatch
  split
  · exact ⟨fun _ _ _ held => held, fun failed => by cases failed⟩
  · rename_i h checked
    split
    · exact ⟨fun _ _ _ held => held, fun failed => by cases failed⟩
    · rename_i offsets payloadBlock usedSpace laid
      have lengths := layoutPayloads_length _ _ _ _ _ laid
      have paid : ∀ txId, file.Holds (flagOffset txId) [1] →
          (file.write (headerBlockSize + h.usedSpace) payloadBlock).Holds (flagOffset txId) [1] := by
        intro txId held
        have low := flagOffset_lt_headerBlock txId
        apply held.write
        rw [List.length_singleton]
        omega
      dsimp only
      split
      · exact ⟨fun txId _ _ held => paid txId held, fun failed => by cases failed⟩
      · rename_i entries packed
        obtain ⟨headers, shape, count, each⟩ := entryBlock_shape clock copy batch offsets lengths
          entries packed
        have width : entries.length = batch.length * walEntryHeaderSize := by
          rw [shape, flatMap_pack_length, count]
        rw [head]
        have listed : ∀ txId, txId / walCapacity = first / walCapacity →
            txId ∉ batch.map Prod.fst → file.Holds (flagOffset txId) [1] →
            ((file.write (headerBlockSize + h.usedSpace) payloadBlock).write
              (entryOffset (getSlotIndex first)) entries).Holds (flagOffset txId) [1] := by
          intro txId home other held
          have outside := formed.slot_outside home other
          apply (paid txId held).write
          rw [width, List.length_singleton]
          simp only [flagOffset, entryOffset, walEntryHeaderSize]
          omega
        have set : ∀ r ∈ batch, r.1 ∈ copy →
            ((file.write (headerBlockSize + h.usedSpace) payloadBlock).write
              (entryOffset (getSlotIndex first)) entries).Holds (flagOffset r.1) [1] := by
          intro r member copied
          obtain ⟨i, inside, found⟩ := List.getElem_of_mem member
          have place := formed.getElem i inside
          have within := formed.inFile
          rw [found] at place
          have table := File.write_holds_self
            (file.write (headerBlockSize + h.usedSpace) payloadBlock)
            (entryOffset (getSlotIndex first)) entries
          rw [shape] at table ⊢
          have inside' : i < headers.length := by omega
          have entry := table.flatMap i inside'
          rw [flatMap_pack_length, List.length_take, Nat.min_eq_left (Nat.le_of_lt inside')] at entry
          have flag := pack_holds_flag entry (by
            rw [(each i inside inside').1, found]
            exact decide_eq_true copied)
          have position : entryOffset (getSlotIndex first) + i * walEntryHeaderSize + 16 =
              flagOffset r.1 := by
            simp only [flagOffset, entryOffset, getSlotIndex, walEntryHeaderSize, walCapacity] at *
            omega
          rwa [position] at flag
        split
        · exact ⟨listed, fun failed => by cases failed⟩
        · rename_i header packed'
          have headerLength : header.length = walFileHeaderSize := by
            simp only [packUpdatedHeader] at packed'
            split at packed'
            · cases packed'
              exact packFileHeader_length _ _ _ _ (by rw [(checkFileHeader_ok checked).2]; rfl)
            · cases packed'
          have final : ∀ (file : File) (txId : Nat), file.Holds (flagOffset txId) [1] →
              (file.write 0 header).Holds (flagOffset txId) [1] := by
            intro file txId held
            have high := walFileHeaderSize_le_flagOffset txId
            apply held.write
            rw [headerLength]
            omega
          refine ⟨fun txId home other held => final _ _ (listed txId home other held), ?_⟩
          intro _ r member
          obtain ⟨i, inside, found⟩ := List.getElem_of_mem member
          have valid := (each i inside (by omega)).2
          rw [found] at valid
          exact ⟨valid, fun copied => final _ _ (set r member copied)⟩

/-- The cached handle is the one its path leads to. -/
def Attached (w : Wal) : Prop :=
  ∀ path handle, w.currentFile = some (path, handle) → w.disk.dir.lookup path = some handle

theorem Attached.getOpenFile {w : Wal} (attached : Attached w) {fileId i : Nat}
    (found : w.disk.dir.lookup fileId = some i) :
    Wal.getOpenFile w fileId = (some i, { w with currentFile := some (fileId, i) }) := by
  apply getOpenFile_of_lookup _ found
  intro path handle j cached known
  rw [attached path handle cached] at known
  exact (Option.some.inj known).symm

/-- `w'` keeps every name and flag of `w`; the fields under the lock are the same. -/
structure KeepsFlags (w w' : Wal) : Prop where
  globalTxId : w'.globalTxId = w.globalTxId
  walBuffer : w'.walBuffer = w.walBuffer
  ramCompletedTx : w'.ramCompletedTx = w.ramCompletedTx
  attached : Attached w'
  present : ∀ fileId, w.disk.present fileId = true → w'.disk.present fileId = true

theorem KeepsFlags.trans {w w' w'' : Wal} (first : KeepsFlags w w') (second : KeepsFlags w' w'') :
    KeepsFlags w w'' :=
  ⟨second.globalTxId.trans first.globalTxId, second.walBuffer.trans first.walBuffer,
    second.ramCompletedTx.trans first.ramCompletedTx, second.attached,
    fun fileId known => second.present fileId (first.present fileId known)⟩

/-- Changing the content behind the handle of `fileId`, which is then the open one. -/
theorem update_keepsFlags (w : Wal) {fileId i : Nat} (found : w.disk.dir.lookup fileId = some i)
    (content : File) :
    KeepsFlags w { w with currentFile := some (fileId, i), disk := w.disk.update i content } := by
  refine ⟨rfl, rfl, rfl, ?_, fun _ => id⟩
  intro path handle opened
  cases opened
  exact found

theorem preAllocateWal_attached {w : Wal} (attached : Attached w) (fileId sizeBytes : Nat)
    (missing : w.disk.present fileId = false) :
    Attached { w with disk := preAllocateWal w.disk fileId sizeBytes } := by
  intro path handle opened
  have known := attached path handle opened
  have different : path ≠ fileId := by
    rintro rfl
    rw [FileSystem.present, known] at missing
    cases missing
  rw [preAllocateWal_lookup_ne _ _ different]
  exact known

theorem preAllocateWal_flagged {disk : FileSystem Nat} (fileId sizeBytes : Nat)
    (missing : disk.present fileId = false) {txId : Nat} (flagged : Flagged disk txId) :
    Flagged (preAllocateWal disk fileId sizeBytes) txId := by
  obtain ⟨file, known, held⟩ := flagged
  have different : txId / walCapacity ≠ fileId := by
    rintro rfl
    rw [FileSystem.present_eq_false, known] at missing
    cases missing
  exact ⟨file, by rw [preAllocateWal_file_ne _ _ different, known], held⟩

/-- Creating a missing file, by the writer or by a background thread. -/
theorem preAllocateWal_keepsFlags {w : Wal} (attached : Attached w) (fileId sizeBytes : Nat)
    (missing : w.disk.present fileId = false) :
    KeepsFlags w { w with disk := preAllocateWal w.disk fileId sizeBytes } := by
  refine ⟨rfl, rfl, rfl, preAllocateWal_attached attached fileId sizeBytes missing, ?_⟩
  intro other known
  rw [preAllocateWal_present, known, Bool.or_true]

theorem ensureFile_flags {w : Wal} (attached : Attached w) (first : Nat) (batch : List Record) :
    KeepsFlags w (ensureFile w first batch).2 ∧
      (∀ txId, Flagged w.disk txId → Flagged (ensureFile w first batch).2.disk txId) ∧
      ((ensureFile w first batch).1 = .ok () →
        (ensureFile w first batch).2.disk.present (first / walCapacity) = true) := by
  unfold ensureFile
  generalize getFilePath (first + walCapacity) = next
  split
  · exact ⟨⟨rfl, rfl, rfl, attached, fun _ => id⟩, fun _ => id, fun failed => by cases failed⟩
  · rename_i fileId path
    have home : fileId = first / walCapacity := by
      simp only [getFilePath] at path
      split at path
      · cases path
      · cases path
        rfl
    subst home
    split
    · rename_i known
      exact ⟨⟨rfl, rfl, rfl, attached, fun _ => id⟩, fun _ => id, fun _ => known⟩
    · rename_i missing
      rw [Bool.not_eq_true] at missing
      have keeps := preAllocateWal_keepsFlags attached (first / walCapacity)
        (walFileHeaderSize + payloadBytes batch) missing
      dsimp only
      split
      · exact ⟨keeps, fun txId => preAllocateWal_flagged _ _ missing,
          fun failed => by cases failed⟩
      · refine ⟨⟨rfl, rfl, rfl, keeps.attached, keeps.present⟩,
          fun txId => preAllocateWal_flagged _ _ missing, fun _ => ?_⟩
        rw [preAllocateWal_present, decide_eq_true rfl, Bool.true_or]

/-- A batch write changes no flag but those of its own entries; after a successful
one the copied ids of the batch are flagged. -/
theorem writeBatchToDisk_flags {w : Wal} (attached : Attached w) {batch : List Record}
    {first : Nat} (formed : IsBatch batch first) (clock : Nat → Nat) (copy : Finset Nat) :
    KeepsFlags w (writeBatchToDisk clock copy w batch).2 ∧
      (∀ txId, txId ∉ batch.map Prod.fst → Flagged w.disk txId →
        Flagged (writeBatchToDisk clock copy w batch).2.disk txId) ∧
      ((writeBatchToDisk clock copy w batch).1 = .ok () → ∀ r ∈ batch, r.1 < 2 ^ 63 ∧
        (writeBatchToDisk clock copy w batch).2.disk.present (r.1 / walCapacity) = true ∧
        (r.1 ∈ copy → Flagged (writeBatchToDisk clock copy w batch).2.disk r.1)) := by
  obtain ⟨keeps, flags, created⟩ := ensureFile_flags attached first batch
  simp only [writeBatchToDisk, formed.head]
  cases ensured : ensureFile w first batch with
  | mk outcome w' =>
      rw [ensured] at keeps flags created
      cases outcome with
      | error e => exact ⟨keeps, fun txId _ => flags txId, fun failed => by cases failed⟩
      | ok =>
          have known := created rfl
          obtain ⟨i, found⟩ := Option.isSome_iff_exists.mp known
          simp only [keeps.attached.getOpenFile found]
          obtain ⟨kept, set⟩ := appendBatch_flags formed clock copy (w'.disk.inode i)
          refine ⟨keeps.trans (update_keepsFlags w' found _), ?_, ?_⟩
          · intro txId other flagged
            obtain ⟨file, known', held⟩ := flags txId flagged
            by_cases home : txId / walCapacity = first / walCapacity
            · rw [home, FileSystem.file_of_lookup found, Option.some.injEq] at known'
              subst known'
              exact ⟨_, by rw [home]; exact FileSystem.update_file_self found _,
                kept txId home other held⟩
            · exact ⟨file, by rw [FileSystem.update_file_ne found _ home]; exact known', held⟩
          · intro succeeded r member
            obtain ⟨valid, flagged⟩ := set succeeded r member
            have home := formed.home r member
            refine ⟨valid, by rw [home]; exact known, fun copied => ?_⟩
            exact ⟨_, by rw [home]; exact FileSystem.update_file_self found _, flagged copied⟩

theorem markFile_flags {w : Wal} (attached : Attached w) (fileId : Nat) (txIds : List Nat)
    (home : ∀ txId ∈ txIds, txId / walCapacity = fileId) :
    KeepsFlags w (markFile w fileId txIds) ∧
      (∀ txId, Flagged w.disk txId → Flagged (markFile w fileId txIds).disk txId) ∧
      (w.disk.present fileId = true → ∀ txId ∈ txIds,
        Flagged (markFile w fileId txIds).disk txId) := by
  unfold markFile
  split
  · rename_i known
    obtain ⟨i, found⟩ := Option.isSome_iff_exists.mp known
    simp only [attached.getOpenFile found]
    refine ⟨update_keepsFlags w found _, ?_, ?_⟩
    · intro txId flagged
      obtain ⟨file, known', held⟩ := flagged
      by_cases here : txId / walCapacity = fileId
      · rw [here, FileSystem.file_of_lookup found, Option.some.injEq] at known'
        subst known'
        exact ⟨_, by rw [here]; exact FileSystem.update_file_self found _, setFlags_keeps _ held⟩
      · exact ⟨file, by rw [FileSystem.update_file_ne found _ here]; exact known', held⟩
    · intro _ txId named
      exact ⟨_, by rw [home txId named]; exact FileSystem.update_file_self found _,
        setFlags_sets named⟩
  · rename_i missing
    exact ⟨⟨rfl, rfl, rfl, attached, fun _ => id⟩, fun _ => id,
      fun known => absurd known missing⟩

/-- The disk part of a mark sets the flag of every valid id whose file exists. -/
theorem markDisk_flags {w : Wal} (attached : Attached w) (txIds : List Nat) :
    KeepsFlags w (markDisk w txIds) ∧
      (∀ txId, Flagged w.disk txId → Flagged (markDisk w txIds).disk txId) ∧
      (∀ txId ∈ txIds, txId < 2 ^ 63 → w.disk.present (txId / walCapacity) = true →
        Flagged (markDisk w txIds).disk txId) := by
  have groups : ∀ (groups : List (Nat × List Nat)) (w : Wal), Attached w →
      (∀ group ∈ groups, ∀ txId ∈ group.2, txId / walCapacity = group.1) →
      KeepsFlags w (groups.foldl (fun w group => markFile w group.1 group.2) w) ∧
      (∀ txId, Flagged w.disk txId →
        Flagged (groups.foldl (fun w group => markFile w group.1 group.2) w).disk txId) ∧
      (∀ group ∈ groups, w.disk.present group.1 = true → ∀ txId ∈ group.2,
        Flagged (groups.foldl (fun w group => markFile w group.1 group.2) w).disk txId) := by
    intro groups
    induction groups with
    | nil =>
        exact fun w attached _ => ⟨⟨rfl, rfl, rfl, attached, fun _ => id⟩, fun _ => id,
          fun group member => by cases member⟩
    | cons group rest ih =>
        intro w attached home
        obtain ⟨keeps, kept, set⟩ := markFile_flags attached group.1 group.2
          (home group List.mem_cons_self)
        obtain ⟨keeps', kept', set'⟩ := ih (markFile w group.1 group.2) keeps.attached
          (fun other member => home other (List.mem_cons_of_mem _ member))
        refine ⟨keeps.trans keeps', fun txId flagged => kept' txId (kept txId flagged), ?_⟩
        intro other member known txId named
        rcases List.mem_cons.mp member with rfl | later
        · exact kept' txId (set known txId named)
        · exact set' other later (keeps.present _ known) txId named
  obtain ⟨keeps, kept, set⟩ := groups
    (Grouping.groupBy (fun txId => txId / walCapacity)
      (txIds.filter (fun txId => (validateTxId txId).isOk))) w attached
    (fun group member txId inside => ((Grouping.mem_groupBy member).2 txId inside).1)
  refine ⟨keeps, kept, ?_⟩
  intro txId named valid known
  have listed : txId ∈ txIds.filter (fun txId => (validateTxId txId).isOk) := by
    rw [List.mem_filter, validateTxId_ok valid]
    exact ⟨named, rfl⟩
  obtain ⟨group, member, inside⟩ := Grouping.groupBy_covers
    (fun txId => txId / walCapacity) listed
  have home := ((Grouping.mem_groupBy member).2 txId inside).1
  exact set group member (by rw [← home]; exact known) txId inside

end CachyDb.Wal
