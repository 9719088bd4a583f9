import CachyDb.Wal.Model

set_option autoImplicit false

/-! What the bytes of a WAL file say: `Layout` ties them to the records written
so far, and each operation on one file is described by what it does to them. -/

namespace CachyDb.Wal

open ByteString Crc32

/-- The file carries exactly `recs`, in slots counted from zero, with their
payloads packed from the start of the payload area and the completion flags of
the ids in `done` set. -/
structure Layout (file : File) (fileId : Nat) (recs : List Record) (done : Finset Nat) : Prop where
  slots : ∀ i, (inside : i < recs.length) → recs[i].1 = fileId * walCapacity + i
  capacity : recs.length ≤ walCapacity
  room : payloadBytes recs ≤ payloadAreaSize
  valid : fileId * walCapacity + recs.length ≤ 2 ^ 63
  header : file.Holds 0
    (packFileHeader magicBytes walCapacity recs.length (payloadBytes recs))
  entry : ∀ i, (inside : i < recs.length) → ∃ timestamp, file.Holds (entryOffset i)
    (EntryHeader.pack ⟨recs[i].1, timestamp, recs[i].1 ∈ done,
      headerBlockSize + payloadBytes (recs.take i)⟩)
  payload : ∀ i, (inside : i < recs.length) →
    file.Holds (headerBlockSize + payloadBytes (recs.take i)) (payloadWithLen recs[i].2)

@[simp] theorem payloadBytes_nil : payloadBytes [] = 0 := rfl

@[simp] theorem payloadBytes_cons (r : Record) (recs : List Record) :
    payloadBytes (r :: recs) = r.2.length + 4 + payloadBytes recs := by
  simp [payloadBytes]

@[simp] theorem payloadBytes_append (front back : List Record) :
    payloadBytes (front ++ back) = payloadBytes front + payloadBytes back := by
  simp [payloadBytes]

theorem payloadBytes_filter_le (records : List Record) (keep : Record → Bool) :
    payloadBytes (records.filter keep) ≤ payloadBytes records := by
  induction records with
  | nil => exact Nat.le_refl _
  | cons r rest ih =>
      rw [List.filter_cons]
      split
      · rw [payloadBytes_cons, payloadBytes_cons]
        omega
      · rw [payloadBytes_cons]
        omega

theorem payloadBytes_take_succ (recs : List Record) (i : Nat) (inside : i < recs.length) :
    payloadBytes (recs.take (i + 1)) = payloadBytes (recs.take i) + (recs[i].2.length + 4) := by
  rw [List.take_succ_eq_append_getElem inside, payloadBytes_append, payloadBytes_cons,
    payloadBytes_nil, Nat.add_zero]

theorem payloadBytes_take_le (recs : List Record) (i : Nat) :
    payloadBytes (recs.take i) ≤ payloadBytes recs := by
  have whole := payloadBytes_append (recs.take i) (recs.drop i)
  rw [List.take_append_drop] at whole
  omega

theorem entryOffset_lt_headerBlock {slot : Nat} (fits : slot < walCapacity) :
    entryOffset slot + walEntryHeaderSize ≤ headerBlockSize := by
  simp only [entryOffset, headerBlockSize, walFileHeaderSize, walEntryHeaderSize, walCapacity] at *
  omega

theorem validateTxId_ok {txId : Nat} (bound : txId < 2 ^ 63) : validateTxId txId = .ok () := by
  have small : ¬ txId > 2 ^ 63 - 1 := by omega
  simp only [validateTxId, small, ↓reduceIte]

theorem validateTxId_iff {txId : Nat} : validateTxId txId = .ok () ↔ txId < 2 ^ 63 := by
  refine ⟨?_, validateTxId_ok⟩
  intro accepted
  by_contra large
  have refused : txId > 2 ^ 63 - 1 := by omega
  simp only [validateTxId, refused, ↓reduceIte, reduceCtorEq] at accepted

theorem getFilePath_ok {txId : Nat} (bound : txId < 2 ^ 63) :
    getFilePath txId = .ok (txId / walCapacity) := by
  simp only [getFilePath, validateTxId_ok bound]

theorem Layout.readHeader {file : File} {fileId : Nat} {recs : List Record} {done : Finset Nat}
    (layout : Layout file fileId recs done) :
    checkFileHeader (file.read 0 walFileHeaderSize) =
      .ok ⟨magicBytes, walCapacity, recs.length, payloadBytes recs,
        crc32 (headerWithoutChecksum magicBytes walCapacity recs.length (payloadBytes recs))⟩ := by
  have capacity := layout.capacity
  have room := layout.room
  rw [layout.header.read (packFileHeader_length _ _ _ _ rfl)]
  apply checkFileHeader_pack
  · simp only [walCapacity] at capacity
    omega
  · simp only [payloadAreaSize] at room
    omega

/-- What the entry header of a written slot says. -/
theorem Layout.readHeaderEntry {file : File} {fileId : Nat} {recs : List Record}
    {done : Finset Nat} (layout : Layout file fileId recs done) (i : Nat)
    (inside : i < recs.length) :
    (file.read (entryOffset i) walEntryHeaderSize).length = walEntryHeaderSize ∧
      (unpackEntryHeader (file.read (entryOffset i) walEntryHeaderSize)).txId = recs[i].1 ∧
      (unpackEntryHeader (file.read (entryOffset i) walEntryHeaderSize)).isCompleted =
        decide (recs[i].1 ∈ done) ∧
      (unpackEntryHeader (file.read (entryOffset i) walEntryHeaderSize)).payloadOffset =
        headerBlockSize + payloadBytes (recs.take i) := by
  obtain ⟨timestamp, held⟩ := layout.entry i inside
  have slot := layout.slots i inside
  have valid := layout.valid
  have room := layout.room
  have within := payloadBytes_take_le recs i
  have offsetSmall : headerBlockSize + payloadBytes (recs.take i) < 2 ^ 63 := by
    simp only [headerBlockSize, walFileHeaderSize, walCapacity, walEntryHeaderSize,
      payloadAreaSize] at *
    omega
  rw [held.read (EntryHeader.pack_length _)]
  exact ⟨EntryHeader.pack_length _, unpackEntryHeader_pack
    ⟨recs[i].1, timestamp, recs[i].1 ∈ done, headerBlockSize + payloadBytes (recs.take i)⟩
    (by dsimp only; omega) (by dsimp only; omega)⟩

/-- Reading a written slot skips it when its flag is set and else yields its record. -/
theorem Layout.readEntry {file : File} {fileId : Nat} {recs : List Record} {done : Finset Nat}
    (layout : Layout file fileId recs done) (i : Nat) (inside : i < recs.length)
    (nonempty : recs[i].2 ≠ []) :
    Wal.readEntry file i = if recs[i].1 ∈ done then .skip else .yields recs[i] := by
  obtain ⟨whole, sameId, sameFlag, sameOffset⟩ := layout.readHeaderEntry i inside
  have stored := layout.payload i inside
  have room := layout.room
  have upTo := payloadBytes_take_succ recs i inside
  have within := payloadBytes_take_le recs (i + 1)
  have positive : 0 < recs[i].2.length := List.length_pos_iff.mpr nonempty
  rw [payloadWithLen, File.holds_append, toBE_length] at stored
  have lengthRead := stored.1.read (toBE_length 4 recs[i].2.length)
  have payloadRead := stored.2.read rfl
  have lengthFits : recs[i].2.length < 256 ^ 4 := by
    simp only [payloadAreaSize] at room
    omega
  simp only [Wal.readEntry, whole, lt_self_iff_false, ↓reduceIte, sameId, sameFlag, sameOffset,
    lengthRead, toBE_length, ofBE_toBE lengthFits, payloadRead, decide_eq_true_eq]
  have seekable : ¬ headerBlockSize + payloadBytes (recs.take i) ≥ 2 ^ 63 := by
    simp only [headerBlockSize, walFileHeaderSize, walCapacity, walEntryHeaderSize,
      payloadAreaSize] at *
    omega
  have sensible : ¬ (recs[i].2.length = 0 ∨ recs[i].2.length > payloadAreaSize) := by omega
  simp only [seekable, sensible, ↓reduceIte]

theorem Layout.readEntries {file : File} {fileId : Nat} {recs : List Record} {done : Finset Nat}
    (layout : Layout file fileId recs done) (nonempty : ∀ r ∈ recs, r.2 ≠ [])
    (count : Nat) : ∀ slot, slot + count = recs.length →
      Wal.readEntries file slot count = ⟨(recs.drop slot).filter (fun r => r.1 ∉ done), false⟩ := by
  induction count with
  | zero =>
      intro slot atEnd
      rw [List.drop_eq_nil_of_le (by omega)]
      rfl
  | succ count ih =>
      intro slot atEnd
      have inside : slot < recs.length := by omega
      have entry := layout.readEntry slot inside (nonempty _ (List.getElem_mem inside))
      rw [Wal.readEntries, entry, List.drop_eq_getElem_cons inside, ih (slot + 1) (by omega),
        List.filter_cons]
      by_cases completed : recs[slot].1 ∈ done
      · simp only [completed, ↓reduceIte, not_true_eq_false, decide_false, Bool.false_eq_true]
      · simp only [completed, ↓reduceIte, not_false_eq_true, decide_true]

/-- The reader returns the unmarked records of a file, in slot order. -/
theorem Layout.readFile {file : File} {fileId : Nat} {recs : List Record} {done : Finset Nat}
    (layout : Layout file fileId recs done) (nonempty : ∀ r ∈ recs, r.2 ≠ []) :
    Wal.readFile file = ⟨recs.filter (fun r => r.1 ∉ done), false⟩ := by
  rw [Wal.readFile, layout.readHeader]
  exact layout.readEntries nonempty recs.length 0 (by omega)

/-- The entry headers of a batch whose payloads start at `usedSpace`. -/
def entryHeaders (clock : Nat → Nat) (completedCopy : Finset Nat) :
    Nat → List Record → List EntryHeader
  | _, [] => []
  | usedSpace, (txId, payload) :: rest =>
      ⟨txId, clock txId, txId ∈ completedCopy, headerBlockSize + usedSpace⟩ ::
        entryHeaders clock completedCopy (usedSpace + (payload.length + 4)) rest

/-- The payload offsets that go with them. -/
def payloadOffsets : Nat → List Record → List Nat
  | _, [] => []
  | usedSpace, (_, payload) :: rest =>
      (headerBlockSize + usedSpace) :: payloadOffsets (usedSpace + (payload.length + 4)) rest

def payloadBlock (batch : List Record) : Bytes := batch.flatMap (fun r => payloadWithLen r.2)

@[simp] theorem payloadBlock_length (batch : List Record) :
    (payloadBlock batch).length = payloadBytes batch := by
  induction batch with
  | nil => rfl
  | cons r rest ih =>
      rw [payloadBlock, List.flatMap_cons, List.length_append, payloadWithLen_length,
        payloadBytes_cons]
      exact congrArg _ ih

theorem layoutPayloads_ok (batch : List Record) (usedSpace : Nat)
    (fits : usedSpace + payloadBytes batch ≤ payloadAreaSize) :
    layoutPayloads usedSpace batch =
      .ok (payloadOffsets usedSpace batch, payloadBlock batch, usedSpace + payloadBytes batch) := by
  induction batch generalizing usedSpace with
  | nil => rfl
  | cons r rest ih =>
      obtain ⟨txId, payload⟩ := r
      simp only [payloadBytes_cons] at fits
      have packable : ¬ payload.length ≥ 256 ^ 4 := by
        simp only [payloadAreaSize] at fits
        omega
      have small : ¬ payload.length + 4 > payloadAreaSize := by omega
      have space : ¬ usedSpace + (payload.length + 4) > payloadAreaSize := by omega
      have later := ih (usedSpace + (payload.length + 4)) (by omega)
      simp only [layoutPayloads, packable, ↓reduceIte, validatePayloadSize, payloadWithLen_length,
        small, space, later, payloadOffsets, payloadBytes_cons, Nat.add_assoc]
      rfl

/-- A batch that does not fit is refused before anything is written. -/
theorem layoutPayloads_error (batch : List Record) (usedSpace : Nat)
    (nonempty : batch ≠ []) (overflow : payloadAreaSize < usedSpace + payloadBytes batch) :
    ∃ e, layoutPayloads usedSpace batch = .error e := by
  induction batch generalizing usedSpace with
  | nil => exact absurd rfl nonempty
  | cons r rest ih =>
      obtain ⟨txId, payload⟩ := r
      simp only [payloadBytes_cons] at overflow
      simp only [layoutPayloads, validatePayloadSize, payloadWithLen_length]
      split
      · exact ⟨_, rfl⟩
      · by_cases small : payload.length + 4 > payloadAreaSize
        · simp only [small, ↓reduceIte, Except.error.injEq, exists_eq']
        · by_cases space : usedSpace + (payload.length + 4) > payloadAreaSize
          · simp only [small, space, ↓reduceIte, Except.error.injEq, exists_eq']
          · have more : rest ≠ [] := by
              rintro rfl
              simp only [payloadBytes_nil] at overflow
              omega
            obtain ⟨e, refused⟩ := ih (usedSpace + (payload.length + 4)) more (by omega)
            simp only [small, space, ↓reduceIte, refused, Except.error.injEq, exists_eq']

theorem entryBlock_ok (clock : Nat → Nat) (completedCopy : Finset Nat) (batch : List Record)
    (usedSpace : Nat) (valid : ∀ r ∈ batch, r.1 < 2 ^ 63) :
    entryBlock clock completedCopy batch (payloadOffsets usedSpace batch) =
      .ok ((entryHeaders clock completedCopy usedSpace batch).flatMap EntryHeader.pack) := by
  induction batch generalizing usedSpace with
  | nil => rfl
  | cons r rest ih =>
      obtain ⟨txId, payload⟩ := r
      have accepted := validateTxId_ok (valid (txId, payload) List.mem_cons_self)
      have later := ih (usedSpace + (payload.length + 4))
        (fun r member => valid r (List.mem_cons_of_mem _ member))
      simp only [payloadOffsets, entryBlock, createEntryHeader, accepted, later, entryHeaders,
        List.flatMap_cons]

@[simp] theorem entryHeaders_length (clock : Nat → Nat) (completedCopy : Finset Nat)
    (usedSpace : Nat) (batch : List Record) :
    (entryHeaders clock completedCopy usedSpace batch).length = batch.length := by
  induction batch generalizing usedSpace with
  | nil => rfl
  | cons r rest ih => simp only [entryHeaders, List.length_cons, ih]

theorem entryHeaders_getElem (clock : Nat → Nat) (completedCopy : Finset Nat) (batch : List Record)
    (usedSpace i : Nat) (inside : i < batch.length)
    (inside' : i < (entryHeaders clock completedCopy usedSpace batch).length) :
    (entryHeaders clock completedCopy usedSpace batch)[i] =
      ⟨batch[i].1, clock batch[i].1, batch[i].1 ∈ completedCopy,
        headerBlockSize + (usedSpace + payloadBytes (batch.take i))⟩ := by
  induction batch generalizing usedSpace i with
  | nil => cases inside
  | cons r rest ih =>
      obtain ⟨txId, payload⟩ := r
      cases i with
      | zero => simp [entryHeaders]
      | succ i =>
          simp only [entryHeaders, List.getElem_cons_succ]
          rw [ih (usedSpace + (payload.length + 4)) i (by simpa using inside)]
          simp only [List.take_succ_cons, payloadBytes_cons, Nat.add_assoc]

/-- Packed entry headers have one width, so the table is indexed by the slot. -/
theorem flatMap_pack_length (entries : List EntryHeader) :
    (entries.flatMap EntryHeader.pack).length = entries.length * walEntryHeaderSize := by
  induction entries with
  | nil => simp
  | cons e rest ih =>
      rw [List.flatMap_cons, List.length_append, EntryHeader.pack_length, ih, List.length_cons,
        Nat.succ_mul, Nat.add_comm]

/-- The three writes of a batch that takes the slots from `slot` on. -/
def writtenFile (clock : Nat → Nat) (completedCopy : Finset Nat) (batch : List Record)
    (slot currentRecords usedSpace : Nat) (file : File) : File :=
  ((file.write (headerBlockSize + usedSpace) (payloadBlock batch)).write (entryOffset slot)
    ((entryHeaders clock completedCopy usedSpace batch).flatMap EntryHeader.pack)).write 0
    (packFileHeader magicBytes walCapacity (currentRecords + batch.length)
      (usedSpace + payloadBytes batch))

/-- A batch that fits is written, whatever slot its first id asks for. -/
theorem Layout.appendBatch_fits {file : File} {fileId : Nat} {recs : List Record}
    {done : Finset Nat} (layout : Layout file fileId recs done) (clock : Nat → Nat)
    (completedCopy : Finset Nat) (batch : List Record)
    (few : batch.length ≤ walCapacity) (valid : ∀ r ∈ batch, r.1 < 2 ^ 63)
    (fits : payloadBytes recs + payloadBytes batch ≤ payloadAreaSize) :
    appendBatch clock completedCopy batch file =
      (.ok (), writtenFile clock completedCopy batch
        (getSlotIndex ((batch.map Prod.fst).headD 0)) recs.length (payloadBytes recs) file) := by
  have capacity := layout.capacity
  have packable : (walCapacity < 256 ^ 4 ∧ recs.length + batch.length < 256 ^ 4 ∧
      payloadBytes recs + payloadBytes batch < 256 ^ 8) := by
    simp only [walCapacity, payloadAreaSize] at *
    omega
  simp only [appendBatch, layout.readHeader, layoutPayloads_ok batch _ fits,
    entryBlock_ok clock completedCopy batch _ valid, packUpdatedHeader, packable, and_self,
    ↓reduceIte, writtenFile]

theorem Layout.appendBatch_overflow {file : File} {fileId : Nat} {recs : List Record}
    {done : Finset Nat} (layout : Layout file fileId recs done) (clock : Nat → Nat)
    (completedCopy : Finset Nat) (batch : List Record) (nonempty : batch ≠ [])
    (overflow : payloadAreaSize < payloadBytes recs + payloadBytes batch) :
    ∃ e, appendBatch clock completedCopy batch file = (.error e, file) := by
  obtain ⟨e, refused⟩ := layoutPayloads_error batch _ nonempty overflow
  exact ⟨e, by simp only [appendBatch, layout.readHeader, refused]⟩

/-- Appending in the next free slots extends the layout by the batch. The flags
written are those of the copied completion set. -/
theorem Layout.append {file : File} {fileId : Nat} {recs : List Record} {done done' : Finset Nat}
    (layout : Layout file fileId recs done) (clock : Nat → Nat) (completedCopy : Finset Nat)
    (batch : List Record)
    (next : ∀ i, (inside : i < batch.length) →
      batch[i].1 = fileId * walCapacity + (recs.length + i))
    (capacity : recs.length + batch.length ≤ walCapacity)
    (valid : fileId * walCapacity + (recs.length + batch.length) ≤ 2 ^ 63)
    (fits : payloadBytes recs + payloadBytes batch ≤ payloadAreaSize)
    (kept : ∀ r ∈ recs, r.1 ∈ done' ↔ r.1 ∈ done)
    (copied : ∀ r ∈ batch, r.1 ∈ done' ↔ r.1 ∈ completedCopy) :
    Layout (writtenFile clock completedCopy batch recs.length recs.length (payloadBytes recs) file)
      fileId (recs ++ batch) done' := by
  have headerLength : (packFileHeader magicBytes walCapacity (recs.length + batch.length)
      (payloadBytes recs + payloadBytes batch)).length = walFileHeaderSize :=
    packFileHeader_length _ _ _ _ rfl
  have tableLength : ((entryHeaders clock completedCopy (payloadBytes recs) batch).flatMap
      EntryHeader.pack).length = batch.length * walEntryHeaderSize := by
    rw [flatMap_pack_length, entryHeaders_length]
  have blockLength := payloadBlock_length batch
  have tableEnd : entryOffset recs.length + batch.length * walEntryHeaderSize ≤ headerBlockSize := by
    simp only [entryOffset, headerBlockSize, walEntryHeaderSize, walCapacity] at *
    omega
  constructor
  · intro i inside
    by_cases old : i < recs.length
    · rw [List.getElem_append_left old]
      exact layout.slots i old
    · rw [List.length_append] at inside
      rw [List.getElem_append_right (by omega), next _ (by omega)]
      omega
  · rw [List.length_append]
    exact capacity
  · rw [payloadBytes_append]
    exact fits
  · rw [List.length_append]
    exact valid
  · rw [List.length_append, payloadBytes_append]
    exact File.write_holds_self _ _ _
  · intro i inside
    by_cases old : i < recs.length
    · obtain ⟨timestamp, held⟩ := layout.entry i old
      have entryEnd : entryOffset i + walEntryHeaderSize ≤ entryOffset recs.length := by
        simp only [entryOffset, walEntryHeaderSize]
        omega
      have entryStart : walFileHeaderSize ≤ entryOffset i := by
        simp only [entryOffset]
        omega
      refine ⟨timestamp, ?_⟩
      have flag : (decide (recs[i].1 ∈ done')) = decide (recs[i].1 ∈ done) := by
        simp only [kept _ (List.getElem_mem old)]
      simp only [List.getElem_append_left old, List.take_append_of_le_length (Nat.le_of_lt old),
        flag]
      refine ((held.write (Or.inl ?_)).write (Or.inl ?_)).write (Or.inr ?_)
      · rw [EntryHeader.pack_length]
        omega
      · rw [EntryHeader.pack_length]
        exact entryEnd
      · rw [headerLength]
        omega
    · rw [List.length_append] at inside
      have fresh : i - recs.length < batch.length := by omega
      have fresh' : i - recs.length <
          (entryHeaders clock completedCopy (payloadBytes recs) batch).length := by
        rw [entryHeaders_length]
        exact fresh
      have table := (File.write_holds_self
        (file.write (headerBlockSize + payloadBytes recs) (payloadBlock batch))
        (entryOffset recs.length) ((entryHeaders clock completedCopy (payloadBytes recs)
          batch).flatMap EntryHeader.pack)).flatMap (i - recs.length) fresh'
      rw [flatMap_pack_length, List.length_take, entryHeaders_length,
        entryHeaders_getElem _ _ _ _ _ fresh, Nat.min_eq_left (Nat.le_of_lt fresh)] at table
      have position : entryOffset recs.length + (i - recs.length) * walEntryHeaderSize =
          entryOffset i := by
        simp only [entryOffset, walEntryHeaderSize]
        omega
      rw [position] at table
      have flag : (decide (batch[i - recs.length].1 ∈ done')) =
          decide (batch[i - recs.length].1 ∈ completedCopy) := by
        simp only [copied _ (List.getElem_mem fresh)]
      refine ⟨clock batch[i - recs.length].1, ?_⟩
      simp only [List.getElem_append_right (Nat.le_of_not_lt old), List.take_append,
        List.take_of_length_le (Nat.le_of_not_lt old), payloadBytes_append, flag]
      refine table.write (Or.inr ?_)
      rw [headerLength]
      simp only [entryOffset]
      omega
  · intro i inside
    have beyondTable : entryOffset recs.length + batch.length * walEntryHeaderSize ≤
        headerBlockSize + payloadBytes ((recs ++ batch).take i) := by omega
    have beyondHeader : walFileHeaderSize ≤
        headerBlockSize + payloadBytes ((recs ++ batch).take i) := by
      simp only [headerBlockSize]
      omega
    refine (File.Holds.write ?_ (Or.inr (by rw [tableLength]; exact beyondTable))).write
      (Or.inr (by rw [headerLength]; omega))
    by_cases old : i < recs.length
    · have upTo := payloadBytes_take_succ recs i old
      have within := payloadBytes_take_le recs (i + 1)
      simp only [List.getElem_append_left old, List.take_append_of_le_length (Nat.le_of_lt old)]
      apply (layout.payload i old).write
      rw [payloadWithLen_length]
      omega
    · rw [List.length_append] at inside
      have fresh : i - recs.length < batch.length := by omega
      have block := (File.write_holds_self file (headerBlockSize + payloadBytes recs)
        (payloadBlock batch)).flatMap (i - recs.length) fresh
      have before : ((batch.take (i - recs.length)).flatMap
          (fun r => payloadWithLen r.2)).length = payloadBytes (batch.take (i - recs.length)) :=
        payloadBlock_length _
      rw [before] at block
      simpa only [List.getElem_append_right (Nat.le_of_not_lt old), List.take_append,
        List.take_of_length_le (Nat.le_of_not_lt old), payloadBytes_append, Nat.add_assoc] using block

/-- Setting one completion flag marks that id, if its slot is written, and
touches nothing else. -/
theorem Layout.mark {file : File} {fileId : Nat} {recs : List Record} {done : Finset Nat}
    (layout : Layout file fileId recs done) (txId : Nat) (home : txId / walCapacity = fileId) :
    Layout (file.write (flagOffset txId) [1]) fileId recs (insert txId done) := by
  have slotBound : getSlotIndex txId < walCapacity := Nat.mod_lt _ (by decide)
  have tableEnd := entryOffset_lt_headerBlock slotBound
  have position : txId = fileId * walCapacity + getSlotIndex txId := by
    rw [← home, getSlotIndex, Nat.mul_comm]
    exact (Nat.div_add_mod txId walCapacity).symm
  refine ⟨layout.slots, layout.capacity, layout.room, layout.valid, ?_, ?_, ?_⟩
  · apply layout.header.write
    rw [packFileHeader_length _ _ _ _ rfl]
    simp only [flagOffset, entryOffset]
    omega
  · intro i inside
    obtain ⟨timestamp, held⟩ := layout.entry i inside
    have slot := layout.slots i inside
    refine ⟨timestamp, ?_⟩
    by_cases here : i = getSlotIndex txId
    · have same : recs[i].1 = txId := by omega
      have set := held.write_byte 16 1
      rw [EntryHeader.pack_complete] at set
      simpa only [flagOffset, ← here, same, Finset.mem_insert_self, decide_true] using set
    · have other : recs[i].1 ≠ txId := by omega
      have flag : (decide (recs[i].1 ∈ insert txId done)) = decide (recs[i].1 ∈ done) := by
        simp only [Finset.mem_insert, other, false_or]
      rw [flag]
      apply held.write
      rw [EntryHeader.pack_length]
      simp only [flagOffset, entryOffset, walEntryHeaderSize, List.length_singleton]
      omega
  · intro i inside
    apply (layout.payload i inside).write
    simp only [flagOffset, List.length_singleton]
    simp only [walEntryHeaderSize] at tableEnd
    omega

theorem Layout.markAll {file : File} {fileId : Nat} {recs : List Record} {done : Finset Nat}
    (layout : Layout file fileId recs done) (txIds : List Nat)
    (home : ∀ txId ∈ txIds, txId / walCapacity = fileId) :
    Layout (txIds.foldl (fun file txId => file.write (flagOffset txId) [1]) file) fileId recs
      (done ∪ txIds.toFinset) := by
  induction txIds generalizing file done with
  | nil => simpa using layout
  | cons txId rest ih =>
      have first := layout.mark txId (home txId List.mem_cons_self)
      have later := ih first (fun t member => home t (List.mem_cons_of_mem _ member))
      rw [List.foldl_cons, List.toFinset_cons]
      rwa [Finset.insert_union, ← Finset.union_insert] at later

/-- A write behind the used entries and payloads disturbs nothing. -/
theorem Layout.write_free {file : File} {fileId : Nat} {recs : List Record} {done : Finset Nat}
    (layout : Layout file fileId recs done) (start : Nat) (data : Bytes)
    (free : headerBlockSize + payloadBytes recs ≤ start ∨
      entryOffset recs.length ≤ start ∧ start + data.length ≤ headerBlockSize) :
    Layout (file.write start data) fileId recs done := by
  have capacity := layout.capacity
  refine ⟨layout.slots, layout.capacity, layout.room, layout.valid, ?_, ?_, ?_⟩
  · apply layout.header.write
    rw [packFileHeader_length _ _ _ _ rfl]
    simp only [entryOffset, headerBlockSize] at free
    omega
  · intro i inside
    obtain ⟨timestamp, held⟩ := layout.entry i inside
    refine ⟨timestamp, held.write (Or.inl ?_)⟩
    rw [EntryHeader.pack_length]
    simp only [entryOffset, headerBlockSize, walEntryHeaderSize, walCapacity] at *
    omega
  · intro i inside
    have upTo := payloadBytes_take_succ recs i inside
    have within := payloadBytes_take_le recs (i + 1)
    apply (layout.payload i inside).write
    rw [payloadWithLen_length]
    omega

theorem Layout.allocate {file : File} {fileId : Nat} {recs : List Record} {done : Finset Nat}
    (layout : Layout file fileId recs done) (count : Nat) :
    Layout (file.allocate count) fileId recs done :=
  ⟨layout.slots, layout.capacity, layout.room, layout.valid, layout.header.allocate count,
    fun i inside => (layout.entry i inside).imp fun _ held => held.allocate count,
    fun i inside => (layout.payload i inside).allocate count⟩

/-- Only the flags of the file's own records are part of the layout. -/
theorem Layout.congr {file : File} {fileId : Nat} {recs : List Record} {done done' : Finset Nat}
    (layout : Layout file fileId recs done) (same : ∀ r ∈ recs, r.1 ∈ done' ↔ r.1 ∈ done) :
    Layout file fileId recs done' := by
  refine ⟨layout.slots, layout.capacity, layout.room, layout.valid, layout.header, ?_,
    layout.payload⟩
  intro i inside
  obtain ⟨timestamp, held⟩ := layout.entry i inside
  have flag : (decide (recs[i].1 ∈ done')) = decide (recs[i].1 ∈ done) := by
    simp only [same _ (List.getElem_mem inside)]
  exact ⟨timestamp, by rwa [flag]⟩

/-- A freshly pre-allocated file holds no record. -/
theorem layout_created (file : File) (fileId sizeBytes : Nat) (done : Finset Nat)
    (valid : fileId * walCapacity ≤ 2 ^ 63) :
    Layout ((file.allocate sizeBytes).write 0 (packFileHeader magicBytes walCapacity 0 0))
      fileId [] done := by
  refine ⟨?_, Nat.zero_le _, Nat.zero_le _, by simpa using valid, ?_, ?_, ?_⟩
  · intro i inside
    cases inside
  · exact File.write_holds_self _ _ _
  · intro i inside
    cases inside
  · intro i inside
    cases inside

end CachyDb.Wal
