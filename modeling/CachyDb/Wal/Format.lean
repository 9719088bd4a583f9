import CachyDb.Lib.File
import CachyDb.Lib.Crc32

set_option autoImplicit false

/-! The byte format of one WAL file: the file header, the fixed table of entry
headers, and the payload area that starts right behind the table. -/

namespace CachyDb.Wal

open ByteString Crc32

/-- One logged record: its transaction id and the packed payload. -/
abbrev Record := Nat × Bytes

def walCapacity : Nat := 50000
def walFileHeaderSize : Nat := 32
def walEntryHeaderSize : Nat := 25
def payloadAreaSize : Nat := 100 * 1024 * 1024
def magicBytes : Bytes := [0x57, 0x41, 0x4C, 0x31]

/-- First byte of the payload area. -/
def headerBlockSize : Nat := walFileHeaderSize + walCapacity * walEntryHeaderSize

def entryOffset (slot : Nat) : Nat := walFileHeaderSize + slot * walEntryHeaderSize

inductive Error
  | invalidTxId (txId : Nat)
  | payloadTooLarge (payloadLen : Nat)
  | noSpace (payloadLen used : Nat)
  | headerTruncated (got : Nat)
  | checksumMismatch (expected got : Nat)
  | invalidMagic (magic : Bytes)
  | osError
  deriving DecidableEq, Repr

/-- The id is a Python integer that is never negative here, so only the bound of
a signed 64-bit integer is left to check. -/
def validateTxId (txId : Nat) : Except Error Unit :=
  if txId > 2 ^ 63 - 1 then .error (.invalidTxId txId) else .ok ()

/-- The number in the file name `global_<id>.wal`. -/
def getFilePath (txId : Nat) : Except Error Nat :=
  match validateTxId txId with
  | .error e => .error e
  | .ok () => .ok (txId / walCapacity)

def getSlotIndex (txId : Nat) : Nat := txId % walCapacity

structure FileHeader where
  magic : Bytes
  capacity : Nat
  currentRecords : Nat
  usedSpace : Nat
  checksum : Nat
  deriving DecidableEq, Repr

/-- `struct.pack("> 4s I I Q", ...)`, the bytes the checksum covers. -/
def headerWithoutChecksum (magic : Bytes) (capacity currentRecords usedSpace : Nat) : Bytes :=
  magic ++ toBE 4 capacity ++ toBE 4 currentRecords ++ toBE 8 usedSpace

/-- `struct.pack(FILE_HEADER_FMT, ...)` with the checksum of the other fields. -/
def packFileHeader (magic : Bytes) (capacity currentRecords usedSpace : Nat) : Bytes :=
  headerWithoutChecksum magic capacity currentRecords usedSpace ++
    toBE 4 (crc32 (headerWithoutChecksum magic capacity currentRecords usedSpace)) ++
    List.replicate 8 0

def unpackFileHeader (data : Bytes) : FileHeader where
  magic := field data 0 4
  capacity := ofBE (field data 4 4)
  currentRecords := ofBE (field data 8 4)
  usedSpace := ofBE (field data 12 8)
  checksum := ofBE (field data 20 4)

def FileHeader.computedChecksum (h : FileHeader) : Nat :=
  crc32 (headerWithoutChecksum h.magic h.capacity h.currentRecords h.usedSpace)

structure EntryHeader where
  txId : Nat
  timestamp : Nat
  isCompleted : Bool
  payloadOffset : Nat
  deriving DecidableEq, Repr

/-- `struct.pack(ENTRY_HEADER_FMT, ...)`; `timestamp` stands for the bits of the
double that the clock returned. -/
def EntryHeader.pack (e : EntryHeader) : Bytes :=
  toBE 8 e.txId ++ toBE 8 e.timestamp ++ [if e.isCompleted then 1 else 0] ++ toBE 8 e.payloadOffset

def unpackEntryHeader (data : Bytes) : EntryHeader where
  txId := ofBE (field data 0 8)
  timestamp := ofBE (field data 8 8)
  isCompleted := field data 16 1 != [0]
  payloadOffset := ofBE (field data 17 8)

def createEntryHeader (clock : Nat → Nat) (txId payloadOffset : Nat) (isCompleted : Bool) :
    Except Error Bytes :=
  match validateTxId txId with
  | .error e => .error e
  | .ok () => .ok (EntryHeader.pack ⟨txId, clock txId, isCompleted, payloadOffset⟩)

/-- `struct.pack(">I", len(payload)) + payload`. -/
def payloadWithLen (payload : Bytes) : Bytes := toBE 4 payload.length ++ payload

def validatePayloadSize (payloadLen currentUsedSpace : Nat) : Except Error Unit :=
  if payloadLen > payloadAreaSize then .error (.payloadTooLarge payloadLen)
  else if currentUsedSpace + payloadLen > payloadAreaSize then
    .error (.noSpace payloadLen currentUsedSpace)
  else .ok ()

/-- The header check shared by the writer and the restart, in their order:
length, checksum, magic. -/
def checkFileHeader (data : Bytes) : Except Error FileHeader :=
  if data.length ≠ walFileHeaderSize then .error (.headerTruncated data.length)
  else
    let h := unpackFileHeader data
    if h.computedChecksum ≠ h.checksum then
      .error (.checksumMismatch h.checksum h.computedChecksum)
    else if h.magic ≠ magicBytes then .error (.invalidMagic h.magic)
    else .ok h

@[simp] theorem magicBytes_length : magicBytes.length = 4 := rfl

@[simp] theorem packFileHeader_length (magic : Bytes) (capacity currentRecords usedSpace : Nat)
    (width : magic.length = 4) :
    (packFileHeader magic capacity currentRecords usedSpace).length = walFileHeaderSize := by
  simp [packFileHeader, headerWithoutChecksum, walFileHeaderSize, width]

@[simp] theorem EntryHeader.pack_length (e : EntryHeader) : e.pack.length = walEntryHeaderSize := by
  simp [EntryHeader.pack, walEntryHeaderSize]

@[simp] theorem payloadWithLen_length (payload : Bytes) :
    (payloadWithLen payload).length = payload.length + 4 := by
  simp [payloadWithLen, Nat.add_comm]

theorem unpackFileHeader_pack (magic : Bytes) (capacity currentRecords usedSpace : Nat)
    (width : magic.length = 4) (capacityFits : capacity < 256 ^ 4)
    (recordsFit : currentRecords < 256 ^ 4) (usedFits : usedSpace < 256 ^ 8) :
    unpackFileHeader (packFileHeader magic capacity currentRecords usedSpace) =
      ⟨magic, capacity, currentRecords, usedSpace,
        crc32 (headerWithoutChecksum magic capacity currentRecords usedSpace)⟩ := by
  have crcFits := crc32_lt (headerWithoutChecksum magic capacity currentRecords usedSpace)
  have bytes : packFileHeader magic capacity currentRecords usedSpace =
      magic ++ toBE 4 capacity ++ toBE 4 currentRecords ++ toBE 8 usedSpace ++
        toBE 4 (crc32 (headerWithoutChecksum magic capacity currentRecords usedSpace)) ++
        List.replicate 8 0 := rfl
  generalize crc32 (headerWithoutChecksum magic capacity currentRecords usedSpace) = crc at *
  have magicField : field (packFileHeader magic capacity currentRecords usedSpace) 0 4 = magic := by
    simp only [bytes, List.append_assoc]
    exact field_zero _ _ width
  have capacityField : field (packFileHeader magic capacity currentRecords usedSpace) 4 4 =
      toBE 4 capacity := by
    have cut := field_append 4 magic (toBE 4 capacity) (toBE 4 currentRecords ++
      toBE 8 usedSpace ++ toBE 4 crc ++ List.replicate 8 0) width (toBE_length 4 capacity)
    simpa only [bytes, List.append_assoc] using cut
  have recordsField : field (packFileHeader magic capacity currentRecords usedSpace) 8 4 =
      toBE 4 currentRecords := by
    have cut := field_append 8 (magic ++ toBE 4 capacity) (toBE 4 currentRecords)
      (toBE 8 usedSpace ++ toBE 4 crc ++ List.replicate 8 0)
      (by simp [width]) (toBE_length 4 currentRecords)
    simpa only [bytes, List.append_assoc] using cut
  have usedField : field (packFileHeader magic capacity currentRecords usedSpace) 12 8 =
      toBE 8 usedSpace := by
    have cut := field_append 12 (magic ++ toBE 4 capacity ++ toBE 4 currentRecords)
      (toBE 8 usedSpace) (toBE 4 crc ++ List.replicate 8 0)
      (by simp [width]) (toBE_length 8 usedSpace)
    simpa only [bytes, List.append_assoc] using cut
  have checksumField : field (packFileHeader magic capacity currentRecords usedSpace) 20 4 =
      toBE 4 crc := by
    have cut := field_append 20 (magic ++ toBE 4 capacity ++ toBE 4 currentRecords ++
      toBE 8 usedSpace) (toBE 4 crc) (List.replicate 8 0)
      (by simp [width]) (toBE_length 4 crc)
    simpa only [bytes, List.append_assoc] using cut
  simp only [unpackFileHeader, magicField, capacityField, recordsField, usedField, checksumField,
    ofBE_toBE capacityFits, ofBE_toBE recordsFit, ofBE_toBE usedFits, ofBE_toBE crcFits]

/-- A packed header passes the check and reads back as what was packed. -/
theorem checkFileHeader_pack {currentRecords usedSpace : Nat}
    (recordsFit : currentRecords < 256 ^ 4) (usedFits : usedSpace < 256 ^ 8) :
    checkFileHeader (packFileHeader magicBytes walCapacity currentRecords usedSpace) =
      .ok ⟨magicBytes, walCapacity, currentRecords, usedSpace,
        crc32 (headerWithoutChecksum magicBytes walCapacity currentRecords usedSpace)⟩ := by
  have unpacked := unpackFileHeader_pack magicBytes walCapacity currentRecords usedSpace rfl
    (by decide) recordsFit usedFits
  have len := packFileHeader_length magicBytes walCapacity currentRecords usedSpace rfl
  simp only [checkFileHeader, len, unpacked, FileHeader.computedChecksum, ne_eq,
    not_true_eq_false, ↓reduceIte]

theorem checkFileHeader_ok {data : Bytes} {h : FileHeader}
    (checked : checkFileHeader data = .ok h) :
    h = unpackFileHeader data ∧ h.magic = magicBytes := by
  unfold checkFileHeader at checked
  split at checked
  · cases checked
  · dsimp only at checked
    split at checked
    · cases checked
    · split at checked
      · cases checked
      · rename_i _ _ same
        cases checked
        exact ⟨rfl, by simpa only [ne_eq, Decidable.not_not] using same⟩

theorem unpackEntryHeader_pack (e : EntryHeader) (txFits : e.txId < 256 ^ 8)
    (offsetFits : e.payloadOffset < 256 ^ 8) :
    (unpackEntryHeader e.pack).txId = e.txId ∧
      (unpackEntryHeader e.pack).isCompleted = e.isCompleted ∧
      (unpackEntryHeader e.pack).payloadOffset = e.payloadOffset := by
  refine ⟨?_, ?_, ?_⟩
  · have cut : field e.pack 0 8 = toBE 8 e.txId := by
      simp only [EntryHeader.pack, List.append_assoc]
      exact field_zero _ _ (toBE_length 8 e.txId)
    simp only [unpackEntryHeader, cut, ofBE_toBE txFits]
  · have cut := field_append 16 (toBE 8 e.txId ++ toBE 8 e.timestamp)
      [if e.isCompleted then 1 else 0] (toBE 8 e.payloadOffset) (by simp) List.length_singleton
    simp only [unpackEntryHeader, EntryHeader.pack, cut]
    cases e.isCompleted <;> rfl
  · have cut := field_append 17 (toBE 8 e.txId ++ toBE 8 e.timestamp ++
      [if e.isCompleted then 1 else 0]) (toBE 8 e.payloadOffset) []
      (by simp) (toBE_length 8 e.payloadOffset)
    rw [List.append_nil] at cut
    simp only [unpackEntryHeader, EntryHeader.pack, cut, ofBE_toBE offsetFits]

/-- The completion flag is the entry's seventeenth byte. -/
theorem EntryHeader.pack_complete (e : EntryHeader) :
    e.pack.set 16 1 = EntryHeader.pack { e with isCompleted := true } := by
  have front : (toBE 8 e.txId ++ toBE 8 e.timestamp).length = 16 := by simp
  simp only [EntryHeader.pack, ↓reduceIte]
  rw [List.append_assoc, List.set_append_right _ _ (by omega), front, List.append_assoc]
  rfl

end CachyDb.Wal
