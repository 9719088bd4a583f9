import CachyDb.Lib.Crc32
import CachyDb.Lib.File

set_option autoImplicit false

/-! The slotted page: header, slot directory growing up from it, record bytes growing
down from the end of the buffer. -/

namespace CachyDb

open ByteString Crc32

/-- `Pager`. The memo of unpacked records that a page carries is emptied by every
change of the page and is left out. -/
structure Page where
  pageId : Nat
  flags : Nat
  lowerOffset : Nat
  upperOffset : Nat
  slots : List (Nat × Nat)
  data : File

namespace Page

def pageSize : Nat := 4096
def headerSize : Nat := 20
def checksumOffset : Nat := 16
def slotSize : Nat := 4
def maxFlags : Nat := 0xFFFF
def magicDataPage : Bytes := [0x43, 0x44, 0x42, 0x50]

/-- `Pager(page_id)`. -/
def init (pageId : Nat) : Page :=
  ⟨pageId, 0, headerSize, pageSize, [], File.empty.allocate pageSize⟩

inductive Error
  | emptyPayload
  | overflow
  | invalidSlot
  | deletedSlot
  | invalidFlags
  | corrupt
  | unpackable
  deriving DecidableEq, Repr

/-- `free_space >= SLOT_SIZE + payload_length`, without negative numbers. -/
def hasSpaceFor (p : Page) (payloadLength : Nat) : Bool :=
  p.lowerOffset + (slotSize + payloadLength) ≤ p.upperOffset

/-- The page with the payload below the record area and one more slot for it. -/
def addRecord (p : Page) (payload : Bytes) : Page :=
  let upperOffset := p.upperOffset - payload.length
  { p with
    upperOffset := upperOffset
    data := p.data.write upperOffset payload
    slots := p.slots ++ [(upperOffset, payload.length)]
    lowerOffset := p.lowerOffset + slotSize }

def insertRecord (p : Page) (payload : Bytes) : Except Error (Nat × Page) :=
  if payload.length = 0 then .error .emptyPayload
  else if p.hasSpaceFor payload.length then .ok (p.slots.length, p.addRecord payload)
  else .error .overflow

def getRecord (p : Page) (slotId : Nat) : Except Error (Option Bytes) :=
  match p.slots[slotId]? with
  | none => .error .invalidSlot
  | some (offset, length) =>
      if offset = 0 ∧ length = 0 then .ok none else .ok (some (p.data.read offset length))

def slotBytes (slots : List (Nat × Nat)) : Bytes :=
  slots.flatMap (fun slot => toBE 2 slot.1 ++ toBE 2 slot.2)

/-- `HEADER_FORMAT_NO_CHECKSUM`. -/
def headerNoChecksum (p : Page) : Bytes :=
  magicDataPage ++ (toBE 4 p.pageId ++ (toBE 2 p.lowerOffset ++ (toBE 2 p.upperOffset ++
    (toBE 2 p.slots.length ++ toBE 2 p.flags))))

/-- The fields fit their formats. -/
def packable (p : Page) : Prop :=
  p.pageId < 256 ^ 4 ∧ p.lowerOffset < 256 ^ 2 ∧ p.upperOffset < 256 ^ 2 ∧
    p.slots.length < 256 ^ 2 ∧ p.flags < 256 ^ 2 ∧
    ∀ slot ∈ p.slots, slot.1 < 256 ^ 2 ∧ slot.2 < 256 ^ 2

instance (p : Page) : Decidable p.packable := by
  unfold packable
  infer_instance

/-- The buffer with its directory and header, the checksum field still zero. -/
def unsealed (p : Page) : File :=
  ((p.data.write headerSize (slotBytes p.slots)).write 0 p.headerNoChecksum).write checksumOffset
    [0, 0, 0, 0]

def sealed (p : Page) : File :=
  p.unsealed.write checksumOffset (toBE 4 (crc32 (p.unsealed.read 0 p.unsealed.size)))

/-- The bytes and the page, whose buffer the serialisation fills in. -/
def toBytes (p : Page) : Except Error (Bytes × Page) :=
  if p.packable then .ok (p.sealed.read 0 p.sealed.size, { p with data := p.sealed })
  else .error .unpackable

def zeroChecksum (raw : Bytes) : Bytes :=
  raw.take checksumOffset ++ [0, 0, 0, 0] ++ raw.drop headerSize

def unpackSlots (raw : Bytes) (numSlots : Nat) : List (Nat × Nat) :=
  (List.range numSlots).map fun i =>
    (ofBE (field raw (headerSize + i * slotSize) 2), ofBE (field raw (headerSize + i * slotSize + 2) 2))

/-- A deleted slot is all zero, any other lies in the record area. -/
def slotInside (upper : Nat) (slot : Nat × Nat) : Bool :=
  if slot.1 = 0 then slot.2 = 0 else upper ≤ slot.1 ∧ slot.1 + slot.2 ≤ pageSize

def fromBytes (raw : Bytes) : Except Error Page :=
  if raw.length ≠ pageSize then .error .corrupt
  else
    let magic := field raw 0 4
    let pageId := ofBE (field raw 4 4)
    let lower := ofBE (field raw 8 2)
    let upper := ofBE (field raw 10 2)
    let numSlots := ofBE (field raw 12 2)
    let flags := ofBE (field raw 14 2)
    let checksum := ofBE (field raw 16 4)
    if magic ≠ magicDataPage then .error .corrupt
    else if crc32 (zeroChecksum raw) ≠ checksum then .error .corrupt
    else if lower ≠ headerSize + numSlots * slotSize then .error .corrupt
    else if ¬ (headerSize ≤ lower ∧ lower ≤ pageSize) then .error .corrupt
    else if ¬ (lower ≤ upper ∧ upper ≤ pageSize) then .error .corrupt
    else
      let slots := unpackSlots raw numSlots
      if slots.all (slotInside upper) then
        .ok ⟨pageId, flags, lower, upper, slots, File.ofBytes raw⟩
      else .error .corrupt

/-- The directory ends at `lowerOffset`, and each slot is deleted or lies in the record
area. -/
structure WellFormed (p : Page) : Prop where
  width : p.data.size = pageSize
  directory : p.lowerOffset = headerSize + p.slots.length * slotSize
  ordered : p.lowerOffset ≤ p.upperOffset
  bound : p.upperOffset ≤ pageSize
  flagged : p.flags ≤ maxFlags
  inside : ∀ slot ∈ p.slots, slot = (0, 0) ∨ (p.upperOffset ≤ slot.1 ∧ slot.1 + slot.2 ≤ pageSize)

theorem init_wellFormed (pageId : Nat) : (init pageId).WellFormed := by
  refine ⟨rfl, rfl, ?_, Nat.le_refl _, Nat.zero_le _, ?_⟩
  · show headerSize ≤ pageSize
    decide
  · intro slot member
    cases member

/-- The reads of two buffers agree where the buffers do. -/
theorem read_congr {data data' : File} {start count : Nat} (size : data'.size = data.size)
    (same : ∀ i, start ≤ i → i < start + count → data'.byte i = data.byte i) :
    data'.read start count = data.read start count := by
  unfold File.read
  rw [size]
  apply List.map_congr_left
  intro i member
  have bound := List.mem_range.mp member
  apply same <;> omega

/-- An insertion takes the next slot and leaves the other records alone. -/
theorem WellFormed.insertRecord {p : Page} (formed : p.WellFormed) {payload : Bytes}
    (nonempty : payload ≠ []) (space : p.hasSpaceFor payload.length = true) :
    ∃ p', p.insertRecord payload = .ok (p.slots.length, p') ∧ p'.WellFormed ∧
      p'.pageId = p.pageId ∧ p'.slots.length = p.slots.length + 1 ∧
      p'.getRecord p.slots.length = .ok (some payload) ∧
      ∀ slot, slot < p.slots.length → p'.getRecord slot = p.getRecord slot := by
  obtain ⟨width, directory, ordered, bound, flagged, inside⟩ := formed
  have some_bytes : payload.length ≠ 0 := fun zero =>
    nonempty (List.eq_nil_of_length_eq_zero zero)
  have fits : p.lowerOffset + (slotSize + payload.length) ≤ p.upperOffset := by
    simpa [hasSpaceFor] using space
  have positive : 0 < p.upperOffset - payload.length := by
    simp only [headerSize, slotSize] at *
    omega
  have size : (p.data.write (p.upperOffset - payload.length) payload).size = p.data.size := by
    simp only [File.write, some_bytes, ↓reduceIte]
    omega
  refine ⟨p.addRecord payload, ?_, ⟨?_, ?_, ?_, ?_, flagged, ?_⟩, rfl, by simp [addRecord], ?_, ?_⟩
  · simp only [Page.insertRecord, some_bytes, space, ↓reduceIte]
  · exact size.trans width
  · simp only [addRecord, List.length_append, List.length_singleton, Nat.succ_mul]
    omega
  · simp only [addRecord, slotSize] at *
    omega
  · simp only [addRecord]
    omega
  · intro slot member
    simp only [addRecord] at member ⊢
    rcases List.mem_append.mp member with old | new
    · refine (inside slot old).imp id fun area => ⟨?_, area.2⟩
      omega
    · rw [List.mem_singleton.mp new]
      refine Or.inr ⟨Nat.le_refl _, ?_⟩
      dsimp only
      omega
  · have held := File.write_holds_self p.data (p.upperOffset - payload.length) payload
    have active : ¬ (p.upperOffset - payload.length = 0 ∧ payload.length = 0) := by omega
    simp only [getRecord, addRecord, List.getElem?_concat_length, active, ↓reduceIte, held.read rfl]
  · intro slot old
    have known : p.slots[slot]? = some p.slots[slot] := List.getElem?_eq_getElem old
    simp only [getRecord, addRecord]
    rw [List.getElem?_append_left old, known]
    rcases inside _ (List.getElem_mem old) with deleted | area
    · rw [deleted]
      rfl
    · have same : (p.data.write (p.upperOffset - payload.length) payload).read p.slots[slot].1
          p.slots[slot].2 = p.data.read p.slots[slot].1 p.slots[slot].2 := by
        apply read_congr size
        intro i lower upper
        apply File.write_byte_outside
        omega
      dsimp only
      rw [same]

@[simp] theorem slotBytes_length (slots : List (Nat × Nat)) :
    (slotBytes slots).length = slots.length * slotSize := by
  induction slots with
  | nil => rfl
  | cons slot slots ih =>
      rw [slotBytes, List.flatMap_cons, List.length_append, List.length_append, toBE_length,
        toBE_length, List.length_cons, Nat.succ_mul, Nat.add_comm]
      exact congrArg (· + slotSize) ih

@[simp] theorem headerNoChecksum_length (p : Page) :
    p.headerNoChecksum.length = checksumOffset := by
  simp only [headerNoChecksum, List.length_append, toBE_length]
  rfl

theorem write_size_inside {data : File} {start : Nat} {bytes : Bytes}
    (inside : start + bytes.length ≤ data.size) : (data.write start bytes).size = data.size := by
  simp only [File.write]
  split <;> omega

theorem WellFormed.unsealed_size {p : Page} (formed : p.WellFormed) :
    p.unsealed.size = pageSize := by
  obtain ⟨width, directory, ordered, bound, _, _⟩ := formed
  have listed : (p.data.write headerSize (slotBytes p.slots)).size = pageSize := by
    rw [write_size_inside, width]
    rw [slotBytes_length, width]
    omega
  have headed : ((p.data.write headerSize (slotBytes p.slots)).write 0 p.headerNoChecksum).size =
      pageSize := by
    rw [write_size_inside, listed]
    rw [headerNoChecksum_length, listed]
    decide
  rw [unsealed, write_size_inside, headed]
  rw [headed]
  decide

theorem WellFormed.sealed_size {p : Page} (formed : p.WellFormed) : p.sealed.size = pageSize := by
  have size := formed.unsealed_size
  rw [sealed, write_size_inside, size]
  rw [size, toBE_length]
  decide

/-- The serialisation touches header and directory only. -/
theorem WellFormed.sealed_byte {p : Page} (formed : p.WellFormed) {i : Nat}
    (behind : p.lowerOffset ≤ i) : p.sealed.byte i = p.data.byte i := by
  have directory := formed.directory
  have offsets : headerSize ≤ i ∧ checksumOffset + 4 ≤ i := by
    simp only [headerSize, checksumOffset] at *
    omega
  rw [sealed, File.write_byte_outside _ _ _ _ (by rw [toBE_length]; omega), unsealed,
    File.write_byte_outside _ _ _ _ (Or.inr offsets.2),
    File.write_byte_outside _ _ _ _ (by rw [headerNoChecksum_length]; omega),
    File.write_byte_outside _ _ _ _ (by rw [slotBytes_length]; omega)]

theorem WellFormed.sealed {p : Page} (formed : p.WellFormed) :
    WellFormed { p with data := p.sealed } :=
  ⟨formed.sealed_size, formed.directory, formed.ordered, formed.bound, formed.flagged,
    formed.inside⟩

theorem WellFormed.getRecord_sealed {p : Page} (formed : p.WellFormed) (slot : Nat) :
    getRecord { p with data := p.sealed } slot = p.getRecord slot := by
  rw [getRecord, getRecord]
  cases known : p.slots[slot]? with
  | none => rfl
  | some place =>
      rcases formed.inside place (List.mem_of_getElem? known) with rfl | ⟨above, _⟩
      · rfl
      · have ordered := formed.ordered
        have same : p.sealed.read place.1 place.2 = p.data.read place.1 place.2 := by
          apply read_congr (formed.sealed_size.trans formed.width.symm)
          intro i lower _
          apply formed.sealed_byte
          omega
        dsimp only
        rw [same]

/-- Only a page number too large for its field keeps a page from being packed. -/
theorem WellFormed.packable {p : Page} (formed : p.WellFormed) (small : p.pageId < 256 ^ 4) :
    p.packable := by
  obtain ⟨_, directory, ordered, bound, flagged, inside⟩ := formed
  simp only [headerSize, slotSize, pageSize, maxFlags] at *
  refine ⟨small, by omega, by omega, by omega, by omega, ?_⟩
  intro slot member
  rcases inside slot member with rfl | area
  · decide
  · omega

theorem field_read {data : File} {start width : Nat} (inside : start + width ≤ data.size) :
    field (data.read 0 data.size) start width = data.read start width := by
  apply List.ext_getElem
  · simp only [field, List.length_take, List.length_drop, File.read_length]
    omega
  · intro i left right
    simp only [field, List.getElem_take, List.getElem_drop, File.read_getElem, Nat.zero_add]

theorem ofBytes_read (data : File) : File.ofBytes (data.read 0 data.size) = data := by
  have length : (data.read 0 data.size).length = data.size := by
    rw [File.read_length]
    omega
  have size : (File.ofBytes (data.read 0 data.size)).size = data.size := by
    simp only [File.ofBytes, File.write, length, File.empty_size]
    split <;> omega
  have bytes : (File.ofBytes (data.read 0 data.size)).byte = data.byte := by
    funext i
    by_cases inside : i < data.size
    · have stored := File.write_byte_inside File.empty 0 (data.read 0 data.size) i
        (by rw [length]; exact inside)
      rw [Nat.zero_add] at stored
      rw [File.ofBytes, stored, File.read_getElem, Nat.zero_add]
    · rw [data.beyond i (Nat.le_of_not_lt inside)]
      exact (File.ofBytes _).beyond i (by rw [size]; exact Nat.le_of_not_lt inside)
  cases built : File.ofBytes (data.read 0 data.size) with
  | mk size' byte' beyond' =>
      cases data with
      | mk size₀ byte₀ beyond₀ =>
          rw [built] at size bytes
          cases size
          cases bytes
          rfl

theorem unsealed_header (p : Page) :
    p.unsealed.Holds 0 p.headerNoChecksum ∧ p.unsealed.Holds checksumOffset [0, 0, 0, 0] ∧
      p.unsealed.Holds headerSize (slotBytes p.slots) := by
  refine ⟨?_, File.write_holds_self _ _ _, ?_⟩
  · apply (File.write_holds_self _ _ _).write
    rw [headerNoChecksum_length]
    exact Or.inl (Nat.le_refl _)
  · apply File.Holds.write _ (Or.inr (by decide))
    apply File.Holds.write _ (Or.inr (by rw [headerNoChecksum_length]; decide))
    exact File.write_holds_self _ _ _

/-- Zeroing the checksum field of a sealed page gives back what was sealed. -/
theorem WellFormed.zeroChecksum_sealed {p : Page} (formed : p.WellFormed) :
    zeroChecksum (p.sealed.read 0 p.sealed.size) = p.unsealed.read 0 p.unsealed.size := by
  have sealedSize := formed.sealed_size
  have unsealedSize := formed.unsealed_size
  obtain ⟨_, zeros, _⟩ := p.unsealed_header
  rw [sealedSize, unsealedSize]
  apply List.ext_getElem
  · simp only [zeroChecksum, List.length_append, List.length_take, List.length_drop,
      File.read_length, sealedSize, unsealedSize]
    decide
  · intro i left right
    rw [File.read_length, unsealedSize] at right
    have outside : i < checksumOffset ∨ checksumOffset + 4 ≤ i →
        p.sealed.byte i = p.unsealed.byte i := by
      intro apart
      apply File.write_byte_outside
      rw [toBE_length]
      exact apart
    rw [File.read_getElem, Nat.zero_add]
    by_cases before : i < checksumOffset
    · have short : i < ((p.sealed.read 0 pageSize).take checksumOffset).length := by
        rw [List.length_take, File.read_length, sealedSize]
        simp only [checksumOffset, pageSize] at *
        omega
      simp only [zeroChecksum, List.append_assoc]
      rw [List.getElem_append_left short, List.getElem_take, File.read_getElem, Nat.zero_add]
      exact outside (Or.inl before)
    · by_cases within : i < checksumOffset + 4
      · have zero := (zeros (i - checksumOffset) (by simp only [List.length_cons, List.length_nil]; omega)).2
        rw [Nat.add_sub_cancel' (Nat.le_of_not_lt before)] at zero
        rw [zero]
        simp only [zeroChecksum]
        have length : ((p.sealed.read 0 pageSize).take checksumOffset).length = checksumOffset := by
          rw [List.length_take, File.read_length, sealedSize]
          rfl
        rw [List.getElem_append_left (by rw [List.length_append, length]; exact within),
          List.getElem_append_right (by rw [length]; exact Nat.le_of_not_lt before)]
        simp only [length]
      · have length : ((p.sealed.read 0 pageSize).take checksumOffset ++ [0, 0, 0, 0]).length =
            headerSize := by
          rw [List.length_append, List.length_take, File.read_length, sealedSize]
          rfl
        simp only [zeroChecksum]
        rw [List.getElem_append_right (by rw [length]; simp only [headerSize, checksumOffset] at *; omega),
          List.getElem_drop, File.read_getElem]
        simp only [length]
        rw [show 0 + (headerSize + (i - headerSize)) = i by
          simp only [headerSize, checksumOffset] at *; omega]
        exact outside (Or.inr (Nat.le_of_not_lt within))

theorem unpackSlots_read {data : File} {slots : List (Nat × Nat)}
    (held : data.Holds headerSize (slotBytes slots))
    (inside : headerSize + slots.length * slotSize ≤ data.size)
    (small : ∀ slot ∈ slots, slot.1 < 256 ^ 2 ∧ slot.2 < 256 ^ 2) :
    unpackSlots (data.read 0 data.size) slots.length = slots := by
  apply List.ext_getElem
  · simp [unpackSlots]
  · intro i left right
    have piece := held.flatMap i right
    have front : ((slots.take i).flatMap fun slot => toBE 2 slot.1 ++ toBE 2 slot.2).length =
        i * slotSize := by
      have width := slotBytes_length (slots.take i)
      rw [List.length_take, Nat.min_eq_left (Nat.le_of_lt right)] at width
      exact width
    rw [front, File.holds_append] at piece
    obtain ⟨offset, length⟩ := piece
    rw [toBE_length] at length
    obtain ⟨offsetFits, lengthFits⟩ := small _ (List.getElem_mem right)
    have room : headerSize + i * slotSize + 4 ≤ data.size := by
      have step : (i + 1) * slotSize ≤ slots.length * slotSize := Nat.mul_le_mul_right _ right
      simp only [slotSize] at *
      omega
    simp only [unpackSlots, List.getElem_map, List.getElem_range]
    rw [field_read (by omega), field_read (by omega), offset.read (toBE_length 2 _),
      length.read (toBE_length 2 _), ofBE_toBE offsetFits, ofBE_toBE lengthFits]

/-- A serialised page reads back as itself. -/
theorem WellFormed.fromBytes_sealed {p : Page} (formed : p.WellFormed) (packs : p.packable) :
    fromBytes (p.sealed.read 0 p.sealed.size) = .ok { p with data := p.sealed } := by
  obtain ⟨idFits, lowerFits, upperFits, countFits, flagsFit, slotsFit⟩ := packs
  have size := formed.sealed_size
  have whole : ∀ start width, start + width ≤ pageSize →
      field (p.sealed.read 0 p.sealed.size) start width = p.sealed.read start width := by
    intro start width inside
    exact field_read (by rw [size]; exact inside)
  obtain ⟨header, _, directory⟩ := p.unsealed_header
  have kept : p.sealed.Holds 0 p.headerNoChecksum := by
    apply header.write
    rw [headerNoChecksum_length]
    exact Or.inl (Nat.le_refl _)
  have keptDirectory : p.sealed.Holds headerSize (slotBytes p.slots) := by
    apply directory.write
    rw [toBE_length]
    exact Or.inr (Nat.le_refl _)
  have checksum : p.sealed.Holds checksumOffset
      (toBE 4 (crc32 (p.unsealed.read 0 p.unsealed.size))) := File.write_holds_self _ _ _
  simp only [headerNoChecksum, File.holds_append, toBE_length] at kept
  obtain ⟨magic, pageId, lower, upper, count, flags⟩ := kept
  have length : (p.sealed.read 0 p.sealed.size).length = pageSize := by
    rw [File.read_length, size]
    rfl
  have magicField : field (p.sealed.read 0 p.sealed.size) 0 4 = magicDataPage := by
    rw [whole _ _ (by decide)]
    exact magic.read rfl
  have idField : ofBE (field (p.sealed.read 0 p.sealed.size) 4 4) = p.pageId := by
    rw [whole _ _ (by decide)]
    exact (congrArg ofBE (pageId.read (toBE_length 4 _))).trans (ofBE_toBE idFits)
  have lowerField : ofBE (field (p.sealed.read 0 p.sealed.size) 8 2) = p.lowerOffset := by
    rw [whole _ _ (by decide)]
    exact (congrArg ofBE (lower.read (toBE_length 2 _))).trans (ofBE_toBE lowerFits)
  have upperField : ofBE (field (p.sealed.read 0 p.sealed.size) 10 2) = p.upperOffset := by
    rw [whole _ _ (by decide)]
    exact (congrArg ofBE (upper.read (toBE_length 2 _))).trans (ofBE_toBE upperFits)
  have countField : ofBE (field (p.sealed.read 0 p.sealed.size) 12 2) = p.slots.length := by
    rw [whole _ _ (by decide)]
    exact (congrArg ofBE (count.read (toBE_length 2 _))).trans (ofBE_toBE countFits)
  have flagsField : ofBE (field (p.sealed.read 0 p.sealed.size) 14 2) = p.flags := by
    rw [whole _ _ (by decide)]
    exact (congrArg ofBE (flags.read (toBE_length 2 _))).trans (ofBE_toBE flagsFit)
  have checksumField : ofBE (field (p.sealed.read 0 p.sealed.size) 16 4) =
      crc32 (p.unsealed.read 0 p.unsealed.size) := by
    rw [whole _ _ (by decide)]
    exact (congrArg ofBE (checksum.read (toBE_length 4 _))).trans (ofBE_toBE (crc32_lt _))
  have slots : unpackSlots (p.sealed.read 0 p.sealed.size) p.slots.length = p.slots := by
    apply unpackSlots_read keptDirectory _ slotsFit
    have ordered := formed.ordered
    have bound := formed.bound
    have place := formed.directory
    omega
  have inside : p.slots.all (slotInside p.upperOffset) = true := by
    rw [List.all_eq_true]
    intro slot member
    have directory := formed.directory
    have ordered := formed.ordered
    rcases formed.inside slot member with rfl | ⟨above, below⟩
    · rfl
    · have active : slot.1 ≠ 0 := by
        simp only [headerSize] at directory
        omega
      simp only [slotInside, active, ↓reduceIte, above, below, and_self, decide_true]
  have low : headerSize ≤ p.lowerOffset ∧ p.lowerOffset ≤ pageSize := by
    have directory := formed.directory
    have ordered := formed.ordered
    have bound := formed.bound
    omega
  have high : p.lowerOffset ≤ p.upperOffset ∧ p.upperOffset ≤ pageSize :=
    ⟨formed.ordered, formed.bound⟩
  simp only [fromBytes, length, magicField, idField, lowerField, upperField, countField, flagsField,
    checksumField, formed.zeroChecksum_sealed, slots, inside, low, high, formed.directory.symm,
    ne_eq, not_true_eq_false, and_self, ↓reduceIte, ofBytes_read]

end Page

end CachyDb
