import CachyDb.Lib.Slice
import CachyDb.Pager.Steps

set_option autoImplicit false

/-! The page as the object that Python has: `upper_offset` is an integer that compaction
may bring below the directory and below zero, and the buffer is cut by slices. A page whose
records have room behaves as `Page` does. -/

namespace CachyDb

open ByteString

/-- `Pager`, where a slot is wherever compaction has put it. -/
structure Pager where
  pageId : Nat
  flags : Nat
  lowerOffset : Nat
  upperOffset : Int
  slots : List (Int × Nat)
  data : Bytes

namespace Pager

open Page (Error pageSize slotSize zeros total)

def freeSpace (p : Pager) : Int := p.upperOffset - p.lowerOffset

def hasSpaceFor (p : Pager) (payloadLength : Nat) : Bool :=
  ((slotSize + payloadLength : Nat) : Int) ≤ p.freeSpace

/-- The payload goes below the record area, and a slot for it to the directory. -/
def addRecord (p : Pager) (payload : Bytes) : Pager :=
  let upperOffset := p.upperOffset - payload.length
  { p with
    upperOffset := upperOffset
    data := Slice.set p.data upperOffset (upperOffset + payload.length) payload
    slots := p.slots ++ [(upperOffset, payload.length)]
    lowerOffset := p.lowerOffset + slotSize }

def insertRecord (p : Pager) (payload : Bytes) : Except Error (Nat × Pager) :=
  if payload.length = 0 then .error .emptyPayload
  else if p.hasSpaceFor payload.length then .ok (p.slots.length, p.addRecord payload)
  else .error .overflow

/-- The record of a slot, `None` for a deleted one. -/
def content (p : Pager) (slot : Int × Nat) : Option Bytes :=
  if slot.1 = 0 ∧ slot.2 = 0 then none else some (Slice.get p.data slot.1 (slot.1 + slot.2))

def getRecord (p : Pager) (slotId : Int) : Except Error (Option Bytes) :=
  if slotId < 0 ∨ (p.slots.length : Int) ≤ slotId then .error .invalidSlot
  else
    match p.slots[slotId.toNat]? with
    | none => .error .invalidSlot
    | some slot => .ok (p.content slot)

def deleteRecord (p : Pager) (slotId : Int) : Except Error Pager :=
  if slotId < 0 ∨ (p.slots.length : Int) ≤ slotId then .error .invalidSlot
  else
    match p.slots[slotId.toNat]? with
    | none => .error .invalidSlot
    | some (offset, length) =>
        if offset = 0 ∧ length = 0 then .error .deletedSlot
        else
          .ok { p with
            data := Slice.set p.data offset (offset + length) (zeros length)
            slots := p.slots.set slotId.toNat (0, 0) }

/-- `active_records`. -/
def activeRecords (p : Pager) : List (Option Bytes) := p.slots.map p.content

def moveRecord (p : Pager) (i : Nat) (record : Bytes) : Pager :=
  let upperOffset := p.upperOffset - record.length
  { p with
    upperOffset := upperOffset
    data := Slice.set p.data upperOffset (upperOffset + record.length) record
    slots := p.slots.set i (upperOffset, record.length) }

/-- The loop of `compact`, from the slot `i` on. -/
def moveRecords (p : Pager) (i : Nat) : List (Option Bytes) → Pager
  | [] => p
  | none :: rest => p.moveRecords (i + 1) rest
  | some record :: rest => (p.moveRecord i record).moveRecords (i + 1) rest

/-- The free area, if there is any, is zeroed at last. -/
def clearFree (p : Pager) : Pager :=
  if 0 < p.freeSpace then
    { p with data := Slice.set p.data p.lowerOffset p.upperOffset (zeros p.freeSpace.toNat) }
  else p

def compact (p : Pager) : Pager :=
  ({ p with upperOffset := pageSize }.moveRecords 0 p.activeRecords).clearFree

inductive Operation
  | insert (payload : Bytes)
  | delete (slotId : Int)
  | compact
  deriving DecidableEq

/-- A call that raises leaves the page as it is. -/
def perform (p : Pager) : Operation → Pager
  | .insert payload =>
      match p.insertRecord payload with
      | .error _ => p
      | .ok (_, p') => p'
  | .delete slotId =>
      match p.deleteRecord slotId with
      | .error _ => p
      | .ok p' => p'
  | .compact => p.compact

/-- The slot that an operation is about. -/
def AimedAt (p : Pager) (slotId : Int) : Operation → Prop
  | .insert _ => slotId = p.slots.length
  | .delete deleted => slotId = deleted
  | .compact => False

/-- Directory and record area stay apart, and each operation keeps what every slot holds
that it is not aimed at. -/
def Keeps (p : Pager) : List Operation → Prop
  | [] => p.lowerOffset ≤ p.upperOffset
  | operation :: rest =>
      p.lowerOffset ≤ p.upperOffset ∧
        (∀ slotId, ¬ p.AimedAt slotId operation →
          (p.perform operation).getRecord slotId = p.getRecord slotId) ∧
        (p.perform operation).Keeps rest

/-- The object of a page. -/
def ofPage (p : Page) : Pager where
  pageId := p.pageId
  flags := p.flags
  lowerOffset := p.lowerOffset
  upperOffset := p.upperOffset
  slots := p.slots.map fun slot => ((slot.1 : Int), slot.2)
  data := p.data.read 0 p.data.size

/-- The step of a page that an operation is. -/
def Operation.step : Operation → Page.Step
  | .insert payload => .insert payload
  | .delete slotId => .delete slotId
  | .compact => .compact

section

variable {p : Page}

theorem ofPage_content (p : Page) (slot : Nat × Nat) :
    (ofPage p).content ((slot.1 : Int), slot.2) = p.content slot := by
  simp only [content, Page.content, Int.natCast_eq_zero]
  congr 2
  exact Slice.get_read p.data slot.1 slot.2

theorem ofPage_activeRecords (p : Page) : (ofPage p).activeRecords = p.activeRecords := by
  rw [activeRecords, Page.activeRecords, ofPage, List.map_map]
  exact List.map_congr_left fun slot _ => ofPage_content p slot

theorem ofPage_getRecord (p : Page) (slotId : Nat) :
    (ofPage p).getRecord slotId = p.getRecord slotId := by
  rw [p.getRecord_eq, ← ofPage_activeRecords, getRecord, activeRecords, List.getElem?_map]
  rw [Int.toNat_natCast]
  cases known : (ofPage p).slots[slotId]? with
  | none => simp
  | some slot =>
      have inside := (List.getElem?_eq_some_iff.mp known).1
      rw [if_neg (by omega)]
      rfl

/-- An id outside the directory is none, for the object as well. -/
theorem getRecord_negative (p : Pager) {slotId : Int} (negative : slotId < 0) :
    p.getRecord slotId = .error .invalidSlot := by
  simp only [getRecord, negative, true_or, ↓reduceIte]

theorem ofPage_insertRecord (formed : p.WellFormed) (payload : Bytes) :
    (ofPage p).insertRecord payload =
      (p.insertRecord payload).map fun made => (made.1, ofPage made.2) := by
  have same : (ofPage p).hasSpaceFor payload.length = p.hasSpaceFor payload.length := by
    rw [hasSpaceFor, Page.hasSpaceFor, decide_eq_decide]
    simp only [freeSpace, ofPage]
    omega
  rw [insertRecord, Page.insertRecord, same]
  by_cases empty : payload.length = 0
  · simp only [empty, ↓reduceIte]
    rfl
  · by_cases space : p.hasSpaceFor payload.length = true
    · have fits : p.lowerOffset + (slotSize + payload.length) ≤ p.upperOffset := by
        simpa [Page.hasSpaceFor] using space
      have width := formed.width
      have bound := formed.bound
      have upper : (p.upperOffset : Int) - payload.length =
          (p.upperOffset - payload.length : Nat) := by
        omega
      have data := @Slice.set_read p.data (p.upperOffset - payload.length) payload (by omega)
      simp only [empty, space, ↓reduceIte, Except.map, ofPage, addRecord, Page.addRecord, upper,
        data, List.map_append, List.map_cons, List.map_nil, List.length_map]
    · simp only [empty, space, ↓reduceIte]
      rfl

theorem ofPage_deleteRecord (formed : p.WellFormed) (slotId : Int) :
    (ofPage p).deleteRecord slotId = (p.deleteRecord slotId).map ofPage := by
  rw [deleteRecord, Page.deleteRecord]
  have length : (ofPage p).slots.length = p.slots.length := List.length_map _
  rw [length]
  by_cases outside : slotId < 0 ∨ (p.slots.length : Int) ≤ slotId
  · simp only [outside, ↓reduceIte]
    rfl
  · simp only [outside, ↓reduceIte]
    have mapped : (ofPage p).slots[slotId.toNat]? =
        (p.slots[slotId.toNat]?).map fun slot => ((slot.1 : Int), slot.2) := List.getElem?_map
    rw [mapped]
    cases known : p.slots[slotId.toNat]? with
    | none => rfl
    | some slot =>
        simp only [Option.map_some, Int.natCast_eq_zero]
        by_cases deleted : slot.1 = 0 ∧ slot.2 = 0
        · simp only [deleted, and_self, ↓reduceIte]
          rfl
        · have area := formed.area (List.mem_of_getElem? known) fun none_there =>
            deleted (by rw [none_there]; exact ⟨rfl, rfl⟩)
          have data := @Slice.set_read p.data slot.1 (zeros slot.2)
            (by rw [Page.zeros_length, formed.width]; exact area.2)
          rw [Page.zeros_length] at data
          simp only [deleted, ↓reduceIte, Except.map, ofPage, data, List.map_set]
          rfl

/-- The loop of `compact` where the records have room. -/
theorem ofPage_moveRecords {records : List (Option Bytes)} {p : Page}
    (room : total records ≤ p.upperOffset) (inside : p.upperOffset ≤ p.data.size) (i : Nat) :
    (ofPage p).moveRecords i records = ofPage (p.moveRecords i records) ∧
      (p.moveRecords i records).upperOffset ≤ (p.moveRecords i records).data.size := by
  induction records generalizing p i with
  | nil => exact ⟨rfl, inside⟩
  | cons record rest ih =>
      cases record with
      | none =>
          apply ih _ inside
          simpa [total] using room
      | some bytes =>
          have sum : total (some bytes :: rest) = bytes.length + total rest := by simp [total]
          rw [sum] at room
          have upper : (p.upperOffset : Int) - bytes.length =
              (p.upperOffset - bytes.length : Nat) := by
            omega
          have data := @Slice.set_read p.data (p.upperOffset - bytes.length) bytes (by omega)
          have size : (p.moveRecord i bytes).data.size = p.data.size :=
            Page.write_size_inside (by omega)
          have moved : (ofPage p).moveRecord i bytes = ofPage (p.moveRecord i bytes) := by
            simp only [moveRecord, Page.moveRecord, ofPage, upper, data, List.map_set]
          rw [moveRecords, Page.moveRecords, moved]
          apply ih
          · show total rest ≤ p.upperOffset - bytes.length
            omega
          · rw [size]
            show p.upperOffset - bytes.length ≤ p.data.size
            omega

theorem ofPage_clearFree (inside : p.upperOffset ≤ p.data.size) :
    (ofPage p).clearFree = ofPage p.clearFree := by
  have free : (ofPage p).freeSpace = (p.upperOffset : Int) - p.lowerOffset := rfl
  rw [clearFree, Page.clearFree, free]
  by_cases space : p.lowerOffset < p.upperOffset
  · have count : ((p.upperOffset : Int) - p.lowerOffset).toNat = p.upperOffset - p.lowerOffset := by
      omega
    have data := @Slice.set_read p.data p.lowerOffset (zeros (p.upperOffset - p.lowerOffset))
      (by rw [Page.zeros_length]; omega)
    rw [Page.zeros_length, show (p.lowerOffset : Int) + (p.upperOffset - p.lowerOffset : Nat) =
      p.upperOffset by omega] at data
    rw [if_pos (by omega), if_pos space, count]
    simp only [ofPage, data]
  · rw [if_neg (by omega), if_neg space]

theorem ofPage_compact (formed : p.WellFormed) (room : total p.activeRecords ≤ pageSize) :
    (ofPage p).compact = ofPage p.compact := by
  obtain ⟨moved, inside⟩ := @ofPage_moveRecords p.activeRecords { p with upperOffset := pageSize }
    room (Nat.le_of_eq formed.width.symm) 0
  rw [compact, ofPage_activeRecords]
  exact (congrArg clearFree moved).trans (ofPage_clearFree inside)

/-- The object does what the page does, as long as the records have room in it. -/
theorem ofPage_perform (formed : p.WellFormed) {operation : Operation}
    (room : operation = .compact → total p.activeRecords ≤ pageSize) :
    (ofPage p).perform operation = ofPage (p.perform operation.step).2 := by
  cases operation with
  | insert payload =>
      simp only [perform, Operation.step, Page.perform, ofPage_insertRecord formed]
      cases p.insertRecord payload <;> rfl
  | delete slotId =>
      simp only [perform, Operation.step, Page.perform, ofPage_deleteRecord formed]
      cases p.deleteRecord slotId <;> rfl
  | compact => exact ofPage_compact formed (room rfl)

end

theorem moveRecords_offsets (records : List (Option Bytes)) (p : Pager) (i : Nat) :
    (p.moveRecords i records).upperOffset = p.upperOffset - total records ∧
      (p.moveRecords i records).lowerOffset = p.lowerOffset := by
  induction records generalizing p i with
  | nil => exact ⟨by simp [moveRecords, total], rfl⟩
  | cons record rest ih =>
      cases record with
      | none => simpa [moveRecords, total] using ih p (i + 1)
      | some bytes =>
          obtain ⟨upper, lower⟩ := ih (p.moveRecord i bytes) (i + 1)
          refine ⟨?_, lower⟩
          have sum : total (some bytes :: rest) = bytes.length + total rest := by simp [total]
          rw [moveRecords, upper, sum]
          show p.upperOffset - bytes.length - total rest = _
          omega

/-- Compaction leaves as much of the page as the records do not take, be it less than
nothing. -/
theorem compact_offsets (p : Pager) :
    p.compact.upperOffset = pageSize - total p.activeRecords ∧
      p.compact.lowerOffset = p.lowerOffset := by
  have fields (q : Pager) : q.clearFree.upperOffset = q.upperOffset ∧
      q.clearFree.lowerOffset = q.lowerOffset := by
    unfold clearFree
    split <;> exact ⟨rfl, rfl⟩
  obtain ⟨upper, lower⟩ := moveRecords_offsets p.activeRecords { p with upperOffset := pageSize } 0
  exact ⟨(fields _).1.trans upper, (fields _).2.trans lower⟩

end Pager

end CachyDb
