import CachyDb.Pager.Torn

set_option autoImplicit false

/-! Bytes that are accepted as a page are the bytes of this page. -/

namespace CachyDb.Page

open ByteString Crc32

/-- What the header of a page that can be read says. -/
structure Header (raw : Bytes) (page : Page) : Prop where
  magic : field raw 0 4 = magicDataPage
  checksum : crc32 (zeroChecksum raw) = ofBE (field raw 16 4)
  upper : page.upperOffset = ofBE (field raw 10 2)
  flags : page.flags = ofBE (field raw 14 2)

theorem fromBytes_header {raw : Bytes} {page : Page} (read : fromBytes raw = .ok page) :
    Header raw page := by
  unfold fromBytes at read
  split at read
  · cases read
  dsimp only at read
  split at read
  · cases read
  rename_i magic
  split at read
  · cases read
  rename_i checksum
  split at read
  · cases read
  split at read
  · cases read
  split at read
  · cases read
  split at read
  · cases read
    exact ⟨not_not.mp magic, not_not.mp checksum, rfl, rfl⟩
  · cases read

/-- A buffer holds each field of its bytes. -/
theorem ofBytes_field {raw : Bytes} {start width : Nat} (inside : start + width ≤ raw.length) :
    (File.ofBytes raw).Holds start (field raw start width) := by
  intro i within
  have length := field_length inside
  rw [length] at within
  have byte := @ofBytes_byte raw (start + i) (by omega)
  have cut := field_getElem raw start width i
  rw [if_pos within, List.getElem?_eq_getElem (by omega), List.getElem?_eq_getElem (by omega),
    Option.some.injEq] at cut
  refine ⟨?_, by rw [byte, cut]⟩
  have whole := File.end_le_write File.empty 0 raw fun empty => by
    rw [empty, List.length_nil] at inside
    omega
  simp only [File.ofBytes]
  omega

section

variable {raw : Bytes} {page : Page}

/-- A packed number of the header is in the buffer. -/
theorem ofBytes_number (length : raw.length = pageSize) {start width : Nat}
    (inside : start + width ≤ pageSize) :
    (File.ofBytes raw).Holds start (toBE width (ofBE (field raw start width))) := by
  rw [toBE_ofBE (field_length (by rw [length]; exact inside))]
  exact ofBytes_field (by rw [length]; exact inside)

theorem Decoded.holds_header (decoded : Decoded raw page) (header : Header raw page) :
    page.data.Holds 0 page.headerNoChecksum := by
  have length := decoded.length
  have count : page.slots.length = ofBE (field raw 12 2) := by
    rw [decoded.slots, unpackSlots_length]
  rw [decoded.data, headerNoChecksum]
  simp only [File.holds_append, toBE_length]
  refine ⟨?_, ?_, ?_, ?_, ?_, ?_⟩
  · rw [← header.magic]
    exact ofBytes_field (by rw [length]; decide)
  · rw [decoded.pageId]
    exact ofBytes_number length (by decide)
  · rw [decoded.lower]
    exact ofBytes_number length (by decide)
  · rw [header.upper]
    exact ofBytes_number length (by decide)
  · rw [count]
    exact ofBytes_number length (by decide)
  · rw [header.flags]
    exact ofBytes_number length (by decide)

theorem holds_slots (length : raw.length = pageSize) {count : Nat}
    (inside : headerSize + count * slotSize ≤ pageSize) :
    (File.ofBytes raw).Holds headerSize (slotBytes (unpackSlots raw count)) := by
  induction count with
  | zero => exact File.holds_nil _ _
  | succ count ih =>
      have room : headerSize + count * slotSize + 4 ≤ pageSize := by
        simp only [slotSize] at *
        omega
      have cut : unpackSlots raw (count + 1) = unpackSlots raw count ++
          [(ofBE (field raw (headerSize + count * slotSize) 2),
            ofBE (field raw (headerSize + count * slotSize + 2) 2))] := by
        rw [unpackSlots, List.range_succ, List.map_append]
        rfl
      rw [cut, slotBytes, List.flatMap_append, File.holds_append]
      refine ⟨ih (by omega), ?_⟩
      have width := slotBytes_length (unpackSlots raw count)
      rw [unpackSlots_length, slotBytes] at width
      rw [width, List.flatMap_singleton, File.holds_append, toBE_length]
      exact ⟨ofBytes_number length (by omega), ofBytes_number length (by omega)⟩

/-- Every field of an accepted page fits its format. -/
theorem Decoded.packable (decoded : Decoded raw page) : page.packable := by
  have small {start width : Nat} (inside : start + width ≤ pageSize) :
      ofBE (field raw start width) < 256 ^ width := by
    have bound := ofBE_lt (field raw start width)
    rwa [field_length (by rw [decoded.length]; exact inside)] at bound
  apply decoded.formed.packable
  rw [decoded.pageId]
  exact small (by decide)

/-- The bytes with the checksum field zeroed. -/
theorem read_zeroed (length : raw.length = pageSize) :
    ((File.ofBytes raw).write checksumOffset [0, 0, 0, 0]).read 0 pageSize = zeroChecksum raw := by
  have size : ((File.ofBytes raw).write checksumOffset [0, 0, 0, 0]).size = pageSize := by
    have whole : (File.ofBytes raw).size = pageSize := by
      simp only [File.ofBytes, File.write, length, File.empty_size]
      rfl
    rw [write_size_inside, whole]
    rw [whole]
    decide
  have front : (raw.take checksumOffset).length = checksumOffset := by
    rw [List.length_take, length]
    rfl
  have head : (raw.take checksumOffset ++ [0, 0, 0, 0]).length = headerSize := by
    rw [List.length_append, front]
    rfl
  apply List.ext_getElem
  · rw [File.read_length, size, zeroChecksum, List.length_append, head, List.length_drop, length]
    rfl
  · intro i left right
    rw [File.read_length, size, Nat.sub_zero, Nat.min_self] at left
    rw [File.read_getElem, Nat.zero_add]
    simp only [zeroChecksum]
    by_cases before : i < checksumOffset
    · rw [List.getElem_append_left (by rw [head]; simp only [headerSize, checksumOffset] at *; omega),
        List.getElem_append_left (by rw [front]; exact before), List.getElem_take,
        File.write_byte_outside _ _ _ _ (Or.inl before)]
      exact ofBytes_byte (by rw [length]; exact left)
    · by_cases within : i < headerSize
      · have zero := File.write_byte_inside (File.ofBytes raw) checksumOffset [0, 0, 0, 0]
          (i - checksumOffset) (by simp only [headerSize, checksumOffset] at *; simp; omega)
        rw [Nat.add_sub_cancel' (Nat.le_of_not_lt before)] at zero
        rw [zero, List.getElem_append_left (by rw [head]; exact within),
          List.getElem_append_right (by rw [front]; exact Nat.le_of_not_lt before)]
        simp only [front]
      · rw [List.getElem_append_right (by rw [head]; exact Nat.le_of_not_lt within), List.getElem_drop,
          File.write_byte_outside _ _ _ _ (Or.inr (Nat.le_of_not_lt within))]
        simp only [head, show headerSize + (i - headerSize) = i by omega]
        exact ofBytes_byte (by rw [length]; exact left)

/-- Serialised again, an accepted page has the bytes that it was read from. -/
theorem toBytes_fromBytes (read : fromBytes raw = .ok page) : page.toBytes = .ok (raw, page) := by
  have decoded := fromBytes_decoded read
  have header := fromBytes_header read
  have length := decoded.length
  have width := decoded.formed.width
  have room : headerSize + page.slots.length * slotSize ≤ pageSize := by
    have directory := decoded.formed.directory
    have ordered := decoded.formed.ordered
    have bound := decoded.formed.bound
    omega
  have listed : page.data.Holds headerSize (slotBytes page.slots) := by
    have count : page.slots.length = ofBE (field raw 12 2) := by
      rw [decoded.slots, unpackSlots_length]
    rw [decoded.data, decoded.slots]
    exact holds_slots length (by rw [← count]; exact room)
  have unsealed : page.unsealed = page.data.write checksumOffset [0, 0, 0, 0] := by
    rw [Page.unsealed, listed.write_same, (decoded.holds_header header).write_same]
  have size : page.unsealed.size = pageSize := decoded.formed.unsealed_size
  have checksum : page.data.Holds checksumOffset (field raw 16 4) := by
    rw [decoded.data]
    exact ofBytes_field (by rw [length]; decide)
  have crc : toBE 4 (crc32 (page.unsealed.read 0 page.unsealed.size)) = field raw 16 4 := by
    rw [size, unsealed, decoded.data, read_zeroed length, header.checksum]
    exact toBE_ofBE (field_length (by rw [length]; decide))
  have same : page.sealed = page.data := by
    rw [Page.sealed, crc, unsealed, File.write_write, checksum.write_same]
    exact field_length (by rw [length]; decide)
  have bytes : page.data.read 0 pageSize = raw := by
    have whole := @ofBytes_field raw 0 pageSize (by rw [length]; omega)
    rw [field, List.drop_zero, List.take_of_length_le (Nat.le_of_eq length), ← decoded.data] at whole
    exact whole.read length
  rw [toBytes, if_pos decoded.packable, same, width, bytes]

end

end CachyDb.Page
