import CachyDb.Pager.Page

set_option autoImplicit false

/-! A page whose write was cut short: when it can still be read, then all that its old
image held is in it. -/

namespace CachyDb.Page

open ByteString

/-- What a page that can be read says about its bytes. -/
structure Decoded (raw : Bytes) (page : Page) : Prop where
  length : raw.length = pageSize
  pageId : page.pageId = ofBE (field raw 4 4)
  lower : page.lowerOffset = ofBE (field raw 8 2)
  slots : page.slots = unpackSlots raw (ofBE (field raw 12 2))
  data : page.data = File.ofBytes raw
  formed : page.WellFormed

theorem unpackSlots_length (raw : Bytes) (numSlots : Nat) :
    (unpackSlots raw numSlots).length = numSlots := by
  rw [unpackSlots, List.length_map, List.length_range]

theorem fromBytes_decoded {raw : Bytes} {page : Page} (read : fromBytes raw = .ok page) :
    Decoded raw page := by
  unfold fromBytes at read
  split at read
  · cases read
  · rename_i whole
    have length : raw.length = pageSize := by omega
    have size : (File.ofBytes raw).size = pageSize := by
      simp only [File.ofBytes, File.write, length, File.empty_size]
      rfl
    have flagged : ofBE (field raw 14 2) ≤ maxFlags := by
      have bound := ofBE_lt (field raw 14 2)
      rw [field_length (by rw [length]; decide)] at bound
      simp only [maxFlags]
      omega
    dsimp only at read
    split at read
    · cases read
    split at read
    · cases read
    split at read
    · cases read
    split at read
    · cases read
    split at read
    · cases read
    rename_i low high
    split at read
    · rename_i directory inside
      cases read
      have count := unpackSlots_length raw (ofBE (field raw 12 2))
      refine ⟨length, rfl, rfl, rfl, rfl, ⟨size, ?_, ?_, ?_, flagged, ?_⟩⟩
      · dsimp only
        rw [count]
        omega
      · dsimp only
        omega
      · dsimp only
        omega
      · intro slot member
        have here := List.all_eq_true.mp inside slot member
        unfold slotInside at here
        split at here
        · rename_i zero
          exact Or.inl (Prod.ext zero (of_decide_eq_true here))
        · exact Or.inr (of_decide_eq_true here)
    · cases read

theorem ofBytes_byte {raw : Bytes} {i : Nat} (inside : i < raw.length) :
    (File.ofBytes raw).byte i = raw[i] := by
  have here := File.write_byte_inside File.empty 0 raw i inside
  rw [Nat.zero_add] at here
  exact here

/-- The new image has the slots of the old one, and perhaps more, and the same bytes where
the old one has its records. -/
structure Extends (new old : Page) : Prop where
  pageId : new.pageId = old.pageId
  slots : ∃ more, new.slots = old.slots ++ more
  payloads : ∀ i, old.upperOffset ≤ i → i < pageSize → new.data.byte i = old.data.byte i

theorem Extends.refl (page : Page) : Extends page page :=
  ⟨rfl, ⟨[], (List.append_nil _).symm⟩, fun _ _ _ => rfl⟩

/-- The records of the old image are the first of the new one. -/
theorem Extends.getRecord {new old : Page} (extends_ : Extends new old) (shape : new.WellFormed)
    (formed : old.WellFormed) {slot : Nat} (inside : slot < old.slots.length) :
    new.getRecord slot = old.getRecord slot := by
  obtain ⟨more, slots⟩ := extends_.slots
  have same : new.slots[slot]? = old.slots[slot]? := by
    rw [slots, List.getElem?_append_left inside]
  unfold Page.getRecord
  rw [same]
  cases known : old.slots[slot]? with
  | none => rfl
  | some place =>
      obtain ⟨offset, length⟩ := place
      dsimp only
      split
      · rfl
      · rename_i active
        rcases formed.inside _ (List.mem_of_getElem? known) with zero | ⟨above, below⟩
        · cases zero
          exact absurd ⟨rfl, rfl⟩ active
        · rw [read_congr (shape.width.trans formed.width.symm)]
          intro i from_here before
          exact extends_.payloads i (by omega) (by omega)

section

variable {newRaw oldRaw : Bytes} {new old page : Page} {cut : Nat}

/-- A number that both images agree on is in the torn image as well. -/
theorem number_torn (length : newRaw.length = oldRaw.length) {start width : Nat}
    (inside : start + width ≤ oldRaw.length)
    (same : ofBE (field newRaw start width) = ofBE (field oldRaw start width)) :
    ofBE (field (torn newRaw oldRaw cut) start width) = ofBE (field oldRaw start width) := by
  have widths : (field newRaw start width).length = (field oldRaw start width).length := by
    rw [field_length inside, field_length (by omega)]
  rw [field_torn length cut (ofBE_inj widths same)]

/-- The number of slots is that of the old or that of the new image, since `lowerOffset`
has to go with it. -/
theorem Decoded.torn_count (decodedNew : Decoded newRaw new) (decodedOld : Decoded oldRaw old)
    (decoded : Decoded (torn newRaw oldRaw cut) page) :
    page.slots.length = old.slots.length ∨ page.slots.length = new.slots.length := by
  have length := decodedNew.length.trans decodedOld.length.symm
  by_cases front : cut ≤ 12
  · left
    rw [decoded.slots, decodedOld.slots, unpackSlots_length, unpackSlots_length,
      field_torn_old length front]
  · right
    have lower : page.lowerOffset = new.lowerOffset := by
      rw [decoded.lower, decodedNew.lower, field_torn_new length (by omega)]
    have here := decoded.formed.directory
    have there := decodedNew.formed.directory
    simp only [slotSize] at here there
    omega

/-- When the cut is behind `lowerOffset` and before the number of slots, no page with more
slots than before can be read. -/
theorem Decoded.torn_header (decodedNew : Decoded newRaw new) (decodedOld : Decoded oldRaw old)
    (more : new.slots.length ≠ old.slots.length) (behind : 10 ≤ cut) (before : cut ≤ 12) :
    ¬ Decoded (torn newRaw oldRaw cut) page := by
  intro decoded
  have length := decodedNew.length.trans decodedOld.length.symm
  have lower : page.lowerOffset = new.lowerOffset := by
    rw [decoded.lower, decodedNew.lower, field_torn_new length behind]
  have count : page.slots.length = old.slots.length := by
    rw [decoded.slots, decodedOld.slots, unpackSlots_length, unpackSlots_length,
      field_torn_old length before]
  have here := decoded.formed.directory
  have there := decodedNew.formed.directory
  simp only [slotSize] at here there
  omega

theorem Decoded.slot {raw : Bytes} {page : Page} (decoded : Decoded raw page) {i : Nat}
    (inside : i < page.slots.length) :
    page.slots[i] = (ofBE (field raw (headerSize + i * slotSize) 2),
      ofBE (field raw (headerSize + i * slotSize + 2) 2)) := by
  simp only [decoded.slots, unpackSlots, List.getElem_map, List.getElem_range]

/-- A torn image that can be read is an extension of the old image. -/
theorem Extends.torn (extends_ : Extends new old) (decodedNew : Decoded newRaw new)
    (decodedOld : Decoded oldRaw old) (decoded : Decoded (torn newRaw oldRaw cut) page) :
    Extends page old := by
  have length := decodedNew.length.trans decodedOld.length.symm
  have whole := decodedOld.length
  obtain ⟨more, slots⟩ := extends_.slots
  have directory := decodedOld.formed.directory
  have ordered := decodedOld.formed.ordered
  have bound := decodedOld.formed.bound
  refine ⟨?_, ?_, ?_⟩
  · rw [decoded.pageId, decodedOld.pageId]
    apply number_torn length (by rw [whole]; decide)
    rw [← decodedNew.pageId, ← decodedOld.pageId]
    exact extends_.pageId
  · refine ⟨page.slots.drop old.slots.length, ?_⟩
    have enough : old.slots.length ≤ page.slots.length := by
      rcases decodedNew.torn_count decodedOld decoded with same | same
      · omega
      · rw [same, slots, List.length_append]
        omega
    have front : page.slots.take old.slots.length = old.slots := by
      apply List.ext_getElem
      · rw [List.length_take]
        omega
      · intro i _ within
        have there : i < new.slots.length := by
          rw [slots, List.length_append]
          omega
        have kept : new.slots[i] = old.slots[i] := by
          simp only [slots, List.getElem_append_left within]
        rw [decodedNew.slot there, decodedOld.slot within, Prod.mk.injEq] at kept
        simp only [headerSize, slotSize] at directory kept
        rw [List.getElem_take, decoded.slot (by omega), decodedOld.slot within]
        simp only [headerSize, slotSize]
        rw [number_torn length (by omega) kept.1, number_torn length (by omega) kept.2]
    calc page.slots = page.slots.take old.slots.length ++ page.slots.drop old.slots.length :=
          (List.take_append_drop _ _).symm
      _ = old.slots ++ page.slots.drop old.slots.length := by rw [front]
  · intro i above below
    rw [decoded.data, decodedOld.data, ofBytes_byte (by rw [torn_length length]; omega),
      ofBytes_byte (by omega)]
    have same := extends_.payloads i above below
    rw [decodedNew.data, decodedOld.data, ofBytes_byte (by omega), ofBytes_byte (by omega)] at same
    have at_i := torn_getElem length cut i
    rw [List.getElem?_eq_getElem (by rw [torn_length length]; omega),
      List.getElem?_eq_getElem (by omega), List.getElem?_eq_getElem (by omega), same, ite_self]
      at at_i
    exact Option.some.inj at_i

end

end CachyDb.Page
