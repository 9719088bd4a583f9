import CachyDb.Pager.Steps

set_option autoImplicit false

/-! The space of a page: what the directory, the records and the free bytes between them
add up to, and when a record still finds room. -/

namespace CachyDb.Page

open ByteString Transition

/-- No record is an empty byte string. -/
def Nonempty (records : List (Option Bytes)) : Prop := some [] ∉ records

theorem ListStep.nonempty {records records' : List (Option Bytes)} {event : Step × Result}
    (step : ListStep records event records') (nonempty : Nonempty records) :
    Nonempty records' := by
  unfold Nonempty at *
  cases step with
  | insert payload some_bytes =>
      simp only [List.mem_append, List.mem_singleton, Option.some.injEq, not_or]
      exact ⟨nonempty, Ne.symm some_bytes⟩
  | delete slotId payload held =>
      intro member
      rcases List.mem_or_eq_of_mem_set member with old | new
      · exact nonempty old
      · cases new
  | insertEmpty => exact nonempty
  | insertFull => exact nonempty
  | deleteOutside => exact nonempty
  | deleteTwice => exact nonempty
  | keep => exact nonempty

/-- A page whose records all have bytes. -/
structure Filled (p : Page) : Prop where
  sound : p.Sound
  nonempty : Nonempty p.activeRecords

section

variable {p p' : Page}

theorem Filled.step (filled : p.Filled) {event : Step × Result} (step : PageStep p event p') :
    p'.Filled := by
  obtain ⟨sound', _, _, listed⟩ := filled.sound.step step
  refine ⟨sound', ?_⟩
  rcases listed with listed | ⟨_, _, same⟩
  · exact listed.nonempty filled.nonempty
  · rw [same, filled.sound.withDirectory.2]
    exact filled.nonempty

theorem Filled.run (filled : p.Filled) {events : List (Step × Result)}
    (run : Run PageStep p events p') : p'.Filled := by
  induction run with
  | nil => exact filled
  | snoc _ last ih => exact ih.step last

theorem create_filled {pageId flags : Nat} (made : create pageId flags = .ok p) : p.Filled := by
  obtain ⟨sound, _, _, nothing⟩ := create_sound made
  refine ⟨sound, ?_⟩
  rw [Nonempty, nothing]
  exact List.not_mem_nil

/-- The record of an active slot is as long as the slot says. -/
theorem Filled.positive (filled : p.Filled) {slot : Nat × Nat} (member : slot ∈ p.slots)
    (active : Active slot) : 0 < slot.2 := by
  by_contra empty
  have length : slot.2 = 0 := by omega
  apply filled.nonempty
  rw [activeRecords, List.mem_map]
  refine ⟨slot, member, ?_⟩
  rw [content_active p active, length]
  simp [File.read]

/-- No byte belongs to two slots. -/
theorem Sound.covers_one (sound : p.Sound) {i j : Nat} {slot other : Nat × Nat}
    (first : p.slots[i]? = some slot) (second : p.slots[j]? = some other) {byte : Nat}
    (covered : Covers slot byte) (covered' : Covers other byte) : i = j := by
  by_contra different
  have active : Active slot := by
    rintro rfl
    simp only [Covers] at covered
    omega
  have active' : Active other := by
    rintro rfl
    simp only [Covers] at covered'
    omega
  have apart := sound.apart different first second active active'
  simp only [Covers] at covered covered'
  omega

/-- The directory and the records are all that is taken after a compaction. -/
theorem Sound.room_after_compact (sound : p.Sound) {payload : Bytes} (nonempty : payload ≠ []) :
    (∃ slotId p', p.compact.insertRecord payload = .ok (slotId, p')) ↔
      headerSize + slotSize * (p.compact.slots.length + 1) + total p.compact.activeRecords +
        payload.length ≤ pageSize := by
  obtain ⟨sound', records, used, _⟩ := sound.compact
  have directory := sound'.formed.directory
  have positive : payload.length ≠ 0 := fun zero => nonempty (List.eq_nil_of_length_eq_zero zero)
  have space : p.compact.hasSpaceFor payload.length = true ↔
      headerSize + slotSize * (p.compact.slots.length + 1) + total p.compact.activeRecords +
        payload.length ≤ pageSize := by
    rw [records, hasSpaceFor, decide_eq_true_eq]
    simp only [slotSize] at *
    omega
  rw [← space]
  cases room : p.compact.hasSpaceFor payload.length with
  | false => simp [insertRecord, positive, room]
  | true => simp [insertRecord, positive, room]

end

/-- Whatever has been inserted, deleted, compacted and written out: the directory and the
record area stay apart within one page, the records share no byte, and compaction leaves
nothing taken but what the records and the directory need. -/
theorem space_never_lost {pageId flags : Nat} {created p : Page}
    (made : create pageId flags = .ok created) {events : List (Step × Result)}
    (run : Run PageStep created events p) :
    p.lowerOffset = headerSize + slotSize * p.slots.length ∧ p.lowerOffset ≤ p.upperOffset ∧
      p.upperOffset ≤ pageSize ∧ p.data.size = pageSize ∧
      (∀ slot ∈ p.slots, Active slot →
        0 < slot.2 ∧ p.upperOffset ≤ slot.1 ∧ slot.1 + slot.2 ≤ pageSize) ∧
      (∀ (i j : Nat) (slot other : Nat × Nat) (byte : Nat), p.slots[i]? = some slot →
        p.slots[j]? = some other → Covers slot byte → Covers other byte → i = j) ∧
      pageSize - p.compact.upperOffset = total p.compact.activeRecords ∧
      ∀ payload : Bytes, payload ≠ [] →
        ((∃ slotId p', p.compact.insertRecord payload = .ok (slotId, p')) ↔
          headerSize + slotSize * (p.compact.slots.length + 1) +
            total p.compact.activeRecords + payload.length ≤ pageSize) := by
  have filled := (create_filled made).run run
  have sound := filled.sound
  have formed := sound.formed
  obtain ⟨_, records, used, _⟩ := sound.compact
  refine ⟨?_, formed.ordered, formed.bound, formed.width, ?_, ?_, ?_, ?_⟩
  · rw [formed.directory, Nat.mul_comm]
  · exact fun slot member active =>
      ⟨filled.positive member active, formed.area member active⟩
  · exact fun i j slot other byte first second covered covered' =>
      sound.covers_one first second covered covered'
  · rw [records]
    omega
  · exact fun payload nonempty => sound.room_after_compact nonempty

theorem space_never_lost_of_three :
    ∃ created p : Page, create 0 0 = .ok created ∧ p.slots = [(0, 0), (4093, 1)] ∧
      p.compact.upperOffset = 4095 ∧
      ((∃ slotId p', p.compact.insertRecord (zeros 4063) = .ok (slotId, p')) ∧
        ¬ ∃ slotId p', p.compact.insertRecord (zeros 4064) = .ok (slotId, p')) := by
  have made : create 0 0 = .ok (init 0) := rfl
  have first : PageStep (init 0) (.insert [7, 8], .ok (some 0)) ((init 0).addRecord [7, 8]) := rfl
  have second : PageStep ((init 0).addRecord [7, 8]) (.insert [9], .ok (some 1))
      (((init 0).addRecord [7, 8]).addRecord [9]) := rfl
  have deleted : PageStep (((init 0).addRecord [7, 8]).addRecord [9]) (.delete 0, .ok none)
      ((((init 0).addRecord [7, 8]).addRecord [9]).withoutRecord 0 (4094, 2)) := rfl
  obtain ⟨_, _, _, _, _, _, _, room⟩ :=
    space_never_lost made (.snoc (.snoc (.snoc (.nil _) first) second) deleted)
  refine ⟨_, _, made, rfl, by decide +kernel, (room _ (by decide +kernel)).mpr ?_, ?_⟩
  · decide +kernel
  · rw [room _ (by decide +kernel)]
    decide +kernel

end CachyDb.Page
