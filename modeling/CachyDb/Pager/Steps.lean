import CachyDb.Lib.Transition
import CachyDb.Pager.Changes
import CachyDb.Pager.Codec

set_option autoImplicit false

/-! A page at work is a list of optional byte strings, its bytes say all about it, and they
say nothing of what was deleted. -/

namespace CachyDb.Page

open ByteString Crc32 Transition

inductive Step
  | insert (payload : Bytes)
  | delete (slotId : Int)
  | compact
  | serialise
  | reload
  deriving DecidableEq

/-- What a step raises, or the slot id that it returns, if any. -/
abbrev Result := Except Error (Option Nat)

/-- `to_bytes` has filled in the directory when the header of a page cannot be packed. -/
def withDirectory (p : Page) : Page :=
  { p with data := p.data.write headerSize (slotBytes p.slots) }

/-- A step that raises leaves the page behind as well. The page of a `reload` is the one
that was read back. -/
def perform (p : Page) : Step → Result × Page
  | .insert payload =>
      match p.insertRecord payload with
      | .error e => (.error e, p)
      | .ok (slotId, p') => (.ok (some slotId), p')
  | .delete slotId =>
      match p.deleteRecord slotId with
      | .error e => (.error e, p)
      | .ok p' => (.ok none, p')
  | .compact => (.ok none, p.compact)
  | .serialise =>
      match p.toBytes with
      | .error e => (.error e, p.withDirectory)
      | .ok (_, p') => (.ok none, p')
  | .reload =>
      match p.toBytes with
      | .error e => (.error e, p.withDirectory)
      | .ok (raw, p') =>
          match fromBytes raw with
          | .error e => (.error e, p')
          | .ok loaded => (.ok none, loaded)

def PageStep (p : Page) (event : Step × Result) (p' : Page) : Prop :=
  p.perform event.1 = (event.2, p')

/-- What a step does to a list of optional byte strings. -/
inductive ListStep : List (Option Bytes) → Step × Result → List (Option Bytes) → Prop
  | insert (records : List (Option Bytes)) (payload : Bytes) (nonempty : payload ≠ []) :
      ListStep records (.insert payload, .ok (some records.length)) (records ++ [some payload])
  | insertEmpty (records : List (Option Bytes)) :
      ListStep records (.insert [], .error .emptyPayload) records
  | insertFull (records : List (Option Bytes)) (payload : Bytes) (nonempty : payload ≠ []) :
      ListStep records (.insert payload, .error .overflow) records
  | delete (records : List (Option Bytes)) (slotId : Nat) (payload : Bytes)
      (held : records[slotId]? = some (some payload)) :
      ListStep records (.delete slotId, .ok none) (records.set slotId none)
  | deleteOutside (records : List (Option Bytes)) (slotId : Int)
      (outside : slotId < 0 ∨ (records.length : Int) ≤ slotId) :
      ListStep records (.delete slotId, .error .invalidSlot) records
  | deleteTwice (records : List (Option Bytes)) (slotId : Nat)
      (deleted : records[slotId]? = some none) :
      ListStep records (.delete slotId, .error .deletedSlot) records
  | keep (records : List (Option Bytes)) (step : Step)
      (quiet : step = .compact ∨ step = .serialise ∨ step = .reload) :
      ListStep records (step, .ok none) records

/-- `get_record` on such a list. -/
def readList (records : List (Option Bytes)) (slotId : Nat) : Except Error (Option Bytes) :=
  match records[slotId]? with
  | none => .error .invalidSlot
  | some record => .ok record

/-- A page with a number of four bytes. -/
structure Ready (p : Page) : Prop where
  sound : p.Sound
  small : p.pageId < 256 ^ 4

section

variable {p p' : Page}

/-- A page is what its bytes from `lowerOffset` on are. -/
theorem Sound.withData (sound : p.Sound) {data : File} (size : data.size = p.data.size)
    (same : ∀ i, p.lowerOffset ≤ i → data.byte i = p.data.byte i) :
    Sound { p with data := data } ∧ activeRecords { p with data := data } = p.activeRecords := by
  have formed := sound.formed
  have ⟨width, directory, ordered, bound, flagged, inside⟩ := formed
  refine ⟨⟨⟨size.trans width, directory, ordered, bound, flagged, inside⟩, sound.descending, ?_⟩, ?_⟩
  · intro i above free
    rw [same i above]
    exact sound.clean i above free
  · apply List.map_congr_left
    intro slot member
    by_cases active : Active slot
    · have area := formed.area member active
      apply content_congr size
      intro i covered
      simp only [Covers] at covered
      exact same i (by omega)
    · rw [not_active.mp active]
      rfl

theorem Sound.seal (sound : p.Sound) :
    Sound { p with data := p.sealed } ∧
      activeRecords { p with data := p.sealed } = p.activeRecords := by
  have formed := sound.formed
  exact sound.withData (formed.sealed_size.trans formed.width.symm) fun _ above =>
    formed.sealed_byte above

/-- The directory lies below the records. -/
theorem Sound.withDirectory (sound : p.Sound) :
    p.withDirectory.Sound ∧ p.withDirectory.activeRecords = p.activeRecords := by
  have ⟨width, directory, ordered, bound, _, _⟩ := sound.formed
  apply sound.withData
  · apply write_size_inside
    rw [slotBytes_length]
    omega
  · intro i above
    apply File.write_byte_outside
    rw [slotBytes_length]
    omega

/-- A page goes to bytes, and comes back with the buffer that the serialisation filled in. -/
theorem Ready.bytes (ready : p.Ready) :
    p.toBytes = .ok (p.sealed.read 0 p.sealed.size, { p with data := p.sealed }) ∧
      fromBytes (p.sealed.read 0 p.sealed.size) = .ok { p with data := p.sealed } := by
  have packs := ready.sound.formed.packable ready.small
  exact ⟨if_pos packs, ready.sound.formed.fromBytes_sealed packs⟩

theorem toBytes_large (large : ¬ p.pageId < 256 ^ 4) : p.toBytes = .error .unpackable :=
  if_neg fun packs => large packs.1

theorem deleteRecord_cases (p : Page) (slotId : Int) :
    (slotId < 0 ∨ (p.activeRecords.length : Int) ≤ slotId) ∧
        p.deleteRecord slotId = .error .invalidSlot ∨
      ∃ i slot, slotId = Int.ofNat i ∧ p.slots[i]? = some slot ∧
        (slot = (0, 0) ∧ p.deleteRecord slotId = .error .deletedSlot ∨
          Active slot ∧ p.deleteRecord slotId = .ok (p.withoutRecord i slot)) := by
  rw [activeRecords, List.length_map]
  by_cases outside : slotId < 0 ∨ (p.slots.length : Int) ≤ slotId
  · exact Or.inl ⟨outside, if_pos outside⟩
  · right
    have inside : slotId.toNat < p.slots.length := by omega
    have known := List.getElem?_eq_getElem inside
    refine ⟨slotId.toNat, p.slots[slotId.toNat], by simp; omega, known, ?_⟩
    simp only [deleteRecord, if_neg outside, known]
    by_cases active : Active p.slots[slotId.toNat]
    · right
      refine ⟨active, if_neg ?_⟩
      rintro ⟨offset, length⟩
      exact active (Prod.ext offset length)
    · left
      have deleted := not_active.mp active
      exact ⟨deleted, if_pos (by rw [deleted]; exact ⟨rfl, rfl⟩)⟩

/-- What one step does to a page and to the list that it is. Only a page whose number is too
large cannot be written out. -/
theorem Sound.step (sound : p.Sound) {event : Step × Result} (step : PageStep p event p') :
    p'.Sound ∧ p'.pageId = p.pageId ∧ p'.flags = p.flags ∧
      (ListStep p.activeRecords event p'.activeRecords ∨
        256 ^ 4 ≤ p.pageId ∧ (event.1 = .serialise ∨ event.1 = .reload) ∧
          p' = p.withDirectory) := by
  obtain ⟨action, result⟩ := event
  have done : p.perform action = (result, p') := step
  cases action with
  | insert payload =>
      by_cases empty : payload = []
      · subst empty
        cases done
        exact ⟨sound, rfl, rfl, Or.inl (ListStep.insertEmpty _)⟩
      · have positive : payload.length ≠ 0 := fun zero => empty (List.eq_nil_of_length_eq_zero zero)
        cases space : p.hasSpaceFor payload.length with
        | false =>
            simp only [perform, insertRecord, positive, space, Bool.false_eq_true, ↓reduceIte] at done
            cases done
            exact ⟨sound, rfl, rfl, Or.inl (ListStep.insertFull _ _ empty)⟩
        | true =>
            obtain ⟨sound', records⟩ := sound.addRecord empty space
            simp only [perform, insertRecord, positive, space, ↓reduceIte] at done
            cases done
            rw [records]
            have stored := ListStep.insert p.activeRecords payload empty
            rw [activeRecords, List.length_map] at stored
            exact ⟨sound', rfl, rfl, Or.inl stored⟩
  | delete slotId =>
      rcases p.deleteRecord_cases slotId with ⟨outside, raised⟩ | ⟨i, slot, rfl, known, here⟩
      · simp only [perform, raised] at done
        cases done
        exact ⟨sound, rfl, rfl, Or.inl (ListStep.deleteOutside _ _ outside)⟩
      · have held : p.activeRecords[i]? = some (p.content slot) := by
          rw [activeRecords, List.getElem?_map, known]
          rfl
        rcases here with ⟨rfl, raised⟩ | ⟨active, deleted⟩
        · simp only [perform, raised] at done
          cases done
          exact ⟨sound, rfl, rfl, Or.inl (ListStep.deleteTwice _ _ held)⟩
        · obtain ⟨sound', records⟩ := sound.withoutRecord known active
          simp only [perform, deleted] at done
          cases done
          rw [content_active p active] at held
          rw [records]
          exact ⟨sound', rfl, rfl, Or.inl (ListStep.delete _ _ _ held)⟩
  | compact =>
      obtain ⟨sound', records, _, _, pageId, flags⟩ := sound.compact
      cases done
      rw [records]
      exact ⟨sound', pageId, flags, Or.inl (ListStep.keep _ _ (Or.inl rfl))⟩
  | serialise =>
      by_cases small : p.pageId < 256 ^ 4
      · obtain ⟨bytes, _⟩ := Ready.bytes ⟨sound, small⟩
        obtain ⟨sealed, same⟩ := sound.seal
        simp only [perform, bytes] at done
        cases done
        rw [same]
        exact ⟨sealed, rfl, rfl, Or.inl (ListStep.keep _ _ (Or.inr (Or.inl rfl)))⟩
      · simp only [perform, toBytes_large small] at done
        cases done
        exact ⟨sound.withDirectory.1, rfl, rfl, Or.inr ⟨by omega, Or.inl rfl, rfl⟩⟩
  | reload =>
      by_cases small : p.pageId < 256 ^ 4
      · obtain ⟨bytes, loads⟩ := Ready.bytes ⟨sound, small⟩
        obtain ⟨sealed, same⟩ := sound.seal
        simp only [perform, bytes, loads] at done
        cases done
        rw [same]
        exact ⟨sealed, rfl, rfl, Or.inl (ListStep.keep _ _ (Or.inr (Or.inr rfl)))⟩
      · simp only [perform, toBytes_large small] at done
        cases done
        exact ⟨sound.withDirectory.1, rfl, rfl, Or.inr ⟨by omega, Or.inr rfl, rfl⟩⟩

theorem Sound.perform (sound : p.Sound) (step : Step) : (p.perform step).2.Sound := by
  have taken : PageStep p (step, (p.perform step).1) (p.perform step).2 := rfl
  exact (sound.step taken).1

theorem Ready.step (ready : p.Ready) {event : Step × Result} (step : PageStep p event p') :
    p'.Ready ∧ ListStep p.activeRecords event p'.activeRecords := by
  obtain ⟨sound', pageId, _, listed⟩ := ready.sound.step step
  have small := ready.small
  rw [← pageId] at small
  exact ⟨⟨sound', small⟩, listed.resolve_right fun large => by omega⟩

theorem create_ready {pageId flags : Nat} (made : create pageId flags = .ok p)
    (small : pageId < 256 ^ 4) : p.Ready ∧ p.activeRecords = [] := by
  obtain ⟨sound, same, _, nothing⟩ := create_sound made
  exact ⟨⟨sound, by rw [same]; exact small⟩, nothing⟩

theorem Ready.run (ready : p.Ready) {events : List (Step × Result)}
    (run : Run PageStep p events p') :
    p'.Ready ∧ Run ListStep p.activeRecords events p'.activeRecords := by
  induction run with
  | nil => exact ⟨ready, Run.nil _⟩
  | snoc _ last ih =>
      obtain ⟨before, listed⟩ := ih
      obtain ⟨after, step⟩ := before.step last
      exact ⟨after, Run.snoc listed step⟩

end

/-- Whatever is inserted, deleted, compacted and written out, a page is a list of optional
byte strings. -/
theorem page_refines_list {pageId flags : Nat} (small : pageId < 256 ^ 4) {created p : Page}
    (made : create pageId flags = .ok created) {events : List (Step × Result)}
    (run : Run PageStep created events p) :
    ∃ records, Run ListStep [] events records ∧
      ∀ slotId, p.getRecord slotId = readList records slotId := by
  obtain ⟨ready, nothing⟩ := create_ready made small
  have listed := (ready.run run).2
  rw [nothing] at listed
  exact ⟨p.activeRecords, listed, p.getRecord_eq⟩

theorem page_refines_list_of_two :
    ∃ created p : Page, create 0 0 = .ok created ∧ p.getRecord 0 = .ok none ∧
      ∃ records, Run ListStep [] [(.insert [7], .ok (some 0)), (.delete 0, .ok none)] records ∧
        ∀ slotId, p.getRecord slotId = readList records slotId := by
  have inserted : PageStep (init 0) (.insert [7], .ok (some 0)) ((init 0).addRecord [7]) := rfl
  have deleted : PageStep ((init 0).addRecord [7]) (.delete 0, .ok none)
      (((init 0).addRecord [7]).withoutRecord 0 (4095, 1)) := rfl
  have small : 0 < 256 ^ 4 := by decide
  have made : create 0 0 = .ok (init 0) := rfl
  exact ⟨_, _, made, rfl, page_refines_list small made (.snoc (.snoc (.nil _) inserted) deleted)⟩

/-- The page that is read back from the bytes of a page is this page, and the bytes that
are written out for a page that was read are those that it was read from. -/
theorem page_codec_bijective :
    (∀ pageId flags created events p, pageId < 256 ^ 4 → create pageId flags = .ok created →
      Run PageStep created events p → ∃ raw sealed loaded, p.toBytes = .ok (raw, sealed) ∧
        fromBytes raw = .ok loaded ∧ loaded.pageId = p.pageId ∧ loaded.flags = p.flags ∧
        loaded.lowerOffset = p.lowerOffset ∧ loaded.upperOffset = p.upperOffset ∧
        loaded.slots = p.slots ∧ ∀ slotId, loaded.getRecord slotId = p.getRecord slotId) ∧
    ∀ raw p, fromBytes raw = .ok p → ∃ sealed, p.toBytes = .ok (raw, sealed) := by
  constructor
  · intro pageId flags created events p small made run
    obtain ⟨ready, _⟩ := create_ready made small
    have ready' := (ready.run run).1
    obtain ⟨bytes, loads⟩ := ready'.bytes
    exact ⟨_, _, _, bytes, loads, rfl, rfl, rfl, rfl, rfl,
      fun slotId => ready'.sound.formed.getRecord_sealed slotId⟩
  · exact fun raw p read => ⟨p, toBytes_fromBytes read⟩

/-- A page with a tombstone and a record, written out, read back, and written out again. -/
theorem page_codec_bijective_of_two : ∃ created p raw sealed loaded again,
    create 0 0 = .ok created ∧ Run PageStep created [(.insert [7], .ok (some 0)),
      (.insert [8, 9], .ok (some 1)), (.delete 0, .ok none)] p ∧
    p.toBytes = .ok (raw, sealed) ∧ fromBytes raw = .ok loaded ∧ loaded.slots = [(0, 0), (4093, 2)] ∧
    loaded.getRecord 0 = .ok none ∧ loaded.getRecord 1 = .ok (some [8, 9]) ∧
    loaded.toBytes = .ok (raw, again) := by
  have made : create 0 0 = .ok (init 0) := rfl
  have first : PageStep (init 0) (.insert [7], .ok (some 0)) ((init 0).addRecord [7]) := rfl
  have second : PageStep ((init 0).addRecord [7]) (.insert [8, 9], .ok (some 1))
      (((init 0).addRecord [7]).addRecord [8, 9]) := rfl
  have deleted : PageStep (((init 0).addRecord [7]).addRecord [8, 9]) (.delete 0, .ok none)
      ((((init 0).addRecord [7]).addRecord [8, 9]).withoutRecord 0 (4095, 1)) := rfl
  have run := (((Run.nil _).snoc first).snoc second).snoc deleted
  obtain ⟨reads, writes⟩ := page_codec_bijective
  obtain ⟨raw, sealed, loaded, bytes, read, _, _, _, _, slots, records⟩ :=
    reads 0 0 _ _ _ (by decide) made run
  obtain ⟨again, same⟩ := writes raw loaded read
  exact ⟨_, _, raw, sealed, loaded, again, made, run, bytes, read, slots, (records 0).trans rfl,
    (records 1).trans rfl, same⟩

end CachyDb.Page
