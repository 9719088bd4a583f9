import CachyDb.Lib.Memo
import CachyDb.Storage.Router

set_option autoImplicit false

/-! The memo of unpacked records in a page. Readers hold the lock of the table, but the flush
that fills the page does not, so that its inserts come in between their steps. -/

namespace CachyDb

open ByteString Transition

namespace Page

/-- What `_get_page_slot_record` makes of a slot that is not in `cached_metadata`; without a
result when `get_record` raises. -/
def readSlot (json : Json) (page : Page) (slot : Nat) : Option (Option (String × Value)) :=
  match page.getRecord slot with
  | .ok payload => some (payload.bind fun packed => (unpackRecord json packed).toOption)
  | .error _ => none

/-- `insert_record` up to the clearing of `cached_metadata`. -/
def place (page : Page) (payload : Bytes) : Option Page :=
  (page.insertRecord payload).toOption.map Prod.snd

theorem readSlot_record {json : Json} {page : Page} {slot : Nat}
    {record : Option (String × Value)} (read : page.readSlot json slot = some record) :
    record = Table.pageSlotRecord json page slot := by
  unfold readSlot at read
  unfold Table.pageSlotRecord
  cases got : page.getRecord slot with
  | error e =>
      rw [got] at read
      cases read
  | ok payload =>
      rw [got] at read
      cases read
      cases payload with
      | none => rfl
      | some packed => rfl

/-- The slots of a page keep their records. -/
theorem place_grows (json : Json) : Memo.Grows (readSlot json) place WellFormed := by
  intro page payload page' formed placed
  obtain ⟨⟨slot, grown⟩, inserted, rfl⟩ := Option.map_eq_some_iff.mp placed
  have done : page.insertRecord payload = .ok (slot, grown) := by
    cases outcome : page.insertRecord payload with
    | error e =>
        rw [outcome] at inserted
        cases inserted
    | ok made =>
        rw [outcome] at inserted
        cases inserted
        rfl
  have nonempty : payload ≠ [] := by
    rintro rfl
    cases done
  have space : page.hasSpaceFor payload.length = true := by
    by_contra full
    rw [insertRecord, if_neg (fun zero => nonempty (List.eq_nil_of_length_eq_zero zero)),
      if_neg full] at done
    cases done
  obtain ⟨made, inserted', shape, _, _, _, kept⟩ := formed.insertRecord nonempty space
  cases done.symm.trans inserted'
  refine ⟨shape, fun other record read => ?_⟩
  unfold readSlot at read ⊢
  cases got : page.getRecord other with
  | error e =>
      rw [got] at read
      cases read
  | ok found =>
      have inside : other < page.slots.length := by
        by_contra outside
        rw [getRecord, List.getElem?_eq_none (Nat.le_of_not_lt outside)] at got
        cases got
      rw [kept other inside]
      exact read

end Page

/-- However the readers of a page and the flushes that fill it come in between each other: what a
reader gets for a slot is the record in the slot. It gets one, unless the memo is cleared between
its look for the slot and its access. -/
theorem Table.memo_agrees (json : Json) {page : Page} (formed : page.WellFormed)
    {events : List (Memo.Event Bytes Nat)}
    {s : Memo.State Page Nat (Option (String × Value))}
    (run : Run (Memo.Step (Page.readSlot json) Page.place) (Memo.start page) events s) :
    (∀ reader slot record, s.readers reader = .returned slot record →
      record = pageSlotRecord json s.object slot) ∧
    (Run (Guarded (Memo.Step (Page.readSlot json) Page.place) Memo.Undisturbed) (Memo.start page)
        events s → ∀ reader slot, s.readers reader ≠ .interrupted slot) := by
  have sound := Memo.run_sound (Page.place_grows json) formed run
  refine ⟨fun reader slot record known => ?_, fun undisturbed => ?_⟩
  · exact Page.readSlot_record (sound.returned reader slot record known)
  · exact (Memo.run_steady undisturbed).finished

/-- A record comes into the page and another one behind it, while two readers look at the first
slot. -/
def twoReaders : List (Memo.Event Bytes Nat) :=
  [.change [0, 1, 0x61, 0x22, 0x78, 0x22], .clear, .test 0 0, .fetch 0,
    .change [0, 1, 0x62, 0x22, 0x79, 0x22], .store 0, .test 1 0, .take 1, .clear]

/-- The second reader gets from the memo what the first one has stored there. -/
theorem Table.memo_agrees_two_readers :
    ∃ s record, Run (Memo.Step (Page.readSlot wordJson) Page.place) (Memo.start (Page.init 0))
        twoReaders s ∧
      s.readers 1 = .returned 0 record ∧ record = pageSlotRecord wordJson s.object 0 ∧
      (record.bind fun both => wordJson.dumps both.2) = some [0x22, 0x78, 0x22] := by
  have outcome : (play (Memo.perform (Page.readSlot wordJson) Page.place) (Memo.start (Page.init 0))
      twoReaders).bind (fun s => (s.readers 1).result.bind fun ended =>
        (ended.2.bind fun both => wordJson.dumps both.2).map fun text => (ended.1, text)) =
      some (0, [0x22, 0x78, 0x22]) := by decide +kernel
  obtain ⟨s, played, outcome⟩ := Option.bind_eq_some_iff.mp outcome
  obtain ⟨⟨slot, record⟩, ended, outcome⟩ := Option.bind_eq_some_iff.mp outcome
  obtain ⟨text, dumped, same⟩ := Option.map_eq_some_iff.mp outcome
  cases same
  have returned := Memo.Reader.of_result ended
  have run := play_run played
  exact ⟨s, record, run, returned,
    (Table.memo_agrees wordJson (Page.init_wellFormed 0) run).1 1 0 record returned, dumped⟩

/-- A clearing between the look and the access. -/
example : ((play (Memo.perform (Page.readSlot wordJson) Page.place) (Memo.start (Page.init 0))
    [.change [0, 1, 0x61, 0x22, 0x78, 0x22], .clear, .test 0 0, .fetch 0, .store 0, .test 1 0,
      .change [0, 1, 0x62, 0x22, 0x79, 0x22], .clear, .take 1]).map fun s =>
        (s.readers 1).result.isSome) = some false := by decide +kernel

end CachyDb
