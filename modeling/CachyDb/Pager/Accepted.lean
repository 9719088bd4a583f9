import CachyDb.Pager.Object
import CachyDb.Pager.Space

set_option autoImplicit false

/-! What validation promises to the operations that follow. The slots of an accepted page
may share bytes: deletion then zeroes what another slot holds, and compaction, which gives
each slot bytes of its own, may need more than the page has. -/

namespace CachyDb.Page

open ByteString
open Pager (Operation)

/-- The free area, when a record and its slot fit in. -/
def insertable (p : Page) : Nat :=
  if slotSize < p.upperOffset - p.lowerOffset then p.upperOffset - p.lowerOffset else 0

/-- Two slots share zeros only, and each slot can be given bytes of its own, also when the
free area has been filled. -/
structure Safe (p : Page) : Prop where
  shared : ∀ (i j : Nat) (slot other : Nat × Nat) (byte : Nat), i ≠ j →
    p.slots[i]? = some slot → p.slots[j]? = some other → Covers slot byte →
    Covers other byte → p.data.byte byte = 0
  room : p.lowerOffset + (p.slots.map Prod.snd).sum + p.insertable ≤ pageSize

section

variable {p : Page}

theorem insertable_le (p : Page) : p.insertable ≤ p.upperOffset - p.lowerOffset := by
  unfold insertable
  split <;> omega

theorem Covers.active {slot : Nat × Nat} {byte : Nat} (covered : Covers slot byte) :
    Active slot := by
  rintro rfl
  simp only [Covers] at covered
  omega

/-- Slots that lie one below the other share nothing. -/
theorem Sound.safe (sound : p.Sound) : p.Safe := by
  have formed := sound.formed
  have ordered := formed.ordered
  have room := sound.room
  rw [formed.total_records] at room
  refine ⟨?_, ?_⟩
  · intro i j slot other byte different first second covered covered'
    exact absurd (sound.covers_one first second covered covered') different
  · have insertable := p.insertable_le
    omega

/-- A new record lies below the others, and takes from the free area what it needs. -/
theorem Safe.addRecord (safe : p.Safe) (formed : p.WellFormed) {payload : Bytes}
    (nonempty : payload ≠ []) (space : p.hasSpaceFor payload.length = true) :
    (p.addRecord payload).Safe := by
  have fits : p.lowerOffset + (slotSize + payload.length) ≤ p.upperOffset := by
    simpa [hasSpaceFor] using space
  have positive : 0 < payload.length := List.length_pos_iff.mpr nonempty
  have above {i : Nat} {slot : Nat × Nat} {byte : Nat} (known : p.slots[i]? = some slot)
      (covered : Covers slot byte) : p.upperOffset ≤ byte :=
    Nat.le_trans (formed.area (List.mem_of_getElem? known) covered.active).1 covered.1
  have known {i : Nat} {slot : Nat × Nat} (there : (p.addRecord payload).slots[i]? = some slot) :
      p.slots[i]? = some slot ∨
        i = p.slots.length ∧ slot = (p.upperOffset - payload.length, payload.length) := by
    simp only [Page.addRecord] at there
    rcases Nat.lt_trichotomy i p.slots.length with old | rfl | past
    · rw [List.getElem?_append_left old] at there
      exact Or.inl there
    · rw [List.getElem?_concat_length, Option.some.injEq] at there
      exact Or.inr ⟨rfl, there.symm⟩
    · rw [List.getElem?_eq_none (by simp; omega)] at there
      cases there
  have below {byte : Nat} (covered : Covers (p.upperOffset - payload.length, payload.length) byte) :
      byte < p.upperOffset := by
    simp only [Covers] at covered
    omega
  refine ⟨?_, ?_⟩
  · intro i j slot other byte different first second covered covered'
    rcases known first with first | ⟨rfl, rfl⟩
    · rcases known second with second | ⟨rfl, rfl⟩
      · rw [← safe.shared i j slot other byte different first second covered covered']
        apply File.write_byte_outside
        have high := above first covered
        omega
      · have high := above first covered
        have low := below covered'
        omega
    · rcases known second with second | ⟨rfl, rfl⟩
      · have high := above second covered'
        have low := below covered
        omega
      · exact absurd rfl different
  · have room := safe.room
    have before : p.insertable = p.upperOffset - p.lowerOffset := if_pos (by omega)
    have after := (p.addRecord payload).insertable_le
    simp only [Page.addRecord, List.map_append, List.map_singleton, List.sum_append,
      List.sum_singleton] at after ⊢
    omega

theorem sum_set_le (slots : List (Nat × Nat)) (i : Nat) :
    ((slots.set i (0, 0)).map Prod.snd).sum ≤ (slots.map Prod.snd).sum := by
  induction slots generalizing i with
  | nil => simp
  | cons slot rest ih =>
      cases i with
      | zero => simp
      | succ i => simpa using ih i

theorem withoutRecord_slot {i j : Nat} {slot other : Nat × Nat} {byte : Nat}
    (there : (p.withoutRecord i slot).slots[j]? = some other) (covered : Covers other byte) :
    j ≠ i ∧ p.slots[j]? = some other := by
  simp only [Page.withoutRecord] at there
  by_cases here : i = j
  · subst here
    rw [List.getElem?_set] at there
    have deleted : other = (0, 0) := by
      simp only [↓reduceIte] at there
      split at there
      · exact (Option.some.inj there).symm
      · cases there
    exact absurd deleted covered.active
  · rw [List.getElem?_set_ne here] at there
    exact ⟨fun same => here same.symm, there⟩

theorem Safe.withoutRecord (safe : p.Safe) (i : Nat) (slot : Nat × Nat) :
    (p.withoutRecord i slot).Safe := by
  refine ⟨?_, ?_⟩
  · intro a b first second byte different there there' covered covered'
    by_cases zeroed : Covers slot byte
    · exact p.withoutRecord_byte_inside i zeroed
    · rw [p.withoutRecord_byte_outside i zeroed]
      exact safe.shared a b first second byte different (withoutRecord_slot there covered).2
        (withoutRecord_slot there' covered').2 covered covered'
  · have room := safe.room
    have sum := sum_set_le p.slots i
    have free : (p.withoutRecord i slot).insertable = p.insertable := rfl
    rw [free]
    simp only [Page.withoutRecord]
    omega

/-- What a deletion zeroes of another slot is zero already. -/
theorem Safe.withoutRecord_content (safe : p.Safe) (formed : p.WellFormed) {i j : Nat}
    {slot other : Nat × Nat} (known : p.slots[i]? = some slot) (active : Active slot)
    (there : p.slots[j]? = some other) (different : i ≠ j) :
    (p.withoutRecord i slot).content other = p.content other := by
  apply content_congr (formed.withoutRecord known active).2
  intro byte covered
  by_cases zeroed : Covers slot byte
  · rw [p.withoutRecord_byte_inside i zeroed,
      safe.shared i j slot other byte different known there zeroed covered]
  · exact p.withoutRecord_byte_outside i zeroed

theorem Safe.total_le (safe : p.Safe) (formed : p.WellFormed) :
    p.lowerOffset + total p.activeRecords ≤ pageSize := by
  have room := safe.room
  rw [formed.total_records]
  omega

/-- One operation on a safe page. -/
theorem Safe.perform (safe : p.Safe) (formed : p.WellFormed) (operation : Operation) :
    (p.perform operation.step).2.WellFormed ∧ (p.perform operation.step).2.Safe ∧
      ∀ slotId : Nat, ¬ (Pager.ofPage p).AimedAt slotId operation →
        (p.perform operation.step).2.getRecord slotId = p.getRecord slotId := by
  cases operation with
  | insert payload =>
      simp only [Operation.step, Page.perform]
      by_cases nonempty : payload = []
      · subst nonempty
        exact ⟨formed, safe, fun _ _ => rfl⟩
      · by_cases space : p.hasSpaceFor payload.length = true
        · obtain ⟨p', made, formed', _, length, _, kept⟩ := formed.insertRecord nonempty space
          have same : p' = p.addRecord payload := by
            have positive : payload.length ≠ 0 := fun zero =>
              nonempty (List.eq_nil_of_length_eq_zero zero)
            simp only [Page.insertRecord, positive, space, ↓reduceIte, Except.ok.injEq,
              Prod.mk.injEq, true_and] at made
            exact made.symm
          rw [made]
          refine ⟨formed', same ▸ safe.addRecord formed nonempty space, ?_⟩
          intro slotId apart
          have other : slotId ≠ p.slots.length := by
            simpa [Pager.AimedAt, Pager.ofPage, Int.natCast_inj] using apart
          by_cases old : slotId < p.slots.length
          · exact kept slotId old
          · simp only [getRecord]
            rw [List.getElem?_eq_none (by omega), List.getElem?_eq_none (by omega)]
        · have full : p.insertRecord payload = .error .overflow := by
            simp [Page.insertRecord, nonempty, space]
          rw [full]
          exact ⟨formed, safe, fun _ _ => rfl⟩
  | delete slotId =>
      simp only [Operation.step, Page.perform]
      rcases p.deleteRecord_cases slotId with ⟨_, failed⟩ | ⟨i, slot, rfl, known, done⟩
      · rw [failed]
        exact ⟨formed, safe, fun _ _ => rfl⟩
      · rcases done with ⟨_, failed⟩ | ⟨active, deleted⟩
        · rw [failed]
          exact ⟨formed, safe, fun _ _ => rfl⟩
        · rw [deleted]
          refine ⟨(formed.withoutRecord known active).1, safe.withoutRecord i slot, ?_⟩
          intro j apart
          have different : i ≠ j := by
            rintro rfl
            exact apart rfl
          have listed : (p.withoutRecord i slot).slots[j]? = p.slots[j]? :=
            List.getElem?_set_ne different
          simp only [getRecord_eq, activeRecords, List.getElem?_map, listed]
          cases there : p.slots[j]? with
          | none => rfl
          | some other =>
              simp only [Option.map_some,
                safe.withoutRecord_content formed known active there different]
  | compact =>
      obtain ⟨sound, records, _⟩ := formed.compact (safe.total_le formed)
      refine ⟨sound.formed, sound.safe, fun slotId _ => ?_⟩
      show p.compact.getRecord slotId = p.getRecord slotId
      rw [getRecord_eq, getRecord_eq, records]

theorem Safe.keeps (safe : p.Safe) (formed : p.WellFormed) (operations : List Operation) :
    (Pager.ofPage p).Keeps operations := by
  induction operations generalizing p with
  | nil => exact Int.ofNat_le.mpr formed.ordered
  | cons operation rest ih =>
      have room := safe.total_le formed
      obtain ⟨formed', safe', kept⟩ := safe.perform formed operation
      have step := @Pager.ofPage_perform p formed operation fun _ => by omega
      refine ⟨Int.ofNat_le.mpr formed.ordered, ?_, ?_⟩
      · intro slotId apart
        rcases Int.lt_or_le slotId 0 with negative | natural
        · rw [Pager.getRecord_negative _ negative, Pager.getRecord_negative _ negative]
        · obtain ⟨i, rfl⟩ := Int.eq_ofNat_of_zero_le natural
          rw [step, Pager.ofPage_getRecord, Pager.ofPage_getRecord]
          exact kept i apart
      · rw [step]
        exact ih safe' formed'

/-- Deleting one of two slots shows which bytes they share. -/
theorem shared_of_keeps (formed : p.WellFormed)
    (keeps : ∀ operations, (Pager.ofPage p).Keeps operations) (i j : Nat)
    (slot other : Nat × Nat) (byte : Nat) (different : i ≠ j) (known : p.slots[i]? = some slot)
    (there : p.slots[j]? = some other) (covered : Covers slot byte)
    (covered' : Covers other byte) : p.data.byte byte = 0 := by
  have active := covered.active
  obtain ⟨_, kept, _⟩ := keeps [.delete i]
  have same := kept j fun aimed => different (Int.ofNat_inj.mp aimed).symm
  rw [Pager.ofPage_perform formed (fun compacts => by cases compacts), Pager.ofPage_getRecord,
    Pager.ofPage_getRecord] at same
  have deleted : (p.perform (.delete i)).2 = p.withoutRecord i slot := by
    rcases p.deleteRecord_cases i with ⟨outside, _⟩ | ⟨i', slot', same_id, known', done⟩
    · have inside := (List.getElem?_eq_some_iff.mp known).1
      rw [activeRecords, List.length_map] at outside
      omega
    · cases Int.ofNat_inj.mp same_id
      rw [known, Option.some.injEq] at known'
      subst known'
      rcases done with ⟨none_there, _⟩ | ⟨_, done⟩
      · exact absurd none_there active
      · simp only [Page.perform, done]
  have listed : (p.withoutRecord i slot).slots[j]? = p.slots[j]? := List.getElem?_set_ne different
  rw [show (Operation.delete i).step = Step.delete i from rfl, deleted] at same
  simp only [getRecord_eq, activeRecords, List.getElem?_map, listed, there, Option.map_some,
    Except.ok.injEq] at same
  rw [content_active _ covered'.active, content_active _ covered'.active, Option.some.injEq] at same
  have area := formed.area (List.mem_of_getElem? there) covered'.active
  have inside : byte - other.1 < (p.data.read other.1 other.2).length := by
    rw [File.read_length, formed.width]
    have bounds := covered'
    simp only [Covers] at bounds
    omega
  have bytes := congrArg (fun record : Bytes => record[byte - other.1]?) same
  rw [List.getElem?_eq_getElem inside, List.getElem?_eq_getElem (by rw [same]; exact inside),
    Option.some.injEq, File.read_getElem, File.read_getElem, Nat.add_sub_cancel' covered'.1,
    p.withoutRecord_byte_inside i covered] at bytes
  exact bytes.symm

/-- Compaction of an object of a page. -/
theorem room_of_keeps (formed : p.WellFormed) (keeps : (Pager.ofPage p).Keeps [.compact]) :
    p.lowerOffset + (p.slots.map Prod.snd).sum ≤ pageSize := by
  have ordered : ((Pager.ofPage p).compact.lowerOffset : Int) ≤
    (Pager.ofPage p).compact.upperOffset := keeps.2.2
  obtain ⟨upper, lower⟩ := (Pager.ofPage p).compact_offsets
  rw [upper, lower, Pager.ofPage_activeRecords, formed.total_records] at ordered
  have same : (Pager.ofPage p).lowerOffset = p.lowerOffset := rfl
  omega

theorem safe_of_keeps (formed : p.WellFormed)
    (keeps : ∀ operations, (Pager.ofPage p).Keeps operations) : p.Safe := by
  refine ⟨shared_of_keeps formed keeps, ?_⟩
  unfold insertable
  split
  · rename_i free
    -- The payload that fills the free area, with its slot.
    obtain ⟨payload, filling⟩ : ∃ payload : Bytes,
        payload.length + slotSize = p.upperOffset - p.lowerOffset :=
      ⟨zeros (p.upperOffset - p.lowerOffset - slotSize), by rw [zeros_length]; omega⟩
    have nonempty : payload ≠ [] := by
      rintro rfl
      simp only [List.length_nil] at filling
      omega
    have space : p.hasSpaceFor payload.length = true := by
      simp only [hasSpaceFor, decide_eq_true_eq]
      omega
    have positive : payload.length ≠ 0 := fun zero => nonempty (List.eq_nil_of_length_eq_zero zero)
    have filled : (p.perform (.insert payload)).2 = p.addRecord payload := by
      simp only [Page.perform, Page.insertRecord, positive, space, ↓reduceIte]
    have step := @Pager.ofPage_perform p formed (.insert payload) fun compacts => by cases compacts
    rw [show (Operation.insert payload).step = Step.insert payload from rfl, filled] at step
    obtain ⟨_, _, later⟩ := keeps [.insert payload, .compact]
    rw [step] at later
    have room := room_of_keeps (formed.addRecord nonempty space) later
    simp only [Page.addRecord, List.map_append, List.map_singleton, List.sum_append,
      List.sum_singleton] at room
    omega
  · exact room_of_keeps formed (keeps [.compact])

end

/-- An accepted page keeps its records whatever is inserted, deleted and compacted if and
only if its slots share zeros only and their lengths, with the directory and what can be
inserted, fit in the page. -/
theorem accepted_keeps_iff {raw : Bytes} {p : Page} (accepted : fromBytes raw = .ok p) :
    (∀ operations, (Pager.ofPage p).Keeps operations) ↔ p.Safe := by
  have formed := (fromBytes_decoded accepted).formed
  exact ⟨safe_of_keeps formed, fun safe => safe.keeps formed⟩

/-- Two records, side by side. -/
theorem accepted_keeps_of_two :
    ∃ raw p, fromBytes raw = .ok p ∧ p.slots = [(4095, 1), (4093, 2)] ∧
      ∀ operations, (Pager.ofPage p).Keeps operations := by
  have created : (init 0).Sound := (@create_sound 0 0 (init 0) rfl).1
  have single : ((init 0).addRecord [7]).Sound :=
    (created.addRecord (List.cons_ne_nil _ _) (by decide)).1
  have sound : (((init 0).addRecord [7]).addRecord [8, 9]).Sound :=
    (single.addRecord (List.cons_ne_nil _ _) (by decide)).1
  have accepted := sound.formed.fromBytes_sealed (sound.formed.packable (by decide))
  exact ⟨_, _, accepted, rfl, (accepted_keeps_iff accepted).mpr sound.seal.1.safe⟩

/-- A page with two slots at one place. -/
def doubled (slot : Nat × Nat) (record : Bytes) : Page :=
  ⟨0, 0, 28, slot.1, [slot, slot], (File.empty.allocate pageSize).write slot.1 record⟩

theorem doubled_wellFormed {slot : Nat × Nat} {record : Bytes} (behind : 28 ≤ slot.1)
    (inside : slot.1 + slot.2 ≤ pageSize) (length : record.length = slot.2) :
    (doubled slot record).WellFormed := by
  have size : (File.empty.allocate pageSize).size = pageSize := rfl
  refine ⟨?_, rfl, behind, ?_, Nat.zero_le _, ?_⟩
  · exact (write_size_inside (by rw [size, length]; exact inside)).trans size
  · show slot.1 ≤ pageSize
    omega
  · intro other member
    have here : other = slot := by simpa [doubled] using member
    rw [here]
    exact Or.inr ⟨Nat.le_refl _, inside⟩

/-- The bytes of such a page are accepted. -/
theorem doubled_accepted {slot : Nat × Nat} {record : Bytes} (behind : 28 ≤ slot.1)
    (inside : slot.1 + slot.2 ≤ pageSize) (length : record.length = slot.2) :
    ∃ raw p, fromBytes raw = .ok p ∧ p.WellFormed ∧ p.lowerOffset = 28 ∧
      p.slots = [slot, slot] ∧ p.getRecord 1 = .ok (some record) := by
  have formed := doubled_wellFormed behind inside length
  have accepted := formed.fromBytes_sealed (formed.packable (show 0 < 256 ^ 4 by decide))
  refine ⟨_, _, accepted, formed.sealed, rfl, rfl, ?_⟩
  have active : Active slot := fun deleted => by
    rw [deleted] at behind
    omega
  have held := File.write_holds_self (File.empty.allocate pageSize) slot.1 record
  have content : (doubled slot record).content slot = some record := by
    rw [content_active _ active]
    exact congrArg some (held.read length)
  rw [formed.getRecord_sealed, getRecord_eq]
  exact congrArg Except.ok content

/-- Two slots at one byte: deleting the first zeroes what the second holds. Two slots over
the same 2036 bytes: compaction brings the upper offset below the directory. -/
theorem doubled_slot_accepted :
    (∃ raw p, fromBytes raw = .ok p ∧ p.slots = [(4095, 1), (4095, 1)] ∧
      (Pager.ofPage p).getRecord 1 = .ok (some [7]) ∧
      ((Pager.ofPage p).perform (.delete 0)).getRecord 1 = .ok (some [0]) ∧
      ¬ (Pager.ofPage p).Keeps [.delete 0]) ∧
    ∃ raw p, fromBytes raw = .ok p ∧ p.slots = [(2060, 2036), (2060, 2036)] ∧
      (Pager.ofPage p).compact.lowerOffset = 28 ∧ (Pager.ofPage p).compact.upperOffset = 24 ∧
      ¬ (Pager.ofPage p).Keeps [.compact] := by
  constructor
  · obtain ⟨raw, p, accepted, formed, _, slots, record⟩ :=
      @doubled_accepted (4095, 1) [7] (by decide) (by decide) rfl
    have before := (Pager.ofPage_getRecord p 1).trans record
    have deleted : (p.perform (.delete 0)).2 = p.withoutRecord 0 (4095, 1) := by
      simp [Page.perform, deleteRecord, slots, Page.withoutRecord]
    have after : ((Pager.ofPage p).perform (.delete 0)).getRecord 1 = .ok (some [0]) := by
      rw [Pager.ofPage_perform formed fun compacts => by cases compacts]
      refine (Pager.ofPage_getRecord _ 1).trans ?_
      have zeroed := File.write_holds_self p.data 4095 [0]
      rw [show (Operation.delete 0).step = Step.delete 0 from rfl, deleted, getRecord,
        Page.withoutRecord, slots]
      exact congrArg (fun record => Except.ok (some record)) (zeroed.read rfl)
    refine ⟨raw, p, accepted, slots, before, after, ?_⟩
    rintro ⟨_, kept, _⟩
    have same := (after.symm.trans (kept 1 fun aimed => by cases aimed)).trans before
    cases same
  · obtain ⟨raw, p, accepted, formed, directory, slots, _⟩ :=
      @doubled_accepted (2060, 2036) (zeros 2036) (by decide) (by decide) (zeros_length _)
    obtain ⟨upper, lower⟩ := (Pager.ofPage p).compact_offsets
    rw [Pager.ofPage_activeRecords, formed.total_records, slots] at upper
    refine ⟨raw, p, accepted, slots, lower.trans directory, upper, ?_⟩
    rintro ⟨_, _, ordered⟩
    have impossible : ((Pager.ofPage p).compact.lowerOffset : Int) ≤
      (Pager.ofPage p).compact.upperOffset := ordered
    rw [upper, lower.trans directory] at impossible
    exact absurd impossible (by decide)

end CachyDb.Page
