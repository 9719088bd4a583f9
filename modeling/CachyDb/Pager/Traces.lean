import CachyDb.Pager.Steps

set_option autoImplicit false

/-! Two pages that took the same steps differ in the records only, so that the bytes of
a page say nothing of the records that were deleted. -/

namespace CachyDb.Page

open ByteString Crc32

/-- The page after these steps. -/
def performAll (p : Page) : List Step → Page
  | [] => p
  | step :: steps => performAll (p.perform step).2 steps

/-- The payload that a step stores. -/
def stored : Step → Result → List Bytes
  | .insert payload, .ok _ => [payload]
  | _, _ => []

/-- The payloads that the steps store, in the order of their slots. -/
def accepted (p : Page) : List Step → List Bytes
  | [] => []
  | step :: steps => stored step (p.perform step).1 ++ accepted (p.perform step).2 steps

/-- The steps differ in the bytes of a payload at most. -/
def SameShape : Step → Step → Prop
  | .insert payload, .insert payload' => payload.length = payload'.length
  | step, step' => step = step'

/-- The pages differ in their bytes at most. -/
structure Alike (p q : Page) : Prop where
  pageId : p.pageId = q.pageId
  flags : p.flags = q.flags
  lower : p.lowerOffset = q.lowerOffset
  upper : p.upperOffset = q.upperOffset
  slots : p.slots = q.slots

/-- Two pages that may be what the steps made so far. -/
structure Twins (p q : Page) : Prop where
  first : p.Sound
  second : q.Sound
  alike : Alike p q

section

variable {p q : Page}

theorem Twins.refl (sound : p.Sound) : Twins p p :=
  ⟨sound, sound, rfl, rfl, rfl, rfl, rfl⟩

theorem Alike.packable (alike : Alike p q) : p.packable ↔ q.packable := by
  unfold Page.packable
  rw [alike.pageId, alike.flags, alike.lower, alike.upper, alike.slots]

theorem Alike.addRecord (alike : Alike p q) {payload payload' : Bytes}
    (length : payload.length = payload'.length) :
    Alike (p.addRecord payload) (q.addRecord payload') := by
  obtain ⟨pageId, flags, lower, upper, slots⟩ := alike
  constructor <;> simp only [Page.addRecord, pageId, flags, lower, upper, slots, length]

theorem Alike.moveRecord (alike : Alike p q) (i : Nat) {record record' : Bytes}
    (length : record.length = record'.length) :
    Alike (p.moveRecord i record) (q.moveRecord i record') := by
  obtain ⟨pageId, flags, lower, upper, slots⟩ := alike
  constructor <;> simp only [Page.moveRecord, pageId, flags, lower, upper, slots, length]

/-- The lengths of the records say where the loop of `compact` puts them. -/
theorem Alike.moveRecords {records : List (Option Bytes)} {p q : Page} (alike : Alike p q) (i : Nat)
    {records' : List (Option Bytes)}
    (lengths : records.map (Option.map List.length) = records'.map (Option.map List.length)) :
    Alike (p.moveRecords i records) (q.moveRecords i records') := by
  induction records generalizing p q i records' with
  | nil =>
      have empty := List.map_eq_nil_iff.mp lengths.symm
      subst empty
      exact alike
  | cons record records ih =>
      cases records' with
      | nil => cases lengths
      | cons record' records' =>
          obtain ⟨here, rest⟩ := List.cons.inj lengths
          cases record with
          | none =>
              cases record' with
              | none => exact ih alike (i + 1) rest
              | some bytes' => cases here
          | some bytes =>
              cases record' with
              | none => cases here
              | some bytes' => exact ih (alike.moveRecord i (Option.some.inj here)) (i + 1) rest

theorem clearFree_alike (p : Page) : Alike p.clearFree p := by
  unfold Page.clearFree
  split
  · exact ⟨rfl, rfl, rfl, rfl, rfl⟩
  · exact ⟨rfl, rfl, rfl, rfl, rfl⟩

theorem Alike.symm (alike : Alike p q) : Alike q p :=
  ⟨alike.pageId.symm, alike.flags.symm, alike.lower.symm, alike.upper.symm, alike.slots.symm⟩

theorem Alike.trans {r : Page} (alike : Alike p q) (alike' : Alike q r) : Alike p r :=
  ⟨alike.pageId.trans alike'.pageId, alike.flags.trans alike'.flags,
    alike.lower.trans alike'.lower, alike.upper.trans alike'.upper,
    alike.slots.trans alike'.slots⟩

theorem Twins.lengths (twins : Twins p q) :
    p.activeRecords.map (Option.map List.length) = q.activeRecords.map (Option.map List.length) := by
  have width := twins.first.formed.width
  have width' := twins.second.formed.width
  simp only [activeRecords, List.map_map, twins.alike.slots]
  apply List.map_congr_left
  intro slot _
  simp only [Function.comp_apply, content]
  split
  · rfl
  · simp only [Option.map_some, File.read_length, width, width']

theorem Twins.compact (twins : Twins p q) : Alike p.compact q.compact := by
  obtain ⟨pageId, flags, lower, upper, slots⟩ := twins.alike
  have emptied : Alike { p with upperOffset := pageSize } { q with upperOffset := pageSize } :=
    ⟨pageId, flags, lower, rfl, slots⟩
  have moved := emptied.moveRecords 0 twins.lengths
  exact (clearFree_alike _).trans (moved.trans (clearFree_alike _).symm)

/-- A page that goes to bytes and back changes in its bytes only. -/
theorem Sound.written (sound : p.Sound) {step : Step} (quiet : step = .serialise ∨ step = .reload) :
    (p.perform step).1 = (if p.packable then .ok none else .error .unpackable) ∧
      Alike (p.perform step).2 p := by
  by_cases packs : p.packable
  · obtain ⟨bytes, loads⟩ := Ready.bytes ⟨sound, packs.1⟩
    rw [if_pos packs]
    rcases quiet with rfl | rfl
    · simp only [Page.perform, bytes, true_and]
      exact ⟨rfl, rfl, rfl, rfl, rfl⟩
    · simp only [Page.perform, bytes, loads, true_and]
      exact ⟨rfl, rfl, rfl, rfl, rfl⟩
  · have raised : p.toBytes = .error .unpackable := if_neg packs
    rw [if_neg packs]
    rcases quiet with rfl | rfl
    · simp only [Page.perform, raised, true_and]
      exact ⟨rfl, rfl, rfl, rfl, rfl⟩
    · simp only [Page.perform, raised, true_and]
      exact ⟨rfl, rfl, rfl, rfl, rfl⟩

theorem Twins.written (twins : Twins p q) {step : Step} (quiet : step = .serialise ∨ step = .reload) :
    (p.perform step).1 = (q.perform step).1 ∧ Alike (p.perform step).2 (q.perform step).2 := by
  obtain ⟨result, alike⟩ := twins.first.written quiet
  obtain ⟨result', alike'⟩ := twins.second.written quiet
  refine ⟨?_, alike.trans (twins.alike.trans alike'.symm)⟩
  rw [result, result']
  simp only [twins.alike.packable]

theorem Twins.insert (twins : Twins p q) {payload payload' : Bytes}
    (length : payload.length = payload'.length) :
    (p.perform (.insert payload)).1 = (q.perform (.insert payload')).1 ∧
      Alike (p.perform (.insert payload)).2 (q.perform (.insert payload')).2 := by
  have alike := twins.alike
  have space : p.hasSpaceFor payload'.length = q.hasSpaceFor payload'.length := by
    unfold hasSpaceFor
    rw [alike.lower, alike.upper]
  simp only [Page.perform, insertRecord, length, space, alike.slots]
  by_cases empty : payload'.length = 0
  · simp only [empty, ↓reduceIte, true_and]
    exact alike
  · cases here : q.hasSpaceFor payload'.length with
    | false =>
        simp only [empty, Bool.false_eq_true, ↓reduceIte, true_and]
        exact alike
    | true =>
        simp only [empty, ↓reduceIte, true_and]
        exact alike.addRecord length

theorem Twins.delete (twins : Twins p q) (slotId : Int) :
    (p.perform (.delete slotId)).1 = (q.perform (.delete slotId)).1 ∧
      Alike (p.perform (.delete slotId)).2 (q.perform (.delete slotId)).2 := by
  have alike := twins.alike
  simp only [Page.perform, deleteRecord, alike.slots]
  by_cases outside : slotId < 0 ∨ (q.slots.length : Int) ≤ slotId
  · simp only [outside, ↓reduceIte, true_and]
    exact alike
  · simp only [outside, ↓reduceIte]
    cases q.slots[slotId.toNat]? with
    | none => exact ⟨rfl, alike⟩
    | some slot =>
        by_cases deleted : slot.1 = 0 ∧ slot.2 = 0
        · simp only [deleted, and_self, ↓reduceIte, true_and]
          exact alike
        · simp only [deleted, ↓reduceIte, true_and]
          exact ⟨alike.pageId, alike.flags, alike.lower, alike.upper, rfl⟩

/-- The steps of one shape have the same result on both pages. -/
theorem Twins.perform (twins : Twins p q) {step step' : Step} (shape : SameShape step step') :
    (p.perform step).1 = (q.perform step').1 ∧
      Twins (p.perform step).2 (q.perform step').2 := by
  have both : (p.perform step).1 = (q.perform step').1 ∧
      Alike (p.perform step).2 (q.perform step').2 := by
    cases step with
    | insert payload =>
        cases step' with
        | insert payload' => exact twins.insert shape
        | _ => cases shape
    | delete slotId =>
        cases shape
        exact twins.delete slotId
    | compact =>
        cases shape
        exact ⟨rfl, twins.compact⟩
    | serialise =>
        cases shape
        exact twins.written (Or.inl rfl)
    | reload =>
        cases shape
        exact twins.written (Or.inr rfl)
  exact ⟨both.1, twins.first.perform step, twins.second.perform step', both.2⟩

theorem Twins.performAll {steps : List Step} {p q : Page} (twins : Twins p q) {steps' : List Step}
    (shapes : List.Forall₂ SameShape steps steps') :
    Twins (p.performAll steps) (q.performAll steps') := by
  induction shapes generalizing p q with
  | nil => exact twins
  | cons shape _ ih => exact ih (twins.perform shape).2

/-- Every record is the payload that was stored for its slot. -/
def Recorded (known : List Bytes) (records : List (Option Bytes)) : Prop :=
  known.length = records.length ∧
    ∀ (i : Nat) (record : Bytes), records[i]? = some (some record) → known[i]? = some record

theorem ListStep.recorded {records records' : List (Option Bytes)} {event : Step × Result}
    (step : ListStep records event records') {known : List Bytes} (held : Recorded known records) :
    Recorded (known ++ stored event.1 event.2) records' := by
  obtain ⟨length, same⟩ := held
  cases step with
  | insert payload nonempty =>
      refine ⟨by simp [stored, length], fun i record there => ?_⟩
      by_cases old : i < records.length
      · rw [List.getElem?_append_left old] at there
        rw [List.getElem?_append_left (by omega)]
        exact same i record there
      · rw [List.getElem?_append_right (by omega)] at there
        rw [List.getElem?_append_right (by omega), length]
        rw [List.getElem?_singleton] at there
        simp only [stored, List.getElem?_singleton]
        split at there
        · cases there
          rw [if_pos ‹_›]
        · cases there
  | delete slotId payload deleted =>
      simp only [stored, List.append_nil]
      refine ⟨by rw [List.length_set, length], fun i record there => ?_⟩
      rw [List.getElem?_set] at there
      split at there
      · split at there
        · cases there
        · cases there
      · exact same i record there
  | insertEmpty => simpa only [stored, List.append_nil] using ⟨length, same⟩
  | insertFull => simpa only [stored, List.append_nil] using ⟨length, same⟩
  | deleteOutside => simpa only [stored, List.append_nil] using ⟨length, same⟩
  | deleteTwice => simpa only [stored, List.append_nil] using ⟨length, same⟩
  | keep step quiet =>
      rcases quiet with rfl | rfl | rfl
      · simpa only [stored, List.append_nil] using ⟨length, same⟩
      · simpa only [stored, List.append_nil] using ⟨length, same⟩
      · simpa only [stored, List.append_nil] using ⟨length, same⟩

theorem Sound.accepted {p : Page} (sound : p.Sound) (steps : List Step) {known : List Bytes}
    (held : Recorded known p.activeRecords) :
    (p.performAll steps).Sound ∧
      Recorded (known ++ p.accepted steps) (p.performAll steps).activeRecords := by
  induction steps generalizing p known with
  | nil => simpa only [Page.accepted, List.append_nil] using ⟨sound, held⟩
  | cons step steps ih =>
      have taken : PageStep p (step, (p.perform step).1) (p.perform step).2 := rfl
      obtain ⟨sound', _, _, listed⟩ := sound.step taken
      have held' : Recorded (known ++ stored step (p.perform step).1)
          (p.perform step).2.activeRecords := by
        rcases listed with listed | ⟨_, quiet, same⟩
        · exact listed.recorded held
        · rw [same, sound.withDirectory.2]
          rcases quiet with rfl | rfl
          · simpa only [stored, List.append_nil] using held
          · simpa only [stored, List.append_nil] using held
      have rest := ih sound' held'
      rwa [List.append_assoc] at rest

/-- Buffers that agree behind the directory are serialised alike. -/
theorem Twins.unsealed (twins : Twins p q)
    (agree : ∀ i, p.lowerOffset ≤ i → p.data.byte i = q.data.byte i) : p.unsealed = q.unsealed := by
  have directory := twins.second.formed.directory
  have header : p.headerNoChecksum = q.headerNoChecksum := by
    obtain ⟨pageId, flags, lower, upper, slots⟩ := twins.alike
    simp only [headerNoChecksum, pageId, flags, lower, upper, slots]
  apply File.eq_of_bytes
  · rw [twins.first.formed.unsealed_size, twins.second.formed.unsealed_size]
  · intro i
    simp only [Page.unsealed, File.write, header, twins.alike.slots, headerNoChecksum_length,
      slotBytes_length]
    split
    · rfl
    · split
      · rfl
      · split
        · rfl
        · rename_i notSum notHeader notSlots
          apply agree
          rw [twins.alike.lower]
          simp only [headerSize, checksumOffset, List.length_cons, List.length_nil] at *
          omega

theorem Twins.toBytes (twins : Twins p q)
    (agree : ∀ i, p.lowerOffset ≤ i → p.data.byte i = q.data.byte i) :
    p.toBytes.map Prod.fst = q.toBytes.map Prod.fst := by
  have same : p.sealed = q.sealed := by
    unfold sealed
    rw [twins.unsealed agree]
  by_cases packs : p.packable
  · rw [show p.toBytes = _ from if_pos packs,
      show q.toBytes = _ from if_pos (twins.alike.packable.mp packs), same]
    rfl
  · rw [show p.toBytes = _ from if_neg packs,
      show q.toBytes = _ from if_neg (mt twins.alike.packable.mpr packs)]

/-- Where the records of a slot are the same, its bytes are. -/
theorem Twins.agree (twins : Twins p q)
    (same : ∀ slotId, p.getRecord slotId = q.getRecord slotId) (i : Nat)
    (above : p.lowerOffset ≤ i) : p.data.byte i = q.data.byte i := by
  by_cases covered : ∃ slot ∈ p.slots, Covers slot i
  · obtain ⟨slot, member, here⟩ := covered
    obtain ⟨j, there⟩ := List.getElem?_of_mem member
    have active : Active slot := by
      rintro rfl
      simp only [Covers] at here
      omega
    have record := same j
    rw [getRecord_eq, getRecord_eq, activeRecords, activeRecords, ← twins.alike.slots,
      List.getElem?_map, List.getElem?_map, there] at record
    simp only [Option.map_some, content_active _ active, Except.ok.injEq, Option.some.injEq] at record
    have area := twins.first.formed.area member active
    have width := twins.first.formed.width
    have width' := twins.second.formed.width
    simp only [Covers] at here
    have inside : i - slot.1 < (p.data.read slot.1 slot.2).length := by
      rw [File.read_length]
      omega
    have inside' : i - slot.1 < (q.data.read slot.1 slot.2).length := by
      rw [File.read_length]
      omega
    have bytes := List.getElem_of_eq record inside
    rw [File.read_getElem, File.read_getElem, Nat.add_sub_cancel' here.1] at bytes
    exact bytes
  · have free : ∀ slot ∈ p.slots, ¬ Covers slot i := fun slot member here =>
      covered ⟨slot, member, here⟩
    rw [twins.first.clean i above free]
    rw [twins.alike.lower] at above
    rw [twins.alike.slots] at free
    rw [twins.second.clean i above free]

end

/-- Whatever was deleted before the end cannot be told from the bytes of the page, since
no byte is set that belongs to no record. -/
theorem deleted_leaves_no_trace {pageId flags : Nat} {created : Page}
    (made : create pageId flags = .ok created) {steps steps' : List Step}
    (shapes : List.Forall₂ SameShape steps steps')
    (deleted : ∀ slotId, (created.accepted steps)[slotId]? ≠ (created.accepted steps')[slotId]? →
      (created.performAll steps).getRecord slotId = .ok none) :
    (created.performAll steps).toBytes.map Prod.fst =
        (created.performAll steps').toBytes.map Prod.fst ∧
      ∀ i, (created.performAll steps).lowerOffset ≤ i →
        (∀ slot ∈ (created.performAll steps).slots, Active slot → ¬ Covers slot i) →
        (created.performAll steps).data.byte i = 0 := by
  obtain ⟨sound, _, _, nothing⟩ := create_sound made
  have held : Recorded [] created.activeRecords := by
    rw [nothing]
    exact ⟨rfl, fun i record there => by cases there⟩
  obtain ⟨final, recorded⟩ := sound.accepted steps held
  obtain ⟨_, recorded'⟩ := sound.accepted steps' held
  have twins := (Twins.refl sound).performAll shapes
  have same : ∀ slotId, (created.performAll steps).getRecord slotId =
      (created.performAll steps').getRecord slotId := by
    intro slotId
    have record := getRecord_eq (created.performAll steps) slotId
    have record' := getRecord_eq (created.performAll steps') slotId
    have first := recorded.2 slotId
    have second := recorded'.2 slotId
    simp only [activeRecords, ← twins.alike.slots, List.getElem?_map] at record record' first second
    cases there : (created.performAll steps).slots[slotId]? with
    | none =>
        rw [there] at record record'
        exact record.trans record'.symm
    | some slot =>
        rw [there] at record record' first second
        simp only [Option.map_some] at record record' first second
        by_cases active : Active slot
        · rw [content_active _ active] at record record' first second
          have stored := first _ rfl
          have stored' := second _ rfl
          have equal : (created.accepted steps)[slotId]? = (created.accepted steps')[slotId]? := by
            by_contra different
            have gone := deleted slotId different
            rw [record] at gone
            cases gone
          rw [List.nil_append] at stored stored'
          rw [record, record', ← stored, ← stored', equal]
        · rw [not_active.mp active] at record record'
          exact record.trans record'.symm
  refine ⟨twins.toBytes (twins.agree same), fun i above free => ?_⟩
  apply final.clean i above
  intro slot member here
  refine free slot member ?_ here
  rintro rfl
  simp only [Covers] at here
  omega

theorem deleted_leaves_no_trace_of_one :
    ((init 0).performAll [.insert [1], .compact, .delete 0]).toBytes.map Prod.fst =
      ((init 0).performAll [.insert [2], .compact, .delete 0]).toBytes.map Prod.fst := by
  have made : create 0 0 = .ok (init 0) := rfl
  have shapes : List.Forall₂ SameShape [.insert [1], .compact, .delete 0]
      [.insert [2], .compact, .delete 0] :=
    .cons rfl (.cons rfl (.cons rfl .nil))
  have first : (init 0).accepted [.insert [1], .compact, .delete 0] = [[1]] := by decide +kernel
  have second : (init 0).accepted [.insert [2], .compact, .delete 0] = [[2]] := by decide +kernel
  refine (deleted_leaves_no_trace made shapes fun slotId different => ?_).1
  rw [first, second] at different
  cases slotId with
  | zero => decide +kernel
  | succ slotId => exact absurd rfl different

end CachyDb.Page
