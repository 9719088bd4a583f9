import Mathlib.Data.List.Forall2
import CachyDb.Pager.Page

set_option autoImplicit false

/-! The other methods that change a page: deletion and compaction. The slots of a page lie
one below the other, and what is free between the directory and them is zero. -/

namespace CachyDb.Page

open ByteString

/-- `Pager(page_id, flags)`. -/
def create (pageId flags : Nat) : Except Error Page :=
  if flags > maxFlags then .error .invalidFlags else .ok { init pageId with flags := flags }

def zeros (count : Nat) : Bytes := List.replicate count 0

def deleteRecord (p : Page) (slotId : Int) : Except Error Page :=
  if slotId < 0 ∨ (p.slots.length : Int) ≤ slotId then .error .invalidSlot
  else
    match p.slots[slotId.toNat]? with
    | none => .error .invalidSlot
    | some (offset, length) =>
        if offset = 0 ∧ length = 0 then .error .deletedSlot
        else
          .ok { p with
            data := p.data.write offset (zeros length)
            slots := p.slots.set slotId.toNat (0, 0) }

/-- The record of a slot, `None` for a deleted one. -/
def content (p : Page) (slot : Nat × Nat) : Option Bytes :=
  if slot.1 = 0 ∧ slot.2 = 0 then none else some (p.data.read slot.1 slot.2)

/-- `active_records`. -/
def activeRecords (p : Page) : List (Option Bytes) := p.slots.map p.content

def moveRecord (p : Page) (i : Nat) (record : Bytes) : Page :=
  let upperOffset := p.upperOffset - record.length
  { p with
    upperOffset := upperOffset
    data := p.data.write upperOffset record
    slots := p.slots.set i (upperOffset, record.length) }

/-- The loop of `compact`, from the slot `i` on. -/
def moveRecords (p : Page) (i : Nat) : List (Option Bytes) → Page
  | [] => p
  | none :: rest => p.moveRecords (i + 1) rest
  | some record :: rest => (p.moveRecord i record).moveRecords (i + 1) rest

/-- The free area is zeroed at last. -/
def clearFree (p : Page) : Page :=
  if p.lowerOffset < p.upperOffset then
    { p with data := p.data.write p.lowerOffset (zeros (p.upperOffset - p.lowerOffset)) }
  else p

def compact (p : Page) : Page :=
  ({ p with upperOffset := pageSize }.moveRecords 0 p.activeRecords).clearFree

/-- The slot is in use. -/
def Active (slot : Nat × Nat) : Prop := slot ≠ (0, 0)

/-- The byte belongs to the record of the slot. -/
def Covers (slot : Nat × Nat) (i : Nat) : Prop := slot.1 ≤ i ∧ i < slot.1 + slot.2

/-- The second slot lies below the first one. -/
def Beneath (above below : Nat × Nat) : Prop :=
  Active above → Active below → below.1 + below.2 ≤ above.1

/-- The slots lie one below the other in the record area, and no byte is set that belongs
to neither of them above the directory. -/
structure Sound (p : Page) : Prop where
  formed : p.WellFormed
  descending : p.slots.Pairwise Beneath
  clean : ∀ i, p.lowerOffset ≤ i → (∀ slot ∈ p.slots, ¬ Covers slot i) → p.data.byte i = 0

@[simp] theorem zeros_length (count : Nat) : (zeros count).length = count :=
  List.length_replicate

theorem content_active (p : Page) {slot : Nat × Nat} (active : Active slot) :
    p.content slot = some (p.data.read slot.1 slot.2) := by
  apply if_neg
  rintro ⟨offset, length⟩
  exact active (Prod.ext offset length)

theorem not_active {slot : Nat × Nat} : ¬ Active slot ↔ slot = (0, 0) := not_not

theorem getRecord_eq (p : Page) (slotId : Nat) :
    p.getRecord slotId = match p.activeRecords[slotId]? with
      | none => .error .invalidSlot
      | some record => .ok record := by
  rw [getRecord, activeRecords, List.getElem?_map]
  cases p.slots[slotId]? with
  | none => rfl
  | some slot =>
      dsimp only [Option.map_some, content]
      split <;> rfl

/-- An active slot lies in the record area. -/
theorem WellFormed.area {p : Page} (formed : p.WellFormed) {slot : Nat × Nat} (member : slot ∈ p.slots)
    (active : Active slot) : p.upperOffset ≤ slot.1 ∧ slot.1 + slot.2 ≤ pageSize := by
  rcases formed.inside slot member with deleted | area
  · exact absurd deleted active
  · exact area

/-- A record is kept where its bytes are. -/
theorem content_congr {p p' : Page} {slot : Nat × Nat} (size : p'.data.size = p.data.size)
    (same : ∀ i, Covers slot i → p'.data.byte i = p.data.byte i) :
    p'.content slot = p.content slot := by
  rw [content, content, read_congr size fun i low high => same i ⟨low, high⟩]

theorem create_sound {pageId flags : Nat} {p : Page} (made : create pageId flags = .ok p) :
    p.Sound ∧ p.pageId = pageId ∧ p.flags = flags ∧ p.activeRecords = [] := by
  unfold create at made
  split at made
  · cases made
  · rename_i small
    cases made
    obtain ⟨width, directory, ordered, bound, _, inside⟩ := init_wellFormed pageId
    refine ⟨⟨⟨width, directory, ordered, bound, Nat.le_of_not_gt small, inside⟩, ?_, ?_⟩, rfl, rfl, rfl⟩
    · exact List.Pairwise.nil
    · exact fun i _ _ => rfl

theorem WellFormed.addRecord {p : Page} (formed : p.WellFormed) {payload : Bytes}
    (nonempty : payload ≠ []) (space : p.hasSpaceFor payload.length = true) :
    (p.addRecord payload).WellFormed := by
  obtain ⟨p', done, formed', _⟩ := formed.insertRecord nonempty space
  have positive : payload.length ≠ 0 := fun zero => nonempty (List.eq_nil_of_length_eq_zero zero)
  simp only [Page.insertRecord, positive, space, ↓reduceIte, Except.ok.injEq, Prod.mk.injEq,
    true_and] at done
  rw [done]
  exact formed'

theorem Sound.addRecord {p : Page} (sound : p.Sound) {payload : Bytes} (nonempty : payload ≠ [])
    (space : p.hasSpaceFor payload.length = true) :
    (p.addRecord payload).Sound ∧
      (p.addRecord payload).activeRecords = p.activeRecords ++ [some payload] := by
  have formed := sound.formed
  have room : p.lowerOffset + (slotSize + payload.length) ≤ p.upperOffset := by
    simpa [hasSpaceFor] using space
  have width := formed.width
  have bound := formed.bound
  have directory := formed.directory
  have positive : 0 < p.upperOffset - payload.length := by
    simp only [headerSize, slotSize] at *
    omega
  have size : (p.addRecord payload).data.size = p.data.size :=
    write_size_inside (by omega)
  have kept : ∀ i, p.upperOffset ≤ i → (p.addRecord payload).data.byte i = p.data.byte i :=
    fun i above => File.write_byte_outside _ _ _ _ (by omega)
  refine ⟨⟨formed.addRecord nonempty space, ?_, ?_⟩, ?_⟩
  · apply List.pairwise_append.mpr
    refine ⟨sound.descending, List.pairwise_singleton _ _, ?_⟩
    intro slot member new there active _
    rw [List.mem_singleton.mp there]
    have area := formed.area member active
    dsimp only
    omega
  · intro i above free
    have lower : p.lowerOffset ≤ i := by
      simp only [Page.addRecord, slotSize] at above
      omega
    have apart := free (p.upperOffset - payload.length, payload.length)
      (List.mem_append_right _ List.mem_cons_self)
    simp only [Covers] at apart
    rw [show (p.addRecord payload).data.byte i = p.data.byte i from
      File.write_byte_outside _ _ _ _ (by omega)]
    exact sound.clean i lower fun slot member => free slot (List.mem_append_left _ member)
  · have old : p.slots.map (p.addRecord payload).content = p.slots.map p.content := by
      apply List.map_congr_left
      intro slot member
      by_cases active : Active slot
      · have area := formed.area member active
        apply content_congr size
        intro i covered
        exact kept i (by have := covered.1; omega)
      · rw [not_active.mp active]
        rfl
    have new : (p.addRecord payload).content (p.upperOffset - payload.length, payload.length) =
        some payload := by
      rw [content_active _ fun same => by simp only [Prod.mk.injEq] at same; omega]
      exact congrArg some ((File.write_holds_self p.data _ payload).read rfl)
    show (p.slots ++ [(p.upperOffset - payload.length, payload.length)]).map _ = _
    rw [List.map_append, old, List.map_singleton, new]
    rfl

theorem Sound.beneath {p : Page} (sound : p.Sound) {i j : Nat} {above below : Nat × Nat}
    (order : i < j) (first : p.slots[i]? = some above) (second : p.slots[j]? = some below) :
    Beneath above below := by
  obtain ⟨inside, rfl⟩ := List.getElem?_eq_some_iff.mp first
  obtain ⟨inside', rfl⟩ := List.getElem?_eq_some_iff.mp second
  exact List.pairwise_iff_getElem.mp sound.descending i j inside inside' order

/-- Two active slots have no byte in common. -/
theorem Sound.apart {p : Page} (sound : p.Sound) {i j : Nat} {slot other : Nat × Nat}
    (different : i ≠ j) (first : p.slots[i]? = some slot) (second : p.slots[j]? = some other)
    (active : Active slot) (active' : Active other) :
    other.1 + other.2 ≤ slot.1 ∨ slot.1 + slot.2 ≤ other.1 := by
  rcases Nat.lt_or_gt_of_ne different with order | order
  · exact Or.inl (sound.beneath order first second active active')
  · exact Or.inr (sound.beneath order second first active' active)

/-- The page without the record of a slot. -/
def withoutRecord (p : Page) (i : Nat) (slot : Nat × Nat) : Page :=
  { p with data := p.data.write slot.1 (zeros slot.2), slots := p.slots.set i (0, 0) }

theorem withoutRecord_byte_inside (p : Page) {slot : Nat × Nat} (i : Nat) {byte : Nat}
    (covered : Covers slot byte) : (p.withoutRecord i slot).data.byte byte = 0 := by
  have written := File.write_byte_inside p.data slot.1 (zeros slot.2) (byte - slot.1)
    (by rw [zeros_length]; simp only [Covers] at covered; omega)
  rw [Nat.add_sub_cancel' covered.1] at written
  show (p.data.write slot.1 (zeros slot.2)).byte byte = 0
  rw [written]
  simp [zeros]

theorem withoutRecord_byte_outside (p : Page) {slot : Nat × Nat} (i : Nat) {byte : Nat}
    (free : ¬ Covers slot byte) :
    (p.withoutRecord i slot).data.byte byte = p.data.byte byte := by
  simp only [Covers] at free
  exact File.write_byte_outside _ _ _ _ (by rw [zeros_length]; omega)

theorem WellFormed.withoutRecord {p : Page} (formed : p.WellFormed) {i : Nat}
    {slot : Nat × Nat} (known : p.slots[i]? = some slot) (active : Active slot) :
    (p.withoutRecord i slot).WellFormed ∧ (p.withoutRecord i slot).data.size = p.data.size := by
  have width := formed.width
  have area := formed.area (List.mem_of_getElem? known) active
  have size : (p.withoutRecord i slot).data.size = p.data.size :=
    write_size_inside (by rw [zeros_length]; omega)
  refine ⟨⟨size.trans width, ?_, formed.ordered, formed.bound, formed.flagged, ?_⟩, size⟩
  · show p.lowerOffset = headerSize + (p.slots.set i (0, 0)).length * slotSize
    rw [List.length_set, formed.directory]
  · intro other member
    rcases List.mem_or_eq_of_mem_set member with old | rfl
    · exact formed.inside other old
    · exact Or.inl rfl

/-- Whatever stands beside the new item stands beside it well. -/
theorem pairwise_set {Item : Type} {R : Item → Item → Prop} {items : List Item}
    (pairwise : items.Pairwise R) (i : Nat) {item : Item} (before : ∀ other, R other item)
    (after : ∀ other, R item other) : (items.set i item).Pairwise R := by
  induction items generalizing i with
  | nil => exact pairwise
  | cons head rest ih =>
      obtain ⟨first, others⟩ := List.pairwise_cons.mp pairwise
      cases i with
      | zero => exact List.pairwise_cons.mpr ⟨fun other _ => after other, others⟩
      | succ i =>
          refine List.pairwise_cons.mpr ⟨fun other member => ?_, ih others i⟩
          rcases List.mem_or_eq_of_mem_set member with old | rfl
          · exact first other old
          · exact before head

theorem Sound.withoutRecord_content {p : Page} (sound : p.Sound) {i j : Nat}
    {slot other : Nat × Nat} (known : p.slots[i]? = some slot) (active : Active slot)
    (there : p.slots[j]? = some other) (different : i ≠ j) :
    (p.withoutRecord i slot).content other = p.content other := by
  by_cases active' : Active other
  · apply content_congr (sound.formed.withoutRecord known active).2
    intro b covered
    have apart := sound.apart different known there active active'
    apply withoutRecord_byte_outside
    simp only [Covers] at *
    omega
  · rw [not_active.mp active']
    rfl

theorem Sound.withoutRecord {p : Page} (sound : p.Sound) {i : Nat} {slot : Nat × Nat}
    (known : p.slots[i]? = some slot) (active : Active slot) :
    (p.withoutRecord i slot).Sound ∧
      (p.withoutRecord i slot).activeRecords = p.activeRecords.set i none := by
  refine ⟨⟨(sound.formed.withoutRecord known active).1, ?_, ?_⟩, ?_⟩
  · apply pairwise_set sound.descending
    · exact fun other _ none_there => absurd rfl none_there
    · exact fun other none_there => absurd rfl none_there
  · intro b above free
    by_cases covered : Covers slot b
    · exact p.withoutRecord_byte_inside i covered
    · rw [p.withoutRecord_byte_outside i covered]
      apply sound.clean b above
      intro other member
      obtain ⟨j, there⟩ := List.mem_iff_getElem?.mp member
      by_cases here : i = j
      · rw [← here, known, Option.some.injEq] at there
        rwa [← there]
      · apply free
        apply List.mem_of_getElem? (i := j)
        show (p.slots.set i (0, 0))[j]? = some other
        rw [List.getElem?_set_ne here, there]
  · apply List.ext_getElem?
    intro j
    show ((p.slots.set i (0, 0)).map (p.withoutRecord i slot).content)[j]? =
      ((p.slots.map p.content).set i none)[j]?
    by_cases here : i = j
    · subst here
      have inside := (List.getElem?_eq_some_iff.mp known).1
      rw [List.getElem?_map, List.getElem?_set_self inside, List.getElem?_set_self (by simpa using inside)]
      rfl
    · rw [List.getElem?_map, List.getElem?_set_ne here, List.getElem?_set_ne here, List.getElem?_map]
      cases there : p.slots[j]? with
      | none => rfl
      | some other =>
          exact congrArg some (sound.withoutRecord_content known active there here)

/-- The bytes that these records take. -/
def total (records : List (Option Bytes)) : Nat := (records.map fun r => (r.getD []).length).sum

/-- These slots fill the record area of the page from its end down. -/
structure Packed (p : Page) (slots : List (Nat × Nat)) : Prop where
  width : p.data.size = pageSize
  bound : p.upperOffset ≤ pageSize
  inside : ∀ slot ∈ slots, slot = (0, 0) ∨ (p.upperOffset ≤ slot.1 ∧ slot.1 + slot.2 ≤ pageSize)
  descending : slots.Pairwise Beneath
  tiled : ∀ i, p.upperOffset ≤ i → i < pageSize → ∃ slot ∈ slots, Covers slot i

/-- Slots that lie one below the other have room. -/
theorem descending_sum {slots : List (Nat × Nat)} (descending : slots.Pairwise Beneath) {low high : Nat}
    (ordered : low ≤ high)
    (inside : ∀ slot ∈ slots, slot = (0, 0) ∨ (low ≤ slot.1 ∧ slot.1 + slot.2 ≤ high)) :
    low + (slots.map Prod.snd).sum ≤ high := by
  induction slots generalizing high with
  | nil => simpa using ordered
  | cons slot rest ih =>
      obtain ⟨first, others⟩ := List.pairwise_cons.mp descending
      rw [List.map_cons, List.sum_cons]
      rcases inside slot List.mem_cons_self with rfl | area
      · have later := ih others ordered fun other member =>
          inside other (List.mem_cons_of_mem _ member)
        omega
      · by_cases active : Active slot
        · have later := ih others area.1 fun other member => by
            rcases inside other (List.mem_cons_of_mem _ member) with none_there | area'
            · exact Or.inl none_there
            · by_cases active' : Active other
              · exact Or.inr ⟨area'.1, first other member active active'⟩
              · exact Or.inl (not_active.mp active')
          omega
        · rw [not_active.mp active] at area ⊢
          have later := ih others ordered fun other member =>
            inside other (List.mem_cons_of_mem _ member)
          omega

theorem WellFormed.total_records {p : Page} (formed : p.WellFormed) :
    total p.activeRecords = (p.slots.map Prod.snd).sum := by
  rw [total, activeRecords, List.map_map]
  congr 1
  apply List.map_congr_left
  intro slot member
  by_cases active : Active slot
  · have area := formed.area member active
    rw [Function.comp_apply, content_active p active, Option.getD_some, File.read_length, formed.width]
    omega
  · rw [not_active.mp active]
    rfl

/-- One record more at the end of the record area. -/
theorem Packed.moveRecord {p : Page} {front back : List (Nat × Nat)} {old : Nat × Nat}
    (packed : Packed p front) (slots : p.slots = front ++ old :: back) (record : Bytes)
    (room : headerSize + record.length ≤ p.upperOffset) :
    (p.moveRecord front.length record).slots =
        (front ++ [(p.upperOffset - record.length, record.length)]) ++ back ∧
      Packed (p.moveRecord front.length record)
        (front ++ [(p.upperOffset - record.length, record.length)]) ∧
      (p.moveRecord front.length record).content
        (p.upperOffset - record.length, record.length) = some record ∧
      front.map (p.moveRecord front.length record).content = front.map p.content := by
  have width := packed.width
  have bound := packed.bound
  have positive : 0 < p.upperOffset - record.length := by
    simp only [headerSize] at room
    omega
  have size : (p.moveRecord front.length record).data.size = p.data.size :=
    write_size_inside (by omega)
  refine ⟨?_, ⟨size.trans width, ?_, ?_, ?_, ?_⟩, ?_, ?_⟩
  · show p.slots.set front.length _ = _
    rw [slots, List.set_append_right _ _ (Nat.le_refl _), Nat.sub_self, List.append_assoc]
    rfl
  · show p.upperOffset - record.length ≤ pageSize
    omega
  · intro slot member
    show slot = (0, 0) ∨ (p.upperOffset - record.length ≤ slot.1 ∧ _)
    rcases List.mem_append.mp member with before | here
    · refine (packed.inside slot before).imp id fun area => ⟨?_, area.2⟩
      omega
    · rw [List.mem_singleton.mp here]
      exact Or.inr ⟨Nat.le_refl _, by dsimp only; omega⟩
  · apply List.pairwise_append.mpr
    refine ⟨packed.descending, List.pairwise_singleton _ _, ?_⟩
    intro slot member new there active _
    rw [List.mem_singleton.mp there]
    rcases packed.inside slot member with none_there | area
    · exact absurd none_there active
    · dsimp only
      omega
  · intro i above inside
    by_cases low : i < p.upperOffset
    · refine ⟨_, List.mem_append_right _ List.mem_cons_self, ?_⟩
      simp only [Page.moveRecord] at above
      simp only [Covers]
      omega
    · obtain ⟨slot, member, covered⟩ := packed.tiled i (Nat.le_of_not_lt low) inside
      exact ⟨slot, List.mem_append_left _ member, covered⟩
  · rw [content_active _ fun same => by simp only [Prod.mk.injEq] at same; omega]
    exact congrArg some ((File.write_holds_self p.data _ record).read rfl)
  · apply List.map_congr_left
    intro slot member
    rcases packed.inside slot member with rfl | area
    · rfl
    · apply content_congr size
      intro i covered
      simp only [Covers] at covered
      exact File.write_byte_outside _ _ _ _ (by omega)

/-- The loop of `compact`: the slots before this place have been moved. -/
theorem Packed.moveRecords {records : List (Option Bytes)} {p : Page}
    {front back : List (Nat × Nat)} (packed : Packed p front) (slots : p.slots = front ++ back)
    (deleted : List.Forall₂ (fun slot record => record = none → slot = (0, 0)) back records)
    (room : headerSize + total records ≤ p.upperOffset) :
    ∃ back', (p.moveRecords front.length records).slots = front ++ back' ∧
      back'.length = back.length ∧ Packed (p.moveRecords front.length records) (front ++ back') ∧
      back'.map (p.moveRecords front.length records).content = records ∧
      front.map (p.moveRecords front.length records).content = front.map p.content ∧
      (p.moveRecords front.length records).upperOffset + total records = p.upperOffset ∧
      (p.moveRecords front.length records).lowerOffset = p.lowerOffset ∧
      (p.moveRecords front.length records).pageId = p.pageId ∧
      (p.moveRecords front.length records).flags = p.flags := by
  induction records generalizing p front back with
  | nil =>
      cases deleted
      exact ⟨[], slots, rfl, by rwa [List.append_nil], rfl, rfl, rfl, rfl, rfl, rfl⟩
  | cons record rest ih =>
      cases deleted with
      | @cons slot _ back _ none_there others =>
      have shift : front.length + 1 = (front ++ [slot]).length := by simp
      cases record with
      | none =>
          have none_here := none_there rfl
          subst none_here
          have packed' : Packed p (front ++ [(0, 0)]) := by
            refine ⟨packed.width, packed.bound, ?_, ?_, ?_⟩
            · intro other member
              rcases List.mem_append.mp member with before | here
              · exact packed.inside other before
              · exact Or.inl (List.mem_singleton.mp here)
            · apply List.pairwise_append.mpr
              refine ⟨packed.descending, List.pairwise_singleton _ _, ?_⟩
              intro other _ new there _ active
              exact absurd (List.mem_singleton.mp there) active
            · intro i above inside
              obtain ⟨other, member, covered⟩ := packed.tiled i above inside
              exact ⟨other, List.mem_append_left _ member, covered⟩
          have smaller : headerSize + total rest ≤ p.upperOffset := by
            simpa [total] using room
          obtain ⟨back', slots', length, packed'', moved, kept, used, frame⟩ :=
            ih packed' (by rw [slots, List.append_assoc]; rfl) others smaller
          rw [← shift] at slots' packed'' moved kept used frame
          rw [List.append_assoc] at slots' packed''
          rw [List.map_append, List.map_append] at kept
          have sum : total (none :: rest) = total rest := by simp [total]
          rw [sum]
          refine ⟨(0, 0) :: back', slots', by simp [length], packed'', ?_, ?_, used, frame⟩
          · exact congrArg (List.cons none) moved
          · exact (List.append_inj' kept rfl).1
      | some bytes =>
          have sum : total (some bytes :: rest) = bytes.length + total rest := by simp [total]
          rw [sum] at room
          obtain ⟨slots₁, packed₁, here, kept₁⟩ := packed.moveRecord slots bytes (by omega)
          have upper : (p.moveRecord front.length bytes).upperOffset =
              p.upperOffset - bytes.length := rfl
          obtain ⟨back', slots', length, packed'', moved, kept, used, frame⟩ :=
            ih packed₁ slots₁ others (by omega)
          rw [show (front ++ [(p.upperOffset - bytes.length, bytes.length)]).length =
            front.length + 1 by simp] at slots' packed'' moved kept used frame
          rw [List.append_assoc] at slots' packed''
          rw [List.map_append, List.map_append, kept₁] at kept
          obtain ⟨kept, last⟩ := List.append_inj' kept rfl
          refine ⟨_ :: back', slots', by simp [length], packed'', ?_, kept, ?_, frame⟩
          · exact congrArg₂ List.cons ((List.singleton_inj.mp last).trans here) moved
          · rw [sum]
            show ((p.moveRecord front.length bytes).moveRecords (front.length + 1) rest).upperOffset +
              _ = _
            omega

/-- The bytes between the directory and the records are zero in the end. -/
theorem Packed.clearFree {p : Page} (packed : Packed p p.slots) (ordered : p.lowerOffset ≤ p.upperOffset)
    (directory : p.lowerOffset = headerSize + p.slots.length * slotSize)
    (flagged : p.flags ≤ maxFlags) :
    p.clearFree.Sound ∧ p.clearFree.activeRecords = p.activeRecords := by
  have width := packed.width
  have bound := packed.bound
  have size : p.clearFree.data.size = p.data.size := by
    unfold Page.clearFree
    split
    · exact write_size_inside (by rw [zeros_length]; omega)
    · rfl
  have fields : p.clearFree.slots = p.slots ∧ p.clearFree.lowerOffset = p.lowerOffset ∧
      p.clearFree.upperOffset = p.upperOffset ∧ p.clearFree.flags = p.flags := by
    unfold Page.clearFree
    split <;> exact ⟨rfl, rfl, rfl, rfl⟩
  obtain ⟨slots, lower, upper, flags⟩ := fields
  have kept : ∀ i, p.upperOffset ≤ i → p.clearFree.data.byte i = p.data.byte i := by
    intro i above
    unfold Page.clearFree
    split
    · exact File.write_byte_outside _ _ _ _ (by rw [zeros_length]; omega)
    · rfl
  refine ⟨⟨⟨size.trans width, by rw [lower, slots, directory], by omega, by omega, by omega, ?_⟩, ?_, ?_⟩,
    ?_⟩
  · rw [slots, upper]
    exact packed.inside
  · rw [slots]
    exact packed.descending
  · intro i above free
    rw [lower] at above
    rw [slots] at free
    by_cases low : i < p.upperOffset
    · have space : p.lowerOffset < p.upperOffset := by omega
      have written := File.write_byte_inside p.data p.lowerOffset
        (zeros (p.upperOffset - p.lowerOffset)) (i - p.lowerOffset) (by rw [zeros_length]; omega)
      rw [Nat.add_sub_cancel' above] at written
      rw [Page.clearFree, if_pos space]
      dsimp only
      rw [written]
      simp [zeros]
    · by_cases inside : i < pageSize
      · obtain ⟨slot, member, covered⟩ := packed.tiled i (Nat.le_of_not_lt low) inside
        exact absurd covered (free slot member)
      · exact p.clearFree.data.beyond i (by omega)
  · rw [activeRecords, activeRecords, slots]
    apply List.map_congr_left
    intro slot member
    rcases packed.inside slot member with rfl | area
    · rfl
    · apply content_congr size
      intro i covered
      simp only [Covers] at covered
      exact kept i (by omega)

/-- Compaction needs room for the records, and leaves their bytes at the end of the page:
what the slots of the page had in common is no longer shared. -/
theorem WellFormed.compact {p : Page} (formed : p.WellFormed)
    (room : p.lowerOffset + total p.activeRecords ≤ pageSize) :
    p.compact.Sound ∧ p.compact.activeRecords = p.activeRecords ∧
      p.compact.upperOffset + total p.activeRecords = pageSize ∧
      p.compact.lowerOffset = p.lowerOffset ∧ p.compact.pageId = p.pageId ∧
      p.compact.flags = p.flags := by
  have directory := formed.directory
  have start : Packed { p with upperOffset := pageSize } [] := by
    refine ⟨formed.width, Nat.le_refl _, fun _ member => (by cases member), List.Pairwise.nil, ?_⟩
    intro i above inside
    exact absurd inside (Nat.not_lt.mpr above)
  have deleted : List.Forall₂ (fun (slot : Nat × Nat) record => record = none → slot = (0, 0))
      p.slots p.activeRecords := by
    rw [activeRecords, List.forall₂_map_right_iff, List.forall₂_same]
    intro slot member none_there
    by_contra active
    rw [content_active p active] at none_there
    cases none_there
  obtain ⟨slots', listed, length, packed, moved, _, used, lower, pageId, flags⟩ :=
    start.moveRecords (show p.slots = [] ++ p.slots from rfl) deleted (by dsimp only; omega)
  rw [List.nil_append] at listed packed
  rw [← listed] at packed length moved
  rw [List.length_nil] at packed length moved used lower pageId flags
  dsimp only at used lower pageId flags
  obtain ⟨sound', records⟩ := packed.clearFree (by omega) (by rw [lower, length, directory])
    (by rw [flags]; exact formed.flagged)
  have fields (q : Page) : q.clearFree.upperOffset = q.upperOffset ∧
      q.clearFree.lowerOffset = q.lowerOffset ∧ q.clearFree.pageId = q.pageId ∧
      q.clearFree.flags = q.flags := by
    unfold Page.clearFree
    split <;> exact ⟨rfl, rfl, rfl, rfl⟩
  obtain ⟨upper', lower', pageId', flags'⟩ := fields
    ({ p with upperOffset := pageSize }.moveRecords 0 p.activeRecords)
  exact ⟨sound', records.trans moved, (congrArg (· + _) upper').trans used, lower'.trans lower,
    pageId'.trans pageId, flags'.trans flags⟩

/-- The records of slots that lie one below the other have room. -/
theorem Sound.room {p : Page} (sound : p.Sound) :
    p.upperOffset + total p.activeRecords ≤ pageSize := by
  have formed := sound.formed
  rw [formed.total_records]
  exact descending_sum sound.descending formed.bound formed.inside

theorem Sound.compact {p : Page} (sound : p.Sound) :
    p.compact.Sound ∧ p.compact.activeRecords = p.activeRecords ∧
      p.compact.upperOffset + total p.activeRecords = pageSize ∧
      p.compact.lowerOffset = p.lowerOffset ∧ p.compact.pageId = p.pageId ∧
      p.compact.flags = p.flags := by
  apply sound.formed.compact
  have room := sound.room
  have ordered := sound.formed.ordered
  omega

end CachyDb.Page
