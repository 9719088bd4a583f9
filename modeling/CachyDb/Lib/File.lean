import CachyDb.Lib.Bytes

set_option autoImplicit false

/-! The content of one file: positioned reads that stop at the end of the file,
positioned writes that extend it, and the bytes a region is known to hold. -/

open ByteString

/-- Every byte at or past `size` is zero, so a write past the end leaves a gap
of zeros, as a sparse file does. -/
structure File where
  size : Nat
  byte : Nat → UInt8
  beyond : ∀ i, size ≤ i → byte i = 0

namespace File

def empty : File := ⟨0, fun _ => 0, fun _ _ => rfl⟩

/-- `seek(start)` then `read(count)`: short when the file ends first. -/
def read (file : File) (start count : Nat) : Bytes :=
  (List.range (min count (file.size - start))).map (fun i => file.byte (start + i))

/-- `seek(start)` then `write(data)`. -/
def write (file : File) (start : Nat) (data : Bytes) : File where
  size := if data.length = 0 then file.size else max file.size (start + data.length)
  byte i := if start ≤ i ∧ i < start + data.length then data.getD (i - start) 0 else file.byte i
  beyond i past := by
    have outside : ¬ (start ≤ i ∧ i < start + data.length) := by
      split at past <;> omega
    have old : file.size ≤ i := by
      split at past <;> omega
    simp only [outside, ↓reduceIte, file.beyond i old]

/-- `posix_fallocate(0, count)`: the file grows to at least `count` bytes. -/
def allocate (file : File) (count : Nat) : File where
  size := max file.size count
  byte := file.byte
  beyond i past := file.beyond i (by omega)

/-- A buffer made of the given bytes. -/
def ofBytes (data : Bytes) : File := empty.write 0 data

@[simp] theorem empty_size : empty.size = 0 := rfl

@[simp] theorem allocate_size (file : File) (count : Nat) :
    (file.allocate count).size = max file.size count := rfl

@[simp] theorem allocate_byte (file : File) (count i : Nat) :
    (file.allocate count).byte i = file.byte i := rfl

@[simp] theorem read_length (file : File) (start count : Nat) :
    (file.read start count).length = min count (file.size - start) := by
  simp [read]

theorem read_getElem (file : File) (start count i : Nat)
    (inside : i < (file.read start count).length) :
    (file.read start count)[i] = file.byte (start + i) := by
  simp [read]

theorem write_byte_inside (file : File) (start : Nat) (data : Bytes) (i : Nat)
    (inside : i < data.length) : (file.write start data).byte (start + i) = data[i] := by
  have covered : start ≤ start + i ∧ start + i < start + data.length := by omega
  simp [write, covered, inside]

theorem write_byte_outside (file : File) (start : Nat) (data : Bytes) (i : Nat)
    (outside : i < start ∨ start + data.length ≤ i) :
    (file.write start data).byte i = file.byte i := by
  have uncovered : ¬ (start ≤ i ∧ i < start + data.length) := by omega
  simp only [write, uncovered, ↓reduceIte]

theorem size_le_write (file : File) (start : Nat) (data : Bytes) :
    file.size ≤ (file.write start data).size := by
  simp only [write]
  split <;> omega

theorem end_le_write (file : File) (start : Nat) (data : Bytes) (nonempty : data ≠ []) :
    start + data.length ≤ (file.write start data).size := by
  have positive : data.length ≠ 0 := fun zero => nonempty (List.eq_nil_of_length_eq_zero zero)
  simp only [write, positive, ↓reduceIte]
  omega

/-- The file's bytes from `start` on begin with `data`. -/
def Holds (file : File) (start : Nat) (data : Bytes) : Prop :=
  ∀ i, (inside : i < data.length) → start + i < file.size ∧ file.byte (start + i) = data[i]

theorem holds_nil (file : File) (start : Nat) : file.Holds start [] := by
  intro i inside
  cases inside

theorem holds_append (file : File) (start : Nat) (front back : Bytes) :
    file.Holds start (front ++ back) ↔
      file.Holds start front ∧ file.Holds (start + front.length) back := by
  constructor
  · intro held
    refine ⟨fun i inside => ?_, fun i inside => ?_⟩
    · have at_i := held i (by simp only [List.length_append]; omega)
      rwa [List.getElem_append_left inside] at at_i
    · have at_i := held (front.length + i) (by simp only [List.length_append]; omega)
      rw [List.getElem_append_right (by omega)] at at_i
      simpa only [Nat.add_assoc, Nat.add_sub_cancel_left] using at_i
  · rintro ⟨first, second⟩ i inside
    by_cases left : i < front.length
    · rw [List.getElem_append_left left]
      exact first i left
    · rw [List.length_append] at inside
      have at_i := second (i - front.length) (by omega)
      rw [List.getElem_append_right (by omega)]
      rwa [show start + front.length + (i - front.length) = start + i by omega] at at_i

theorem Holds.end_le {file : File} {start : Nat} {data : Bytes} (held : file.Holds start data)
    (nonempty : data ≠ []) : start + data.length ≤ file.size := by
  have positive : 0 < data.length := List.length_pos_iff.mpr nonempty
  have last := (held (data.length - 1) (by omega)).1
  omega

/-- Reading exactly a held region returns it. -/
theorem Holds.read {file : File} {start : Nat} {data : Bytes} (held : file.Holds start data)
    {count : Nat} (width : data.length = count) : file.read start count = data := by
  have len : (file.read start count).length = data.length := by
    rw [read_length, ← width]
    by_cases nonempty : data = []
    · simp [nonempty]
    · have := held.end_le nonempty
      omega
  refine List.ext_getElem len (fun i inside inside' => ?_)
  rw [read_getElem]
  exact (held i inside').2

theorem write_holds_self (file : File) (start : Nat) (data : Bytes) :
    (file.write start data).Holds start data := by
  intro i inside
  have nonempty : data ≠ [] := by rintro rfl; cases inside
  have fits := end_le_write file start data nonempty
  exact ⟨by omega, write_byte_inside file start data i inside⟩

/-- A write leaves alone what is held in a region it does not touch. -/
theorem Holds.write {file : File} {start : Nat} {data : Bytes} (held : file.Holds start data)
    {start' : Nat} {data' : Bytes}
    (apart : start + data.length ≤ start' ∨ start' + data'.length ≤ start) :
    (file.write start' data').Holds start data := by
  intro i inside
  obtain ⟨bound, same⟩ := held i inside
  have grown := size_le_write file start' data'
  refine ⟨by omega, ?_⟩
  rw [write_byte_outside _ _ _ _ (by omega), same]

theorem Holds.allocate {file : File} {start : Nat} {data : Bytes} (held : file.Holds start data)
    (count : Nat) : (file.allocate count).Holds start data := by
  intro i inside
  obtain ⟨bound, same⟩ := held i inside
  exact ⟨by rw [allocate_size]; omega, same⟩

/-- Overwriting one byte of a held region replaces that byte. -/
theorem Holds.write_byte {file : File} {start : Nat} {data : Bytes} (held : file.Holds start data)
    (i : Nat) (byte : UInt8) : (file.write (start + i) [byte]).Holds start (data.set i byte) := by
  intro j inside'
  rw [List.length_set] at inside'
  obtain ⟨bound, same⟩ := held j inside'
  have grown := size_le_write file (start + i) [byte]
  refine ⟨by omega, ?_⟩
  by_cases here : i = j
  · subst here
    have written := write_byte_inside file (start + i) [byte] 0 (by simp)
    simpa using written
  · rw [List.getElem_set_ne here, write_byte_outside _ _ _ _ (by
      simp only [List.length_singleton]; omega), same]

/-- What is held as one concatenation is held piece by piece. -/
theorem Holds.flatMap {Item : Type} {file : File} {start : Nat} {items : List Item}
    {piece : Item → Bytes} (held : file.Holds start (items.flatMap piece))
    (i : Nat) (inside : i < items.length) :
    file.Holds (start + ((items.take i).flatMap piece).length) (piece items[i]) := by
  have cut : items.flatMap piece =
      (items.take i).flatMap piece ++ (piece items[i] ++ (items.drop (i + 1)).flatMap piece) := by
    rw [← List.flatMap_cons, ← List.drop_eq_getElem_cons inside, ← List.flatMap_append,
      List.take_append_drop]
  rw [cut, holds_append, holds_append] at held
  exact held.2.1

theorem eq_of_bytes {file file' : File} (size : file'.size = file.size)
    (byte : ∀ i, file'.byte i = file.byte i) : file' = file := by
  cases file with
  | mk size₀ byte₀ beyond =>
      cases file' with
      | mk size₁ byte₁ beyond' =>
          cases size
          cases funext byte
          rfl

/-- Writing what is there already changes nothing. -/
theorem Holds.write_same {file : File} {start : Nat} {data : Bytes} (held : file.Holds start data) :
    file.write start data = file := by
  apply eq_of_bytes
  · simp only [File.write]
    split
    · rfl
    · rename_i positive
      have fits := held.end_le fun empty => positive (congrArg List.length empty)
      omega
  · intro i
    by_cases inside : start ≤ i ∧ i < start + data.length
    · have here := write_byte_inside file start data (i - start) (by omega)
      have there := (held (i - start) (by omega)).2
      rw [Nat.add_sub_cancel' inside.1] at here there
      rw [here, there]
    · exact write_byte_outside file start data i (by omega)

/-- The second of two writes to one region is what counts. -/
theorem write_write (file : File) (start : Nat) {old new : Bytes} (length : new.length = old.length) :
    (file.write start old).write start new = file.write start new := by
  apply eq_of_bytes
  · show (if new.length = 0 then (file.write start old).size else
      max (file.write start old).size (start + new.length)) =
        if new.length = 0 then file.size else max file.size (start + new.length)
    simp only [write, length]
    split <;> omega
  · intro i
    by_cases inside : start ≤ i ∧ i < start + new.length
    · have here := write_byte_inside (file.write start old) start new (i - start) (by omega)
      have there := write_byte_inside file start new (i - start) (by omega)
      rw [Nat.add_sub_cancel' inside.1] at here there
      rw [here, there]
    · rw [write_byte_outside _ _ _ _ (by omega), write_byte_outside _ _ _ _ (by omega),
        write_byte_outside _ _ _ _ (by omega)]

/-- A region past the end of the file reads as nothing. -/
theorem read_past_end (file : File) (start count : Nat) (past : file.size ≤ start) :
    file.read start count = [] := by
  apply List.eq_nil_of_length_eq_zero
  rw [read_length]
  omega

end File
