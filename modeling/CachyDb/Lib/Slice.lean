import CachyDb.Lib.File

set_option autoImplicit false

/-! Slices with Python's indices: a negative index counts from the end, and one past
either end stands for that end. -/

namespace Slice

open ByteString

section

variable {Item : Type}

/-- The position that an index of a slice stands for. -/
def bound (length : Nat) (i : Int) : Nat :=
  if i < 0 then (length + i).toNat else min i.toNat length

/-- `items[start:stop]`. -/
def get (items : List Item) (start stop : Int) : List Item :=
  (items.take (bound items.length stop)).drop (bound items.length start)

/-- `items[start:stop] = piece`. A slice that stops before its start is empty, and the
piece goes in at the start. -/
def set (items : List Item) (start stop : Int) (piece : List Item) : List Item :=
  items.take (bound items.length start) ++
    (piece ++ items.drop (max (bound items.length start) (bound items.length stop)))

@[simp] theorem bound_nat (length i : Nat) : bound length i = min i length := by
  have positive : ¬ (i : Int) < 0 := by omega
  simp only [bound, positive, ↓reduceIte, Int.toNat_natCast]

end

/-- A slice of a whole buffer is a positioned read. -/
theorem get_read (file : File) (start count : Nat) :
    get (file.read 0 file.size) start ((start : Int) + count) = file.read start count := by
  have stop : (start : Int) + count = (start + count : Nat) := by omega
  rw [stop, get, bound_nat, bound_nat, File.read_length, Nat.sub_zero, Nat.min_self]
  apply List.ext_getElem
  · simp only [List.length_drop, List.length_take, File.read_length]
    omega
  · intro i left right
    rw [File.read_length] at right
    rw [List.getElem_drop, List.getElem_take, File.read_getElem, File.read_getElem,
      Nat.zero_add, Nat.min_eq_left (by omega)]

/-- Within the buffer, an assignment to a slice of the same length is a positioned
write. -/
theorem set_read {file : File} {start : Nat} {piece : Bytes}
    (inside : start + piece.length ≤ file.size) :
    set (file.read 0 file.size) start ((start : Int) + piece.length) piece =
      (file.write start piece).read 0 (file.write start piece).size := by
  have stop : (start : Int) + piece.length = (start + piece.length : Nat) := by omega
  have size : (file.write start piece).size = file.size := by
    simp only [File.write]
    split <;> omega
  rw [stop, set, bound_nat, bound_nat, File.read_length, Nat.sub_zero, Nat.min_self, size,
    Nat.min_eq_left (by omega), Nat.min_eq_left inside, Nat.max_eq_right (by omega)]
  have front : ((file.read 0 file.size).take start).length = start := by
    rw [List.length_take, File.read_length]
    omega
  apply List.ext_getElem
  · simp only [List.length_append, List.length_drop, File.read_length, front, size]
    omega
  · intro i left right
    rw [File.read_getElem, Nat.zero_add]
    by_cases before : i < start
    · rw [List.getElem_append_left (by omega), List.getElem_take, File.read_getElem, Nat.zero_add,
        File.write_byte_outside _ _ _ _ (Or.inl before)]
    · rw [List.getElem_append_right (by omega)]
      simp only [front]
      by_cases within : i - start < piece.length
      · have written := File.write_byte_inside file start piece (i - start) within
        rw [Nat.add_sub_cancel' (Nat.le_of_not_lt before)] at written
        rw [List.getElem_append_left within, written]
      · rw [List.getElem_append_right (Nat.le_of_not_lt within), List.getElem_drop,
          File.read_getElem, File.write_byte_outside _ _ _ _ (Or.inr (by omega))]
        congr 1
        omega

end Slice
