import Mathlib.Algebra.GroupWithZero.Nat
import Mathlib.Data.List.Induction

set_option autoImplicit false

/-! Byte strings and the fixed-width big-endian integers packed into them. -/

namespace ByteString

abbrev Bytes := List UInt8

/-- The last `width` base-256 digits of `n`, most significant first. -/
def toBE : Nat → Nat → Bytes
  | 0, _ => []
  | width + 1, n => toBE width (n / 256) ++ [UInt8.ofNat n]

def ofBE (bytes : Bytes) : Nat :=
  bytes.foldl (fun acc byte => acc * 256 + byte.toNat) 0

@[simp] theorem toBE_length (width n : Nat) : (toBE width n).length = width := by
  induction width generalizing n with
  | zero => rfl
  | succ width ih => simp only [toBE, List.length_append, ih, List.length_singleton]

@[simp] theorem ofBE_nil : ofBE [] = 0 := rfl

theorem ofBE_append_singleton (bytes : Bytes) (byte : UInt8) :
    ofBE (bytes ++ [byte]) = ofBE bytes * 256 + byte.toNat := by
  simp only [ofBE, List.foldl_append, List.foldl_cons, List.foldl_nil]

theorem ofBE_toBE_mod (width n : Nat) : ofBE (toBE width n) = n % 256 ^ width := by
  induction width generalizing n with
  | zero => simp [toBE, Nat.mod_one]
  | succ width ih =>
      have low : (UInt8.ofNat n).toNat = n % 256 := UInt8.toNat_ofNat'
      rw [toBE, ofBE_append_singleton, ih, low, Nat.pow_succ, Nat.mul_comm (256 ^ width) 256,
        Nat.mod_mul, Nat.add_comm, Nat.mul_comm]

/-- Packing then unpacking is the identity on every integer the field can hold. -/
theorem ofBE_toBE {width n : Nat} (fits : n < 256 ^ width) : ofBE (toBE width n) = n := by
  rw [ofBE_toBE_mod, Nat.mod_eq_of_lt fits]

theorem ofBE_lt (bytes : Bytes) : ofBE bytes < 256 ^ bytes.length := by
  induction bytes using List.reverseRecOn with
  | nil => simp
  | append_singleton bytes byte ih =>
      have digit : byte.toNat < 256 := byte.toNat_lt
      rw [ofBE_append_singleton, List.length_append, List.length_singleton, Nat.pow_succ]
      omega

/-- A number has one representation of each width. -/
theorem ofBE_inj {left right : Bytes} (length : left.length = right.length)
    (same : ofBE left = ofBE right) : left = right := by
  induction left using List.reverseRecOn generalizing right with
  | nil => exact (List.length_eq_zero_iff.mp length.symm).symm
  | append_singleton left byte ih =>
      cases right using List.reverseRecOn with
      | nil => simp at length
      | append_singleton right byte' =>
          rw [ofBE_append_singleton, ofBE_append_singleton] at same
          have digit : byte.toNat < 256 := byte.toNat_lt
          have digit' : byte'.toNat < 256 := byte'.toNat_lt
          have shorter : left.length = right.length := by simpa using length
          have front := ih shorter (by omega)
          have last : byte = byte' := UInt8.toNat_inj.mp (by omega)
          rw [front, last]

/-- Unpacking then packing is the identity on every field. -/
theorem toBE_ofBE {bytes : Bytes} {width : Nat} (length : bytes.length = width) :
    toBE width (ofBE bytes) = bytes := by
  have fits := ofBE_lt bytes
  rw [length] at fits
  exact ofBE_inj (by rw [toBE_length, length]) (ofBE_toBE fits)

/-- The field of `width` bytes at `start`, as `struct.unpack` cuts it out. -/
def field (data : Bytes) (start width : Nat) : Bytes := (data.drop start).take width

theorem field_zero (front back : Bytes) {width : Nat} (exact : front.length = width) :
    field (front ++ back) 0 width = front := by
  rw [field, List.drop_zero, List.take_left' exact]

theorem field_append (start : Nat) (front mid back : Bytes) {width : Nat} (before : front.length = start)
    (exact : mid.length = width) : field (front ++ mid ++ back) start width = mid := by
  rw [field, List.append_assoc, List.drop_left' before, List.take_left' exact]

theorem field_getElem (data : Bytes) (start width i : Nat) :
    (field data start width)[i]? = if i < width then data[start + i]? else none := by
  rw [field, List.getElem?_take, List.getElem?_drop]

/-- The first `cut` bytes of the new content, and the old content behind them. -/
def torn (new old : Bytes) (cut : Nat) : Bytes := new.take cut ++ old.drop cut

theorem torn_length {new old : Bytes} (length : new.length = old.length) (cut : Nat) :
    (torn new old cut).length = old.length := by
  rw [torn, List.length_append, List.length_take, List.length_drop]
  omega

theorem torn_getElem {new old : Bytes} (length : new.length = old.length) (cut i : Nat) :
    (torn new old cut)[i]? = if i < cut then new[i]? else old[i]? := by
  unfold torn
  by_cases front : i < cut
  · rw [if_pos front]
    by_cases inside : i < new.length
    · rw [List.getElem?_append_left (by rw [List.length_take]; omega), List.getElem?_take,
        if_pos front]
    · rw [List.getElem?_eq_none (by rw [List.length_append, List.length_take, List.length_drop]; omega),
        List.getElem?_eq_none (by omega)]
  · rw [if_neg front]
    by_cases inside : cut < new.length
    · rw [List.getElem?_append_right (by rw [List.length_take]; omega), List.length_take,
        List.getElem?_drop]
      congr 1
      omega
    · rw [List.getElem?_eq_none (by rw [List.length_append, List.length_take, List.length_drop]; omega),
        List.getElem?_eq_none (by omega)]

/-- Where the contents agree a torn write does no harm. -/
theorem field_torn {new old : Bytes} (length : new.length = old.length) (cut : Nat)
    {start width : Nat} (same : field new start width = field old start width) :
    field (torn new old cut) start width = field old start width := by
  apply List.ext_getElem?
  intro i
  have at_i := congrArg (fun bytes : Bytes => bytes[i]?) same
  rw [field_getElem, field_getElem] at at_i
  rw [field_getElem, field_getElem, torn_getElem length]
  split
  · rename_i inside
    rw [if_pos inside, if_pos inside] at at_i
    split
    · exact at_i
    · rfl
  · rfl

theorem field_torn_old {new old : Bytes} (length : new.length = old.length) {cut start : Nat}
    (behind : cut ≤ start) (width : Nat) :
    field (torn new old cut) start width = field old start width := by
  apply List.ext_getElem?
  intro i
  rw [field_getElem, field_getElem, torn_getElem length]
  split
  · rw [if_neg (by omega)]
  · rfl

theorem field_torn_new {new old : Bytes} (length : new.length = old.length) {cut start width : Nat}
    (before : start + width ≤ cut) :
    field (torn new old cut) start width = field new start width := by
  apply List.ext_getElem?
  intro i
  rw [field_getElem, field_getElem, torn_getElem length]
  split
  · rw [if_pos (by omega)]
  · rfl

theorem field_length {data : Bytes} {start width : Nat} (inside : start + width ≤ data.length) :
    (field data start width).length = width := by
  rw [field, List.length_take, List.length_drop]
  omega

theorem field_part {data part rest : Bytes} {start width : Nat} (here : data.drop start = part ++ rest)
    (exact : part.length = width) : field data start width = part := by
  rw [field, here, List.take_left' exact]

theorem drop_part {data part rest : Bytes} {start width : Nat} (here : data.drop start = part ++ rest)
    (exact : part.length = width) : data.drop (start + width) = rest := by
  rw [← List.drop_drop, here, List.drop_left' exact]

/-- Two fields in a row are one field. -/
theorem field_add (data : Bytes) (start width width' : Nat) :
    field data start (width + width') = field data start width ++ field data (start + width) width' := by
  simp only [field, List.take_add, List.drop_drop]

theorem field_take {data : Bytes} {start width count : Nat} (inside : start + width ≤ count) :
    field (data.take count) start width = field data start width := by
  simp only [field, List.drop_take, List.take_take]
  congr 1
  omega

theorem field_front {data : Bytes} (back : Bytes) {start width : Nat}
    (inside : start + width ≤ data.length) :
    field (data ++ back) start width = field data start width := by
  have cut : (data ++ back).take data.length = data := List.take_left
  rw [← field_take inside, cut]

theorem field_set_before {data : Bytes} {start i : Nat} (before : i < start) (width : Nat)
    (byte : UInt8) : field (data.set i byte) start width = field data start width := by
  simp only [field, List.drop_set_of_lt before]

theorem field_set {data : Bytes} {start i : Nat} (behind : start ≤ i) (width : Nat) (byte : UInt8) :
    field (data.set i byte) start width = (field data start width).set (i - start) byte := by
  simp only [field, List.drop_set, Nat.not_lt.mpr behind, ↓reduceIte, List.take_set]

theorem field_set_behind {data : Bytes} {start width i : Nat} (behind : start + width ≤ i)
    (byte : UInt8) : field (data.set i byte) start width = field data start width := by
  rw [field_set (by omega)]
  apply List.set_eq_of_length_le
  simp only [field, List.length_take]
  omega

end ByteString
