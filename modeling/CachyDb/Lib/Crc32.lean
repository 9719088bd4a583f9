import CachyDb.Lib.Bytes
import Mathlib.Logic.Function.Iterate

set_option autoImplicit false

/-! The reflected CRC-32 of zlib, one bit at a time. -/

namespace Crc32

open ByteString

def shift (crc : UInt32) : UInt32 :=
  if crc &&& 1 = 1 then (crc >>> 1) ^^^ 0xEDB88320 else crc >>> 1

def step (crc : UInt32) (byte : UInt8) : UInt32 := shift^[8] (crc ^^^ byte.toUInt32)

def crc32 (data : Bytes) : Nat := (data.foldl step 0xFFFFFFFF ^^^ 0xFFFFFFFF).toNat

theorem crc32_lt (data : Bytes) : crc32 data < 256 ^ 4 :=
  (data.foldl step 0xFFFFFFFF ^^^ 0xFFFFFFFF).toNat_lt

/-- The check value of the ASCII digits one to nine. -/
example : crc32 [0x31, 0x32, 0x33, 0x34, 0x35, 0x36, 0x37, 0x38, 0x39] = 0xCBF43926 := by
  decide +kernel

/-- A shift moves the bits down, and the lowest one to the bits of the polynomial. -/
theorem shift_bit (crc : UInt32) (i : Nat) : (shift crc).toBitVec.getLsbD i =
    (crc.toBitVec.getLsbD (i + 1) ^^ (crc.toBitVec.getLsbD 0 && (0xEDB88320#32).getLsbD i)) := by
  have low : crc.toBitVec &&& (1 : UInt32).toBitVec =
      BitVec.setWidth 32 (BitVec.ofBool (crc.toBitVec.getLsbD 0)) :=
    BitVec.and_one_eq_setWidth_ofBool_getLsbD
  have odd : crc &&& 1 = 1 ↔ crc.toBitVec.getLsbD 0 = true := by
    rw [← UInt32.toBitVec_inj, UInt32.toBitVec_and, low]
    cases crc.toBitVec.getLsbD 0 <;> decide
  unfold shift
  cases lowest : crc.toBitVec.getLsbD 0 with
  | true =>
      rw [if_pos (odd.mpr lowest)]
      simp [Nat.add_comm]
  | false =>
      rw [if_neg (mt odd.mp (by rw [lowest]; decide))]
      simp [Nat.add_comm]

/-- The highest bit of the polynomial is set, so that it tells what the lowest one was. -/
theorem shift_injective : Function.Injective shift := by
  intro crc crc' same
  have bits : ∀ i, (shift crc).toBitVec.getLsbD i = (shift crc').toBitVec.getLsbD i :=
    fun i => by rw [same]
  simp only [shift_bit] at bits
  have lowest : crc.toBitVec.getLsbD 0 = crc'.toBitVec.getLsbD 0 := by
    have highest := bits 31
    simpa using highest
  apply UInt32.toBitVec_inj.mp
  apply BitVec.eq_of_getLsbD_eq
  intro i _
  cases i with
  | zero => exact lowest
  | succ i =>
      have here := bits i
      rw [lowest] at here
      simpa using here

theorem step_inj {crc crc' : UInt32} {byte byte' : UInt8} :
    step crc byte = step crc' byte' ↔ crc ^^^ byte.toUInt32 = crc' ^^^ byte'.toUInt32 :=
  (shift_injective.iterate 8).eq_iff

theorem foldl_step_injective (data : Bytes) :
    Function.Injective fun crc => data.foldl step crc := by
  induction data with
  | nil => exact Function.injective_id
  | cons byte data ih =>
      intro crc crc' same
      have first := step_inj.mp (ih same)
      exact (UInt32.xor_left_inj _).mp first

/-- Messages that differ in one byte have different checksums. -/
theorem crc32_differs (front back : Bytes) {byte byte' : UInt8} (different : byte ≠ byte') :
    crc32 (front ++ byte :: back) ≠ crc32 (front ++ byte' :: back) := by
  intro same
  simp only [crc32, List.foldl_append, List.foldl_cons] at same
  have folded := (UInt32.xor_left_inj _).mp (UInt32.toNat_inj.mp same)
  have stepped := step_inj.mp (foldl_step_injective back folded)
  have widened := (UInt32.xor_right_inj _).mp stepped
  exact different (UInt8.toUInt32_inj.mp widened)

theorem crc32_set {data : Bytes} {i : Nat} (inside : i < data.length) {byte : UInt8}
    (different : byte ≠ data[i]) : crc32 (data.set i byte) ≠ crc32 data := by
  have cut : data = data.take i ++ data[i] :: data.drop (i + 1) := by
    rw [← List.drop_eq_getElem_cons inside, List.take_append_drop]
  intro same
  rw [List.set_eq_take_append_cons_drop, if_pos inside] at same
  apply crc32_differs (data.take i) (data.drop (i + 1)) different
  rw [same]
  exact congrArg crc32 cut

end Crc32
