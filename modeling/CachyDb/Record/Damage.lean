import CachyDb.Record.Format

set_option autoImplicit false

/-! A packed record that was cut, extended or changed is rejected. -/

namespace CachyDb.Record

open ByteString Crc32

/-- The bytes under the checksum, which stand in a row beside the magic value. -/
def body (raw : Bytes) : Bytes := field raw 0 4 ++ field raw 8 (raw.length - 12)

/-- What an accepted record is known to be, whatever its fields are. -/
structure Intact (raw : Bytes) : Prop where
  long : minRecordSize ≤ raw.length
  recordLength : ofBE (field raw 0 4) = raw.length
  magic : ofBE (field raw 4 4) = magicValue
  checksum : ofBE (field raw (raw.length - 4) 4) = crc32 (body raw)

/-- The parts under the checksum follow one another. -/
theorem body_eq {raw keyBytes : Bytes} {keyLength valueLength : Nat}
    (length : raw.length = 12 + keyLength + 4 + valueLength + 4)
    (key : field raw 12 keyLength = keyBytes) :
    body raw = field raw 0 4 ++ field raw 8 4 ++ keyBytes ++ field raw (12 + keyLength) 4 ++
      field raw (12 + keyLength + 4) valueLength := by
  have width : raw.length - 12 = 4 + keyLength + 4 + valueLength := by omega
  have keyEnd : 8 + (4 + keyLength) = 12 + keyLength := by omega
  have valueStart : 8 + (4 + keyLength + 4) = 12 + keyLength + 4 := by omega
  rw [body, width, field_add, field_add, field_add, key, keyEnd, valueStart]
  simp only [List.append_assoc]

theorem Parts.intact {packed keyBytes valueBytes : Bytes}
    (parts : Parts packed keyBytes valueBytes) : Intact packed := by
  have length := parts.length
  have atEnd : packed.length - 4 = 12 + keyBytes.length + 4 + valueBytes.length := by omega
  refine ⟨by simp only [minRecordSize]; omega, parts.recordNumber.1, parts.magicNumber, ?_⟩
  rw [atEnd, parts.checksumNumber, calculateChecksum, body_eq length parts.key, parts.value]

theorem unpackRecord_intact {json : Json} {cipher : Cipher} {raw encryptionKey : Bytes}
    {key : String} {value : Value}
    (result : unpackRecord json cipher raw encryptionKey = .ok (key, value)) : Intact raw := by
  unfold unpackRecord at result
  obtain ⟨_, result⟩ := bind_ok.mp result
  obtain ⟨long, result⟩ := guard_ok.mp result
  obtain ⟨_, result⟩ := guard_ok.mp result
  obtain ⟨_, result⟩ := guard_ok.mp result
  obtain ⟨magic, result⟩ := guard_ok.mp result
  obtain ⟨_, result⟩ := bind_ok.mp result
  obtain ⟨_, result⟩ := guard_ok.mp result
  dsimp only at result
  split at result
  · cases result
  · obtain ⟨_, result⟩ := guard_ok.mp result
    obtain ⟨_, result⟩ := bind_ok.mp result
    obtain ⟨_, result⟩ := guard_ok.mp result
    obtain ⟨_, result⟩ := guard_ok.mp result
    obtain ⟨checksum, result⟩ := guard_ok.mp result
    obtain ⟨_, result⟩ := guard_ok.mp result
    split at result
    · cases result
    · split at result
      · cases result
      · obtain ⟨recordEnd, result⟩ := guard_ok.mp result
        obtain ⟨recordLength, _⟩ := guard_ok.mp result
        rw [not_not] at magic checksum recordEnd recordLength
        have length := recordLength.trans recordEnd.symm
        have atEnd := Nat.sub_eq_of_eq_add length
        refine ⟨Nat.le_of_not_lt long, recordLength.symm, magic, ?_⟩
        rw [atEnd, checksum, calculateChecksum, body_eq length rfl]

section

variable {raw : Bytes}

theorem Intact.take (intact : Intact raw) {count : Nat} (proper : count < raw.length) :
    ¬ Intact (raw.take count) := by
  intro shorter
  have long := shorter.long
  have length := shorter.recordLength
  rw [List.length_take] at long length
  simp only [minRecordSize] at long
  rw [field_take (by omega), intact.recordLength] at length
  omega

theorem Intact.append (intact : Intact raw) {extra : Bytes} (nonempty : extra ≠ []) :
    ¬ Intact (raw ++ extra) := by
  intro longer
  have long := intact.long
  have length := longer.recordLength
  have positive := List.length_pos_iff.mpr nonempty
  simp only [minRecordSize] at long
  rw [field_front extra (by omega), intact.recordLength, List.length_append] at length
  omega

/-- A field has another number when a byte of it is another. -/
theorem ofBE_field_set (start width : Nat) {i : Nat} (inside : start + width ≤ raw.length)
    (behind : start ≤ i) (before : i < start + width) {byte : UInt8}
    (different : some byte ≠ raw[i]?) :
    ofBE (field (raw.set i byte) start width) ≠ ofBE (field raw start width) := by
  intro same
  rw [field_set behind] at same
  have fields := ofBE_inj (List.length_set) same
  have here := congrArg (fun bytes => bytes[i - start]?) fields
  have known := field_length inside
  simp only [List.getElem?_set_self (show i - start < (field raw start width).length by omega),
    field_getElem, show i - start < width by omega, ↓reduceIte, Nat.add_sub_cancel' behind] at here
  exact different here

theorem body_length (long : 12 ≤ raw.length) : (body raw).length = raw.length - 8 := by
  rw [body, List.length_append, field_length (by omega), field_length (by omega)]
  omega

theorem body_set {i : Nat} (long : 12 ≤ raw.length) (behind : 8 ≤ i) (byte : UInt8) :
    body (raw.set i byte) = (body raw).set (i - 4) byte := by
  have front := field_length (show 0 + 4 ≤ raw.length by omega)
  have position : i - 4 - 4 = i - 8 := by omega
  rw [body, body, List.length_set, field_set_behind (by omega), field_set behind,
    List.set_append_right _ _ (by omega), front, position]

theorem body_set_behind {i : Nat} (long : 12 ≤ raw.length) (behind : raw.length - 4 ≤ i)
    (above : 4 ≤ i) (byte : UInt8) : body (raw.set i byte) = body raw := by
  rw [body, body, List.length_set, field_set_behind (by omega), field_set_behind (by omega)]

theorem body_getElem {i : Nat} (long : 12 ≤ raw.length) (behind : 8 ≤ i)
    (inside : i < raw.length - 4) : (body raw)[i - 4]? = raw[i]? := by
  have front := field_length (show 0 + 4 ≤ raw.length by omega)
  rw [body, List.getElem?_append_right (by omega), front, field_getElem, if_pos (by omega)]
  congr 1
  omega

theorem Intact.set (intact : Intact raw) {i : Nat} (inside : i < raw.length) {byte : UInt8}
    (different : byte ≠ raw[i]) : ¬ Intact (raw.set i byte) := by
  intro changed
  have long := intact.long
  simp only [minRecordSize] at long
  have another : some byte ≠ raw[i]? := by
    rw [List.getElem?_eq_getElem inside]
    exact fun same => different (Option.some.inj same)
  have recordLength := changed.recordLength
  have magic := changed.magic
  have checksum := changed.checksum
  rw [List.length_set] at recordLength checksum
  by_cases inLength : i < 4
  · apply ofBE_field_set 0 4 (by omega) (Nat.zero_le i) (by omega) another
    rw [recordLength, intact.recordLength]
  · by_cases inMagic : i < 8
    · apply ofBE_field_set 4 4 (by omega) (by omega) (by omega) another
      rw [magic, intact.magic]
    · by_cases inBody : i < raw.length - 4
      · rw [field_set_before inBody, intact.checksum, body_set (by omega) (by omega)] at checksum
        have there : i - 4 < (body raw).length := by
          rw [body_length (by omega)]
          omega
        refine crc32_set there ?_ checksum.symm
        intro same
        apply another
        rw [same, ← List.getElem?_eq_getElem there, body_getElem (by omega) (by omega) inBody]
      · apply ofBE_field_set (raw.length - 4) 4 (by omega) (by omega) (by omega) another
        rw [checksum, intact.checksum, body_set_behind (by omega) (by omega) (by omega)]

end

/-- `unpack_record` raises a `ValueError`. -/
def Rejected (json : Json) (cipher : Cipher) (raw encryptionKey : Bytes) : Prop :=
  ∃ e, e ≠ .notSerialisable ∧ unpackRecord json cipher raw encryptionKey = .error e

/-- Not the exception of `json.dumps`. -/
def Plain {Result : Type} (outcome : Except Error Result) : Prop :=
  outcome ≠ .error .notSerialisable

section

variable {Result : Type} {rest : Except Error Result}

theorem plain_ok (result : Result) : Plain (.ok result) :=
  fun failed => (by cases failed)

theorem plain_error {e : Error} (named : e ≠ .notSerialisable) :
    Plain (.error e : Except Error Result) :=
  fun failed => named (Except.error.inj failed)

theorem plain_guard {condition : Prop} [Decidable condition] {e : Error}
    (named : e ≠ .notSerialisable) (plain : Plain rest) :
    Plain (if condition then .error e else rest) := by
  split
  · exact plain_error named
  · exact plain

theorem plain_bind {check : Except Error Unit} (checked : Plain check) (plain : Plain rest) :
    Plain (check >>= fun _ => rest) := by
  cases check with
  | error e => exact plain_error fun same => checked (congrArg Except.error same)
  | ok done => exact plain

end

theorem unpackRecord_plain (json : Json) (cipher : Cipher) (raw encryptionKey : Bytes) :
    Plain (unpackRecord json cipher raw encryptionKey) := by
  have keyChecked (n : Nat) : Plain (validateKeyLength n) :=
    plain_guard (by decide) (plain_guard (by decide) (plain_ok _))
  have valueChecked (n : Nat) : Plain (validateValueLength n) :=
    plain_guard (by decide) (plain_ok _)
  refine plain_bind (plain_guard (by decide) (plain_ok _)) (plain_guard (by decide) ?_)
  refine plain_guard (by decide) (plain_guard (by decide) (plain_guard (by decide) ?_))
  refine plain_bind (keyChecked _) (plain_guard (by decide) ?_)
  dsimp only
  split
  · exact plain_error (by decide)
  · refine plain_guard (by decide) (plain_bind (valueChecked _) ?_)
    refine plain_guard (by decide) (plain_guard (by decide) (plain_guard (by decide) ?_))
    refine plain_guard (by decide) ?_
    split
    · exact plain_error (by decide)
    · split
      · exact plain_error (by decide)
      · exact plain_guard (by decide) (plain_guard (by decide) (plain_ok _))

theorem rejected_of_not_intact (json : Json) (cipher : Cipher) {raw : Bytes} (encryptionKey : Bytes)
    (damaged : ¬ Intact raw) : Rejected json cipher raw encryptionKey := by
  have plain := unpackRecord_plain json cipher raw encryptionKey
  cases result : unpackRecord json cipher raw encryptionKey with
  | error e => exact ⟨e, fun same => plain (by rw [result, same]), result⟩
  | ok accepted => exact absurd (unpackRecord_intact result) damaged

/-- The bytes with the bit `i` flipped. -/
def flipBit (raw : Bytes) (i : Nat) : Bytes :=
  raw.set (i / 8) (raw.getD (i / 8) 0 ^^^ (1 <<< UInt8.ofNat (i % 8)))

theorem flipped_ne (byte : UInt8) (i : Nat) : byte ^^^ (1 <<< UInt8.ofNat (i % 8)) ≠ byte := by
  have masks : ∀ bit < 8, (1 : UInt8) <<< UInt8.ofNat bit ≠ 0 := by decide
  intro same
  apply masks (i % 8) (Nat.mod_lt _ (by decide))
  exact (UInt8.xor_right_inj byte).mp (same.trans UInt8.xor_zero.symm)

/-- A packed record that lost bytes at its end, got bytes behind it or has one bit flipped is
rejected, whatever key it is read with. -/
theorem damaged_rejected (json : Json) (cipher : Cipher) {nonce : Bytes} {key : String}
    {value : Value} {encryptionKey packed : Bytes}
    (result : packRecord json cipher nonce key value encryptionKey = .ok packed)
    (encryptionKey' : Bytes) :
    (∀ count < packed.length, Rejected json cipher (packed.take count) encryptionKey') ∧
      (∀ extra, extra ≠ [] → Rejected json cipher (packed ++ extra) encryptionKey') ∧
      ∀ i < 8 * packed.length, Rejected json cipher (flipBit packed i) encryptionKey' := by
  obtain ⟨_, text, _, parts⟩ := packRecord_parts result
  have intact := parts.intact
  refine ⟨fun count proper => ?_, fun extra nonempty => ?_, fun i inside => ?_⟩
  · exact rejected_of_not_intact json cipher encryptionKey' (intact.take proper)
  · exact rejected_of_not_intact json cipher encryptionKey' (intact.append nonempty)
  · have here : i / 8 < packed.length := by omega
    apply rejected_of_not_intact
    rw [flipBit, List.getD_eq_getElem?_getD, List.getElem?_eq_getElem here, Option.getD_some]
    exact intact.set here (flipped_ne _ i)

theorem damaged_rejected_null :
    Rejected wordJson chaCha20Poly1305 (flipBit nullRecord 135)
      (List.replicate encryptionKeySize 0) :=
  (damaged_rejected wordJson chaCha20Poly1305 packRecord_null _).2.2 135 (by decide)

end CachyDb.Record
