import CachyDb.Lib.ChaCha20
import CachyDb.Lib.Crc32
import CachyDb.Storage.Record

set_option autoImplicit false

/-! The encrypted record: what is packed is unpacked again. -/

namespace CachyDb.Record

open ByteString Crc32

def magicValue : Nat := 0x43444231

def minKeySize : Nat := 1

def maxKeySize : Nat := 4096

def maxValueSize : Nat := 16 * 1024 * 1024

def encryptionKeySize : Nat := 32

def nonceSize : Nat := 12

def macTagSize : Nat := 16

def minEncryptedSize : Nat := nonceSize + macTagSize

def minRecordSize : Nat := 20

def sanityLimit : Nat := 0x10000000

/-- `ChaCha20Poly1305`: what it encrypts with a key and a nonce it decrypts with them, and
the tag takes 16 bytes. `None` stands for the exception of a failed decryption. -/
structure Cipher where
  encrypt : Bytes → Bytes → Bytes → Bytes
  decrypt : Bytes → Bytes → Bytes → Option Bytes
  encrypt_length : ∀ key nonce data, (encrypt key nonce data).length = data.length + macTagSize
  decrypt_encrypt : ∀ key nonce data, key.length = encryptionKeySize → nonce.length = nonceSize →
    decrypt key nonce (encrypt key nonce data) = some data

def chaCha20Poly1305 : Cipher where
  encrypt := ChaCha20.encrypt
  decrypt := ChaCha20.decrypt
  encrypt_length := ChaCha20.encrypt_length
  decrypt_encrypt key nonce data _ _ := ChaCha20.decrypt_encrypt key nonce data

/-- One name for each message. All of them are `ValueError`s but `notSerialisable`, which
only `pack_record` raises. -/
inductive Error
  | encryptionKey
  | notSerialisable
  | keyTooShort
  | keyTooLong
  | valueTooLong
  | recordTooLong
  | incompleteRecord
  | recordLengthTooLarge
  | recordLengthTooSmall
  | magic
  | incompleteKey
  | keyText
  | incompleteValueLength
  | incompleteValue
  | incompleteChecksum
  | checksum
  | shortValue
  | decryption
  | payload
  | recordEnd
  | recordLength
  deriving DecidableEq, Repr

def validateEncryptionKey (encryptionKey : Bytes) : Except Error Unit :=
  if encryptionKey.length ≠ encryptionKeySize then .error .encryptionKey else .ok ()

def validateKeyLength (keyLength : Nat) : Except Error Unit :=
  if keyLength < minKeySize then .error .keyTooShort
  else if maxKeySize < keyLength then .error .keyTooLong
  else .ok ()

/-- `MIN_VALUE_SIZE` is zero. -/
def validateValueLength (valueLength : Nat) : Except Error Unit :=
  if maxValueSize < valueLength then .error .valueTooLong else .ok ()

/-- The magic value is not covered. -/
def calculateChecksum (recordLength keyLength key valueLength value : Bytes) : Nat :=
  crc32 (recordLength ++ keyLength ++ key ++ valueLength ++ value)

/-- The nonce is what `os.urandom` returned. -/
def packRecord (json : Json) (cipher : Cipher) (nonce : Bytes) (key : String) (value : Value)
    (encryptionKey : Bytes) : Except Error Bytes := do
  validateEncryptionKey encryptionKey
  let keyBytes := encodeKey key
  match json.dumps value with
  | none => .error .notSerialisable
  | some rawValueBytes =>
      let valueBytes := nonce ++ cipher.encrypt encryptionKey nonce rawValueBytes
      validateKeyLength keyBytes.length
      validateValueLength valueBytes.length
      let recordLength := 4 + 4 + keyBytes.length + 4 + valueBytes.length + 4 + 4
      if recordLength > 0xFFFFFFFF then .error .recordTooLong
      else
        let checksum := calculateChecksum (toBE 4 recordLength) (toBE 4 keyBytes.length) keyBytes
          (toBE 4 valueBytes.length) valueBytes
        .ok (toBE 4 recordLength ++ toBE 4 magicValue ++ toBE 4 keyBytes.length ++ keyBytes ++
          toBE 4 valueBytes.length ++ valueBytes ++ toBE 4 checksum)

def unpackRecord (json : Json) (cipher : Cipher) (packed : Bytes) (encryptionKey : Bytes) :
    Except Error (String × Value) := do
  validateEncryptionKey encryptionKey
  if packed.length < minRecordSize then .error .incompleteRecord
  else
    let recordLength := ofBE (field packed 0 4)
    if recordLength > sanityLimit then .error .recordLengthTooLarge
    else if recordLength < minRecordSize then .error .recordLengthTooSmall
    else if ofBE (field packed 4 4) ≠ magicValue then .error .magic
    else
      let keyLength := ofBE (field packed 8 4)
      validateKeyLength keyLength
      let keyEnd := 12 + keyLength
      if keyEnd > packed.length then .error .incompleteKey
      else
        let keyBytes := field packed 12 keyLength
        match decodeKey keyBytes with
        | none => .error .keyText
        | some key =>
            if keyEnd + 4 > packed.length then .error .incompleteValueLength
            else
              let valueLength := ofBE (field packed keyEnd 4)
              validateValueLength valueLength
              let valueOffset := keyEnd + 4
              let valueEnd := valueOffset + valueLength
              if valueEnd > packed.length then .error .incompleteValue
              else if valueEnd + 4 > packed.length then .error .incompleteChecksum
              else
                let encryptedValueBytes := field packed valueOffset valueLength
                let checksum := ofBE (field packed valueEnd 4)
                let calculatedChecksum := calculateChecksum (field packed 0 4) (field packed 8 4)
                  keyBytes (field packed keyEnd 4) encryptedValueBytes
                if checksum ≠ calculatedChecksum then .error .checksum
                else if encryptedValueBytes.length < minEncryptedSize then .error .shortValue
                else
                  match cipher.decrypt encryptionKey (encryptedValueBytes.take nonceSize)
                      (encryptedValueBytes.drop nonceSize) with
                  | none => .error .decryption
                  | some decryptedValueBytes =>
                      match json.loads decryptedValueBytes with
                      | none => .error .payload
                      | some value =>
                          if valueEnd + 4 ≠ recordLength then .error .recordEnd
                          else if packed.length ≠ recordLength then .error .recordLength
                          else .ok (key, value)

theorem bind_ok {Result : Type} {check : Except Error Unit} {rest : Unit → Except Error Result}
    {result : Result} :
    (check >>= rest) = .ok result ↔ check = .ok () ∧ rest () = .ok result := by
  cases check with
  | error e => exact ⟨fun failed => (by cases failed), fun failed => (by cases failed.1)⟩
  | ok done => exact ⟨fun passed => ⟨rfl, passed⟩, fun passed => passed.2⟩

theorem guard_ok {Result : Type} {condition : Prop} [Decidable condition] {e : Error}
    {rest : Except Error Result} {result : Result} :
    (if condition then .error e else rest) = .ok result ↔ ¬ condition ∧ rest = .ok result := by
  by_cases holds : condition
  · rw [if_pos holds]
    exact ⟨fun failed => (by cases failed), fun passed => absurd holds passed.1⟩
  · rw [if_neg holds]
    exact ⟨fun passed => ⟨holds, passed⟩, fun passed => passed.2⟩

theorem validateEncryptionKey_ok {encryptionKey : Bytes} :
    validateEncryptionKey encryptionKey = .ok () ↔ encryptionKey.length = encryptionKeySize := by
  rw [validateEncryptionKey, guard_ok, not_not]
  exact and_iff_left rfl

theorem validateKeyLength_ok {keyLength : Nat} :
    validateKeyLength keyLength = .ok () ↔ minKeySize ≤ keyLength ∧ keyLength ≤ maxKeySize := by
  rw [validateKeyLength, guard_ok, guard_ok, Nat.not_lt, Nat.not_lt]
  exact and_congr_right fun _ => and_iff_left rfl

theorem validateValueLength_ok {valueLength : Nat} :
    validateValueLength valueLength = .ok () ↔ valueLength ≤ maxValueSize := by
  rw [validateValueLength, guard_ok, Nat.not_lt]
  exact and_iff_left rfl

/-- A record with the bytes of the key and of the value. -/
structure Parts (packed keyBytes valueBytes : Bytes) : Prop where
  keyLong : minKeySize ≤ keyBytes.length
  keyShort : keyBytes.length ≤ maxKeySize
  valueShort : valueBytes.length ≤ maxValueSize
  length : packed.length = 12 + keyBytes.length + 4 + valueBytes.length + 4
  recordLength : field packed 0 4 = toBE 4 packed.length
  magic : field packed 4 4 = toBE 4 magicValue
  keyLength : field packed 8 4 = toBE 4 keyBytes.length
  key : field packed 12 keyBytes.length = keyBytes
  valueLength : field packed (12 + keyBytes.length) 4 = toBE 4 valueBytes.length
  value : field packed (12 + keyBytes.length + 4) valueBytes.length = valueBytes
  checksum : field packed (12 + keyBytes.length + 4 + valueBytes.length) 4 =
    toBE 4 (calculateChecksum (field packed 0 4) (field packed 8 4) keyBytes
      (field packed (12 + keyBytes.length) 4) valueBytes)

theorem packRecord_parts {json : Json} {cipher : Cipher} {nonce : Bytes} {key : String}
    {value : Value} {encryptionKey packed : Bytes}
    (result : packRecord json cipher nonce key value encryptionKey = .ok packed) :
    encryptionKey.length = encryptionKeySize ∧ ∃ text, json.dumps value = some text ∧
      Parts packed (encodeKey key) (nonce ++ cipher.encrypt encryptionKey nonce text) := by
  unfold packRecord at result
  obtain ⟨valid, result⟩ := bind_ok.mp result
  refine ⟨validateEncryptionKey_ok.mp valid, ?_⟩
  cases written : json.dumps value with
  | none =>
      rw [written] at result
      cases result
  | some text =>
      refine ⟨text, rfl, ?_⟩
      rw [written] at result
      obtain ⟨keyLength, result⟩ := bind_ok.mp result
      obtain ⟨valueLength, result⟩ := bind_ok.mp result
      obtain ⟨_, result⟩ := guard_ok.mp result
      obtain ⟨keyLong, keyShort⟩ := validateKeyLength_ok.mp keyLength
      have valueShort := validateValueLength_ok.mp valueLength
      have made := (Except.ok.inj result).symm
      generalize encodeKey key = keyBytes at *
      generalize nonce ++ cipher.encrypt encryptionKey nonce text = valueBytes at *
      simp only [List.append_assoc] at made
      have length : packed.length = 4 + 4 + keyBytes.length + 4 + valueBytes.length + 4 + 4 := by
        rw [made]
        simp only [List.length_append, toBE_length]
        omega
      rw [← length] at made
      have at0 : packed.drop 0 = _ := made
      have at4 := drop_part at0 (toBE_length 4 _)
      have at8 := drop_part at4 (toBE_length 4 _)
      have atKey := drop_part at8 (toBE_length 4 _)
      have atValueLength := drop_part atKey rfl
      have atValue := drop_part atValueLength (toBE_length 4 _)
      have atChecksum := drop_part atValue rfl
      have recordLength := field_part at0 (toBE_length 4 _)
      have keyLength := field_part at8 (toBE_length 4 _)
      have valueLength := field_part atValueLength (toBE_length 4 _)
      refine ⟨keyLong, keyShort, valueShort, by omega, recordLength,
        field_part at4 (toBE_length 4 _), keyLength, field_part atKey rfl, valueLength,
        field_part atValue rfl, ?_⟩
      simp only [Nat.zero_add, Nat.reduceAdd] at recordLength keyLength valueLength atChecksum
      rw [recordLength, keyLength, valueLength, field, atChecksum]
      exact List.take_of_length_le (Nat.le_of_eq (toBE_length 4 _))

section

variable {packed keyBytes valueBytes : Bytes}

/-- A record that can be packed is far below the limits of its numbers. -/
theorem Parts.recordNumber (parts : Parts packed keyBytes valueBytes) :
    ofBE (field packed 0 4) = packed.length ∧ packed.length ≤ sanityLimit := by
  have length := parts.length
  have keyShort := parts.keyShort
  have valueShort := parts.valueShort
  have bound : packed.length ≤ sanityLimit := by
    simp only [maxKeySize, maxValueSize, sanityLimit] at *
    omega
  refine ⟨?_, bound⟩
  rw [parts.recordLength, ofBE_toBE]
  simp only [sanityLimit] at bound
  omega

theorem Parts.magicNumber (parts : Parts packed keyBytes valueBytes) :
    ofBE (field packed 4 4) = magicValue := by
  rw [parts.magic]
  decide +kernel

theorem Parts.keyNumber (parts : Parts packed keyBytes valueBytes) :
    ofBE (field packed 8 4) = keyBytes.length := by
  have short := parts.keyShort
  rw [parts.keyLength, ofBE_toBE]
  simp only [maxKeySize] at short
  omega

theorem Parts.valueNumber (parts : Parts packed keyBytes valueBytes) :
    ofBE (field packed (12 + keyBytes.length) 4) = valueBytes.length := by
  have short := parts.valueShort
  rw [parts.valueLength, ofBE_toBE]
  simp only [maxValueSize] at short
  omega

theorem Parts.checksumNumber (parts : Parts packed keyBytes valueBytes) :
    ofBE (field packed (12 + keyBytes.length + 4 + valueBytes.length) 4) =
      calculateChecksum (field packed 0 4) (field packed 8 4) keyBytes
        (field packed (12 + keyBytes.length) 4) valueBytes := by
  rw [parts.checksum, ofBE_toBE]
  exact crc32_lt _

end

/-- What was packed is unpacked, if the value survives JSON. -/
theorem unpack_packed (json : Json) (cipher : Cipher) {nonce : Bytes}
    (random : nonce.length = nonceSize) {key : String} {value : Value}
    (faithful : json.Faithful value) {encryptionKey packed : Bytes}
    (result : packRecord json cipher nonce key value encryptionKey = .ok packed) :
    unpackRecord json cipher packed encryptionKey = .ok (key, value) := by
  obtain ⟨valid, text, written, parts⟩ := packRecord_parts result
  obtain ⟨text', written', read⟩ := faithful
  rw [written, Option.some.injEq] at written'
  subst written'
  have ciphertext := cipher.encrypt_length encryptionKey nonce text
  have decrypted := cipher.decrypt_encrypt encryptionKey nonce text valid random
  have long : minEncryptedSize ≤ (nonce ++ cipher.encrypt encryptionKey nonce text).length := by
    rw [List.length_append, random, ciphertext, minEncryptedSize]
    omega
  have length := parts.length
  obtain ⟨recordNumber, sane⟩ := parts.recordNumber
  simp only [unpackRecord, recordNumber, parts.magicNumber, parts.keyNumber, parts.key,
    decodeKey_encodeKey, parts.valueNumber, parts.value, parts.checksumNumber,
    List.take_left' random, List.drop_left' random, decrypted, read]
  -- every check passes, in the order of the source
  refine bind_ok.mpr ⟨validateEncryptionKey_ok.mpr valid, ?_⟩
  refine guard_ok.mpr ⟨by simp only [minRecordSize]; omega, ?_⟩
  refine guard_ok.mpr ⟨by omega, guard_ok.mpr ⟨by simp only [minRecordSize]; omega, ?_⟩⟩
  refine guard_ok.mpr ⟨not_not.mpr rfl, ?_⟩
  refine bind_ok.mpr ⟨validateKeyLength_ok.mpr ⟨parts.keyLong, parts.keyShort⟩, ?_⟩
  refine guard_ok.mpr ⟨by omega, guard_ok.mpr ⟨by omega, ?_⟩⟩
  refine bind_ok.mpr ⟨validateValueLength_ok.mpr parts.valueShort, ?_⟩
  refine guard_ok.mpr ⟨by omega, guard_ok.mpr ⟨by omega, ?_⟩⟩
  refine guard_ok.mpr ⟨not_not.mpr rfl, guard_ok.mpr ⟨by omega, ?_⟩⟩
  exact guard_ok.mpr ⟨by omega, guard_ok.mpr ⟨by omega, rfl⟩⟩

/-- `None` under the key `a`, with a key and a nonce of zeros. -/
def nullRecord : Bytes :=
  [0x00, 0x00, 0x00, 0x35,
    0x43, 0x44, 0x42, 0x31,
    0x00, 0x00, 0x00, 0x01,
    0x61,
    0x00, 0x00, 0x00, 0x20,
    0x00, 0x00, 0x00, 0x00, 0x00, 0x00, 0x00, 0x00, 0x00, 0x00, 0x00, 0x00,
    0xF1, 0x72, 0x8B, 0xD2, 0x68, 0x83, 0x81, 0x4F, 0xFA, 0xFA, 0x11, 0x92,
    0xB5, 0xA1, 0x9D, 0x83, 0x37, 0x62, 0x30, 0xD1,
    0xAB, 0x7D, 0x9D, 0x9A]

theorem encrypt_null : chaCha20Poly1305.encrypt (List.replicate encryptionKeySize 0)
    (List.replicate nonceSize 0) nullBytes = field nullRecord 29 20 := by
  decide +kernel

theorem packRecord_null : packRecord wordJson chaCha20Poly1305 (List.replicate nonceSize 0) "a" .null
    (List.replicate encryptionKeySize 0) = .ok nullRecord := by
  simp only [packRecord, wordJson.dumps_null, encrypt_null]
  decide +kernel

theorem unpack_packed_null : unpackRecord wordJson chaCha20Poly1305 nullRecord
    (List.replicate encryptionKeySize 0) = .ok ("a", .null) :=
  unpack_packed wordJson chaCha20Poly1305 List.length_replicate wordJson.faithful_null
    packRecord_null

end CachyDb.Record
