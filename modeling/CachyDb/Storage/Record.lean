import Mathlib.Data.String.Basic
import CachyDb.Lib.Bytes

set_option autoImplicit false

/-! Values, their JSON text, and the payload that the router makes of a key and a
value. -/

namespace CachyDb

open ByteString

/-- A Python value as `json.dumps` takes it. -/
inductive Value
  | null
  | bool (b : Bool)
  | int (n : Int)
  | float (text : String)
  | str (s : String)
  | list (items : List Value)
  | tuple (items : List Value)
  | dict (items : List (Value × Value))

/-- `b"null"`. -/
def nullBytes : Bytes := [0x6E, 0x75, 0x6C, 0x6C]

/-- The module `json`: `dumps` followed by `encode("utf-8")`, and `decode("utf-8")`
followed by `loads`. Neither text nor value is known here, only that `None` is `null`,
that every string is written, that what is written can be read, and that the empty text
cannot. -/
structure Json where
  dumps : Value → Option Bytes
  loads : Bytes → Option Value
  dumps_null : dumps .null = some nullBytes
  dumps_str : ∀ s, (dumps (.str s)).isSome
  loads_null : loads nullBytes = some .null
  loads_dumps : ∀ value text, dumps value = some text → ∃ read, loads text = some read
  loads_nil : loads [] = none

namespace Json

/-- The value decodes back unchanged. -/
def Faithful (json : Json) (value : Value) : Prop :=
  ∃ text, json.dumps value = some text ∧ json.loads text = some value

theorem faithful_null (json : Json) : json.Faithful .null :=
  ⟨nullBytes, json.dumps_null, json.loads_null⟩

/-- Among values that decode back only `None` is written as `null`. -/
theorem Faithful.null_iff {json : Json} {value : Value} (faithful : json.Faithful value)
    {text : Bytes} (written : json.dumps value = some text) : text = nullBytes ↔ value = .null := by
  obtain ⟨text', written', read⟩ := faithful
  rw [written, Option.some.injEq] at written'
  subst written'
  constructor
  · rintro rfl
    rw [json.loads_null, Option.some.injEq] at read
    exact read.symm
  · rintro rfl
    rw [json.dumps_null, Option.some.injEq] at written
    exact written.symm

end Json

inductive RouterError
  | keyTooLong
  | notSerialisable
  | malformed
  | emptyName
  | cache
  | io
  deriving DecidableEq, Repr

/-- `key.encode("utf-8")`. -/
def encodeKey (key : String) : Bytes := key.toUTF8.data.toList

/-- `bytes.decode("utf-8")`. -/
def decodeKey (bytes : Bytes) : Option String := String.fromUTF8? ⟨bytes.toArray⟩

@[simp] theorem decodeKey_encodeKey (key : String) : decodeKey (encodeKey key) = some key := by
  have valid : ByteArray.IsValidUTF8 ⟨(encodeKey key).toArray⟩ := by
    simpa [encodeKey] using key.isValidUTF8
  rw [decodeKey, String.fromUTF8?, dif_pos valid]
  cases key
  rfl

theorem encodeKey_append (front back : String) :
    encodeKey (front ++ back) = encodeKey front ++ encodeKey back := by
  simp [encodeKey]

def maxKeyBytes : Nat := 0xFFFF

/-- `_pack_record`. -/
def packRecord (json : Json) (key : String) (value : Value) : Except RouterError Bytes :=
  let kBytes := encodeKey key
  if kBytes.length > maxKeyBytes then .error .keyTooLong
  else
    match json.dumps value with
    | none => .error .notSerialisable
    | some vBytes => .ok (toBE 2 kBytes.length ++ kBytes ++ vBytes)

/-- `_unpack_record`. -/
def unpackRecord (json : Json) (payload : Bytes) : Except RouterError (String × Value) :=
  if payload.length < 2 then .error .malformed
  else
    let kLen := ofBE (payload.take 2)
    if payload.length < 2 + kLen + 1 then .error .malformed
    else
      match decodeKey ((payload.drop 2).take kLen), json.loads (payload.drop (2 + kLen)) with
      | some key, some value => .ok (key, value)
      | _, _ => .error .malformed

/-- The test of a flush: the value bytes are `null`. -/
def isDeletion (key : String) (packed : Bytes) : Bool :=
  packed.drop (2 + (encodeKey key).length) = nullBytes

/-- A payload made by `_pack_record`, taken apart. -/
theorem packRecord_ok {json : Json} {key : String} {value : Value} {packed : Bytes}
    (result : packRecord json key value = .ok packed) :
    ∃ text, json.dumps value = some text ∧ (encodeKey key).length ≤ maxKeyBytes ∧
      packed = toBE 2 (encodeKey key).length ++ encodeKey key ++ text := by
  by_cases long : (encodeKey key).length > maxKeyBytes
  · simp only [packRecord, if_pos long] at result
    cases result
  · cases written : json.dumps value with
    | none =>
        simp only [packRecord, if_neg long, written] at result
        cases result
    | some text =>
        simp only [packRecord, if_neg long, written, Except.ok.injEq] at result
        exact ⟨text, rfl, Nat.le_of_not_lt long, result.symm⟩

theorem packRecord_value {json : Json} {key : String} {value : Value} {packed : Bytes}
    (result : packRecord json key value = .ok packed) :
    json.dumps value = some (packed.drop (2 + (encodeKey key).length)) := by
  obtain ⟨text, written, _, rfl⟩ := packRecord_ok result
  rw [List.drop_left' (by rw [List.length_append, toBE_length]), written]

theorem packRecord_short {json : Json} {key : String} {value : Value} {text : Bytes}
    (short : (encodeKey key).length ≤ maxKeyBytes) (written : json.dumps value = some text) :
    ∃ packed, packRecord json key value = .ok packed := by
  refine ⟨toBE 2 (encodeKey key).length ++ encodeKey key ++ text, ?_⟩
  simp only [packRecord, if_neg (Nat.not_lt.mpr short), written]

theorem packRecord_not_long {json : Json} {key : String} {value : Value} {packed : Bytes}
    (long : ¬ (encodeKey key).length ≤ maxKeyBytes) : packRecord json key value ≠ .ok packed := by
  intro result
  obtain ⟨_, _, short, _⟩ := packRecord_ok result
  exact long short

/-- Every payload of the router can be unpacked, with the key it was made of. -/
theorem unpackRecord_pack {json : Json} {key : String} {value read : Value} {packed : Bytes}
    (result : packRecord json key value = .ok packed)
    (decoded : json.loads (packed.drop (2 + (encodeKey key).length)) = some read) :
    unpackRecord json packed = .ok (key, read) := by
  obtain ⟨text, written, short, rfl⟩ := packRecord_ok result
  have width : (toBE 2 (encodeKey key).length).length = 2 := toBE_length 2 _
  have front : (toBE 2 (encodeKey key).length ++ encodeKey key).length =
      2 + (encodeKey key).length := by
    rw [List.length_append, width]
  rw [List.drop_left' front] at decoded
  have nonempty : 0 < text.length := by
    cases text with
    | nil =>
        rw [json.loads_nil] at decoded
        cases decoded
    | cons byte text => exact Nat.succ_pos _
  have lengthField : ofBE ((toBE 2 (encodeKey key).length ++ encodeKey key ++ text).take 2) =
      (encodeKey key).length := by
    rw [List.append_assoc, List.take_left' width, ofBE_toBE]
    simp only [maxKeyBytes] at short
    omega
  have keyField : ((toBE 2 (encodeKey key).length ++ encodeKey key ++ text).drop 2).take
      (encodeKey key).length = encodeKey key := by
    rw [List.append_assoc, List.drop_left' width, List.take_left' rfl]
  have long : ¬ (toBE 2 (encodeKey key).length ++ encodeKey key ++ text).length < 2 := by
    rw [List.length_append, front]
    omega
  have whole : ¬ (toBE 2 (encodeKey key).length ++ encodeKey key ++ text).length <
      2 + (encodeKey key).length + 1 := by
    rw [List.length_append, front]
    omega
  simp only [unpackRecord, long, ↓reduceIte, lengthField, whole, keyField, decodeKey_encodeKey,
    List.drop_left' front, decoded]

/-- A flush takes a payload for a deletion exactly when the value is `None`. -/
theorem isDeletion_iff {json : Json} {key : String} {value : Value} {packed : Bytes}
    (result : packRecord json key value = .ok packed) (faithful : json.Faithful value) :
    isDeletion key packed = true ↔ value = .null := by
  rw [isDeletion, decide_eq_true_eq]
  exact faithful.null_iff (packRecord_value result)

theorem packed_ne_nil {json : Json} {key : String} {value : Value} {packed : Bytes}
    (result : packRecord json key value = .ok packed) : packed ≠ [] := by
  obtain ⟨text, _, _, rfl⟩ := packRecord_ok result
  apply List.ne_nil_of_length_pos
  rw [List.length_append, List.length_append, toBE_length]
  omega

/-- JSON as far as `null` and strings without characters that are escaped go. -/
def wordJson : Json where
  dumps
    | .null => some nullBytes
    | .str s => some (0x22 :: encodeKey s ++ [0x22])
    | _ => none
  loads
    | 0x22 :: rest => (decodeKey rest.dropLast).map .str
    | text => if text = nullBytes then some .null else none
  dumps_null := rfl
  dumps_str _ := rfl
  loads_null := rfl
  loads_dumps := by
    intro value text written
    split at written
    · cases written
      exact ⟨_, rfl⟩
    · rename_i s
      cases written
      refine ⟨.str s, ?_⟩
      simp
    · cases written
  loads_nil := rfl

end CachyDb
