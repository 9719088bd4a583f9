import CachyDb.Lib.Bytes

set_option autoImplicit false

/-! ChaCha20 and Poly1305 as one authenticated cipher, without associated data. -/

namespace ChaCha20

open ByteString

def toLE (width n : Nat) : Bytes := (toBE width n).reverse

def ofLE (bytes : Bytes) : Nat := ofBE bytes.reverse

def rotate (word count : UInt32) : UInt32 := (word <<< count) ||| (word >>> (32 - count))

/-- A word takes in the second one, and the third one is mixed with it and rotated. -/
def mix (state : List UInt32) (i j k : Nat) (count : UInt32) : List UInt32 :=
  let word := state.getD i 0 + state.getD j 0
  (state.set i word).set k (rotate (state.getD k 0 ^^^ word) count)

def quarterRound (state : List UInt32) (a b c d : Nat) : List UInt32 :=
  mix (mix (mix (mix state a b d 16) c d b 12) a b d 8) c d b 7

def doubleRound (state : List UInt32) : List UInt32 :=
  let columns := quarterRound (quarterRound (quarterRound (quarterRound state 0 4 8 12) 1 5 9 13)
    2 6 10 14) 3 7 11 15
  quarterRound (quarterRound (quarterRound (quarterRound columns 0 5 10 15) 1 6 11 12)
    2 7 8 13) 3 4 9 14

/-- The words of the text, four bytes each. -/
def words (count : Nat) (bytes : Bytes) : List UInt32 :=
  (List.range count).map fun i => UInt32.ofNat (ofLE (field bytes (4 * i) 4))

def block (key nonce : Bytes) (counter : Nat) : Bytes :=
  let initial := [0x61707865, 0x3320646E, 0x79622D32, 0x6B206574] ++ words 8 key ++
    [UInt32.ofNat counter] ++ words 3 nonce
  let mixed := Nat.repeat doubleRound 10 initial
  (List.zipWith (· + ·) mixed initial).flatMap fun word => toLE 4 word.toNat

/-- The blocks from the number one on, for so many bytes. -/
def keyStream (key nonce : Bytes) (count : Nat) : Bytes :=
  (List.range ((count + 63) / 64)).flatMap fun i => block key nonce (1 + i)

def cipher (key nonce data : Bytes) : Bytes :=
  data.mapIdx fun i byte => byte ^^^ (keyStream key nonce data.length).getD i 0

/-- `Poly1305` with the two halves of its key. -/
def poly1305 (key message : Bytes) : Bytes :=
  let r := ofLE (key.take 16) &&& 0x0FFFFFFC0FFFFFFC0FFFFFFC0FFFFFFF
  let blocks := (List.range ((message.length + 15) / 16)).map fun i => field message (16 * i) 16
  let sum := blocks.foldl (fun acc part => (acc + ofLE (part ++ [1])) * r % (2 ^ 130 - 5)) 0
  toLE 16 (sum + ofLE (key.drop 16))

/-- The data is padded to a multiple of 16 bytes. -/
def tag (key nonce data : Bytes) : Bytes :=
  let padding := List.replicate ((16 - data.length % 16) % 16) 0
  poly1305 ((block key nonce 0).take 32) (data ++ padding ++ toLE 8 0 ++ toLE 8 data.length)

def encrypt (key nonce data : Bytes) : Bytes :=
  cipher key nonce data ++ tag key nonce (cipher key nonce data)

def decrypt (key nonce data : Bytes) : Option Bytes :=
  let ciphertext := data.take (data.length - 16)
  if tag key nonce ciphertext = data.drop (data.length - 16) then
    some (cipher key nonce ciphertext)
  else none

@[simp] theorem toLE_length (width n : Nat) : (toLE width n).length = width := by
  rw [toLE, List.length_reverse, toBE_length]

@[simp] theorem cipher_length (key nonce data : Bytes) :
    (cipher key nonce data).length = data.length :=
  List.length_mapIdx

@[simp] theorem poly1305_length (key message : Bytes) : (poly1305 key message).length = 16 := by
  unfold poly1305
  rw [toLE_length]

@[simp] theorem tag_length (key nonce data : Bytes) : (tag key nonce data).length = 16 := by
  unfold tag
  rw [poly1305_length]

theorem cipher_cipher (key nonce data : Bytes) :
    cipher key nonce (cipher key nonce data) = data := by
  have twice (byte stream : UInt8) : byte ^^^ stream ^^^ stream = byte := by
    rw [UInt8.xor_assoc, UInt8.xor_self, UInt8.xor_zero]
  apply List.ext_getElem
  · rw [cipher_length, cipher_length]
  · intro i inside inside'
    simp only [cipher, List.getElem_mapIdx, List.length_mapIdx, twice]

theorem encrypt_length (key nonce data : Bytes) :
    (encrypt key nonce data).length = data.length + 16 := by
  rw [encrypt, List.length_append, cipher_length, tag_length]

theorem decrypt_encrypt (key nonce data : Bytes) :
    decrypt key nonce (encrypt key nonce data) = some data := by
  have width : (encrypt key nonce data).length - 16 = (cipher key nonce data).length := by
    rw [encrypt_length, cipher_length, Nat.add_sub_cancel]
  rw [decrypt, width, encrypt, List.take_left' rfl, List.drop_left' rfl, if_pos rfl, cipher_cipher]

example : block ((List.range 32).map UInt8.ofNat)
    [0, 0, 0, 9, 0, 0, 0, 0x4A, 0, 0, 0, 0] 1 = toBE 64
      (0x10F1E7E4D13B5915500FDD1FA32071C4C7D1F4C733C068030422AA9AC3D46C4E * 256 ^ 32 +
        0xD2826446079FAA0914C2D705D98B02A2B5129CD1DE164EB9CBD083E8A2503C4E) := by
  decide +kernel

/-- The message is the text "Cryptographic Forum Research Group". -/
example : poly1305 (toBE 32 0x85D6BE7857556D337F4452FE42D506A80103808AFB0DB2FD4ABFF6AF4149F51B)
    [67, 114, 121, 112, 116, 111, 103, 114, 97, 112, 104, 105, 99, 32, 70, 111, 114, 117, 109, 32,
      82, 101, 115, 101, 97, 114, 99, 104, 32, 71, 114, 111, 117, 112] =
    toBE 16 0xA8061DC1305136C6C22B8BAF0C0127A9 := by
  decide +kernel

end ChaCha20
