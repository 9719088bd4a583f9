import CachyDb.Storage.Router

set_option autoImplicit false

/-! `Router.set`. A value with a long JSON text is compressed and cut into chunks, each
of them a record of its own, and a manifest is stored in its place. -/

namespace CachyDb

open ByteString

/-- `zlib.compress`, and `base64.b64encode` followed by `decode("utf-8")`. A compressed
text is never empty. -/
structure Codec where
  compress : Bytes → Bytes
  b64encode : Bytes → String
  compress_ne_nil : ∀ bytes, compress bytes ≠ []

/-- What the other threads do while a call holds no lock: `run` before it takes one,
`awaitFlush` while it waits for a flush, which may have failed. -/
structure Surroundings where
  run : Router → Router
  awaitFlush : Router → Except RouterError Unit × Router

/-- A call in progress, with the payloads that it has given to the log. -/
structure Caller where
  router : Router
  written : List Bytes

namespace Router

/-- `_set_internal`, from its checks to the submission of a flush. -/
def setInternal (json : Json) (others : Surroundings) (c : Caller) (name key : String)
    (value : Value) : Except RouterError Unit × Caller :=
  if name = "" ∨ key = "" then (.error .emptyName, c)
  else
    match packRecord json key value with
    | .error e => (.error e, c)
    | .ok packed =>
        match (others.run c.router).setLocked name key value packed with
        | (.error e, r) => (.error e, ⟨r, c.written ++ [packed]⟩)
        | (.ok false, r) => (.ok (), ⟨r, c.written ++ [packed]⟩)
        | (.ok true, r) =>
            match others.awaitFlush r with
            | (.error e, r) => (.error e, ⟨r, c.written ++ [packed]⟩)
            | (.ok (), r) => (.ok (), ⟨(r.swapLocked name).2, c.written ++ [packed]⟩)

/-- Calls of `_set_internal`, up to the first that raises. -/
def setEach (json : Json) (others : Surroundings) (name : String) :
    Caller → List (String × Value) → Except RouterError Unit × Caller
  | c, [] => (.ok (), c)
  | c, (key, value) :: rest =>
      match setInternal json others c name key value with
      | (.error e, c) => (.error e, c)
      | (.ok (), c) => setEach json others name c rest

def chunkPrefix : String := "__chunk__:"

def chunkKey (key : String) (i : Nat) : String := chunkPrefix ++ key ++ ":" ++ toString i

/-- `key.startswith("__chunk__:")`. -/
def isChunkKey (key : String) : Bool := chunkPrefix.toList.isPrefixOf key.toList

def chunkSize : Nat := 2000

/-- The slices of `chunk_size` bytes, the last one shorter. -/
def cutChunks (bytes : Bytes) : List Bytes :=
  (List.range ((bytes.length + (chunkSize - 1)) / chunkSize)).map fun i =>
    (bytes.drop (i * chunkSize)).take chunkSize

/-- `d.get(name)`. -/
def field (name : String) : List (Value × Value) → Option Value
  | [] => none
  | (.str s, value) :: rest => if s = name then some value else field name rest
  | _ :: rest => field name rest

/-- The `range(old_num_chunks)` of a clean-up. `none` when the old value is no manifest,
or one that makes the clean-up raise. -/
def overflowChunks : Value → Option Nat
  | .dict items =>
      match field "__cachy_overflow__" items, field "num_chunks" items with
      | some (.bool true), some (.int n) => some n.toNat
      | some (.bool true), some (.bool b) => some b.toNat
      | _, _ => none
  | _ => none

def manifest (numChunks originalSize : Nat) : Value :=
  .dict [(.str "__cachy_overflow__", .bool true), (.str "num_chunks", .int numChunks),
    (.str "original_size", .int originalSize), (.str "compressed", .bool true)]

def tombstones (key : String) (count : Nat) : List (String × Value) :=
  (List.range count).map fun i => (chunkKey key i, .null)

def chunkRecords (codec : Codec) (key : String) (chunks : List Bytes) : List (String × Value) :=
  chunks.mapIdx fun i chunk => (chunkKey key i, .str (codec.b64encode chunk))

/-- The clean-up of the chunks of an older large value. What it raises is caught. -/
def cleanUp (json : Json) (others : Surroundings) (c : Caller) (name key : String) : Caller :=
  let old := c.router.getRawManifest json name key
  match overflowChunks old.1 with
  | none => { c with router := old.2 }
  | some count => (setEach json others name { c with router := old.2 } (tombstones key count)).2

/-- The chunks, the manifest and the cache entry of a large value. -/
def writeLarge (json : Json) (codec : Codec) (others : Surroundings) (c : Caller)
    (name key : String) (value : Value) (text : Bytes) : Except RouterError Unit × Caller :=
  let chunks := cutChunks (codec.compress text)
  match setEach json others name c (chunkRecords codec key chunks) with
  | (.error e, c) => (.error e, c)
  | (.ok (), c) =>
      match setInternal json others c name key (manifest chunks.length text.length) with
      | (.error e, c) => (.error e, c)
      | (.ok (), c) =>
          let stored := (others.run c.router).putCache name key value
          (stored.1, { c with router := stored.2 })

/-- The branch of `set` for a large value. What it raises is caught as well, and the
value is then written as it is. -/
def setLarge (json : Json) (codec : Codec) (others : Surroundings) (c : Caller)
    (name key : String) (value : Value) (text : Bytes) : Except RouterError Unit × Caller :=
  match writeLarge json codec others (cleanUp json others c name key) name key value text with
  | (.ok (), c) => (.ok (), c)
  | (.error _, c) => setInternal json others c name key value

/-- The JSON text that makes `set` take the branch for large values. -/
def largeText (json : Json) (key : String) (value : Value) : Option Bytes :=
  match value with
  | .null => none
  | _ =>
      if isChunkKey key then none
      else (json.dumps value).filter (fun text => text.length > 2000)

def set (json : Json) (codec : Codec) (others : Surroundings) (r : Router) (name key : String)
    (value : Value) : Except RouterError Unit × Caller :=
  if name = "" ∨ key = "" then (.error .emptyName, ⟨r, []⟩)
  else
    match largeText json key value with
    | some text => setLarge json codec others ⟨r, []⟩ name key value text
    | none =>
        if isChunkKey key then setInternal json others ⟨r, []⟩ name key value
        else setInternal json others (cleanUp json others ⟨r, []⟩ name key) name key value

/-- `set_many`, with the ids of the log that its records get. -/
def setMany (json : Json) (others : Surroundings) (r : Router) (name : String)
    (records : List (String × Value)) : Except RouterError Unit × Caller :=
  if name = "" ∨ records = [] then (.error .emptyName, ⟨r, []⟩)
  else
    match packRecords json records with
    | .error e => (.error e, ⟨r, []⟩)
    | .ok packedRecords =>
        let payloads := packedRecords.map Prod.snd
        let appended := (others.run r).wal.appendManyToBuffer payloads
        let logged := others.run { others.run r with wal := appended.2 }
        match logged.setManyLocked name records packedRecords appended.1 with
        | (.error e, r) => (.error e, ⟨r, payloads⟩)
        | (.ok false, r) => (.ok (), ⟨r, payloads⟩)
        | (.ok true, r) =>
            match others.awaitFlush r with
            | (.error e, r) => (.error e, ⟨r, payloads⟩)
            | (.ok (), r) => (.ok (), ⟨(r.swapLocked name).2, payloads⟩)

theorem isChunkKey_chunkKey (key : String) (i : Nat) : isChunkKey (chunkKey key i) = true := by
  rw [isChunkKey, List.isPrefixOf_iff_prefix, chunkKey, String.toList_append, String.toList_append,
    String.toList_append, List.append_assoc, List.append_assoc]
  exact List.prefix_append _ _

theorem ne_chunkKey {key : String} (plain : isChunkKey key = false) (other : String) (i : Nat) :
    key ≠ chunkKey other i := by
  rintro rfl
  rw [isChunkKey_chunkKey] at plain
  cases plain

/-- A list is cut at its first colon. -/
theorem cut_colon {front front' back back' : List Char} (colon : ':' ∉ front) (colon' : ':' ∉ front')
    (same : front ++ ':' :: back = front' ++ ':' :: back') : front = front' ∧ back = back' := by
  have before {chars : List Char} (colon : ':' ∉ chars) (rest : List Char) :
      (chars ++ ':' :: rest).takeWhile (· ≠ ':') = chars := by
    rw [List.takeWhile_append_of_pos]
    · simp
    · intro c member
      exact decide_eq_true fun same => colon (same ▸ member)
  have fronts : front = front' := by rw [← before colon back, same, before colon']
  subst fronts
  exact ⟨rfl, (List.cons.inj (List.append_cancel_left same)).2⟩

/-- The digits behind the last colon are the number, and the key stands before it. -/
theorem chunkKey_injective {key other : String} {i j : Nat} (same : chunkKey key i = chunkKey other j) :
    key = other ∧ i = j := by
  have colon (n : Nat) : ':' ∉ (Nat.toDigits 10 n).reverse := by
    intro member
    have digit := Nat.isDigit_of_mem_toDigits (by decide) (by decide) (List.mem_reverse.mp member)
    cases digit
  have shape (key : String) (n : Nat) : (chunkKey key n).toList.reverse =
      (Nat.toDigits 10 n).reverse ++ ':' :: (chunkPrefix ++ key).toList.reverse := by
    have digits : (toString n).toList = Nat.toDigits 10 n := by simp [toString, Nat.repr]
    rw [chunkKey, String.toList_append, String.toList_append, digits, List.reverse_append,
      List.reverse_append]
    rfl
  have reversed := congrArg (fun s : String => s.toList.reverse) same
  rw [shape, shape] at reversed
  obtain ⟨digits, front⟩ := cut_colon (colon i) (colon j) reversed
  have keys : (chunkPrefix ++ key).toList = (chunkPrefix ++ other).toList := List.reverse_injective front
  rw [String.toList_append, String.toList_append] at keys
  refine ⟨String.toList_inj.mp (List.append_cancel_left keys), ?_⟩
  rw [← @Nat.ofDigitChars_ten_toDigits i, List.reverse_injective digits,
    Nat.ofDigitChars_ten_toDigits]

/-- The slices make up the whole. -/
theorem flatten_cutChunks (bytes : Bytes) : (cutChunks bytes).flatten = bytes := by
  have slices (n : Nat) : ((List.range n).map fun i =>
      (bytes.drop (i * chunkSize)).take chunkSize).flatten = bytes.take (n * chunkSize) := by
    induction n with
    | zero => simp
    | succ n ih =>
        rw [List.range_succ, List.map_append, List.flatten_append, ih, Nat.succ_mul, List.take_add]
        simp
  rw [cutChunks, slices]
  apply List.take_of_length_le
  simp only [chunkSize]
  omega

def chunkKeys (key : String) : Set String := {other | ∃ i, other = chunkKey key i}

/-- The keys under which `set` stores a value. -/
def ownKeys (key : String) : Set String := {other | other = key ∨ other ∈ chunkKeys key}

theorem key_own (key : String) : {key} ⊆ ownKeys key := fun _ same => Or.inl same

theorem chunkKeys_own (key : String) : chunkKeys key ⊆ ownKeys key := fun _ member => Or.inr member

theorem chunkKey_ne_empty (key : String) (i : Nat) : chunkKey key i ≠ "" := by
  intro empty
  have chars := congrArg String.toList empty
  rw [chunkKey, String.append_assoc, String.append_assoc, String.toList_append] at chars
  simp [chunkPrefix] at chars

theorem tombstones_keys (key : String) (count : Nat) :
    {other | other ∈ (tombstones key count).map Prod.fst} ⊆ chunkKeys key := by
  intro other member
  simp only [tombstones, List.map_map, Set.mem_ofPred_eq, List.mem_map, Function.comp_apply] at member
  obtain ⟨i, _, same⟩ := member
  exact ⟨i, same.symm⟩

theorem chunkRecords_keys (codec : Codec) (key : String) (chunks : List Bytes) :
    {other | other ∈ (chunkRecords codec key chunks).map Prod.fst} ⊆ chunkKeys key := by
  intro other member
  simp only [chunkRecords, Set.mem_ofPred_eq, List.mem_map, List.mem_mapIdx] at member
  obtain ⟨record, ⟨i, _, made⟩, same⟩ := member
  rw [← made] at same
  exact ⟨i, same.symm⟩

theorem chunkRecords_nodup (codec : Codec) (key : String) (chunks : List Bytes) :
    ((chunkRecords codec key chunks).map Prod.fst).Nodup := by
  have keys : (chunkRecords codec key chunks).map Prod.fst =
      (List.range chunks.length).map (chunkKey key) := by
    apply List.ext_getElem
    · simp [chunkRecords]
    · intro i _ _
      simp [chunkRecords]
  rw [keys]
  exact List.nodup_range.map fun _ _ same => (chunkKey_injective same).2

theorem cutChunks_ne_nil {bytes : Bytes} (nonempty : bytes ≠ []) :
    ∃ first rest, cutChunks bytes = first :: rest := by
  have some_there : 0 < (bytes.length + (chunkSize - 1)) / chunkSize := by
    have pos := List.length_pos_of_ne_nil nonempty
    simp only [chunkSize]
    omega
  obtain ⟨count, same⟩ := Nat.exists_eq_succ_of_ne_zero (Nat.ne_of_gt some_there)
  rw [cutChunks, same, Nat.succ_eq_add_one, List.range_succ_eq_map, List.map_cons]
  exact ⟨_, _, rfl⟩

theorem largeText_plain {json : Json} {key : String} {value : Value} {text : Bytes}
    (large : largeText json key value = some text) : isChunkKey key = false := by
  unfold largeText at large
  split at large
  · cases large
  · split at large
    · cases large
    · rename_i plain
      exact Bool.eq_false_of_not_eq_true plain

theorem largeText_dumps {json : Json} {key : String} {value : Value} {text : Bytes}
    (large : largeText json key value = some text) : json.dumps value = some text := by
  unfold largeText at large
  split at large
  · cases large
  · split at large
    · cases large
    · exact (Option.filter_eq_some_iff.mp large).1

def manifestFront : List Char := "\x7b\"__cachy_overflow__\": true, \"num_chunks\": ".toList

def manifestMiddle : List Char := ", \"original_size\": ".toList

def manifestBack : List Char := ", \"compressed\": true\x7d".toList

def manifestText (numChunks originalSize : Nat) : List Char :=
  manifestFront ++ (Nat.toDigits 10 numChunks ++ (manifestMiddle ++
    (Nat.toDigits 10 originalSize ++ manifestBack)))

def readNumber (text : List Char) : Nat := Nat.ofDigitChars 10 (text.takeWhile Char.isDigit) 0

def readManifest (text : List Char) : Value :=
  let rest := text.drop manifestFront.length
  manifest (readNumber rest)
    (readNumber ((rest.dropWhile Char.isDigit).drop manifestMiddle.length))

/-- Digits end at the first other character. -/
theorem span_digits (n : Nat) {rest : List Char} (ends : ∀ c ∈ rest.head?, c.isDigit = false) :
    (Nat.toDigits 10 n ++ rest).takeWhile Char.isDigit = Nat.toDigits 10 n ∧
      (Nat.toDigits 10 n ++ rest).dropWhile Char.isDigit = rest := by
  have digits : ∀ c ∈ Nat.toDigits 10 n, c.isDigit = true := fun c member =>
    Nat.isDigit_of_mem_toDigits (by decide) (by decide) member
  rw [List.takeWhile_append_of_pos digits, List.dropWhile_append_of_pos digits]
  cases rest with
  | nil => simp
  | cons c rest =>
      have other : c.isDigit = false := ends c rfl
      simp [other]

theorem readManifest_text (numChunks originalSize : Nat) :
    readManifest (manifestText numChunks originalSize) = manifest numChunks originalSize := by
  have comma {front : List Char} (first : front.head? = some ',') (rest : List Char) :
      ∀ c ∈ (front ++ rest).head?, c.isDigit = false := by
    rw [List.head?_append, first]
    rintro _ ⟨⟩
    rfl
  have middle : manifestMiddle.head? = some ',' := by decide +kernel
  have back : manifestBack.head? = some ',' := by decide +kernel
  obtain ⟨count, behindCount⟩ := span_digits numChunks
    (comma middle (Nat.toDigits 10 originalSize ++ manifestBack))
  obtain ⟨size, _⟩ := span_digits originalSize (comma back [])
  rw [List.append_nil] at size
  unfold readManifest readNumber manifestText
  dsimp only
  rw [List.drop_left, count, behindCount, List.drop_left, size, Nat.ofDigitChars_ten_toDigits,
    Nat.ofDigitChars_ten_toDigits]

def manifestBytes (numChunks originalSize : Nat) : Bytes :=
  encodeKey (String.ofList (manifestText numChunks originalSize))

theorem manifestBytes_brace (numChunks originalSize : Nat) :
    ∃ rest, manifestBytes numChunks originalSize = 0x7B :: rest := by
  have front : ∃ rest, encodeKey (String.ofList manifestFront) = 0x7B :: rest :=
    ⟨(encodeKey (String.ofList manifestFront)).tail, by decide +kernel⟩
  obtain ⟨rest, starts⟩ := front
  rw [manifestBytes, manifestText, String.ofList_append, encodeKey_append, starts]
  exact ⟨_, rfl⟩

def loadText : Bytes → Option Value
  | 0x22 :: rest => (decodeKey rest.dropLast).map .str
  | 0x7B :: rest => (decodeKey (0x7B :: rest)).map fun s => readManifest s.toList
  | text => if text = nullBytes then some .null else none

theorem loadText_manifest (numChunks originalSize : Nat) :
    loadText (manifestBytes numChunks originalSize) = some (manifest numChunks originalSize) := by
  obtain ⟨rest, starts⟩ := manifestBytes_brace numChunks originalSize
  have decoded := decodeKey_encodeKey (String.ofList (manifestText numChunks originalSize))
  rw [← manifestBytes, starts] at decoded
  rw [starts, loadText, decoded, Option.map_some, String.toList_ofList, readManifest_text]

/-- JSON as far as the examples need it: `null`, strings without characters that are
escaped, and manifests. -/
def manifestJson : Json where
  dumps
    | .null => some nullBytes
    | .str s => some (0x22 :: encodeKey s ++ [0x22])
    | .dict [(.str "__cachy_overflow__", .bool true), (.str "num_chunks", .int (.ofNat numChunks)),
        (.str "original_size", .int (.ofNat originalSize)), (.str "compressed", .bool true)] =>
        some (manifestBytes numChunks originalSize)
    | _ => none
  loads := loadText
  dumps_null := rfl
  dumps_str _ := rfl
  loads_null := rfl
  loads_dumps := by
    intro value text written
    split at written
    · cases written
      exact ⟨_, rfl⟩
    · rename_i s
      cases written
      exact ⟨.str s, by simp [loadText]⟩
    · cases written
      exact ⟨_, loadText_manifest _ _⟩
    · cases written
  loads_nil := rfl

theorem manifestJson_string (s : String) : manifestJson.Faithful (.str s) :=
  ⟨0x22 :: encodeKey s ++ [0x22], rfl, by simp [manifestJson, loadText]⟩

theorem manifestJson_faithful (numChunks originalSize : Nat) :
    manifestJson.Faithful (manifest numChunks originalSize) :=
  ⟨_, rfl, loadText_manifest numChunks originalSize⟩

end Router

end CachyDb
