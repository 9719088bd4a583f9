import CachyDb.Database.Replay
import CachyDb.Storage.Filling

set_option autoImplicit false

/-! Which records of a write fit into a page, so that they can be flushed. -/

namespace CachyDb.Router

open ByteString Database

/-- What an empty page takes: `PAGE_SIZE - HEADER_SIZE - SLOT_SIZE`. -/
def maxRecordSize : Nat := Page.pageSize - Page.headerSize - Page.slotSize

def PageSized (payload : Bytes) : Prop := payload.length ≤ maxRecordSize

/-- The key and the JSON text of the value take a page at most. -/
def Sized (json : Json) (record : String × Value) : Prop :=
  ∃ text, json.dumps record.2 = some text ∧
    2 + (encodeKey record.1).length + text.length ≤ maxRecordSize

inductive Write
  | set (key : String) (value : Value)
  | setMany (records : List (String × Value))

def Write.perform (json : Json) (codec : Codec) (others : Surroundings) (r : Router)
    (name : String) : Write → Except RouterError Unit × Caller
  | .set key value => Router.set json codec others r name key value
  | .setMany records => Router.setMany json others r name records

/-- The number of chunks that the clean-up deletes. -/
def oldChunks (json : Json) (r : Router) (name key : String) : Nat :=
  (overflowChunks (r.getRawManifest json name key).1).getD 0

/-- The chunks of a large value and their manifest fit. -/
def LargeFits (json : Json) (codec : Codec) (key : String) (text : Bytes) : Prop :=
  (∀ record ∈ chunkRecords codec key (cutChunks (codec.compress text)), Sized json record) ∧
    Sized json (key, manifest (cutChunks (codec.compress text)).length text.length)

/-- The sizes that keep all records of a write within a page: those of the deletions of the
old chunks, and either that of the value or those of its chunks and of their manifest.
`set_many` does not cut anything into chunks. -/
def Write.Fitting (json : Json) (codec : Codec) (r : Router) (name : String) : Write → Prop
  | .set key value =>
      (isChunkKey key = false → ∀ i < oldChunks json r name key, Sized json (chunkKey key i, .null)) ∧
        match largeText json key value with
        | none => Sized json (key, value)
        | some text => LargeFits json codec key text
  | .setMany records => ∀ record ∈ records, Sized json record

/-- Whatever else happens, the cache does not contradict itself. -/
structure Consistent (others : Surroundings) : Prop where
  run : ∀ r, r.cache.WellFormed → (others.run r).cache.WellFormed
  awaitFlush : ∀ r, r.cache.WellFormed → (others.awaitFlush r).2.cache.WellFormed

/-- No flush that a write waits for fails. -/
def Succeeds (others : Surroundings) : Prop := ∀ r, (others.awaitFlush r).1 = .ok ()

section

variable {json : Json} {key : String} {value : Value}

theorem packRecord_length {packed : Bytes} (packs : packRecord json key value = .ok packed) :
    ∃ text, json.dumps value = some text ∧
      packed.length = 2 + (encodeKey key).length + text.length := by
  obtain ⟨text, written, _, rfl⟩ := packRecord_ok packs
  refine ⟨text, written, ?_⟩
  rw [List.length_append, List.length_append, toBE_length]

theorem sized_iff {packed : Bytes} (packs : packRecord json key value = .ok packed) :
    PageSized packed ↔ Sized json (key, value) := by
  obtain ⟨text, written, length⟩ := packRecord_length packs
  rw [PageSized, length]
  constructor
  · exact fun small => ⟨text, written, small⟩
  · rintro ⟨text', written', small⟩
    cases written.symm.trans written'
    exact small

theorem Sized.keyFits (sized : Sized json (key, value)) :
    (encodeKey key).length + 2 ≤ maxRecordSize := by
  obtain ⟨text, _, small⟩ := sized
  dsimp only at small
  omega

theorem short_packs (short : (encodeKey key).length ≤ maxKeyBytes)
    (written : (json.dumps value).isSome) : ∃ packed, packRecord json key value = .ok packed := by
  obtain ⟨text, written⟩ := Option.isSome_iff_exists.mp written
  exact packRecord_short short written

/-- A payload under a key that is too long does not fit. -/
theorem keyFits_of_packedUnder {payload : Bytes} (packed : PackedUnder json {key} payload)
    (sized : PageSized payload) : (encodeKey key).length + 2 ≤ maxRecordSize := by
  obtain ⟨other, value, rfl, packs⟩ := packed
  exact ((sized_iff packs).mp sized).keyFits

theorem encodeKey_eq (key : String) : encodeKey key = key.toList.flatMap String.utf8EncodeChar := by
  rw [encodeKey, String.toUTF8, ← String.utf8Encode_toList, List.utf8Encode]
  simp

/-- A character takes one to four bytes. -/
theorem encodeKey_length (key : String) :
    key.length ≤ (encodeKey key).length ∧ (encodeKey key).length ≤ 4 * key.length := by
  rw [encodeKey_eq, ← String.length_toList]
  induction key.toList with
  | nil => simp
  | cons c chars ih =>
      have low := c.utf8Size_pos
      have high := c.utf8Size_le_four
      simp only [List.flatMap_cons, List.length_append, String.length_utf8EncodeChar,
        List.length_cons]
      omega

theorem digits_succ (i : Nat) : (Nat.repr (i + 1)).length ≤ (Nat.repr i).length + 1 := by
  have positive : 0 < (Nat.repr i).length := Nat.length_repr_pos
  have small := (Nat.length_repr_le_iff positive).mp (Nat.le_refl _)
  apply (Nat.length_repr_le_iff (Nat.succ_pos _)).mpr
  rw [Nat.pow_succ]
  omega

theorem chunkKey_length (key : String) (i : Nat) : (encodeKey (chunkKey key i)).length =
    11 + (encodeKey key).length + (encodeKey (Nat.repr i)).length := by
  have front : (encodeKey chunkPrefix).length = 10 := by decide +kernel
  have colon : (encodeKey ":").length = 1 := by decide +kernel
  rw [chunkKey, encodeKey_append, encodeKey_append, encodeKey_append, List.length_append,
    List.length_append, List.length_append, front, colon]
  show 10 + (encodeKey key).length + 1 + (encodeKey (Nat.repr i)).length = _
  omega

/-- Behind a chunk key that fits there comes none that cannot be packed. -/
theorem chunkKey_short {i : Nat} (keyFits : (encodeKey key).length + 2 ≤ maxRecordSize)
    (before : ∀ j, i = j + 1 → (encodeKey (chunkKey key j)).length + 2 ≤ maxRecordSize) :
    (encodeKey (chunkKey key i)).length ≤ maxKeyBytes := by
  rw [chunkKey_length]
  simp only [maxRecordSize, Page.pageSize, Page.headerSize, Page.slotSize, maxKeyBytes] at *
  cases i with
  | zero =>
      have digits := (encodeKey_length (Nat.repr 0)).2
      have one : (Nat.repr 0).length = 1 := by decide
      omega
  | succ j =>
      have fits := before j rfl
      rw [chunkKey_length] at fits
      have digits := (encodeKey_length (Nat.repr j)).1
      have digits' := (encodeKey_length (Nat.repr (j + 1))).2
      have more := digits_succ j
      omega

end

section

variable {json : Json} {others : Surroundings} {c : Caller} {name : String}

/-- No table is in the way of a cache entry. -/
theorem getTableState_cache (r : Router) (name : String) : (r.getTableState name).2.cache = r.cache := by
  unfold getTableState
  cases r.tables.lookup name with
  | none => rfl
  | some t => rfl

theorem putCache_formed {r : Router} (formed : r.cache.WellFormed) (name key : String) (value : Value) :
    (r.putCache name key value).1 = .ok () ∧ (r.putCache name key value).2.cache.WellFormed := by
  obtain ⟨stored, put, formed', _⟩ := formed.put (name, key) value
  unfold putCache
  rw [put]
  exact ⟨rfl, formed'⟩

theorem setLocked_formed {r : Router} (formed : r.cache.WellFormed) (name key : String)
    (value : Value) (packed : Bytes) :
    (∃ full, (r.setLocked name key value packed).1 = .ok full) ∧
      (r.setLocked name key value packed).2.cache.WellFormed := by
  rw [← getTableState_cache r name] at formed
  obtain ⟨put, formed'⟩ := @putCache_formed
    ({ (r.getTableState name).2 with
        wal := ((r.getTableState name).2.wal.appendToBuffer packed).2 }.putTable name
      (((r.getTableState name).1.insert key packed).addTxIds
        [((r.getTableState name).2.wal.appendToBuffer packed).1])) formed name key value
  unfold setLocked
  dsimp only
  split
  · rename_i failed
    rw [failed] at put
    cases put
  · rename_i stored
    rw [stored] at formed'
    exact ⟨⟨_, rfl⟩, formed'⟩

/-- The record is logged and the call returns. -/
theorem setInternal_calm (consistent : Consistent others) (succeeds : Succeeds others)
    (formed : c.router.cache.WellFormed) (named : name ≠ "") {key : String} (keyed : key ≠ "")
    {value : Value} {packed : Bytes} (packs : packRecord json key value = .ok packed) :
    (setInternal json others c name key value).1 = .ok () ∧
      (setInternal json others c name key value).2.written = c.written ++ [packed] ∧
      (setInternal json others c name key value).2.router.cache.WellFormed := by
  obtain ⟨⟨full, entered⟩, formed'⟩ :=
    setLocked_formed (consistent.run _ formed) name key value packed
  have passed : ¬ (name = "" ∨ key = "") := not_or.mpr ⟨named, keyed⟩
  unfold setInternal
  rw [if_neg passed, packs]
  dsimp only
  cases locked : (others.run c.router).setLocked name key value packed with
  | mk result r =>
      rw [locked] at entered formed'
      obtain rfl : result = .ok full := entered
      cases full with
      | false => exact ⟨rfl, rfl, formed'⟩
      | true =>
          have waited := succeeds r
          have formed'' := consistent.awaitFlush r formed'
          dsimp only
          cases awaited : others.awaitFlush r with
          | mk outcome r' =>
              rw [awaited] at waited formed''
              obtain rfl : outcome = .ok () := waited
              refine ⟨rfl, rfl, ?_⟩
              show (r'.swapLocked name).2.cache.WellFormed
              unfold swapLocked
              dsimp only
              split
              · rw [← getTableState_cache r' name] at formed''
                exact formed''
              · rw [← getTableState_cache r' name] at formed''
                exact formed''

/-- The records are such that none behind records that fit is too long to be packed. -/
def Steady (json : Json) (records : List (String × Value)) : Prop :=
  ∀ front record back, records = front ++ record :: back →
    (∀ other ∈ front, Sized json other) → ∃ packed, packRecord json record.1 record.2 = .ok packed

theorem Steady.head {record : String × Value} {rest : List (String × Value)}
    (steady : Steady json (record :: rest)) : ∃ packed, packRecord json record.1 record.2 = .ok packed :=
  steady [] record rest rfl fun other member => (by cases member)

theorem Steady.tail {record : String × Value} {rest : List (String × Value)}
    (steady : Steady json (record :: rest)) (sized : Sized json record) : Steady json rest := by
  rintro front other back rfl fits
  refine steady (record :: front) other back rfl ?_
  rintro before member
  rcases List.mem_cons.mp member with rfl | member
  · exact sized
  · exact fits before member

/-- Either all of the records fit, and then all of them are logged, or one that does not fit
is. -/
theorem setEach_calm (consistent : Consistent others) (succeeds : Succeeds others)
    (named : name ≠ "") {records : List (String × Value)} (keyed : ∀ record ∈ records, record.1 ≠ "")
    (steady : Steady json records) {c : Caller} (formed : c.router.cache.WellFormed)
    (clean : ∀ payload ∈ c.written, PageSized payload) :
    ((∀ record ∈ records, Sized json record) ∧
        (setEach json others name c records).1 = .ok () ∧
        (∀ payload ∈ (setEach json others name c records).2.written, PageSized payload) ∧
        (setEach json others name c records).2.router.cache.WellFormed) ∨
      (∃ record ∈ records, ¬ Sized json record) ∧
        ∃ payload ∈ (setEach json others name c records).2.written, ¬ PageSized payload := by
  induction records generalizing c with
  | nil => exact Or.inl ⟨fun record member => (by cases member), rfl, clean, formed⟩
  | cons record rest ih =>
      obtain ⟨key, value⟩ := record
      obtain ⟨packed, packs⟩ := steady.head
      obtain ⟨accepted, written, formed'⟩ := @setInternal_calm json others c name consistent succeeds
        formed named key (keyed _ List.mem_cons_self) value packed packs
      have turned : setEach json others name c ((key, value) :: rest) =
          setEach json others name (setInternal json others c name key value).2 rest := by
        rw [setEach]
        split
        · rename_i failed
          rw [failed] at accepted
          cases accepted
        · rename_i done
          rw [done]
      rw [turned]
      by_cases sized : Sized json (key, value)
      · have clean' : ∀ payload ∈ (setInternal json others c name key value).2.written,
            PageSized payload := by
          rw [written]
          intro payload member
          rcases List.mem_append.mp member with old | new
          · exact clean payload old
          · rw [List.mem_singleton.mp new]
            exact (sized_iff packs).mpr sized
        have keyed' : ∀ record ∈ rest, record.1 ≠ "" := fun record member =>
          keyed record (List.mem_cons_of_mem _ member)
        rcases ih keyed' (steady.tail sized) formed' clean' with
          ⟨all, ok, fits, formed''⟩ | ⟨⟨misfit, member, large⟩, oversized⟩
        · exact Or.inl ⟨List.forall_mem_cons.mpr ⟨sized, all⟩, ok, fits, formed''⟩
        · exact Or.inr ⟨⟨misfit, List.mem_cons_of_mem _ member, large⟩, oversized⟩
      · refine Or.inr ⟨⟨(key, value), List.mem_cons_self, sized⟩, packed, ?_, ?_⟩
        · apply (setEach_adds json others _ name rest).keeps
          rw [written]
          exact List.mem_append_right _ (List.mem_singleton_self packed)
        · exact mt (sized_iff packs).mp sized

/-- Records under the chunk keys of one key, one after the other. -/
theorem steady_of_chunkKeys {key : String} (keyFits : (encodeKey key).length + 2 ≤ maxRecordSize)
    {records : List (String × Value)}
    (chunks : ∀ (i : Nat) (record : String × Value), records[i]? = some record →
      record.1 = chunkKey key i ∧ (json.dumps record.2).isSome) : Steady json records := by
  rintro front record back rfl fits
  have here : (front ++ record :: back)[front.length]? = some record := by simp
  obtain ⟨same, written⟩ := chunks _ _ here
  rw [same]
  apply short_packs _ written
  apply chunkKey_short keyFits
  intro j last
  have inside : j < front.length := by omega
  have there : (front ++ record :: back)[j]? = some front[j] := by
    rw [List.getElem?_append_left inside, List.getElem?_eq_getElem inside]
  rw [← (chunks _ _ there).1]
  exact (fits front[j] (List.getElem_mem inside)).keyFits

theorem tombstones_steady {key : String} (keyFits : (encodeKey key).length + 2 ≤ maxRecordSize)
    (count : Nat) : Steady json (tombstones key count) := by
  apply steady_of_chunkKeys keyFits
  intro i record there
  rw [tombstones, List.getElem?_map] at there
  obtain ⟨j, at_j, rfl⟩ := Option.map_eq_some_iff.mp there
  obtain ⟨inside, rfl⟩ := List.getElem?_eq_some_iff.mp at_j
  rw [List.getElem_range]
  exact ⟨rfl, by rw [json.dumps_null]; rfl⟩

theorem chunkRecords_steady (codec : Codec) {key : String}
    (keyFits : (encodeKey key).length + 2 ≤ maxRecordSize) (chunks : List Bytes) :
    Steady json (chunkRecords codec key chunks) := by
  apply steady_of_chunkKeys keyFits
  intro i record there
  rw [chunkRecords, List.getElem?_mapIdx] at there
  obtain ⟨chunk, _, rfl⟩ := Option.map_eq_some_iff.mp there
  exact ⟨rfl, json.dumps_str _⟩

theorem mem_tombstones {key : String} {count : Nat} {record : String × Value} :
    record ∈ tombstones key count ↔ ∃ i < count, record = (chunkKey key i, .null) := by
  simp only [tombstones, List.mem_map, List.mem_range, eq_comm]

theorem getRawManifest_cache (r : Router) (name key : String) :
    (r.getRawManifest json name key).2.cache = r.cache := by
  rw [← getTableState_cache r name]
  unfold getRawManifest
  dsimp only
  split <;> rfl

theorem cleanUp_calm (consistent : Consistent others) (succeeds : Succeeds others)
    (named : name ≠ "") {key : String} (keyFits : (encodeKey key).length + 2 ≤ maxRecordSize)
    (formed : c.router.cache.WellFormed) (clean : ∀ payload ∈ c.written, PageSized payload) :
    ((∀ i < oldChunks json c.router name key, Sized json (chunkKey key i, .null)) ∧
        (∀ payload ∈ (cleanUp json others c name key).written, PageSized payload) ∧
        (cleanUp json others c name key).router.cache.WellFormed) ∨
      (∃ i < oldChunks json c.router name key, ¬ Sized json (chunkKey key i, .null)) ∧
        ∃ payload ∈ (cleanUp json others c name key).written, ¬ PageSized payload := by
  have formed' : (c.router.getRawManifest json name key).2.cache.WellFormed := by
    rw [getRawManifest_cache]
    exact formed
  unfold cleanUp oldChunks
  dsimp only
  cases old : overflowChunks (c.router.getRawManifest json name key).1 with
  | none =>
      exact Or.inl ⟨fun i below => absurd below (Nat.not_lt_zero i), clean, formed'⟩
  | some count =>
      have keyed : ∀ record ∈ tombstones key count, record.1 ≠ "" := by
        intro record member
        obtain ⟨i, _, rfl⟩ := mem_tombstones.mp member
        exact chunkKey_ne_empty key i
      dsimp only [Option.getD_some]
      rcases setEach_calm consistent succeeds named keyed (tombstones_steady keyFits count)
        (c := { c with router := (c.router.getRawManifest json name key).2 }) formed' clean with
        ⟨all, _, fits, formed''⟩ | ⟨⟨record, member, large⟩, oversized⟩
      · exact Or.inl ⟨fun i below => all _ (mem_tombstones.mpr ⟨i, below, rfl⟩), fits, formed''⟩
      · obtain ⟨i, below, rfl⟩ := mem_tombstones.mp member
        exact Or.inr ⟨⟨i, below, large⟩, oversized⟩

theorem writeLarge_keeps (codec : Codec) (key : String) (value : Value) (text payload : Bytes)
    (member : payload ∈ (setEach json others name c
      (chunkRecords codec key (cutChunks (codec.compress text)))).2.written) :
    payload ∈ (writeLarge json codec others c name key value text).2.written := by
  unfold writeLarge
  dsimp only
  split
  · rename_i chunked
    rw [chunked] at member
    exact member
  · rename_i c' chunked
    rw [chunked] at member
    have kept := (setInternal_adds json others c' name key
      (manifest (cutChunks (codec.compress text)).length text.length)).keeps member
    split
    · rename_i stored
      rw [stored] at kept
      exact kept
    · rename_i stored
      rw [stored] at kept
      exact kept

theorem writeLarge_calm (consistent : Consistent others) (succeeds : Succeeds others)
    (codec : Codec) (named : name ≠ "") {key : String} (keyed : key ≠ "")
    (keyFits : (encodeKey key).length + 2 ≤ maxRecordSize)
    (manifests : ∀ count size, (json.dumps (manifest count size)).isSome)
    (formed : c.router.cache.WellFormed) (clean : ∀ payload ∈ c.written, PageSized payload)
    (value : Value) (text : Bytes) :
    (LargeFits json codec key text ∧
        (writeLarge json codec others c name key value text).1 = .ok () ∧
        ∀ payload ∈ (writeLarge json codec others c name key value text).2.written,
          PageSized payload) ∨
      ¬ LargeFits json codec key text ∧
        ∃ payload ∈ (writeLarge json codec others c name key value text).2.written,
          ¬ PageSized payload := by
  have keyed' : ∀ record ∈ chunkRecords codec key (cutChunks (codec.compress text)),
      record.1 ≠ "" := by
    intro record member
    obtain ⟨i, inside, rfl⟩ := List.mem_mapIdx.mp member
    exact chunkKey_ne_empty key i
  have steady : Steady json (chunkRecords codec key (cutChunks (codec.compress text))) :=
    chunkRecords_steady codec keyFits _
  rcases setEach_calm consistent succeeds named keyed' steady formed clean with
    ⟨all, ok, fits, formed'⟩ | ⟨⟨record, member, large⟩, payload, logged, oversized⟩
  · generalize chunked : setEach json others name c
      (chunkRecords codec key (cutChunks (codec.compress text))) = turn at ok fits formed'
    obtain ⟨_, c'⟩ := turn
    obtain rfl := ok
    have short : (encodeKey key).length ≤ maxKeyBytes := by
      simp only [maxRecordSize, Page.pageSize, Page.headerSize, Page.slotSize, maxKeyBytes] at *
      omega
    obtain ⟨packed, packs⟩ := short_packs short
      (manifests (cutChunks (codec.compress text)).length text.length)
    obtain ⟨accepted, written, formed''⟩ :=
      @setInternal_calm json others c' name consistent succeeds formed' named key keyed _ _ packs
    have finished : (writeLarge json codec others c name key value text).1 = .ok () ∧
        (writeLarge json codec others c name key value text).2.written = c'.written ++ [packed] := by
      unfold writeLarge
      dsimp only
      rw [chunked]
      dsimp only
      generalize stored : setInternal json others c' name key
        (manifest (cutChunks (codec.compress text)).length text.length) = turn at *
      obtain ⟨_, c''⟩ := turn
      obtain rfl := accepted
      exact ⟨(putCache_formed (consistent.run _ formed'') name key value).1, written⟩
    rw [finished.2]
    by_cases sized : Sized json (key, manifest (cutChunks (codec.compress text)).length text.length)
    · refine Or.inl ⟨⟨all, sized⟩, finished.1, fun payload member => ?_⟩
      rcases List.mem_append.mp member with old | new
      · exact fits payload old
      · rw [List.mem_singleton.mp new]
        exact (sized_iff packs).mpr sized
    · refine Or.inr ⟨fun fitting => sized fitting.2, packed, by simp, mt (sized_iff packs).mp sized⟩
  · refine Or.inr ⟨fun fitting => large (fitting.1 record member), payload, ?_, oversized⟩
    exact writeLarge_keeps codec key value text payload logged

theorem setLarge_keeps (codec : Codec) (key : String) (value : Value) (text payload : Bytes)
    (member : payload ∈ (writeLarge json codec others (cleanUp json others c name key) name key value
      text).2.written) :
    payload ∈ (setLarge json codec others c name key value text).2.written := by
  unfold setLarge
  split
  · rename_i done
    rw [done] at member
    exact member
  · rename_i failed
    rw [failed] at member
    exact (setInternal_adds json others _ name key value).keeps member

/-- A call that returns has logged its last record behind the others. -/
theorem setInternal_accepted {key : String} {value : Value}
    (accepted : (setInternal json others c name key value).1 = .ok ()) :
    ∃ packed, packRecord json key value = .ok packed ∧
      (setInternal json others c name key value).2.written = c.written ++ [packed] := by
  rcases setInternal_written json others c name key value with ⟨raises, _⟩ | logged
  · exact absurd accepted raises
  · exact logged

theorem fits_snoc {written : List Bytes} {key : String} {value : Value} {packed : Bytes}
    (packs : packRecord json key value = .ok packed) (clean : ∀ payload ∈ written, PageSized payload) :
    (∀ payload ∈ written ++ [packed], PageSized payload) ↔ Sized json (key, value) := by
  rw [← sized_iff packs]
  constructor
  · exact fun all => all packed (by simp)
  · intro sized payload member
    rcases List.mem_append.mp member with old | new
    · exact clean payload old
    · rw [List.mem_singleton.mp new]
      exact sized

theorem set_fits_iff {codec : Codec} {r : Router} (consistent : Consistent others)
    (succeeds : Succeeds others) (formed : r.cache.WellFormed)
    (manifests : ∀ count size, (json.dumps (manifest count size)).isSome) {key : String}
    {value : Value} (accepted : (Router.set json codec others r name key value).1 = .ok ()) :
    (∀ payload ∈ (Router.set json codec others r name key value).2.written, PageSized payload) ↔
      (Write.set key value).Fitting json codec r name := by
  have own := set_ok json codec others r value accepted
  have clean : ∀ payload ∈ (Caller.mk r []).written, PageSized payload := fun payload member =>
    (by cases member)
  by_cases keyFits : (encodeKey key).length + 2 ≤ maxRecordSize
  · have passed : ¬ (name = "" ∨ key = "") := by
      intro empty
      unfold Router.set at accepted
      rw [if_pos empty] at accepted
      cases accepted
    obtain ⟨named, keyed⟩ := not_or.mp passed
    have cleaned := @cleanUp_calm json others ⟨r, []⟩ name consistent succeeds named key keyFits
      formed clean
    unfold Write.Fitting
    dsimp only
    unfold Router.set at accepted ⊢
    rw [if_neg passed] at accepted ⊢
    cases large : largeText json key value with
    | none =>
        rw [large] at accepted
        dsimp only at accepted ⊢
        cases plain : isChunkKey key with
        | true =>
            rw [plain, if_pos rfl] at accepted
            obtain ⟨packed, packs, written⟩ := setInternal_accepted accepted
            rw [if_pos rfl, written, fits_snoc packs clean]
            exact ⟨fun sized => ⟨fun no => (by cases no), sized⟩, fun fitting => fitting.2⟩
        | false =>
            rw [plain, if_neg Bool.false_ne_true] at accepted
            obtain ⟨packed, packs, written⟩ := setInternal_accepted accepted
            rw [if_neg Bool.false_ne_true, written]
            rcases cleaned with ⟨all, fits, _⟩ | ⟨⟨i, below, misfit⟩, payload, member, oversized⟩
            · rw [fits_snoc packs fits]
              exact ⟨fun sized => ⟨fun _ => all, sized⟩, fun fitting => fitting.2⟩
            · constructor
              · exact fun all => absurd (all payload (List.mem_append_left _ member)) oversized
              · exact fun fitting => absurd (fitting.1 rfl i below) misfit
    | some text =>
        have plain := largeText_plain large
        dsimp only
        rcases cleaned with ⟨all, fits, formed'⟩ | ⟨⟨i, below, misfit⟩, payload, member, oversized⟩
        · rcases writeLarge_calm consistent succeeds codec named keyed keyFits manifests formed' fits
            value text with ⟨fitting, ok, fits'⟩ | ⟨misfit, payload, member, oversized⟩
          · refine ⟨fun _ => ⟨fun _ => all, fitting⟩, fun _ => ?_⟩
            unfold setLarge
            split
            · rename_i done
              rw [done] at fits'
              exact fits'
            · rename_i failed
              rw [failed] at ok
              cases ok
          · constructor
            · exact fun all =>
                absurd (all payload (setLarge_keeps codec key value text payload member)) oversized
            · exact fun fitting => absurd fitting.2 misfit
        · constructor
          · intro all
            have kept := (writeLarge_adds json others _ name codec key value text).keeps member
            exact absurd (all payload (setLarge_keeps codec key value text payload kept)) oversized
          · exact fun fitting => absurd (fitting.1 plain i below) misfit
  · obtain ⟨payload, member, packed⟩ := own
    constructor
    · exact fun all => absurd (keyFits_of_packedUnder packed (all payload member)) keyFits
    · intro fitting
      have last := fitting.2
      split at last
      · exact absurd last.keyFits keyFits
      · exact absurd last.2.keyFits keyFits

theorem setMany_fits_iff {r : Router} {records : List (String × Value)}
    (accepted : (Router.setMany json others r name records).1 = .ok ()) :
    (∀ payload ∈ (Router.setMany json others r name records).2.written, PageSized payload) ↔
      ∀ record ∈ records, Sized json record := by
  obtain ⟨packedRecords, packs, written⟩ := setMany_written accepted
  rw [written]
  have each := packRecords_each packs
  clear packs written accepted
  induction each with
  | nil => simp
  | @cons record _ _ _ here _ ih =>
      rw [List.map_cons, List.forall_mem_cons, List.forall_mem_cons, sized_iff here.2]
      exact and_congr Iff.rfl ih

end

end CachyDb.Router
