import CachyDb.Storage.Swaps

set_option autoImplicit false

/-! A lookup in a table that is in order: it finds the newest value of a key, whichever of
the memtables and pages holds it. -/

namespace CachyDb

open ByteString TableHandler

namespace Json

/-- What `json.loads` makes of the text of a value. -/
def decoded (json : Json) (value : Value) : Value :=
  ((json.dumps value).bind json.loads).getD .null

theorem Faithful.decoded {json : Json} {value : Value} (faithful : json.Faithful value) :
    json.decoded value = value := by
  obtain ⟨text, written, read⟩ := faithful
  rw [Json.decoded, written, Option.bind_some, read]
  rfl

end Json

theorem unpackRecord_decoded {json : Json} {key : String} {value : Value} {packed : Bytes}
    (result : packRecord json key value = .ok packed) :
    unpackRecord json packed = .ok (key, json.decoded value) := by
  have written := packRecord_value result
  obtain ⟨read, loaded⟩ := json.loads_dumps _ _ written
  rw [unpackRecord_pack result loaded, Json.decoded, written, Option.bind_some, loaded]
  rfl

/-- What a flush takes for a deletion reads as `None`. -/
theorem decoded_of_deletion {json : Json} {key : String} {value : Value} {packed : Bytes}
    (result : packRecord json key value = .ok packed) (deleted : isDeletion key packed = true) :
    json.decoded value = .null := by
  rw [isDeletion, decide_eq_true_eq] at deleted
  rw [Json.decoded, packRecord_value result, deleted, Option.bind_some, json.loads_null]
  rfl

namespace Table

theorem pageSlotRecord_packs {json : Json} {key : String} {value : Value} {page : Page} {slot : Nat}
    {payload : Bytes} (there : page.recordAt slot = some payload)
    (packs : packRecord json key value = .ok payload) :
    pageSlotRecord json page slot = some (key, json.decoded value) := by
  unfold Page.recordAt at there
  unfold pageSlotRecord
  cases found : page.getRecord slot with
  | error e =>
      rw [found] at there
      cases there
  | ok record =>
      rw [found] at there
      dsimp only at there
      rw [there]
      dsimp only
      rw [unpackRecord_decoded packs]
      rfl

/-- The record at an indexed place is what is read. -/
theorem readFromDisk_at {json : Json} {t : Table} (formed : t.handler.WellFormed) {key : String}
    {place : Nat × Nat} (known : t.diskIndex.lookup key = some place) {payload : Bytes}
    (there : (place, payload) ∈ t.handler.contents) {other : String} {value : Value}
    (packs : packRecord json other value = .ok payload) :
    (t.readFromDisk json key).1 = some (json.decoded value) := by
  obtain ⟨pageId, slot⟩ := place
  obtain ⟨page, seen, record⟩ := formed.mem_contents.mp there
  unfold TableHandler.view at seen
  unfold readFromDisk
  rw [known]
  dsimp only
  cases read : t.handler.readPage pageId with
  | error e =>
      rw [read] at seen
      cases seen
  | ok result =>
      obtain ⟨page', h⟩ := result
      rw [read] at seen
      obtain rfl : page' = page := Option.some.inj seen
      dsimp only
      rw [pageSlotRecord_packs record packs]

theorem readFromDisk_missing {json : Json} {t : Table} {key : String}
    (missing : t.diskIndex.lookup key = none) : (t.readFromDisk json key).1 = none := by
  unfold readFromDisk
  rw [missing]

/-- A record under the index is read from its page. -/
theorem readFromDisk_indexed {json : Json} {t : Table} (formed : t.handler.WellFormed)
    {key : String} {value : Value} {packed : Bytes} (packs : packRecord json key value = .ok packed)
    (indexed : t.Indexed key packed) :
    ((t.readFromDisk json key).1).getD .null = json.decoded value := by
  unfold Indexed at indexed
  split at indexed
  · rename_i deleted
    rw [readFromDisk_missing indexed]
    exact (decoded_of_deletion packs deleted).symm
  · obtain ⟨place, known, held⟩ := indexed
    rw [readFromDisk_at formed known held packs]
    rfl

end Table

namespace Site

variable {json : Json} {first : AList (fun _ : String => Nat × Nat)} {s : Site}

/-- A lookup finds the value that was written last. -/
theorem Orderly.find_newest (orderly : s.Orderly first) (sound : s.Sound) {key : String} {e : Entry}
    (newest : latest s.written key = some e)
    (packs : packRecord json e.key e.value = .ok e.packed) :
    (s.table.find json key).1.answer = .ok (json.decoded e.value) := by
  obtain ⟨inside, same⟩ := latest_mem newest
  rw [same] at packs
  have unpacked : Table.unpackValue json e.packed = .ok (json.decoded e.value) := by
    unfold Table.unpackValue
    rw [unpackRecord_decoded packs]
    rfl
  obtain ⟨older, whole, reflects⟩ := orderly.older
  rw [whole, latest_append] at newest
  unfold Table.find
  rw [MemTable.search_eq_lookup, sound.active key]
  cases active : latest s.active key with
  | some e' =>
      rw [active, Option.some_or, Option.some.injEq] at newest
      rw [newest]
      exact unpacked
  | none =>
      rw [active, Option.none_or, latest_append] at newest
      dsimp only [Option.map_none]
      cases immutable : latest s.immutable key with
      | some e' =>
          rw [immutable, Option.some_or, Option.some.injEq] at newest
          cases slot : s.table.immutable with
          | none =>
              rw [sound.empty slot] at immutable
              cases immutable
          | some m =>
              rw [Option.bind_some, MemTable.search_eq_lookup, sound.immutable m slot key, immutable,
                newest]
              exact unpacked
      | none =>
          rw [immutable, Option.none_or] at newest
          have indexed := reflects key immutable
          unfold Table.Reflects at indexed
          rw [newest] at indexed
          have nothing : (s.table.immutable.bind fun m => m.search key) = none := by
            cases slot : s.table.immutable with
            | none => rfl
            | some m =>
                rw [Option.bind_some, MemTable.search_eq_lookup, sound.immutable m slot key, immutable]
                rfl
          rw [nothing]
          dsimp only [Table.Found.answer]
          rw [Table.readFromDisk_indexed sound.coherent.formed packs indexed]

/-- A key without entries is read from the pages, under the index that they had at first. -/
theorem Orderly.find_disk (orderly : s.Orderly first) (sound : s.Sound) {key : String}
    (unwritten : latest s.written key = none) :
    (s.table.find json key).1 = .disk (s.table.readFromDisk json key).1 ∧
      s.table.diskIndex.lookup key = first.lookup key := by
  obtain ⟨older, whole, reflects⟩ := orderly.older
  rw [whole, latest_append, Option.or_eq_none_iff, latest_append, Option.or_eq_none_iff]
    at unwritten
  obtain ⟨active, immutable, old⟩ := unwritten
  have missing := reflects key immutable
  unfold Table.Reflects at missing
  rw [old] at missing
  have nothing : (s.table.immutable.bind fun m => m.search key) = none := by
    cases slot : s.table.immutable with
    | none => rfl
    | some m =>
        rw [Option.bind_some, MemTable.search_eq_lookup, sound.immutable m slot key, immutable]
        rfl
  refine ⟨?_, missing⟩
  unfold Table.find
  rw [MemTable.search_eq_lookup, sound.active key, active]
  dsimp only [Option.map_none]
  rw [nothing]

/-- A key without entries reads as `None`, unless the files had it at first. -/
theorem Orderly.find_unwritten (orderly : s.Orderly first) (sound : s.Sound) {key : String}
    (unwritten : latest s.written key = none) (absent : first.lookup key = none) :
    (s.table.find json key).1.answer = .ok .null := by
  obtain ⟨disk, index⟩ := @Orderly.find_disk json first s orderly sound key unwritten
  rw [disk, Table.readFromDisk_missing (index.trans absent)]
  rfl

end Site

end CachyDb
