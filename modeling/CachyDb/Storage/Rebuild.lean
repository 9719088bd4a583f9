import CachyDb.Storage.Flushing

set_option autoImplicit false

/-! The index that `_init_disk_index` builds when a table is used for the first time: the
newest record of each key in the file. -/

namespace CachyDb.Table

open ByteString TableHandler

/-- The key under which a payload is indexed. -/
def payloadKey (payload : Bytes) : Option String :=
  if payload.length < 2 then none
  else decodeKey ((payload.drop 2).take (ofBE (payload.take 2)))

def payloadDeletes (payload : Bytes) : Bool :=
  payload.drop (2 + ofBE (payload.take 2)) = nullBytes

theorem indexRecord_eq (index : AList (fun _ : String => Nat × Nat)) (place : Nat × Nat)
    (payload : Bytes) : indexRecord index place payload = match payloadKey payload with
      | none => index
      | some key => if payloadDeletes payload then index.erase key else index.insert key place := by
  unfold indexRecord payloadKey payloadDeletes
  split
  · rfl
  · dsimp only
    cases decodeKey ((payload.drop 2).take (ofBE (payload.take 2))) with
    | none => rfl
    | some key => simp only [decide_eq_true_eq]

theorem payloadKey_pack {json : Json} {key : String} {value : Value} {packed : Bytes}
    (packs : packRecord json key value = .ok packed) :
    payloadKey packed = some key ∧ payloadDeletes packed = isDeletion key packed := by
  obtain ⟨text, _, short, rfl⟩ := packRecord_ok packs
  have width : (toBE 2 (encodeKey key).length).length = 2 := toBE_length 2 _
  have length : ofBE ((toBE 2 (encodeKey key).length ++ encodeKey key ++ text).take 2) =
      (encodeKey key).length := by
    rw [List.append_assoc, List.take_left' width, ofBE_toBE]
    simp only [maxKeyBytes] at short
    omega
  have long : ¬ (toBE 2 (encodeKey key).length ++ encodeKey key ++ text).length < 2 := by
    simp only [List.length_append, width]
    omega
  constructor
  · rw [payloadKey, if_neg long, length, List.append_assoc, List.drop_left' width,
      List.take_left' rfl, decodeKey_encodeKey]
  · rw [payloadDeletes, isDeletion, length]

/-- The index of these records. -/
def indexOf (records : List ((Nat × Nat) × Bytes)) : AList (fun _ : String => Nat × Nat) :=
  records.foldl (fun index record => indexRecord index record.1 record.2) ∅

def newestIn (records : List ((Nat × Nat) × Bytes)) (key : String) :
    Option ((Nat × Nat) × Bytes) :=
  records.reverse.find? fun record => payloadKey record.2 = some key

theorem newestIn_append (front back : List ((Nat × Nat) × Bytes)) (key : String) :
    newestIn (front ++ back) key = (newestIn back key).or (newestIn front key) := by
  rw [newestIn, List.reverse_append, List.find?_append]
  rfl

theorem newestIn_mem {records : List ((Nat × Nat) × Bytes)} {key : String}
    {record : (Nat × Nat) × Bytes} (found : newestIn records key = some record) :
    record ∈ records ∧ payloadKey record.2 = some key := by
  refine ⟨List.mem_reverse.mp (List.mem_of_find?_eq_some found), ?_⟩
  simpa using List.find?_some found

theorem newestIn_isSome {records : List ((Nat × Nat) × Bytes)} {key : String}
    {record : (Nat × Nat) × Bytes} (member : record ∈ records)
    (named : payloadKey record.2 = some key) : ∃ newest, newestIn records key = some newest := by
  rw [← Option.isSome_iff_exists, newestIn, List.find?_isSome]
  exact ⟨record, List.mem_reverse.mpr member, by simpa using named⟩

theorem newestIn_none {records : List ((Nat × Nat) × Bytes)} {key : String}
    (others : ∀ record ∈ records, payloadKey record.2 ≠ some key) :
    newestIn records key = none := by
  rw [newestIn, List.find?_eq_none]
  intro record member
  simpa using others record (List.mem_reverse.mp member)

/-- The index has the place of the newest record, unless this one is a deletion. -/
theorem lookup_indexOf (records : List ((Nat × Nat) × Bytes)) (key : String) :
    (indexOf records).lookup key = (newestIn records key).bind fun record =>
      if payloadDeletes record.2 then none else some record.1 := by
  induction records using List.reverseRecOn with
  | nil => rfl
  | append_singleton front record ih =>
      rw [newestIn_append, indexOf, List.foldl_append, List.foldl_cons, List.foldl_nil,
        indexRecord_eq]
      have here : newestIn [record] key = if payloadKey record.2 = some key then some record else none := by
        rw [newestIn, List.reverse_singleton, List.find?_singleton]
        simp only [decide_eq_true_eq]
      rw [here]
      cases named : payloadKey record.2 with
      | none =>
          dsimp only
          rw [if_neg (fun same => by cases same), Option.none_or, ← ih]
          rfl
      | some other =>
          dsimp only
          by_cases same : other = key
          · subst same
            rw [if_pos rfl, Option.some_or, Option.bind_some]
            split
            · exact AList.lookup_erase _ _
            · exact AList.lookup_insert _
          · rw [if_neg (fun equal => same (Option.some.inj equal)), Option.none_or, ← ih]
            split
            · exact AList.lookup_erase_ne (fun back => same back.symm)
            · exact AList.lookup_insert_ne (fun back => same back.symm)

theorem indexSlots_eq (page : Page) (pageId : Nat) (index : AList (fun _ : String => Nat × Nat)) :
    (List.range page.slots.length).foldl (indexSlot page pageId) index =
      (page.records.map fun record => ((pageId, record.1), record.2)).foldl
        (fun index record => indexRecord index record.1 record.2) index := by
  rw [List.foldl_map, Page.records, List.foldl_filterMap]
  congr 1
  funext index slot
  unfold indexSlot Page.recordAt
  cases page.getRecord slot with
  | error e => rfl
  | ok payload =>
      cases payload with
      | none => rfl
      | some payload => rfl

/-- One page after the other is loaded and its records are indexed. -/
theorem indexPages_spec {h : TableHandler} (formed : h.WellFormed) (pageIds : List Nat)
    (inside : ∀ pageId ∈ pageIds, pageId < h.totalPages)
    (index : AList (fun _ : String => Nat × Nat)) :
    Keeps h (pageIds.foldl indexPage (h, index)).1 ∧
      (pageIds.foldl indexPage (h, index)).1.file = h.file ∧
      (pageIds.foldl indexPage (h, index)).2 = (pageIds.flatMap h.pageContents).foldl
        (fun index record => indexRecord index record.1 record.2) index := by
  induction pageIds generalizing h index with
  | nil => exact ⟨Keeps.refl formed, rfl, rfl⟩
  | cons pageId rest ih =>
      obtain ⟨page, h', read, seen, _, _, formed', file, _, views⟩ :=
        formed.readPage (inside pageId List.mem_cons_self)
      obtain ⟨keeps, pages, _⟩ := formed.readPage_keeps read
      have stepped : indexPage (h, index) pageId =
          (h', (List.range page.slots.length).foldl (indexSlot page pageId) index) := by
        unfold indexPage
        dsimp only
        rw [read]
      have within : ∀ pageId ∈ rest, pageId < h'.totalPages := by
        intro other member
        rw [pages]
        exact inside other (List.mem_cons_of_mem _ member)
      obtain ⟨keeps', file', indexed⟩ := ih formed' within
        ((List.range page.slots.length).foldl (indexSlot page pageId) index)
      have same : h'.pageContents = h.pageContents := by
        funext other
        rw [pageContents, pageContents, views]
      rw [List.foldl_cons, stepped]
      refine ⟨keeps.trans keeps', file'.trans file, ?_⟩
      rw [indexed, same, List.flatMap_cons, List.foldl_append, indexSlots_eq]
      congr 1
      rw [pageContents, seen]

theorem initDiskIndex_spec {h : TableHandler} (formed : h.WellFormed) :
    Keeps h (initDiskIndex h).1 ∧ (initDiskIndex h).1.file = h.file ∧
      (initDiskIndex h).2 = indexOf h.contents :=
  indexPages_spec formed _ (fun _ member => List.mem_range.mp member) ∅

end CachyDb.Table
