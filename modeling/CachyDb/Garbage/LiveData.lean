import CachyDb.Garbage.Compactor
import CachyDb.Storage.Capacity
import CachyDb.Storage.Torn
import CachyDb.Storage.Writes

set_option autoImplicit false

/-! What the two loops of `compact_table` make of the records of a table: the newest value of
each key goes to the temporary file, and it goes there when it is a tombstone as well. -/

namespace CachyDb.Compactor

open ByteString TableHandler Table

/-- The keys in the order of their first occurrences, with their last values. -/
def lastValues : List (String × Value) → List (String × Value)
  | [] => []
  | (key, value) :: rest =>
      (key, (lastOf rest key).getD value) :: (lastValues rest).filter fun record => record.1 ≠ key

theorem mem_lastValues {occurrences : List (String × Value)} {key : String} {value : Value} :
    (key, value) ∈ lastValues occurrences ↔ lastOf occurrences key = some value := by
  induction occurrences with
  | nil => simp [lastValues]
  | cons occurrence rest ih =>
      obtain ⟨first, old⟩ := occurrence
      by_cases same : key = first
      · subst same
        cases later : lastOf rest key with
        | none => simp [lastValues, lastOf, later, eq_comm]
        | some newer => simp [lastValues, lastOf, later, eq_comm]
      · simp [lastValues, lastOf, same, Ne.symm same, ih]

/-- The assignments of the scan, one after the other. -/
def assignAll (records occurrences : List (String × Value)) : List (String × Value) :=
  occurrences.foldl (fun records occurrence => assign records occurrence.1 occurrence.2) records

@[simp] theorem assignAll_cons (records occurrences : List (String × Value))
    (occurrence : String × Value) :
    assignAll records (occurrence :: occurrences) =
      assignAll (assign records occurrence.1 occurrence.2) occurrences := rfl

theorem assignAll_append (records front back : List (String × Value)) :
    assignAll records (front ++ back) = assignAll (assignAll records front) back :=
  List.foldl_append

/-- Assignments keep the place of a key, and put a new key at the end. -/
theorem assignAll_eq (occurrences records : List (String × Value)) :
    assignAll records occurrences =
      (records.map fun record => (record.1, (lastOf occurrences record.1).getD record.2)) ++
        (lastValues occurrences).filter fun record => record.1 ∉ records.map Prod.fst := by
  induction occurrences generalizing records with
  | nil => simp [lastValues, assignAll]
  | cons occurrence rest ih =>
      obtain ⟨key, value⟩ := occurrence
      rw [assignAll_cons, ih]
      by_cases known : key ∈ records.map Prod.fst
      · have keys : (assign records key value).map Prod.fst = records.map Prod.fst := by
          rw [assign, if_pos known, List.map_map]
          apply List.map_congr_left
          intro record _
          by_cases same : record.1 = key <;> simp [same]
        rw [keys, assign, if_pos known, List.map_map]
        congr 1
        · apply List.map_congr_left
          intro record _
          by_cases same : record.1 = key
          · cases later : lastOf rest key <;> simp [same, lastOf, later]
          · simp [same, lastOf, Ne.symm same]
        · rw [lastValues, List.filter_cons_of_neg (by simpa using known), List.filter_filter]
          apply List.filter_congr
          intro record _
          by_cases same : record.1 = key
          · simp [same, known]
          · simp [same]
      · rw [assign, if_neg known, List.map_append, List.append_assoc]
        congr 1
        · apply List.map_congr_left
          intro record member
          have other : key ≠ record.1 := fun same =>
            known (same ▸ List.mem_map_of_mem member)
          simp [lastOf, other]
        · rw [lastValues, List.filter_cons_of_pos (by simpa using known), List.filter_filter]
          simp only [List.map_cons, List.map_nil, List.map_append, List.singleton_append]
          congr 1
          apply List.filter_congr
          intro record _
          by_cases same : record.1 = key <;> simp [same, List.mem_append]

/-- A key is assigned once. -/
theorem lastValues_filter (occurrences : List (String × Value)) (key : String) :
    ((lastValues occurrences).filter fun record => record.1 = key) =
      match lastOf occurrences key with
      | none => []
      | some value => [(key, value)] := by
  induction occurrences with
  | nil => rfl
  | cons occurrence rest ih =>
      obtain ⟨first, old⟩ := occurrence
      by_cases same : first = key
      · subst same
        have others : ((lastValues rest).filter fun record => record.1 ≠ first).filter
            (fun record => record.1 = first) = [] := by
          rw [List.filter_filter, List.filter_eq_nil_iff]
          simp
        rw [lastValues, List.filter_cons_of_pos (by simp), others]
        cases later : lastOf rest first <;> simp [lastOf, later]
      · have others : ((lastValues rest).filter fun record => record.1 ≠ first).filter
            (fun record => record.1 = key) =
              (lastValues rest).filter fun record => record.1 = key := by
          rw [List.filter_filter]
          apply List.filter_congr
          intro record _
          by_cases here : record.1 = key
          · simp [here, Ne.symm same]
          · simp [here]
        rw [lastValues, List.filter_cons_of_neg (by simpa using same), others, ih]
        simp [lastOf, same]

/-- What a payload says, where it unpacks. -/
def unpacked (json : Json) (payload : Bytes) : Option (String × Value) :=
  match unpackRecord json payload with
  | .error _ => none
  | .ok record => some record

/-- The records of a table in the order of its pages and their slots. -/
def occurrences (json : Json) (h : TableHandler) : List (String × Value) :=
  h.contents.filterMap fun record => unpacked json record.2

theorem foldlM_scanSlot (json : Json) (page : Page) {slots : List Nat}
    (inside : ∀ slot ∈ slots, slot < page.slots.length) (records : List (String × Value)) :
    slots.foldlM (scanSlot json page) records =
      .ok (assignAll records
        (slots.filterMap fun slot => (page.recordAt slot).bind (unpacked json))) := by
  induction slots generalizing records with
  | nil => rfl
  | cons slot rest ih =>
      obtain ⟨first, others⟩ := List.forall_mem_cons.mp inside
      have known := List.getElem?_eq_getElem first
      rw [List.foldlM_cons]
      cases found : page.getRecord slot with
      | error e =>
          simp only [Page.getRecord, known] at found
          split at found
          · cases found
          · cases found
      | ok payload =>
          cases payload with
          | none =>
              have nothing : (page.recordAt slot).bind (unpacked json) = none := by
                simp [Page.recordAt, found]
              simp only [scanSlot, found]
              rw [List.filterMap_cons, nothing]
              exact ih others records
          | some payload =>
              cases read : unpackRecord json payload with
              | error e =>
                  have nothing : (page.recordAt slot).bind (unpacked json) = none := by
                    simp [Page.recordAt, found, unpacked, read]
                  simp only [scanSlot, found, read]
                  rw [List.filterMap_cons, nothing]
                  exact ih others records
              | ok record =>
                  have here : (page.recordAt slot).bind (unpacked json) = some record := by
                    simp [Page.recordAt, found, unpacked, read]
                  simp only [scanSlot, found, read]
                  rw [List.filterMap_cons, here, assignAll_cons]
                  exact ih others _

/-- A readable page is read, and stays what it is. -/
theorem readPage_of_view {h : TableHandler} {pageId : Nat} {page : Page}
    (seen : h.view pageId = some page) :
    ∃ h', h.readPage pageId = .ok (page, h') ∧ h'.totalPages = h.totalPages ∧
      ∀ other, h'.view other = h.view other := by
  cases cached : h.pageCache pageId with
  | some held =>
      have same := view_of_cached cached
      rw [seen, Option.some.injEq] at same
      subst same
      exact ⟨h, by rw [readPage, cached], rfl, fun _ => rfl⟩
  | none =>
      cases loaded : h.loadPage pageId with
      | error e => simp [view, readPage, cached, loaded] at seen
      | ok held =>
          have same : held = page := by
            simpa [view, readPage, cached, loaded] using seen
          subst same
          refine ⟨h.cachePage pageId held, by simp only [readPage, cached, loaded], rfl, ?_⟩
          intro other
          by_cases here : other = pageId
          · rw [here, view_cachePage_self, seen]
          · exact view_cachePage_ne h held here

theorem foldlM_scanPage (json : Json) {h : TableHandler} {pages : List Nat}
    (readable : ∀ pageId ∈ pages, ∃ page, h.view pageId = some page)
    (records : List (String × Value)) :
    ∃ h', pages.foldlM (scanPage json) (h, records) =
      .ok (h', assignAll records
        ((pages.flatMap h.pageContents).filterMap fun record => unpacked json record.2)) := by
  induction pages generalizing h records with
  | nil => exact ⟨h, rfl⟩
  | cons pageId rest ih =>
      obtain ⟨⟨page, seen⟩, others⟩ := List.forall_mem_cons.mp readable
      obtain ⟨h₁, read, _, views⟩ := readPage_of_view seen
      have inside : ∀ slot ∈ List.range page.slots.length, slot < page.slots.length :=
        fun slot member => List.mem_range.mp member
      have turned := foldlM_scanSlot json page inside records
      have here : (h.pageContents pageId).filterMap (fun record => unpacked json record.2) =
          (List.range page.slots.length).filterMap fun slot =>
            (page.recordAt slot).bind (unpacked json) := by
        simp only [pageContents, seen, Page.records, List.filterMap_map, List.filterMap_filterMap]
        congr 1
        funext slot
        cases page.recordAt slot <;> rfl
      have readable₁ : ∀ other ∈ rest, ∃ page, h₁.view other = some page := by
        intro other member
        rw [views other]
        exact others other member
      have same : h₁.pageContents = h.pageContents := by
        funext other
        rw [pageContents, pageContents, views other]
      obtain ⟨h', done⟩ := ih readable₁
        (assignAll records ((h.pageContents pageId).filterMap fun record => unpacked json record.2))
      rw [same] at done
      refine ⟨h', ?_⟩
      rw [List.foldlM_cons, List.flatMap_cons, List.filterMap_append, assignAll_append, ← done,
        here]
      simp only [scanPage, read, turned]
      rfl

/-- The scan of readable pages finds the last value of each key. -/
theorem scan_readable (json : Json) {h : TableHandler}
    (readable : ∀ pageId, pageId < h.totalPages → ∃ page, h.view pageId = some page) :
    ∃ h', scan json h h.totalPages = .ok (h', lastValues (occurrences json h)) := by
  have listed : ∀ pageId ∈ List.range h.totalPages, ∃ page, h.view pageId = some page :=
    fun pageId member => readable pageId (List.mem_range.mp member)
  obtain ⟨h', scanned⟩ := foldlM_scanPage json listed []
  refine ⟨h', ?_⟩
  rw [scan, scanned, assignAll_eq]
  simp [occurrences, contents]

/-- The payload that `_pack_record` makes, if any. -/
def packedOf (json : Json) (record : String × Value) : String × Bytes :=
  match packRecord json record.1 record.2 with
  | .error _ => (record.1, [])
  | .ok packed => (record.1, packed)

theorem packedOf_ok {json : Json} {record : String × Value} {packed : Bytes}
    (packs : packRecord json record.1 record.2 = .ok packed) :
    packedOf json record = (record.1, packed) := by
  rw [packedOf, packs]

theorem packed_nonempty {json : Json} {records : List (String × Value)}
    (packs : ∀ record ∈ records, ∃ packed, packRecord json record.1 record.2 = .ok packed) :
    ∀ record ∈ records.map (packedOf json), record.2 ≠ [] := by
  intro record member
  obtain ⟨source, inside, rfl⟩ := List.mem_map.mp member
  obtain ⟨packed, same⟩ := packs source inside
  obtain ⟨text, _, _, rfl⟩ := packRecord_ok same
  rw [packedOf_ok same]
  intro empty
  have length := congrArg List.length empty
  simp at length

/-- The second loop packs its records and fills pages with them as a flush does. -/
theorem foldlM_rewriteRecord (json : Json) (records : List (String × Value))
    (state next : TableHandler × FlushJob) :
    records.foldlM (rewriteRecord json) state = .ok next ↔
      (∀ record ∈ records, ∃ packed, packRecord json record.1 record.2 = .ok packed) ∧
        fillPages state.1 state.2 (records.map (packedOf json)) = .ok next := by
  induction records generalizing state with
  | nil =>
      obtain ⟨h, job⟩ := state
      simp [fillPages, pure, Except.pure]
  | cons record rest ih =>
      rw [List.foldlM_cons, List.forall_mem_cons, List.map_cons]
      cases packs : packRecord json record.1 record.2 with
      | error e => simp [rewriteRecord, packs, bind, Except.bind]
      | ok packed =>
          rw [packedOf_ok packs]
          cases turned : Table.flushRecord state.1 state.2 record.1 packed with
          | error e => simp [rewriteRecord, packs, turned, bind, Except.bind, fillPages]
          | ok middle =>
              have rest_of := ih middle
              simp only [rewriteRecord, packs, turned, bind, Except.bind, fillPages,
                Except.ok.injEq, exists_eq', true_and]
              exact rest_of

/-- The bytes that the records take, each with its slot. -/
def spaces (json : Json) (records : List (String × Value)) : List Nat :=
  records.map fun record => recordSpace (packedOf json record)

/-- The loops can write these records: each packs, fits into an empty page, and the pages can be
numbered. -/
structure Writable (json : Json) (pages : Nat) (records : List (String × Value)) : Prop where
  packs : ∀ record ∈ records, ∃ packed, packRecord json record.1 record.2 = .ok packed
  fits : ∀ record ∈ records, recordSpace (packedOf json record) ≤ emptySpace
  numbered : pages + pagesOpened emptySpace (spaces json records) < maxPages

/-- The state of the second loop before its first record. -/
def firstJob (pageId : Nat) : FlushJob := ⟨[], pageId, [], [], false⟩

/-- The temporary file has got its first new page. -/
theorem rewrite_start (json : Json) {file : File} (formed : (openTable file).WellFormed)
    (room : (openTable file).totalPages < maxPages) :
    ∃ h, Space h (firstJob (openTable file).totalPages) emptySpace ∧
      Filling (openTable file).contents h (firstJob (openTable file).totalPages) [] ∧
      ∀ records temp, rewrite json (openTable file) records = .ok temp ↔
        ∃ next, records.foldlM (rewriteRecord json)
          (h, firstJob (openTable file).totalPages) = .ok next ∧
          writeDirty next.1 next.2 = .ok temp := by
  obtain ⟨h, allocated, page, loaded, left⟩ := (allocatePage_space_iff formed).mpr room
  have read := readPage_loaded loaded
  obtain ⟨keeps, pages, _, stored⟩ := allocated_page formed allocated read
  have opened : Opened h (firstJob (openTable file).totalPages) :=
    ⟨keeps.formed, pages, page, loaded⟩
  refine ⟨h, ⟨opened, ⟨page, loaded, left⟩, room⟩, ?_, fun records temp => ?_⟩
  · apply Filling.caught_up opened (stored (openTable_stored formed))
    · exact (openTable_drafts file).allocatePage formed allocated
    · rw [keeps.contents, List.append_nil]
  · simp only [rewrite, allocated, read, firstJob]
    cases records.foldlM (rewriteRecord json)
        (h, ⟨[], (openTable file).totalPages, [], [], false⟩) with
    | error e => simp
    | ok next =>
        obtain ⟨h', job'⟩ := next
        cases written : writeDirty h' job' <;> simp [written]

/-- The rewrite raises when it cannot write one of its records, and only then. -/
theorem rewrite_iff (json : Json) {file : File} (formed : (openTable file).WellFormed)
    (records : List (String × Value)) :
    (∃ temp, rewrite json (openTable file) records = .ok temp) ↔
      Writable json (openTable file).totalPages records := by
  by_cases room : (openTable file).totalPages < maxPages
  · obtain ⟨h, space, _, started⟩ := rewrite_start json formed room
    constructor
    · rintro ⟨temp, done⟩
      obtain ⟨next, filled, _⟩ := (started records temp).mp done
      obtain ⟨packs, filled⟩ := (foldlM_rewriteRecord json records _ next).mp filled
      have nonempty := packed_nonempty packs
      obtain ⟨fits, numbered⟩ := (space.fillPages_iff nonempty).mp ⟨next, filled⟩
      refine ⟨packs, fun record member => fits _ (List.mem_map_of_mem member), ?_⟩
      rw [List.map_map] at numbered
      exact numbered
    · rintro ⟨packs, fits, numbered⟩
      have nonempty := packed_nonempty packs
      have small : ∀ record ∈ records.map (packedOf json), recordSpace record ≤ emptySpace := by
        intro record member
        obtain ⟨source, inside, rfl⟩ := List.mem_map.mp member
        exact fits source inside
      obtain ⟨next, filled⟩ := (space.fillPages_iff nonempty).mpr
        ⟨small, by rw [List.map_map]; exact numbered⟩
      obtain ⟨free, space'⟩ := space.fill nonempty filled
      obtain ⟨temp, written⟩ := writeDirty_ok space'.opened space'.numbered
      exact ⟨temp, (started records temp).mpr
        ⟨next, (foldlM_rewriteRecord json records _ next).mpr ⟨packs, filled⟩, written⟩⟩
  · constructor
    · rintro ⟨temp, done⟩
      unfold rewrite at done
      cases allocated : (openTable file).allocatePage with
      | error e =>
          rw [allocated] at done
          cases done
      | ok result => exact absurd (allocatePage_pageId allocated).2 room
    · intro writable
      have numbered := writable.numbered
      omega

/-- The records are at the end of the temporary file, in their order, and are found there when
the file is opened again. -/
theorem rewrite_contents (json : Json) {file : File} (formed : (openTable file).WellFormed)
    {records : List (String × Value)} {temp : TableHandler}
    (done : rewrite json (openTable file) records = .ok temp) :
    ∃ placed, (openTable temp.file).contents = (openTable file).contents ++ placed ∧
      placed.map Prod.snd = records.map fun record => (packedOf json record).2 := by
  have writable := (rewrite_iff json formed records).mp ⟨temp, done⟩
  have numbered := writable.numbered
  obtain ⟨h, space, filling, started⟩ := rewrite_start json formed (by omega)
  obtain ⟨next, filled, written⟩ := (started records temp).mp done
  obtain ⟨packs, filled⟩ := (foldlM_rewriteRecord json records _ next).mp filled
  have nonempty := packed_nonempty packs
  obtain ⟨placed, full, listed⟩ := filling.fill nonempty filled
  obtain ⟨keeps, _, stored⟩ := writeDirty_spec full.opened written
  obtain ⟨_, found⟩ := (stored full.saved).reopen keeps.formed
  refine ⟨placed, ?_, ?_⟩
  · rw [found, keeps.contents, full.contents, List.nil_append]
  · rw [listed, List.map_map]
    rfl

/-- The record that is to be kept of a key: its last value, unless this is a tombstone. -/
def liveOf (occurrences : List (String × Value)) (key : String) : List (String × Value) :=
  match lastOf occurrences key with
  | none => []
  | some .null => []
  | some value => [(key, value)]

/-- The loops get through, and of each key they put the live record into the temporary file and
no other. -/
def KeepsLive (json : Json) (h : TableHandler) (file : File) : Prop :=
  ∃ (h' temp : TableHandler) (records kept : List (String × Value))
    (placed : List ((Nat × Nat) × Bytes)), scan json h h.totalPages = .ok (h', records) ∧
    rewrite json (openTable file) records = .ok temp ∧
    (openTable temp.file).contents = (openTable file).contents ++ placed ∧
    placed.map (fun record => unpackRecord json record.2) = kept.map .ok ∧
    ∀ key, (kept.filter fun record => record.1 = key) = liveOf (occurrences json h) key

/-- No key was deleted last, and the last values can be written into pages and read back. -/
structure Compactable (json : Json) (pages : Nat) (occurrences : List (String × Value)) : Prop where
  live : ∀ key, lastOf occurrences key ≠ some .null
  faithful : ∀ key value, lastOf occurrences key = some value → json.Faithful value
  packs : ∀ key value, lastOf occurrences key = some value →
    ∃ packed, packRecord json key value = .ok packed ∧ recordSpace (key, packed) ≤ emptySpace
  numbered : pages + pagesOpened emptySpace (spaces json (lastValues occurrences)) < maxPages

theorem Compactable.writable {json : Json} {pages : Nat} {occurrences : List (String × Value)}
    (compactable : Compactable json pages occurrences) :
    Writable json pages (lastValues occurrences) := by
  refine ⟨fun record member => ?_, fun record member => ?_, compactable.numbered⟩
  · obtain ⟨packed, packs, _⟩ := compactable.packs record.1 record.2 (mem_lastValues.mp member)
    exact ⟨packed, packs⟩
  · obtain ⟨packed, packs, fits⟩ := compactable.packs record.1 record.2 (mem_lastValues.mp member)
    rw [packedOf_ok packs]
    exact fits

theorem liveOf_live {occurrences : List (String × Value)} {key : String}
    (live : lastOf occurrences key ≠ some .null) :
    liveOf occurrences key =
      match lastOf occurrences key with
      | none => []
      | some value => [(key, value)] := by
  unfold liveOf
  cases last : lastOf occurrences key with
  | none => rfl
  | some value =>
      cases value with
      | null => exact absurd last live
      | _ => rfl

/-- The value as it is read back from the text that is written for it. -/
def reread (json : Json) (value : Value) : Value :=
  ((json.dumps value).bind json.loads).getD .null

/-- A packed record unpacks to its key, and to the value as it is read back. -/
theorem unpack_packedOf {json : Json} {record : String × Value} {packed : Bytes}
    (packs : packRecord json record.1 record.2 = .ok packed) :
    unpackRecord json (packedOf json record).2 = .ok (record.1, reread json record.2) ∧
      (json.Faithful record.2 ↔ reread json record.2 = record.2) := by
  have written := packRecord_value packs
  obtain ⟨value, read⟩ := json.loads_dumps _ _ written
  have same : reread json record.2 = value := by
    simp [reread, written, read]
  rw [packedOf_ok packs, same]
  refine ⟨unpackRecord_pack packs read, ?_⟩
  constructor
  · rintro ⟨text, written', read'⟩
    rw [written, Option.some.injEq] at written'
    rw [← written', read, Option.some.injEq] at read'
    exact read'
  · rintro rfl
    exact ⟨_, written, read⟩

theorem unpack_all {json : Json} {records : List (String × Value)}
    (packs : ∀ record ∈ records, ∃ packed, packRecord json record.1 record.2 = .ok packed)
    {placed : List ((Nat × Nat) × Bytes)}
    (listed : placed.map Prod.snd = records.map fun record => (packedOf json record).2) :
    placed.map (fun record => unpackRecord json record.2) =
      (records.map fun record => (record.1, reread json record.2)).map .ok := by
  have split : placed.map (fun record => unpackRecord json record.2) =
      (placed.map Prod.snd).map (unpackRecord json) := by
    rw [List.map_map]
    rfl
  rw [split, listed, List.map_map, List.map_map]
  apply List.map_congr_left
  intro record member
  obtain ⟨packed, same⟩ := packs record member
  exact (unpack_packedOf same).1

section

variable {json : Json} {h : TableHandler} {file : File}

theorem Compactable.keepsLive (formed : (openTable file).WellFormed)
    (readable : ∀ pageId, pageId < h.totalPages → ∃ page, h.view pageId = some page)
    (compactable : Compactable json (openTable file).totalPages (occurrences json h)) :
    KeepsLive json h file := by
  obtain ⟨h', scanned⟩ := scan_readable json readable
  have writable := compactable.writable
  obtain ⟨temp, rewritten⟩ := (rewrite_iff json formed _).mpr writable
  obtain ⟨placed, contents, listed⟩ := rewrite_contents json formed rewritten
  have unpacks := unpack_all writable.packs listed
  have unchanged : (lastValues (occurrences json h)).map (fun record =>
      (record.1, reread json record.2)) = lastValues (occurrences json h) := by
    refine (List.map_congr_left fun record member => ?_).trans (List.map_id _)
    obtain ⟨packed, packing⟩ := writable.packs record member
    have faithful := compactable.faithful record.1 record.2 (mem_lastValues.mp member)
    exact Prod.ext rfl ((unpack_packedOf packing).2.mp faithful)
  refine ⟨h', temp, _, _, placed, scanned, rewritten, contents, unpacks, fun key => ?_⟩
  rw [unchanged, lastValues_filter, liveOf_live (compactable.live key)]

theorem KeepsLive.compactable (formed : (openTable file).WellFormed)
    (readable : ∀ pageId, pageId < h.totalPages → ∃ page, h.view pageId = some page)
    (keeps : KeepsLive json h file) :
    Compactable json (openTable file).totalPages (occurrences json h) := by
  obtain ⟨h', temp, records, kept, placed, scanned, rewritten, contents, unpacked, live⟩ := keeps
  obtain ⟨_, scanned'⟩ := scan_readable json readable
  rw [scanned, Except.ok.injEq, Prod.mk.injEq] at scanned'
  obtain ⟨_, rfl⟩ := scanned'
  obtain ⟨packs, fits, numbered⟩ := (rewrite_iff json formed _).mp ⟨temp, rewritten⟩
  obtain ⟨placed', contents', listed⟩ := rewrite_contents json formed rewritten
  have same : placed' = placed := List.append_cancel_left (contents'.symm.trans contents)
  subst same
  have list := (unpack_all packs listed).symm.trans unpacked
  rw [List.map_inj_right fun _ _ same => Except.ok.inj same] at list
  subst list
  -- what is kept of a key is the value that the scan found last, as it is read back
  have last : ∀ key value, lastOf (occurrences json h) key = some value →
      liveOf (occurrences json h) key = [(key, reread json value)] := by
    intro key value found
    have one := lastValues_filter (occurrences json h) key
    rw [found] at one
    rw [← live key, List.filter_map]
    exact congrArg (List.map _) one
  have nonnull : ∀ key, lastOf (occurrences json h) key ≠ some .null := by
    intro key tombstone
    have one := last key .null tombstone
    simp [liveOf, tombstone] at one
  refine ⟨nonnull, ?_, ?_, numbered⟩
  · intro key value found
    obtain ⟨packed, packing⟩ := packs (key, value) (mem_lastValues.mpr found)
    have one := last key value found
    rw [liveOf_live (nonnull key), found] at one
    exact (unpack_packedOf packing).2.mpr (by simpa using one.symm)
  · intro key value found
    have member := mem_lastValues.mpr found
    obtain ⟨packed, packing⟩ := packs (key, value) member
    have small := fits (key, value) member
    rw [packedOf_ok packing] at small
    exact ⟨packed, packing, small⟩

end

/-- Of any readable pages, the two loops keep exactly the live data if and only if no key was
deleted last and the last values can be written at all. -/
theorem keeps_live_iff (json : Json) (h : TableHandler) (file : File)
    (readable : ∀ pageId, pageId < h.totalPages → ∃ page, h.view pageId = some page)
    (formed : (openTable file).WellFormed) :
    KeepsLive json h file ↔
      Compactable json (openTable file).totalPages (occurrences json h) :=
  ⟨fun keeps => keeps.compactable formed readable, fun compactable =>
    compactable.keepsLive formed readable⟩

/-- The records of a new table file are those that a flush has put there. -/
theorem occurrences_flushed {json : Json} {records : List (String × Value)}
    (packs : ∀ record ∈ records, ∃ packed, packRecord json record.1 record.2 = .ok packed ∧
      json.Faithful record.2 ∧ recordSpace (packedOf json record) ≤ emptySpace)
    (few : records.length < maxPages) :
    ∃ h job, flushPages (openTable File.empty) (records.map (packedOf json)) = .ok (h, job) ∧
      (∀ pageId, pageId < h.totalPages → ∃ page, h.view pageId = some page) ∧
        occurrences json h = records := by
  have packed : ∀ record ∈ records, ∃ packed,
      packRecord json record.1 record.2 = .ok packed := by
    intro record member
    obtain ⟨bytes, packing, _⟩ := packs record member
    exact ⟨bytes, packing⟩
  have nonempty := packed_nonempty packed
  have fit : ∀ record ∈ records.map (packedOf json), Fits record := by
    intro record member
    refine ⟨nonempty record member, ?_⟩
    obtain ⟨source, inside, rfl⟩ := List.mem_map.mp member
    obtain ⟨_, _, _, small⟩ := packs source inside
    simp only [recordSpace, emptySpace, Page.headerSize, Page.slotSize, Page.pageSize] at *
    omega
  obtain ⟨h, job, flushed⟩ := flushPages_ok openTable_empty_wellFormed fit
    (by simpa [openTable, totalPages] using few)
  obtain ⟨formed, _, _, placed, contents, listed⟩ := flushPages_filling
    openTable_empty_wellFormed (openTable_stored openTable_empty_wellFormed)
    (openTable_drafts File.empty) nonempty flushed
  have readable : ∀ pageId, pageId < h.totalPages → ∃ page, h.view pageId = some page := by
    intro pageId inside
    obtain ⟨page, seen, _⟩ := formed.readable pageId inside
    exact ⟨page, seen⟩
  refine ⟨h, job, flushed, readable, ?_⟩
  have each : ∀ record ∈ records, unpacked json (packedOf json record).2 = some record := by
    intro record member
    obtain ⟨bytes, packing, faithful, _⟩ := packs record member
    obtain ⟨unpacks, same⟩ := unpack_packedOf packing
    simp only [unpacked, unpacks, same.mp faithful]
  have payloads : placed.filterMap (fun record => unpacked json record.2) =
      (placed.map Prod.snd).filterMap (unpacked json) := by
    rw [List.filterMap_map]
    rfl
  have here : h.contents = placed := contents
  rw [occurrences, here, payloads, listed, List.filterMap_map, List.filterMap_map]
  exact (List.filterMap_congr each).trans List.filterMap_some

theorem word_packs {s : String}
    (small : recordSpace (packedOf Router.manifestJson ("k", .str s)) ≤ emptySpace) :
    ∃ packed, packRecord Router.manifestJson "k" (.str s) = .ok packed ∧
      Router.manifestJson.Faithful (.str s) ∧
      recordSpace (packedOf Router.manifestJson ("k", .str s)) ≤ emptySpace :=
  ⟨_, rfl, Router.manifestJson_string s, small⟩

/-- The newer of two values is kept. -/
theorem keeps_live_of_two :
    ∃ h job, flushPages (openTable File.empty)
        ([("k", .str "x"), ("k", .str "y")].map (packedOf Router.manifestJson)) = .ok (h, job) ∧
      KeepsLive Router.manifestJson h File.empty := by
  have packs := word_packs (show recordSpace
    (packedOf Router.manifestJson ("k", .str "y")) ≤ emptySpace by decide)
  obtain ⟨h, job, flushed, readable, listed⟩ :=
    @occurrences_flushed Router.manifestJson [("k", .str "x"), ("k", .str "y")]
      (List.forall_mem_cons.mpr
        ⟨word_packs (by decide), List.forall_mem_singleton.mpr packs⟩) (by decide)
  refine ⟨h, job, flushed, (keeps_live_iff Router.manifestJson h File.empty readable
    openTable_empty_wellFormed).mpr ?_⟩
  rw [listed]
  have last : ∀ key value, lastOf [("k", .str "x"), ("k", .str "y")] key = some value →
      key = "k" ∧ value = .str "y" := by
    intro key value found
    by_cases same : "k" = key
    · subst same
      exact ⟨rfl, (Option.some.inj found).symm⟩
    · simp [lastOf, same] at found
  refine ⟨?_, ?_, ?_, by decide⟩
  · intro key tombstone
    cases (last key .null tombstone).2
  · intro key value found
    obtain ⟨rfl, rfl⟩ := last key value found
    exact Router.manifestJson_string "y"
  · intro key value found
    obtain ⟨rfl, rfl⟩ := last key value found
    exact ⟨_, rfl, by decide⟩

/-- The tombstone of a deleted key is written into the temporary file. -/
theorem tombstone_kept :
    ∃ h job, flushPages (openTable File.empty)
        ([("k", .str "x"), ("k", .null)].map (packedOf Router.manifestJson)) = .ok (h, job) ∧
      (∀ pageId, pageId < h.totalPages → ∃ page, h.view pageId = some page) ∧
      ¬ KeepsLive Router.manifestJson h File.empty := by
  have packs : ∃ packed, packRecord Router.manifestJson "k" .null = .ok packed ∧
      Router.manifestJson.Faithful .null ∧
      recordSpace (packedOf Router.manifestJson ("k", .null)) ≤ emptySpace :=
    ⟨_, rfl, Router.manifestJson.faithful_null, by decide⟩
  obtain ⟨h, job, flushed, readable, listed⟩ :=
    @occurrences_flushed Router.manifestJson [("k", .str "x"), ("k", .null)]
      (List.forall_mem_cons.mpr
        ⟨word_packs (by decide), List.forall_mem_singleton.mpr packs⟩) (by decide)
  refine ⟨h, job, flushed, readable, fun keeps => ?_⟩
  have live := (keeps.compactable openTable_empty_wellFormed readable).live "k"
  rw [listed] at live
  exact live rfl

end CachyDb.Compactor
