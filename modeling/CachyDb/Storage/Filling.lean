import CachyDb.Pager.Torn
import CachyDb.Storage.Flushing

set_option autoImplicit false

/-! A flush on the table file from its first to its last page write, and what the file
itself holds at each moment: a page object that is being filled runs ahead of its bytes. -/

namespace CachyDb.Table

open ByteString TableHandler

/-- The loop over the records. -/
def fillPages (h : TableHandler) (job : FlushJob) :
    List (String × Bytes) → Except TableHandler.Error (TableHandler × FlushJob)
  | [] => .ok (h, job)
  | (key, packed) :: rest =>
      match flushRecord h job key packed with
      | .error e => .error e
      | .ok (h, job) => fillPages h job rest

/-- What `flush_memtable_to_disk` does to the table file before it updates the index. -/
def flushPages (h : TableHandler) (records : List (String × Bytes)) :
    Except TableHandler.Error (TableHandler × FlushJob) :=
  match openLastPage h with
  | .error e => .error e
  | .ok (pageId, h) =>
      match fillPages h ⟨records, pageId, [], [], false⟩ records with
      | .error e => .error e
      | .ok (h, job) =>
          match writeDirty h job with
          | .error e => .error e
          | .ok h => .ok (h, job)

/-- What the file has of a page. -/
def onDisk (file : File) (pageId : Nat) : Bytes :=
  file.read (pageId * Page.pageSize) Page.pageSize

/-- Each loaded page has the records that the file has of it, and perhaps more. -/
def Drafts (h : TableHandler) : Prop :=
  ∀ pageId page, h.pageCache pageId = some page →
    ∃ old, Page.fromBytes (onDisk h.file pageId) = .ok old ∧ page.Extends old ∧
      page.upperOffset ≤ old.upperOffset

theorem openTable_drafts (file : File) : Drafts (openTable file) :=
  fun _ _ loaded => by cases loaded

theorem loadPage_ok {h : TableHandler} {pageId : Nat} {page : Page}
    (loaded : h.loadPage pageId = .ok page) :
    pageId < h.totalPages ∧ Page.fromBytes (onDisk h.file pageId) = .ok page := by
  unfold loadPage at loaded
  split at loaded
  · cases loaded
  · rename_i inside
    dsimp only at loaded
    split at loaded
    · cases loaded
    · refine ⟨Nat.lt_of_not_ge inside, ?_⟩
      unfold onDisk
      split at loaded
      · cases loaded
      · rename_i read
        cases loaded
        exact read

theorem Drafts.readPage {h h' : TableHandler} (drafts : Drafts h) {pageId : Nat} {page : Page}
    (read : h.readPage pageId = .ok (page, h')) : Drafts h' ∧ h'.file = h.file := by
  unfold TableHandler.readPage at read
  split at read
  · cases read
    exact ⟨drafts, rfl⟩
  · split at read
    · cases read
    · rename_i loaded
      cases read
      refine ⟨fun other held cached => ?_, rfl⟩
      by_cases here : other = pageId
      · subst here
        rw [cachePage_self, Option.some.injEq] at cached
        subst cached
        exact ⟨_, (loadPage_ok loaded).2, Page.Extends.refl _, Nat.le_refl _⟩
      · rw [h.cachePage_ne _ here] at cached
        exact drafts other held cached

theorem store_cache {h h' : TableHandler} {page : Page} (done : h.store page = .ok h') {other : Nat}
    (different : other ≠ page.pageId) : h'.pageCache other = h.pageCache other := by
  unfold TableHandler.store at done
  split at done
  · cases done
  · cases done
    exact h.cachePage_ne _ different

/-- A stored page is what the file has of it. -/
theorem Drafts.store {h h' : TableHandler} (drafts : Drafts h) (formed : h.WellFormed) {page : Page}
    (shape : page.WellFormed) (place : page.pageId ≤ h.totalPages) (done : h.store page = .ok h') :
    Drafts h' := by
  obtain ⟨_, _, cached, _, bytes, read⟩ := formed.store shape place done
  intro other held found
  by_cases here : other = page.pageId
  · subst here
    rw [cached, Option.some.injEq] at found
    subst found
    exact ⟨_, read, Page.Extends.refl _, Nat.le_refl _⟩
  · have before := (store_cache done here).symm.trans found
    unfold onDisk
    rw [bytes other (formed.loaded other held before) here]
    exact drafts other held before

theorem Drafts.allocatePage {h h' : TableHandler} (drafts : Drafts h) (formed : h.WellFormed)
    {pageId : Nat} (done : h.allocatePage = .ok (pageId, h')) : Drafts h' := by
  unfold TableHandler.allocatePage at done
  split at done
  · cases done
  · rename_i stored
    cases done
    exact drafts.store formed (Page.init_wellFormed _) (Nat.le_refl _) stored

theorem Drafts.writeDirty {h h' : TableHandler} {job : FlushJob} (drafts : Drafts h)
    (opened : Opened h job) (done : writeDirty h job = .ok h') : Drafts h' := by
  unfold Table.writeDirty at done
  split at done
  · split at done
    · cases done
    · rename_i page loaded
      obtain ⟨_, shape, same⟩ := opened.page loaded
      unfold writePage at done
      split at done
      · cases done
      · exact drafts.store opened.formed shape (by omega) done
  · cases done
    exact drafts

/-- An inserted record lies below those that the page has, and its slot behind theirs. -/
theorem Drafts.insert {h : TableHandler} (drafts : Drafts h) {pageId : Nat} {page page' : Page}
    (loaded : h.pageCache pageId = some page) {payload : Bytes} {slot : Nat}
    (inserted : page.insertRecord payload = .ok (slot, page')) :
    Drafts (h.cachePage pageId page') := by
  intro other held cached
  by_cases here : other = pageId
  · subst here
    rw [cachePage_self, Option.some.injEq] at cached
    subst cached
    obtain ⟨old, read, extends_, upper⟩ := drafts other page loaded
    unfold Page.insertRecord at inserted
    split at inserted
    · cases inserted
    · split at inserted
      · rename_i space
        cases inserted
        have fits : page.lowerOffset + (Page.slotSize + payload.length) ≤ page.upperOffset := by
          simpa [Page.hasSpaceFor] using space
        obtain ⟨more, slots⟩ := extends_.slots
        let added := (page.upperOffset - payload.length, payload.length)
        refine ⟨old, read, ⟨extends_.pageId, ⟨more ++ [added], ?_⟩, ?_⟩, ?_⟩
        · show page.slots ++ [added] = old.slots ++ (more ++ [added])
          rw [slots, List.append_assoc]
        · intro i above below
          rw [← extends_.payloads i above below]
          apply File.write_byte_outside
          omega
        · show page.upperOffset - payload.length ≤ old.upperOffset
          omega
      · cases inserted
  · rw [h.cachePage_ne _ here] at cached
    exact drafts other held cached

theorem Drafts.placeRecord {h h' : TableHandler} {job job' : FlushJob} (drafts : Drafts h)
    {key : String} {packed : Bytes} (done : placeRecord h job key packed = .ok (h', job')) :
    Drafts h' ∧ h'.file = h.file := by
  unfold Table.placeRecord at done
  split at done
  · cases done
  · rename_i page loaded
    split at done
    · cases done
    · rename_i inserted
      cases done
      exact ⟨drafts.insert loaded inserted, rfl⟩

theorem Drafts.openLastPage {h h' : TableHandler} (drafts : Drafts h) (formed : h.WellFormed)
    {pageId : Nat} (done : openLastPage h = .ok (pageId, h')) : Drafts h' := by
  unfold Table.openLastPage at done
  dsimp only at done
  by_cases empty : h.totalPages = 0
  · rw [if_pos empty] at done
    split at done
    · cases done
    · rename_i allocated
      split at done
      · cases done
      · rename_i read
        cases done
        exact ((drafts.allocatePage formed allocated).readPage read).1
  · rw [if_neg empty] at done
    dsimp only at done
    split at done
    · cases done
    · rename_i read
      cases done
      exact (drafts.readPage read).1

/-- The records of an extension are those of the old image, and others behind them. -/
theorem records_extends {new old : Page} (extends_ : new.Extends old) (shape : new.WellFormed)
    (formed : old.WellFormed) :
    ∃ extra, new.records = old.records ++ extra ∧ ∀ slot payload,
      (slot, payload) ∈ extra ↔ old.slots.length ≤ slot ∧ new.recordAt slot = some payload := by
  obtain ⟨more, slots⟩ := extends_.slots
  have count : new.slots.length = old.slots.length + more.length := by
    rw [slots, List.length_append]
  refine ⟨((List.range more.length).map (old.slots.length + ·)).filterMap fun slot =>
    (new.recordAt slot).map (Prod.mk slot), ?_, fun slot payload => ?_⟩
  · rw [Page.records, Page.records, count, List.range_add, List.filterMap_append]
    congr 1
    apply List.filterMap_congr
    intro slot member
    have same := extends_.getRecord shape formed (List.mem_range.mp member)
    rw [Page.recordAt, Page.recordAt, same]
  · simp only [List.mem_filterMap, List.mem_map, List.mem_range, Option.map_eq_some_iff,
      Prod.mk.injEq]
    constructor
    · rintro ⟨_, ⟨i, _, rfl⟩, _, found, rfl, rfl⟩
      exact ⟨Nat.le_add_right _ _, found⟩
    · rintro ⟨behind, found⟩
      have inside := Page.recordAt_lt found
      exact ⟨slot, ⟨slot - old.slots.length, by omega, by omega⟩, payload, found, rfl, rfl⟩

/-- Opened again, the file has the same records. -/
theorem AllStored.reopen {h : TableHandler} (stored : AllStored h) (formed : h.WellFormed) :
    (openTable h.file).WellFormed ∧ (openTable h.file).contents = h.contents := by
  have each (pageId : Nat) (inside : pageId < h.totalPages) :
      ∃ page disk, h.view pageId = some page ∧ (openTable h.file).view pageId = some disk ∧
        disk.WellFormed ∧ disk.pageId = pageId ∧ disk.records = page.records := by
    obtain ⟨page, disk, seen, read, shape, same, records⟩ := stored pageId inside
    refine ⟨page, disk, seen, ?_, shape, same, records⟩
    have length := (Page.fromBytes_decoded read).length
    have within : ¬ pageId ≥ (openTable h.file).totalPages := Nat.not_le_of_lt inside
    simp only [view, TableHandler.readPage, openTable, loadPage] at within ⊢
    simp only [within, ↓reduceIte, length, ne_eq, not_true_eq_false, read]
  refine ⟨⟨formed.aligned, fun _ _ loaded => (by cases loaded), fun pageId inside => ?_⟩, ?_⟩
  · obtain ⟨_, disk, _, seen, shape, same, _⟩ := each pageId inside
    exact ⟨disk, seen, shape, same⟩
  · rw [TableHandler.contents, TableHandler.contents]
    apply List.flatMap_congr
    intro pageId member
    obtain ⟨page, disk, seen, seen', _, _, records⟩ := each pageId (List.mem_range.mp member)
    rw [pageContents, pageContents, seen, seen']
    dsimp only
    rw [records]

theorem view_opened {file : File} {pageId : Nat} {page : Page} :
    (openTable file).view pageId = some page ↔
      pageId < (openTable file).totalPages ∧ Page.fromBytes (onDisk file pageId) = .ok page := by
  unfold view TableHandler.readPage
  constructor
  · intro seen
    cases loaded : (openTable file).loadPage pageId with
    | error e =>
        simp only [openTable] at seen loaded
        rw [loaded] at seen
        cases seen
    | ok held =>
        simp only [openTable] at seen loaded
        rw [loaded] at seen
        cases seen
        exact loadPage_ok loaded
  · rintro ⟨inside, read⟩
    have length := (Page.fromBytes_decoded read).length
    have within : ¬ pageId ≥ (openTable file).totalPages := Nat.not_le_of_lt inside
    unfold onDisk at read length
    simp only [openTable, loadPage] at within ⊢
    simp only [within, ↓reduceIte, length, ne_eq, not_true_eq_false, read]

/-- In a newly opened file every page is what the file has of it. -/
theorem openTable_stored {file : File} (formed : (openTable file).WellFormed) :
    AllStored (openTable file) := by
  intro pageId inside
  obtain ⟨page, seen, shape, same⟩ := formed.readable pageId inside
  exact ⟨page, page, seen, (view_opened.mp seen).2, shape, same, rfl⟩

structure Filling (base : List ((Nat × Nat) × Bytes)) (h : TableHandler) (job : FlushJob)
    (placed : List ((Nat × Nat) × Bytes)) : Prop where
  opened : Opened h job
  saved : Saved h job
  drafts : Drafts h
  contents : h.contents = base ++ placed
  onFile : (openTable h.file).WellFormed
  behind : ∃ m, (openTable h.file).contents = base ++ placed.take m

section Loop

variable {base placed : List ((Nat × Nat) × Bytes)} {h h' : TableHandler} {job job' : FlushJob}

/-- When all pages are stored nothing is behind. -/
theorem Filling.caught_up (opened : Opened h job) (stored : AllStored h) (drafts : Drafts h)
    (contents : h.contents = base ++ placed) : Filling base h job placed := by
  obtain ⟨onFile, same⟩ := stored.reopen opened.formed
  refine ⟨opened, fun pageId inside _ => stored pageId inside, drafts, contents, onFile,
    placed.length, ?_⟩
  rw [same, contents, List.take_length]

theorem Filling.open_ (formed : h.WellFormed) (stored : AllStored h) (drafts : Drafts h)
    {pageId : Nat} (done : openLastPage h = .ok (pageId, h')) (records : List (String × Bytes)) :
    Filling h.contents h' ⟨records, pageId, [], [], false⟩ [] := by
  obtain ⟨keeps, pages, loaded, kept⟩ := openLastPage_spec formed done
  apply Filling.caught_up ⟨keeps.formed, pages, loaded⟩ (kept stored)
  · exact drafts.openLastPage formed done
  · rw [keeps.contents, List.append_nil]

theorem Filling.makeSpace (filling : Filling base h job placed) {size : Nat}
    (done : makeSpace h job size = .ok (h', job')) : Filling base h' job' placed := by
  obtain ⟨keeps, opened, _, _, _, saved⟩ := makeSpace_spec filling.opened done
  have contents := keeps.contents.trans filling.contents
  unfold Table.makeSpace at done
  split at done
  · cases done
  · split at done
    · cases done
      exact filling
    · split at done
      · cases done
      · rename_i h₁ written
        split at done
        · cases done
        · rename_i pageId h₂ allocated
          split at done
          · cases done
          · rename_i read
            cases done
            obtain ⟨keeps₁, _, stored⟩ := writeDirty_spec filling.opened written
            have drafts₁ := filling.drafts.writeDirty filling.opened written
            have drafts₂ := drafts₁.allocatePage keeps₁.formed allocated
            obtain ⟨_, _, _, stored'⟩ := allocated_page keeps₁.formed allocated read
            exact Filling.caught_up opened (stored' (stored filling.saved)) (drafts₂.readPage read).1
              contents

theorem Filling.placeRecord (filling : Filling base h job placed) {key : String} {packed : Bytes}
    (nonempty : packed ≠ []) (done : placeRecord h job key packed = .ok (h', job')) :
    ∃ place, Filling base h' job' (placed ++ [(place, packed)]) := by
  obtain ⟨opened, _, ⟨place, contents, _⟩, saved⟩ := placeRecord_spec filling.opened nonempty done
  obtain ⟨drafts, file⟩ := filling.drafts.placeRecord done
  obtain ⟨m, behind⟩ := filling.behind
  refine ⟨place, opened, saved filling.saved, drafts, ?_, ?_, min m placed.length, ?_⟩
  · rw [contents, filling.contents, List.append_assoc]
  · rw [file]
    exact filling.onFile
  · rw [file, behind, List.take_append_of_le_length (Nat.min_le_right _ _), ← List.take_eq_take_min]

/-- The records that the loop has been through are at the end of the contents. -/
theorem Filling.fill (filling : Filling base h job placed) {records : List (String × Bytes)}
    (nonempty : ∀ record ∈ records, record.2 ≠ [])
    (done : fillPages h job records = .ok (h', job')) :
    ∃ added, Filling base h' job' (placed ++ added) ∧ added.map Prod.snd = records.map Prod.snd := by
  induction records generalizing h job placed with
  | nil =>
      cases done
      exact ⟨[], by rw [List.append_nil]; exact filling, rfl⟩
  | cons record rest ih =>
      obtain ⟨key, packed⟩ := record
      obtain ⟨first, others⟩ := List.forall_mem_cons.mp nonempty
      unfold fillPages at done
      split at done
      · cases done
      · rename_i h₂ job₂ turned
        unfold flushRecord at turned
        split at turned
        · cases turned
        · rename_i spaced
          obtain ⟨place, filling₂⟩ := (filling.makeSpace spaced).placeRecord first turned
          obtain ⟨added, filled, same⟩ := ih filling₂ others done
          refine ⟨(place, packed) :: added, ?_, ?_⟩
          · rw [List.append_assoc] at filled
            exact filled
          · rw [List.map_cons, List.map_cons, same]

end Loop

/-- The record fits into an empty page. -/
def Fits (record : String × Bytes) : Prop :=
  record.2 ≠ [] ∧ Page.headerSize + (Page.slotSize + record.2.length) ≤ Page.pageSize

/-- A page id is a 32-bit number. -/
def maxPages : Nat := 256 ^ 4

theorem store_ok (h : TableHandler) {page : Page} (shape : page.WellFormed)
    (room : page.pageId < maxPages) : ∃ h', h.store page = .ok h' := by
  unfold TableHandler.store Page.toBytes
  rw [if_pos (shape.packable room)]
  exact ⟨_, rfl⟩

/-- An allocated page is empty. -/
theorem allocatePage_empty {h h' : TableHandler} (formed : h.WellFormed) {pageId : Nat}
    (done : h.allocatePage = .ok (pageId, h')) :
    ∃ page, h'.pageCache pageId = some page ∧ page.lowerOffset = Page.headerSize ∧
      page.upperOffset = Page.pageSize := by
  have shape := Page.init_wellFormed h.totalPages
  unfold TableHandler.allocatePage at done
  split at done
  · cases done
  · rename_i stored
    cases done
    obtain ⟨_, _, cached, _⟩ := formed.store shape (Nat.le_refl _) stored
    exact ⟨_, cached, rfl, rfl⟩

theorem allocatePage_ok {h : TableHandler} (formed : h.WellFormed) (room : h.totalPages < maxPages) :
    ∃ h', h.allocatePage = .ok (h.totalPages, h') ∧ h'.totalPages = h.totalPages + 1 ∧
      ∀ size, Page.headerSize + (Page.slotSize + size) ≤ Page.pageSize →
        ∃ page, h'.pageCache h.totalPages = some page ∧ page.hasSpaceFor size = true := by
  obtain ⟨h', stored⟩ := store_ok h (Page.init_wellFormed h.totalPages) room
  have done : h.allocatePage = .ok (h.totalPages, h') := by
    rw [TableHandler.allocatePage, stored]
  obtain ⟨_, _, pages, _⟩ := formed.allocatePage_keeps done
  obtain ⟨page, cached, lower, upper⟩ := allocatePage_empty formed done
  refine ⟨h', done, pages, fun size small => ⟨page, cached, ?_⟩⟩
  rw [Page.hasSpaceFor, lower, upper]
  exact decide_eq_true small

theorem readPage_loaded {h : TableHandler} {pageId : Nat} {page : Page}
    (loaded : h.pageCache pageId = some page) : h.readPage pageId = .ok (page, h) := by
  rw [TableHandler.readPage, loaded]

section Total

variable {h : TableHandler} {job : FlushJob}

theorem openLastPage_ok (formed : h.WellFormed) (room : h.totalPages < maxPages) :
    ∃ pageId h', openLastPage h = .ok (pageId, h') ∧ h'.totalPages ≤ h.totalPages + 1 ∧
      (h.totalPages = 0 ∨ h'.totalPages = h.totalPages) := by
  unfold openLastPage
  dsimp only
  by_cases empty : h.totalPages = 0
  · rw [if_pos empty]
    obtain ⟨h₁, allocated, pages, filled⟩ := allocatePage_ok formed room
    obtain ⟨page, loaded, _⟩ := filled 0 (by decide)
    rw [allocated]
    dsimp only
    rw [readPage_loaded loaded]
    exact ⟨_, _, rfl, Nat.le_of_eq pages, Or.inl empty⟩
  · rw [if_neg empty]
    dsimp only
    obtain ⟨page, h', read, _, _, _, _, file, _⟩ :=
      formed.readPage (show h.totalPages - 1 < h.totalPages by omega)
    have pages : h'.totalPages = h.totalPages := by
      rw [totalPages, totalPages, file]
    rw [read]
    exact ⟨_, _, rfl, by omega, Or.inr pages⟩

theorem writeDirty_ok (opened : Opened h job) (room : job.pageId < maxPages) :
    ∃ h', writeDirty h job = .ok h' := by
  unfold writeDirty
  split
  · obtain ⟨page, loaded⟩ := opened.loaded
    obtain ⟨_, shape, same⟩ := opened.page loaded
    have last := opened.last
    rw [loaded]
    dsimp only
    rw [writePage, if_neg (by omega)]
    exact store_ok h shape (by omega)
  · exact ⟨h, rfl⟩

theorem makeSpace_ok (opened : Opened h job) (room : job.pageId + 1 < maxPages) {size : Nat}
    (small : Page.headerSize + (Page.slotSize + size) ≤ Page.pageSize) :
    ∃ h' job', makeSpace h job size = .ok (h', job') ∧ job'.pageId ≤ job.pageId + 1 ∧
      ∃ page, h'.pageCache job'.pageId = some page ∧ page.hasSpaceFor size = true := by
  obtain ⟨page, loaded⟩ := opened.loaded
  unfold makeSpace
  rw [loaded]
  dsimp only
  split
  · rename_i space
    exact ⟨h, job, rfl, Nat.le_succ _, page, loaded, space⟩
  · obtain ⟨h₁, written⟩ := writeDirty_ok opened (Nat.lt_of_succ_lt room)
    obtain ⟨keeps, same, _⟩ := writeDirty_spec opened written
    have last := opened.last
    obtain ⟨h₂, allocated, _, filled⟩ := allocatePage_ok keeps.formed (by omega)
    obtain ⟨page', loaded', space⟩ := filled size small
    rw [written]
    dsimp only
    rw [allocated]
    dsimp only
    rw [readPage_loaded loaded']
    exact ⟨_, _, rfl, by show h₁.totalPages ≤ _; omega, page', loaded', space⟩

theorem placeRecord_ok {page : Page} (loaded : h.pageCache job.pageId = some page) (key : String)
    {packed : Bytes} (nonempty : packed ≠ []) (space : page.hasSpaceFor packed.length = true) :
    ∃ h' job', placeRecord h job key packed = .ok (h', job') ∧ job'.pageId = job.pageId := by
  have positive : packed.length ≠ 0 := fun zero => nonempty (List.eq_nil_of_length_eq_zero zero)
  unfold placeRecord Page.insertRecord
  rw [loaded]
  dsimp only
  rw [if_neg positive, if_pos space]
  refine ⟨_, _, rfl, ?_⟩
  split
  · rfl
  · rfl

theorem fillPages_ok (opened : Opened h job) {records : List (String × Bytes)}
    (fit : ∀ record ∈ records, Fits record) (room : job.pageId + records.length < maxPages) :
    ∃ h' job', fillPages h job records = .ok (h', job') ∧ Opened h' job' ∧
      job'.pageId ≤ job.pageId + records.length := by
  induction records generalizing h job with
  | nil => exact ⟨h, job, rfl, opened, Nat.le_refl _⟩
  | cons record rest ih =>
      obtain ⟨key, packed⟩ := record
      obtain ⟨⟨nonempty, small⟩, others⟩ := List.forall_mem_cons.mp fit
      rw [List.length_cons] at room
      obtain ⟨h₁, job₁, spaced, next, page, loaded, space⟩ := makeSpace_ok opened (by omega) small
      obtain ⟨_, opened₁, _⟩ := makeSpace_spec opened spaced
      obtain ⟨h₂, job₂, placed, same⟩ := placeRecord_ok loaded key nonempty space
      obtain ⟨opened₂, _⟩ := placeRecord_spec opened₁ nonempty placed
      obtain ⟨h₃, job₃, filled, opened₃, last⟩ := ih opened₂ others (by omega)
      refine ⟨h₃, job₃, ?_, opened₃, ?_⟩
      · unfold fillPages flushRecord
        rw [spaced]
        dsimp only
        rw [placed]
        exact filled
      · rw [List.length_cons]
        omega

/-- Nothing in the file can stop a flush of records that fit into a page. -/
theorem flushPages_ok (formed : h.WellFormed) {records : List (String × Bytes)}
    (fit : ∀ record ∈ records, Fits record) (room : h.totalPages + records.length < maxPages) :
    ∃ h' job, flushPages h records = .ok (h', job) := by
  obtain ⟨pageId, h₁, opens, pages, grown⟩ := openLastPage_ok formed (by omega)
  obtain ⟨keeps, last, loaded, _⟩ := openLastPage_spec formed opens
  have opened : Opened h₁ ⟨records, pageId, [], [], false⟩ := ⟨keeps.formed, last, loaded⟩
  obtain ⟨h₂, job, filled, opened₂, bound⟩ := fillPages_ok opened fit
    (by show pageId + records.length < maxPages; omega)
  dsimp only at bound
  obtain ⟨h₃, written⟩ := writeDirty_ok opened₂ (by omega)
  refine ⟨h₃, job, ?_⟩
  unfold flushPages
  rw [opens]
  dsimp only
  rw [filled]
  dsimp only
  rw [written]

end Total

end CachyDb.Table
