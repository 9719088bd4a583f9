import Mathlib.Data.List.Basic
import CachyDb.Storage.TableHandler

set_option autoImplicit false

/-! What a table file contains: the payloads of all slots of all pages, in order. A flush
adds payloads at the end and leaves the others where they are. -/

namespace CachyDb

open ByteString

namespace Page

def recordAt (p : Page) (slot : Nat) : Option Bytes :=
  match p.getRecord slot with
  | .ok payload => payload
  | .error _ => none

/-- The slots that are not deleted, with their payloads. -/
def records (p : Page) : List (Nat × Bytes) :=
  (List.range p.slots.length).filterMap fun slot => (p.recordAt slot).map (Prod.mk slot)

theorem recordAt_lt {p : Page} {slot : Nat} {payload : Bytes}
    (found : p.recordAt slot = some payload) : slot < p.slots.length := by
  by_contra outside
  have missing : p.slots[slot]? = none := List.getElem?_eq_none (Nat.le_of_not_lt outside)
  simp only [recordAt, getRecord, missing] at found
  cases found

theorem mem_records {p : Page} {slot : Nat} {payload : Bytes} :
    (slot, payload) ∈ p.records ↔ p.recordAt slot = some payload := by
  simp only [records, List.mem_filterMap, List.mem_range, Option.map_eq_some_iff, Prod.mk.injEq]
  constructor
  · rintro ⟨_, _, _, found, rfl, rfl⟩
    exact found
  · intro found
    exact ⟨slot, recordAt_lt found, payload, found, rfl, rfl⟩

theorem records_init (pageId : Nat) : (init pageId).records = [] := rfl

/-- An inserted record is the last one. -/
theorem WellFormed.records_insert {p p' : Page} (formed : p.WellFormed) {payload : Bytes}
    (nonempty : payload ≠ []) {slot : Nat} (done : p.insertRecord payload = .ok (slot, p')) :
    p'.WellFormed ∧ p'.pageId = p.pageId ∧ slot = p.slots.length ∧
      p'.records = p.records ++ [(slot, payload)] := by
  have space : p.hasSpaceFor payload.length = true := by
    unfold Page.insertRecord at done
    split at done
    · cases done
    · split at done
      · assumption
      · cases done
  obtain ⟨page, result, formed', same, length, new, old⟩ := formed.insertRecord nonempty space
  rw [result, Except.ok.injEq, Prod.mk.injEq] at done
  obtain ⟨rfl, rfl⟩ := done
  refine ⟨formed', same, rfl, ?_⟩
  rw [records, length, List.range_succ, List.filterMap_append, records]
  congr 1
  · apply List.filterMap_congr
    intro other member
    rw [recordAt, recordAt, old other (List.mem_range.mp member)]
  · simp only [List.filterMap_cons, List.filterMap_nil, recordAt, new, Option.map_some]

theorem WellFormed.records_sealed {p : Page} (formed : p.WellFormed) :
    records { p with data := p.sealed } = p.records := by
  apply List.filterMap_congr
  intro slot _
  rw [recordAt, recordAt, formed.getRecord_sealed]

end Page

namespace TableHandler

/-- The payloads of one page, with their places. -/
def pageContents (h : TableHandler) (pageId : Nat) : List ((Nat × Nat) × Bytes) :=
  match h.view pageId with
  | none => []
  | some page => page.records.map fun record => ((pageId, record.1), record.2)

def contents (h : TableHandler) : List ((Nat × Nat) × Bytes) :=
  (List.range h.totalPages).flatMap h.pageContents

theorem mem_pageContents {h : TableHandler} {pageId : Nat} {place : Nat × Nat} {payload : Bytes} :
    (place, payload) ∈ h.pageContents pageId ↔
      place.1 = pageId ∧ ∃ page, h.view pageId = some page ∧
        page.recordAt place.2 = some payload := by
  unfold pageContents
  cases seen : h.view pageId with
  | none => simp
  | some page =>
      simp only [List.mem_map, Prod.mk.injEq, Option.some.injEq]
      constructor
      · rintro ⟨record, member, rfl, rfl⟩
        exact ⟨rfl, page, rfl, Page.mem_records.mp member⟩
      · rintro ⟨rfl, _, rfl, found⟩
        exact ⟨(place.2, payload), Page.mem_records.mpr found, rfl, rfl⟩

theorem WellFormed.mem_contents {h : TableHandler} (formed : h.WellFormed) {place : Nat × Nat}
    {payload : Bytes} :
    (place, payload) ∈ h.contents ↔
      ∃ page, h.view place.1 = some page ∧ page.recordAt place.2 = some payload := by
  simp only [contents, List.mem_flatMap, List.mem_range, mem_pageContents]
  constructor
  · rintro ⟨pageId, _, rfl, found⟩
    exact found
  · rintro ⟨page, seen, found⟩
    refine ⟨place.1, ?_, rfl, page, seen, found⟩
    by_contra outside
    rw [formed.view_none (Nat.le_of_not_lt outside)] at seen
    cases seen

/-- The file has the contents of the page object. -/
def Stored (h : TableHandler) (pageId : Nat) : Prop :=
  ∃ page stored, h.view pageId = some page ∧
    Page.fromBytes (h.file.read (pageId * Page.pageSize) Page.pageSize) = .ok stored ∧
    stored.WellFormed ∧ stored.pageId = pageId ∧ stored.records = page.records

theorem Stored.congr {h h' : TableHandler} {pageId : Nat} (stored : h.Stored pageId)
    (view : h'.view pageId = h.view pageId)
    (bytes : h'.file.read (pageId * Page.pageSize) Page.pageSize =
      h.file.read (pageId * Page.pageSize) Page.pageSize) : h'.Stored pageId := by
  obtain ⟨page, onDisk, seen, read, formed, same, records⟩ := stored
  exact ⟨page, onDisk, view.trans seen, by rw [bytes, read], formed, same, records⟩

theorem contents_congr {h h' : TableHandler} (pages : h'.totalPages = h.totalPages)
    (each : ∀ pageId, h'.pageContents pageId = h.pageContents pageId) :
    h'.contents = h.contents := by
  rw [contents, contents, pages]
  congr 1
  funext pageId
  exact each pageId

theorem contents_of_view {h h' : TableHandler} (pages : h'.totalPages = h.totalPages)
    (views : ∀ pageId, h'.view pageId = h.view pageId) : h'.contents = h.contents := by
  apply contents_congr pages
  intro pageId
  rw [pageContents, pageContents, views]

/-- Only the last page has changed. -/
theorem contents_last {h h' : TableHandler} {last : Nat} (pages : h.totalPages = last + 1)
    (pages' : h'.totalPages = last + 1)
    (others : ∀ pageId, pageId < last → h'.pageContents pageId = h.pageContents pageId)
    {added : List ((Nat × Nat) × Bytes)}
    (more : h'.pageContents last = h.pageContents last ++ added) :
    h'.contents = h.contents ++ added := by
  rw [contents, contents, pages, pages', List.range_succ, List.flatMap_append, List.flatMap_append,
    List.flatMap_singleton, List.flatMap_singleton, more, ← List.append_assoc]
  congr 2
  apply List.flatMap_congr
  intro pageId member
  exact others pageId (List.mem_range.mp member)

/-- A new last page has been added. -/
theorem contents_grown {h h' : TableHandler} (pages : h'.totalPages = h.totalPages + 1)
    (others : ∀ pageId, pageId < h.totalPages → h'.pageContents pageId = h.pageContents pageId)
    (empty : h'.pageContents h.totalPages = []) : h'.contents = h.contents := by
  rw [contents, contents, pages, List.range_succ, List.flatMap_append, List.flatMap_singleton,
    empty, List.append_nil]
  apply List.flatMap_congr
  intro pageId member
  exact others pageId (List.mem_range.mp member)

/-- The payloads are where they were, and what was on disk still is. -/
structure Keeps (h h' : TableHandler) : Prop where
  formed : h'.WellFormed
  contents : h'.contents = h.contents
  pages : h.totalPages ≤ h'.totalPages
  stored : ∀ pageId, h.Stored pageId → h'.Stored pageId

theorem Keeps.refl {h : TableHandler} (formed : h.WellFormed) : Keeps h h :=
  ⟨formed, rfl, Nat.le_refl _, fun _ stored => stored⟩

theorem Keeps.trans {h h' h'' : TableHandler} (first : Keeps h h') (second : Keeps h' h'') :
    Keeps h h'' :=
  ⟨second.formed, second.contents.trans first.contents, Nat.le_trans first.pages second.pages,
    fun pageId stored => second.stored pageId (first.stored pageId stored)⟩

theorem WellFormed.readPage_keeps {h h' : TableHandler} (formed : h.WellFormed) {pageId : Nat}
    {page : Page} (read : h.readPage pageId = .ok (page, h')) :
    Keeps h h' ∧ h'.totalPages = h.totalPages ∧ h.view pageId = some page ∧
      h'.pageCache pageId = some page ∧ ∀ other, h'.view other = h.view other := by
  have inside : pageId < h.totalPages := by
    by_contra outside
    have missing := formed.view_none (Nat.le_of_not_lt outside)
    rw [view, read] at missing
    cases missing
  obtain ⟨found, h₁, result, seen, _, _, formed', file, cached, views⟩ := formed.readPage inside
  rw [result, Except.ok.injEq, Prod.mk.injEq] at read
  obtain ⟨rfl, rfl⟩ := read
  have pages : h₁.totalPages = h.totalPages := by rw [totalPages, totalPages, file]
  refine ⟨⟨formed', contents_of_view pages views, Nat.le_of_eq pages.symm, ?_⟩, pages, seen,
    cached, views⟩
  intro other stored
  exact stored.congr (views other) (by rw [file])

/-- After a page has been stored its bytes are its contents. -/
theorem WellFormed.stored_self {h h' : TableHandler} (formed : h.WellFormed) {page : Page}
    (shape : page.WellFormed) (place : page.pageId ≤ h.totalPages) (done : h.store page = .ok h') :
    h'.Stored page.pageId := by
  obtain ⟨_, _, cached, _, _, read⟩ := formed.store shape place done
  exact ⟨_, _, view_of_cached cached, read, shape.sealed, rfl, rfl⟩

theorem WellFormed.stored_other {h h' : TableHandler} (formed : h.WellFormed) {page : Page}
    (shape : page.WellFormed) (place : page.pageId ≤ h.totalPages) (done : h.store page = .ok h')
    {other : Nat} (different : other ≠ page.pageId) (stored : h.Stored other) :
    h'.Stored other := by
  obtain ⟨_, _, _, views, bytes, _⟩ := formed.store shape place done
  have inside : other < h.totalPages := by
    by_contra outside
    obtain ⟨_, _, seen, _⟩ := stored
    rw [formed.view_none (Nat.le_of_not_lt outside)] at seen
    cases seen
  exact stored.congr (views other different) (bytes other inside different)

theorem WellFormed.allocatePage_keeps {h h' : TableHandler} (formed : h.WellFormed) {pageId : Nat}
    (done : h.allocatePage = .ok (pageId, h')) :
    Keeps h h' ∧ pageId = h.totalPages ∧ h'.totalPages = h.totalPages + 1 ∧ h'.Stored pageId := by
  unfold allocatePage at done
  cases result : h.store (Page.init h.totalPages) with
  | error e =>
      rw [result] at done
      cases done
  | ok h₁ =>
      rw [result] at done
      cases done
      have shape := Page.init_wellFormed h.totalPages
      have place : (Page.init h.totalPages).pageId ≤ h.totalPages := Nat.le_refl _
      have self := formed.stored_self shape place result
      have others {other : Nat} (different : other ≠ h.totalPages) (stored : h.Stored other) :=
        formed.stored_other shape place result different stored
      obtain ⟨formed', pages, cached, views, _, _⟩ := formed.store shape place result
      have pages' : h'.totalPages = h.totalPages + 1 := by
        rw [pages]
        show max h.totalPages (h.totalPages + 1) = h.totalPages + 1
        omega
      refine ⟨⟨formed', ?_, by omega, ?_⟩, rfl, pages', self⟩
      · apply contents_grown pages'
        · intro other inside
          rw [pageContents, pageContents, views other (Nat.ne_of_lt inside)]
        · have seen := view_of_cached cached
          rw [pageContents]
          show (match h'.view (Page.init h.totalPages).pageId with
            | none => []
            | some page => _) = _
          rw [seen]
          dsimp only
          rw [shape.records_sealed, Page.records_init]
          rfl
      · intro other stored
        by_cases here : other = h.totalPages
        · rw [here]
          exact self
        · exact others here stored

/-- A page object goes to disk as it is. -/
theorem WellFormed.writePage_keeps {h h' : TableHandler} (formed : h.WellFormed) {page : Page}
    (seen : h.view page.pageId = some page) (done : h.writePage page = .ok h') :
    Keeps h h' ∧ h'.totalPages = h.totalPages ∧ h'.Stored page.pageId ∧
      h'.pageCache page.pageId = some { page with data := page.sealed } := by
  unfold writePage at done
  split at done
  · cases done
  · rename_i inside
    have within : page.pageId < h.totalPages := Nat.lt_of_not_ge inside
    obtain ⟨held, seen', shape, _⟩ := formed.readable page.pageId within
    rw [seen, Option.some.injEq] at seen'
    subst seen'
    have place := Nat.le_of_lt within
    have self := formed.stored_self shape place done
    have others {other : Nat} (different : other ≠ page.pageId) (stored : h.Stored other) :=
      formed.stored_other shape place done different stored
    obtain ⟨formed', pages, cached, views, _, _⟩ := formed.store shape place done
    have pages' : h'.totalPages = h.totalPages := by omega
    refine ⟨⟨formed', ?_, by omega, ?_⟩, pages', self, cached⟩
    · apply contents_congr pages'
      intro other
      by_cases here : other = page.pageId
      · rw [here, pageContents, pageContents, seen, view_of_cached cached]
        dsimp only
        rw [shape.records_sealed]
      · rw [pageContents, pageContents, views other here]
    · intro other stored
      by_cases here : other = page.pageId
      · rw [here]
        exact self
      · exact others here stored

end TableHandler

end CachyDb
