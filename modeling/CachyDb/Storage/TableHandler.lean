import CachyDb.Pager.Page

set_option autoImplicit false

/-! A table file as a sequence of pages, with the page objects that have been loaded. -/

namespace CachyDb

open ByteString

/-- The open file and `_page_cache`. A loaded page is one object: what is done to it is
seen by everybody who reads the page. -/
structure TableHandler where
  file : File
  pageCache : Nat → Option Page

namespace TableHandler

inductive Error
  | outOfRange
  | truncated
  | page (error : Page.Error)
  deriving DecidableEq, Repr

/-- `TableHandler(table_name)` on what the table file contains. -/
def openTable (file : File) : TableHandler := ⟨file, fun _ => none⟩

def totalPages (h : TableHandler) : Nat := h.file.size / Page.pageSize

def cachePage (h : TableHandler) (pageId : Nat) (page : Page) : TableHandler :=
  { h with pageCache := fun id => if id = pageId then some page else h.pageCache id }

def writeBytes (h : TableHandler) (pageId : Nat) (bytes : Bytes) : TableHandler :=
  { h with file := h.file.write (pageId * Page.pageSize) bytes }

/-- The bytes of a page go to its place in the file. -/
def store (h : TableHandler) (page : Page) : Except Error TableHandler :=
  match page.toBytes with
  | .error e => .error (.page e)
  | .ok (bytes, filled) => .ok ((h.cachePage page.pageId filled).writeBytes page.pageId bytes)

def allocatePage (h : TableHandler) : Except Error (Nat × TableHandler) :=
  match h.store (Page.init h.totalPages) with
  | .error e => .error e
  | .ok stored => .ok (h.totalPages, stored)

/-- The part of `read_page` for a page that is not loaded yet. -/
def loadPage (h : TableHandler) (pageId : Nat) : Except Error Page :=
  if pageId ≥ h.totalPages then .error .outOfRange
  else
    let raw := h.file.read (pageId * Page.pageSize) Page.pageSize
    if raw.length ≠ Page.pageSize then .error .truncated
    else
      match Page.fromBytes raw with
      | .error e => .error (.page e)
      | .ok page => .ok page

def readPage (h : TableHandler) (pageId : Nat) : Except Error (Page × TableHandler) :=
  match h.pageCache pageId with
  | some page => .ok (page, h)
  | none =>
      match h.loadPage pageId with
      | .error e => .error e
      | .ok page => .ok (page, h.cachePage pageId page)

def writePage (h : TableHandler) (page : Page) : Except Error TableHandler :=
  if page.pageId ≥ h.totalPages then .error .outOfRange else h.store page

/-- The page object that a reader of a page gets. -/
def view (h : TableHandler) (pageId : Nat) : Option Page :=
  match h.readPage pageId with
  | .error _ => none
  | .ok (page, _) => some page

/-- The file consists of whole pages, and every page can be read. -/
structure WellFormed (h : TableHandler) : Prop where
  aligned : h.file.size = h.totalPages * Page.pageSize
  loaded : ∀ pageId page, h.pageCache pageId = some page → pageId < h.totalPages
  readable : ∀ pageId, pageId < h.totalPages →
    ∃ page, h.view pageId = some page ∧ page.WellFormed ∧ page.pageId = pageId

theorem openTable_empty_wellFormed : (openTable File.empty).WellFormed := by
  refine ⟨rfl, ?_, ?_⟩
  · intro pageId page found
    cases found
  · intro pageId inside
    cases inside

theorem view_of_cached {h : TableHandler} {pageId : Nat} {page : Page}
    (cached : h.pageCache pageId = some page) : h.view pageId = some page := by
  simp only [view, readPage, cached]

theorem WellFormed.view_none {h : TableHandler} (formed : h.WellFormed) {pageId : Nat}
    (outside : h.totalPages ≤ pageId) : h.view pageId = none := by
  cases cached : h.pageCache pageId with
  | none => simp only [view, readPage, cached, loadPage, ge_iff_le, outside, ↓reduceIte]
  | some page => exact absurd (formed.loaded pageId page cached) (Nat.not_lt.mpr outside)

/-- The views depend on the loaded pages and on the bytes of the others. -/
theorem view_congr {h h' : TableHandler} {pageId : Nat}
    (cached : h'.pageCache pageId = h.pageCache pageId)
    (pages : pageId ≥ h'.totalPages ↔ pageId ≥ h.totalPages)
    (bytes : pageId < h.totalPages → h'.file.read (pageId * Page.pageSize) Page.pageSize =
      h.file.read (pageId * Page.pageSize) Page.pageSize) :
    h'.view pageId = h.view pageId := by
  cases known : h.pageCache pageId with
  | some page => rw [view_of_cached known, view_of_cached (cached.trans known)]
  | none =>
      have loaded : h'.loadPage pageId = h.loadPage pageId := by
        by_cases outside : pageId ≥ h.totalPages
        · rw [loadPage, loadPage, if_pos outside, if_pos (pages.mpr outside)]
        · rw [loadPage, loadPage, if_neg outside, if_neg (mt pages.mp outside),
            bytes (Nat.lt_of_not_ge outside)]
      simp only [view, readPage, cached, known, loaded]
      cases h.loadPage pageId with
      | error e => rfl
      | ok page => rfl

theorem cachePage_self (h : TableHandler) (pageId : Nat) (page : Page) :
    (h.cachePage pageId page).pageCache pageId = some page := if_pos rfl

theorem cachePage_ne (h : TableHandler) {pageId other : Nat} (page : Page)
    (different : other ≠ pageId) : (h.cachePage pageId page).pageCache other = h.pageCache other :=
  if_neg different

@[simp] theorem totalPages_cachePage (h : TableHandler) (pageId : Nat) (page : Page) :
    (h.cachePage pageId page).totalPages = h.totalPages := rfl

@[simp] theorem writeBytes_pageCache (h : TableHandler) (pageId : Nat) (bytes : Bytes) :
    (h.writeBytes pageId bytes).pageCache = h.pageCache := rfl

theorem view_cachePage_self (h : TableHandler) (pageId : Nat) (page : Page) :
    (h.cachePage pageId page).view pageId = some page :=
  view_of_cached (h.cachePage_self pageId page)

theorem view_cachePage_ne (h : TableHandler) {pageId other : Nat} (page : Page)
    (different : other ≠ pageId) : (h.cachePage pageId page).view other = h.view other :=
  view_congr (h.cachePage_ne page different) Iff.rfl fun _ => rfl

/-- A page object may change in memory only. -/
theorem WellFormed.cachePage {h : TableHandler} (formed : h.WellFormed) {pageId : Nat} {page : Page}
    (inside : pageId < h.totalPages) (shape : page.WellFormed) (same : page.pageId = pageId) :
    (h.cachePage pageId page).WellFormed := by
  refine ⟨formed.aligned, ?_, ?_⟩
  · intro other held cached
    by_cases here : other = pageId
    · rw [here]
      exact inside
    · exact formed.loaded other held ((h.cachePage_ne page here).symm.trans cached)
  · intro other within
    by_cases here : other = pageId
    · subst here
      exact ⟨page, h.view_cachePage_self other page, shape, same⟩
    · rw [view_cachePage_ne h page here]
      exact formed.readable other within

/-- Reading loads the page and changes nothing else. -/
theorem WellFormed.readPage {h : TableHandler} (formed : h.WellFormed) {pageId : Nat}
    (inside : pageId < h.totalPages) :
    ∃ page h', h.readPage pageId = .ok (page, h') ∧ h.view pageId = some page ∧
      page.WellFormed ∧ page.pageId = pageId ∧ h'.WellFormed ∧ h'.file = h.file ∧
      h'.pageCache pageId = some page ∧ ∀ other, h'.view other = h.view other := by
  obtain ⟨page, seen, shape, same⟩ := formed.readable pageId inside
  have seen' := seen
  unfold view at seen'
  split at seen'
  · cases seen'
  · rename_i found h' read
    cases seen'
    refine ⟨page, h', read, seen, shape, same, ?_⟩
    cases cached : h.pageCache pageId with
    | some held =>
        simp only [TableHandler.readPage, cached, Except.ok.injEq, Prod.mk.injEq] at read
        obtain ⟨rfl, rfl⟩ := read
        exact ⟨formed, rfl, cached, fun _ => rfl⟩
    | none =>
        have loaded : h' = h.cachePage pageId page := by
          simp only [TableHandler.readPage, cached] at read
          split at read
          · cases read
          · simp only [Except.ok.injEq, Prod.mk.injEq] at read
            rw [← read.2, read.1]
        rw [loaded]
        refine ⟨formed.cachePage inside shape same, rfl, h.cachePage_self pageId page, ?_⟩
        intro other
        by_cases here : other = pageId
        · rw [here, view_cachePage_self, seen]
        · exact view_cachePage_ne h page here

theorem read_write_apart (file : File) {start count start' : Nat} {bytes : Bytes}
    (inside : start + count ≤ file.size)
    (apart : start + count ≤ start' ∨ start' + bytes.length ≤ start) :
    (file.write start' bytes).read start count = file.read start count := by
  have grown := File.size_le_write file start' bytes
  apply List.ext_getElem
  · rw [File.read_length, File.read_length]
    omega
  · intro i left right
    rw [File.read_length] at right
    rw [File.read_getElem, File.read_getElem]
    apply File.write_byte_outside
    omega

/-- A whole page written at a page boundary leaves whole pages. -/
theorem totalPages_writeBytes {h : TableHandler} (aligned : h.file.size = h.totalPages * Page.pageSize)
    {pageId : Nat} (place : pageId ≤ h.totalPages) {bytes : Bytes}
    (whole : bytes.length = Page.pageSize) :
    (h.writeBytes pageId bytes).totalPages = max h.totalPages (pageId + 1) ∧
      (h.writeBytes pageId bytes).file.size = max h.totalPages (pageId + 1) * Page.pageSize := by
  have size : (h.writeBytes pageId bytes).file.size =
      max h.totalPages (pageId + 1) * Page.pageSize := by
    simp only [writeBytes, File.write, whole, aligned]
    rw [if_neg (by decide)]
    simp only [Page.pageSize]
    omega
  refine ⟨?_, size⟩
  rw [totalPages, size]
  exact Nat.mul_div_cancel _ (by decide)

theorem view_writeBytes {h : TableHandler} (aligned : h.file.size = h.totalPages * Page.pageSize)
    {pageId other : Nat} (place : pageId ≤ h.totalPages) {bytes : Bytes}
    (whole : bytes.length = Page.pageSize) (different : other ≠ pageId) :
    (h.writeBytes pageId bytes).view other = h.view other := by
  obtain ⟨pages, _⟩ := totalPages_writeBytes aligned place whole
  apply view_congr
  · rw [writeBytes_pageCache]
  · rw [pages]
    omega
  · intro inside
    apply read_write_apart
    · rw [aligned]
      simp only [Page.pageSize]
      omega
    · rw [whole]
      simp only [Page.pageSize]
      omega

/-- What a stored page leaves behind: the page object is filled in, the file has its
bytes, and the other pages are as they were. -/
theorem WellFormed.store {h h' : TableHandler} (formed : h.WellFormed) {page : Page}
    (shape : page.WellFormed) (place : page.pageId ≤ h.totalPages)
    (stored : h.store page = .ok h') :
    h'.WellFormed ∧ h'.totalPages = max h.totalPages (page.pageId + 1) ∧
      h'.pageCache page.pageId = some { page with data := page.sealed } ∧
      (∀ other, other ≠ page.pageId → h'.view other = h.view other) ∧
      (∀ other, other < h.totalPages → other ≠ page.pageId →
        h'.file.read (other * Page.pageSize) Page.pageSize =
          h.file.read (other * Page.pageSize) Page.pageSize) ∧
      Page.fromBytes (h'.file.read (page.pageId * Page.pageSize) Page.pageSize) =
        .ok { page with data := page.sealed } := by
  unfold TableHandler.store Page.toBytes at stored
  by_cases packs : page.packable
  · rw [if_pos packs] at stored
    simp only [Except.ok.injEq] at stored
    have length : (page.sealed.read 0 page.sealed.size).length = Page.pageSize := by
      rw [File.read_length, shape.sealed_size]
      rfl
    have aligned : (h.cachePage page.pageId { page with data := page.sealed }).file.size =
        (h.cachePage page.pageId { page with data := page.sealed }).totalPages * Page.pageSize := by
      rw [totalPages_cachePage]
      exact formed.aligned
    obtain ⟨pages, size⟩ := totalPages_writeBytes aligned place length
    rw [totalPages_cachePage] at pages size
    rw [stored] at pages size
    have cached : h'.pageCache page.pageId = some { page with data := page.sealed } := by
      rw [← stored, writeBytes_pageCache]
      exact h.cachePage_self page.pageId _
    have views : ∀ other, other ≠ page.pageId → h'.view other = h.view other := by
      intro other different
      rw [← stored, view_writeBytes aligned place length different, view_cachePage_ne h _ different]
    refine ⟨⟨size.trans (by rw [pages]), ?_, ?_⟩, pages, cached, views, ?_, ?_⟩
    · intro other held found
      rw [pages]
      by_cases here : other = page.pageId
      · omega
      · rw [← stored, writeBytes_pageCache, h.cachePage_ne _ here] at found
        have inside := formed.loaded other held found
        omega
    · intro other within
      by_cases here : other = page.pageId
      · refine ⟨{ page with data := page.sealed }, ?_, shape.sealed, here.symm⟩
        rw [here]
        exact view_of_cached cached
      · rw [views other here]
        apply formed.readable
        rw [pages] at within
        omega
    · intro other within different
      rw [← stored]
      apply read_write_apart
      · rw [totalPages_cachePage] at aligned
        rw [aligned]
        simp only [Page.pageSize]
        omega
      · rw [length]
        simp only [Page.pageSize]
        omega
    · have held := File.write_holds_self h.file (page.pageId * Page.pageSize)
        (page.sealed.read 0 page.sealed.size)
      have bytes : h'.file.read (page.pageId * Page.pageSize) Page.pageSize =
          page.sealed.read 0 page.sealed.size := by
        rw [← stored]
        exact held.read length
      rw [bytes]
      exact shape.fromBytes_sealed packs
  · rw [if_neg packs] at stored
    cases stored

end TableHandler

end CachyDb
