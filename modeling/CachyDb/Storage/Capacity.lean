import CachyDb.Storage.Filling

set_option autoImplicit false

/-! How many pages the records take that a flush or a compaction puts one behind the other,
and when the loop gets through: each record has to fit into an empty page, and each page
has to get a number. -/

namespace CachyDb.Table

open ByteString TableHandler

/-- What a new page has free. -/
def emptySpace : Nat := Page.pageSize - Page.headerSize

/-- What a record takes, with its slot. -/
def recordSpace (record : String × Bytes) : Nat := Page.slotSize + record.2.length

/-- How many new pages these records open when `free` bytes of the current one are left. -/
def pagesOpened (free : Nat) : List Nat → Nat
  | [] => 0
  | space :: rest =>
      if space ≤ free then pagesOpened (free - space) rest
      else pagesOpened (emptySpace - space) rest + 1

/-- The loop has so many bytes left on its current page. -/
structure Space (h : TableHandler) (job : FlushJob) (free : Nat) : Prop where
  opened : Opened h job
  page : ∃ page, h.pageCache job.pageId = some page ∧
    page.lowerOffset + free = page.upperOffset
  numbered : job.pageId < maxPages

theorem allocatePage_pageId {h h' : TableHandler} {pageId : Nat}
    (done : h.allocatePage = .ok (pageId, h')) :
    pageId = h.totalPages ∧ h.totalPages < maxPages := by
  unfold TableHandler.allocatePage TableHandler.store Page.toBytes at done
  by_cases packs : (Page.init h.totalPages).packable
  · rw [if_pos packs] at done
    cases done
    exact ⟨rfl, packs.1⟩
  · rw [if_neg packs] at done
    cases done

/-- A new page has a number of four bytes. -/
theorem allocatePage_space_iff {h : TableHandler} (formed : h.WellFormed) :
    (∃ h', h.allocatePage = .ok (h.totalPages, h') ∧
      ∃ page, h'.pageCache h.totalPages = some page ∧
        page.lowerOffset + emptySpace = page.upperOffset) ↔ h.totalPages < maxPages := by
  constructor
  · rintro ⟨h', done, _⟩
    exact (allocatePage_pageId done).2
  · intro room
    obtain ⟨h', done, _⟩ := allocatePage_ok formed room
    obtain ⟨page, cached, lower, upper⟩ := allocatePage_empty formed done
    refine ⟨h', done, page, cached, ?_⟩
    rw [lower, upper]
    rfl

section

variable {h h' : TableHandler} {job job' : FlushJob} {free : Nat}

theorem Space.free_le (space : Space h job free) : free ≤ emptySpace := by
  obtain ⟨page, loaded, left⟩ := space.page
  obtain ⟨_, formed, _⟩ := space.opened.page loaded
  have directory := formed.directory
  have bound := formed.bound
  simp only [emptySpace]
  omega

theorem Space.makeSpace_enough (space : Space h job free) {size : Nat}
    (enough : Page.slotSize + size ≤ free) : makeSpace h job size = .ok (h, job) := by
  obtain ⟨page, loaded, left⟩ := space.page
  have has : page.hasSpaceFor size = true := by
    simp only [Page.hasSpaceFor, decide_eq_true_eq]
    omega
  simp only [Table.makeSpace, loaded, has, ↓reduceIte]

/-- A record that needs more than what is left opens a page. -/
theorem Space.makeSpace_full (space : Space h job free) {size : Nat}
    (full : free < Page.slotSize + size) :
    (job.pageId + 1 < maxPages → ∃ h' job', makeSpace h job size = .ok (h', job')) ∧
      ∀ h' job', makeSpace h job size = .ok (h', job') →
        job'.pageId = job.pageId + 1 ∧ Space h' job' emptySpace := by
  obtain ⟨page, loaded, left⟩ := space.page
  have last := space.opened.last
  have has : page.hasSpaceFor size = false := by
    simp only [Page.hasSpaceFor, decide_eq_false_iff_not]
    omega
  obtain ⟨h₁, written⟩ := writeDirty_ok space.opened space.numbered
  obtain ⟨keeps, pages, _⟩ := writeDirty_spec space.opened written
  have opens {h' : TableHandler} {job' : FlushJob}
      (done : makeSpace h job size = .ok (h', job')) : Opened h' job' :=
    (makeSpace_spec space.opened done).2.1
  simp only [Table.makeSpace, loaded, has, written, Bool.false_eq_true, ↓reduceIte] at opens ⊢
  constructor
  · intro room
    obtain ⟨h₂, allocated, page', loaded', _⟩ :=
      (allocatePage_space_iff keeps.formed).mpr (by omega)
    rw [allocated]
    dsimp only
    rw [readPage_loaded loaded']
    exact ⟨_, _, rfl⟩
  · intro h' job' done
    cases allocated : h₁.allocatePage with
    | error e =>
        rw [allocated] at done
        cases done
    | ok result =>
        obtain ⟨pageId, h₂⟩ := result
        obtain ⟨rfl, numbered⟩ := allocatePage_pageId allocated
        obtain ⟨_, again, page', loaded', left'⟩ :=
          (allocatePage_space_iff keeps.formed).mpr numbered
        rw [allocated, Except.ok.injEq, Prod.mk.injEq] at again
        rw [← again.2] at loaded'
        have opened := @opens h' job' done
        rw [allocated] at done
        dsimp only at done
        rw [readPage_loaded loaded'] at done
        cases done
        exact ⟨by dsimp only; omega, opened, ⟨page', loaded', left'⟩, numbered⟩

/-- The record takes its bytes and those of its slot. -/
theorem Space.placeRecord_ok (space : Space h job free) (key : String) {packed : Bytes}
    (nonempty : packed ≠ []) (enough : Page.slotSize + packed.length ≤ free) :
    ∃ h' job', placeRecord h job key packed = .ok (h', job') ∧ job'.pageId = job.pageId ∧
      Space h' job' (free - (Page.slotSize + packed.length)) := by
  obtain ⟨page, loaded, left⟩ := space.page
  have positive : packed.length ≠ 0 := fun zero => nonempty (List.eq_nil_of_length_eq_zero zero)
  have has : page.hasSpaceFor packed.length = true := by
    simp only [Page.hasSpaceFor, decide_eq_true_eq]
    omega
  obtain ⟨h', job', done, same⟩ := Table.placeRecord_ok loaded key nonempty has
  obtain ⟨opened, _⟩ := placeRecord_spec space.opened nonempty done
  refine ⟨h', job', done, same, opened, ⟨page.addRecord packed, ?_, ?_⟩, ?_⟩
  · rw [same]
    simp only [Table.placeRecord, loaded, Page.insertRecord, positive, has, ↓reduceIte,
      Except.ok.injEq, Prod.mk.injEq] at done
    rw [← done.1]
    exact h.cachePage_self _ _
  · simp only [Page.addRecord]
    omega
  · rw [same]
    exact space.numbered

theorem Space.placeRecord_full (space : Space h job free) (key : String) {packed : Bytes}
    (full : free < Page.slotSize + packed.length) :
    placeRecord h job key packed ≠ .ok (h', job') := by
  obtain ⟨page, loaded, left⟩ := space.page
  have has : page.hasSpaceFor packed.length = false := by
    simp only [Page.hasSpaceFor, decide_eq_false_iff_not]
    omega
  intro done
  simp only [Table.placeRecord, loaded, Page.insertRecord, has, Bool.false_eq_true,
    ↓reduceIte] at done
  split at done
  · cases done
  · rename_i inserted
    split at inserted <;> cases inserted

/-- One turn of the loop, with the space that it leaves. -/
theorem Space.flushRecord (space : Space h job free) (key : String) {packed : Bytes}
    (nonempty : packed ≠ []) (small : Page.slotSize + packed.length ≤ emptySpace)
    (room : Page.slotSize + packed.length ≤ free ∨ job.pageId + 1 < maxPages) :
    ∃ h' job', Table.flushRecord h job key packed = .ok (h', job') ∧
      (Page.slotSize + packed.length ≤ free →
        job'.pageId = job.pageId ∧ Space h' job' (free - (Page.slotSize + packed.length))) ∧
      (¬ Page.slotSize + packed.length ≤ free →
        job'.pageId = job.pageId + 1 ∧
          Space h' job' (emptySpace - (Page.slotSize + packed.length))) := by
  by_cases enough : Page.slotSize + packed.length ≤ free
  · obtain ⟨h', job', placed, same, space'⟩ := space.placeRecord_ok key nonempty enough
    refine ⟨h', job', ?_, fun _ => ⟨same, space'⟩, fun full => absurd enough full⟩
    rw [Table.flushRecord, space.makeSpace_enough enough]
    exact placed
  · obtain ⟨opens, next⟩ := space.makeSpace_full (Nat.lt_of_not_le enough)
    obtain ⟨h₁, job₁, spaced⟩ := opens (room.resolve_left enough)
    obtain ⟨following, space₁⟩ := next h₁ job₁ spaced
    obtain ⟨h', job', placed, same, space'⟩ := space₁.placeRecord_ok key nonempty small
    refine ⟨h', job', ?_, fun fits => absurd fits enough,
      fun _ => ⟨same.trans following, space'⟩⟩
    rw [Table.flushRecord, spaced]
    exact placed

/-- A turn that succeeds had its space and its page number. -/
theorem Space.flushRecord_room (space : Space h job free) {key : String} {packed : Bytes}
    (done : Table.flushRecord h job key packed = .ok (h', job')) :
    Page.slotSize + packed.length ≤ emptySpace ∧
      (Page.slotSize + packed.length ≤ free ∨ job.pageId + 1 < maxPages) := by
  have small := space.free_le
  by_cases enough : Page.slotSize + packed.length ≤ free
  · exact ⟨by omega, Or.inl enough⟩
  · obtain ⟨_, next⟩ := space.makeSpace_full (Nat.lt_of_not_le enough)
    unfold Table.flushRecord at done
    cases spaced : makeSpace h job packed.length with
    | error e =>
        rw [spaced] at done
        cases done
    | ok result =>
        obtain ⟨h₁, job₁⟩ := result
        rw [spaced] at done
        obtain ⟨following, space₁⟩ := next h₁ job₁ spaced
        have numbered := space₁.numbered
        refine ⟨?_, Or.inr (by omega)⟩
        by_contra large
        exact space₁.placeRecord_full key (Nat.lt_of_not_le large) done

/-- The loop keeps to its pages. -/
theorem Space.fill (space : Space h job free) {records : List (String × Bytes)}
    (nonempty : ∀ record ∈ records, record.2 ≠ [])
    (done : fillPages h job records = .ok (h', job')) : ∃ free', Space h' job' free' := by
  induction records generalizing h job free with
  | nil =>
      cases done
      exact ⟨free, space⟩
  | cons record rest ih =>
      obtain ⟨key, packed⟩ := record
      obtain ⟨some_bytes, others⟩ := List.forall_mem_cons.mp nonempty
      unfold fillPages at done
      cases turned : Table.flushRecord h job key packed with
      | error e =>
          rw [turned] at done
          cases done
      | ok result =>
          obtain ⟨small, room⟩ := space.flushRecord_room turned
          obtain ⟨h₁, job₁, again, same, opened⟩ := space.flushRecord key some_bytes small room
          rw [turned] at again
          cases again
          rw [turned] at done
          by_cases enough : Page.slotSize + packed.length ≤ free
          · exact ih (same enough).2 others done
          · exact ih (opened enough).2 others done

/-- The loop gets through exactly when each record fits into an empty page and the pages can
be numbered. -/
theorem Space.fillPages_iff (space : Space h job free) {records : List (String × Bytes)}
    (nonempty : ∀ record ∈ records, record.2 ≠ []) :
    (∃ next, fillPages h job records = .ok next) ↔
      (∀ record ∈ records, recordSpace record ≤ emptySpace) ∧
        job.pageId + pagesOpened free (records.map recordSpace) < maxPages := by
  induction records generalizing h job free with
  | nil =>
      have numbered := space.numbered
      simpa [fillPages, pagesOpened] using numbered
  | cons record rest ih =>
      obtain ⟨key, packed⟩ := record
      obtain ⟨some_bytes, others⟩ := List.forall_mem_cons.mp nonempty
      simp only [List.forall_mem_cons, List.map_cons, pagesOpened, recordSpace] at *
      by_cases possible : Page.slotSize + packed.length ≤ emptySpace ∧
          (Page.slotSize + packed.length ≤ free ∨ job.pageId + 1 < maxPages)
      · obtain ⟨h₁, job₁, turned, same, opened⟩ :=
          space.flushRecord key some_bytes possible.1 possible.2
        simp only [fillPages, turned]
        by_cases enough : Page.slotSize + packed.length ≤ free
        · obtain ⟨page, left⟩ := same enough
          rw [if_pos enough, ih left others, page]
          simp only [possible.1, true_and]
        · obtain ⟨page, left⟩ := opened enough
          rw [if_neg enough, ih left others, page]
          simp only [possible.1, true_and]
          rw [Nat.add_right_comm, Nat.add_assoc]
      · constructor
        · rintro ⟨next, done⟩
          unfold fillPages at done
          cases turned : Table.flushRecord h job key packed with
          | error e =>
              rw [turned] at done
              cases done
          | ok result =>
              exact absurd (space.flushRecord_room turned) possible
        · rintro ⟨⟨small, _⟩, room⟩
          refine absurd ⟨small, ?_⟩ possible
          by_cases enough : Page.slotSize + packed.length ≤ free
          · exact Or.inl enough
          · rw [if_neg enough] at room
            exact Or.inr (by omega)

end

end CachyDb.Table
