import CachyDb.Storage.Flushing

set_option autoImplicit false

/-! What several flushes on one table file leave of each other's work: a record that has
been put into a page stays there, and one that has reached the file stays in the file. -/

namespace CachyDb.TableHandler

open ByteString

/-- The bytes of the page in the file hold the payload in the slot. -/
def OnFile (file : File) (place : Nat × Nat) (payload : Bytes) : Prop :=
  ∃ page, Page.fromBytes (file.read (place.1 * Page.pageSize) Page.pageSize) = .ok page ∧
    page.recordAt place.2 = some payload

/-- Pages are well formed, and no page object lacks a record that its bytes have. -/
structure Coherent (h : TableHandler) : Prop where
  formed : h.WellFormed
  behind : ∀ place payload, OnFile h.file place payload → (place, payload) ∈ h.contents

/-- Nothing is taken away: loaded pages stay loaded, records stay in their pages and in
the file. -/
structure Grows (h h' : TableHandler) : Prop where
  coherent : h'.Coherent
  holds : ∀ record ∈ h.contents, record ∈ h'.contents
  onFile : ∀ place payload, OnFile h.file place payload → OnFile h'.file place payload
  loaded : ∀ pageId, (∃ page, h.pageCache pageId = some page) →
    ∃ page, h'.pageCache pageId = some page

theorem Grows.refl {h : TableHandler} (coherent : h.Coherent) : Grows h h :=
  ⟨coherent, fun _ => id, fun _ _ => id, fun _ => id⟩

theorem Grows.trans {h h' h'' : TableHandler} (first : Grows h h') (second : Grows h' h'') :
    Grows h h'' :=
  ⟨second.coherent, fun record member => second.holds record (first.holds record member),
    fun place payload there => second.onFile place payload (first.onFile place payload there),
    fun pageId loaded => second.loaded pageId (first.loaded pageId loaded)⟩

/-- The pages whose bytes are those of their objects have their records on file. -/
theorem Stored.onFile {h : TableHandler} (formed : h.WellFormed) {place : Nat × Nat}
    {payload : Bytes} (stored : h.Stored place.1) (held : (place, payload) ∈ h.contents) :
    OnFile h.file place payload := by
  obtain ⟨page, onDisk, seen, read, _, _, records⟩ := stored
  obtain ⟨page', seen', found⟩ := formed.mem_contents.mp held
  rw [seen, Option.some.injEq] at seen'
  subst seen'
  refine ⟨onDisk, read, ?_⟩
  rw [← Page.mem_records, records, Page.mem_records]
  exact found

theorem Coherent.inside {h : TableHandler} (coherent : h.Coherent) {place : Nat × Nat}
    {payload : Bytes} (there : OnFile h.file place payload) : place.1 < h.totalPages := by
  obtain ⟨page, seen, _⟩ := coherent.formed.mem_contents.mp (coherent.behind place payload there)
  by_contra outside
  rw [coherent.formed.view_none (Nat.le_of_not_lt outside)] at seen
  cases seen

theorem fromBytes_length {raw : Bytes} {page : Page} (read : Page.fromBytes raw = .ok page) :
    raw.length = Page.pageSize := by
  by_contra short
  rw [Page.fromBytes, if_pos short] at read
  cases read

/-- In a newly opened file every object is made of its bytes. -/
theorem openTable_coherent {file : File} (formed : (openTable file).WellFormed) :
    (openTable file).Coherent := by
  refine ⟨formed, ?_⟩
  intro place payload there
  obtain ⟨page, read, found⟩ := there
  have length := fromBytes_length read
  have inside : ¬ place.1 ≥ (openTable file).totalPages := by
    intro outside
    have size := formed.aligned
    rw [File.read_length] at length
    have past := Nat.mul_le_mul_right Page.pageSize outside
    have positive : 0 < Page.pageSize := by decide
    omega
  rw [formed.mem_contents]
  refine ⟨page, ?_, found⟩
  simp only [view, TableHandler.readPage, openTable, loadPage] at inside ⊢
  simp only [openTable] at read length
  simp only [inside, ↓reduceIte, length, ne_eq, not_true_eq_false, read]

theorem Coherent.readPage {h h' : TableHandler} (coherent : h.Coherent) {pageId : Nat} {page : Page}
    (read : h.readPage pageId = .ok (page, h')) :
    Grows h h' ∧ h'.file = h.file ∧ h'.totalPages = h.totalPages ∧
      h'.pageCache pageId = some page ∧ h.view pageId = some page := by
  obtain ⟨keeps, pages, seen, cached, views⟩ := coherent.formed.readPage_keeps read
  have file : h'.file = h.file := by
    unfold TableHandler.readPage at read
    split at read
    · cases read
      rfl
    · split at read
      · cases read
      · cases read
        rfl
  refine ⟨⟨⟨keeps.formed, ?_⟩, ?_, ?_, ?_⟩, file, pages, cached, seen⟩
  · rw [file, keeps.contents]
    exact coherent.behind
  · rw [keeps.contents]
    exact fun _ => id
  · rw [file]
    exact fun _ _ => id
  · rintro other ⟨held, known⟩
    by_cases here : other = pageId
    · exact ⟨page, here ▸ cached⟩
    · refine ⟨held, ?_⟩
      unfold TableHandler.readPage at read
      split at read
      · cases read
        exact known
      · split at read
        · cases read
        · cases read
          rw [h.cachePage_ne _ here]
          exact known

/-- A page that keeps its records goes to the file. -/
theorem Coherent.store {h h' : TableHandler} (coherent : h.Coherent) {page : Page}
    (shape : page.WellFormed) (place : page.pageId ≤ h.totalPages) (done : h.store page = .ok h')
    (kept : ∀ slot payload, ((page.pageId, slot), payload) ∈ h.contents →
      page.recordAt slot = some payload) :
    Grows h h' ∧ h'.Stored page.pageId ∧
      h'.pageCache page.pageId = some { page with data := page.sealed } := by
  obtain ⟨formed', pages, cached, views, bytes, read⟩ := coherent.formed.store shape place done
  have stored := coherent.formed.stored_self shape place done
  have sealedSame : ∀ slot, Page.recordAt { page with data := page.sealed } slot =
      page.recordAt slot := by
    intro slot
    rw [Page.recordAt, Page.recordAt, shape.getRecord_sealed]
  have holds : ∀ record ∈ h.contents, record ∈ h'.contents := by
    rintro ⟨spot, payload⟩ member
    rw [formed'.mem_contents]
    by_cases here : spot.1 = page.pageId
    · refine ⟨{ page with data := page.sealed }, ?_, ?_⟩
      · rw [here]
        exact view_of_cached cached
      · rw [sealedSame]
        apply kept
        rw [← here]
        exact member
    · rw [views spot.1 here]
      exact coherent.formed.mem_contents.mp member
  have onFile : ∀ spot payload, OnFile h.file spot payload → OnFile h'.file spot payload := by
    intro spot payload there
    by_cases here : spot.1 = page.pageId
    · apply Stored.onFile formed'
      · rw [here]
        exact stored
      · exact holds _ (coherent.behind spot payload there)
    · have inside := coherent.inside there
      rw [OnFile, bytes spot.1 inside here]
      exact there
  refine ⟨⟨⟨formed', ?_⟩, holds, onFile, ?_⟩, stored, cached⟩
  · rintro spot payload ⟨onDisk, onDiskRead, found⟩
    rw [formed'.mem_contents]
    by_cases here : spot.1 = page.pageId
    · rw [here, read, Except.ok.injEq] at onDiskRead
      refine ⟨onDisk, ?_, found⟩
      rw [here, ← onDiskRead]
      exact view_of_cached cached
    · have inside : spot.1 < h'.totalPages := by
        have length := fromBytes_length onDiskRead
        have size := formed'.aligned
        rw [File.read_length] at length
        by_contra outside
        have past := Nat.mul_le_mul_right Page.pageSize (Nat.le_of_not_lt outside)
        have positive : 0 < Page.pageSize := by decide
        omega
      have before : spot.1 < h.totalPages := by
        rw [pages] at inside
        omega
      rw [views spot.1 here, ← coherent.formed.mem_contents]
      apply coherent.behind
      exact ⟨onDisk, by rw [← bytes spot.1 before here]; exact onDiskRead, found⟩
  · rintro other ⟨held, known⟩
    by_cases here : other = page.pageId
    · exact ⟨_, here ▸ cached⟩
    · refine ⟨held, ?_⟩
      unfold TableHandler.store at done
      split at done
      · cases done
      · rename_i serialised result
        simp only [Except.ok.injEq] at done
        rw [← done, writeBytes_pageCache, h.cachePage_ne _ here]
        exact known

theorem Coherent.allocatePage {h h' : TableHandler} (coherent : h.Coherent) {pageId : Nat}
    (done : h.allocatePage = .ok (pageId, h')) : Grows h h' ∧ ∃ page, h'.pageCache pageId = some page := by
  unfold TableHandler.allocatePage at done
  cases result : h.store (Page.init h.totalPages) with
  | error e =>
      rw [result] at done
      cases done
  | ok h₁ =>
      rw [result] at done
      cases done
      obtain ⟨grows, _, cached⟩ := coherent.store (Page.init_wellFormed h.totalPages)
        (Nat.le_refl _) result (by
          intro slot payload member
          obtain ⟨page, seen, _⟩ := coherent.formed.mem_contents.mp member
          have missing := coherent.formed.view_none (Nat.le_refl h.totalPages)
          rw [show h.view h.totalPages = some page from seen] at missing
          cases missing)
      exact ⟨grows, _, cached⟩

theorem Coherent.writePage {h h' : TableHandler} (coherent : h.Coherent) {page : Page}
    (seen : h.view page.pageId = some page) (done : h.writePage page = .ok h') :
    Grows h h' ∧ h'.Stored page.pageId := by
  unfold TableHandler.writePage at done
  split at done
  · cases done
  · rename_i inside
    obtain ⟨held, seen', shape, _⟩ :=
      coherent.formed.readable page.pageId (Nat.lt_of_not_ge inside)
    rw [seen, Option.some.injEq] at seen'
    subst seen'
    obtain ⟨grows, stored, _⟩ := coherent.store shape (Nat.le_of_lt (Nat.lt_of_not_ge inside)) done
      (by
        intro slot payload member
        obtain ⟨page', seen', found⟩ := coherent.formed.mem_contents.mp member
        rw [seen, Option.some.injEq] at seen'
        rw [seen']
        exact found)
    exact ⟨grows, stored⟩

/-- The place of a record that a flush puts into its current page. -/
theorem Coherent.placeRecord {h h' : TableHandler} (coherent : h.Coherent) {job job' : Table.FlushJob}
    {key : String} {packed : Bytes} (nonempty : packed ≠ [])
    (done : Table.placeRecord h job key packed = .ok (h', job')) :
    Grows h h' ∧ job'.pageId = job.pageId ∧ job'.dirty = true ∧ job'.records = job.records ∧
      ∃ slot, ((job.pageId, slot), packed) ∈ h'.contents ∧
        if isDeletion key packed then
          job'.deletions = job.deletions ++ [key] ∧ job'.updates = job.updates
        else
          job'.deletions = job.deletions ∧
            job'.updates = job.updates ++ [(key, (job.pageId, slot))] := by
  unfold Table.placeRecord at done
  cases loaded : h.pageCache job.pageId with
  | none =>
      rw [loaded] at done
      cases done
  | some page =>
      rw [loaded] at done
      dsimp only at done
      cases inserted : page.insertRecord packed with
      | error e =>
          rw [inserted] at done
          cases done
      | ok result =>
          obtain ⟨slot, page'⟩ := result
          rw [inserted] at done
          simp only [Except.ok.injEq, Prod.mk.injEq] at done
          obtain ⟨rfl, filled⟩ := done
          have inside := coherent.formed.loaded job.pageId page loaded
          have seen := view_of_cached loaded
          obtain ⟨held, seen', shape, same⟩ := coherent.formed.readable job.pageId inside
          rw [seen, Option.some.injEq] at seen'
          subst seen'
          obtain ⟨shape', same', _, records⟩ := shape.records_insert nonempty inserted
          have formed' := coherent.formed.cachePage inside shape' (same'.trans same)
          have holds : ∀ record ∈ h.contents,
              record ∈ (h.cachePage job.pageId page').contents := by
            rintro ⟨spot, payload⟩ member
            obtain ⟨found, seen', there⟩ := coherent.formed.mem_contents.mp member
            rw [formed'.mem_contents]
            by_cases here : spot.1 = job.pageId
            · refine ⟨page', by rw [here]; exact h.view_cachePage_self _ _, ?_⟩
              rw [here, seen, Option.some.injEq] at seen'
              rw [← Page.mem_records, records, seen']
              exact List.mem_append_left _ (Page.mem_records.mpr there)
            · exact ⟨found, by rw [view_cachePage_ne h page' here]; exact seen', there⟩
          refine ⟨⟨⟨formed', ?_⟩, holds, fun _ _ => id, ?_⟩, ?_, ?_, ?_, slot, ?_, ?_⟩
          · exact fun spot payload there => holds _ (coherent.behind spot payload there)
          · rintro other ⟨other_page, known⟩
            by_cases here : other = job.pageId
            · exact ⟨page', by rw [here]; exact h.cachePage_self _ _⟩
            · exact ⟨other_page, by rw [h.cachePage_ne _ here]; exact known⟩
          · rw [← filled]
            split <;> rfl
          · rw [← filled]
            split <;> rfl
          · rw [← filled]
            split <;> rfl
          · rw [formed'.mem_contents]
            refine ⟨page', h.view_cachePage_self _ _, ?_⟩
            rw [← Page.mem_records, records]
            exact List.mem_append_right _ List.mem_cons_self
          · rw [← filled]
            split
            · exact ⟨rfl, rfl⟩
            · exact ⟨rfl, rfl⟩

/-- After the current page has been written its records are in the file. -/
theorem Coherent.writeDirty {h h' : TableHandler} (coherent : h.Coherent) {job : Table.FlushJob}
    (done : Table.writeDirty h job = .ok h') :
    Grows h h' ∧ (job.dirty = true → ∀ slot payload, ((job.pageId, slot), payload) ∈ h.contents →
      OnFile h'.file (job.pageId, slot) payload) := by
  unfold Table.writeDirty at done
  cases dirty : job.dirty with
  | false =>
      rw [dirty, if_neg (by decide)] at done
      cases done
      exact ⟨Grows.refl coherent, fun false => by cases false⟩
  | true =>
      rw [dirty, if_pos rfl] at done
      cases loaded : h.pageCache job.pageId with
      | none =>
          rw [loaded] at done
          cases done
      | some page =>
          rw [loaded] at done
          dsimp only at done
          have seen := view_of_cached loaded
          obtain ⟨held, seen', _, same⟩ :=
            coherent.formed.readable job.pageId (coherent.formed.loaded job.pageId page loaded)
          rw [seen, Option.some.injEq] at seen'
          subst seen'
          rw [← same] at seen
          obtain ⟨grows, stored⟩ := coherent.writePage seen done
          refine ⟨grows, fun _ slot payload member => ?_⟩
          apply Stored.onFile grows.coherent.formed
          · rw [← same]
            exact stored
          · exact grows.holds _ member

end CachyDb.TableHandler
