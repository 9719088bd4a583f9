import CachyDb.Storage.Contents
import CachyDb.Storage.Router

set_option autoImplicit false

/-! The steps of `flush_memtable_to_disk` on the table file: each record is added at the
end of the contents, and the place it gets is noted for the index. -/

namespace CachyDb.Table

open ByteString TableHandler

/-- The flush fills the last page of the file. -/
structure Opened (h : TableHandler) (job : FlushJob) : Prop where
  formed : h.WellFormed
  last : h.totalPages = job.pageId + 1
  loaded : ∃ page, h.pageCache job.pageId = some page

/-- All pages are on disk, except for the one that is being filled. -/
def Saved (h : TableHandler) (job : FlushJob) : Prop :=
  ∀ pageId, pageId < h.totalPages → (pageId = job.pageId → job.dirty = false) → h.Stored pageId

def AllStored (h : TableHandler) : Prop := ∀ pageId, pageId < h.totalPages → h.Stored pageId

theorem Opened.page {h : TableHandler} {job : FlushJob} (opened : Opened h job) {page : Page}
    (loaded : h.pageCache job.pageId = some page) :
    h.view job.pageId = some page ∧ page.WellFormed ∧ page.pageId = job.pageId := by
  have seen := view_of_cached loaded
  have inside : job.pageId < h.totalPages := by
    rw [opened.last]
    omega
  obtain ⟨held, seen', shape, same⟩ := opened.formed.readable job.pageId inside
  rw [seen, Option.some.injEq] at seen'
  subst seen'
  exact ⟨seen, shape, same⟩

/-- A page read right after its allocation is loaded. -/
theorem allocated_page {h h₁ h₂ : TableHandler} (formed : h.WellFormed) {pageId : Nat} {page : Page}
    (allocated : h.allocatePage = .ok (pageId, h₁)) (read : h₁.readPage pageId = .ok (page, h₂)) :
    Keeps h h₂ ∧ h₂.totalPages = pageId + 1 ∧ h₂.pageCache pageId = some page ∧
      (AllStored h → AllStored h₂) := by
  obtain ⟨keeps, rfl, pages, self⟩ := formed.allocatePage_keeps allocated
  obtain ⟨keeps', pages', _, cached, _⟩ := keeps.formed.readPage_keeps read
  refine ⟨keeps.trans keeps', pages'.trans pages, cached, ?_⟩
  intro all other inside
  by_cases here : other = h.totalPages
  · rw [here]
    exact keeps'.stored _ self
  · apply keeps'.stored _ (keeps.stored _ (all other _))
    omega

theorem openLastPage_spec {h h' : TableHandler} (formed : h.WellFormed) {pageId : Nat}
    (done : openLastPage h = .ok (pageId, h')) :
    Keeps h h' ∧ h'.totalPages = pageId + 1 ∧ (∃ page, h'.pageCache pageId = some page) ∧
      (AllStored h → AllStored h') := by
  unfold openLastPage at done
  dsimp only at done
  by_cases empty : h.totalPages = 0
  · rw [if_pos empty] at done
    cases allocated : h.allocatePage with
    | error e =>
        rw [allocated] at done
        cases done
    | ok result =>
        obtain ⟨pageId', h₁⟩ := result
        rw [allocated] at done
        dsimp only at done
        cases read : h₁.readPage pageId' with
        | error e =>
            rw [read] at done
            cases done
        | ok result =>
            obtain ⟨page, h₂⟩ := result
            rw [read] at done
            cases done
            obtain ⟨keeps, pages, cached, stored⟩ := allocated_page formed allocated read
            exact ⟨keeps, pages, ⟨page, cached⟩, stored⟩
  · rw [if_neg empty] at done
    dsimp only at done
    cases read : h.readPage (h.totalPages - 1) with
    | error e =>
        rw [read] at done
        cases done
    | ok result =>
        obtain ⟨page, h₂⟩ := result
        rw [read] at done
        cases done
        obtain ⟨keeps, pages, _, cached, _⟩ := formed.readPage_keeps read
        refine ⟨keeps, by omega, ⟨page, cached⟩, ?_⟩
        intro all other inside
        exact keeps.stored other (all other (by omega))

theorem writeDirty_spec {h h' : TableHandler} {job : FlushJob} (opened : Opened h job)
    (done : writeDirty h job = .ok h') :
    Keeps h h' ∧ h'.totalPages = h.totalPages ∧ (Saved h job → AllStored h') := by
  unfold writeDirty at done
  cases dirty : job.dirty with
  | false =>
      rw [dirty, if_neg (by decide)] at done
      cases done
      refine ⟨Keeps.refl opened.formed, rfl, ?_⟩
      intro saved other inside
      exact saved other inside fun _ => dirty
  | true =>
      rw [dirty, if_pos rfl] at done
      obtain ⟨page, loaded⟩ := opened.loaded
      rw [loaded] at done
      dsimp only at done
      obtain ⟨seen, _, same⟩ := opened.page loaded
      rw [← same] at seen
      obtain ⟨keeps, pages, self, _⟩ := opened.formed.writePage_keeps seen done
      refine ⟨keeps, pages, ?_⟩
      intro saved other inside
      by_cases here : other = job.pageId
      · rw [here, ← same]
        exact self
      · apply keeps.stored other
        exact saved other (by omega) fun same => absurd same here

theorem makeSpace_spec {h h' : TableHandler} {job job' : FlushJob} (opened : Opened h job)
    {size : Nat} (done : makeSpace h job size = .ok (h', job')) :
    Keeps h h' ∧ Opened h' job' ∧ job'.updates = job.updates ∧
      job'.deletions = job.deletions ∧ job'.records = job.records ∧ (Saved h job → Saved h' job') := by
  obtain ⟨page, loaded⟩ := opened.loaded
  unfold makeSpace at done
  rw [loaded] at done
  dsimp only at done
  split at done
  · cases done
    exact ⟨Keeps.refl opened.formed, opened, rfl, rfl, rfl, id⟩
  · cases written : writeDirty h job with
    | error e =>
        rw [written] at done
        cases done
    | ok h₁ =>
        rw [written] at done
        dsimp only at done
        obtain ⟨keeps, _, stored⟩ := writeDirty_spec opened written
        cases allocated : h₁.allocatePage with
        | error e =>
            rw [allocated] at done
            cases done
        | ok result =>
            obtain ⟨pageId, h₂⟩ := result
            rw [allocated] at done
            dsimp only at done
            cases read : h₂.readPage pageId with
            | error e =>
                rw [read] at done
                cases done
            | ok result =>
                obtain ⟨page', h₃⟩ := result
                rw [read] at done
                cases done
                obtain ⟨keeps', pages, cached, stored'⟩ :=
                  allocated_page keeps.formed allocated read
                refine ⟨keeps.trans keeps', ⟨keeps'.formed, pages, ⟨page', cached⟩⟩, rfl, rfl, rfl,
                  ?_⟩
                intro saved other inside _
                exact stored' (stored saved) other inside

theorem placeRecord_spec {h h' : TableHandler} {job job' : FlushJob} (opened : Opened h job)
    {key : String} {packed : Bytes} (nonempty : packed ≠ [])
    (done : placeRecord h job key packed = .ok (h', job')) :
    Opened h' job' ∧ job'.records = job.records ∧
      (∃ place, h'.contents = h.contents ++ [(place, packed)] ∧
        if isDeletion key packed then
          job'.deletions = job.deletions ++ [key] ∧ job'.updates = job.updates
        else
          job'.deletions = job.deletions ∧ job'.updates = job.updates ++ [(key, place)]) ∧
      (Saved h job → Saved h' job') := by
  obtain ⟨page, loaded⟩ := opened.loaded
  unfold placeRecord at done
  rw [loaded] at done
  dsimp only at done
  cases inserted : page.insertRecord packed with
  | error e =>
      rw [inserted] at done
      cases done
  | ok result =>
      obtain ⟨slot, page'⟩ := result
      rw [inserted] at done
      simp only [Except.ok.injEq, Prod.mk.injEq] at done
      obtain ⟨rfl, filled⟩ := done
      obtain ⟨seen, shape, same⟩ := opened.page loaded
      obtain ⟨shape', same', _, records⟩ := shape.records_insert nonempty inserted
      have inside : job.pageId < h.totalPages := by
        rw [opened.last]
        omega
      have formed' := opened.formed.cachePage inside shape' (same'.trans same)
      have pageId : job'.pageId = job.pageId := by
        rw [← filled]
        split <;> rfl
      have dirty : job'.dirty = true := by
        rw [← filled]
        split <;> rfl
      refine ⟨⟨formed', ?_, ⟨page', ?_⟩⟩, ?_, ⟨(job.pageId, slot), ?_, ?_⟩, ?_⟩
      · rw [totalPages_cachePage, pageId, opened.last]
      · rw [pageId]
        exact h.cachePage_self job.pageId page'
      · rw [← filled]
        split <;> rfl
      · have pages : (h.cachePage job.pageId page').totalPages = job.pageId + 1 := opened.last
        apply contents_last opened.last pages
        · intro other before
          rw [pageContents, pageContents, view_cachePage_ne h page' (Nat.ne_of_lt before)]
        · rw [pageContents, pageContents, view_cachePage_self, seen]
          dsimp only
          rw [records, List.map_append]
          rfl
      · rw [← filled]
        split
        · exact ⟨rfl, rfl⟩
        · exact ⟨rfl, rfl⟩
      · intro saved other within clean
        have different : other ≠ job.pageId := by
          intro here
          rw [dirty, pageId] at clean
          cases clean here
        apply (saved other within fun here => absurd here different).congr
        · exact view_cachePage_ne h page' different
        · rfl

/-- One turn of the loop: the record is the last one of the file, and noted for the index. -/
theorem flushRecord_spec {h h' : TableHandler} {job job' : FlushJob} (opened : Opened h job)
    {key : String} {packed : Bytes} (nonempty : packed ≠ [])
    (done : flushRecord h job key packed = .ok (h', job')) :
    Opened h' job' ∧ job'.records = job.records ∧
      (∃ place, h'.contents = h.contents ++ [(place, packed)] ∧
        if isDeletion key packed then
          job'.deletions = job.deletions ++ [key] ∧ job'.updates = job.updates
        else
          job'.deletions = job.deletions ∧ job'.updates = job.updates ++ [(key, place)]) ∧
      (Saved h job → Saved h' job') := by
  unfold flushRecord at done
  cases space : makeSpace h job packed.length with
  | error e =>
      rw [space] at done
      cases done
  | ok result =>
      obtain ⟨h₁, job₁⟩ := result
      rw [space] at done
      obtain ⟨keeps, opened₁, updates, deletions, records, saved₁⟩ := makeSpace_spec opened space
      have placed := placeRecord_spec opened₁ nonempty done
      rw [updates, deletions, records, keeps.contents] at placed
      obtain ⟨opened', records', noted, saved'⟩ := placed
      exact ⟨opened', records', noted, fun saved => saved' (saved₁ saved)⟩

end CachyDb.Table
