import CachyDb.Storage.Filling
import CachyDb.Storage.Lookup
import CachyDb.Storage.Rebuild

set_option autoImplicit false

/-! What the table file itself has at each step of a flush. A process that dies leaves this
behind: the records of all earlier flushes, and some of those that the last flush has put
into pages. -/

namespace CachyDb

open ByteString

namespace TableHandler

/-- The records that are found when the file is opened again. -/
def saved (h : TableHandler) : List ((Nat × Nat) × Bytes) := (openTable h.file).contents

/-- What the last page has more than the file is of this kind. -/
def Unsaved (kind : Bytes → Prop) (h : TableHandler) : Prop :=
  ∀ pageId page, h.totalPages = pageId + 1 → h.pageCache pageId = some page →
    ∀ slot payload, page.recordAt slot = some payload →
      OnFile h.file (pageId, slot) payload ∨ kind payload

/-- The file can be opened again, and its pages have been loaded from it. -/
structure Ahead (kind : Bytes → Prop) (h : TableHandler) : Prop where
  coherent : h.Coherent
  onFile : (openTable h.file).WellFormed
  drafts : Table.Drafts h
  unsaved : h.Unsaved kind

theorem mem_saved {h : TableHandler} (onFile : (openTable h.file).WellFormed) {place : Nat × Nat}
    {payload : Bytes} : (place, payload) ∈ h.saved ↔ OnFile h.file place payload := by
  constructor
  · intro member
    obtain ⟨page, seen, record⟩ := onFile.mem_contents.mp member
    exact ⟨page, (Table.view_opened.mp seen).2, record⟩
  · exact (openTable_coherent onFile).behind place payload

theorem saved_congr {h h' : TableHandler} (file : h'.file = h.file) : h'.saved = h.saved := by
  rw [saved, saved, file]

theorem openTable_ahead {file : File} (formed : (openTable file).WellFormed)
    (kind : Bytes → Prop) : (openTable file).Ahead kind :=
  ⟨openTable_coherent formed, formed, Table.openTable_drafts file,
    fun _ _ _ loaded => by cases loaded⟩

section Steps

variable {kind : Bytes → Prop} {h h' : TableHandler}

theorem Ahead.weaken (ahead : h.Ahead kind) {kind' : Bytes → Prop}
    (more : ∀ payload, kind payload → kind' payload) : h.Ahead kind' := by
  refine ⟨ahead.coherent, ahead.onFile, ahead.drafts, ?_⟩
  intro pageId page last loaded slot payload record
  exact (ahead.unsaved pageId page last loaded slot payload record).imp id (more payload)

/-- What a reader does: it loads pages from the file. -/
structure Loads (h h' : TableHandler) : Prop where
  grows : Grows h h'
  file : h'.file = h.file
  drafts : Table.Drafts h → Table.Drafts h'
  unsaved : ∀ kind, h.Unsaved kind → h'.Unsaved kind

theorem Loads.refl (coherent : h.Coherent) : Loads h h :=
  ⟨Grows.refl coherent, rfl, id, fun _ => id⟩

theorem Loads.totalPages (loads : Loads h h') : h'.totalPages = h.totalPages := by
  rw [TableHandler.totalPages, TableHandler.totalPages, loads.file]

/-- A page that is loaded is what the file has of it. -/
theorem Coherent.loads (coherent : h.Coherent) {pageId : Nat} {page : Page}
    (read : h.readPage pageId = .ok (page, h')) : Loads h h' := by
  obtain ⟨grows, file, pages, _, _⟩ := coherent.readPage read
  refine ⟨grows, file, fun drafts => (drafts.readPage read).1, fun kind unsaved => ?_⟩
  intro other held last loaded slot payload record
  rw [pages] at last
  rw [file]
  by_cases old : h.pageCache other = some held
  · exact unsaved other held last old slot payload record
  · left
    unfold TableHandler.readPage at read
    split at read
    · cases read
      exact absurd loaded old
    · split at read
      · cases read
      · rename_i fresh
        cases read
        by_cases here : other = pageId
        · subst here
          rw [cachePage_self, Option.some.injEq] at loaded
          subst loaded
          exact ⟨_, (Table.loadPage_ok fresh).2, record⟩
        · rw [h.cachePage_ne _ here] at loaded
          exact absurd loaded old

theorem Ahead.loads (ahead : h.Ahead kind) (loads : Loads h h') : h'.Ahead kind :=
  ⟨loads.grows.coherent, by rw [loads.file]; exact ahead.onFile, loads.drafts ahead.drafts,
    loads.unsaved kind ahead.unsaved⟩

/-- A stored page is found again when the file is opened, and the others as before. -/
theorem Ahead.reopen_store (ahead : h.Ahead kind) {page : Page} (shape : page.WellFormed)
    (place : page.pageId ≤ h.totalPages) (done : h.store page = .ok h') :
    (openTable h'.file).WellFormed ∧
      (openTable h'.file).view page.pageId = some { page with data := page.sealed } ∧
      ∀ other, other < h.totalPages → other ≠ page.pageId →
        (openTable h'.file).view other = (openTable h.file).view other := by
  obtain ⟨formed, pages, _, _, bytes, read⟩ := ahead.coherent.formed.store shape place done
  have total : (openTable h'.file).totalPages = h'.totalPages := rfl
  have own : (openTable h'.file).view page.pageId = some { page with data := page.sealed } := by
    refine Table.view_opened.mpr ⟨?_, read⟩
    omega
  have others : ∀ other, other < h.totalPages → other ≠ page.pageId →
      (openTable h'.file).view other = (openTable h.file).view other := by
    intro other inside different
    have same : Table.onDisk h'.file other = Table.onDisk h.file other := bytes other inside different
    obtain ⟨old, seen, _, _⟩ := ahead.onFile.readable other inside
    rw [seen]
    refine Table.view_opened.mpr ⟨by omega, ?_⟩
    rw [same]
    exact (Table.view_opened.mp seen).2
  refine ⟨⟨formed.aligned, fun _ _ loaded => (by cases loaded), fun pageId inside => ?_⟩, own,
    others⟩
  by_cases here : pageId = page.pageId
  · subst here
    exact ⟨_, own, shape.sealed, rfl⟩
  · rw [others pageId (by omega) here]
    exact ahead.onFile.readable pageId (show pageId < h.totalPages by omega)

/-- A new page has no records. -/
theorem Ahead.allocatePage (ahead : h.Ahead kind) {pageId : Nat}
    (done : h.allocatePage = .ok (pageId, h')) :
    h'.Ahead kind ∧ h'.totalPages = pageId + 1 ∧ h'.saved = h.saved := by
  obtain ⟨grows, _⟩ := ahead.coherent.allocatePage done
  obtain ⟨_, rfl, pages, _⟩ := ahead.coherent.formed.allocatePage_keeps done
  have drafts := ahead.drafts.allocatePage ahead.coherent.formed done
  unfold TableHandler.allocatePage at done
  split at done
  · cases done
  · rename_i stored
    cases done
    have shape := Page.init_wellFormed h.totalPages
    have place : (Page.init h.totalPages).pageId ≤ h.totalPages := Nat.le_refl _
    obtain ⟨onFile, own, others⟩ := ahead.reopen_store shape place stored
    obtain ⟨_, _, cached, _⟩ := ahead.coherent.formed.store shape place stored
    have empty (slot : Nat) : Page.recordAt
        { Page.init h.totalPages with data := (Page.init h.totalPages).sealed } slot = none := by
      cases found : Page.recordAt
          { Page.init h.totalPages with data := (Page.init h.totalPages).sealed } slot with
      | none => rfl
      | some payload =>
          have member := Page.mem_records.mpr found
          rw [shape.records_sealed, Page.records_init] at member
          cases member
    refine ⟨⟨grows.coherent, onFile, drafts, ?_⟩, pages, ?_⟩
    · intro other page last loaded slot payload record
      have here : other = h.totalPages := by omega
      subst here
      have same : page = { Page.init h.totalPages with data := (Page.init h.totalPages).sealed } :=
        Option.some.inj (loaded.symm.trans cached)
      rw [same, empty] at record
      cases record
    · apply @contents_grown (openTable h.file) (openTable h'.file) pages
      · intro other inside
        rw [pageContents, pageContents, others other inside (Nat.ne_of_lt inside)]
      · have drawn : (openTable h'.file).view h.totalPages = some
            { Page.init h.totalPages with data := (Page.init h.totalPages).sealed } := own
        show pageContents (openTable h'.file) h.totalPages = []
        rw [pageContents, drawn]
        dsimp only
        rw [shape.records_sealed, Page.records_init]
        rfl

/-- Written to the file, the last page adds to it what it had more. -/
theorem Ahead.writeDirty (ahead : h.Ahead kind) {job : Table.FlushJob}
    (last : h.totalPages = job.pageId + 1) (done : Table.writeDirty h job = .ok h') :
    h'.Ahead kind ∧ h'.totalPages = h.totalPages ∧
      (∃ more, h'.saved = h.saved ++ more ∧ ∀ record ∈ more, kind record.2) ∧
      (job.dirty = true → h'.Unsaved fun _ => False) := by
  obtain ⟨grows, _⟩ := ahead.coherent.writeDirty done
  cases dirty : job.dirty with
  | false =>
      unfold Table.writeDirty at done
      rw [dirty, if_neg (by decide)] at done
      cases done
      exact ⟨ahead, rfl, ⟨[], (List.append_nil _).symm, fun _ member => by cases member⟩,
        fun false => by cases false⟩
  | true =>
      unfold Table.writeDirty at done
      rw [dirty, if_pos rfl] at done
      split at done
      · cases done
      · rename_i page loaded
        have opened : Table.Opened h job := ⟨ahead.coherent.formed, last, page, loaded⟩
        obtain ⟨_, shape, same⟩ := opened.page loaded
        have drafts := ahead.drafts.writeDirty opened
          (show Table.writeDirty h job = .ok h' by
            unfold Table.writeDirty
            rw [dirty, if_pos rfl, loaded]
            exact done)
        unfold writePage at done
        split at done
        · cases done
        have place : page.pageId ≤ h.totalPages := by omega
        obtain ⟨onFile, own, others⟩ := ahead.reopen_store shape place done
        obtain ⟨_, pages, cached, _⟩ := ahead.coherent.formed.store shape place done
        have pages' : h'.totalPages = h.totalPages := by omega
        have recorded (slot : Nat) : Page.recordAt { page with data := page.sealed } slot =
            page.recordAt slot := by
          rw [Page.recordAt, Page.recordAt, shape.getRecord_sealed]
        have clean : h'.Unsaved fun _ => False := by
          intro other held newest found slot payload record
          left
          have here : other = page.pageId := by omega
          subst here
          rw [cached, Option.some.injEq] at found
          subst found
          exact ⟨_, (Table.view_opened.mp own).2, record⟩
        obtain ⟨old, oldRead, extends_, _⟩ := ahead.drafts job.pageId page loaded
        obtain ⟨extra, records, behind⟩ :=
          Table.records_extends extends_ shape (Page.fromBytes_decoded oldRead).formed
        have seenOld : (openTable h.file).view page.pageId = some old := by
          refine Table.view_opened.mpr ⟨?_, by rw [same]; exact oldRead⟩
          show page.pageId < h.totalPages
          omega
        refine ⟨⟨grows.coherent, onFile, drafts, ?_⟩, pages',
          ⟨extra.map fun record => ((page.pageId, record.1), record.2), ?_, ?_⟩, fun _ => clean⟩
        · intro other held newest found slot payload record
          exact (clean other held newest found slot payload record).imp id False.elim
        · apply @contents_last (openTable h.file) (openTable h'.file) page.pageId
          · show h.totalPages = page.pageId + 1
            omega
          · show h'.totalPages = page.pageId + 1
            omega
          · intro other inside
            rw [pageContents, pageContents, others other (by omega) (Nat.ne_of_lt inside)]
          · rw [pageContents, pageContents, own, seenOld]
            dsimp only
            rw [shape.records_sealed, records, List.map_append]
        · intro record member
          obtain ⟨⟨slot, payload⟩, inside, rfl⟩ := List.mem_map.mp member
          obtain ⟨past, found⟩ := (behind slot payload).mp inside
          rcases ahead.unsaved job.pageId page last loaded slot payload found with there | fresh
          · obtain ⟨onDisk, read, record⟩ := there
            have known : onDisk = old := Except.ok.inj (read.symm.trans oldRead)
            subst known
            have within := Page.recordAt_lt record
            omega
          · exact fresh

/-- A record of this kind goes into the last page. -/
theorem Ahead.placeRecord (ahead : h.Ahead kind) {job job' : Table.FlushJob} {key : String}
    {packed : Bytes} (nonempty : packed ≠ []) (fresh : kind packed)
    (done : Table.placeRecord h job key packed = .ok (h', job')) :
    h'.Ahead kind ∧ h'.file = h.file := by
  obtain ⟨grows, _⟩ := ahead.coherent.placeRecord nonempty done
  obtain ⟨drafts, file⟩ := ahead.drafts.placeRecord done
  refine ⟨⟨grows.coherent, by rw [file]; exact ahead.onFile, drafts, ?_⟩, file⟩
  unfold Table.placeRecord at done
  split at done
  · cases done
  · rename_i page loaded
    split at done
    · cases done
    · rename_i slot page' inserted
      cases done
      intro other held last found slot' payload record
      have seen := view_of_cached loaded
      obtain ⟨_, seen', shape, _⟩ := ahead.coherent.formed.readable job.pageId
        (ahead.coherent.formed.loaded job.pageId page loaded)
      rw [seen, Option.some.injEq] at seen'
      subst seen'
      obtain ⟨_, _, _, records⟩ := shape.records_insert nonempty inserted
      by_cases here : other = job.pageId
      · subst here
        rw [cachePage_self, Option.some.injEq] at found
        subst found
        have member := Page.mem_records.mpr record
        rw [records] at member
        rcases List.mem_append.mp member with before | new
        · exact ahead.unsaved _ page last loaded slot' payload (Page.mem_records.mp before)
        · obtain ⟨_, rfl⟩ := Prod.mk.inj (List.mem_singleton.mp new)
          exact Or.inr fresh
      · rw [h.cachePage_ne _ here] at found
        exact ahead.unsaved other held last found slot' payload record

end Steps

end TableHandler

namespace Phase

/-- The flush works on the last page of the file. -/
def onPage (phase : Phase) : Prop :=
  phase = .opening ∨ phase = .checking ∨ phase = .saving ∨ phase = .growing ∨
    phase = .reopening ∨ phase = .inserting ∨ phase = .closing

/-- A record is about to be put into a page. -/
def ahead (phase : Phase) : Prop :=
  phase = .sizing ∨ phase = .allocating ∨ phase = .opening ∨ phase = .saving ∨ phase = .growing ∨
    phase = .reopening ∨ phase = .inserting

/-- The last page has been written. -/
def closed (phase : Phase) : Prop :=
  phase = .dropping ∨ phase = .indexing ∨ phase = .syncing ∨ phase = .marking ∨ phase = .clearing

instance (phase : Phase) : Decidable phase.onPage := by unfold onPage; infer_instance
instance (phase : Phase) : Decidable phase.ahead := by unfold ahead; infer_instance
instance (phase : Phase) : Decidable phase.closed := by unfold closed; infer_instance

end Phase

namespace Task

open TableHandler

/-- As `Placed`, at a place that is not one of these. -/
def PlacedApart (taken : List (Nat × Nat)) (h : TableHandler) (task : Task)
    (record : String × Bytes) : Prop :=
  record ∈ task.job.records ∨ ∃ place, place ∉ taken ∧ (place, record.2) ∈ h.contents ∧
    (OnFile h.file place record.2 ∨
      task.phase.filling ∧ task.job.dirty = true ∧ place.1 = task.job.pageId)

/-- Where a flush is with the last page of the file, and that its records have new places. -/
structure Filing (taken : List (Nat × Nat)) (h : TableHandler) (task : Task) : Prop where
  last : task.phase.onPage → h.totalPages = task.job.pageId + 1
  apart : task.phase.running → ∀ record ∈ task.records, task.PlacedApart taken h record
  pending : task.phase.ahead → task.job.records ≠ []
  dirty : task.phase = .checking ∨ task.phase = .closing →
    task.job.records ≠ [] ∨ task.job.dirty = true
  clean : task.phase.closed → h.Unsaved fun _ => False

/-- A flush that has ended does not care about the file. -/
theorem filing_of_done {task : Task} (done : task.done = true ∨ task.phase = .queued)
    (taken : List (Nat × Nat)) (h : TableHandler) : task.Filing taken h := by
  have phase : task.phase = .finished ∨ task.phase = .failed ∨ task.phase = .queued := by
    unfold Task.done at done
    simp only [Bool.or_eq_true, decide_eq_true_eq] at done
    tauto
  have idle : ¬ task.phase.onPage ∧ ¬ task.phase.running ∧ ¬ task.phase.ahead ∧
      ¬ (task.phase = .checking ∨ task.phase = .closing) ∧ ¬ task.phase.closed := by
    rcases phase with here | here | here
    · rw [here]
      decide
    · rw [here]
      decide
    · rw [here]
      decide
  exact ⟨fun on => absurd on idle.1, fun running => absurd running idle.2.1,
    fun ahead => absurd ahead idle.2.2.1, fun here => absurd here idle.2.2.2.1,
    fun closed => absurd closed idle.2.2.2.2⟩

/-- Between two pages all that a flush has placed is in the file. -/
theorem PlacedApart.still {taken : List (Nat × Nat)} {h h' : TableHandler} {task task' : Task}
    {record : String × Bytes} (placed : task.PlacedApart taken h record) (grows : Grows h h')
    (clean : ¬ task.phase.filling) (same : task'.job.records = task.job.records) :
    task'.PlacedApart taken h' record := by
  rcases placed with pending | ⟨place, apart, held, there | filling⟩
  · exact Or.inl (same ▸ pending)
  · exact Or.inr ⟨place, apart, grows.holds _ held, Or.inl (grows.onFile place record.2 there)⟩
  · exact absurd filling.1 clean

/-- After its current page has been written as well. -/
theorem PlacedApart.written {taken : List (Nat × Nat)} {h h' : TableHandler} {task task' : Task}
    {record : String × Bytes} (placed : task.PlacedApart taken h record) (coherent : h.Coherent)
    (done : Table.writeDirty h task.job = .ok h') (same : task'.job.records = task.job.records) :
    task'.PlacedApart taken h' record := by
  obtain ⟨grows, saved⟩ := coherent.writeDirty done
  rcases placed with pending | ⟨⟨pageId, slot⟩, apart, held, there | ⟨_, dirty, here⟩⟩
  · exact Or.inl (same ▸ pending)
  · exact Or.inr ⟨_, apart, grows.holds _ held, Or.inl (grows.onFile _ record.2 there)⟩
  · obtain rfl : pageId = task.job.pageId := here
    exact Or.inr ⟨_, apart, grows.holds _ held, Or.inl (saved dirty slot record.2 held)⟩

/-- A flush that goes on with the same page. -/
theorem PlacedApart.move {taken : List (Nat × Nat)} {h : TableHandler} {task : Task}
    {record : String × Bytes} (placed : task.PlacedApart taken h record) {phase : Phase}
    (filling : task.phase.filling → phase.filling) :
    (task.move phase).PlacedApart taken h record := by
  rcases placed with pending | ⟨place, apart, held, there | ⟨fills, rest⟩⟩
  · exact Or.inl pending
  · exact Or.inr ⟨place, apart, held, Or.inl there⟩
  · exact Or.inr ⟨place, apart, held, Or.inr ⟨filling fills, rest⟩⟩

/-- The slot of an inserted record was free. -/
theorem placeRecord_free {h h' : TableHandler} (coherent : h.Coherent) {job job' : Table.FlushJob}
    {key : String} {packed : Bytes} (done : Table.placeRecord h job key packed = .ok (h', job')) :
    ∃ slot, (∀ payload, ((job.pageId, slot), payload) ∉ h.contents) ∧
      (packed ≠ [] → ((job.pageId, slot), packed) ∈ h'.contents) := by
  unfold Table.placeRecord at done
  split at done
  · cases done
  · rename_i page loaded
    split at done
    · cases done
    · rename_i slot page' inserted
      cases done
      have seen := view_of_cached loaded
      obtain ⟨_, seen', shape, same⟩ := coherent.formed.readable job.pageId
        (coherent.formed.loaded job.pageId page loaded)
      rw [seen, Option.some.injEq] at seen'
      subst seen'
      refine ⟨slot, fun payload member => ?_, fun nonempty => ?_⟩
      · obtain ⟨held, seen', record⟩ := coherent.formed.mem_contents.mp member
        rw [seen, Option.some.injEq] at seen'
        subst seen'
        have inside := Page.recordAt_lt record
        have nonempty : packed ≠ [] := by
          rintro rfl
          unfold Page.insertRecord at inserted
          rw [List.length_nil, if_pos rfl] at inserted
          cases inserted
        obtain ⟨_, _, next, _⟩ := shape.records_insert nonempty inserted
        dsimp only at inside
        omega
      · obtain ⟨shape', same', _, records⟩ := shape.records_insert nonempty inserted
        have formed' := coherent.formed.cachePage
          (coherent.formed.loaded job.pageId page loaded) shape' (same'.trans same)
        rw [formed'.mem_contents]
        refine ⟨page', h.view_cachePage_self _ _, ?_⟩
        rw [← Page.mem_records, records]
        exact List.mem_append_right _ List.mem_cons_self

/-- What a step on the pages does to the file, and to the records that the flush has placed. -/
structure Files (kind : Bytes → Prop) (taken : List (Nat × Nat)) (h h' : TableHandler)
    (task' : Task) : Prop where
  ahead : h'.Ahead kind
  saved : ∃ more, h'.saved = h.saved ++ more ∧ ∀ record ∈ more, kind record.2
  filing : task'.Filing taken h'

section Fill

variable {kind : Bytes → Prop} {taken : List (Nat × Nat)} {h h' : TableHandler} {synced : File}
  {task : Task}

/-- Nothing happens to the file. -/
theorem Files.same (ahead : h.Ahead kind) {task' : Task} (filing : task'.Filing taken h) :
    Files kind taken h h task' :=
  ⟨ahead, ⟨[], (List.append_nil _).symm, fun _ member => by cases member⟩, filing⟩

theorem Files.failed (ahead : h.Ahead kind) : Files kind taken h h (task.move .failed) :=
  Files.same ahead (filing_of_done (Or.inl rfl) taken h)

/-- The flush has come to a page that was allocated for it. -/
theorem Files.allocated (ahead : h.Ahead kind) (filing : task.Filing taken h)
    (running : task.phase.running) (clean : ¬ task.phase.filling) (before : task.phase.ahead)
    {pageId : Nat} (done : h.allocatePage = .ok (pageId, h')) {next : Phase}
    (after : next.ahead ∧ ¬ next.closed ∧ next ≠ .checking ∧ next ≠ .closing) :
    Files kind taken h h' (task.onPage pageId next) := by
  obtain ⟨ahead', pages, saved⟩ := ahead.allocatePage done
  obtain ⟨grows, _⟩ := ahead.coherent.allocatePage done
  refine ⟨ahead', ⟨[], by rw [saved, List.append_nil], fun _ member => by cases member⟩, ?_⟩
  refine ⟨fun _ => pages, fun _ record member => ?_, fun _ => filing.pending before, ?_,
    fun closed => absurd closed after.2.1⟩
  · exact (filing.apart running record member).still grows clean rfl
  · rintro (checking | closing)
    · exact absurd checking after.2.2.1
    · exact absurd closing after.2.2.2

/-- The flush has got the object of its page. -/
theorem Files.read (ahead : h.Ahead kind) (filing : task.Filing taken h)
    (running : task.phase.running) (clean : ¬ task.phase.filling)
    (before : task.phase.ahead ∧ task.phase.onPage) {page : Page}
    (done : h.readPage task.job.pageId = .ok (page, h')) {task' : Task}
    (records : task'.records = task.records) (same : task'.job.records = task.job.records)
    (here : task'.job.pageId = task.job.pageId) (after : ¬ task'.phase.closed) :
    Files kind taken h h' task' := by
  have loads := ahead.coherent.loads done
  refine ⟨ahead.loads loads,
    ⟨[], by rw [saved_congr loads.file, List.append_nil], fun _ member => by cases member⟩, ?_⟩
  have pending : task'.job.records ≠ [] := by
    rw [same]
    exact filing.pending before.1
  refine ⟨fun _ => ?_, fun _ record member => ?_, fun _ => pending, fun _ => Or.inl pending,
    fun closed => absurd closed after⟩
  · rw [loads.totalPages, here]
    exact filing.last before.2
  · rw [records] at member
    exact (filing.apart running record member).still loads.grows clean same

/-- The current page has been written. -/
theorem Files.written (ahead : h.Ahead kind) (filing : task.Filing taken h)
    (running : task.phase.running) (on : task.phase.onPage)
    (done : Table.writeDirty h task.job = .ok h') {next : Phase}
    (pending : next.ahead → task.job.records ≠ [])
    (after : next ≠ .checking ∧ next ≠ .closing) (dirty : next.closed → task.job.dirty = true) :
    Files kind taken h h' (task.move next) := by
  obtain ⟨ahead', pages, saved, clean⟩ := ahead.writeDirty (filing.last on) done
  refine ⟨ahead', saved, ⟨fun _ => pages.trans (filing.last on), fun _ record member => ?_, pending,
    ?_, fun closed => clean (dirty closed)⟩⟩
  · exact (filing.apart running record member).written ahead.coherent done rfl
  · rintro (checking | closing)
    · exact absurd checking after.1
    · exact absurd closing after.2

/-- One record has been put into the current page. -/
theorem Files.inserted (ahead : h.Ahead kind) (sound : task.Sound h synced)
    (filing : task.Filing taken h) (inserting : task.phase = .inserting)
    (inside : ∀ place ∈ taken, ∃ payload, (place, payload) ∈ h.contents)
    (fresh : ∀ record ∈ task.records, kind record.2) {key : String} {packed : Bytes}
    {rest : List (String × Bytes)} (pending : task.job.records = (key, packed) :: rest)
    {job : Table.FlushJob} (done : Table.placeRecord h task.job key packed = .ok (h', job)) :
    Files kind taken h h' { task with phase := .checking, job := { job with records := rest } } := by
  have head := sound.pending (key, packed) (by rw [pending]; exact List.mem_cons_self)
  obtain ⟨ahead', file⟩ := ahead.placeRecord head.2 (fresh _ head.1) done
  obtain ⟨grows, pageId, dirty, _⟩ := ahead.coherent.placeRecord head.2 done
  obtain ⟨slot, free, placed⟩ := placeRecord_free ahead.coherent done
  have running : task.phase.running := by
    rw [inserting]
    decide
  have filling : Phase.filling .checking := by decide
  have total : h'.totalPages = h.totalPages := by
    rw [totalPages, totalPages, file]
  refine ⟨ahead', ⟨[], by rw [saved_congr file, List.append_nil], fun _ member => by cases member⟩,
    ?_⟩
  refine ⟨fun _ => ?_, fun _ record member => ?_, fun ahead => ?_, fun _ => Or.inr dirty,
    fun closed => ?_⟩
  · show h'.totalPages = job.pageId + 1
    rw [total, pageId]
    exact filing.last (by rw [inserting]; decide)
  · rcases filing.apart running record member with waiting | ⟨place, apart, held, there⟩
    · rw [pending] at waiting
      rcases List.mem_cons.mp waiting with rfl | later
      · right
        refine ⟨(task.job.pageId, slot), fun old => ?_, placed head.2,
          Or.inr ⟨filling, dirty, pageId.symm⟩⟩
        obtain ⟨payload, taken_there⟩ := inside _ old
        exact free payload taken_there
      · exact Or.inl later
    · refine Or.inr ⟨place, apart, grows.holds _ held, there.imp (grows.onFile place record.2) ?_⟩
      exact fun old => ⟨filling, dirty, old.2.2.trans pageId.symm⟩
  · exact absurd (show Phase.ahead .checking from ahead) (by decide)
  · exact absurd (show Phase.closed .checking from closed) (by decide)

/-- The flush goes on without touching the file. -/
theorem Filing.move (filing : task.Filing taken h) (running : task.phase.running) {next : Phase}
    (filling : task.phase.filling → next.filling) (last : next.onPage → task.phase.onPage)
    (pending : next.ahead → task.job.records ≠ [])
    (dirty : next = .checking ∨ next = .closing → task.job.records ≠ [] ∨ task.job.dirty = true)
    (after : next.closed → task.phase.closed) : (task.move next).Filing taken h :=
  ⟨fun on => filing.last (last on),
    fun _ record member => (filing.apart running record member).move filling, pending, dirty,
    fun closed => filing.clean (after closed)⟩

/-- One step on the pages adds to the file at most records of the flush, at its end. -/
theorem Filing.fill (filing : task.Filing taken h) (ahead : h.Ahead kind)
    (sound : task.Sound h synced)
    (inside : ∀ place ∈ taken, ∃ payload, (place, payload) ∈ h.contents)
    (fresh : ∀ record ∈ task.records, kind record.2) :
    Files kind taken h (task.fill h).1 (task.fill h).2 := by
  have same : Files kind taken h h task := Files.same ahead filing
  have failed : Files kind taken h h (task.move .failed) := Files.failed ahead
  have running (phase : Phase) (here : task.phase = phase) (on : phase.running) :
      task.phase.running := by
    rw [here]
    exact on
  cases phase : task.phase with
  | sizing =>
      have on := running _ phase (by decide)
      have pending := filing.pending (by rw [phase]; decide)
      have clean : ¬ task.phase.filling := by rw [phase]; decide
      simp only [Task.fill, phase]
      split
      · exact Files.same ahead (filing.move on (fun filling => absurd filling clean)
          (fun on => absurd on (by decide)) (fun _ => pending) (fun here => absurd here (by decide))
          fun closed => absurd closed (by decide))
      · rename_i nonempty
        have here : ¬ (Phase.opening = .checking ∨ Phase.opening = .closing) := by decide
        refine Files.same ahead ⟨fun _ => ?_, fun _ record member => ?_, fun _ => pending,
          fun at_page => absurd at_page here,
          fun closed => absurd (show Phase.closed .opening from closed) (by decide)⟩
        · show h.totalPages = h.totalPages - 1 + 1
          omega
        · exact (filing.apart on record member).still (Grows.refl ahead.coherent) clean rfl
  | allocating =>
      have on := running _ phase (by decide)
      have clean : ¬ task.phase.filling := by rw [phase]; decide
      have before : task.phase.ahead := by rw [phase]; decide
      simp only [Task.fill, phase]
      cases done : h.allocatePage with
      | error e => exact failed
      | ok result => exact Files.allocated ahead filing on clean before done (by decide)
  | opening =>
      have on := running _ phase (by decide)
      have clean : ¬ task.phase.filling := by rw [phase]; decide
      have before : task.phase.ahead ∧ task.phase.onPage := by rw [phase]; decide
      simp only [Task.fill, phase]
      cases done : h.readPage task.job.pageId with
      | error e => exact failed
      | ok result =>
          exact Files.read ahead filing on clean before done rfl rfl rfl
            (by decide : ¬ Phase.closed .checking)
  | checking =>
      have on := running _ phase (by decide)
      have page : task.phase.onPage := by rw [phase]; decide
      have next (next : Phase) (fills : next.filling ∧ ¬ next.closed)
          (pending : next.ahead → task.job.records ≠ [])
          (dirty : next = .checking ∨ next = .closing →
            task.job.records ≠ [] ∨ task.job.dirty = true) :
          Files kind taken h h (task.move next) :=
        Files.same ahead (filing.move on (fun _ => fills.1) (fun _ => page) pending dirty
          fun closed => absurd closed fills.2)
      simp only [Task.fill, phase]
      cases pending : task.job.records with
      | nil =>
          exact next .closing (by decide) (fun ahead => absurd ahead (by decide))
            fun _ => filing.dirty (Or.inl phase)
      | cons record rest =>
          have more : task.job.records ≠ [] := by
            rw [pending]
            exact List.cons_ne_nil _ _
          obtain ⟨page, loaded⟩ := sound.loaded (by rw [phase]; decide)
          rw [loaded]
          dsimp only
          split
          · exact next .inserting (by decide) (fun _ => more) fun _ => Or.inl more
          · exact next .saving (by decide) (fun _ => more) fun _ => Or.inl more
  | saving =>
      have on := running _ phase (by decide)
      have pending := filing.pending (by rw [phase]; decide)
      simp only [Task.fill, phase]
      cases done : Table.writeDirty h task.job with
      | error e => exact failed
      | ok h' =>
          exact Files.written ahead filing on (by rw [phase]; decide) done (fun _ => pending)
            (by decide) fun closed => absurd closed (by decide)
  | growing =>
      have on := running _ phase (by decide)
      have clean : ¬ task.phase.filling := by rw [phase]; decide
      have before : task.phase.ahead := by rw [phase]; decide
      simp only [Task.fill, phase]
      cases done : h.allocatePage with
      | error e => exact failed
      | ok result => exact Files.allocated ahead filing on clean before done (by decide)
  | reopening =>
      have on := running _ phase (by decide)
      have clean : ¬ task.phase.filling := by rw [phase]; decide
      have before : task.phase.ahead ∧ task.phase.onPage := by rw [phase]; decide
      simp only [Task.fill, phase]
      cases done : h.readPage task.job.pageId with
      | error e => exact failed
      | ok result =>
          exact Files.read ahead filing on clean before done rfl rfl rfl
            (by decide : ¬ Phase.closed .inserting)
  | inserting =>
      simp only [Task.fill, phase]
      cases pending : task.job.records with
      | nil => exact absurd pending (filing.pending (by rw [phase]; decide))
      | cons record rest =>
          dsimp only
          cases done : Table.placeRecord h task.job record.1 record.2 with
          | error e => exact failed
          | ok result => exact Files.inserted ahead sound filing phase inside fresh pending done
  | closing =>
      have on := running _ phase (by decide)
      have rest := sound.rest (by rw [phase]; decide)
      simp only [Task.fill, phase]
      cases done : Table.writeDirty h task.job with
      | error e => exact failed
      | ok h' =>
          refine Files.written ahead filing on (by rw [phase]; decide) done
            (fun ahead => absurd ahead (by decide)) (by decide) fun _ => ?_
          exact (filing.dirty (Or.inr phase)).resolve_left fun pending => pending rest
  | queued => simpa only [Task.fill, phase] using same
  | dropping => simpa only [Task.fill, phase] using same
  | indexing => simpa only [Task.fill, phase] using same
  | syncing => simpa only [Task.fill, phase] using same
  | marking => simpa only [Task.fill, phase] using same
  | clearing => simpa only [Task.fill, phase] using same
  | finished => simpa only [Task.fill, phase] using same
  | failed => simpa only [Task.fill, phase] using same

end Fill

end Task

end CachyDb
