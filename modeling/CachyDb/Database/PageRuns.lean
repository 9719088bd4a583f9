import CachyDb.Database.PageFit
import CachyDb.Lib.Transition

set_option autoImplicit false

/-! Writes whose records fit leave memtables that can be flushed. -/

namespace CachyDb.Router

open ByteString Database

def MemFits (memtable : MemTable String Bytes) : Prop :=
  ∀ record ∈ memtable.entries, PageSized record.2

structure TableFits (t : Table) : Prop where
  active : MemFits t.active
  immutable : ∀ memtable, t.immutable = some memtable → MemFits memtable

/-- The memtables hold records that fit only, and the cache does not contradict itself. -/
structure Good (r : Router) : Prop where
  fits : ∀ name t, r.tables.lookup name = some t → TableFits t
  formed : r.cache.WellFormed

/-- Whatever else happens leaves the router in this order. -/
structure Tidy (others : Surroundings) : Prop extends Consistent others where
  good_run : ∀ r, Good r → Good (others.run r)
  good_awaitFlush : ∀ r, Good r → Good (others.awaitFlush r).2

section

variable {json : Json} {others : Surroundings} {r : Router} {t : Table} {name key : String}
  {value : Value} {packed : Bytes}

theorem memFits_empty : MemFits MemTable.empty := fun record member => (by cases member)

theorem MemFits.insert {memtable : MemTable String Bytes} (fits : MemFits memtable)
    (sized : PageSized packed) : MemFits (memtable.insert key packed) := by
  intro record member
  rw [MemTable.entries_insert] at member
  rcases SortedEntries.mem_insertEntry member with rfl | old
  · exact sized
  · exact fits record old

theorem init_tableFits (file : File) : TableFits (Table.init file) :=
  ⟨memFits_empty, fun _ none_there => (by cases none_there)⟩

theorem TableFits.insert (fits : TableFits t) (sized : PageSized packed) :
    TableFits (t.insert key packed) :=
  ⟨fits.active.insert sized, fits.immutable⟩

theorem TableFits.addTxIds (fits : TableFits t) (txIds : List Nat) : TableFits (t.addTxIds txIds) :=
  ⟨fits.active, fits.immutable⟩

theorem TableFits.swap (fits : TableFits t) : TableFits t.swap :=
  ⟨memFits_empty, fun _ same => Option.some.inj same ▸ fits.active⟩

/-- A lookup leaves the memtables alone. -/
theorem TableFits.find (fits : TableFits t) (json : Json) (key : String) :
    TableFits (t.find json key).2 := by
  unfold Table.find
  split
  · exact fits
  · split
    · exact fits
    · dsimp only
      unfold Table.readFromDisk Table.readFromDisk.fallback
      split
      · exact fits
      · split
        · exact ⟨fits.active, fits.immutable⟩
        · split
          · exact ⟨fits.active, fits.immutable⟩
          · exact ⟨fits.active, fits.immutable⟩

theorem Good.putTable (good : Good r) (fits : TableFits t) (name : String) :
    Good (r.putTable name t) := by
  refine ⟨fun other t' there => ?_, good.formed⟩
  rw [tables_putTable] at there
  by_cases same : other = name
  · subst same
    rw [AList.lookup_insert, Option.some.injEq] at there
    exact there ▸ fits
  · rw [AList.lookup_insert_ne same] at there
    exact good.fits other t' there

theorem Good.state (good : Good r) (name : String) :
    TableFits (r.getTableState name).1 ∧ Good (r.getTableState name).2 := by
  unfold getTableState
  cases there : r.tables.lookup name with
  | none =>
      have fits := init_tableFits (r.tableFiles name)
      exact ⟨fits, good.putTable fits name⟩
  | some t => exact ⟨good.fits name t there, good⟩

theorem Good.putCache (good : Good r) (name key : String) (value : Value) :
    Good (r.putCache name key value).2 := by
  refine ⟨?_, (putCache_formed good.formed name key value).2⟩
  unfold Router.putCache
  split
  · exact good.fits
  · exact good.fits

theorem Good.withWal (good : Good r) (wal : Wal) : Good { r with wal := wal } :=
  ⟨good.fits, good.formed⟩

theorem Good.setLocked (good : Good r) (sized : PageSized packed) (name key : String)
    (value : Value) : Good (r.setLocked name key value packed).2 := by
  obtain ⟨fits, good'⟩ := good.state name
  have inserted : TableFits ((r.getTableState name).1.insert key packed) := fits.insert sized
  have stored := ((good'.withWal ((r.getTableState name).2.wal.appendToBuffer packed).2).putTable
    (inserted.addTxIds [((r.getTableState name).2.wal.appendToBuffer packed).1]) name).putCache
      name key value
  unfold Router.setLocked
  dsimp only
  split
  · rename_i failed
    rw [failed] at stored
    exact stored
  · rename_i done
    rw [done] at stored
    exact stored

theorem Good.swapLocked (good : Good r) (name : String) : Good (r.swapLocked name).2 := by
  obtain ⟨fits, good'⟩ := good.state name
  unfold Router.swapLocked
  dsimp only
  split
  · exact good'.putTable fits.swap name
  · exact good'

theorem Good.getRawManifest (good : Good r) (json : Json) (name key : String) :
    Good (r.getRawManifest json name key).2 := by
  obtain ⟨fits, good'⟩ := good.state name
  have found := good'.putTable (fits.find json key) name
  unfold Router.getRawManifest
  dsimp only
  split <;> exact found

/-- A record that fits, if it can be packed at all. -/
def Harmless (json : Json) (record : String × Value) : Prop :=
  ∀ packed, packRecord json record.1 record.2 = .ok packed → PageSized packed

theorem Sized.harmless {record : String × Value} (sized : Sized json record) :
    Harmless json record :=
  fun _ packs => (sized_iff packs).mpr sized

variable {c : Caller}

theorem Good.setInternal (tidy : Tidy others) (good : Good c.router)
    (harmless : Harmless json (key, value)) (name : String) :
    Good (setInternal json others c name key value).2.router := by
  unfold Router.setInternal
  split
  · exact good
  · split
    · exact good
    · rename_i packs
      have entered := (tidy.good_run _ good).setLocked (harmless _ packs) name key value
      split
      · rename_i locked
        rw [locked] at entered
        exact entered
      · rename_i locked
        rw [locked] at entered
        exact entered
      · rename_i locked
        rw [locked] at entered
        have waited := tidy.good_awaitFlush _ entered
        split
        · rename_i awaited
          rw [awaited] at waited
          exact waited
        · rename_i awaited
          rw [awaited] at waited
          exact waited.swapLocked name

theorem Good.setEach (tidy : Tidy others) {records : List (String × Value)}
    (harmless : ∀ record ∈ records, Harmless json record) {c : Caller} (good : Good c.router)
    (name : String) : Good (setEach json others name c records).2.router := by
  induction records generalizing c with
  | nil => exact good
  | cons record rest ih =>
      have first := good.setInternal tidy (harmless record List.mem_cons_self) name
      unfold Router.setEach
      split
      · rename_i failed
        rw [failed] at first
        exact first
      · rename_i done
        rw [done] at first
        exact ih (fun other member => harmless other (List.mem_cons_of_mem _ member)) first

theorem Good.cleanUp (tidy : Tidy others) (good : Good c.router)
    (fits : ∀ i < oldChunks json c.router name key, Sized json (chunkKey key i, .null)) :
    Good (cleanUp json others c name key).router := by
  have looked := good.getRawManifest json name key
  unfold oldChunks at fits
  unfold Router.cleanUp
  dsimp only
  split
  · exact looked
  · rename_i count old
    rw [old] at fits
    apply Good.setEach tidy _ looked
    intro record member
    obtain ⟨i, below, rfl⟩ := mem_tombstones.mp member
    exact (fits i below).harmless

theorem Good.writeLarge (tidy : Tidy others) (good : Good c.router) {codec : Codec} {text : Bytes}
    (fits : LargeFits json codec key text) (name : String) (value : Value) :
    Good (writeLarge json codec others c name key value text).2.router := by
  have chunked := Good.setEach tidy (fun record member => (fits.1 record member).harmless) good name
  unfold Router.writeLarge
  dsimp only
  split
  · rename_i failed
    rw [failed] at chunked
    exact chunked
  · rename_i done
    rw [done] at chunked
    have stored := chunked.setInternal tidy fits.2.harmless name
    split
    · rename_i failed
      rw [failed] at stored
      exact stored
    · rename_i done
      rw [done] at stored
      exact (tidy.good_run _ stored).putCache name key value

/-- A large value that is written as it is, when its chunks cannot be, has to fit as well. -/
def FallbackFits (json : Json) (others : Surroundings) (key : String) (value : Value) : Prop :=
  Succeeds others ∨ ((largeText json key value).isSome → Sized json (key, value))

theorem Good.set (tidy : Tidy others) (good : Good r) {codec : Codec}
    (manifests : ∀ count size, (json.dumps (manifest count size)).isSome)
    (fitting : (Write.set key value).Fitting json codec r name)
    (fallback : FallbackFits json others key value) :
    Good (Router.set json codec others r name key value).2.router := by
  obtain ⟨old, last⟩ := fitting
  unfold Router.set
  split
  · exact good
  · rename_i passed
    obtain ⟨named, keyed⟩ := not_or.mp passed
    cases large : largeText json key value with
    | none =>
        rw [large] at last
        dsimp only
        split
        · exact Good.setInternal tidy good last.harmless name
        · rename_i plain
          have cleaned : Good (Router.cleanUp json others ⟨r, []⟩ name key).router :=
            Good.cleanUp tidy good (old (Bool.eq_false_of_not_eq_true plain))
          exact Good.setInternal tidy cleaned last.harmless name
    | some text =>
        rw [large] at last
        dsimp only at last ⊢
        have plain := largeText_plain large
        have keyFits := last.2.keyFits
        have cleaned : Good (Router.cleanUp json others ⟨r, []⟩ name key).router :=
          Good.cleanUp tidy good (old plain)
        have written := cleaned.writeLarge tidy last name value
        unfold setLarge
        split
        · rename_i done
          rw [done] at written
          exact written
        · rename_i failed
          have fits : Sized json (key, value) := by
            rcases fallback with succeeds | fits
            · have consistent := tidy.toConsistent
              rcases @cleanUp_calm json others ⟨r, []⟩ name consistent succeeds named key keyFits
                good.formed (fun payload member => (by cases member)) with
                ⟨_, clean, formed⟩ | ⟨⟨i, below, misfit⟩, _⟩
              · rcases writeLarge_calm consistent succeeds codec named keyed keyFits manifests formed
                  clean value text with ⟨_, ok, _⟩ | ⟨misfit, _⟩
                · rw [failed] at ok
                  cases ok
                · exact absurd last misfit
              · exact absurd (old plain i below) misfit
            · exact fits (by rw [large]; rfl)
          rw [failed] at written
          exact Good.setInternal tidy written fits.harmless name

theorem Good.insertRecords (good : Good r) {records : List (String × Value)}
    {packedRecords : List (String × Bytes)} (fits : ∀ record ∈ packedRecords, PageSized record.2)
    (name : String) : Good (r.insertRecords name records packedRecords).2 := by
  induction records generalizing r packedRecords with
  | nil => exact good
  | cons record rest ih =>
      cases packedRecords with
      | nil => exact good
      | cons packedRecord packedRest =>
          obtain ⟨key, value⟩ := record
          obtain ⟨key', packed⟩ := packedRecord
          unfold Router.insertRecords
          split
          · exact good
          · obtain ⟨table, state⟩ := good.state name
            have sized : PageSized packed := fits _ List.mem_cons_self
            have inserted : TableFits ((r.getTableState name).1.insert key' packed) :=
              table.insert sized
            have stored := (state.putTable inserted name).putCache name key' value
            dsimp only
            split
            · rename_i failed
              rw [failed] at stored
              exact stored
            · rename_i done
              rw [done] at stored
              exact ih stored fun record member => fits record (List.mem_cons_of_mem _ member)

theorem packRecords_sized {records : List (String × Value)} {packedRecords : List (String × Bytes)}
    (packs : packRecords json records = .ok packedRecords)
    (fits : ∀ record ∈ records, Sized json record) :
    ∀ record ∈ packedRecords, PageSized record.2 := by
  intro packed member
  obtain ⟨record, inside, _, result⟩ := packRecords_mem packs member
  exact (fits record inside).harmless packed.2 result

theorem Good.setManyLocked (good : Good r) {packedRecords : List (String × Bytes)}
    (sized : ∀ record ∈ packedRecords, PageSized record.2) (name : String)
    (records : List (String × Value)) (txIds : List Nat) :
    Good (r.setManyLocked name records packedRecords txIds).2 := by
  have inserted : Good ((r.getTableState name).2.insertRecords name records packedRecords).2 :=
    Good.insertRecords (good.state name).2 sized name
  unfold Router.setManyLocked
  split
  · rename_i failed
    rw [failed] at inserted
    exact inserted
  · rename_i done
    rw [done] at inserted
    obtain ⟨fits, state⟩ := inserted.state name
    exact state.putTable (fits.addTxIds txIds) name

theorem Good.setMany (tidy : Tidy others) (good : Good r) {records : List (String × Value)}
    (fits : ∀ record ∈ records, Sized json record) (name : String) :
    Good (Router.setMany json others r name records).2.router := by
  unfold Router.setMany
  split
  · exact good
  · split
    · exact good
    · rename_i packedRecords packs
      have logged := tidy.good_run _ ((tidy.good_run _ good).withWal
        ((others.run r).wal.appendManyToBuffer (packedRecords.map Prod.snd)).2)
      have inserted := logged.setManyLocked (packRecords_sized packs fits) name records
        ((others.run r).wal.appendManyToBuffer (packedRecords.map Prod.snd)).1
      dsimp only
      split
      · rename_i locked
        rw [locked] at inserted
        exact inserted
      · rename_i locked
        rw [locked] at inserted
        exact inserted
      · rename_i locked
        rw [locked] at inserted
        have waited := tidy.good_awaitFlush _ inserted
        split
        · rename_i awaited
          rw [awaited] at waited
          exact waited
        · rename_i awaited
          rw [awaited] at waited
          exact waited.swapLocked name

end

section

open TableHandler Table

/-- Not a `PageOverflowError`. -/
def NoOverflow {Result : Type} (outcome : Except TableHandler.Error Result) : Prop :=
  outcome ≠ .error (.page .overflow)

theorem noOverflow_error {Result Result' : Type} {e : TableHandler.Error}
    (quiet : NoOverflow (.error e : Except TableHandler.Error Result)) :
    NoOverflow (.error e : Except TableHandler.Error Result') :=
  fun same => quiet (congrArg Except.error (Except.error.inj same))

theorem noOverflow_ok {Result : Type} (result : Result) :
    NoOverflow (.ok result : Except TableHandler.Error Result) :=
  fun same => (by cases same)

theorem store_noOverflow (h : TableHandler) (page : Page) : NoOverflow (h.store page) := by
  unfold NoOverflow TableHandler.store Page.toBytes
  split_ifs <;> simp

theorem allocatePage_noOverflow (h : TableHandler) : NoOverflow h.allocatePage := by
  have stores := store_noOverflow h (Page.init h.totalPages)
  unfold TableHandler.allocatePage
  split
  · rename_i failed
    rw [failed] at stores
    exact noOverflow_error stores
  · exact noOverflow_ok _

theorem fromBytes_noOverflow (raw : Bytes) : Page.fromBytes raw ≠ .error .overflow := by
  unfold Page.fromBytes
  dsimp only
  split_ifs <;> simp

theorem readPage_noOverflow (h : TableHandler) (pageId : Nat) : NoOverflow (h.readPage pageId) := by
  have reads := fromBytes_noOverflow (h.file.read (pageId * Page.pageSize) Page.pageSize)
  unfold NoOverflow TableHandler.readPage TableHandler.loadPage
  cases h.pageCache pageId with
  | some page => simp
  | none =>
      dsimp only
      split_ifs
      · simp
      · simp
      · cases read : Page.fromBytes (h.file.read (pageId * Page.pageSize) Page.pageSize) with
        | error e =>
            rw [read] at reads
            simpa using reads
        | ok page => simp

theorem writeDirty_noOverflow (h : TableHandler) (job : FlushJob) : NoOverflow (writeDirty h job) := by
  unfold writeDirty
  split
  · split
    · exact fun same => (by cases same)
    · rename_i page _
      have stores := store_noOverflow h page
      unfold TableHandler.writePage
      split
      · exact fun same => (by cases same)
      · exact stores
  · exact noOverflow_ok _

theorem openLastPage_noOverflow (h : TableHandler) : NoOverflow (openLastPage h) := by
  have allocates := allocatePage_noOverflow h
  unfold openLastPage
  dsimp only
  split
  · rename_i e failed
    split at failed
    · rw [failed] at allocates
      exact noOverflow_error allocates
    · cases failed
  · rename_i pageId h' _
    have reads := readPage_noOverflow h' pageId
    split
    · rename_i failed
      rw [failed] at reads
      exact noOverflow_error reads
    · exact noOverflow_ok _

theorem makeSpace_noOverflow (h : TableHandler) (job : FlushJob) (size : Nat) :
    NoOverflow (makeSpace h job size) := by
  unfold makeSpace
  split
  · exact fun same => (by cases same)
  · split
    · exact noOverflow_ok _
    · have writes := writeDirty_noOverflow h job
      split
      · rename_i failed
        rw [failed] at writes
        exact noOverflow_error writes
      · rename_i h₁ _
        have allocates := allocatePage_noOverflow h₁
        split
        · rename_i failed
          rw [failed] at allocates
          exact noOverflow_error allocates
        · rename_i pageId h₂ _
          have reads := readPage_noOverflow h₂ pageId
          split
          · rename_i failed
            rw [failed] at reads
            exact noOverflow_error reads
          · exact noOverflow_ok _

theorem hasSpaceFor_init {pageId size : Nat} (small : size ≤ maxRecordSize) :
    (Page.init pageId).hasSpaceFor size = true := by
  have fits : Page.headerSize + (Page.slotSize + size) ≤ Page.pageSize := by
    simp only [maxRecordSize, Page.pageSize, Page.headerSize, Page.slotSize] at *
    omega
  exact decide_eq_true fits

/-- A page that was allocated has space for each record that fits. -/
theorem allocatePage_space {h h' : TableHandler} (formed : h.WellFormed) {pageId : Nat}
    (done : h.allocatePage = .ok (pageId, h')) :
    ∃ page, h'.pageCache pageId = some page ∧
      ∀ size ≤ maxRecordSize, page.hasSpaceFor size = true := by
  obtain ⟨page, cached, lower, upper⟩ := allocatePage_empty formed done
  refine ⟨page, cached, fun size small => ?_⟩
  rw [Page.hasSpaceFor, lower, upper]
  exact @hasSpaceFor_init h.totalPages size small

theorem makeSpace_space {h h' : TableHandler} {job job' : FlushJob} (opened : Opened h job)
    {size : Nat} (small : size ≤ maxRecordSize) (done : makeSpace h job size = .ok (h', job')) :
    ∃ page, h'.pageCache job'.pageId = some page ∧ page.hasSpaceFor size = true := by
  obtain ⟨page, loaded⟩ := opened.loaded
  unfold makeSpace at done
  rw [loaded] at done
  dsimp only at done
  split at done
  · rename_i space
    cases done
    exact ⟨page, loaded, space⟩
  · split at done
    · cases done
    · rename_i written
      obtain ⟨keeps, _⟩ := writeDirty_spec opened written
      split at done
      · cases done
      · rename_i allocated
        obtain ⟨fresh, cached, space⟩ := allocatePage_space keeps.formed allocated
        rw [readPage_loaded cached] at done
        cases done
        exact ⟨fresh, cached, space size small⟩

theorem placeRecord_noOverflow {h : TableHandler} {job : FlushJob} {page : Page}
    (loaded : h.pageCache job.pageId = some page) (key : String) {packed : Bytes}
    (space : page.hasSpaceFor packed.length = true) : NoOverflow (placeRecord h job key packed) := by
  unfold NoOverflow placeRecord Page.insertRecord
  rw [loaded]
  dsimp only
  rw [if_pos space]
  split_ifs <;> simp

theorem fillPages_noOverflow {records : List (String × Bytes)} {h : TableHandler} {job : FlushJob}
    (opened : Opened h job) (fits : ∀ record ∈ records, PageSized record.2) :
    NoOverflow (fillPages h job records) := by
  induction records generalizing h job with
  | nil => exact noOverflow_ok _
  | cons record rest ih =>
      obtain ⟨key, packed⟩ := record
      have small : packed.length ≤ maxRecordSize := fits _ List.mem_cons_self
      unfold fillPages flushRecord
      have spaces := makeSpace_noOverflow h job packed.length
      cases spaced : makeSpace h job packed.length with
      | error e =>
          rw [spaced] at spaces
          exact noOverflow_error spaces
      | ok turn =>
          obtain ⟨h₁, job₁⟩ := turn
          obtain ⟨_, opened₁, _⟩ := makeSpace_spec opened spaced
          obtain ⟨page, loaded, space⟩ := makeSpace_space opened small spaced
          have places := placeRecord_noOverflow loaded key space
          dsimp only
          cases placed : placeRecord h₁ job₁ key packed with
          | error e =>
              rw [placed] at places
              exact noOverflow_error places
          | ok turn =>
              obtain ⟨h₂, job₂⟩ := turn
              have nonempty : packed ≠ [] := by
                rintro rfl
                unfold placeRecord Page.insertRecord at placed
                rw [loaded] at placed
                cases placed
              obtain ⟨opened₂, _⟩ := placeRecord_spec opened₁ nonempty placed
              exact ih opened₂ fun record member => fits record (List.mem_cons_of_mem _ member)

/-- A flush never meets a record that is too large for a new page. -/
theorem flushPages_noOverflow {h : TableHandler} (formed : h.WellFormed)
    {records : List (String × Bytes)} (fits : ∀ record ∈ records, PageSized record.2) :
    NoOverflow (flushPages h records) := by
  have opens := openLastPage_noOverflow h
  unfold flushPages
  split
  · rename_i failed
    rw [failed] at opens
    exact noOverflow_error opens
  · rename_i pageId h₁ done
    obtain ⟨keeps, last, loaded, _⟩ := openLastPage_spec formed done
    have fills := fillPages_noOverflow
      (show Opened h₁ ⟨records, pageId, [], [], false⟩ from ⟨keeps.formed, last, loaded⟩) fits
    split
    · rename_i failed
      rw [failed] at fills
      exact noOverflow_error fills
    · rename_i h₂ job₂ _
      have writes := writeDirty_noOverflow h₂ job₂
      split
      · rename_i failed
        rw [failed] at writes
        exact noOverflow_error writes
      · exact noOverflow_ok _

/-- What was placed fits, on whatever page. -/
theorem placeRecord_sized {h h' : TableHandler} {job job' : FlushJob} (opened : Opened h job)
    {key : String} {packed : Bytes} (done : placeRecord h job key packed = .ok (h', job')) :
    packed ≠ [] ∧ PageSized packed := by
  obtain ⟨page, loaded⟩ := opened.loaded
  obtain ⟨_, formed, _⟩ := opened.page loaded
  unfold placeRecord at done
  rw [loaded] at done
  dsimp only at done
  cases inserted : page.insertRecord packed with
  | error e =>
      rw [inserted] at done
      cases done
  | ok turn =>
      unfold Page.insertRecord at inserted
      split_ifs at inserted with empty space
      have nonempty : packed ≠ [] := fun none_there => empty (by rw [none_there]; rfl)
      have fits : page.lowerOffset + (Page.slotSize + packed.length) ≤ page.upperOffset :=
        of_decide_eq_true space
      have directory := formed.directory
      have bound := formed.bound
      refine ⟨nonempty, ?_⟩
      simp only [PageSized, maxRecordSize, Page.pageSize, Page.headerSize, Page.slotSize] at *
      omega

theorem fillPages_sized {records : List (String × Bytes)} {h h' : TableHandler}
    {job job' : FlushJob} (opened : Opened h job) (done : fillPages h job records = .ok (h', job')) :
    ∀ record ∈ records, PageSized record.2 := by
  induction records generalizing h job with
  | nil => exact fun record member => (by cases member)
  | cons record rest ih =>
      obtain ⟨key, packed⟩ := record
      unfold fillPages flushRecord at done
      cases spaced : makeSpace h job packed.length with
      | error e =>
          rw [spaced] at done
          cases done
      | ok turn =>
          obtain ⟨h₁, job₁⟩ := turn
          obtain ⟨_, opened₁, _⟩ := makeSpace_spec opened spaced
          rw [spaced] at done
          dsimp only at done
          cases placed : placeRecord h₁ job₁ key packed with
          | error e =>
              rw [placed] at done
              cases done
          | ok turn =>
              obtain ⟨h₂, job₂⟩ := turn
              obtain ⟨nonempty, sized⟩ := placeRecord_sized opened₁ placed
              obtain ⟨opened₂, _⟩ := placeRecord_spec opened₁ nonempty placed
              rw [placed] at done
              exact List.forall_mem_cons.mpr ⟨sized, ih opened₂ done⟩

/-- A flush that succeeds has found no record that is too large. -/
theorem flushPages_sized {h : TableHandler} (formed : h.WellFormed)
    {records : List (String × Bytes)} {flushed : TableHandler × FlushJob}
    (done : flushPages h records = .ok flushed) : ∀ record ∈ records, PageSized record.2 := by
  unfold flushPages at done
  split at done
  · cases done
  · rename_i pageId h₁ opens
    obtain ⟨keeps, last, loaded, _⟩ := openLastPage_spec formed opens
    split at done
    · cases done
    · rename_i filled
      exact fillPages_sized ⟨keeps.formed, last, loaded⟩ filled

end

open Transition

/-- A write with its table and with what others do meanwhile. -/
structure Call where
  name : String
  write : Write
  others : Surroundings

def Call.perform (json : Json) (codec : Codec) (r : Router) (call : Call) :
    Except RouterError Unit × Caller :=
  call.write.perform json codec call.others r call.name

/-- What a write gives to the log and to the memtables fits, even where a flush fails. -/
def Call.Fits (json : Json) (codec : Codec) (r : Router) (call : Call) : Prop :=
  Tidy call.others ∧ call.write.Fitting json codec r call.name ∧
    match call.write with
    | .set key value => FallbackFits json call.others key value
    | .setMany _ => True

def CallStep (json : Json) (codec : Codec) (r : Router) (call : Call) (r' : Router) : Prop :=
  r' = (call.perform json codec r).2.router

theorem Good.call {json : Json} {codec : Codec} {r : Router}
    (manifests : ∀ count size, (json.dumps (manifest count size)).isSome) (good : Good r)
    {call : Call} (fits : call.Fits json codec r) : Good (call.perform json codec r).2.router := by
  obtain ⟨name, write, others⟩ := call
  obtain ⟨tidy, fitting, fallback⟩ := fits
  cases write with
  | set key value => exact good.set tidy manifests fitting fallback
  | setMany records => exact good.setMany tidy fitting name

/-- The records of a write that returns fit into pages exactly when the sizes of its key, of
its value or chunks, and of the deletions of old chunks say so. After such writes no flush
meets a record that is too large. -/
theorem writes_fit_iff (json : Json) (codec : Codec)
    (manifests : ∀ count size, (json.dumps (manifest count size)).isSome) :
    (∀ (r : Router) (call : Call), r.cache.WellFormed → Consistent call.others →
        Succeeds call.others → (call.perform json codec r).1 = .ok () →
      ((∀ payload ∈ (call.perform json codec r).2.written, PageSized payload) ↔
        call.write.Fitting json codec r call.name)) ∧
    ∀ (r r' : Router) (calls : List Call), Good r →
        Run (Guarded (CallStep json codec) fun r call => call.Fits json codec r) r calls r' →
      ∀ name t memtable, r'.tables.lookup name = some t → t.immutable = some memtable →
        ∀ h : TableHandler, h.WellFormed →
          Table.flushPages h memtable.entries ≠ .error (.page .overflow) := by
  constructor
  · rintro r ⟨name, write, others⟩ formed consistent succeeds accepted
    cases write with
    | set key value => exact set_fits_iff consistent succeeds formed manifests accepted
    | setMany records => exact setMany_fits_iff accepted
  · intro r r' calls good run name t memtable there flushed h formed
    have good' : Good r' := by
      apply run.preserves good
      rintro u call v before ⟨rfl, fits⟩
      exact before.call manifests fits
    exact flushPages_noOverflow formed ((good'.fits name t there).immutable memtable flushed)

/-- A router on an empty directory that flushes after each record. -/
def eagerRouter : Router :=
  Router.init ⟨0, [], ∅, none, FileSystem.empty, []⟩ (fun _ => File.empty) 1 1

def smallCall : Call := ⟨"t", .set "k" (.str "x"), alone⟩

/-- What waits for the flush of the table `t`. -/
def flushed (r : Router) : Option (MemTable String Bytes) :=
  (r.tables.lookup "t").bind (·.immutable)

theorem alone_tidy : Tidy alone :=
  ⟨⟨fun _ formed => formed, fun _ formed => formed⟩, fun _ good => good, fun _ good => good⟩

theorem eagerRouter_good : Good eagerRouter :=
  ⟨fun name t there => (by cases there), Cache.init_wellFormed 1⟩

theorem smallCall_fitting : smallCall.write.Fitting manifestJson sampleCodec eagerRouter "t" := by
  refine ⟨?_, ?_⟩
  · have none_there : oldChunks manifestJson eagerRouter "t" "k" = 0 := by decide +kernel
    rw [none_there]
    exact fun _ i below => absurd below (Nat.not_lt_zero i)
  · have small : largeText manifestJson "k" (.str "x") = none := by decide +kernel
    rw [small]
    exact ⟨_, rfl, by decide +kernel⟩

/-- One small value, whose memtable is flushed. -/
theorem writes_fit_iff_small :
    (∀ payload ∈ (smallCall.perform manifestJson sampleCodec eagerRouter).2.written,
      PageSized payload) ∧
      ∃ memtable,
        (smallCall.perform manifestJson sampleCodec eagerRouter).2.router.flushed = some memtable ∧
          Table.flushPages (TableHandler.openTable File.empty) memtable.entries ≠
            .error (.page .overflow) := by
  have accepted : (smallCall.perform manifestJson sampleCodec eagerRouter).1 = .ok () := by
    decide +kernel
  have waits : ((smallCall.perform manifestJson sampleCodec eagerRouter).2.router.flushed).isSome := by
    decide +kernel
  have succeeds : Succeeds alone := fun _ => rfl
  obtain ⟨each, runs⟩ := writes_fit_iff manifestJson sampleCodec fun _ _ => rfl
  constructor
  · exact (each eagerRouter smallCall eagerRouter_good.formed alone_tidy.toConsistent succeeds
      accepted).mpr smallCall_fitting
  · obtain ⟨memtable, flushed⟩ := Option.isSome_iff_exists.mp waits
    obtain ⟨t, there, immutable⟩ := Option.bind_eq_some_iff.mp flushed
    refine ⟨memtable, flushed, ?_⟩
    refine runs eagerRouter _ [smallCall] eagerRouter_good ?_ "t" t memtable there immutable _
      TableHandler.openTable_empty_wellFormed
    exact .cons ⟨rfl, alone_tidy, smallCall_fitting, Or.inl succeeds⟩ (.nil _)

def hugeCall : Call := ⟨"t", .setMany [("k", .str (String.ofList (List.replicate 5000 'x')))], alone⟩

set_option maxRecDepth 100000 in
/-- `set_many` takes a value for which no page is large enough, and its memtable is never
flushed. -/
theorem setMany_overflows :
    (hugeCall.perform manifestJson sampleCodec eagerRouter).1 = .ok () ∧
      (∃ payload ∈ (hugeCall.perform manifestJson sampleCodec eagerRouter).2.written,
        ¬ PageSized payload) ∧
      ∃ memtable,
        (hugeCall.perform manifestJson sampleCodec eagerRouter).2.router.flushed = some memtable ∧
          ∀ h : TableHandler, h.WellFormed →
            ∀ result, Table.flushPages h memtable.entries ≠ .ok result := by
  have accepted : (hugeCall.perform manifestJson sampleCodec eagerRouter).1 = .ok () := by
    decide +kernel
  have sizes : (hugeCall.perform manifestJson sampleCodec eagerRouter).2.written.map List.length =
      [5005] := by decide +kernel
  have waits : (hugeCall.perform manifestJson sampleCodec eagerRouter).2.router.flushed.map
      (fun memtable => memtable.entries.map fun record => record.2.length) = some [5005] := by
    decide +kernel
  have large (payload : Bytes) (size : payload.length = 5005) : ¬ PageSized payload := by
    rw [PageSized, size]
    decide
  refine ⟨accepted, ?_, ?_⟩
  · obtain ⟨payload, member, size⟩ := List.mem_map.mp (sizes ▸ List.mem_singleton_self 5005)
    exact ⟨payload, member, large payload size⟩
  · obtain ⟨memtable, flushed, entries⟩ := Option.map_eq_some_iff.mp waits
    refine ⟨memtable, flushed, fun h formed result done => ?_⟩
    obtain ⟨record, member, size⟩ := List.mem_map.mp (entries ▸ List.mem_singleton_self 5005)
    exact large record.2 size (flushPages_sized formed done record member)

end CachyDb.Router
