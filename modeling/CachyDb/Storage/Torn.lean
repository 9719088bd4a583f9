import CachyDb.Storage.Filling
import CachyDb.Storage.Rebuild

set_option autoImplicit false

/-! A process that dies in the middle of a page write. The last page of a table file is
written again in place, with a checksum over all of it. -/

namespace CachyDb.Table

open ByteString TableHandler

def Packs (json : Json) (record : String × Bytes) : Prop :=
  ∃ value, packRecord json record.1 value = .ok record.2

/-- Table files as successful flushes leave them, with lookups and new processes between
the flushes. -/
inductive Flushed (json : Json) : TableHandler → Prop
  | new : Flushed json (openTable File.empty)
  | flush {h h' : TableHandler} {records : List (String × Bytes)} {job : FlushJob} :
      Flushed json h → (∀ record ∈ records, Packs json record) →
        flushPages h records = .ok (h', job) → Flushed json h'
  | lookup {h h' : TableHandler} {pageId : Nat} {page : Page} :
      Flushed json h → h.readPage pageId = .ok (page, h') → Flushed json h'
  | restart {h : TableHandler} : Flushed json h → Flushed json (openTable h.file)

/-- A flush has filled `page` and is about to write it. -/
structure Interrupted (h : TableHandler) (records : List (String × Bytes)) (h' : TableHandler)
    (job : FlushJob) (page : Page) : Prop where
  reached : ∃ pageId h₀ front rest, openLastPage h = .ok (pageId, h₀) ∧ records = front ++ rest ∧
    fillPages h₀ ⟨records, pageId, [], [], false⟩ front = .ok (h', job)
  dirty : job.dirty = true
  loaded : h'.pageCache job.pageId = some page

/-- The bytes that `to_bytes` makes of the page. -/
def image (page : Page) : Bytes := page.sealed.read 0 page.sealed.size

/-- The file when the write of a page has got as far as `cut` bytes. -/
def crashed (h : TableHandler) (page : Page) (cut : Nat) : File :=
  h.file.write (page.pageId * Page.pageSize) ((image page).take cut)

/-- After a restart the index has every record that was the newest of its key before the
flush and is not overwritten by it, and a flush of records that fit succeeds. -/
structure Survives (h : TableHandler) (records : List (String × Bytes)) (file : File) : Prop where
  found : ∀ key record, newestIn h.contents key = some record → payloadDeletes record.2 = false →
    key ∉ records.map Prod.fst → (Table.init file).diskIndex.lookup key = some record.1 ∧
      record ∈ (Table.init file).handler.contents
  flushes : ∀ more, more ≠ [] → (∀ record ∈ more, Fits record) →
    (Table.init file).handler.totalPages + more.length < maxPages →
      ∃ h' job, flushPages (Table.init file).handler more = .ok (h', job)

/-- The torn page can be read, and its slots behind those of the old image are of no key
that the flush leaves alone. -/
def Harmless (h : TableHandler) (records : List (String × Bytes)) (newRaw oldRaw : Bytes)
    (cut : Nat) : Prop :=
  ∃ old page, Page.fromBytes oldRaw = .ok old ∧
    Page.fromBytes (torn newRaw oldRaw cut) = .ok page ∧
    ∀ slot payload key, old.slots.length ≤ slot → page.recordAt slot = some payload →
      payloadKey payload = some key → key ∉ records.map Prod.fst →
        ∀ record, newestIn h.contents key = some record → payloadDeletes record.2 = true

theorem packs_nonempty {json : Json} {record : String × Bytes} (packs : Packs json record) :
    record.2 ≠ [] := by
  obtain ⟨value, packed⟩ := packs
  exact packed_ne_nil packed

theorem flushPages_filling {h h' : TableHandler} {records : List (String × Bytes)} {job : FlushJob}
    (formed : h.WellFormed) (stored : AllStored h) (drafts : Drafts h)
    (nonempty : ∀ record ∈ records, record.2 ≠ []) (done : flushPages h records = .ok (h', job)) :
    h'.WellFormed ∧ AllStored h' ∧ Drafts h' ∧
      ∃ added, h'.contents = h.contents ++ added ∧ added.map Prod.snd = records.map Prod.snd := by
  unfold flushPages at done
  split at done
  · cases done
  · rename_i opens
    split at done
    · cases done
    · rename_i filled
      split at done
      · cases done
      · rename_i written
        cases done
        obtain ⟨added, filling, same⟩ :=
          (Filling.open_ formed stored drafts opens records).fill nonempty filled
        obtain ⟨keeps, _, all⟩ := writeDirty_spec filling.opened written
        refine ⟨keeps.formed, all filling.saved, filling.drafts.writeDirty filling.opened written,
          added, ?_, same⟩
        rw [keeps.contents, filling.contents, List.nil_append]

theorem Flushed.spec {json : Json} {h : TableHandler} (flushed : Flushed json h) :
    h.WellFormed ∧ AllStored h ∧ Drafts h := by
  induction flushed with
  | new =>
      exact ⟨openTable_empty_wellFormed, fun _ inside => absurd inside (Nat.not_lt_zero _),
        openTable_drafts _⟩
  | flush _ packs done ih =>
      obtain ⟨formed, stored, drafts⟩ := ih
      obtain ⟨formed', stored', drafts', _⟩ := flushPages_filling formed stored drafts
        (fun record member => packs_nonempty (packs record member)) done
      exact ⟨formed', stored', drafts'⟩
  | lookup _ read ih =>
      obtain ⟨formed, stored, drafts⟩ := ih
      obtain ⟨keeps, pages, _⟩ := formed.readPage_keeps read
      refine ⟨keeps.formed, fun pageId inside => ?_, (drafts.readPage read).1⟩
      exact keeps.stored pageId (stored pageId (by omega))
  | restart _ ih =>
      obtain ⟨formed, stored, _⟩ := ih
      have formed' := (stored.reopen formed).1
      exact ⟨formed', openTable_stored formed', openTable_drafts _⟩

section Crash

variable {json : Json} {h h' : TableHandler} {records : List (String × Bytes)} {job : FlushJob}
  {page : Page}

/-- The moment before the write. The flush has added records of its own to those that are
there, and the file is behind by some of these. -/
structure Before (h : TableHandler) (records : List (String × Bytes)) (h' : TableHandler)
    (page : Page) : Prop where
  shape : page.WellFormed
  last : h'.totalPages = page.pageId + 1
  onFile : (openTable h'.file).WellFormed
  draft : ∃ old, Page.fromBytes (onDisk h'.file page.pageId) = .ok old ∧ page.Extends old ∧
    page.upperOffset ≤ old.upperOffset
  behind : ∃ added, (openTable h'.file).contents = h.contents ++ added ∧
    ∀ record ∈ added, ∃ key ∈ records.map Prod.fst, payloadKey record.2 = some key

theorem Interrupted.filling (interrupted : Interrupted h records h' job page)
    (flushed : Flushed json h) (packs : ∀ record ∈ records, Packs json record) :
    ∃ placed, Filling h.contents h' job placed ∧
      ∀ record ∈ placed, ∃ key ∈ records.map Prod.fst, payloadKey record.2 = some key := by
  obtain ⟨formed, stored, drafts⟩ := flushed.spec
  obtain ⟨pageId, h₀, front, rest, opens, whole, filled⟩ := interrupted.reached
  have inside : ∀ record ∈ front, record ∈ records := by
    rw [whole]
    exact fun record => List.mem_append_left _
  obtain ⟨placed, filling, same⟩ := (Filling.open_ formed stored drafts opens records).fill
    (fun record member => packs_nonempty (packs record (inside record member))) filled
  refine ⟨placed, filling, fun record member => ?_⟩
  have payload := List.mem_map_of_mem member (f := Prod.snd)
  rw [same] at payload
  obtain ⟨⟨key, packed⟩, there, equal⟩ := List.mem_map.mp payload
  obtain ⟨value, packing⟩ := packs _ (inside _ there)
  refine ⟨key, List.mem_map_of_mem (inside _ there) (f := Prod.fst), ?_⟩
  rw [← equal]
  exact (payloadKey_pack packing).1

theorem Interrupted.before (interrupted : Interrupted h records h' job page)
    (flushed : Flushed json h) (packs : ∀ record ∈ records, Packs json record) :
    Before h records h' page ∧ page.pageId = job.pageId := by
  obtain ⟨placed, filling, own⟩ := interrupted.filling flushed packs
  obtain ⟨_, shape, place⟩ := filling.opened.page interrupted.loaded
  obtain ⟨old, read, extends_, upper⟩ := filling.drafts job.pageId page interrupted.loaded
  obtain ⟨m, behind⟩ := filling.behind
  refine ⟨⟨shape, by rw [filling.opened.last, place], filling.onFile,
    ⟨old, by rw [place]; exact read, extends_, upper⟩, placed.take m, behind, ?_⟩, place⟩
  exact fun record member => own record (List.mem_of_mem_take member)

theorem image_length (shape : page.WellFormed) : (image page).length = Page.pageSize := by
  rw [image, File.read_length, shape.sealed_size]
  rfl

theorem Before.size (before : Before h records h' page) :
    h'.file.size = page.pageId * Page.pageSize + Page.pageSize := by
  have aligned : h'.file.size = h'.totalPages * Page.pageSize := before.onFile.aligned
  rw [before.last, Nat.succ_mul] at aligned
  exact aligned

theorem Before.crashed_size (before : Before h records h' page) (cut : Nat) :
    (crashed h' page cut).size = h'.file.size := by
  have size := before.size
  have length := image_length before.shape
  have fits : ((image page).take cut).length ≤ Page.pageSize := by
    rw [List.length_take]
    omega
  simp only [crashed, File.write]
  split
  · rfl
  · omega

/-- The other pages are as they were, and this one is torn. -/
theorem Before.crashed_pages (before : Before h records h' page) (cut : Nat) :
    (∀ pageId, pageId < page.pageId →
        onDisk (crashed h' page cut) pageId = onDisk h'.file pageId) ∧
      onDisk (crashed h' page cut) page.pageId =
        torn (image page) (onDisk h'.file page.pageId) cut := by
  have size := before.size
  have size' := before.crashed_size cut
  have length := image_length before.shape
  have width : (onDisk h'.file page.pageId).length = Page.pageSize := by
    rw [onDisk, File.read_length]
    omega
  have same := length.trans width.symm
  constructor
  · intro pageId below
    apply read_write_apart
    · rw [size]
      simp only [Page.pageSize]
      omega
    · left
      simp only [Page.pageSize]
      omega
  · apply List.ext_getElem
    · rw [torn_length same, width, onDisk, File.read_length]
      omega
    · intro i left right
      rw [torn_length same, width] at right
      have at_i := torn_getElem same cut i
      rw [List.getElem?_eq_getElem (by rw [torn_length same]; omega)] at at_i
      have byte : (onDisk (crashed h' page cut) page.pageId)[i] =
          (crashed h' page cut).byte (page.pageId * Page.pageSize + i) :=
        File.read_getElem _ _ _ _ left
      rw [byte]
      apply Option.some.inj
      rw [at_i]
      split
      · rename_i inside
        have there : i < ((image page).take cut).length := by
          rw [List.length_take]
          omega
        rw [crashed, File.write_byte_inside _ _ _ _ there, List.getElem_take,
          List.getElem?_eq_getElem (by omega)]
      · rename_i outside
        have there : page.pageId * Page.pageSize + ((image page).take cut).length ≤
            page.pageId * Page.pageSize + i := by
          rw [List.length_take]
          omega
        rw [crashed, File.write_byte_outside _ _ _ _ (Or.inr there),
          List.getElem?_eq_getElem (by omega)]
        exact congrArg some (File.read_getElem _ _ _ _ _).symm

theorem Before.crashed_total (before : Before h records h' page) (cut : Nat) :
    (openTable (crashed h' page cut)).totalPages = page.pageId + 1 := by
  rw [← before.last]
  show (crashed h' page cut).size / Page.pageSize = h'.file.size / Page.pageSize
  rw [before.crashed_size cut]

/-- The file is well formed again, and what it has more than before the write are records
of the torn page behind those of its old image. -/
theorem Before.readable (before : Before h records h' page) {cut : Nat} {old page' : Page}
    (oldRead : Page.fromBytes (onDisk h'.file page.pageId) = .ok old)
    (read : Page.fromBytes (torn (image page) (onDisk h'.file page.pageId) cut) = .ok page')
    (room : page.pageId < maxPages) :
    (openTable (crashed h' page cut)).WellFormed ∧
      ∃ extra, (openTable (crashed h' page cut)).contents =
          (openTable h'.file).contents ++ extra ∧
        ∀ place payload, (place, payload) ∈ extra ↔ place.1 = page.pageId ∧
          old.slots.length ≤ place.2 ∧ page'.recordAt place.2 = some payload := by
  have total := before.crashed_total cut
  obtain ⟨others, self⟩ := before.crashed_pages cut
  have total₀ : (openTable h'.file).totalPages = page.pageId + 1 := before.last
  -- the old image and the torn one
  obtain ⟨old', oldRead', extends_, upper⟩ := before.draft
  rw [oldRead, Except.ok.injEq] at oldRead'
  subst oldRead'
  have decodedOld := Page.fromBytes_decoded oldRead
  have decodedNew := Page.fromBytes_decoded
    (before.shape.fromBytes_sealed (before.shape.packable room))
  have decoded := Page.fromBytes_decoded read
  have sealed_ : Page.Extends { page with data := page.sealed } old := by
    refine ⟨extends_.pageId, extends_.slots, fun i above below => ?_⟩
    rw [← extends_.payloads i above below]
    apply before.shape.sealed_byte
    have ordered := before.shape.ordered
    omega
  have torn_ := sealed_.torn decodedNew decodedOld decoded
  have seenOld : (openTable h'.file).view page.pageId = some old :=
    view_opened.mpr ⟨by omega, oldRead⟩
  have seen : (openTable (crashed h' page cut)).view page.pageId = some page' :=
    view_opened.mpr ⟨by omega, by rw [self]; exact read⟩
  have views (pageId : Nat) (below : pageId < page.pageId) :
      (openTable (crashed h' page cut)).view pageId = (openTable h'.file).view pageId := by
    apply view_congr
    · rfl
    · rw [total, total₀]
    · exact fun _ => others pageId below
  have place : page'.pageId = page.pageId := by
    obtain ⟨held, seen', _, same⟩ := before.onFile.readable page.pageId (by omega)
    rw [seenOld, Option.some.injEq] at seen'
    rw [torn_.pageId, seen', same]
  have size : (crashed h' page cut).size =
      (openTable (crashed h' page cut)).totalPages * Page.pageSize := by
    rw [total, before.crashed_size, before.size, Nat.succ_mul]
  refine ⟨⟨size, fun _ _ loaded => (by cases loaded), fun pageId inside => ?_⟩, ?_⟩
  · rw [total] at inside
    by_cases here : pageId = page.pageId
    · rw [here]
      exact ⟨page', seen, decoded.formed, place⟩
    · rw [views pageId (by omega)]
      exact before.onFile.readable pageId (by omega)
  · obtain ⟨extra, split, members⟩ := records_extends torn_ decoded.formed decodedOld.formed
    refine ⟨extra.map fun record => ((page.pageId, record.1), record.2), ?_, ?_⟩
    · apply contents_last total₀ total
      · intro pageId below
        rw [pageContents, pageContents, views pageId below]
      · rw [pageContents, pageContents, seen, seenOld]
        dsimp only
        rw [split, List.map_append]
    · intro place payload
      rw [List.mem_map]
      constructor
      · rintro ⟨⟨slot, payload'⟩, member, same⟩
        cases same
        exact ⟨rfl, (members slot payload').mp member⟩
      · rintro ⟨same, found⟩
        refine ⟨(place.2, payload), (members _ _).mpr found, ?_⟩
        rw [← same]

/-- What the walk through the file has loaded it has read from the file. -/
theorem indexPages_loaded (file : File) (pageIds : List Nat)
    (state : TableHandler × AList (fun _ : String => Nat × Nat)) (same : state.1.file = file)
    (loaded : ∀ pageId page, state.1.pageCache pageId = some page →
      Page.fromBytes (onDisk file pageId) = .ok page) :
    (pageIds.foldl indexPage state).1.file = file ∧
      ∀ pageId page, (pageIds.foldl indexPage state).1.pageCache pageId = some page →
        Page.fromBytes (onDisk file pageId) = .ok page := by
  induction pageIds generalizing state with
  | nil => exact ⟨same, loaded⟩
  | cons pageId rest ih =>
      have step : (indexPage state pageId).1.file = file ∧
          ∀ other page, (indexPage state pageId).1.pageCache other = some page →
            Page.fromBytes (onDisk file other) = .ok page := by
        unfold indexPage
        split
        · exact ⟨same, loaded⟩
        · rename_i page h' read
          unfold TableHandler.readPage at read
          split at read
          · cases read
            exact ⟨same, loaded⟩
          · split at read
            · cases read
            · rename_i found
              cases read
              refine ⟨same, fun other held cached => ?_⟩
              by_cases here : other = pageId
              · subst here
                dsimp only at cached
                rw [cachePage_self, Option.some.injEq] at cached
                subst cached
                rw [← same]
                exact (loadPage_ok found).2
              · dsimp only at cached
                rw [cachePage_ne _ _ here] at cached
                exact loaded other held cached
      rw [List.foldl_cons]
      exact ih (indexPage state pageId) step.1 step.2

/-- The last page is skipped by the walk, and stops every flush. -/
theorem unreadable_stops {file : File} {pageId : Nat} {e : Page.Error}
    (total : (openTable file).totalPages = pageId + 1)
    (broken : Page.fromBytes (onDisk file pageId) = .error e) (records : List (String × Bytes)) :
    (Table.init file).handler.totalPages = pageId + 1 ∧
      ∃ e, flushPages (Table.init file).handler records = .error e := by
  obtain ⟨same, loaded⟩ := indexPages_loaded file (List.range (openTable file).totalPages)
    (openTable file, ∅) rfl fun _ _ cached => by cases cached
  have total' : (Table.init file).handler.totalPages = pageId + 1 := by
    rw [← total]
    exact congrArg (fun file : File => file.size / Page.pageSize) same
  have missing : (Table.init file).handler.pageCache pageId = none := by
    cases cached : (Table.init file).handler.pageCache pageId with
    | none => rfl
    | some page =>
        rw [loaded pageId page cached] at broken
        cases broken
  have failed : ∃ e, (Table.init file).handler.loadPage pageId = .error e := by
    cases found : (Table.init file).handler.loadPage pageId with
    | error e => exact ⟨e, rfl⟩
    | ok page =>
        have read := (loadPage_ok found).2
        rw [show (Table.init file).handler.file = file from same, broken] at read
        cases read
  obtain ⟨e, failed⟩ := failed
  refine ⟨total', e, ?_⟩
  unfold flushPages openLastPage
  dsimp only
  rw [if_neg (by omega), total', Nat.add_sub_cancel]
  dsimp only
  rw [TableHandler.readPage, missing]
  dsimp only
  rw [failed]

theorem Before.survives_iff (before : Before h records h' page)
    (room : page.pageId + 2 < maxPages) (cut : Nat) :
    Survives h records (crashed h' page cut) ↔
      Harmless h records (image page) (onDisk h'.file page.pageId) cut := by
  have total := before.crashed_total cut
  obtain ⟨_, self⟩ := before.crashed_pages cut
  obtain ⟨old, oldRead, _⟩ := before.draft
  cases read : Page.fromBytes (torn (image page) (onDisk h'.file page.pageId) cut) with
  | error e =>
      constructor
      · intro survives
        obtain ⟨total', e', failed⟩ := unreadable_stops total (self ▸ read) [("", [0])]
        have fits : ∀ record ∈ [(("", [0]) : String × Bytes)], Fits record := by
          intro record member
          rw [List.mem_singleton.mp member]
          exact ⟨List.cons_ne_nil _ _, by decide⟩
        obtain ⟨h₁, job, done⟩ := survives.flushes _ (List.cons_ne_nil _ _) fits (by
          rw [total', List.length_singleton]
          omega)
        rw [failed] at done
        cases done
      · rintro ⟨_, page', _, readable, _⟩
        rw [read] at readable
        cases readable
  | ok page' =>
      obtain ⟨formed, extra, contents, members⟩ := before.readable oldRead read (by omega)
      obtain ⟨keeps, file, indexed⟩ := initDiskIndex_spec formed
      obtain ⟨added, behind, own⟩ := before.behind
      have whole : (openTable (crashed h' page cut)).contents = h.contents ++ added ++ extra := by
        rw [contents, behind]
      have lookup (key : String) (alone : key ∉ records.map Prod.fst) :
          (Table.init (crashed h' page cut)).diskIndex.lookup key =
            ((newestIn extra key).or (newestIn h.contents key)).bind fun record =>
              if payloadDeletes record.2 then none else some record.1 := by
        have nothing : newestIn added key = none := by
          apply newestIn_none
          intro record member same
          obtain ⟨other, inside, named⟩ := own record member
          rw [named, Option.some.injEq] at same
          exact alone (same ▸ inside)
        show (initDiskIndex (openTable (crashed h' page cut))).2.lookup key = _
        rw [indexed, whole, lookup_indexOf, newestIn_append, newestIn_append, nothing,
          Option.none_or]
      constructor
      · intro survives
        refine ⟨old, page', oldRead, read, ?_⟩
        intro slot payload key behindOld found named alone record newest
        by_contra kept
        obtain ⟨indexedAt, _⟩ :=
          survives.found key record newest (Bool.not_eq_true _ ▸ kept) alone
        have there : ((page.pageId, slot), payload) ∈ extra :=
          (members _ _).mpr ⟨rfl, behindOld, found⟩
        obtain ⟨other, newer⟩ := newestIn_isSome there named
        rw [lookup key alone, newer, Option.some_or, Option.bind_some] at indexedAt
        split at indexedAt
        · cases indexedAt
        · have place : other.1 = record.1 := Option.some.inj indexedAt
          obtain ⟨onPage, behind', _⟩ := (members other.1 other.2).mp (newestIn_mem newer).1
          rw [place] at onPage behind'
          have onFile : (record.1, record.2) ∈ (openTable h'.file).contents := by
            rw [behind]
            exact List.mem_append_left _ (newestIn_mem newest).1
          obtain ⟨held, seen, here⟩ := before.onFile.mem_contents.mp onFile
          rw [onPage] at seen
          have same := (view_opened.mp seen).2
          rw [oldRead, Except.ok.injEq] at same
          subst same
          exact absurd (Page.recordAt_lt here) (Nat.not_lt_of_le behind')
      · rintro ⟨old', page₁, oldRead', read', harmless⟩
        rw [oldRead, Except.ok.injEq] at oldRead'
        rw [read, Except.ok.injEq] at read'
        subst oldRead' read'
        refine ⟨fun key record newest kept alone => ⟨?_, ?_⟩, fun more _ fit space => ?_⟩
        · have nothing : newestIn extra key = none := by
            apply newestIn_none
            intro other member named
            obtain ⟨_, behindOld, found⟩ := (members other.1 other.2).mp member
            have deleted := harmless other.1.2 other.2 key behindOld found named alone record newest
            rw [kept] at deleted
            cases deleted
          rw [lookup key alone, nothing, Option.none_or, newest, Option.bind_some, kept]
          rfl
        · show record ∈ (initDiskIndex (openTable (crashed h' page cut))).1.contents
          rw [keeps.contents, whole]
          exact List.mem_append_left _ (List.mem_append_left _ (newestIn_mem newest).1)
        · exact flushPages_ok keeps.formed fit space

/-- A write that leaves the old image or the new one does no harm. -/
theorem Interrupted.whole (interrupted : Interrupted h records h' job page)
    (flushed : Flushed json h) (packs : ∀ record ∈ records, Packs json record)
    (room : job.pageId < maxPages) {cut : Nat}
    (whole : torn (image page) (onDisk h'.file page.pageId) cut = onDisk h'.file page.pageId ∨
      torn (image page) (onDisk h'.file page.pageId) cut = image page) :
    Harmless h records (image page) (onDisk h'.file page.pageId) cut := by
  obtain ⟨before, place⟩ := interrupted.before flushed packs
  obtain ⟨placed, filling, own⟩ := interrupted.filling flushed packs
  obtain ⟨old, oldRead, _⟩ := before.draft
  rcases whole with same | same
  · refine ⟨old, old, oldRead, same.symm ▸ oldRead, fun slot payload key behind found => ?_⟩
    exact absurd (Page.recordAt_lt found) (Nat.not_lt_of_le behind)
  · refine ⟨old, { page with data := page.sealed }, oldRead, ?_, ?_⟩
    · rw [same]
      exact before.shape.fromBytes_sealed (before.shape.packable (by rw [place]; exact room))
    · intro slot payload key behind found named alone
      have held : ((page.pageId, slot), payload) ∈ h'.contents := by
        rw [filling.opened.formed.mem_contents]
        refine ⟨page, by rw [place]; exact view_of_cached interrupted.loaded, ?_⟩
        rw [← found, Page.recordAt, Page.recordAt, before.shape.getRecord_sealed]
      obtain ⟨m, onFile⟩ := filling.behind
      rw [filling.contents, ← List.take_append_drop m placed, ← List.append_assoc, ← onFile] at held
      rcases List.mem_append.mp held with there | ahead
      · obtain ⟨disk, seen, here⟩ := before.onFile.mem_contents.mp there
        have read := (view_opened.mp seen).2
        rw [oldRead, Except.ok.injEq] at read
        subst read
        exact absurd (Page.recordAt_lt here) (Nat.not_lt_of_le behind)
      · obtain ⟨other, member, named'⟩ := own _ (List.mem_of_mem_drop ahead)
        rw [named, Option.some.injEq] at named'
        exact absurd (named' ▸ member) alone

/-- For every cut of every page write of a flush. -/
theorem survives_torn_write_iff (flushed : Flushed json h)
    (packs : ∀ record ∈ records, Packs json record)
    (interrupted : Interrupted h records h' job page) (room : job.pageId + 2 < maxPages)
    (cut : Nat) :
    Survives h records (crashed h' page cut) ↔
      Harmless h records (image page) (onDisk h'.file page.pageId) cut := by
  obtain ⟨before, place⟩ := interrupted.before flushed packs
  exact before.survives_iff (by omega) cut

end Crash

def recordA : String × Bytes := ("a", [0, 1, 0x61, 0x22, 0x78, 0x22])

def recordB : String × Bytes := ("b", [0, 1, 0x62, 0x22, 0x79, 0x22])

theorem packs_recordA : Packs wordJson recordA := ⟨.str "x", by decide +kernel⟩

theorem packs_recordB : Packs wordJson recordB := ⟨.str "y", by decide +kernel⟩

/-- The moment before the last page write of a flush. -/
def interruptAt (h : TableHandler) (records : List (String × Bytes)) :
    Option (TableHandler × FlushJob × Page) :=
  match openLastPage h with
  | .error _ => none
  | .ok (pageId, h₀) =>
      match fillPages h₀ ⟨records, pageId, [], [], false⟩ records with
      | .error _ => none
      | .ok (h', job) =>
          if job.dirty then (h'.pageCache job.pageId).map fun page => (h', job, page) else none

theorem interruptAt_interrupted {h h' : TableHandler} {records : List (String × Bytes)}
    {job : FlushJob} {page : Page} (there : interruptAt h records = some (h', job, page)) :
    Interrupted h records h' job page := by
  unfold interruptAt at there
  split at there
  · cases there
  · rename_i opens
    split at there
    · cases there
    · rename_i filled
      split at there
      · rename_i dirty
        obtain ⟨page', loaded, same⟩ := Option.map_eq_some_iff.mp there
        cases same
        exact ⟨⟨_, _, records, [], opens, (List.append_nil _).symm, filled⟩, dirty, loaded⟩
      · cases there

theorem packs_one {record : String × Bytes} (packs : Packs wordJson record) :
    ∀ other ∈ [record], Packs wordJson other := by
  intro other member
  rw [List.mem_singleton.mp member]
  exact packs

/-- The file has a record of an earlier flush. The next flush dies after the bytes that the two
images have in common at the front, or before those at the end. -/
theorem survives_inside_write : ∃ h h' job page record, Flushed wordJson h ∧
    newestIn h.contents "a" = some record ∧ payloadDeletes record.2 = false ∧
      Interrupted h [recordB] h' job page ∧ Survives h [recordB] (crashed h' page 9) ∧
        Survives h [recordB] (crashed h' page 4090) := by
  have outcome : (flushPages (openTable File.empty) [recordA]).toOption.bind (fun first =>
      (interruptAt first.1 [recordB]).map fun next =>
        (decide (next.2.1.pageId = 0 ∧ next.2.2.pageId = 0 ∧
            (image next.2.2).take 9 = (onDisk next.1.file 0).take 9 ∧
            (image next.2.2).drop 4090 = (onDisk next.1.file 0).drop 4090),
          (newestIn first.1.contents "a").map Prod.snd)) =
      some (true, some recordA.2) := by decide +kernel
  obtain ⟨⟨h, job₁⟩, opened, outcome⟩ := Option.bind_eq_some_iff.mp outcome
  have done : flushPages (openTable File.empty) [recordA] = .ok (h, job₁) := by
    cases result : flushPages (openTable File.empty) [recordA] with
    | error e =>
        rw [result] at opened
        cases opened
    | ok first =>
        rw [result] at opened
        rw [Option.some.inj opened]
  obtain ⟨⟨h', job, page⟩, there, values⟩ := Option.map_eq_some_iff.mp outcome
  simp only [Prod.mk.injEq, decide_eq_true_eq] at values
  obtain ⟨⟨place, here, front, back⟩, held⟩ := values
  obtain ⟨record, newest, packed⟩ := Option.map_eq_some_iff.mp held
  have flushed : Flushed wordJson h := Flushed.flush Flushed.new (packs_one packs_recordA) done
  have interrupted := interruptAt_interrupted there
  have below : job.pageId < maxPages := by
    rw [place]
    decide
  have survives (cut : Nat) := survives_torn_write_iff flushed (packs_one packs_recordB) interrupted
    (by rw [place]; decide) cut
  refine ⟨h, h', job, page, record, flushed, newest, ?_, interrupted,
    (survives 9).mpr (interrupted.whole flushed (packs_one packs_recordB) below (Or.inl ?_)),
    (survives 4090).mpr (interrupted.whole flushed (packs_one packs_recordB) below (Or.inr ?_))⟩
  · rw [packed]
    decide
  · rw [here, torn, front, List.take_append_drop]
  · rw [here, torn, ← back, List.take_append_drop]

/-- The new `lower_offset` stands before the old number of slots. -/
theorem lost_behind_new_offsets : ∃ h h' job page, Flushed wordJson h ∧
    (∀ record ∈ [recordB], Packs wordJson record) ∧ Interrupted h [recordB] h' job page ∧
      ¬ Survives h [recordB] (crashed h' page 12) := by
  have outcome : (match flushPages (openTable File.empty) [recordA] with
      | .error _ => none
      | .ok (h, _) => (interruptAt h [recordB]).map fun r => (r.2.1.pageId, r.2.2.slots.length,
          ofBE (field (onDisk r.1.file 0) 12 2))) = some (0, 2, 1) := by decide +kernel
  split at outcome
  · cases outcome
  · rename_i h _ done
    obtain ⟨⟨h', job, page⟩, there, values⟩ := Option.map_eq_some_iff.mp outcome
    simp only [Prod.mk.injEq] at values
    obtain ⟨first, count, oldCount⟩ := values
    have flushed := Flushed.flush Flushed.new (packs_one packs_recordA) done
    have interrupted := interruptAt_interrupted there
    obtain ⟨before, place⟩ := interrupted.before flushed (packs_one packs_recordB)
    refine ⟨h, h', job, page, flushed, packs_one packs_recordB, interrupted, fun survives => ?_⟩
    have small : page.pageId + 2 < maxPages := by
      rw [place, first]
      decide
    obtain ⟨old, torn_, oldRead, read, _⟩ := (before.survives_iff small 12).mp survives
    have decodedNew := Page.fromBytes_decoded
      (before.shape.fromBytes_sealed (before.shape.packable (by omega)))
    have decodedOld := Page.fromBytes_decoded oldRead
    have oldSlots : old.slots.length = 1 := by
      rw [decodedOld.slots, Page.unpackSlots_length, place, first, oldCount]
    apply decodedNew.torn_header decodedOld (by rw [oldSlots]; dsimp only; omega)
      (by decide : 10 ≤ 12) (Nat.le_refl 12)
    exact Page.fromBytes_decoded read

end CachyDb.Table
