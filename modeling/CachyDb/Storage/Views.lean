import CachyDb.Storage.Lookup
import CachyDb.Storage.Torn

set_option autoImplicit false

/-! Three ways to find a key in a table file: the index that the flushes keep, the index
that is built from the file, and the search through the pages from the end. -/

namespace CachyDb.Table

open ByteString TableHandler

/-- `flush_memtable_to_disk` from its first line to its last, the marks in the log aside. -/
def flushMemtable (t : Table) : Except TableHandler.Error Table :=
  match t.beginFlush with
  | none => .ok t
  | some (records, _) =>
      match flushPages t.handler records with
      | .error e => .error e
      | .ok (handler, job) =>
          let dropped := job.deletions.foldl (fun index key => index.erase key) t.diskIndex
          .ok { t with handler := handler, diskIndex := applyUpdates dropped job.updates }.endFlush

/-- The lookup of `_read_from_disk` in an index, without what follows when it fails. -/
def lookupIn (json : Json) (index : AList (fun _ : String => Nat × Nat)) (h : TableHandler)
    (key : String) : Option Value :=
  match index.lookup key with
  | none => none
  | some (pageId, slot) =>
      match h.readPage pageId with
      | .error _ => none
      | .ok (page, _) => (pageSlotRecord json page slot).map Prod.snd

/-- A memtable, and what was written to it, the oldest first. -/
inductive Written (json : Json) : MemTable String Bytes → List (String × Value) → Prop
  | empty : Written json MemTable.empty []
  | insert {memtable : MemTable String Bytes} {writes : List (String × Value)} {key : String}
      {value : Value} {packed : Bytes} : Written json memtable writes →
        packRecord json key value = .ok packed →
          Written json (memtable.insert key packed) (writes ++ [(key, value)])

/-- A table on a new file after flushes, page loads and new processes, and what was in the
memtables that were flushed. -/
inductive Kept (json : Json) : Table → List (String × Value) → Prop
  | new : Kept json (Table.init File.empty) []
  | flush {t t' : Table} {history writes : List (String × Value)} {memtable : MemTable String Bytes} :
      Kept json t history → Written json memtable writes →
        flushMemtable { t with immutable := some memtable } = .ok t' →
          Kept json t' (history ++ writes)
  | load {t : Table} {history : List (String × Value)} {pageId : Nat} {page : Page}
      {handler : TableHandler} : Kept json t history →
        t.handler.readPage pageId = .ok (page, handler) → Kept json { t with handler := handler } history
  | reopen {t : Table} {history : List (String × Value)} :
      Kept json t history → Kept json (Table.init t.handler.file) history

/-- The value that a key was given last. -/
def newestValue (history : List (String × Value)) (key : String) : Option Value :=
  history.reverse.lookup key

/-- `None` for a key that is not there. -/
def readNewest (json : Json) (history : List (String × Value)) (key : String) : Value :=
  ((newestValue history key).map json.decoded).getD .null

theorem newestValue_append (front back : List (String × Value)) (key : String) :
    newestValue (front ++ back) key = (newestValue back key).or (newestValue front key) := by
  rw [newestValue, List.reverse_append, List.lookup_append]
  rfl

theorem Written.lookup {json : Json} {memtable : MemTable String Bytes}
    {writes : List (String × Value)} (written : Written json memtable writes) (key : String) :
    (memtable.lookup key).map Except.ok = (newestValue writes key).map (packRecord json key) := by
  induction written with
  | empty => rfl
  | @insert memtable writes other value packed _ packs ih =>
      rw [MemTable.lookup_insert, newestValue_append]
      by_cases same : key = other
      · subst same
        rw [if_pos rfl, newestValue, List.reverse_singleton, List.lookup_cons_self, Option.some_or,
          Option.map_some, Option.map_some, packs]
      · have other_write : newestValue [(other, value)] key = none := by
          rw [newestValue, List.reverse_singleton, List.lookup_cons, beq_eq_false_iff_ne.mpr same]
          rfl
        rw [if_neg same, ih, other_write, Option.none_or]

theorem Written.packs {json : Json} {memtable : MemTable String Bytes}
    {writes : List (String × Value)} (written : Written json memtable writes) :
    ∀ record ∈ memtable.entries, Packs json record := by
  rintro ⟨key, packed⟩ member
  have found := written.lookup key
  rw [MemTable.lookup_of_mem member] at found
  cases newest : newestValue writes key with
  | none =>
      rw [newest] at found
      cases found
  | some value =>
      rw [newest] at found
      exact ⟨value, (Option.some.inj found).symm⟩

/-- A record with the place that it was given. -/
abbrev Note := String × ((Nat × Nat) × Bytes)

def deleted (note : Note) : Bool := isDeletion note.1 note.2.2

/-- The flush has put the records where the notes say. -/
structure Noted (base : List ((Nat × Nat) × Bytes)) (h : TableHandler) (job : FlushJob)
    (notes : List Note) : Prop where
  contents : h.contents = base ++ notes.map Prod.snd
  deletions : job.deletions = (notes.filter deleted).map Prod.fst
  updates : job.updates =
    (notes.filter fun note => !deleted note).map fun note => (note.1, note.2.1)

theorem Noted.snoc {base : List ((Nat × Nat) × Bytes)} {h h' : TableHandler} {job job' : FlushJob}
    {notes : List Note} (noted : Noted base h job notes) {key : String} {place : Nat × Nat}
    {packed : Bytes} (contents : h'.contents = h.contents ++ [(place, packed)])
    (changed : if isDeletion key packed then
        job'.deletions = job.deletions ++ [key] ∧ job'.updates = job.updates
      else job'.deletions = job.deletions ∧ job'.updates = job.updates ++ [(key, place)]) :
    Noted base h' job' (notes ++ [(key, place, packed)]) := by
  have all : h'.contents = base ++ (notes ++ [(key, place, packed)]).map Prod.snd := by
    rw [contents, noted.contents, List.map_append, List.append_assoc]
    rfl
  cases removed : isDeletion key packed with
  | true =>
      rw [removed, if_pos rfl] at changed
      refine ⟨all, ?_, ?_⟩
      · simp [changed.1, noted.deletions, deleted, removed]
      · simp [changed.2, noted.updates, deleted, removed]
  | false =>
      rw [removed, if_neg Bool.false_ne_true] at changed
      refine ⟨all, ?_, ?_⟩
      · simp [changed.1, noted.deletions, deleted, removed]
      · simp [changed.2, noted.updates, deleted, removed]

theorem fillPages_noted {base : List ((Nat × Nat) × Bytes)} {records : List (String × Bytes)}
    {h h' : TableHandler} {job job' : FlushJob} {notes : List Note} (opened : Opened h job)
    (noted : Noted base h job notes) (nonempty : ∀ record ∈ records, record.2 ≠ [])
    (done : fillPages h job records = .ok (h', job')) :
    Opened h' job' ∧ ∃ added : List Note,
      Noted base h' job' (notes ++ added) ∧
        added.map (fun note => (note.1, note.2.2)) = records := by
  induction records generalizing h job notes with
  | nil =>
      cases done
      exact ⟨opened, [], by rwa [List.append_nil], rfl⟩
  | cons record rest ih =>
      obtain ⟨key, packed⟩ := record
      unfold fillPages at done
      split at done
      · cases done
      · rename_i h₁ job₁ turned
        obtain ⟨opened₁, _, ⟨place, contents, changed⟩, _⟩ :=
          flushRecord_spec opened (nonempty _ List.mem_cons_self) turned
        obtain ⟨opened', added, noted', same⟩ := ih opened₁ (noted.snoc contents changed)
          (fun record member => nonempty record (List.mem_cons_of_mem _ member)) done
        refine ⟨opened', (key, place, packed) :: added, ?_, ?_⟩
        · rwa [List.append_assoc] at noted'
        · rw [List.map_cons, same]

theorem flushPages_noted {h h' : TableHandler} {records : List (String × Bytes)} {job : FlushJob}
    (formed : h.WellFormed) (nonempty : ∀ record ∈ records, record.2 ≠ [])
    (done : flushPages h records = .ok (h', job)) :
    ∃ notes, Noted h.contents h' job notes ∧
      notes.map (fun note => (note.1, note.2.2)) = records := by
  unfold flushPages at done
  split at done
  · cases done
  · rename_i pageId h₀ opens
    split at done
    · cases done
    · rename_i h₁ job₁ filled
      split at done
      · cases done
      · rename_i written
        cases done
        obtain ⟨keeps, last, loaded, _⟩ := openLastPage_spec formed opens
        have start : Noted h.contents h₀ ⟨records, pageId, [], [], false⟩ [] :=
          ⟨by rw [keeps.contents, List.map_nil, List.append_nil], rfl, rfl⟩
        obtain ⟨opened, notes, noted, same⟩ :=
          fillPages_noted ⟨keeps.formed, last, loaded⟩ start nonempty filled
        obtain ⟨keeps', _⟩ := writeDirty_spec opened written
        exact ⟨notes, ⟨keeps'.contents.trans noted.contents, noted.deletions, noted.updates⟩, same⟩

section

variable {json : Json} {notes : List Note}

/-- The records of one memtable. -/
structure Distinct (json : Json) (notes : List Note) : Prop where
  keys : (notes.map Prod.fst).Nodup
  packs : ∀ note ∈ notes, Packs json (note.1, note.2.2)

theorem Distinct.same (distinct : Distinct json notes) {note other : Note} (here : note ∈ notes)
    (there : other ∈ notes) (key : note.1 = other.1) : note = other :=
  List.inj_on_of_nodup_map distinct.keys here there key

theorem Distinct.payload (distinct : Distinct json notes) {note : Note} (here : note ∈ notes) :
    payloadKey note.2.2 = some note.1 ∧ payloadDeletes note.2.2 = deleted note := by
  obtain ⟨value, packs⟩ := distinct.packs note here
  exact payloadKey_pack packs

theorem Distinct.newest (distinct : Distinct json notes) {note : Note} (here : note ∈ notes) :
    newestIn (notes.map Prod.snd) note.1 = some note.2 := by
  obtain ⟨newest, found⟩ :=
    newestIn_isSome (List.mem_map_of_mem here) (distinct.payload here).1
  obtain ⟨member, named⟩ := newestIn_mem found
  obtain ⟨other, there, rfl⟩ := List.mem_map.mp member
  rw [(distinct.payload there).1, Option.some.injEq] at named
  rw [found, distinct.same there here named]

theorem Distinct.newest_none (distinct : Distinct json notes) {key : String}
    (absent : ∀ note ∈ notes, note.1 ≠ key) : newestIn (notes.map Prod.snd) key = none := by
  apply newestIn_none
  intro record member
  obtain ⟨note, here, rfl⟩ := List.mem_map.mp member
  rw [(distinct.payload here).1]
  exact fun same => absent note here (Option.some.inj same)

variable {base : List ((Nat × Nat) × Bytes)} {h : TableHandler} {job : FlushJob}

theorem Noted.mem_updates (noted : Noted base h job notes) {key : String} {place : Nat × Nat} :
    (key, place) ∈ job.updates ↔
      ∃ note ∈ notes, deleted note = false ∧ note.1 = key ∧ note.2.1 = place := by
  rw [noted.updates, List.mem_map]
  constructor
  · rintro ⟨note, kept, same⟩
    cases same
    obtain ⟨member, stays⟩ := List.mem_filter.mp kept
    exact ⟨note, member, by simpa using stays, rfl, rfl⟩
  · rintro ⟨note, member, stays, rfl, rfl⟩
    exact ⟨note, List.mem_filter.mpr ⟨member, by simp [stays]⟩, rfl⟩

theorem Noted.mem_deletions (noted : Noted base h job notes) {key : String} :
    key ∈ job.deletions ↔ ∃ note ∈ notes, deleted note = true ∧ note.1 = key := by
  simp only [noted.deletions, List.mem_map, List.mem_filter, and_assoc]

/-- After a flush the index says again what an index of the contents says. -/
theorem Noted.index (noted : Noted base h job notes) (distinct : Distinct json notes)
    {index : AList (fun _ : String => Nat × Nat)}
    (agrees : ∀ key, index.lookup key = (indexOf base).lookup key) (key : String) :
    (applyUpdates (job.deletions.foldl (fun index key => index.erase key) index)
      job.updates).lookup key = (indexOf h.contents).lookup key := by
  rw [lookup_indexOf, noted.contents, newestIn_append]
  by_cases touched : ∃ note ∈ notes, note.1 = key
  · obtain ⟨note, here, rfl⟩ := touched
    rw [distinct.newest here, Option.some_or, Option.bind_some, (distinct.payload here).2]
    rcases lookup_applyUpdates (job.deletions.foldl (fun index key => index.erase key) index)
      job.updates note.1 with ⟨place, update, found⟩ | ⟨missing, same⟩
    · obtain ⟨other, there, stays, key, rfl⟩ := noted.mem_updates.mp update
      obtain rfl := distinct.same there here key
      rw [found, stays, if_neg Bool.false_ne_true]
    · cases gone : deleted note with
      | true =>
          have listed := noted.mem_deletions.mpr ⟨note, here, gone, rfl⟩
          rw [same, lookup_drop, if_pos listed, if_pos rfl]
      | false =>
          exact absurd (noted.mem_updates.mpr ⟨note, here, gone, rfl, rfl⟩) (missing note.2.1)
  · have absent : ∀ note ∈ notes, note.1 ≠ key := fun note here same => touched ⟨note, here, same⟩
    have kept : key ∉ job.deletions := by
      intro listed
      obtain ⟨note, here, _, same⟩ := noted.mem_deletions.mp listed
      exact absent note here same
    rw [distinct.newest_none absent, Option.none_or, ← lookup_indexOf, ← agrees]
    rcases lookup_applyUpdates (job.deletions.foldl (fun index key => index.erase key) index)
      job.updates key with ⟨place, update, _⟩ | ⟨_, same⟩
    · obtain ⟨note, here, _, named, _⟩ := noted.mem_updates.mp update
      exact absurd named (absent note here)
    · rw [same, lookup_drop, if_neg kept]

end

/-- The contents end with what was flushed last, and the index says so. -/
structure Current (json : Json) (t : Table) (history : List (String × Value)) : Prop where
  flushed : Flushed json t.handler
  packs : ∀ record ∈ t.handler.contents, ∃ key, Packs json (key, record.2)
  newest : ∀ key, (newestIn t.handler.contents key).map (fun record => Except.ok record.2) =
    (newestValue history key).map (packRecord json key)
  index : ∀ key, t.diskIndex.lookup key = (indexOf t.handler.contents).lookup key

theorem indexPages_flushed {json : Json} (pageIds : List Nat)
    (state : TableHandler × AList (fun _ : String => Nat × Nat)) (flushed : Flushed json state.1) :
    Flushed json (pageIds.foldl indexPage state).1 := by
  induction pageIds generalizing state with
  | nil => exact flushed
  | cons pageId pageIds ih =>
      apply ih
      unfold indexPage
      split
      · exact flushed
      · rename_i read
        exact flushed.lookup read

/-- A new process finds the records and makes an index of them. -/
theorem init_current {json : Json} {h : TableHandler} {history : List (String × Value)}
    (flushed : Flushed json h) (packs : ∀ record ∈ h.contents, ∃ key, Packs json (key, record.2))
    (newest : ∀ key, (newestIn h.contents key).map (fun record => Except.ok record.2) =
      (newestValue history key).map (packRecord json key)) :
    Current json (Table.init h.file) history := by
  obtain ⟨formed, stored, _⟩ := flushed.spec
  obtain ⟨formed', contents⟩ := stored.reopen formed
  obtain ⟨keeps, _, index⟩ := initDiskIndex_spec formed'
  have same : (Table.init h.file).handler.contents = h.contents := keeps.contents.trans contents
  refine ⟨indexPages_flushed _ _ flushed.restart, ?_, ?_, fun key => ?_⟩
  · rw [same]
    exact packs
  · rw [same]
    exact newest
  · rw [same, ← contents]
    exact congrArg (AList.lookup key) index

theorem Current.load {json : Json} {t : Table} {history : List (String × Value)}
    (current : Current json t history) {pageId : Nat} {page : Page} {handler : TableHandler}
    (read : t.handler.readPage pageId = .ok (page, handler)) :
    Current json { t with handler := handler } history := by
  obtain ⟨keeps, _⟩ := current.flushed.spec.1.readPage_keeps read
  have same : handler.contents = t.handler.contents := keeps.contents
  refine ⟨current.flushed.lookup read, ?_, ?_, ?_⟩
  · rw [same]
    exact current.packs
  · rw [same]
    exact current.newest
  · rw [same]
    exact current.index

theorem Current.flush {json : Json} {t t' : Table} {history writes : List (String × Value)}
    {memtable : MemTable String Bytes} (current : Current json t history)
    (written : Written json memtable writes)
    (done : flushMemtable { t with immutable := some memtable } = .ok t') :
    Current json t' (history ++ writes) := by
  unfold flushMemtable beginFlush at done
  by_cases empty : memtable.size = 0
  · simp only [empty, ↓reduceIte] at done
    cases done
    refine ⟨current.flushed, current.packs, fun key => ?_, current.index⟩
    have nothing : newestValue writes key = none := by
      have found := written.lookup key
      cases looked : memtable.lookup key with
      | none =>
          rw [looked] at found
          exact Option.map_eq_none_iff.mp found.symm
      | some packed =>
          have positive := MemTable.size_pos_of_lookup looked
          omega
    rw [newestValue_append, nothing, Option.none_or]
    exact current.newest key
  · simp only [empty, ↓reduceIte] at done
    split at done
    · cases done
    · rename_i handler job flushes
      cases done
      have formed := current.flushed.spec.1
      have nonempty := fun record member => packs_nonempty (written.packs record member)
      obtain ⟨notes, noted, records⟩ := flushPages_noted formed nonempty flushes
      have keys : notes.map Prod.fst = memtable.entries.map Prod.fst := by
        rw [← records, List.map_map]
        rfl
      have distinct : Distinct json notes := by
        constructor
        · rw [keys]
          exact memtable.entries_sorted.imp fun below => ne_of_lt below
        · intro note here
          apply written.packs
          rw [← records]
          exact List.mem_map_of_mem here
      refine ⟨current.flushed.flush written.packs flushes, ?_, fun key => ?_, ?_⟩
      · intro record member
        rcases List.mem_append.mp (noted.contents ▸ member) with old | new
        · exact current.packs record old
        · obtain ⟨note, here, rfl⟩ := List.mem_map.mp new
          exact ⟨note.1, distinct.packs note here⟩
      · have found := written.lookup key
        show (newestIn handler.contents key).map _ = _
        rw [noted.contents, newestIn_append, newestValue_append]
        cases looked : memtable.lookup key with
        | none =>
            have absent : ∀ note ∈ notes, note.1 ≠ key := by
              rintro note here rfl
              have member : (note.1, note.2.2) ∈ memtable.entries := by
                rw [← records]
                exact List.mem_map_of_mem here
              rw [MemTable.lookup_of_mem member] at looked
              cases looked
            rw [looked] at found
            rw [distinct.newest_none absent, Option.map_eq_none_iff.mp found.symm, Option.none_or,
              Option.none_or]
            exact current.newest key
        | some packed =>
            have member := MemTable.mem_of_lookup looked
            rw [← records] at member
            obtain ⟨note, here, same⟩ := List.mem_map.mp member
            cases same
            cases last : newestValue writes note.1 with
            | none =>
                rw [looked, last] at found
                cases found
            | some value =>
                rw [looked, last] at found
                rw [distinct.newest here, Option.some_or, Option.some_or]
                exact found
      · exact noted.index distinct current.index

theorem Kept.current {json : Json} {t : Table} {history : List (String × Value)}
    (kept : Kept json t history) : Current json t history := by
  induction kept with
  | new => exact init_current Flushed.new (fun record member => (by cases member)) fun key => rfl
  | flush _ written done ih => exact ih.flush written done
  | load _ read ih => exact ih.load read
  | reopen _ ih => exact init_current ih.flushed ih.packs ih.newest

section

variable {json : Json} {key : String}

/-- The value of a record. -/
def unpacked (json : Json) (record : (Nat × Nat) × Bytes) : Option Value :=
  (unpackValue json record.2).toOption

theorem unpacked_packs {value : Value} {record : (Nat × Nat) × Bytes}
    (packs : packRecord json key value = .ok record.2) :
    unpacked json record = some (json.decoded value) := by
  rw [unpacked, unpackValue, unpackRecord_decoded packs]
  rfl

theorem pageSlotRecord_none {page : Page} {slot : Nat} (nothing : page.recordAt slot = none) :
    pageSlotRecord json page slot = none := by
  unfold Page.recordAt at nothing
  unfold pageSlotRecord
  cases found : page.getRecord slot with
  | error e => rfl
  | ok record =>
      rw [found] at nothing
      dsimp only at nothing
      rw [nothing]

/-- The records of a page below a slot. -/
def recordsBelow (page : Page) (pageId count : Nat) : List ((Nat × Nat) × Bytes) :=
  (List.range count).filterMap fun slot => (page.recordAt slot).map fun payload =>
    ((pageId, slot), payload)

theorem pageContents_eq {h : TableHandler} {pageId : Nat} {page : Page}
    (seen : h.view pageId = some page) :
    h.pageContents pageId = recordsBelow page pageId page.slots.length := by
  simp only [pageContents, seen, Page.records, recordsBelow, List.map_filterMap]
  congr 1
  funext slot
  cases page.recordAt slot with
  | none => rfl
  | some payload => rfl

theorem searchSlots_eq (page : Page) (pageId count : Nat)
    (packs : ∀ slot payload, page.recordAt slot = some payload → ∃ other, Packs json (other, payload)) :
    searchSlots json key page count =
      (newestIn (recordsBelow page pageId count) key).bind (unpacked json) := by
  induction count with
  | zero => rfl
  | succ slot ih =>
      unfold searchSlots
      rw [recordsBelow, List.range_succ, List.filterMap_append, newestIn_append]
      cases there : page.recordAt slot with
      | none =>
          rw [pageSlotRecord_none there, List.filterMap_cons, there]
          exact ih
      | some payload =>
          obtain ⟨other, value, packed⟩ := packs slot payload there
          have named := (payloadKey_pack packed).1
          rw [pageSlotRecord_packs there packed, List.filterMap_cons, there]
          dsimp only [Option.map_some, List.filterMap_nil]
          rw [newestIn, List.reverse_singleton, List.find?_singleton]
          by_cases same : other = key
          · subst same
            rw [if_pos rfl, if_pos (decide_eq_true named), Option.some_or, Option.bind_some,
              unpacked_packs packed]
          · have others : ¬ (decide (payloadKey payload = some key) = true) := by
              rw [decide_eq_true_eq, named]
              exact fun equal => same (Option.some.inj equal)
            rw [if_neg same, if_neg others, Option.none_or]
            exact ih

theorem searchPages_eq {h : TableHandler} (formed : h.WellFormed)
    (packs : ∀ record ∈ h.contents, ∃ other, Packs json (other, record.2)) {count : Nat}
    (inside : count ≤ h.totalPages) : (searchPages json key count h).1 =
      (newestIn ((List.range count).flatMap h.pageContents) key).bind (unpacked json) := by
  induction count generalizing h with
  | zero => rfl
  | succ pageId ih =>
      obtain ⟨page, h', read, seen, _⟩ := formed.readPage (show pageId < h.totalPages by omega)
      obtain ⟨keeps, pages, _, _, views⟩ := formed.readPage_keeps read
      have listed : ∀ slot payload, page.recordAt slot = some payload →
          ∃ other, Packs json (other, payload) := fun slot payload there =>
        packs ((pageId, slot), payload) (formed.mem_contents.mpr ⟨page, seen, there⟩)
      have same : h'.pageContents = h.pageContents := by
        funext other
        rw [pageContents, pageContents, views]
      have rest := ih keeps.formed (keeps.contents ▸ packs) (by omega)
      unfold searchPages
      rw [read]
      dsimp only
      rw [searchSlots_eq page pageId _ listed, List.range_succ, List.flatMap_append,
        newestIn_append, List.flatMap_singleton, pageContents_eq seen]
      cases found : newestIn (recordsBelow page pageId page.slots.length) key with
      | none =>
          rw [Option.none_or, ← same]
          exact rest
      | some record =>
          have member : record ∈ h.contents := by
            have here := (newestIn_mem found).1
            rw [← pageContents_eq seen] at here
            exact List.mem_flatMap.mpr ⟨pageId, List.mem_range.mpr (by omega), here⟩
          obtain ⟨other, value, packed⟩ := packs record member
          rw [Option.some_or, Option.bind_some, unpacked_packs packed]

variable {t : Table} {history : List (String × Value)}

/-- The newest record of a key has the value that was flushed last. -/
theorem Current.record (current : Current json t history) {record : (Nat × Nat) × Bytes}
    (newest : newestIn t.handler.contents key = some record) :
    ∃ value, packRecord json key value = .ok record.2 ∧
      readNewest json history key = json.decoded value := by
  have same := current.newest key
  rw [newest] at same
  cases last : newestValue history key with
  | none =>
      rw [last] at same
      cases same
  | some value =>
      rw [last] at same
      refine ⟨value, (Option.some.inj same).symm, ?_⟩
      rw [readNewest, last]
      rfl

theorem Current.no_record (current : Current json t history)
    (nothing : newestIn t.handler.contents key = none) : readNewest json history key = .null := by
  have same := current.newest key
  rw [nothing] at same
  rw [readNewest, Option.map_eq_none_iff.mp same.symm]
  rfl

theorem Current.search (current : Current json t history) :
    (searchPages json key t.handler.totalPages t.handler).1.getD .null =
      readNewest json history key := by
  rw [searchPages_eq current.flushed.spec.1 current.packs (Nat.le_refl _)]
  show ((newestIn t.handler.contents key).bind (unpacked json)).getD .null = _
  cases newest : newestIn t.handler.contents key with
  | none => exact (current.no_record newest).symm
  | some record =>
      obtain ⟨value, packs, same⟩ := current.record newest
      rw [Option.bind_some, unpacked_packs packs, same]
      rfl

theorem Current.lookup (current : Current json t history) :
    (lookupIn json t.diskIndex t.handler key).getD .null = readNewest json history key := by
  have index := current.index key
  rw [lookup_indexOf] at index
  cases newest : newestIn t.handler.contents key with
  | none =>
      rw [newest] at index
      rw [lookupIn, index]
      exact (current.no_record newest).symm
  | some record =>
      obtain ⟨value, packs, same⟩ := current.record newest
      have deletes := (payloadKey_pack packs).2
      rw [newest, Option.bind_some, deletes] at index
      rw [same]
      cases removed : isDeletion key record.2 with
      | true =>
          rw [removed, if_pos rfl] at index
          rw [lookupIn, index]
          exact (decoded_of_deletion packs removed).symm
      | false =>
          rw [removed, if_neg Bool.false_ne_true] at index
          have formed := current.flushed.spec.1
          obtain ⟨page, seen, there⟩ := formed.mem_contents.mp (newestIn_mem newest).1
          have inside : record.1.1 < t.handler.totalPages := by
            by_contra outside
            rw [formed.view_none (Nat.le_of_not_lt outside)] at seen
            cases seen
          obtain ⟨page', h', read, seen', _⟩ := formed.readPage inside
          obtain rfl := Option.some.inj (seen.symm.trans seen')
          rw [lookupIn, index]
          dsimp only
          rw [read]
          dsimp only
          rw [pageSlotRecord_packs there packs]
          rfl

theorem Current.read (current : Current json t history) :
    (t.readFromDisk json key).1.getD .null = readNewest json history key := by
  have index := current.index key
  rw [lookup_indexOf] at index
  cases newest : newestIn t.handler.contents key with
  | none =>
      rw [newest] at index
      rw [readFromDisk, index]
      exact (current.no_record newest).symm
  | some record =>
      obtain ⟨value, packs, same⟩ := current.record newest
      rw [newest, Option.bind_some, (payloadKey_pack packs).2] at index
      have indexed : t.Indexed key record.2 := by
        unfold Indexed
        split at index
        · rename_i removed
          rw [if_pos removed]
          exact index
        · rename_i kept
          rw [if_neg kept]
          exact ⟨record.1, index, (newestIn_mem newest).1⟩
      rw [same, readFromDisk_indexed current.flushed.spec.1 packs indexed]

end

/-- The index in use, the one that is built from the bytes of the file, and the search from
the end find the value that was flushed last, and `None` where this is a deletion or
nothing. -/
structure ViewsAgree (json : Json) (t : Table) (history : List (String × Value)) (key : String) :
    Prop where
  live : (lookupIn json t.diskIndex t.handler key).getD .null = readNewest json history key
  rebuilt : (lookupIn json (initDiskIndex (openTable t.handler.file)).2 t.handler key).getD .null =
    readNewest json history key
  search : (searchPages json key t.handler.totalPages t.handler).1.getD .null =
    readNewest json history key
  read : (t.readFromDisk json key).1.getD .null = readNewest json history key

theorem Current.views {json : Json} {t : Table} {history : List (String × Value)}
    (current : Current json t history) (key : String) : ViewsAgree json t history key := by
  obtain ⟨formed, stored, _⟩ := current.flushed.spec
  obtain ⟨formed', contents⟩ := stored.reopen formed
  refine ⟨current.lookup, ?_, current.search, current.read⟩
  have same : (initDiskIndex (openTable t.handler.file)).2.lookup key = t.diskIndex.lookup key := by
    rw [(initDiskIndex_spec formed').2.2, contents, current.index]
  rw [lookupIn, same]
  exact current.lookup

/-- The three views agree after every run of flushes, and again in a new process. -/
theorem views_agree {json : Json} {t : Table} {history : List (String × Value)}
    (kept : Kept json t history) (key : String) :
    ViewsAgree json t history key ∧ ViewsAgree json (Table.init t.handler.file) history key :=
  ⟨kept.current.views key, kept.reopen.current.views key⟩

theorem views_agree_of_two : ∃ t, Kept wordJson t [("a", .str "x"), ("b", .null)] ∧
    ViewsAgree wordJson t [("a", .str "x"), ("b", .null)] "a" := by
  have packsB : packRecord wordJson "b" .null = .ok [0, 1, 0x62, 0x6E, 0x75, 0x6C, 0x6C] := by
    decide +kernel
  have packsA : packRecord wordJson "a" (.str "x") = .ok recordA.2 := by decide +kernel
  have written := (Written.empty.insert packsA).insert packsB
  have flushes : (flushMemtable { Table.init File.empty with
      immutable := some ((MemTable.empty.insert "a" recordA.2).insert "b"
        [0, 1, 0x62, 0x6E, 0x75, 0x6C, 0x6C]) }).isOk = true := by decide +kernel
  cases done : flushMemtable { Table.init File.empty with
      immutable := some ((MemTable.empty.insert "a" recordA.2).insert "b"
        [0, 1, 0x62, 0x6E, 0x75, 0x6C, 0x6C]) } with
  | error e =>
      rw [done] at flushes
      cases flushes
  | ok t =>
      have kept := Kept.new.flush written done
      exact ⟨t, kept, (views_agree kept "a").1⟩

end CachyDb.Table
