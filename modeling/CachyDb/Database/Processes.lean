import CachyDb.Database.Continuity
import CachyDb.Database.Reachable
import CachyDb.Storage.Readable

set_option autoImplicit false

/-! What holds of the processes in every run, also of those that swap over a memtable that is
not flushed, write a key out of turn, or die before they have flushed what they recovered: what
has been logged can be found again, and the directory can be opened. -/

namespace CachyDb.Database.Lifetime

open ByteString TableHandler Transition Chronicle

/-- What is written is a JSON value. -/
def Ordinary (json : Json) (_ : Lifetime) : Event → Prop
  | .work e => e.Ordinary json
  | _ => True

/-- The log has what this process was handed, the tables have it or have known it longer, and
what is marked has been synced. -/
structure Working (json : Json) (s : Lifetime) : Prop where
  logging : s.Logging
  sound : s.store.Sound json
  traced : ∀ name, (s.store.site name).Traced
  readable : ∀ name, (s.store.site name).Readable
  synced : ∀ name, (s.store.site name).Synced
  packed : ∀ r ∈ s.log.records, Packed json r.2
  counter : s.opened ≤ s.store.router.wal.globalTxId
  ids : ∀ call ∈ s.recent, s.opened ≤ call.2.txId ∧ call.2.txId < s.store.router.wal.globalTxId
  sorted : s.recent.Pairwise fun new old => old.2.txId < new.2.txId
  logged : ∀ call ∈ s.recent, call.2.record ∈ s.log.records
  waiting : ∀ client name w, s.store.Delayed client name w → (name, w) ∈ s.recent
  entered : ∀ name, ∀ e ∈ (s.store.site name).written, (name, e) ∈ s.recent ∨ e.txId < s.opened
  marked : ∀ txId ∈ s.log.marked, s.opened ≤ txId →
    ∃ name e, e.txId = txId ∧ (s.store.site name).Remembers e

section

variable {json : Json} {s t : Lifetime} {e : Store.Event} {maxMemtableSize cacheCapacity : Nat}

theorem Working.below (working : s.Working json) : s.store.Below := by
  intro name entry member
  rcases working.entered name entry member with recent | early
  · exact (working.ids _ recent).2
  · exact Nat.lt_of_lt_of_le early working.counter

/-- An id of this process belongs to one call. -/
theorem Working.unique (working : s.Working json) {call other : String × Entry}
    (here : call ∈ s.recent) (there : other ∈ s.recent) (id : call.2.txId = other.2.txId) :
    call = other :=
  @eq_of_stamp _ s.recent (fun call => call.2.txId) working.sorted call other here there id

/-- A step hands calls to the log under new ids, in order. -/
theorem Working.called (working : s.Working json) {store : Store}
    (step : Store.Step json s.store e store) :
    (∀ call ∈ s.store.calls json e, s.store.router.wal.globalTxId ≤ call.2.txId ∧
      call.2.txId < store.router.wal.globalTxId) ∧
      (s.store.calls json e).Pairwise fun old new => old.2.txId < new.2.txId := by
  obtain ⟨rest, whole⟩ := s.store.calls_prefix json e
  obtain ⟨ids, counter⟩ := Store.logged_ids working.sound step
  have ascending : ((s.store.calls json e).map fun call => call.2.txId).Pairwise (· < ·) := by
    have all := @List.pairwise_lt_range' s.store.router.wal.globalTxId
      (s.store.loggedRecords json e).length 1 Nat.one_pos
    rw [← ids, ← whole, List.map_append, List.map_map] at all
    exact (List.pairwise_append.mp all).1
  refine ⟨fun call member => ?_, List.pairwise_map.mp ascending⟩
  have inside : call.2.txId ∈ (s.store.loggedRecords json e).map Prod.fst := by
    rw [← whole, List.map_append, List.map_map]
    exact List.mem_append_left _ (List.mem_map_of_mem member)
  rw [ids, List.mem_range'_1] at inside
  omega

theorem Working.work {store : Store} (working : s.Working json) (ordinary : e.Ordinary json)
    (step : Store.Step json s.store e store) (fits : (s.store.follow json s.log e).Fits) :
    Working json { s with
      store := store
      log := s.store.follow json s.log e
      recent := (s.store.calls json e).reverse ++ s.recent } := by
  have sound := working.sound
  have wal := working.logging.wal
  have acts := sound.acts step
  have records := Store.follow_records sound step wal
  obtain ⟨inOrder, whole⟩ := Store.follow_whole sound working.below working.traced wal
    working.logging.inOrder working.logging.whole fits
  obtain ⟨called, ascending⟩ := working.called step
  constructor
  · exact ⟨Store.follow_wal sound step wal, inOrder, whole⟩
  · exact sound.step step
  · intro name
    dsimp only
    rw [acts.site]
    exact (working.traced name).act (sound.sites name) (acts.valid name)
  · intro name
    dsimp only
    rw [acts.site]
    exact (working.readable name).act (sound.sites name) (acts.valid name)
      fun h loaded => (Store.load_inv sound loaded).file
  · intro name
    dsimp only
    rw [acts.site]
    exact (working.synced name).act (sound.sites name) (acts.valid name)
  · intro r member
    dsimp only at member
    rw [records] at member
    rcases List.mem_append.mp member with old | new
    · exact working.packed r old
    · exact Store.logged_packed ordinary r new
  · exact Nat.le_trans working.counter acts.counter
  · intro call member
    rcases List.mem_append.mp member with new | old
    · obtain ⟨late, below⟩ := called call (List.mem_reverse.mp new)
      exact ⟨Nat.le_trans working.counter late, below⟩
    · obtain ⟨late, below⟩ := working.ids call old
      exact ⟨late, Nat.lt_of_lt_of_le below acts.counter⟩
  · refine List.pairwise_append.mpr ⟨List.pairwise_reverse.mpr ascending, working.sorted, ?_⟩
    intro new member old recent
    exact Nat.lt_of_lt_of_le (working.ids old recent).2 (called new (List.mem_reverse.mp member)).1
  · intro call member
    dsimp only
    rw [records]
    rcases List.mem_append.mp member with new | old
    · exact List.mem_append_right _ ((s.store.calls_prefix json e).subset
        (List.mem_map_of_mem (List.mem_reverse.mp new)))
    · exact List.mem_append_left _ (working.logged call old)
  · intro client name w waits
    rcases Store.delayed_before step waits with ⟨waited, _⟩ | ⟨new, _⟩
    · exact List.mem_append_right _ (working.waiting client name w waited)
    · exact List.mem_append_left _ (List.mem_reverse.mpr new)
  · intro name entry member
    dsimp only at member ⊢
    rw [acts.site, Site.act_written] at member
    have before (old : entry ∈ (s.store.site name).written) :
        (name, entry) ∈ (s.store.calls json e).reverse ++ s.recent ∨ entry.txId < s.opened :=
      (working.entered name entry old).imp (List.mem_append_right _) id
    cases acted : s.store.actOn json name e with
    | enter entries txIds =>
        rw [acted] at member
        rcases List.mem_append.mp member with new | old
        · left
          have inside := List.mem_reverse.mp new
          rcases Store.entered_from acted with logged | ⟨client, _, waited⟩
          · exact List.mem_append_left _ (List.mem_reverse.mpr (logged entry inside))
          · exact List.mem_append_right _ (working.waiting client name entry (waited entry inside))
        · exact before old
    | _ =>
        rw [acted] at member
        exact before member
  · intro txId member late
    dsimp only at member ⊢
    rw [Store.follow_marked sound step, Finset.mem_union, List.mem_toFinset] at member
    -- what was remembered still is, and what is marked now has just been synced
    have remembered : ∃ name entry, entry.txId = txId ∧ (s.store.site name).Remembers entry := by
      rcases member with old | new
      · exact working.marked txId old late
      · cases e with
        | flush name i =>
            change txId ∈ s.store.marks name i at new
            obtain ⟨task, known, marking, _⟩ := Store.marks_entered sound new
            simp only [Store.marks, known, if_pos marking] at new
            exact ⟨name, (sound.sites name).remembers (working.traced name)
              (List.mem_of_getElem? known) marking new⟩
        | _ => cases new
    obtain ⟨name, entry, id, remembers⟩ := remembered
    refine ⟨name, entry, id, ?_⟩
    rw [acts.site]
    exact remembers.act (working.synced name) _

/-- What a thread of the log leaves as it is. -/
structure Allocated (s t : Lifetime) : Prop where
  logging : t.Logging
  alike : Store.Alike s.store t.store
  cache : t.store.router.cache = s.store.router.cache
  records : t.log.records = s.log.records
  marked : t.log.marked = s.log.marked
  opened : t.opened = s.opened
  recent : t.recent = s.recent

/-- The thread touches no record, and its file is not read. -/
theorem Logging.preAllocated {fileId : Nat} (logging : s.Logging)
    (formed : s.store.router.cache.WellFormed) (step : s.preAllocate fileId = some t) :
    Allocated s t := by
  unfold preAllocate at step
  dsimp only at step
  split at step
  · rename_i started
    cases step
    have wal := logging.wal
    have fields := Wal.preAllocateAsync_fields s.store.router.wal fileId
    have allocated : (s.log.preAllocate fileId).wal =
        Wal.runPreAllocation s.store.router.wal fileId := by
      rw [← wal]
      rfl
    refine ⟨⟨allocated, ?_, logging.whole.nothingLost, logging.whole.all⟩,
      ⟨rfl, rfl, fun name => Router.table_congr (by rfl) (by rfl) name,
        Nat.le_of_eq fields.1.symm, rfl, formed, rfl⟩, rfl, ?_, rfl, rfl, rfl⟩
    · exact logging.inOrder.preAllocate fileId (by rw [wal]; exact started)
    · rw [Wal.Log.records, allocated, Wal.Log.records, wal]
      exact congrArg (s.log.swapped ++ ·) fields.2.1
  · cases step

theorem Working.preAllocated {fileId : Nat} (working : s.Working json)
    (step : s.preAllocate fileId = some t) : t.Working json := by
  obtain ⟨logging, alike, _, records, marked, opened, recent⟩ :=
    working.logging.preAllocated working.sound.cache step
  have site := alike.site
  have delayed {client : Nat} {name : String} {w : Entry} (waits : t.store.Delayed client name w) :
      s.store.Delayed client name w := by
    rw [Store.Delayed, ← alike.clients]
    exact waits
  constructor
  · exact logging
  · exact working.sound.alike alike
  · exact fun name => site name ▸ working.traced name
  · exact fun name => site name ▸ working.readable name
  · exact fun name => site name ▸ working.synced name
  · exact fun r member => working.packed r (records ▸ member)
  · exact opened ▸ Nat.le_trans working.counter alike.counter
  · intro call member
    obtain ⟨late, below⟩ := working.ids call (recent ▸ member)
    exact ⟨opened ▸ late, Nat.lt_of_lt_of_le below alike.counter⟩
  · exact recent ▸ working.sorted
  · intro call member
    rw [records]
    exact working.logged call (recent ▸ member)
  · exact fun client name w waits => recent ▸ working.waiting client name w (delayed waits)
  · intro name entry member
    rw [recent, opened]
    exact working.entered name entry (site name ▸ member)
  · intro txId member late
    obtain ⟨name, entry, id, remembers⟩ :=
      working.marked txId (marked ▸ member) (opened ▸ late)
    exact ⟨name, entry, id, (site name).symm ▸ remembers⟩

/-- Recovery puts no record into the log. -/
theorem Reopened.kept (reopened : Reopened json s t maxMemtableSize cacheCapacity)
    (whole : s.log.Whole) {r : Wal.Record} (member : r ∈ t.log.records) : r ∈ s.log.records := by
  rw [Wal.Log.records, reopened.buffer, List.append_nil, ← reopened.logging.whole.all,
    reopened.written, whole.all] at member
  exact List.mem_append_left _ member

/-- What is recovered was in the log. -/
theorem Reopened.recovered_logged (reopened : Reopened json s t maxMemtableSize cacheCapacity)
    (whole : s.log.Whole) {name : String} {entry : Entry}
    (member : entry ∈ t.recovered json name) :
    ∃ r ∈ s.log.records, recoveredEntry json r = some (name, entry) := by
  rw [recovered, Recovery.entriesFor, List.mem_reverse, List.mem_filterMap] at member
  obtain ⟨r, left, found⟩ := member
  obtain ⟨⟨home, other⟩, recovers, same⟩ := Option.bind_eq_some_iff.mp found
  split at same
  · rename_i here
    cases same
    cases here
    rw [reopened.replayed] at left
    have there := List.mem_of_mem_filter left
    rw [whole.all] at there
    exact ⟨r, List.mem_append_left _ there, recovers⟩
  · cases same

/-- What recovery finds for a table was packed. -/
theorem Working.recovered_packs (working : s.Working json)
    (reopened : Reopened json s t maxMemtableSize cacheCapacity) {name : String} {entry : Entry}
    (member : entry ∈ t.recovered json name) :
    packRecord json entry.key entry.value = .ok entry.packed ∧ json.Faithful entry.value := by
  obtain ⟨r, there, recovers⟩ := reopened.recovered_logged working.logging.whole member
  obtain ⟨packs, faithful, _⟩ := recoveredEntry_packs (working.packed r there) recovers
  exact ⟨packs, faithful⟩

/-- A new process starts with what it has found in the files. -/
theorem Working.reopened (working : s.Working json)
    (reopened : Reopened json s t maxMemtableSize cacheCapacity) : t.Working json := by
  have readable (name : String) : (openTable (t.files name)).WellFormed := by
    rw [reopened.files]
    exact working.readable name
  have file (name : String) : (t.store.site name).table.handler.file = t.files name := by
    rw [(reopened.unflushed name).2.2]
    exact (Table.init_loads (readable name)).file
  constructor
  · exact reopened.logging
  · apply reopened.sound readable
    exact fun name entry member => (working.recovered_packs reopened member).1
  · intro name
    rw [Site.Traced, (reopened.unflushed name).1]
    exact fun task member => by cases member
  · intro name
    rw [Site.Readable, file]
    exact readable name
  · intro name
    have synced : (t.store.site name).synced = t.files name := by
      rw [reopened.site, Site.enterAll_synced]
    rw [Site.Synced, synced, file]
    exact fun place payload there => there
  · exact fun r member => working.packed r (reopened.kept working.logging.whole member)
  · exact Nat.le_of_eq reopened.opened.symm
  · rw [reopened.recent]
    exact fun call member => by cases member
  · rw [reopened.recent]
    exact List.Pairwise.nil
  · rw [reopened.recent]
    exact fun call member => by cases member
  · rintro client name w ⟨_, _, _, at_log, _⟩
    rw [reopened.idle] at at_log
    cases at_log
  · intro name entry member
    rw [reopened.all_recovered] at member
    exact Or.inr (reopened.early member)
  · intro txId marked late
    have below := reopened.logging.inOrder.markedBelow txId marked
    rw [reopened.logging.wal, reopened.opened] at below
    omega

theorem Working.step {e : Event} (working : s.Working json) (step : Step json s e t)
    (ordinary : s.Ordinary json e) (fits : t.log.Fits) : t.Working json := by
  cases e with
  | work e =>
      obtain ⟨store, moved, rfl⟩ := Option.map_eq_some_iff.mp step
      exact working.work ordinary moved fits
  | preAllocate fileId => exact working.preAllocated step
  | reopen maxMemtableSize cacheCapacity =>
      exact working.reopened (working.logging.reopened step)

theorem first_working (json : Json) (maxMemtableSize cacheCapacity : Nat) :
    (first maxMemtableSize cacheCapacity).Working json := by
  have site (name : String) : (first maxMemtableSize cacheCapacity).store.site name =
      ⟨⟨[], File.empty, [], [], []⟩, Table.init File.empty⟩ := Store.start_site _ _ _ _ name
  have readable := Store.empty_readable
  have file : (Table.init File.empty).handler.file = File.empty := (Table.init_loads readable).file
  constructor
  · exact ⟨rfl, Wal.Log.start_inOrder, rfl, rfl⟩
  · exact Store.start_sound json _ _ _ fun _ => readable
  · exact fun name task member => by cases member
  · intro name
    rw [site, Site.Readable, file]
    exact readable
  · intro name
    rw [site, Site.Synced, file]
    exact fun place payload there => there
  · exact fun r member => by cases member
  · exact Nat.le_refl 0
  · exact fun call member => by cases member
  · exact List.Pairwise.nil
  · exact fun call member => by cases member
  · rintro client name w ⟨_, _, _, at_log, _⟩
    cases at_log
  · exact fun name entry member => by cases member
  · exact fun txId member => by cases member

theorem run_working {events : List Event} (run : Run (Guarded (Step json) (Ordinary json))
    (first maxMemtableSize cacheCapacity) events s) (fits : s.log.Fits) : s.Working json := by
  have working : s.log.Fits → s.Working json := by
    apply run.preserves (P := fun s => s.log.Fits → s.Working json)
    · exact fun _ => first_working json maxMemtableSize cacheCapacity
    · rintro u e v before ⟨step, ordinary⟩ fits
      exact (before (fits.before (perform_swapped step))).step step ordinary fits
  exact working fits

/-- A call that was logged is still in the log buffer, or recovery finds its record, or the file
as of the last sync has a record of the key that entered with it or after it. -/
theorem Working.recoverable (working : s.Working json) : ∀ call ∈ s.recent,
    call.2.record ∈ s.store.router.wal.walBuffer ∨
    call.2.record ∈ (Wal.readWal s.store.router.wal.disk).records ∨
    (s.store.site call.1).Remembers call.2 := by
  intro call recent
  have wal := working.logging.wal
  rcases List.mem_append.mp (working.logged call recent) with there | buffered
  · right
    rw [← working.logging.whole.all] at there
    by_cases marked : call.2.txId ∈ s.log.marked
    · right
      obtain ⟨name, entry, id, remembers⟩ :=
        working.marked call.2.txId marked (working.ids call recent).1
      -- the record that was marked is this one
      have inside : entry ∈ (s.store.site name).written := by
        obtain ⟨newer, older, _, _, whole, _⟩ := remembers
        rw [whole]
        exact List.mem_append_right _ List.mem_cons_self
      rcases working.entered name entry inside with mine | early
      · have same := working.unique mine recent id
        cases same
        exact remembers
      · have late := (working.ids call recent).1
        omega
    · left
      rw [← wal, working.logging.inOrder.readWal, List.mem_filter, decide_eq_true_iff]
      exact ⟨there, marked⟩
  · exact Or.inl (wal ▸ buffered)

/-- What is allowed where reads last is ordinary. -/
theorem Allowed.ordinary {e : Event} (allowed : s.Allowed json e) : s.Ordinary json e := by
  cases e with
  | work e =>
      cases e with
      | set client name key value => exact allowed.2.2.2
      | append client name records => exact fun record member => (allowed.2.2 record member).2.2
      | _ => trivial
  | _ => trivial

theorem WrittenOnce.ordinary {s t : Lifetime} (once : WrittenOnce s t) :
    Run (Guarded (Step wordJson) (Ordinary wordJson)) (first 2 1) oneWritten s :=
  once.run.mono fun _ _ _ taken => ⟨taken.1, Allowed.ordinary taken.2⟩

/-- What an opening of the directory would give for a key: the last record of the key that
recovery finds for the table, or what the table file has. -/
def survivor (json : Json) (s : Lifetime) (name key : String) : Value :=
  let records := (Wal.readWal s.store.router.wal.disk).records
  ((latest (Recovery.entriesFor json records name).reverse key).map Entry.value).getD
    (Store.original json (fun name => (s.store.site name).table.handler.file) name key)

/-- All that was packed is recovered, unless it has an empty key. -/
theorem recoveredEntry_isSome {record : Wal.Record} (packed : Packed json record.2) :
    (recoveredEntry json record).isSome ↔ Table.payloadKey record.2 ≠ some "" := by
  obtain ⟨key, value, packs, faithful⟩ := packed
  rw [(Table.payloadKey_pack packs).1, recoveredEntry, unpackRecord_decoded packs]
  dsimp only
  split
  · rename_i unnamed
    simp only [unnamed, Option.isSome_none, Bool.false_eq_true, ne_eq, not_true_eq_false]
  · rename_i named
    simp only [named, Option.isSome_some, ne_eq, Option.some.injEq, not_false_eq_true]

/-- The first lookup of a key in the new process. -/
theorem Working.survives (working : s.Working json)
    (reopened : Reopened json s t maxMemtableSize cacheCapacity) (name key : String) :
    (t.store.router.getLocked json name key).1 = .ok (s.survivor json name key) := by
  have next := working.reopened reopened
  have sound := next.sound.sites name
  have records : (Wal.readWal s.store.router.wal.disk).records = t.replayed := by
    rw [← working.logging.wal, working.logging.inOrder.readWal, reopened.replayed]
  obtain ⟨_, _, _, slot, index, handler⟩ := Site.enterAll_frame
    ⟨⟨[], t.files name, [], [], []⟩, Table.init (t.files name)⟩
    (Recovery.entriesFor json t.replayed name)
  rw [← reopened.site] at slot index handler
  rw [(Router.getLocked_spec json next.sound.cache name key).answers]
  show ((t.store.site name).table.find json key).1.answer = _
  rw [survivor, Table.find, MemTable.search_eq_lookup, sound.active key, reopened.active]
  dsimp only
  rw [records, show (Recovery.entriesFor json t.replayed name).reverse = t.recovered json name from rfl]
  cases newest : latest (t.recovered json name) key with
  | some e =>
      obtain ⟨packs, faithful⟩ := working.recovered_packs reopened (latest_mem newest).1
      simp only [Option.map_some, Table.Found.answer, Table.unpackValue, unpackRecord_decoded packs,
        Except.map, faithful.decoded, Option.getD_some]
  | none =>
      have unset : (t.store.site name).table.immutable = none := slot
      simp only [Option.map_none, unset, Option.bind_none, Table.Found.answer, Option.getD_none]
      rw [Table.readFromDisk_congr json key index handler, Store.original, reopened.files]

/-- After the recovery nothing is left in the log but records with an empty key. -/
theorem Working.left (working : s.Working json)
    (reopened : Reopened json s t maxMemtableSize cacheCapacity) :
    (Wal.readWal t.store.router.wal.disk).records =
      (Wal.readWal s.store.router.wal.disk).records.filter fun r =>
        Table.payloadKey r.2 = some "" := by
  rw [← reopened.logging.wal, reopened.logging.inOrder.readWal, reopened.written,
    ← working.logging.wal, working.logging.inOrder.readWal, List.filter_filter]
  apply List.filter_congr
  intro r member
  have packed : Packed json r.2 := by
    apply working.packed
    rw [Wal.Log.records, ← working.logging.whole.all]
    exact List.mem_append_left _ member
  have named := recoveredEntry_isSome packed
  have recovered : r.1 ∈ recoveredIds json t.replayed ↔
      r.1 ∉ s.log.marked ∧ Table.payloadKey r.2 ≠ some "" := by
    rw [← named]
    constructor
    · intro inside
      obtain ⟨r', found, id⟩ := List.mem_map.mp inside
      rw [List.mem_filter, reopened.replayed, List.mem_filter, decide_eq_true_iff] at found
      have distinct := working.logging.inOrder.settled.disk.ascending.imp Nat.ne_of_lt
      have same := List.inj_on_of_nodup_map distinct found.1.1 member id
      rw [same] at found
      exact ⟨found.1.2, found.2⟩
    · rintro ⟨unmarked, entry⟩
      apply List.mem_map_of_mem
      rw [List.mem_filter, reopened.replayed, List.mem_filter, decide_eq_true_iff]
      exact ⟨⟨member, unmarked⟩, entry⟩
  have marked : r.1 ∉ t.log.marked ↔ r.1 ∉ s.log.marked ∧ Table.payloadKey r.2 = some "" := by
    rw [reopened.marked r member, recovered]
    tauto
  rw [← Bool.decide_and, decide_eq_decide, marked]
  exact and_comm

theorem Logging.opens (logging : s.Logging) (json : Json) {maxMemtableSize cacheCapacity : Nat}
    (limit : 0 < maxMemtableSize) (room : 0 < cacheCapacity) :
    ∃ t, s.reopen json maxMemtableSize cacheCapacity = some t := by
  obtain ⟨txId, _, opens, _⟩ := logging.inOrder.reopen
  have positive : ¬ (maxMemtableSize = 0 ∨ cacheCapacity = 0) := by omega
  rw [reopen, if_neg positive, ← logging.wal, opens]
  exact ⟨_, rfl⟩

/-- Whatever happened before, the directory can be opened. `_recover_transactions` then gives the
new process for each key the last record that was in the log and not completed, or what the table
file has, and all records that it has recovered are completed. -/
theorem opening_recovers (json : Json) {maxMemtableSize cacheCapacity : Nat}
    {events : List Event} {s : Lifetime}
    (run : Run (Guarded (Step json) (Ordinary json)) (first maxMemtableSize cacheCapacity) events s)
    (fits : s.log.Fits) {maxMemtableSize' cacheCapacity' : Nat} (limit : 0 < maxMemtableSize')
    (room : 0 < cacheCapacity') :
    ∃ t, s.reopen json maxMemtableSize' cacheCapacity' = some t ∧
      t.store.router =
        recoverTransactions json (s.restarted t.opened maxMemtableSize' cacheCapacity').router ∧
      (∀ name key,
        (t.store.router.getLocked json name key).1 = .ok (s.survivor json name key)) ∧
      (Wal.readWal t.store.router.wal.disk).records =
        (Wal.readWal s.store.router.wal.disk).records.filter fun r =>
          Table.payloadKey r.2 = some "" := by
  have working := run_working run fits
  obtain ⟨t, reopens⟩ := working.logging.opens json limit room
  have reopened := working.logging.reopened reopens
  exact ⟨t, reopens, reopened.router, working.survives reopened, working.left reopened⟩

theorem opening_recovers_one :
    ∃ s t, Run (Guarded (Step wordJson) (Ordinary wordJson)) (first 2 1) oneWritten s ∧
      s.reopen wordJson 3 2 = some t ∧
      (t.store.router.getLocked wordJson "t" "t:a").1 = .ok (s.survivor wordJson "t" "t:a") := by
  obtain ⟨s, _, once⟩ := written_once
  obtain ⟨t, reopens, _, survives, _⟩ := opening_recovers wordJson once.ordinary
    (oneRecord_fits once.before) (by decide : 0 < 3) (by decide : 0 < 2)
  exact ⟨s, t, once.ordinary, reopens, survives "t" "t:a"⟩

end

end CachyDb.Database.Lifetime
