import CachyDb.Database.Lasting

set_option autoImplicit false

/-! What a new process starts with: the tables that its recovery has filled, and the log in
which all that it found is completed. -/

namespace CachyDb

open ByteString TableHandler

/-- The first index of a table loads its pages. -/
theorem Table.init_loads {file : File} (readable : (openTable file).WellFormed) :
    Loads (openTable file) (Table.init file).handler := by
  have loads (pageIds : List Nat) (state : TableHandler × AList (fun _ : String => Nat × Nat))
      (coherent : state.1.Coherent) : Loads state.1 (pageIds.foldl indexPage state).1 := by
    induction pageIds generalizing state with
    | nil => exact Loads.refl coherent
    | cons pageId rest ih =>
        have first : Loads state.1 (indexPage state pageId).1 := by
          unfold indexPage
          cases read : state.1.readPage pageId with
          | error _ => exact Loads.refl coherent
          | ok result => exact coherent.loads read
        exact first.trans (ih _ first.grows.coherent)
  exact loads _ (openTable file, ∅) (openTable_coherent readable)

/-- A read of the file takes the index and the pages. -/
theorem Table.readFromDisk_congr (json : Json) (key : String) {t t' : Table}
    (index : t.diskIndex = t'.diskIndex) (handler : t.handler = t'.handler) :
    (t.readFromDisk json key).1 = (t'.readFromDisk json key).1 := by
  unfold Table.readFromDisk
  rw [index, handler]
  cases t'.diskIndex.lookup key with
  | none => rfl
  | some place =>
      dsimp only
      cases t'.handler.readPage place.1 with
      | error _ => rfl
      | ok read =>
          dsimp only
          cases pageSlotRecord json read.1 place.2 with
          | none => rfl
          | some record => rfl

namespace Store

/-- A table that has just been opened. -/
theorem start_site (wal : Wal) (tableFiles : String → File) (maxMemtableSize cacheCapacity : Nat)
    (name : String) : (start wal tableFiles maxMemtableSize cacheCapacity).site name =
      ⟨⟨[], tableFiles name, [], [], []⟩, Table.init (tableFiles name)⟩ := by
  have known : (start wal tableFiles maxMemtableSize cacheCapacity).router.table name =
      Table.init (tableFiles name) := by
    simp only [start, Router.init, Router.table, Router.getTableState, AList.lookup_empty]
  rw [site, known]
  rfl

end Store

end CachyDb

namespace CachyDb.Database.Lifetime

open ByteString TableHandler Transition Chronicle

variable {json : Json} {s t : Lifetime} {maxMemtableSize cacheCapacity : Nat}

/-- What is left to replay was handed to the log by the process that has ended. -/
theorem Journal.unreplayed (journal : s.Journal json)
    (reopened : Reopened json s t maxMemtableSize cacheCapacity) {r : Wal.Record}
    (member : r ∈ t.replayed) : ∃ call ∈ s.recent, call.2.record = r ∧
      recoveredEntry json r = some call := by
  rw [reopened.replayed, List.mem_filter, decide_eq_true_iff] at member
  rcases journal.origin member.1 with old | ⟨call, recent, rfl⟩
  · exact absurd (journal.completed r old).2 member.2
  · exact ⟨call, recent, rfl, (journal.recent_genuine recent).recovered⟩

/-- The log of the new process. -/
theorem Journal.reopened (journal : s.Journal json)
    (reopened : Reopened json s t maxMemtableSize cacheCapacity) : t.Journal json := by
  have whole := reopened.logging.whole.all
  refine ⟨reopened.logging, Nat.le_of_eq reopened.opened.symm, ?_, ?_, fun r member => ?_, ?_, ?_⟩
  · rw [Wal.Log.records, reopened.buffer, ← whole, reopened.written, reopened.found,
      reopened.recent]
    rfl
  · rw [reopened.written, reopened.found]
  · rw [reopened.found] at member
    refine ⟨reopened.before r member, (reopened.marked r member).mpr ?_⟩
    by_cases marked : r.1 ∈ s.log.marked
    · exact Or.inl marked
    · have left : r ∈ t.replayed := by
        rw [reopened.replayed, List.mem_filter, decide_eq_true_iff]
        exact ⟨member, marked⟩
      obtain ⟨call, _, _, entry⟩ := journal.unreplayed reopened left
      right
      apply List.mem_map_of_mem (f := Prod.fst)
      rw [List.mem_filter, entry]
      exact ⟨left, rfl⟩
  · rw [reopened.recent]
    exact fun call member => by cases member
  · rw [history, reopened.recent, List.nil_append, reopened.past]
    exact journal.genuine

/-- The entries that are recovered for a table were handed to the log for it. -/
theorem Journal.recovered_from (journal : s.Journal json)
    (reopened : Reopened json s t maxMemtableSize cacheCapacity) {name : String} {entry : Entry}
    (member : entry ∈ t.recovered json name) :
    (name, entry) ∈ s.recent ∧ entry.record ∈ t.replayed := by
  rw [recovered, Recovery.entriesFor, List.mem_reverse, List.mem_filterMap] at member
  obtain ⟨r, left, found⟩ := member
  obtain ⟨call, recent, record, same⟩ := journal.unreplayed reopened left
  rw [same, Option.bind_some] at found
  split at found
  · rename_i here
    cases found
    rw [← here]
    exact ⟨recent, record ▸ left⟩
  · cases found

/-- What the log has for a key, not completed, is recovered. -/
theorem Journal.recovers (journal : s.Journal json)
    (reopened : Reopened json s t maxMemtableSize cacheCapacity) {call : String × Entry}
    (recent : call ∈ s.recent) (there : call.2.record ∈ s.log.written)
    (unmarked : call.2.txId ∉ s.log.marked) : call.2 ∈ t.recovered json call.1 := by
  rw [recovered, Recovery.entriesFor, List.mem_reverse, List.mem_filterMap]
  refine ⟨call.2.record, ?_, ?_⟩
  · rw [reopened.replayed, List.mem_filter, decide_eq_true_iff]
    exact ⟨there, unmarked⟩
  · rw [(journal.recent_genuine recent).recovered, Option.bind_some, if_pos rfl]

/-- The newest recovered entry comes first. -/
theorem Reopened.recovered_sorted (reopened : Reopened json s t maxMemtableSize cacheCapacity)
    (logging : s.Logging) (name : String) :
    (t.recovered json name).Pairwise fun new old => old.txId < new.txId := by
  have ascending := logging.inOrder.settled.disk.ascending
  have filtered : (t.replayed.map Prod.fst).Pairwise (· < ·) := by
    rw [reopened.replayed]
    exact ascending.sublist (List.filter_sublist.map Prod.fst)
  rw [recovered, List.pairwise_reverse, Recovery.entriesFor, List.pairwise_filterMap]
  apply (List.pairwise_map.mp filtered).imp
  intro r r' below e first e' second
  have id {r : Wal.Record} {e : Entry} (found : ((recoveredEntry json r).bind fun both =>
      if both.1 = name then some both.2 else none) = some e) : e.txId = r.1 := by
    obtain ⟨both, entry, same⟩ := Option.bind_eq_some_iff.mp found
    split at same
    · cases same
      exact (Recovery.recoveredEntry_packed entry).2
    · cases same
  rw [id first, id second]
  exact below

/-- Each table of the new process, with what was recovered for it in the active memtable. -/
theorem Reopened.site (reopened : Reopened json s t maxMemtableSize cacheCapacity) (name : String) :
    t.store.site name = (Recovery.entriesFor json t.replayed name).foldl Site.enter
      ⟨⟨[], t.files name, [], [], []⟩, Table.init (t.files name)⟩ := by
  rw [reopened.store.site, restarted, Store.start_site, reopened.files]

/-- Nobody has written to it yet. -/
theorem Reopened.idle (reopened : Reopened json s t maxMemtableSize cacheCapacity)
    (client : Nat) : t.store.clients client = .idle := by
  rw [reopened.store.clients]
  rfl

/-- All that its memtables have seen has been recovered. -/
theorem Reopened.all_recovered (reopened : Reopened json s t maxMemtableSize cacheCapacity)
    (name : String) : (t.store.site name).written = t.recovered json name := by
  rw [reopened.site, (Site.enterAll_frame _ _).2.2.1, List.append_nil]
  rfl

theorem Reopened.active (reopened : Reopened json s t maxMemtableSize cacheCapacity)
    (name : String) : (t.store.site name).active = t.recovered json name := by
  rw [reopened.site, Site.enterAll_active, List.append_nil]
  rfl

/-- No flush has been submitted, and the pages are those of the file. -/
theorem Reopened.unflushed (reopened : Reopened json s t maxMemtableSize cacheCapacity)
    (name : String) : (t.store.site name).tasks = [] ∧ (t.store.site name).immutable = [] ∧
      (t.store.site name).table.handler = (Table.init (t.files name)).handler := by
  obtain ⟨tasks, immutable, _, _, _, handler⟩ := Site.enterAll_frame
    ⟨⟨[], t.files name, [], [], []⟩, Table.init (t.files name)⟩
    (Recovery.entriesFor json t.replayed name)
  rw [reopened.site]
  exact ⟨tasks, immutable, handler⟩

/-- The ids of what was recovered are older than the process. -/
theorem Reopened.early (reopened : Reopened json s t maxMemtableSize cacheCapacity)
    {name : String} {e : Entry} (member : e ∈ t.recovered json name) : e.txId < t.opened := by
  rw [recovered, Recovery.entriesFor, List.mem_reverse, List.mem_filterMap] at member
  obtain ⟨r, left, found⟩ := member
  obtain ⟨both, entry, same⟩ := Option.bind_eq_some_iff.mp found
  split at same
  · cases same
    rw [(Recovery.recoveredEntry_packed entry).2]
    rw [reopened.replayed] at left
    exact reopened.before _ (List.mem_of_mem_filter left)
  · cases same

/-- The new process is sound when what it has found can be read. -/
theorem Reopened.sound (reopened : Reopened json s t maxMemtableSize cacheCapacity)
    (readable : ∀ name, (openTable (t.files name)).WellFormed)
    (packs : ∀ name, ∀ e ∈ t.recovered json name, packRecord json e.key e.value = .ok e.packed) :
    t.store.Sound json := by
  have started := Store.start_sound json
    ⟨t.opened, [], ∅, none, s.log.wal.disk, s.log.wal.preallocating⟩ maxMemtableSize
    cacheCapacity readable
  refine ⟨fun name => ?_, ?_, fun client _ _ _ _ at_log => ?_, fun name => ?_⟩
  · have sound := started.sites name
    rw [Store.start_site] at sound
    rw [reopened.site]
    apply sound.enterAll
    intro e member
    exact packed_ne_nil (packs name e (List.mem_reverse.mpr member))
  · rw [reopened.store.cache]
    exact Cache.init_wellFormed _
  · rw [reopened.idle] at at_log
    cases at_log
  · rw [reopened.all_recovered]
    exact packs name

/-- A table that has just been opened is in order. -/
theorem opened_filed {file : File} (readable : (openTable file).WellFormed) :
    (⟨⟨[], file, [], [], []⟩, Table.init file⟩ : Site).Filed (openTable file).contents := by
  have loads := Table.init_loads readable
  refine ⟨(openTable_ahead readable _).loads loads, [], (openTable file).contents, [], rfl, ?_,
    fun record member => (by cases member), fun key => rfl, fun task member => (by cases member)⟩
  rw [saved_congr loads.file, List.append_nil]
  rfl

theorem Shelved.reopened (shelved : s.Shelved json) (journal : s.Journal json)
    (reopened : Reopened json s t maxMemtableSize cacheCapacity) : t.Shelved json := by
  have readable (name : String) : (openTable (t.files name)).WellFormed := by
    rw [reopened.files]
    exact (shelved.filed name).ahead.onFile
  have first := Store.start_orderly
    ⟨t.opened, [], ∅, none, s.log.wal.disk, s.log.wal.preallocating⟩ t.files maxMemtableSize
    cacheCapacity
  have frame (name : String) := Site.enterAll_frame
    ⟨⟨[], t.files name, [], [], []⟩, Table.init (t.files name)⟩
    (Recovery.entriesFor json t.replayed name)
  have written := reopened.all_recovered
  have tasks (name : String) := (reopened.unflushed name).1
  have immutable (name : String) := (reopened.unflushed name).2.1
  have unlogged {client : Nat} {name : String} {records : List (String × Value)}
      {packedRecords : List (String × Bytes)} {txIds : List Nat}
      (at_log : t.store.clients client = .logged name records packedRecords txIds) : False := by
    rw [reopened.idle] at at_log
    cases at_log
  constructor
  · apply reopened.sound readable
    intro name e member
    exact (journal.recent_genuine (journal.recovered_from reopened member).1).packs
  · intro name
    have orderly := first name
    rw [Store.start_site] at orderly
    rw [reopened.site]
    apply orderly.keep (Recovery.entriesFor json t.replayed name).reverse (frame name).1
      (Site.enterAll_active _ _) (frame name).2.1 (frame name).2.2.1 (frame name).2.2.2.1
      (frame name).2.2.2.2.1
    rw [(frame name).2.2.2.2.2]
    exact fun record member => member
  · refine ⟨fun name => ?_, fun name => ?_⟩
    · rw [written]
      apply (reopened.recovered_sorted journal.logging name).imp
      intro new old below _
      exact below
    · rw [written, reopened.opened]
      exact fun e member => reopened.early member
  · intro name
    rw [Site.Traced, tasks]
    exact fun task member => by cases member
  · intro name
    rw [reopened.site]
    apply (opened_filed (readable name)).keep (Recovery.entriesFor json t.replayed name).reverse
      (frame name).1 (Site.enterAll_active _ _) (frame name).2.1 (frame name).2.2.1
    rw [(frame name).2.2.2.2.2]
    exact Loads.refl (Table.init_loads (readable name)).grows.coherent
  · intro name
    rw [(reopened.unflushed name).2.2]
    exact (Table.init_loads (readable name)).grows.holds
  · intro name
    constructor
    · rw [reopened.active]
      intro e member late
      exact absurd late (Nat.not_le.mpr (reopened.early member))
    · rw [immutable]
      exact fun e member => by cases member
    · rw [tasks]
      exact fun task member => by cases member
    · rw [reopened.active]
      intro e member late
      exact absurd late (Nat.not_le.mpr (reopened.early member))
    · right
      rw [immutable]
      exact fun e member => by cases member
    · rw [tasks]
      exact fun task member => by cases member
    · intro older whole
      rw [written, reopened.active, immutable, List.nil_append] at whole
      rw [List.self_eq_append_right.mp whole]
      exact fun e member => by cases member
  · exact fun _ _ _ _ _ at_log => (unlogged at_log).elim
  · exact fun name => ⟨[], written name, fun e member => (by cases member)⟩
  · intro name e member
    obtain ⟨recent, left⟩ := journal.recovered_from reopened member
    rw [reopened.replayed] at left
    rw [reopened.past, reopened.found]
    exact ⟨List.mem_append_left _ recent, List.mem_of_mem_filter left⟩
  · rintro client name w ⟨_, _, _, at_log, _⟩
    exact (unlogged at_log).elim
  · rw [reopened.recent]
    exact fun call member => by cases member
  · intro txId marked late
    have below := reopened.logging.inOrder.markedBelow txId marked
    rw [reopened.logging.wal, reopened.opened] at below
    omega
  · exact readable
  · rw [reopened.store.cache]
    exact reopened.limits.2

end CachyDb.Database.Lifetime
