import CachyDb.Database.Facade
import CachyDb.Storage.Order
import CachyDb.Storage.Orderly

set_option autoImplicit false

/-! Recovery next to the clients. `_ensure_initialized` publishes the router before it
replays the log, and a client that finds the router takes no lock to get to it. -/

namespace CachyDb.Database

open ByteString Transition

/-- What recovery puts into a memtable for a record. -/
def recoveredEntry (json : Json) (record : Wal.Record) : Option (String × Entry) :=
  match unpackRecord json record.2 with
  | .error _ => none
  | .ok (key, value) =>
      if key = "" then none else some (recoveryTable key, ⟨record.1, key, value, record.2⟩)

/-- Nothing but one memtable and the log changes. -/
structure Recovers (r r' : Router) (entry : Option (String × Entry)) : Prop where
  cache : r'.cache = r.cache
  limit : r'.maxMemtableSize = r.maxMemtableSize
  counter : r'.wal.globalTxId = r.wal.globalTxId
  table : ∀ name, r'.table name = match entry with
    | some (other, e) => if other = name then (r.table name).insert e.key e.packed else r.table name
    | none => r.table name

theorem markJobComplete_counter {w w' : Wal} {txId fileId : Nat}
    (marked : w.markJobComplete txId fileId = .ok w') : w'.globalTxId = w.globalTxId := by
  unfold Wal.markJobComplete at marked
  split at marked
  · cases marked
  · dsimp only at marked
    split at marked
    · cases marked
      rfl
    · cases marked
      exact (Wal.markFile_queue _ _ _).globalTxId

theorem recovers_insert (r : Router) (wal : Wal) (counter : wal.globalTxId = r.wal.globalTxId)
    (name : String) (e : Entry) :
    Recovers r ({ (r.getTableState name).2 with wal := wal }.putTable name
      ((r.table name).insert e.key e.packed)) (some (name, e)) := by
  obtain ⟨_, cache, limit⟩ := r.getTableState_wal name
  have puts := r.puts_putTable name ((r.table name).insert e.key e.packed) wal
  refine ⟨cache, limit, counter, fun other => ?_⟩
  rw [puts.table]
  by_cases same : other = name
  · subst same
    simp only [↓reduceIte]
  · simp only [if_neg same, if_neg (fun back : name = other => same back.symm)]

theorem recoverRecord_spec (json : Json) (r : Router) (record : Wal.Record) :
    Recovers r (recoverRecord json r record) (recoveredEntry json record) := by
  unfold recoverRecord recoveredEntry
  cases unpackRecord json record.2 with
  | error e => exact ⟨rfl, rfl, rfl, fun _ => rfl⟩
  | ok both =>
      obtain ⟨key, value⟩ := both
      dsimp only
      obtain ⟨wal, cache, limit⟩ := r.getTableState_wal (recoveryTable key)
      by_cases unnamed : key = ""
      · rw [if_pos unnamed, if_pos unnamed]
        exact ⟨cache, limit, congrArg Wal.globalTxId wal, r.table_getTableState _⟩
      · rw [if_neg unnamed, if_neg unnamed]
        have inserted := recovers_insert r (r.getTableState (recoveryTable key)).2.wal
          (congrArg Wal.globalTxId wal) (recoveryTable key) ⟨record.1, key, value, record.2⟩
        split
        · exact inserted
        · split
          · exact inserted
          · rename_i marked
            have counter := (markJobComplete_counter marked).trans (congrArg Wal.globalTxId wal)
            exact recovers_insert r _ counter (recoveryTable key) ⟨record.1, key, value, record.2⟩

end CachyDb.Database

namespace CachyDb.Site

/-- Before the first swap the active memtable holds all that was written. -/
def Unswapped (s : Site) : Prop :=
  s.tasks = [] → s.table.immutable = none ∧ s.written = s.active

theorem Unswapped.enter {s : Site} (unswapped : s.Unswapped) (e : Entry) :
    (s.enter e).Unswapped := by
  intro none_yet
  obtain ⟨slot, whole⟩ := unswapped none_yet
  exact ⟨slot, congrArg (List.cons e) whole⟩

theorem Unswapped.act {s : Site} (unswapped : s.Unswapped) {act : Act} (valid : act.Valid s) :
    (s.act act).Unswapped := by
  intro none_yet
  cases act with
  | enter entries txIds =>
      obtain ⟨tasks, _, written, slot, _⟩ := s.enterAll_frame entries
      obtain ⟨empty, whole⟩ := unswapped (tasks ▸ none_yet)
      refine ⟨slot.trans empty, ?_⟩
      show (entries.foldl Site.enter s).written = (entries.foldl Site.enter s).active
      rw [written, enterAll_active, whole]
  | swap => exact absurd none_yet (List.append_ne_nil_of_right_ne_nil _ (List.cons_ne_nil _ _))
  | advance i task =>
      have same := @act_length s (.advance i task) fun swaps => by cases swaps
      rw [none_yet] at same
      have known : s.tasks[i]? = some task := valid
      rw [List.length_eq_zero_iff.mp same.symm] at known
      cases known
  | raise i task =>
      have same := @act_length s (.raise i task) fun swaps => by cases swaps
      rw [none_yet] at same
      have known := valid.1
      rw [List.length_eq_zero_iff.mp same.symm] at known
      cases known
  | stay => exact unswapped none_yet
  | load h => exact unswapped none_yet

/-- Then a memtable has every key that was written. -/
theorem Unswapped.held {s : Site} (unswapped : s.Unswapped) (sound : s.Sound)
    (none_yet : s.tasks = []) (key : String) :
    s.table.held key = (latest s.written key).map Entry.packed := by
  obtain ⟨slot, whole⟩ := unswapped none_yet
  rw [Table.held, MemTable.search_eq_lookup, sound.active, slot, whole, Option.bind_none,
    Option.or_none]

end CachyDb.Site

namespace CachyDb.Store

open Database

/-- The same with what is known of the tables. -/
def recover (json : Json) (s : Store) (record : Wal.Record) : Store :=
  let recovered : Store := { s with router := recoverRecord json s.router record }
  match recoveredEntry json record with
  | some (name, e) => recovered.putShelf name ((s.shelves name).enter e)
  | none => recovered

theorem recover_router (json : Json) (s : Store) (record : Wal.Record) :
    (s.recover json record).router = recoverRecord json s.router record ∧
      (s.recover json record).clients = s.clients := by
  unfold recover
  cases recoveredEntry json record with
  | none => exact ⟨rfl, rfl⟩
  | some both => exact ⟨rfl, rfl⟩

/-- `_recover_transactions` with what is known of the tables. -/
def recoverTransactions (json : Json) (s : Store) : Store :=
  (Wal.readWal s.router.wal.disk).records.foldl (recover json) s

theorem recoverTransactions_router (json : Json) (s : Store) :
    (s.recoverTransactions json).router = Database.recoverTransactions json s.router := by
  have fold (records : List Wal.Record) : ∀ s : Store, (records.foldl (recover json) s).router =
      records.foldl (recoverRecord json) s.router := by
    induction records with
    | nil => exact fun _ => rfl
    | cons record rest ih =>
        intro s
        rw [List.foldl_cons, List.foldl_cons, ih, (s.recover_router json record).1]
  exact fold _ s

theorem recover_site (json : Json) (s : Store) (record : Wal.Record) (name : String) :
    (s.recover json record).site name = match recoveredEntry json record with
      | some (other, e) => if other = name then (s.site name).enter e else s.site name
      | none => s.site name := by
  have table := (recoverRecord_spec json s.router record).table name
  unfold recover
  cases entry : recoveredEntry json record with
  | none =>
      rw [entry] at table
      dsimp only at table ⊢
      rw [site, table]
      rfl
  | some both =>
      obtain ⟨other, e⟩ := both
      rw [entry] at table
      dsimp only at table ⊢
      rw [site]
      show Site.mk (Function.update s.shelves other ((s.shelves other).enter e) name)
        ((recoverRecord json s.router record).table name) = _
      rw [table]
      by_cases same : other = name
      · subst same
        rw [Function.update_self, if_pos rfl, if_pos rfl]
        rfl
      · rw [Function.update_of_ne (fun back => same back.symm), if_neg same, if_neg same]
        rfl

end CachyDb.Store

namespace CachyDb.Database

open ByteString Transition

/-- `_recover_transactions` with records still to come from `read_wal`, beside a router that
the clients use already. -/
structure Recovery where
  store : Store
  remaining : List Wal.Record
  /-- The records that were replayed, in this order. -/
  done : List Wal.Record
  /-- What the clients have written since the router was published, newest first. -/
  clients : String → List Entry

namespace Recovery

/-- The router as `_ensure_initialized` publishes it. `read_wal` opens a file when it gets
there, so a record that a client has logged meanwhile can be one of those to replay. -/
def publish (wal : Wal) (tableFiles : String → File) (maxMemtableSize cacheCapacity : Nat)
    (records : List Wal.Record) : Recovery :=
  ⟨Store.start wal tableFiles maxMemtableSize cacheCapacity, records, [], fun _ => []⟩

/-- `_ensure_initialized` on the directories that it finds, when nothing is logged while
the files are read. -/
def ensureInitialized (disk : FileSystem Nat) (tableFiles : String → File)
    (maxMemtableSize cacheCapacity : Nat) : Except Wal.Error Recovery :=
  match Wal.openWal disk with
  | .error e => .error e
  | .ok wal =>
      .ok (publish wal tableFiles maxMemtableSize cacheCapacity (Wal.readWal disk).records)

inductive Event
  | client (e : Store.Event)
  | replay

/-- What a client's step writes into the memtable of a table, newest first. -/
def entered (json : Json) (s : Store) (e : Store.Event) (name : String) : List Entry :=
  match s.actOn json name e with
  | .enter entries _ => entries.reverse
  | _ => []

def perform (json : Json) (r : Recovery) : Event → Option Recovery
  | .client e =>
      (r.store.perform json e).map fun store =>
        { r with
          store := store
          clients := fun name => entered json r.store e name ++ r.clients name }
  | .replay =>
      match r.remaining with
      | [] => none
      | record :: rest =>
          some ⟨r.store.recover json record, rest, r.done ++ [record], r.clients⟩

def play (json : Json) (r : Recovery) : List Event → Option Recovery
  | [] => some r
  | e :: rest => (r.perform json e).bind fun next => next.play json rest

def Step (json : Json) (r : Recovery) (e : Event) (r' : Recovery) : Prop :=
  r.perform json e = some r'

/-- The entries of a table among these records. -/
def entriesFor (json : Json) (records : List Wal.Record) (name : String) : List Entry :=
  records.filterMap fun record =>
    (recoveredEntry json record).bind fun both => if both.1 = name then some both.2 else none

/-- The client's last write of the key, or the replayed record of the key with the highest
id, or nothing. -/
def Prevails (json : Json) (r : Recovery) (name key : String) (held : Option Bytes) : Prop :=
  match latest (r.clients name) key with
  | some e => held = some e.packed
  | none =>
      (∃ e ∈ entriesFor json r.done name, e.key = key ∧ held = some e.packed ∧
        ∀ other ∈ entriesFor json r.done name, other.key = key → other.txId ≤ e.txId) ∨
      ((∀ e ∈ entriesFor json r.done name, e.key ≠ key) ∧ held = none)

/-- What the memtables hold. A memtable that has been swapped out can be gone. -/
def Lawful (json : Json) (r : Recovery) : Prop :=
  ∀ name key, r.Prevails json name key ((r.store.router.table name).held key) ∨
    ((r.store.router.table name).held key = none ∧ (r.store.site name).tasks ≠ [])

/-- The record that is replayed next has a key that no client has written. -/
def NotOverwriting (json : Json) (r : Recovery) : Event → Prop
  | .replay => ∀ record ∈ r.remaining.head?, ∀ both ∈ recoveredEntry json record,
      latest (r.clients both.1) both.2.key = none
  | .client _ => True

variable {json : Json} {r r' : Recovery}

theorem recoveredEntry_packed {record : Wal.Record} {name : String} {e : Entry}
    (entry : recoveredEntry json record = some (name, e)) :
    e.packed ≠ [] ∧ e.txId = record.1 := by
  unfold recoveredEntry at entry
  split at entry
  · cases entry
  · rename_i unpacked
    split at entry
    · cases entry
    · cases entry
      refine ⟨fun empty => ?_, rfl⟩
      dsimp only at empty
      rw [empty] at unpacked
      cases unpacked

structure Sound (json : Json) (records : List Wal.Record) (r : Recovery) : Prop where
  sites : ∀ name, (r.store.site name).Sound
  cache : r.store.router.cache.WellFormed
  pending : r.store.Pending json
  unswapped : ∀ name, (r.store.site name).Unswapped
  records : r.done ++ r.remaining = records
  history : ∀ name key, latest (r.store.site name).written key =
    (latest (r.clients name) key).or (latest (entriesFor json r.done name).reverse key)

theorem publish_sound (json : Json) (wal : Wal) {tableFiles : String → File}
    (maxMemtableSize cacheCapacity : Nat)
    (readable : ∀ name, (TableHandler.openTable (tableFiles name)).WellFormed)
    (records : List Wal.Record) :
    (publish wal tableFiles maxMemtableSize cacheCapacity records).Sound json records := by
  have sound := Store.start_sound json wal maxMemtableSize cacheCapacity readable
  refine ⟨sound.sites, sound.cache, sound.pending, fun name _ => ?_, rfl, fun name key => rfl⟩
  refine ⟨?_, rfl⟩
  show ((Router.init wal tableFiles maxMemtableSize cacheCapacity).table name).immutable = none
  unfold Router.init Router.table Router.getTableState
  dsimp only
  rw [AList.lookup_empty]
  rfl

theorem entered_written {s t : Store} {e : Store.Event} (acts : Store.Acts json s e t)
    (name : String) : (t.site name).written = entered json s e name ++ (s.site name).written := by
  rw [acts.site, Site.act_written]
  unfold entered
  cases s.actOn json name e with
  | enter entries txIds => rfl
  | _ => rfl

theorem Sound.client {records : List Wal.Record} (sound : r.Sound json records) {e : Store.Event}
    {store : Store} (step : Store.Step json r.store e store) :
    Sound json records { r with
      store := store
      clients := fun name => entered json r.store e name ++ r.clients name } := by
  have acts := Store.step_acts sound.cache sound.pending
    (fun name => (sound.sites name).coherent) step
  refine ⟨fun name => ?_, acts.cache, acts.pending, fun name => ?_, sound.records,
    fun name key => ?_⟩
  · rw [acts.site]
    exact (sound.sites name).act (acts.valid name)
  · rw [acts.site]
    exact (sound.unswapped name).act (acts.valid name)
  · dsimp only
    rw [entered_written acts, latest_append, latest_append, Option.or_assoc, sound.history]

theorem entriesFor_concat (done : List Wal.Record) (record : Wal.Record) (name : String) :
    (entriesFor json (done ++ [record]) name).reverse =
      (match recoveredEntry json record with
        | some (other, e) => if other = name then [e] else []
        | none => []) ++ (entriesFor json done name).reverse := by
  unfold entriesFor
  rw [List.filterMap_append, List.reverse_append]
  cases entry : recoveredEntry json record with
  | none => simp [entry]
  | some both =>
      by_cases same : both.1 = name
      · simp [entry, same]
      · simp [entry, same]

/-- A replayed record becomes the newest of its key, as nothing of a client is before it. -/
theorem Sound.replay {records rest : List Wal.Record} {record : Wal.Record}
    (sound : r.Sound json records) (next : r.remaining = record :: rest)
    (free : r.NotOverwriting json .replay) :
    Sound json records ⟨r.store.recover json record, rest, r.done ++ [record], r.clients⟩ := by
  have site := r.store.recover_site json record
  have spec := recoverRecord_spec json r.store.router record
  obtain ⟨router, clients⟩ := r.store.recover_router json record
  have formed : (r.store.recover json record).router.cache.WellFormed := by
    rw [router, spec.cache]
    exact sound.cache
  have pending : (r.store.recover json record).Pending json := by
    apply sound.pending.keep clients
    rw [router, spec.counter]
  have whole : (r.done ++ [record]) ++ rest = records := by
    rw [List.append_assoc, ← sound.records, next]
    rfl
  cases entry : recoveredEntry json record with
  | none =>
      simp only [entry] at site
      refine ⟨fun name => ?_, formed, pending, fun name => ?_, whole, fun name key => ?_⟩
      · rw [site]
        exact sound.sites name
      · rw [site]
        exact sound.unswapped name
      · rw [site, sound.history, entriesFor_concat, entry]
        rfl
  | some both =>
      obtain ⟨table, e⟩ := both
      have unwritten : latest (r.clients table) e.key = none :=
        free record (by rw [next]; rfl) (table, e) entry
      simp only [entry] at site
      refine ⟨fun name => ?_, formed, pending, fun name => ?_, whole, fun name key => ?_⟩
      · rw [site]
        split
        · exact (sound.sites name).enter (recoveredEntry_packed entry).1
        · exact sound.sites name
      · rw [site]
        split
        · exact (sound.unswapped name).enter e
        · exact sound.unswapped name
      · rw [site, entriesFor_concat, entry]
        dsimp only
        by_cases same : table = name
        · subst same
          rw [if_pos rfl, if_pos rfl, latest_append]
          show latest (e :: (r.store.site table).written) key = _
          rw [latest_cons, latest_cons, latest_nil]
          by_cases here : e.key = key
          · subst here
            rw [if_pos rfl, if_pos rfl, unwritten]
            rfl
          · rw [if_neg here, if_neg here, sound.history]
            rfl
        · rw [if_neg same, if_neg same, sound.history]
          rfl

theorem Sound.step {records : List Wal.Record} (sound : r.Sound json records) {e : Event}
    (step : Step json r e r') (free : r.NotOverwriting json e) : r'.Sound json records := by
  cases e with
  | client e =>
      obtain ⟨store, done, rfl⟩ := Option.map_eq_some_iff.mp step
      exact sound.client done
  | replay =>
      unfold Step perform at step
      dsimp only at step
      split at step
      · cases step
      · rename_i next
        cases step
        exact sound.replay next free

/-- The ids of the entries of a table go up as those of the records do. -/
theorem entriesFor_ascending {records : List Wal.Record}
    (ascending : (records.map Prod.fst).Pairwise (· < ·)) (name : String) :
    (entriesFor json records name).Pairwise fun e e' => e.txId ≤ e'.txId := by
  have named (record : Wal.Record) (e : Entry)
      (made : ((recoveredEntry json record).bind fun both =>
        if both.1 = name then some both.2 else none) = some e) : e.txId = record.1 := by
    obtain ⟨⟨other, e'⟩, entry, chosen⟩ := Option.bind_eq_some_iff.mp made
    split at chosen
    · cases chosen
      exact (recoveredEntry_packed entry).2
    · cases chosen
  rw [entriesFor, List.pairwise_filterMap]
  apply (List.pairwise_map.mp ascending).imp
  intro record record' below e made e' made'
  rw [named record e made, named record' e' made']
  exact Nat.le_of_lt below

theorem Sound.prevails {records : List Wal.Record} (sound : r.Sound json records)
    (ascending : (records.map Prod.fst).Pairwise (· < ·)) (name key : String) :
    r.Prevails json name key ((latest (r.store.site name).written key).map Entry.packed) := by
  rw [sound.history]
  unfold Prevails
  split
  · rename_i e written
    rw [written]
    rfl
  · rename_i unwritten
    rw [unwritten, Option.none_or]
    cases replayed : latest (entriesFor json r.done name).reverse key with
    | none =>
        right
        refine ⟨fun e member same => ?_, rfl⟩
        obtain ⟨newest, found⟩ := latest_isSome (List.mem_reverse.mpr member)
        rw [same, replayed] at found
        cases found
    | some e =>
        left
        obtain ⟨member, same⟩ := latest_mem replayed
        have sorted : (r.done.map Prod.fst).Pairwise (· < ·) := by
          rw [← sound.records, List.map_append] at ascending
          exact (List.pairwise_append.mp ascending).1
        refine ⟨e, List.mem_reverse.mp member, same, rfl, ?_⟩
        exact latest_reverse_max (entriesFor_ascending sorted name) replayed

theorem Sound.lawful {records : List Wal.Record} (sound : r.Sound json records)
    (ascending : (records.map Prod.fst).Pairwise (· < ·)) : r.Lawful json := by
  intro name key
  have prevails := sound.prevails ascending name key
  by_cases none_yet : (r.store.site name).tasks = []
  · left
    show r.Prevails json name key ((r.store.site name).table.held key)
    rw [(sound.unswapped name).held (sound.sites name) none_yet]
    exact prevails
  · cases held : (r.store.router.table name).held key with
    | none => exact Or.inr ⟨rfl, none_yet⟩
    | some packed =>
        left
        obtain ⟨e, newest, rfl⟩ := (sound.sites name).held held
        rw [newest] at prevails
        exact prevails

/-- In every run that replays no record of a key after a client has written the key,
nothing newer is overwritten. -/
theorem memory_keeps_newer_writes (json : Json) (wal : Wal) {tableFiles : String → File}
    (maxMemtableSize cacheCapacity : Nat)
    (readable : ∀ name, (TableHandler.openTable (tableFiles name)).WellFormed)
    {records : List Wal.Record} (ascending : (records.map Prod.fst).Pairwise (· < ·))
    {events : List Event}
    (run : Run (Guarded (Step json) (NotOverwriting json))
      (publish wal tableFiles maxMemtableSize cacheCapacity records) events r) :
    r.Lawful json ∧ r.done ++ r.remaining = records := by
  have sound : r.Sound json records := by
    apply run.preserves (publish_sound json wal maxMemtableSize cacheCapacity readable records)
    exact fun u e v ok step => ok.step step.1 step.2
  exact ⟨sound.lawful ascending, sound.records⟩

theorem play_run {r r' : Recovery} {events : List Event} (played : r.play json events = some r') :
    Run (Step json) r events r' := by
  induction events generalizing r with
  | nil =>
      cases played
      exact Run.nil _
  | cons e rest ih =>
      obtain ⟨next, done, later⟩ := Option.bind_eq_some_iff.mp played
      exact Run.cons done (ih later)

theorem play_replays (json : Json) (r : Recovery) : ∃ r',
    r.play json (List.replicate r.remaining.length .replay) = some r' ∧ r'.remaining = [] ∧
      r'.store = r.remaining.foldl (Store.recover json) r.store := by
  obtain ⟨store, remaining, done, clients⟩ := r
  induction remaining generalizing store done with
  | nil => exact ⟨_, rfl, rfl, rfl⟩
  | cons record rest ih =>
      obtain ⟨r', played, ended, recovered⟩ := ih (store.recover json record) (done ++ [record])
      exact ⟨r', played, ended, recovered⟩

/-- Without a client between them the replays are `_recover_transactions`. -/
theorem publish_recovers (json : Json) (wal : Wal) (tableFiles : String → File)
    (maxMemtableSize cacheCapacity : Nat) : ∃ r,
    (publish wal tableFiles maxMemtableSize cacheCapacity (Wal.readWal wal.disk).records).play json
        (List.replicate (Wal.readWal wal.disk).records.length .replay) = some r ∧
      r.remaining = [] ∧ r.store.router =
        recoverTransactions json (Router.init wal tableFiles maxMemtableSize cacheCapacity) := by
  obtain ⟨r, played, ended, recovered⟩ := play_replays json
    (publish wal tableFiles maxMemtableSize cacheCapacity (Wal.readWal wal.disk).records)
  refine ⟨r, played, ended, ?_⟩
  rw [recovered]
  exact Store.recoverTransactions_router json
    (Store.start wal tableFiles maxMemtableSize cacheCapacity)

/-- The directory of a process that has logged one record of the key `t:a` and died. -/
def diedWithOne : FileSystem Nat :=
  ((Wal.appendToBuffer (Store.fresh 1 1).router.wal
    [0, 3, 0x74, 0x3A, 0x61, 0x22, 0x78, 0x22]).2.flushBuffer fun _ => 0).2.2.disk

/-- A client writes the key when its record has been replayed, -/
def writtenAfterReplay : List Event := [.replay, .client (.set 0 "t" "t:a" (.str "y"))]

/-- or before. -/
def writtenBeforeReplay : List Event := [.client (.set 0 "t" "t:a" (.str "y")), .replay]

theorem memory_keeps_write_after_replay :
    ∃ wal r, Run (Guarded (Step wordJson) (NotOverwriting wordJson))
        (publish wal (fun _ => File.empty) 2 1 (Wal.readWal diedWithOne).records)
        writtenAfterReplay r ∧
      r.Lawful wordJson ∧ r.done ++ r.remaining = (Wal.readWal diedWithOne).records := by
  have outcome : (Wal.openWal diedWithOne).toOption.bind (fun wal =>
      ((publish wal (fun _ => File.empty) 2 1 (Wal.readWal diedWithOne).records).perform wordJson
        .replay).bind fun between =>
      (between.perform wordJson (.client (.set 0 "t" "t:a" (.str "y")))).map fun r =>
        r.remaining) = some [] := by decide +kernel
  obtain ⟨wal, _, played⟩ := Option.bind_eq_some_iff.mp outcome
  obtain ⟨between, first, later⟩ := Option.bind_eq_some_iff.mp played
  obtain ⟨r, second, _⟩ := Option.map_eq_some_iff.mp later
  have run : Run (Guarded (Step wordJson) (NotOverwriting wordJson))
      (publish wal (fun _ => File.empty) 2 1 (Wal.readWal diedWithOne).records)
      writtenAfterReplay r :=
    Run.cons ⟨first, fun _ _ _ _ => rfl⟩ (Run.cons ⟨second, trivial⟩ (Run.nil r))
  exact ⟨wal, r, run, memory_keeps_newer_writes wordJson wal 2 1 (fun _ => Store.empty_readable)
    (by decide +kernel) run⟩

/-- The replay takes the memtable back to what was there before the process died. -/
theorem memory_loses_write_before_replay :
    ∃ r r', ensureInitialized diedWithOne (fun _ => File.empty) 2 1 = .ok r ∧
      Run (Step wordJson) r writtenBeforeReplay r' ∧ r'.remaining = [] ∧
        ¬ r'.Lawful wordJson := by
  have outcome : (ensureInitialized diedWithOne (fun _ => File.empty) 2 1).toOption.bind (fun r =>
      (r.play wordJson writtenBeforeReplay).map fun r' => (r'.remaining,
        (r'.store.router.table "t").held "t:a", (latest (r'.clients "t") "t:a").map Entry.packed)) =
      some ([], some [0, 3, 0x74, 0x3A, 0x61, 0x22, 0x78, 0x22],
        some [0, 3, 0x74, 0x3A, 0x61, 0x22, 0x79, 0x22]) := by decide +kernel
  obtain ⟨r, opened, played⟩ := Option.bind_eq_some_iff.mp outcome
  obtain ⟨r', done, result⟩ := Option.map_eq_some_iff.mp played
  simp only [Prod.mk.injEq] at result
  obtain ⟨ended, held, newest⟩ := result
  have started : ensureInitialized diedWithOne (fun _ => File.empty) 2 1 = .ok r := by
    cases result : ensureInitialized diedWithOne (fun _ => File.empty) 2 1 with
    | error e =>
        rw [result] at opened
        cases opened
    | ok r₀ =>
        rw [result] at opened
        cases opened
        rfl
  refine ⟨r, r', started, play_run done, ended, fun lawful => ?_⟩
  obtain ⟨e, written, packed⟩ := Option.map_eq_some_iff.mp newest
  rcases lawful "t" "t:a" with prevails | ⟨gone, _⟩
  · unfold Prevails at prevails
    rw [written, held] at prevails
    dsimp only at prevails
    rw [packed] at prevails
    exact absurd prevails (by decide)
  · rw [held] at gone
    cases gone

end Recovery

end CachyDb.Database
