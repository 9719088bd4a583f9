import CachyDb.Database.Bulk
import CachyDb.Database.Provenance

set_option autoImplicit false

/-! The writes of one client over any number of processes. What is on disk is read ever after,
unless a process ends while records that it has recovered are in its memtables only: recovery has
completed them in the log. -/

namespace CachyDb

open ByteString TableHandler Transition

namespace Store

/-- A single client is overtaken by nobody. -/
theorem Calm.inTurn {json : Json} {tableFiles : String → File} {s t : Store} {e : Event}
    (calm : s.Calm json tableFiles) (alone : e.Alone json) (step : Step json s e t) :
    s.InTurn json e := by
  intro name entries txIds acted new member client w waits different key
  obtain ⟨records, packedRecords, ids, logged, _⟩ := waits
  have only {actor : Nat} (busy : s.clients actor ≠ .idle) : actor = 0 :=
    by_contra fun other => busy (calm.others actor other)
  have first : client = 0 := only fun idle => by cases logged.symm.trans idle
  subst first
  rcases enter_inv acted with ⟨actor, k, value, packed, rfl, _⟩ | ⟨actor, _, _, _, rfl, inserts, _⟩
  · obtain ⟨rfl, _⟩ := alone
    change s.set json 0 _ k value = some t at step
    unfold set at step
    rw [logged] at step
    cases step
  · obtain rfl : actor = 0 := only fun idle => by cases inserts.symm.trans idle
    exact absurd rfl different

end Store

end CachyDb

namespace CachyDb.Database.Lifetime

open ByteString TableHandler Transition Chronicle Router

/-- What the `CachyDB` object hands on for a table: a key with the name of the table before it,
and a value that JSON gives back and that is no manifest. -/
structure Plain (json : Json) (table key : String) (value : Value) : Prop where
  named : table ≠ ""
  clear : ':' ∉ table.toList
  own : ∃ rest, key = namespacedKey table rest
  faithful : json.Faithful value
  unflagged : flagged overflowFlag value = false

/-- Only client 0 writes, and nothing makes a flush raise. -/
def Asks (json : Json) : Store.Event → Prop
  | .set client table key value => client = 0 ∧ Plain json table key value
  | .append client table records =>
      client = 0 ∧ ∀ record ∈ records, Plain json table record.1 record.2
  | .raise _ _ => False
  | _ => True

def Asked (json : Json) (_ : Lifetime) : Event → Prop
  | .work e => Asks json e
  | _ => True

/-- No process ends before all that it has recovered is flushed. -/
def Reflushing (json : Json) (s : Lifetime) : Event → Prop
  | .work e => Asks json e
  | .preAllocate _ => True
  | .reopen _ _ => s.Reflushed json

theorem Reflushing.asked {json : Json} {s : Lifetime} {e : Event} (careful : s.Reflushing json e) :
    s.Asked json e := by
  cases e with
  | work _ => exact careful
  | _ => trivial

/-- A step after which no flush has failed. -/
def Succeeds (json : Json) (s : Lifetime) (e : Event) (t : Lifetime) : Prop :=
  Step json s e t ∧ t.store.Succeeding

/-- The call is about this key, and its record is on disk. -/
structure OnDisk (s : Lifetime) (table key : String) (call : String × Entry) : Prop where
  table : call.1 = table
  key : call.2.key = key
  logged : call.2.record ∈ s.log.written

/-- A `get` ends, and gives a write of the key that none on disk is newer than. -/
def Lasts (json : Json) (decoder : Decoder) (s : Lifetime) : Prop :=
  ∀ table key, ¬ (table = "" ∨ key = "") →
    (∃ result t, Gets json decoder s.store table key result t) ∧
    ∀ result t, Gets json decoder s.store table key result t →
      ∃ answer : Option Entry, (∀ e ∈ answer, e.key = namespacedKey table key) ∧
        UpToDate (s.OnDisk table (namespacedKey table key)) s.history
          (answer.map fun e => (table, e)) ∧ result = .ok (worth answer)

/-- The state of a database with one client. -/
structure Resident (json : Json) (s : Lifetime) : Prop where
  durable : s.Durable json
  calm : s.store.Calm json s.files
  unflagged : ∀ call ∈ s.history, flagged overflowFlag call.2.value = false

section Steps

variable {json : Json} {s t : Lifetime} {e : Store.Event} {maxMemtableSize cacheCapacity : Nat}

theorem Plain.home {table key : String} {value : Value} (plain : Plain json table key value) :
    recoveryTable key = table := by
  obtain ⟨rest, rfl⟩ := plain.own
  exact (recoveryTable_namespacedKey plain.named rest).mpr plain.clear

theorem Plain.keyed {table key : String} {value : Value} (plain : Plain json table key value) :
    key ≠ "" := by
  obtain ⟨rest, rfl⟩ := plain.own
  exact namespacedKey_ne_empty table rest

theorem Asks.homed (asks : Asks json e) : Homed json e := by
  cases e with
  | set client table key value => exact ⟨asks.2.home, asks.2.faithful⟩
  | append client table records =>
      intro record member
      have plain := asks.2 record member
      exact ⟨plain.keyed, plain.home, plain.faithful⟩
  | _ => trivial

theorem Asks.alone (asks : Asks json e) : e.Alone json := by
  cases e with
  | set client table key value => exact ⟨asks.1, asks.2.faithful⟩
  | append client table records =>
      exact ⟨asks.1, fun record member => (asks.2 record member).faithful⟩
  | raise _ _ => exact asks
  | _ => trivial

/-- What is handed to the log is what the client asks for. -/
theorem Asks.unflagged (asks : Asks json e) {call : String × Entry}
    (called : call ∈ s.store.calls json e) : flagged overflowFlag call.2.value = false := by
  have writes := Store.calls_written call called
  cases e with
  | set client table key value =>
      obtain ⟨_, _, rfl⟩ := writes
      exact asks.2.unflagged
  | append client table records => exact (asks.2 _ writes.2).unflagged
  | _ => exact writes.elim

/-- A new process has nobody at work, and no flush. -/
theorem Durable.calm_reopened (durable : t.Durable json)
    (reopened : Reopened json s t maxMemtableSize cacheCapacity) : t.store.Calm json t.files := by
  obtain ⟨journal, shelved, _, _⟩ := durable
  have idle := reopened.idle
  refine ⟨shelved.store, shelved.orderly, fun name task member => ?_, fun client _ => idle client,
    ?_, fun name held => ?_, fun name e member => (shelved.written_genuine journal member).faithful,
    fun name records packedRecords txIds at_log => ?_, shelved.room, ?_⟩
  · rw [(reopened.unflushed name).1] at member
    cases member
  · rw [idle]
    trivial
  · rw [reopened.site, (Site.enterAll_frame _ _).2.2.2.1] at held
    exact absurd rfl held
  · rw [idle] at at_log
    cases at_log
  · rw [reopened.store.limit]
    exact reopened.limits.1

theorem Resident.allowed {e : Event} (resident : s.Resident json) (step : Step json s e t)
    (careful : s.Reflushing json e) : s.Allowed json e := by
  cases e with
  | work e =>
      obtain ⟨store, moved, _⟩ := Option.map_eq_some_iff.mp step
      exact ⟨resident.calm.unblocked, resident.calm.inTurn careful.alone moved, careful.homed⟩
  | preAllocate _ => trivial
  | reopen _ _ => exact careful

theorem Resident.step {e : Event} (resident : s.Resident json) (step : Succeeds json s e t)
    (careful : s.Reflushing json e) (fits : t.log.Fits) : t.Resident json := by
  obtain ⟨step, succeeding⟩ := step
  have durable := resident.durable.step step (resident.allowed step careful) fits
  cases e with
  | work e =>
      obtain ⟨store, moved, rfl⟩ := Option.map_eq_some_iff.mp step
      refine ⟨durable, resident.calm.step ⟨moved, careful.alone, succeeding⟩, fun call member => ?_⟩
      rw [history, List.append_assoc] at member
      rcases List.mem_append.mp member with new | old
      · exact careful.unflagged (List.mem_reverse.mp new)
      · exact resident.unflagged call old
  | preAllocate fileId =>
      have allocated := resident.durable.journal.logging.preAllocated resident.calm.sound.cache step
      have files : t.files = s.files ∧ t.past = s.past := by
        change s.preAllocate fileId = some t at step
        unfold preAllocate at step
        dsimp only at step
        split at step
        · cases step
          exact ⟨rfl, rfl⟩
        · cases step
      refine ⟨durable, files.1 ▸ resident.calm.alike allocated.alike, ?_⟩
      rw [history, allocated.recent, files.2]
      exact resident.unflagged
  | reopen limit capacity =>
      have reopened := resident.durable.journal.logging.reopened step
      refine ⟨durable, durable.calm_reopened reopened, ?_⟩
      rw [history, reopened.recent, reopened.past]
      exact resident.unflagged

theorem first_resident (limit : 0 < maxMemtableSize) (room : 0 < cacheCapacity) :
    (first maxMemtableSize cacheCapacity).Resident json :=
  ⟨first_durable json room, (Store.start_single _ _ limit room).calm,
    fun call member => by cases member⟩

theorem run_resident (limit : 0 < maxMemtableSize) (room : 0 < cacheCapacity)
    {events : List Event} (run : Run (Guarded (Succeeds json) (Reflushing json))
      (first maxMemtableSize cacheCapacity) events s) (fits : s.log.Fits) : s.Resident json := by
  induction run with
  | nil => exact first_resident limit room
  | snoc _ last ih =>
      have before := fits.before (perform_swapped last.1.1)
      exact (ih before).step last.1 last.2 fits

/-- Flushes go on in the tables of this process. -/
structure Rests (json : Json) (s : Lifetime) (u : Store) : Prop where
  calm : u.Calm json s.files
  written : ∀ name, (u.site name).written = (s.store.site name).written
  holds : ∀ name, ∀ record ∈ (openTable (s.files name)).contents,
    record ∈ (u.site name).table.handler.contents

theorem Rests.step {u v : Store} (rests : s.Rests json u) (step : Store.SingleStep json u e v)
    (quiet : ∀ name entries txIds, u.actOn json name e ≠ .enter entries txIds) :
    s.Rests json v := by
  have acts := rests.calm.sound.acts step.1
  refine ⟨rests.calm.step step, fun name => ?_, fun name record member => ?_⟩
  · rw [acts.site, Site.act_written]
    split
    · rename_i entries txIds acted
      exact absurd acted (quiet name entries txIds)
    · exact rests.written name
  · rw [acts.site]
    exact Site.act_contents (rests.calm.sound.sites name) (acts.valid name) record
      (rests.holds name record member)

theorem Rests.waits {u v : Store} (rests : s.Rests json u) (waits : Store.Waits json u v) :
    s.Rests json v := by
  obtain ⟨events, run⟩ := waits
  apply run.preserves rests
  rintro a e b before ⟨step, background⟩
  apply before.step step
  intro name entries txIds acted
  rcases Store.enter_inv acted with ⟨_, _, _, _, rfl, _⟩ | ⟨_, _, _, _, rfl, _⟩
  · exact background.elim
  · exact background.elim

/-- A call of `_get_internal` gives the value, from the cache or from the tables, while flushes
go on. -/
theorem Resident.finds (resident : s.Resident json) {name key : String}
    {found : Except RouterError Value} {u : Store}
    (finds : Store.Finds json s.store name key found u) :
    found = .ok (s.store.value json s.files name key) := by
  obtain ⟨⟨journal, shelved, based, cached⟩, calm, _⟩ := resident
  have answers := Store.getCached_answer calm.sound.cache name key
  cases finds with
  | hit hit =>
      rcases answers with missed | ⟨held, known, got⟩
      · cases hit.symm.trans missed
      · rw [got, Except.ok.injEq, Option.some.injEq] at hit
        rw [← hit, cached name key held known]
  | raised raises =>
      rcases answers with missed | ⟨held, known, got⟩
      · cases raises.symm.trans missed
      · cases raises.symm.trans got
  | missed missed waits =>
      have here : s.Rests json s.store := ⟨calm, fun _ => rfl, shelved.holds⟩
      have looked := here.step (calm.looked name key) fun name entries txIds acted => by
        rcases Store.enter_inv acted with ⟨_, _, _, _, other, _⟩ | ⟨_, _, _, _, other, _⟩
        · cases other
        · cases other
      obtain ⟨calm', written, holds⟩ := looked.waits waits
      exact shelved.answer_of journal based calm'.sound calm'.orderly written holds name key

theorem named_namespaced {table key : String} (named : ¬ (table = "" ∨ key = "")) :
    ¬ (table = "" ∨ namespacedKey table key = "") := by
  rintro (empty | empty)
  · exact named (Or.inl empty)
  · exact namespacedKey_ne_empty table key empty

/-- A value without the marker is what `get` returns. -/
theorem reads_plain {decoder : Decoder} {store t : Store} {name key : String} {value : Value}
    {result : Except RouterError Value} (named : ¬ (name = "" ∨ key = ""))
    (finds : ∀ found u, Store.Finds json store name key found u → found = .ok value)
    (unflagged : flagged overflowFlag value = false)
    (reads : Store.Reads json decoder store name key result t) : result = .ok value := by
  have marked {found : Value} {u : Store} (finding : Store.Finds json store name key (.ok found) u)
      (marker : flagged overflowFlag found = true) : False := by
    cases finds _ u finding
    rw [unflagged] at marker
    cases marker
  cases reads with
  | unnamed none => exact absurd none named
  | raised _ finding => cases finds _ _ finding
  | plain _ finding _ => exact finds _ _ finding
  | malformed _ finding marker _ => exact (marked finding marker).elim
  | incomplete _ finding marker _ _ => exact (marked finding marker).elim
  | broken _ finding marker _ _ _ => exact (marked finding marker).elim
  | whole _ finding marker _ _ _ _ => exact (marked finding marker).elim

/-- Some call of `_get_internal` ends. -/
theorem Resident.found (resident : s.Resident json) (name key : String) :
    ∃ u, Store.Finds json s.store name key (.ok (s.store.value json s.files name key)) u := by
  rcases Store.getCached_answer resident.calm.sound.cache name key with missed | ⟨held, _, hit⟩
  · have finds : Store.Finds json s.store name key _ _ := .missed missed ⟨[], Run.nil _⟩
    exact ⟨_, resident.finds finds ▸ finds⟩
  · have finds : Store.Finds json s.store name key _ _ := .hit hit
    exact ⟨_, resident.finds finds ▸ finds⟩

theorem Resident.unmarked (resident : s.Resident json) (name key : String) :
    flagged overflowFlag (s.store.value json s.files name key) = false := by
  obtain ⟨answer, _, current, value⟩ := resident.durable.shelved.current
    resident.durable.journal resident.durable.based name key
  rw [value]
  cases answer with
  | none => rfl
  | some e => exact resident.unflagged (name, e) current.mem

theorem Resident.lasts (resident : s.Resident json) (idle : s.store.clients 0 = .idle)
    (decoder : Decoder) : s.Lasts json decoder := by
  intro table key named
  have named' := named_namespaced named
  have unmarked := resident.unmarked table (namespacedKey table key)
  obtain ⟨u, found⟩ := resident.found table (namespacedKey table key)
  refine ⟨⟨_, u, .passed named (.plain named' found unmarked)⟩, fun result t gets => ?_⟩
  obtain ⟨answer, own, current, value⟩ := resident.durable.shelved.current
    resident.durable.journal resident.durable.based table (namespacedKey table key)
  refine ⟨answer, own, ?_, ?_⟩
  · apply current.mono
    rintro call _ ⟨same, own, logged⟩
    refine ⟨same, own, Or.inr logged, ?_⟩
    rintro client ⟨records, packedRecords, txIds, waits, _⟩
    by_cases first : client = 0
    · rw [first, idle] at waits
      cases waits
    · rw [resident.calm.others client first] at waits
      cases waits
  · cases gets with
    | empty unnamed => exact absurd unnamed named
    | passed _ reads =>
        rw [← value]
        exact reads_plain named' (fun _ _ finds => resident.finds finds) unmarked reads

end Steps

/-- However often the database is closed, killed and opened again: a `get` returns the last write
whose record is on disk, or one after it. -/
theorem writes_outlive_restarts (json : Json) (decoder : Decoder)
    {maxMemtableSize cacheCapacity : Nat} (limit : 0 < maxMemtableSize) (room : 0 < cacheCapacity)
    {events : List Event} {s : Lifetime}
    (run : Run (Guarded (Succeeds json) (Reflushing json)) (first maxMemtableSize cacheCapacity)
      events s) (fits : s.log.Fits) (idle : s.store.clients 0 = .idle) : s.Lasts json decoder :=
  (run_resident limit room run fits).lasts idle decoder

/-- No flush of the table fails, and none of another goes on. -/
def Unfailed (json : Json) (name : String) (s : Lifetime) : Event → Prop
  | .work e => s.store.Unfailed json name e
  | _ => True

instance (json : Json) (name : String) (s : Lifetime) (e : Event) :
    Decidable (s.Unfailed json name e) := by
  cases e <;> unfold Unfailed <;> infer_instance

section Instances

variable {json : Json} {s t : Lifetime}

/-- A process in which a table alone is flushed. -/
theorem Resident.succeeds {name : String} {events : List Event} (resident : s.Resident json)
    (asks : ∀ e ∈ events, ∃ work, e = .work work ∧ Asks json work)
    (run : Run (Guarded (Step json) (Unfailed json name)) s events t) (fits : t.log.Fits) :
    Run (Guarded (Succeeds json) (Reflushing json)) s events t ∧ t.Resident json := by
  induction run with
  | nil => exact ⟨Run.nil _, resident⟩
  | @snoc middle _ _ e _ last ih =>
      obtain ⟨before, there⟩ := ih (fun e member => asks e (List.mem_append_left _ member))
        (fits.before (perform_swapped last.1))
      obtain ⟨work, rfl, asked⟩ := asks e (List.mem_append_right _ List.mem_cons_self)
      obtain ⟨store, moved, rfl⟩ := Option.map_eq_some_iff.mp last.1
      have taken : Succeeds json middle (.work work) _ :=
        ⟨last.1, there.calm.succeeding.unfailed there.calm.sound last.2 asked.alone moved⟩
      exact ⟨before.snoc ⟨taken, asked⟩, there.step taken asked fits⟩

theorem Resident.reopens {maxMemtableSize cacheCapacity : Nat} (resident : s.Resident json)
    (step : Step json s (.reopen maxMemtableSize cacheCapacity) t) :
    Succeeds json s (.reopen maxMemtableSize cacheCapacity) t := by
  have reopened := resident.durable.journal.logging.reopened step
  refine ⟨step, fun name task member => ?_⟩
  rw [(reopened.unflushed name).1] at member
  cases member

/-- A process whose memtables are empty where it has recovered something. -/
theorem reflushed_of_table {name : String} (active : (s.store.site name).active = [])
    (immutable : (s.store.site name).immutable = [])
    (only : ∀ r ∈ s.replayed, (recoveredEntry json r).map Prod.fst = some name) :
    s.Reflushed json := by
  intro other e held member
  rw [recovered, Recovery.entriesFor, List.mem_reverse, List.mem_filterMap] at member
  obtain ⟨r, left, found⟩ := member
  obtain ⟨both, entry, same⟩ := Option.bind_eq_some_iff.mp found
  have place := only r left
  rw [entry, Option.map_some, Option.some.injEq] at place
  split at same
  · rename_i here
    rw [← here, place, active, immutable] at held
    cases held
  · cases same

end Instances

/-- The next process writes another record, and flushes both. -/
def reflushedOnce : List Event :=
  [.work (.set 0 "t" "t:b" (.str "y")), .work (.check 0), .work (.swap 0)] ++
    List.replicate 15 (.work (.flush "t" 0)) ++ [.work (.writer fun _ => 0)]

/-- All writes of the key give the value, and one of them is on disk. -/
def Written (s : Lifetime) (table key : String) (text : Bytes) : Prop :=
  (∀ call ∈ s.history, call.2.key = namespacedKey table key →
    wordJson.dumps call.2.value = some text) ∧
  ∃ call ∈ s.history, call.1 = table ∧ call.2.key = namespacedKey table key ∧
    call.2.record ∈ s.log.written

instance (s : Lifetime) (table key : String) (text : Bytes) :
    Decidable (s.Written table key text) := by
  unfold Written
  infer_instance

/-- Then a `get` that lasts gives the value. -/
theorem Lasts.written {decoder : Decoder} {s : Lifetime} {table key : String} {text : Bytes}
    (lasts : s.Lasts wordJson decoder) (named : ¬ (table = "" ∨ key = ""))
    (written : s.Written table key text) {result : Except RouterError Value} {t : Store}
    (gets : Gets wordJson decoder s.store table key result t) :
    ∃ value, result = .ok value ∧ wordJson.dumps value = some text := by
  obtain ⟨answer, own, current, rfl⟩ := (lasts table key named).2 result t gets
  obtain ⟨values, call, member, onDisk⟩ := written
  cases answer with
  | none => exact absurd ⟨onDisk.1, onDisk.2.1, onDisk.2.2⟩ (current call member)
  | some e => exact ⟨_, rfl, values (table, e) current.mem (own e rfl)⟩

theorem oneWritten_asks : ∀ e ∈ oneWritten, ∃ work, e = .work work ∧ Asks wordJson work := by
  intro e member
  simp only [oneWritten, List.mem_cons, List.not_mem_nil, or_false] at member
  rcases member with rfl | rfl
  · exact ⟨_, rfl, rfl, by decide, by decide, ⟨"a", rfl⟩, ⟨_, rfl, by rfl⟩, rfl⟩
  · exact ⟨_, rfl, trivial⟩

theorem reflushedOnce_asks : ∀ e ∈ reflushedOnce, ∃ work, e = .work work ∧ Asks wordJson work := by
  intro e member
  rcases List.mem_append.mp member with member | last
  · rcases List.mem_append.mp member with member | flushes
    · simp only [List.mem_cons, List.not_mem_nil, or_false] at member
      rcases member with rfl | rfl | rfl
      · exact ⟨_, rfl, rfl, by decide, by decide, ⟨"b", rfl⟩, ⟨_, rfl, by rfl⟩, rfl⟩
      · exact ⟨_, rfl, trivial⟩
      · exact ⟨_, rfl, trivial⟩
    · exact ⟨_, List.eq_of_mem_replicate flushes, trivial⟩
  · exact ⟨_, List.mem_singleton.mp last, trivial⟩

def textX : Bytes := [0x22, 0x78, 0x22]

/-- The process that recovers the record. -/
theorem recovered_once {a b : Lifetime}
    (plays : playIn (perform wordJson) (Unfailed wordJson "t") (first 2 1) oneWritten = some a)
    (reopens : a.perform wordJson (.reopen 2 1) = some b) (replayed : a.replayed = [])
    (swapped : b.log.swapped = oneRecord) :
    Run (Guarded (Succeeds wordJson) (Reflushing wordJson)) (first 2 1)
      (oneWritten ++ [.reopen 2 1]) b ∧ b.Resident wordJson := by
  have fits := oneRecord_fits swapped
  obtain ⟨run, resident⟩ := (first_resident (by decide) (by decide)).succeeds oneWritten_asks
    (playIn_run plays) (fits.before (perform_swapped reopens))
  have died := reflushed_of_unreplayed wordJson replayed
  have taken := resident.reopens reopens
  exact ⟨run.snoc ⟨taken, died⟩, resident.step taken died fits⟩

/-- A record is recovered once, flushed by the process that recovered it, and read by the next. -/
theorem writes_outlive_restarts_once : ∃ s,
    Run (Guarded (Succeeds wordJson) (Reflushing wordJson)) (first 2 1)
      (oneWritten ++ [.reopen 2 1] ++ reflushedOnce ++ [.reopen 2 1]) s ∧
    s.Lasts wordJson Store.longDecoder ∧ ∃ result t value,
      Gets wordJson Store.longDecoder s.store "t" "a" result t ∧ result = .ok value ∧
      wordJson.dumps value = some textX := by
  have outcome : (playIn (perform wordJson) (Unfailed wordJson "t") (first 2 1) oneWritten).bind
      (fun a => (a.perform wordJson (.reopen 2 1)).bind fun b =>
        (playIn (perform wordJson) (Unfailed wordJson "t") b reflushedOnce).bind fun c =>
        (c.perform wordJson (.reopen 2 1)).map fun s =>
          (c.store.site "t").active.isEmpty && (c.store.site "t").immutable.isEmpty &&
          decide (a.replayed = [] ∧ b.log.swapped = oneRecord ∧
            (∀ r ∈ c.replayed, (recoveredEntry wordJson r).map Prod.fst = some "t") ∧
            Wal.payloadBytes s.log.swapped ≤ Wal.payloadAreaSize ∧
            (∀ r ∈ s.log.swapped, Wal.validateTxId (r.1 + Wal.walCapacity) = .ok ()) ∧
            s.Written "t" "a" textX)) = some true := by decide +kernel
  obtain ⟨a, early, outcome⟩ := Option.bind_eq_some_iff.mp outcome
  obtain ⟨b, reopens, outcome⟩ := Option.bind_eq_some_iff.mp outcome
  obtain ⟨c, late, outcome⟩ := Option.bind_eq_some_iff.mp outcome
  obtain ⟨s, again, outcome⟩ := Option.map_eq_some_iff.mp outcome
  simp only [Bool.and_eq_true, List.isEmpty_iff, decide_eq_true_eq] at outcome
  obtain ⟨⟨active, immutable⟩, replayed, swapped, only, small, ids, written⟩ := outcome
  have fits := fits_of_small small ids
  obtain ⟨before, resident_b⟩ := recovered_once early reopens replayed swapped
  obtain ⟨after, resident_c⟩ := resident_b.succeeds reflushedOnce_asks (playIn_run late)
    (fits.before (perform_swapped again))
  have run := (before.append after).snoc
    ⟨resident_c.reopens again, reflushed_of_table active immutable only⟩
  have idle := (resident_c.durable.journal.logging.reopened again).idle 0
  have lasts :=
    writes_outlive_restarts wordJson Store.longDecoder (by decide) (by decide) run fits idle
  have named : ¬ ("t" = "" ∨ "a" = "") := by decide
  obtain ⟨result, t, gets⟩ := (lasts "t" "a" named).1
  obtain ⟨value, same, text⟩ := lasts.written named written gets
  exact ⟨s, run, lasts, result, t, value, gets, same, text⟩

theorem ok_of_toOption {Error Result : Type} {outcome : Except Error Result} {result : Result}
    (found : outcome.toOption = some result) : outcome = .ok result := by
  cases outcome with
  | error _ => cases found
  | ok _ =>
      cases found
      rfl

/-- The process that has recovered the record ends before it has flushed it. The next one reads
`None`, and the record is in the log. -/
theorem recovered_write_lost : ∃ s,
    Run (Guarded (Succeeds wordJson) (Asked wordJson)) (first 2 1)
      (oneWritten ++ [.reopen 2 1] ++ [.reopen 2 1]) s ∧ s.log.Fits ∧
    s.store.clients 0 = .idle ∧ ¬ s.Lasts wordJson Store.longDecoder := by
  have outcome : (playIn (perform wordJson) (Unfailed wordJson "t") (first 2 1) oneWritten).bind
      (fun a => (a.perform wordJson (.reopen 2 1)).bind fun b =>
        (b.perform wordJson (.reopen 2 1)).map fun s =>
          decide (a.replayed = [] ∧ b.log.swapped = oneRecord ∧ s.log.swapped = oneRecord ∧
            (s.store.router.getCached "t" "t:a").1.toOption.map Option.isNone = some true ∧
            ((s.store.router.getCached "t" "t:a").2.getLocked wordJson "t" "t:a").1.toOption.map
              (fun found => (flagged overflowFlag found, wordJson.dumps found)) =
                some (false, some nullBytes) ∧
            s.Written "t" "a" textX)) = some true := by decide +kernel
  obtain ⟨a, early, outcome⟩ := Option.bind_eq_some_iff.mp outcome
  obtain ⟨b, reopens, outcome⟩ := Option.bind_eq_some_iff.mp outcome
  obtain ⟨s, again, outcome⟩ := Option.map_eq_some_iff.mp outcome
  obtain ⟨replayed, before, after, missed, found, written⟩ := of_decide_eq_true outcome
  obtain ⟨run, resident⟩ := recovered_once early reopens replayed before
  have asked : Run (Guarded (Succeeds wordJson) (Asked wordJson)) (first 2 1)
      (oneWritten ++ [.reopen 2 1]) b :=
    run.mono fun _ _ _ taken => ⟨taken.1, taken.2.asked⟩
  refine ⟨s, asked.snoc ⟨resident.reopens again, trivial⟩, oneRecord_fits after,
    (resident.durable.journal.logging.reopened again).idle 0, fun lasts => ?_⟩
  obtain ⟨value, locked, observed⟩ := Option.map_eq_some_iff.mp found
  obtain ⟨unmarked, null⟩ := Prod.mk.inj observed
  have missed : (s.store.router.getCached "t" "t:a").1 = .ok none := by
    obtain ⟨answer, cached, nothing⟩ := Option.map_eq_some_iff.mp missed
    rw [Option.isNone_iff_eq_none.mp nothing] at cached
    exact ok_of_toOption cached
  have named : ¬ ("t" = "" ∨ "a" = "") := by decide
  have finds : Store.Finds wordJson s.store "t" "t:a" _ _ := .missed missed ⟨[], Run.nil _⟩
  rw [ok_of_toOption locked] at finds
  obtain ⟨_, same, text⟩ := lasts.written named written
    (Gets.passed named (Store.Reads.plain (named_namespaced named) finds unmarked))
  cases same
  rw [null] at text
  exact absurd text (by decide)

end CachyDb.Database.Lifetime
