import CachyDb.Database.Processes
import CachyDb.Lib.Simulation
import CachyDb.Storage.Provenance

set_option autoImplicit false

/-! Where the values that are read come from. In every run, whatever the swaps overwrite, the
flushes do not finish and the processes do not get to, a key reads as `None` or as a value that
it was given. -/

namespace CachyDb

open ByteString TableHandler Transition

namespace Store

/-- The step is a call that gives the value to the key. -/
def Event.Writes (e : Event) (name key : String) (value : Value) : Prop :=
  match e with
  | .set _ other given new => other = name ∧ given = key ∧ new = value
  | .append _ other records => other = name ∧ (key, value) ∈ records
  | _ => False

section

variable {json : Json} {s t : Store} {e : Event}

/-- A step hands no other entries to the log than those of its call. -/
theorem calls_written :
    ∀ call ∈ s.calls json e, e.Writes call.1 call.2.key call.2.value := by
  intro call member
  cases e with
  | set client name key value =>
      cases packs : packRecord json key value with
      | ok packed =>
          simp only [calls, packs, List.mem_singleton] at member
          rw [member]
          exact ⟨rfl, rfl, rfl⟩
      | error _ =>
          simp only [calls, packs, List.not_mem_nil] at member
  | append client name records =>
      cases packs : Router.packRecords json records with
      | ok packedRecords =>
          simp only [calls, packs] at member
          obtain ⟨entry, inside, rfl⟩ := List.mem_map.mp member
          obtain ⟨⟨given, zipped⟩, _⟩ := entriesOf_mem inside
          have same := (List.forall₂_iff_zip.mp (Router.packRecords_each packs)).2 zipped
          refine ⟨rfl, ?_⟩
          dsimp only at same ⊢
          rw [same.1]
          exact (List.of_mem_zip zipped).1
      | error _ =>
          simp only [calls, packs, List.not_mem_nil] at member
  | _ => cases member

/-- What a step logs is what its call gives. -/
theorem logged_written :
    ∀ r ∈ s.loggedRecords json e, ∃ name key, Made json (e.Writes name) key r.2 := by
  intro r member
  cases e with
  | set client name key value =>
      cases packs : packRecord json key value with
      | ok packed =>
          simp only [loggedRecords, packs, List.mem_singleton] at member
          rw [member]
          exact ⟨name, key, value, packs, rfl, rfl, rfl⟩
      | error _ =>
          simp only [loggedRecords, packs, List.not_mem_nil] at member
  | append client name records =>
      cases packs : Router.packRecords json records with
      | ok packedRecords =>
          simp only [loggedRecords, packs, Wal.callRecords] at member
          obtain ⟨packed, inside, same⟩ := List.mem_map.mp (List.of_mem_zip member).2
          obtain ⟨record, given, _, result⟩ := Router.packRecords_mem packs inside
          exact ⟨name, record.1, record.2, same ▸ result, rfl, given⟩
      | error _ =>
          simp only [loggedRecords, packs, List.not_mem_nil] at member
  | _ => cases member

/-- A lookup leaves the records in their pages. -/
theorem load_contents (sound : s.Sound json) {name : String} {h : TableHandler}
    (acted : s.actOn json name e = .load h) :
    h.contents = (s.site name).table.handler.contents := by
  have acts := actsOn json s name e
  rw [acted] at acts
  cases acts with
  | load key =>
      have formed := (sound.sites name).coherent.formed
      obtain ⟨found, same, keeps⟩ := Table.find_keeps json key (s.router.table name)
        (P := fun h => Keeps (s.router.table name).handler h)
        (fun _ _ _ _ before read => before.trans (before.formed.readPage_keeps read).1)
        (Keeps.refl formed)
      rw [same]
      exact keeps.contents

end

end Store

namespace Database.Lifetime

/-- The step is a call of `set` or `set_many` that gives the value to the key. -/
def Event.Writes (e : Event) (name key : String) (value : Value) : Prop :=
  match e with
  | .work e => e.Writes name key value
  | _ => False

/-- The values that are written are JSON values, and these. -/
def Gives (json : Json) (wrote : String → String → Value → Prop) (s : Lifetime) (e : Event) : Prop :=
  s.Ordinary json e ∧ ∀ name key value, e.Writes name key value → wrote name key value

/-- What a key of the table may have been given: what was written to it, or to the key in
another table, from where recovery brings it here. -/
def Given (json : Json) (wrote : String → String → Value → Prop) (name key : String)
    (value : Value) : Prop :=
  json.Faithful value ∧ ∃ table, wrote table key value ∧ (table = name ∨ recoveryTable key = name)

/-- The tables, the calls between the log and the tables, the log and the cache have for each
key what it was given. -/
structure Rooted (json : Json) (wrote : String → String → Value → Prop) (s : Lifetime) : Prop where
  sites : ∀ name, (s.store.site name).Rooted json (Given json wrote name)
  waiting : ∀ client name w, s.store.Delayed client name w → Given json wrote name w.key w.value
  logged : ∀ r ∈ s.log.records, ∃ name key,
    Made json (fun key value => json.Faithful value ∧ wrote name key value) key r.2
  cached : ∀ name key held, s.store.router.cache.cache.lookup (name, key) = some held →
    held = .null ∨ Given json wrote name key held
  room : 0 < s.store.router.cache.capacity

section

variable {json : Json} {wrote : String → String → Value → Prop} {s t : Lifetime}
  {maxMemtableSize cacheCapacity : Nat}

theorem Gives.faithful {e : Store.Event} (gives : s.Gives json wrote (.work e)) {name key : String}
    {value : Value} (writes : e.Writes name key value) :
    json.Faithful value ∧ wrote name key value := by
  refine ⟨?_, gives.2 name key value writes⟩
  have ordinary : e.Ordinary json := gives.1
  cases e with
  | set client other given new =>
      obtain ⟨_, _, rfl⟩ := writes
      exact ordinary
  | append client other records => exact ordinary (key, value) writes.2
  | _ => cases writes

/-- What a lookup under the lock gives. -/
theorem Rooted.locked (rooted : s.Rooted json wrote) (sound : s.store.Sound json)
    {name key : String} {value : Value}
    (read : (s.store.router.getLocked json name key).1 = .ok value) :
    value = .null ∨ Given json wrote name key value := by
  rw [(Router.getLocked_spec json sound.cache name key).answers] at read
  rcases (rooted.sites name).find (sound.sites name) read with null | ⟨given, from_call, same⟩
  · exact Or.inl null
  · rw [from_call.1.decoded] at same
    exact Or.inr (same ▸ from_call)

theorem Rooted.work {e : Store.Event} {store : Store} (rooted : s.Rooted json wrote)
    (sound : s.store.Sound json) (logging : s.Logging) (gives : s.Gives json wrote (.work e))
    (step : Store.Step json s.store e store) :
    Rooted json wrote { s with
      store := store
      log := s.store.follow json s.log e
      recent := (s.store.calls json e).reverse ++ s.recent } := by
  have acts := sound.acts step
  have called (name : String) (new : Entry) (member : (name, new) ∈ s.store.calls json e) :
      Given json wrote name new.key new.value := by
    obtain ⟨faithful, from_call⟩ := gives.faithful (Store.calls_written _ member)
    exact ⟨faithful, name, from_call, Or.inl rfl⟩
  have entered {name : String} {entries : List Entry} {txIds : List Nat}
      (acted : s.store.actOn json name e = .enter entries txIds) :
      ∀ new ∈ entries, Given json wrote name new.key new.value := by
    intro new member
    rcases Store.entered_from acted with logged | ⟨client, _, waited⟩
    · exact called name new (logged new member)
    · exact rooted.waiting client name new (waited new member)
  constructor
  · intro name
    dsimp only
    rw [acts.site]
    exact (rooted.sites name).act (sound.sites name) (acts.valid name)
      (fun h loaded => Store.load_contents sound loaded) fun entries txIds acted new member =>
        ⟨new.value, (acts.entered name entries txIds acted new member).2, entered acted new member⟩
  · intro client name w waits
    rcases Store.delayed_before step waits with ⟨waited, _⟩ | ⟨new, _⟩
    · exact rooted.waiting client name w waited
    · exact called name w new
  · intro r member
    dsimp only at member
    rw [Store.follow_records sound step logging.wal] at member
    rcases List.mem_append.mp member with old | new
    · exact rooted.logged r old
    · obtain ⟨name, key, value, packs, writes⟩ := Store.logged_written r new
      exact ⟨name, key, value, packs, gives.faithful writes⟩
  · intro name key held known
    rcases acts.cached rooted.room (name, key) held known with
      ⟨entries, txIds, new, acted, found, rfl⟩ | ⟨old, _⟩ | ⟨_, answered⟩
    · obtain ⟨member, rfl⟩ := latest_mem found
      exact Or.inr (entered acted new (List.mem_reverse.mp member))
    · exact rooted.cached name key held old
    · exact rooted.locked sound answered
  · exact acts.capacity ▸ rooted.room

/-- A thread of the log touches no table and no record. -/
theorem Rooted.preAllocated {fileId : Nat} (rooted : s.Rooted json wrote) (working : s.Working json)
    (step : s.preAllocate fileId = some t) : t.Rooted json wrote := by
  obtain ⟨_, alike, cache, records, _⟩ :=
    working.logging.preAllocated working.sound.cache step
  constructor
  · exact fun name => alike.site name ▸ rooted.sites name
  · rintro client name w ⟨batch, packedRecords, txIds, at_log, member⟩
    exact rooted.waiting client name w ⟨batch, packedRecords, txIds, alike.clients ▸ at_log, member⟩
  · exact fun r member => rooted.logged r (records ▸ member)
  · exact fun name key held known => rooted.cached name key held (cache ▸ known)
  · exact alike.capacity ▸ rooted.room

/-- A new process has what is in the files, and what recovery brings from the log. -/
theorem Rooted.reopened (rooted : s.Rooted json wrote) (working : s.Working json)
    (reopened : Reopened json s t maxMemtableSize cacheCapacity) : t.Rooted json wrote := by
  constructor
  · intro name
    have readable : (openTable (t.files name)).WellFormed := by
      rw [reopened.files]
      exact working.readable name
    rw [reopened.site]
    apply Site.Rooted.enterAll
    · refine Site.opened_rooted readable (fun place payload there => ?_) _ rfl rfl rfl
      rw [reopened.files] at there
      exact (rooted.sites name).contents _
        ((working.sound.sites name).coherent.behind place payload there)
    · intro e member
      obtain ⟨r, logged, recovers⟩ :=
        reopened.recovered_logged working.logging.whole (List.mem_reverse.mpr member)
      obtain ⟨table, key, value, packs, faithful, from_call⟩ := rooted.logged r logged
      unfold recoveredEntry at recovers
      rw [unpackRecord_decoded packs, faithful.decoded] at recovers
      dsimp only at recovers
      split at recovers
      · cases recovers
      · cases recovers
        exact ⟨value, packs, faithful, table, from_call, Or.inr rfl⟩
  · rintro client name w ⟨_, _, _, at_log, _⟩
    rw [reopened.idle] at at_log
    cases at_log
  · exact fun r member => rooted.logged r (reopened.kept working.logging.whole member)
  · intro name key held known
    rw [reopened.store.cache] at known
    cases known
  · rw [reopened.store.cache]
    exact reopened.limits.2

theorem Rooted.step {e : Event} (rooted : s.Rooted json wrote) (working : s.Working json)
    (step : Step json s e t) (gives : s.Gives json wrote e) : t.Rooted json wrote := by
  cases e with
  | work e =>
      obtain ⟨store, moved, rfl⟩ := Option.map_eq_some_iff.mp step
      exact rooted.work working.sound working.logging gives moved
  | preAllocate fileId => exact rooted.preAllocated working step
  | reopen maxMemtableSize cacheCapacity =>
      exact rooted.reopened working (working.logging.reopened step)

/-- What the database gives for a key. -/
theorem Rooted.read (rooted : s.Rooted json wrote) (sound : s.store.Sound json) {name key : String}
    {value : Value} (read : (s.store.router.getLocked json name key).1 = .ok value ∨
      (s.store.router.getCached name key).1 = .ok (some value)) :
    value = .null ∨ Given json wrote name key value := by
  rcases read with locked | cached
  · exact rooted.locked sound locked
  · rcases Store.getCached_answer sound.cache name key with missed | ⟨held, known, got⟩
    · rw [missed] at cached
      cases cached
    · rw [got] at cached
      cases cached
      exact rooted.cached name key _ known

end

end Database.Lifetime

end CachyDb
