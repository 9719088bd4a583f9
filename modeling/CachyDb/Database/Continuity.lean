import CachyDb.Database.Durability

set_option autoImplicit false

/-! The log and what a process has in memory: what it would replay, and what an opening behind
the process gives, which has written its log buffer. -/

namespace CachyDb.Database.Lifetime

open ByteString TableHandler Transition Chronicle

/-- The payload that decides about a key: the newest one of the memtables of this process, or
of the table file as it has found it. -/
def payload (s : Lifetime) (name key : String) : Option Bytes :=
  ((latest (s.store.site name).written key).map Entry.packed).or
    (Table.newestPayload (openTable (s.files name)).contents key)

/-- The value in a payload, or `None` without one. -/
def unpackedPayload (json : Json) (payload : Option Bytes) : Value :=
  match payload with
  | none => .null
  | some packed =>
      match unpackRecord json packed with
      | .ok (_, value) => value
      | .error _ => .null

section

variable {json : Json} {s t : Lifetime} {maxMemtableSize cacheCapacity : Nat}

theorem Genuine.unpacked {call : String × Entry} (genuine : Genuine json call) :
    unpackedPayload json (some call.2.packed) = call.2.value := by
  simp only [unpackedPayload, unpackRecord_decoded genuine.packs, genuine.faithful.decoded]

/-- What is read under a key is the value of its payload. -/
theorem Durable.value_payload (durable : s.Durable json) (name key : String) :
    s.store.value json s.files name key = unpackedPayload json (s.payload name key) := by
  obtain ⟨journal, shelved, based, _⟩ := durable
  unfold Store.value Store.newest payload
  cases newest : latest (s.store.site name).written key with
  | some e => exact (shelved.written_genuine journal (latest_mem newest).1).unpacked.symm
  | none =>
      obtain ⟨clients, whole, _⟩ := shelved.entered name
      have nothing := newest
      rw [whole, latest_append, Option.or_eq_none_iff] at nothing
      obtain ⟨base, packed, _, current⟩ := based name key
      rw [nothing.2, Option.map_none, Option.none_or] at packed
      have loads := Table.init_loads (shelved.readable name)
      rw [Option.map_none, Option.none_or, packed]
      cases base with
      | none =>
          exact read_newest (shelved.readable name) loads.grows.coherent.formed rfl loads.grows.holds
            packed fun e member => (by cases member)
      | some b =>
          have genuine := journal.genuine (name, b) (List.mem_append_right _ current.mem)
          rw [Option.map_some, genuine.unpacked]
          apply read_newest (shelved.readable name) loads.grows.coherent.formed rfl loads.grows.holds
            packed
          intro e same
          cases same
          exact ⟨genuine.packs, genuine.faithful⟩

/-- With an empty buffer and nobody between the log and the memtable, a new process has for
each key the payload that the old one had. -/
theorem Reopened.payload (reopened : Reopened json s t maxMemtableSize cacheCapacity)
    (durable : s.Durable json) (empty : s.store.router.wal.walBuffer = [])
    (settled : ∀ client name w, ¬ s.store.Delayed client name w) (reflushed : s.Reflushed json)
    (name key : String) : t.payload name key = s.payload name key := by
  obtain ⟨journal, shelved, _, _⟩ := durable
  -- all calls of the old process are in the files, and in the memtables' histories
  have logged {call : String × Entry} (recent : call ∈ s.recent) :
      call.2.record ∈ s.log.written := by
    have there := journal.logged recent
    rw [Wal.Log.records, journal.logging.wal, empty, List.append_nil,
      ← journal.logging.whole.all] at there
    exact there
  have entered {e : Entry} (recent : (name, e) ∈ s.recent) :
      e ∈ (s.store.site name).written := by
    rcases shelved.placed _ recent with there | ⟨client, waits⟩
    · exact there
    · exact absurd waits (settled client name e)
  have advancing := shelved.ordered.advancing name
  obtain ⟨older, whole, newest⟩ := (shelved.filed name).newest (shelved.keyed name)
  unfold Lifetime.payload
  rw [reopened.all_recovered, reopened.files]
  show ((latest (t.recovered json name) key).map Entry.packed).or
    (Table.newestPayload (s.store.site name).table.handler.saved key) = _
  cases recovered : latest (t.recovered json name) key with
  | some r =>
      obtain ⟨member, at_key⟩ := latest_mem recovered
      obtain ⟨recent, left⟩ := journal.recovered_from reopened member
      have unmarked : r.txId ∉ s.log.marked := by
        rw [reopened.replayed, List.mem_filter, decide_eq_true_iff] at left
        exact left.2
      obtain ⟨e, found⟩ := latest_isSome (entered recent)
      rw [at_key] at found
      obtain ⟨inside, e_key⟩ := latest_mem found
      have same : e = r := by
        rcases advancing.latest_max found r (entered recent) at_key with same | above
        · exact same.symm
        · -- a newer entry of the key would be marked, or recovered as well
          have late := journal.late _ recent
          dsimp only at late
          have mine := shelved.recent_of journal inside (by omega)
          by_cases marked : e.txId ∈ s.log.marked
          · have := shelved.marked_older journal recent unmarked mine marked
              (e_key.trans at_key.symm)
            omega
          · have again := journal.recovers reopened mine (logged mine) marked
            have sorted : Advancing (t.recovered json name) := by
              apply (reopened.recovered_sorted journal.logging name).imp
              intro new old below _
              exact below
            rcases sorted.latest_max recovered e again e_key with same | below
            · exact same
            · omega
      rw [found, same, Option.map_some, Option.some_or]
      rfl
  | none =>
      -- what this process was handed for the key is marked, and has left the active memtable
      have passed {e : Entry} (recent : (name, e) ∈ s.recent) (e_key : e.key = key) :
          e.txId ∈ s.log.marked ∧ e ∈ (s.store.site name).immutable ++ older := by
        have marked : e.txId ∈ s.log.marked := by
          by_contra unmarked
          obtain ⟨_, found⟩ := latest_isSome (journal.recovers reopened recent (logged recent) unmarked)
          dsimp only at found
          rw [e_key, recovered] at found
          cases found
        exact ⟨marked, shelved.marked_entered journal recent marked whole⟩
      have inactive : latest (s.store.site name).active key = none := by
        cases held : latest (s.store.site name).active key with
        | none => rfl
        | some e =>
            obtain ⟨member, e_key⟩ := latest_mem held
            have recent := shelved.held_recent reflushed (List.mem_append_left _ member)
            exact absurd (passed recent e_key).1
              ((shelved.marks name).active e member (journal.late _ recent))
      rw [Option.map_none, Option.none_or, whole, latest_append, inactive, Option.none_or,
        latest_append]
      rcases newest key with ⟨e, held, payload⟩ | payload
      · rw [held, payload]
        rfl
      · cases held : latest (s.store.site name).immutable key with
        | none => exact payload
        | some e =>
            obtain ⟨member, e_key⟩ := latest_mem held
            have recent := shelved.held_recent reflushed (List.mem_append_right _ member)
            rcases (shelved.marks name).slot with done | still
            · rw [done.filed key e held]
              rfl
            · exact absurd (passed recent e_key).1 (still e member (journal.late _ recent))

/-- The entry is in a memtable of the table, or on its way there. -/
def InMemory (s : Lifetime) (name : String) (e : Entry) : Prop :=
  e ∈ (s.store.site name).active ∨ e ∈ (s.store.site name).immutable ∨
    ∃ client, s.store.Delayed client name e

/-- The table file has the newest records of the immutable memtable. -/
def Filed (s : Lifetime) (name : String) : Prop :=
  ∀ key e, latest (s.store.site name).immutable key = some e →
    Table.newestPayload (s.store.site name).table.handler.saved key = some e.packed

/-- What has left the memtables is not replayed. -/
theorem Durable.replays_memory (durable : s.Durable json) :
    ∀ r ∈ (Wal.readWal s.store.router.wal.disk).records,
      ∃ call ∈ s.recent, call.2.record = r ∧ s.InMemory call.1 call.2 := by
  obtain ⟨journal, shelved, _, _⟩ := durable
  intro r member
  rw [← journal.logging.wal, journal.logging.inOrder.readWal, List.mem_filter,
    decide_eq_true_iff] at member
  obtain ⟨there, unmarked⟩ := member
  rcases journal.origin there with found | ⟨call, recent, same⟩
  · exact absurd (journal.completed r found).2 unmarked
  · refine ⟨call, recent, same, ?_⟩
    rcases shelved.placed call recent with entered | waits
    · obtain ⟨older, whole⟩ := (shelved.store.sites call.1).history
      rw [whole] at entered
      rcases List.mem_append.mp entered with active | behind
      · exact Or.inl active
      · rcases List.mem_append.mp behind with immutable | old
        · exact Or.inr (Or.inl immutable)
        · have marked := (shelved.marks call.1).older older whole call.2 old
          rw [← same] at unmarked
          exact absurd marked unmarked
    · exact Or.inr (Or.inr waits)

/-- What is in the memtables is replayed, unless a flush has got it into the file. -/
theorem Durable.memory_logged (durable : s.Durable json) {call : String × Entry}
    (recent : call ∈ s.recent) (held : s.InMemory call.1 call.2) :
    call.2.record ∈ s.store.router.wal.walBuffer ∨
      call.2.record ∈ (Wal.readWal s.store.router.wal.disk).records ∨
      (call.2 ∈ (s.store.site call.1).immutable ∧ s.Filed call.1) := by
  obtain ⟨journal, shelved, _, _⟩ := durable
  have marks := shelved.marks call.1
  have late := journal.late call recent
  have unmarked : call.2.txId ∉ s.log.marked ∨
      (call.2 ∈ (s.store.site call.1).immutable ∧ s.Filed call.1) := by
    rcases held with active | immutable | ⟨client, waits⟩
    · exact Or.inl (marks.active call.2 active late)
    · rcases marks.slot with settled | still
      · exact Or.inr ⟨immutable, settled.filed⟩
      · exact Or.inl (still call.2 immutable late)
    · exact Or.inl (shelved.waiting_unmarked journal waits)
  rcases unmarked with unmarked | filed
  · rcases List.mem_append.mp (journal.logged recent) with swapped | buffered
    · right; left
      rw [← journal.logging.wal, journal.logging.inOrder.readWal, List.mem_filter,
        decide_eq_true_iff, journal.logging.whole.all]
      exact ⟨swapped, unmarked⟩
    · exact Or.inl (journal.logging.wal ▸ buffered)
  · exact Or.inr (Or.inr filed)

/-- In every run the log and the memory agree: what it would replay now is in a memtable or on
its way there, and what is there is replayed, or in the log buffer, or in the table file. -/
theorem log_tracks_memory (json : Json) {maxMemtableSize cacheCapacity : Nat}
    (room : 0 < cacheCapacity) {events : List Event} {s : Lifetime}
    (run : Run (Guarded (Step json) (Allowed json)) (first maxMemtableSize cacheCapacity) events s)
    (fits : s.log.Fits) :
    (∀ r ∈ (Wal.readWal s.store.router.wal.disk).records,
      ∃ call ∈ s.recent, call.2.record = r ∧ s.InMemory call.1 call.2) ∧
    ∀ call ∈ s.recent, s.InMemory call.1 call.2 →
      call.2.record ∈ s.store.router.wal.walBuffer ∨
      call.2.record ∈ (Wal.readWal s.store.router.wal.disk).records ∨
      (call.2 ∈ (s.store.site call.1).immutable ∧ s.Filed call.1) := by
  have durable := run_durable room run fits
  exact ⟨durable.replays_memory, fun call recent => durable.memory_logged recent⟩

/-- After one write, which has come to the log files. -/
theorem log_tracks_one_record :
    ∃ s, Run (Guarded (Step wordJson) (Allowed wordJson)) (first 2 1) oneWritten s ∧
      s.recent.length = 1 ∧ s.store.router.wal.walBuffer = [] ∧
      (∀ r ∈ (Wal.readWal s.store.router.wal.disk).records,
        ∃ call ∈ s.recent, call.2.record = r ∧ s.InMemory call.1 call.2) ∧
      ∀ call ∈ s.recent, s.InMemory call.1 call.2 →
        call.2.record ∈ s.store.router.wal.walBuffer ∨
        call.2.record ∈ (Wal.readWal s.store.router.wal.disk).records ∨
        (call.2 ∈ (s.store.site call.1).immutable ∧ s.Filed call.1) := by
  obtain ⟨s, t, once⟩ := written_once
  obtain ⟨e, recent⟩ := once.recent
  have tracks := log_tracks_memory wordJson (by decide) once.run (oneRecord_fits once.before)
  exact ⟨s, once.run, by rw [recent]; rfl, once.buffer, tracks⟩

/-- Whatever was done before: once the log buffer has been written and nobody is between the
log and a memtable, a new process reads under every key what the old one did. -/
theorem reopen_keeps_reads (json : Json) {maxMemtableSize cacheCapacity : Nat}
    (room : 0 < cacheCapacity) {events : List Event} {s t : Lifetime}
    (run : Run (Guarded (Step json) (Allowed json)) (first maxMemtableSize cacheCapacity) events s)
    (fits : s.log.Fits) (empty : s.store.router.wal.walBuffer = [])
    (settled : ∀ client name w, ¬ s.store.Delayed client name w) (reflushed : s.Reflushed json)
    {maxMemtableSize' cacheCapacity' : Nat}
    (reopens : s.reopen json maxMemtableSize' cacheCapacity' = some t) (name key : String) :
    (t.store.router.getLocked json name key).1 = (s.store.router.getLocked json name key).1 := by
  have durable := run_durable room run fits
  have reopened := durable.journal.logging.reopened reopens
  have next := durable.reopened reflushed reopened
  rw [durable.shelved.answer durable.journal durable.based,
    next.shelved.answer next.journal next.based, durable.value_payload, next.value_payload,
    reopened.payload durable empty settled reflushed]

/-- Also the record that was only in a memtable and in the log. -/
theorem reopen_keeps_one_read :
    ∃ s t, Run (Guarded (Step wordJson) (Allowed wordJson)) (first 2 1) oneWritten s ∧
      s.reopen wordJson 2 1 = some t ∧
      (t.store.router.getLocked wordJson "t" "t:a").1 =
        (s.store.router.getLocked wordJson "t" "t:a").1 := by
  obtain ⟨s, t, once⟩ := written_once
  have reflushed := reflushed_of_unreplayed wordJson once.replayed
  exact ⟨s, t, once.run, once.reopens, reopen_keeps_reads wordJson (by decide) once.run
    (oneRecord_fits once.before) once.buffer once.settled reflushed once.reopens "t" "t:a"⟩

end

end CachyDb.Database.Lifetime
