import CachyDb.Storage.Locked
import CachyDb.Wal.Counter

set_option autoImplicit false

/-! Each step of the router is one act on each of its tables, so every run keeps the
tables sound. -/

namespace CachyDb

open ByteString TableHandler Transition

namespace Store

theorem enterAll_site (shelf : Shelf) (table : Table) (entries : List Entry) :
    entries.foldl Site.enter { shelf with table := table } =
      { entries.foldl Shelf.enter shelf with
        table := entries.foldl (fun t e => t.insert e.key e.packed) table } := by
  induction entries generalizing shelf table with
  | nil => rfl
  | cons e rest ih => exact ih (shelf.enter e) (table.insert e.key e.packed)

theorem site_congr {s t : Store} (shelves : t.shelves = s.shelves)
    (tables : t.router.tables = s.router.tables)
    (files : t.router.tableFiles = s.router.tableFiles) {name : String} :
    t.site name = s.site name := by
  rw [site, site, shelves, Router.table_congr tables files]

/-- The records that wait between the log and the memtable. -/
def Pending (json : Json) (s : Store) : Prop :=
  ∀ client name records packedRecords txIds,
    s.clients client = .logged name records packedRecords txIds →
      Router.packRecords json records = .ok packedRecords ∧
        ∃ first, txIds = List.range' first records.length ∧
          first + records.length ≤ s.router.wal.globalTxId

theorem logged_update {clients : Nat → Client} {client other : Nat} {state : Client}
    {name : String}
    (quiet : ∀ name records packedRecords txIds,
      state ≠ .logged name records packedRecords txIds)
    {records : List (String × Value)} {packedRecords : List (String × Bytes)} {txIds : List Nat}
    (logged : Function.update clients client state other =
      .logged name records packedRecords txIds) :
    clients other = .logged name records packedRecords txIds := by
  by_cases same : other = client
  · subst same
    rw [Function.update_self] at logged
    exact absurd logged (quiet _ _ _ _)
  · rw [Function.update_of_ne same] at logged
    exact logged

/-- Other clients go on waiting, and the counter does not go back. -/
theorem Pending.update {json : Json} {s t : Store} (pending : s.Pending json) {client : Nat} {state : Client}
    (clients : t.clients = Function.update s.clients client state)
    (counter : s.router.wal.globalTxId ≤ t.router.wal.globalTxId)
    (quiet : ∀ name records packedRecords txIds,
      state ≠ .logged name records packedRecords txIds) : t.Pending json := by
  intro other name records packedRecords txIds at_log
  rw [clients] at at_log
  obtain ⟨packs, first, ids, below⟩ :=
    pending other name records packedRecords txIds (logged_update quiet at_log)
  exact ⟨packs, first, ids, Nat.le_trans below counter⟩

theorem Pending.keep {json : Json} {s t : Store} (pending : s.Pending json) (clients : t.clients = s.clients)
    (counter : s.router.wal.globalTxId ≤ t.router.wal.globalTxId) : t.Pending json := by
  intro other name records packedRecords txIds at_log
  rw [clients] at at_log
  obtain ⟨packs, first, ids, below⟩ := pending other name records packedRecords txIds at_log
  exact ⟨packs, first, ids, Nat.le_trans below counter⟩

theorem afterWrite_quiet (other : String) (result : Except RouterError Bool) (name : String)
    (records : List (String × Value)) (packedRecords : List (String × Bytes)) (txIds : List Nat) :
    afterWrite other result ≠ .logged name records packedRecords txIds := by
  unfold afterWrite
  split
  · exact fun same => by cases same
  · exact fun same => by cases same

/-- What the cache holds was written in this step, or was there already and its key has not
been written, or was just looked up. -/
def Cached (json : Json) (s : Store) (e : Event) (t : Store) : Prop :=
  ∀ other held, t.router.cache.cache.lookup other = some held →
    (∃ entries txIds new, s.actOn json other.1 e = .enter entries txIds ∧
      latest entries.reverse other.2 = some new ∧ held = new.value) ∨
    (s.router.cache.cache.lookup other = some held ∧
      ∀ entries txIds, s.actOn json other.1 e = .enter entries txIds →
        latest entries.reverse other.2 = none) ∨
    (e = .getLocked other.1 other.2 ∧ (s.router.getLocked json other.1 other.2).1 = .ok held)

theorem cached_same {json : Json} {s t : Store} {e : Event}
    (cache : t.router.cache.cache = s.router.cache.cache)
    (quiet : ∀ name entries txIds, s.actOn json name e ≠ .enter entries txIds) :
    Cached json s e t := by
  intro other held known
  rw [cache] at known
  exact Or.inr (Or.inl ⟨known, fun entries txIds acted => absurd acted (quiet _ _ _)⟩)

theorem cached_quiet {json : Json} {s t : Store} {e : Event} {name : String} {act : Site.Act}
    (cache : t.router.cache.cache = s.router.cache.cache) (here : s.actOn json name e = act)
    (quiet : ∀ entries txIds, act ≠ .enter entries txIds)
    (elsewhere : ∀ other, other ≠ name → s.actOn json other e = .stay) : Cached json s e t := by
  apply cached_same cache
  intro other entries txIds
  by_cases same : other = name
  · rw [same, here]
    exact quiet entries txIds
  · rw [elsewhere other same]
    exact fun same => by cases same

theorem cached_caches {json : Json} {s t : Store} {e : Event} {name : String}
    {entries : List Entry} {txIds : List Nat}
    (caches : Router.Caches s.router.cache t.router.cache name entries.reverse)
    (here : s.actOn json name e = .enter entries txIds)
    (elsewhere : ∀ other, other ≠ name → s.actOn json other e = .stay) : Cached json s e t := by
  intro other held known
  rcases caches other held known with ⟨same, new, found, value⟩ | ⟨old, missing⟩
  · exact Or.inl ⟨entries, txIds, new, by rw [same, here], found, value⟩
  · refine Or.inr (Or.inl ⟨old, fun entries' txIds' acted => ?_⟩)
    by_cases same : other.1 = name
    · rw [same, here] at acted
      cases acted
      exact missing same
    · rw [elsewhere _ same] at acted
      cases acted

/-- A step is one act on each table, and keeps the cache, its size and the limit. -/
structure Acts (json : Json) (s : Store) (e : Event) (t : Store) : Prop where
  site : ∀ name, t.site name = (s.site name).act (s.actOn json name e)
  valid : ∀ name, (s.actOn json name e).Valid (s.site name)
  pending : t.Pending json
  counter : s.router.wal.globalTxId ≤ t.router.wal.globalTxId
  entered : ∀ name entries txIds, s.actOn json name e = .enter entries txIds →
    ∀ new ∈ entries, new.txId < t.router.wal.globalTxId ∧
      packRecord json new.key new.value = .ok new.packed
  cached : 0 < s.router.cache.capacity → Cached json s e t
  cache : t.router.cache.WellFormed
  capacity : t.router.cache.capacity = s.router.cache.capacity
  limit : t.router.maxMemtableSize = s.router.maxMemtableSize

/-- No table has changed. -/
theorem acts_stay {json : Json} {s t : Store} {e : Event} (formed : s.router.cache.WellFormed)
    (site : ∀ name, t.site name = s.site name) (stay : ∀ name, s.actOn json name e = .stay)
    (pending : t.Pending json) (counter : s.router.wal.globalTxId ≤ t.router.wal.globalTxId)
    (cache : t.router.cache = s.router.cache)
    (limit : t.router.maxMemtableSize = s.router.maxMemtableSize) : Acts json s e t := by
  have quiet (name : String) (entries : List Entry) (txIds : List Nat) :
      s.actOn json name e ≠ .enter entries txIds := by
    rw [stay]
    exact fun same => by cases same
  refine ⟨fun name => ?_, fun name => ?_, pending, counter, ?_, ?_, by rw [cache]; exact formed,
    by rw [cache], limit⟩
  · rw [stay, site]
    rfl
  · rw [stay]
    trivial
  · exact fun name entries txIds acted => absurd acted (quiet name entries txIds)
  · exact fun _ => cached_same (by rw [cache]) quiet

/-- One table has changed. -/
theorem acts_table {json : Json} {s t : Store} {e : Event} {name : String} {shelf : Shelf}
    {table : Table} {act : Site.Act} (shelves : t.shelves = Function.update s.shelves name shelf)
    (puts : s.router.Puts t.router name table)
    (here : s.actOn json name e = act) (valid : act.Valid (s.site name))
    (result : (s.site name).act act = { shelf with table := table })
    (elsewhere : ∀ other, other ≠ name → s.actOn json other e = .stay)
    (pending : t.Pending json) (counter : s.router.wal.globalTxId ≤ t.router.wal.globalTxId)
    (entered : ∀ entries txIds, act = .enter entries txIds →
      ∀ new ∈ entries, new.txId < t.router.wal.globalTxId ∧
        packRecord json new.key new.value = .ok new.packed)
    (cached : 0 < s.router.cache.capacity → Cached json s e t)
    (cache : t.router.cache.WellFormed)
    (capacity : t.router.cache.capacity = s.router.cache.capacity) : Acts json s e t := by
  refine ⟨fun other => ?_, fun other => ?_, pending, counter, ?_, cached, cache, capacity,
    puts.limit⟩
  · rw [site, shelves, puts.table]
    by_cases same : other = name
    · subst same
      rw [Function.update_self, if_pos rfl, here, result]
    · rw [Function.update_of_ne same, if_neg same, elsewhere other same]
      rfl
  · by_cases same : other = name
    · subst same
      rw [here]
      exact valid
    · rw [elsewhere other same]
      trivial
  · intro other entries txIds acted
    by_cases same : other = name
    · subst same
      exact entered entries txIds (here.symm.trans acted)
    · rw [elsewhere other same] at acted
      cases acted

section Events

variable {json : Json} {s t : Store}

theorem set_acts (formed : s.router.cache.WellFormed) (pending : s.Pending json) {client : Nat}
    {name key : String} {value : Value} (done : s.set json client name key value = some t) :
    Acts json s (.set client name key value) t := by
  unfold set at done
  split at done
  · rename_i packed _ packs
    split at done
    · cases done
    · cases done
      obtain ⟨r', locked, puts, kept, caches⟩ := s.router.setLocked_spec formed name
        ⟨s.router.wal.globalTxId, key, value, packed⟩ rfl
      dsimp only at locked puts
      rw [locked]
      have here : s.actOn json name (.set client name key value) =
          .enter [⟨s.router.wal.globalTxId, key, value, packed⟩] [s.router.wal.globalTxId] := by
        simp only [actOn, packs, ↓reduceIte]
      have counter : r'.wal.globalTxId = s.router.wal.globalTxId + 1 := by
        rw [kept.wal]
        rfl
      have elsewhere (other : String) (different : other ≠ name) :
          s.actOn json other (.set client name key value) = .stay := by
        simp only [actOn, packs, if_neg different.symm]
      refine acts_table rfl puts here ⟨?_, ?_⟩ rfl elsewhere ?_
        (by show _ ≤ r'.wal.globalTxId; omega) ?_ ?_ kept.formed kept.capacity
      · intro e member
        rw [List.mem_singleton.mp member]
        exact packed_ne_nil packs
      · intro txId member
        exact ⟨_, List.mem_cons_self, (List.mem_singleton.mp member).symm⟩
      · apply pending.update rfl _ (afterWrite_quiet name _)
        show _ ≤ r'.wal.globalTxId
        omega
      · intro entries txIds same new member
        cases same
        rw [List.mem_singleton.mp member]
        refine ⟨?_, packs⟩
        show _ < r'.wal.globalTxId
        rw [counter]
        exact Nat.lt_succ_self _
      · intro room
        have held : Router.Caches s.router.cache r'.cache name
            [⟨s.router.wal.globalTxId, key, value, packed⟩].reverse := caches room
        exact cached_caches held here elsewhere
  · cases done

theorem packRecords_spec {records : List (String × Value)}
    {packedRecords : List (String × Bytes)}
    (packs : Router.packRecords json records = .ok packedRecords) :
    packedRecords.length = records.length ∧ (∀ record ∈ packedRecords, record.2 ≠ []) ∧
      ∀ both ∈ records.zip packedRecords,
        packRecord json both.2.1 both.1.2 = .ok both.2.2 := by
  refine ⟨Router.packRecords_length packs, fun packed member => ?_, fun both member => ?_⟩
  · obtain ⟨record, _, _, result⟩ := Router.packRecords_mem packs member
    exact packed_ne_nil result
  · obtain ⟨same, result⟩ := List.forall₂_zip (Router.packRecords_each packs) member
    rw [same]
    exact result

theorem append_acts (formed : s.router.cache.WellFormed) (pending : s.Pending json) {client : Nat}
    {name : String} {records : List (String × Value)}
    (done : s.append json client name records = some t) :
    Acts json s (.append client name records) t := by
  unfold append at done
  split at done
  · rename_i packedRecords _ packs
    split at done
    · cases done
    · cases done
      obtain ⟨length, _⟩ := packRecords_spec packs
      obtain ⟨ids, counter⟩ := s.router.wal.appendMany_ids (packedRecords.map Prod.snd)
      rw [List.length_map, length] at ids counter
      refine acts_stay formed (fun _ => site_congr (by rfl) (by rfl) (by rfl)) (fun _ => rfl) ?_
        (counter.symm ▸ Nat.le_add_right _ _) rfl rfl
      intro other name' records' packedRecords' txIds' at_log
      by_cases same : other = client
      · subst same
        simp only [putClient, Function.update_self] at at_log
        cases at_log
        exact ⟨packs, _, ids, Nat.le_of_eq counter.symm⟩
      · simp only [putClient, Function.update_of_ne same] at at_log
        obtain ⟨packs', first, ids', below⟩ :=
          pending other name' records' packedRecords' txIds' at_log
        refine ⟨packs', first, ids', Nat.le_trans below ?_⟩
        exact counter.symm ▸ Nat.le_add_right _ _
  · cases done

theorem entriesOf_mem {records : List (String × Value)} {packedRecords : List (String × Bytes)}
    {txIds : List Nat} {e : Entry} (member : e ∈ entriesOf records packedRecords txIds) :
    (∃ name, ((name, e.value), (e.key, e.packed)) ∈ records.zip packedRecords) ∧
      e.txId ∈ txIds := by
  have inside := List.takeWhile_subset _ member
  obtain ⟨⟨⟨record, packed⟩, txId⟩, zipped, rfl⟩ := List.mem_map.mp inside
  have first := List.of_mem_zip zipped
  exact ⟨⟨record.1, first.1⟩, first.2⟩

/-- Without an empty key every id has its entry. -/
theorem entriesOf_ids {records : List (String × Value)} {packedRecords : List (String × Bytes)}
    {txIds : List Nat} (packs : packedRecords.length = records.length)
    (ids : txIds.length = records.length) (named : ∀ record ∈ packedRecords, record.1 ≠ "") :
    (entriesOf records packedRecords txIds).map Entry.txId = txIds := by
  induction records generalizing packedRecords txIds with
  | nil =>
      obtain rfl := List.length_eq_zero_iff.mp ids
      rfl
  | cons record records ih =>
      obtain ⟨⟨key, packed⟩, rest, rfl⟩ := List.exists_cons_of_length_eq_add_one packs
      obtain ⟨txId, later, rfl⟩ := List.exists_cons_of_length_eq_add_one ids
      obtain ⟨first, others⟩ := List.forall_mem_cons.mp named
      rw [Router.entriesOf_cons, if_neg first, List.map_cons,
        ih (Nat.succ.inj packs) (Nat.succ.inj ids) others]

theorem insertMany_acts (formed : s.router.cache.WellFormed) (pending : s.Pending json) {client : Nat}
    (done : s.insertMany client = some t) : Acts json s (.insertMany client) t := by
  unfold insertMany at done
  split at done
  · rename_i name records packedRecords txIds at_log
    cases done
    obtain ⟨packing, first, range, below⟩ :=
      pending client name records packedRecords txIds at_log
    obtain ⟨packs, nonempty, each⟩ := packRecords_spec packing
    have ids : txIds.length = records.length := by
      rw [range, List.length_range']
    obtain ⟨puts, kept, caches⟩ := s.router.setManyLocked_spec formed name packs ids
    have here : s.actOn json name (.insertMany client) =
        .enter (entriesOf records packedRecords txIds)
          (if ∀ record ∈ packedRecords, record.1 ≠ "" then txIds else []) := by
      simp only [actOn, at_log, ↓reduceIte]
    have counter : (s.router.setManyLocked name records packedRecords txIds).2.wal.globalTxId =
        s.router.wal.globalTxId := by
      rw [kept.wal]
    have elsewhere (other : String) (different : other ≠ name) :
        s.actOn json other (.insertMany client) = .stay := by
      simp only [actOn, at_log, if_neg different.symm]
    refine acts_table rfl puts here ⟨?_, ?_⟩ ?_ elsewhere ?_ (Nat.le_of_eq counter.symm) ?_ ?_
      kept.formed kept.capacity
    · intro e member
      obtain ⟨⟨_, both⟩, _⟩ := entriesOf_mem member
      exact nonempty _ (List.of_mem_zip both).2
    · intro txId member
      split at member
      · rename_i named
        rw [← entriesOf_ids packs ids named] at member
        exact List.mem_map.mp member
      · cases member
    · rw [Site.act, site, enterAll_site]
      rfl
    · exact pending.update rfl (Nat.le_of_eq counter.symm) (afterWrite_quiet name _)
    · intro entries ids' same new member
      cases same
      obtain ⟨⟨_, both⟩, inside⟩ := entriesOf_mem member
      refine ⟨?_, each _ both⟩
      rw [range, List.mem_range'_1] at inside
      show _ < (s.router.setManyLocked name records packedRecords txIds).2.wal.globalTxId
      omega
    · exact fun room => cached_caches (caches room) here elsewhere
  · cases done

theorem check_acts (formed : s.router.cache.WellFormed) (pending : s.Pending json) {client : Nat}
    (done : s.check client = some t) : Acts json s (.check client) t := by
  have moved {state : Client} (quiet : ∀ name records packedRecords txIds,
      state ≠ .logged name records packedRecords txIds) :
      Acts json s (.check client) (s.putClient client state) :=
    acts_stay formed (fun _ => rfl) (fun _ => rfl) (pending.update rfl (Nat.le_refl _) quiet)
      (Nat.le_refl _) rfl rfl
  unfold check at done
  split at done
  · split at done
    · cases done
      exact moved fun _ _ _ _ same => by cases same
    · split at done
      · cases done
        exact moved fun _ _ _ _ same => by cases same
      · cases done
        exact moved fun _ _ _ _ same => by cases same
  · cases done

theorem wake_acts (formed : s.router.cache.WellFormed) (pending : s.Pending json) {client : Nat}
    (done : s.wake client = some t) : Acts json s (.wake client) t := by
  have moved {state : Client} (quiet : ∀ name records packedRecords txIds,
      state ≠ .logged name records packedRecords txIds) :
      Acts json s (.wake client) (s.putClient client state) :=
    acts_stay formed (fun _ => rfl) (fun _ => rfl) (pending.update rfl (Nat.le_refl _) quiet)
      (Nat.le_refl _) rfl rfl
  unfold wake at done
  split at done
  · split at done
    · cases done
    · split at done
      · cases done
        exact moved fun _ _ _ _ same => by cases same
      · split at done
        · cases done
          exact moved fun _ _ _ _ same => by cases same
        · cases done
  · cases done

theorem swap_acts (formed : s.router.cache.WellFormed) (pending : s.Pending json) {client : Nat}
    (done : s.swap client = some t) : Acts json s (.swap client) t := by
  unfold swap at done
  split at done
  · rename_i name ready
    cases done
    obtain ⟨full, puts, wal, cached⟩ := s.router.swapLocked_spec name
    rw [full]
    have counter : s.router.wal.globalTxId ≤ (s.router.swapLocked name).2.wal.globalTxId := by
      rw [wal]
    have cache : (s.router.swapLocked name).2.cache.WellFormed := by
      rw [cached]
      exact formed
    have capacity : (s.router.swapLocked name).2.cache.capacity = s.router.cache.capacity := by
      rw [cached]
    have cacheOf : (s.router.swapLocked name).2.cache.cache = s.router.cache.cache := by
      rw [cached]
    have waiting (shelf : Shelf) :
        (({ s with router := (s.router.swapLocked name).2 }.putShelf name shelf).putClient client
          .idle).Pending json :=
      pending.update rfl counter fun _ _ _ _ same => by cases same
    by_cases large : (s.router.table name).active.size ≥ s.router.maxMemtableSize
    · rw [if_pos large] at puts
      rw [decide_eq_true large, if_pos rfl]
      have here : s.actOn json name (.swap client) = .swap := by
        simp only [actOn, ready, large, true_and, ↓reduceIte]
      have elsewhere (other : String) (different : other ≠ name) :
          s.actOn json other (.swap client) = .stay := by
        simp only [actOn, ready, if_neg (fun both : name = other ∧ _ => different both.1.symm)]
      refine acts_table rfl puts here trivial rfl elsewhere (waiting _) counter ?_ ?_ cache capacity
      · exact fun _ _ same => by cases same
      · exact fun _ => cached_quiet cacheOf here (fun _ _ same => by cases same) elsewhere
    · rw [if_neg large] at puts
      rw [decide_eq_false large, if_neg Bool.false_ne_true]
      have here (other : String) : s.actOn json other (.swap client) = .stay := by
        simp only [actOn, ready]
        rw [if_neg]
        rintro ⟨rfl, reached⟩
        exact large reached
      refine acts_table rfl puts (here name) trivial rfl (fun other _ => here other) (waiting _)
        counter ?_ ?_ cache capacity
      · exact fun _ _ same => by cases same
      · exact fun _ => cached_quiet cacheOf (here name) (fun _ _ same => by cases same) fun other _ =>
          here other
  · cases done

theorem puts_putTable (r : Router) (name : String) (table : Table) :
    r.Puts (r.putTable name table) name table := by
  refine ⟨fun other => ?_, rfl⟩
  by_cases same : other = name
  · rw [if_pos same, same, r.table_putTable_self]
  · rw [if_neg same, r.table_putTable_ne _ same]

theorem flush_acts (formed : s.router.cache.WellFormed) (pending : s.Pending json) {name : String}
    {i : Nat} (done : s.flush name i = some t) : Acts json s (.flush name i) t := by
  unfold flush at done
  split at done
  · cases done
  · rename_i task known
    have here : s.actOn json name (.flush name i) = .advance i task := by
      simp only [actOn, known, ↓reduceIte]
    have elsewhere (other : String) (different : other ≠ name) :
        s.actOn json other (.flush name i) = .stay := by
      simp only [actOn, if_neg different.symm]
    have puts := puts_putTable s.router name ((s.site name).advance i task).table
    have quiet : ∀ entries txIds, Site.Act.advance i task = .enter entries txIds →
        ∀ new ∈ entries, new.txId < t.router.wal.globalTxId ∧
          packRecord json new.key new.value = .ok new.packed := fun _ _ same => by cases same
    split at done
    · have counter : t.router.wal.globalTxId = s.router.wal.globalTxId := by
        cases done
        exact (Wal.markMany_queue _ _).globalTxId
      cases done
      refine acts_table rfl ⟨fun other => ?_, rfl⟩ here known rfl elsewhere
        (pending.keep rfl (Nat.le_of_eq counter.symm)) (Nat.le_of_eq counter.symm) quiet
        (fun _ => cached_quiet rfl here (fun _ _ same => by cases same) elsewhere) formed rfl
      refine Eq.trans ?_ (puts.table other)
      exact Router.table_congr (by rfl) (by rfl) other
    · cases done
      exact acts_table rfl puts here known rfl elsewhere (pending.keep rfl (Nat.le_refl _))
        (Nat.le_refl _) quiet
        (fun _ => cached_quiet rfl here (fun _ _ same => by cases same) elsewhere) formed rfl

theorem raise_acts (formed : s.router.cache.WellFormed) (pending : s.Pending json) {name : String}
    {i : Nat} (done : s.raise name i = some t) : Acts json s (.raise name i) t := by
  unfold raise at done
  split at done
  · cases done
  · rename_i task known
    split at done
    · cases done
    · rename_i running
      cases done
      have here : s.actOn json name (.raise name i) = .raise i task := by
        simp only [actOn, known, ↓reduceIte]
      have elsewhere (other : String) (different : other ≠ name) :
          s.actOn json other (.raise name i) = .stay := by
        simp only [actOn, if_neg different.symm]
      refine acts_table rfl (puts_putTable s.router name _) here ⟨known, by simpa using running⟩ rfl
        elsewhere (pending.keep rfl (Nat.le_refl _)) (Nat.le_refl _) ?_ ?_ formed rfl
      · exact fun _ _ same => by cases same
      · exact fun _ => cached_quiet rfl here (fun _ _ same => by cases same) elsewhere

theorem getCached_acts (formed : s.router.cache.WellFormed) (pending : s.Pending json)
    (name key : String) : Acts json s (.getCached name key)
      { s with router := (s.router.getCached name key).2 } := by
  obtain ⟨counted, got, formed', same, capacity⟩ := formed.get (name, key)
  have result : (s.router.getCached name key).2 = { s.router with cache := counted } := by
    rw [Router.getCached, got]
    dsimp only
    split
    · rfl
    · rfl
  rw [result]
  refine ⟨fun other => ?_, fun _ => trivial, pending.keep rfl (Nat.le_refl _), Nat.le_refl _, ?_,
    fun _ => cached_same same fun _ _ _ same => ?_, formed', capacity, rfl⟩
  · exact site_congr (by rfl) (by rfl) (by rfl)
  · exact fun _ _ _ same => by cases same
  · cases same

theorem getLocked_acts (formed : s.router.cache.WellFormed) (pending : s.Pending json)
    (coherent : ∀ name, (s.site name).table.handler.Coherent) (name key : String) :
    Acts json s (.getLocked name key)
      { s with router := (s.router.getLocked json name key).2 } := by
  obtain ⟨_, puts, kept, caches⟩ := Router.getLocked_spec json formed name key
  obtain ⟨h, same, grows⟩ := Table.find_grows json key (s.router.table name) (coherent name)
  have here : s.actOn json name (.getLocked name key) =
      .load ((s.router.table name).find json key).2.handler := by
    simp only [actOn, ↓reduceIte]
  have counter : s.router.wal.globalTxId ≤
      (s.router.getLocked json name key).2.wal.globalTxId := by
    rw [kept.wal]
  have elsewhere (other : String) (different : other ≠ name) :
      s.actOn json other (.getLocked name key) = .stay := by
    simp only [actOn, if_neg different.symm]
  refine acts_table (Function.update_eq_self name s.shelves).symm puts here ?_ ?_ elsewhere
    (pending.keep rfl counter) counter ?_ ?_ kept.formed kept.capacity
  · intro _
    rw [same]
    exact grows
  · rw [same]
    rfl
  · exact fun _ _ same => by cases same
  · intro _ other held known
    rcases caches other held known with old | ⟨rfl, answer⟩
    · refine Or.inr (Or.inl ⟨old, fun entries txIds acted => ?_⟩)
      by_cases same : other.1 = name
      · rw [same, here] at acted
        cases acted
      · rw [elsewhere _ same] at acted
        cases acted
    · exact Or.inr (Or.inr ⟨rfl, answer⟩)

/-- What the router does in a step. -/
theorem step_acts (formed : s.router.cache.WellFormed) (pending : s.Pending json)
    (coherent : ∀ name, (s.site name).table.handler.Coherent) {e : Event} (step : Step json s e t) :
    Acts json s e t := by
  cases e with
  | set client name key value => exact set_acts formed pending step
  | append client name records => exact append_acts formed pending step
  | insertMany client => exact insertMany_acts formed pending step
  | check client => exact check_acts formed pending step
  | wake client => exact wake_acts formed pending step
  | swap client => exact swap_acts formed pending step
  | getCached name key =>
      cases step
      exact getCached_acts formed pending name key
  | getLocked name key =>
      cases step
      exact getLocked_acts formed pending coherent name key
  | flush name i => exact flush_acts formed pending step
  | raise name i => exact raise_acts formed pending step
  | writer clock =>
      cases step
      have counter := Nat.le_of_eq (s.router.wal.flushBuffer_counter clock).symm
      refine acts_stay formed (fun _ => ?_) (fun _ => rfl) (pending.keep rfl counter) counter rfl rfl
      exact site_congr (by rfl) (by rfl) (by rfl)

/-- What an event may do to a table, with all that is known of it. -/
inductive ActsOn (json : Json) (s : Store) (name : String) : Event → Site.Act → Prop
  | stay (e : Event) : ActsOn json s name e .stay
  | set {client : Nat} {key : String} {value : Value} {packed : Bytes} :
      packRecord json key value = .ok packed →
      ActsOn json s name (.set client name key value)
        (.enter [⟨s.router.wal.globalTxId, key, value, packed⟩] [s.router.wal.globalTxId])
  | insertMany {client : Nat} {records : List (String × Value)}
      {packedRecords : List (String × Bytes)} {txIds : List Nat} :
      s.clients client = .logged name records packedRecords txIds →
      ActsOn json s name (.insertMany client) (.enter (entriesOf records packedRecords txIds)
        (if ∀ record ∈ packedRecords, record.1 ≠ "" then txIds else []))
  | swap {client : Nat} : s.clients client = .ready name →
      (s.router.table name).active.size ≥ s.router.maxMemtableSize →
      ActsOn json s name (.swap client) .swap
  | load (key : String) : ActsOn json s name (.getLocked name key)
      (.load ((s.router.table name).find json key).2.handler)
  | advance {i : Nat} {task : Task} : (s.shelves name).tasks[i]? = some task →
      ActsOn json s name (.flush name i) (.advance i task)
  | raise {i : Nat} {task : Task} : (s.shelves name).tasks[i]? = some task →
      ActsOn json s name (.raise name i) (.raise i task)

theorem actsOn (json : Json) (s : Store) (name : String) (e : Event) :
    ActsOn json s name e (s.actOn json name e) := by
  unfold actOn
  cases e with
  | set client other key value =>
      dsimp only
      split
      · split
        · rename_i packs same
          exact same ▸ .set packs
        · exact .stay _
      · exact .stay _
  | insertMany client =>
      dsimp only
      split
      · split
        · rename_i at_log same
          exact .insertMany (same ▸ at_log)
        · exact .stay _
      · exact .stay _
  | swap client =>
      dsimp only
      split
      · split
        · rename_i ready both
          exact .swap (both.1 ▸ ready) both.2
        · exact .stay _
      · exact .stay _
  | getLocked other key =>
      dsimp only
      split
      · rename_i same
        exact same ▸ .load key
      · exact .stay _
  | flush other i =>
      dsimp only
      split
      · rename_i same
        subst same
        split
        · rename_i known
          exact .advance known
        · exact .stay _
      · exact .stay _
  | raise other i =>
      dsimp only
      split
      · rename_i same
        subst same
        split
        · rename_i known
          exact .raise known
        · exact .stay _
      · exact .stay _
  | _ => exact .stay _

/-- What enters a memtable comes from a `set` or from a `set_many` that is in the log. -/
theorem enter_inv {name : String} {e : Event} {entries : List Entry} {txIds : List Nat}
    (acted : s.actOn json name e = .enter entries txIds) :
    (∃ client key value packed, e = .set client name key value ∧
      entries = [⟨s.router.wal.globalTxId, key, value, packed⟩]) ∨
    ∃ client records packedRecords ids, e = .insertMany client ∧
      s.clients client = .logged name records packedRecords ids ∧
      entries = entriesOf records packedRecords ids := by
  have acts := actsOn json s name e
  rw [acted] at acts
  cases acts with
  | set _ => exact Or.inl ⟨_, _, _, _, rfl, rfl⟩
  | insertMany at_log => exact Or.inr ⟨_, _, _, _, rfl, at_log, rfl⟩

/-- A swap is made by a client that has waited, when the active memtable is full. -/
theorem swap_inv {name : String} {e : Event} (acted : s.actOn json name e = .swap) :
    ∃ client, e = .swap client ∧ s.clients client = .ready name ∧
      (s.router.table name).active.size ≥ s.router.maxMemtableSize := by
  have acts := actsOn json s name e
  rw [acted] at acts
  cases acts with
  | swap ready large => exact ⟨_, rfl, ready, large⟩

/-- Every table is sound, and so are the cache and the records that wait. What entered a
memtable was packed. -/
structure Sound (json : Json) (s : Store) : Prop where
  sites : ∀ name, (s.site name).Sound
  cache : s.router.cache.WellFormed
  pending : s.Pending json
  packed : ∀ name, ∀ e ∈ (s.site name).written, packRecord json e.key e.value = .ok e.packed

theorem Sound.acts (sound : s.Sound json) {e : Event} (step : Step json s e t) : Acts json s e t :=
  step_acts sound.cache sound.pending (fun name => (sound.sites name).coherent) step

theorem Sound.step (sound : s.Sound json) {e : Event} (step : Step json s e t) : t.Sound json := by
  have acts := sound.acts step
  refine ⟨fun name => ?_, acts.cache, acts.pending, fun name => ?_⟩
  · rw [acts.site]
    exact (sound.sites name).act (acts.valid name)
  · rw [acts.site, Site.act_written]
    cases acted : s.actOn json name e with
    | enter entries txIds =>
        intro new member
        rcases List.mem_append.mp member with here | before
        · exact (acts.entered name entries txIds acted new (List.mem_reverse.mp here)).2
        · exact sound.packed name new before
    | _ => exact sound.packed name

end Events

/-- A router starts sound on files whose pages can be read. -/
theorem start_sound (json : Json) (wal : Wal) {tableFiles : String → File} (maxMemtableSize cacheCapacity : Nat)
    (readable : ∀ name, (TableHandler.openTable (tableFiles name)).WellFormed) :
    (start wal tableFiles maxMemtableSize cacheCapacity).Sound json := by
  refine ⟨fun name => ?_, Cache.init_wellFormed _, fun _ _ _ _ _ at_log => (by cases at_log),
    fun name e member => (by cases member)⟩
  have known : (start wal tableFiles maxMemtableSize cacheCapacity).router.table name =
      Table.init (tableFiles name) := by
    simp only [start, Router.init, Router.table, Router.getTableState, AList.lookup_empty]
  refine ⟨?_, ?_, ?_, ?_, ?_, fun _ => rfl, ?_, ⟨[], rfl⟩, ?_⟩
  · rw [site, known]
    exact Table.init_coherent (readable name)
  · rw [site, known]
    exact fun key => rfl
  · rw [site, known]
    exact fun txId member => by cases member
  · rw [site, known]
    exact fun m same => by cases same
  · rw [site, known]
    exact fun txId member => by cases member
  · exact fun e member => by cases member
  · exact fun task member => by cases member

/-- A router on an empty data directory. -/
def fresh (maxMemtableSize cacheCapacity : Nat) : Store :=
  start ⟨0, [], ∅, none, FileSystem.empty, []⟩ (fun _ => File.empty) maxMemtableSize cacheCapacity

theorem empty_readable : (TableHandler.openTable File.empty).WellFormed := by
  refine ⟨rfl, fun _ _ loaded => ?_, fun pageId inside => ?_⟩
  · cases loaded
  · exact absurd inside (Nat.not_lt_zero _)

theorem play_run {json : Json} {s t : Store} {events : List Event}
    (played : s.play json events = some t) : Run (Step json) s events t := by
  induction events generalizing s with
  | nil =>
      cases played
      exact Run.nil _
  | cons e rest ih =>
      obtain ⟨next, done, later⟩ := Option.bind_eq_some_iff.mp played
      exact Run.cons done (ih later)

theorem run_sound {json : Json} {s t : Store} {events : List Event} (sound : s.Sound json)
    (run : Run (Step json) s events t) : t.Sound json :=
  run.preserves sound fun _ _ _ ok step => ok.step step

end Store

end CachyDb
