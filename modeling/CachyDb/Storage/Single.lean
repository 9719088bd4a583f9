import CachyDb.Storage.Lookup
import CachyDb.Storage.Requests

set_option autoImplicit false

/-! A single client, with flushes at work between its steps: the router is a map from tables
and keys to values. -/

namespace CachyDb

open ByteString TableHandler Transition

namespace Site

variable {s : Site}

/-- Flushes that have ended stay as they are, and only a swap adds one. -/
theorem act_finished {act : Act} (valid : act.Valid s) (quiet : act ≠ .swap)
    (finished : ∀ task ∈ s.tasks, task.phase = .finished) :
    ∀ task ∈ (s.act act).tasks, task.phase = .finished := by
  cases act with
  | enter entries txIds =>
      rw [show (s.act (.enter entries txIds)).tasks = s.tasks from (s.enterAll_frame entries).1]
      exact finished
  | swap => exact absurd rfl quiet
  | advance i task =>
      have done : task.done = true := by
        unfold Task.done
        rw [finished task (List.mem_of_getElem? valid)]
        rfl
      rw [show s.act (.advance i task) = s from advance_done valid done]
      exact finished
  | raise i task =>
      have running := valid.2
      unfold Task.done at running
      rw [finished task (List.mem_of_getElem? valid.1)] at running
      cases running
  | stay => exact finished
  | load h => exact finished

/-- A memtable that was swapped out has records, since the active one was not empty. -/
theorem act_filled {act : Act} (filled : s.table.immutable ≠ none → s.immutable ≠ [])
    (large : act = .swap → s.active ≠ []) :
    (s.act act).table.immutable ≠ none → (s.act act).immutable ≠ [] := by
  cases act with
  | enter entries txIds =>
      obtain ⟨_, immutable, _, slot, _⟩ := s.enterAll_frame entries
      intro held
      show (entries.foldl Site.enter s).immutable ≠ []
      rw [immutable]
      exact filled (slot ▸ held)
  | swap => exact fun _ => large rfl
  | advance i task =>
      show (s.advance i task).table.immutable ≠ none → (s.advance i task).immutable ≠ []
      unfold Site.advance
      split
      case h_6 => exact fun held => absurd rfl held
      all_goals exact filled
  | raise i task => exact filled
  | stay => exact filled
  | load h => exact filled

/-- A memtable with records has been written. -/
theorem Sound.active_filled (sound : s.Sound) (large : 0 < s.table.active.size) :
    s.active ≠ [] := by
  intro empty
  rw [MemTable.size_eq] at large
  obtain ⟨⟨key, packed⟩, member⟩ := List.exists_mem_of_length_pos large
  have found := sound.active key
  rw [MemTable.lookup_of_mem member, empty] at found
  cases found

end Site

namespace Store

/-- What was written last under a key. -/
def stored (s : Store) (name key : String) : Value :=
  match latest (s.site name).written key with
  | some e => e.value
  | none => .null

/-- What was written last is what the calls of the run have written last. -/
theorem Asked.stored {s : Store} {r : Requests} (asked : s.Asked r) (name key : String) :
    s.stored name key = r.last name key := by
  unfold Store.stored Requests.last latest
  rw [← asked.written, List.find?_map]
  rw [Option.map_map]
  show _ = (((s.site name).written.find? fun e => e.key = key).map Entry.value).getD .null
  cases (s.site name).written.find? fun e => e.key = key with
  | none => rfl
  | some e => rfl

/-- Only client 0 writes, with values that JSON gives back, and nothing makes a flush raise. -/
def Event.Alone (json : Json) : Event → Prop
  | .set client _ _ value => client = 0 ∧ json.Faithful value
  | .append client _ records => client = 0 ∧ ∀ record ∈ records, json.Faithful record.2
  | .raise _ _ => False
  | _ => True

/-- No flush has failed. -/
def Succeeding (s : Store) : Prop := ∀ name, ∀ task ∈ (s.site name).tasks, task.phase ≠ .failed

def SingleStep (json : Json) (s : Store) (e : Event) (t : Store) : Prop :=
  Step json s e t ∧ e.Alone json ∧ t.Succeeding

/-- Where the single client is, as far as the flushes are concerned. -/
def Awaits (s : Store) : Client → Prop
  | .waiting name i => i + 1 = (s.site name).tasks.length
  | .ready name => ∀ task ∈ (s.site name).tasks, task.phase = .finished
  | _ => True

/-- The state of a router with a single client. -/
structure Single (json : Json) (tableFiles : String → File) (s : Store) : Prop where
  sound : s.Sound json
  orderly : s.Orderly tableFiles
  succeeding : s.Succeeding
  others : ∀ client, client ≠ 0 → s.clients client = .idle
  awaits : s.Awaits (s.clients 0)
  filled : ∀ name, (s.site name).table.immutable ≠ none → (s.site name).immutable ≠ []
  faithful : ∀ name, ∀ e ∈ (s.site name).written, json.Faithful e.value
  pending : ∀ name records packedRecords txIds,
    s.clients 0 = .logged name records packedRecords txIds →
      ∀ record ∈ records, json.Faithful record.2
  cached : ∀ name key held, s.router.cache.cache.lookup (name, key) = some held →
    held = s.stored name key
  room : 0 < s.router.cache.capacity
  limit : 0 < s.router.maxMemtableSize

/-- The same, whatever the cache holds. -/
structure Calm (json : Json) (tableFiles : String → File) (s : Store) : Prop where
  sound : s.Sound json
  orderly : s.Orderly tableFiles
  succeeding : s.Succeeding
  others : ∀ client, client ≠ 0 → s.clients client = .idle
  awaits : s.Awaits (s.clients 0)
  filled : ∀ name, (s.site name).table.immutable ≠ none → (s.site name).immutable ≠ []
  faithful : ∀ name, ∀ e ∈ (s.site name).written, json.Faithful e.value
  pending : ∀ name records packedRecords txIds,
    s.clients 0 = .logged name records packedRecords txIds →
      ∀ record ∈ records, json.Faithful record.2
  room : 0 < s.router.cache.capacity
  limit : 0 < s.router.maxMemtableSize

section Steps

variable {json : Json} {tableFiles : String → File} {s t : Store} {e : Event}

/-- Whoever swaps has seen the last flush end, so that the slot is empty. -/
theorem Calm.unblocked (calm : s.Calm json tableFiles) : s.Unblocked e := by
  cases e with
  | swap client =>
      unfold Unblocked
      dsimp only
      split
      · rename_i name ready
        intro _
        by_cases first : client = 0
        · subst first
          have finished := calm.awaits
          rw [ready] at finished
          cases slot : (s.router.table name).immutable with
          | none => rfl
          | some m =>
              obtain ⟨before, last, split, _, serves⟩ := (calm.orderly name).serves m slot
              have ended := finished last (by rw [split]; exact List.mem_append_right _ List.mem_cons_self)
              have held : (s.site name).table.immutable ≠ none := by
                rw [show (s.site name).table.immutable = some m from slot]
                exact fun none => by cases none
              exact absurd (serves.finished ended) (calm.filled name held)
        · rw [calm.others client first] at ready
          cases ready
      · trivial
  | _ => trivial

theorem awaits_afterWrite (name : String) (result : Except RouterError Bool) :
    t.Awaits (afterWrite name result) := by
  unfold afterWrite
  split
  · trivial
  · trivial

/-- A step of nobody's keeps what the client waits for. -/
theorem Awaits.keep (acts : Acts json s e t) (clients : t.clients 0 = s.clients 0)
    (quiet : ∀ client, e ≠ .swap client) (awaits : s.Awaits (s.clients 0)) :
    t.Awaits (t.clients 0) := by
  have still (name : String) : s.actOn json name e ≠ .swap := by
    intro swaps
    obtain ⟨client, same, _⟩ := swap_inv swaps
    exact quiet client same
  rw [clients]
  cases state : s.clients 0 with
  | waiting name i =>
      rw [state] at awaits
      show i + 1 = (t.site name).tasks.length
      rw [acts.site, Site.act_length (still name)]
      exact awaits
  | ready name =>
      rw [state] at awaits
      show ∀ task ∈ (t.site name).tasks, task.phase = .finished
      rw [acts.site]
      exact Site.act_finished (acts.valid name) (still name) awaits
  | idle => trivial
  | full name => trivial
  | logged name records packedRecords txIds => trivial

/-- The clients after a step. -/
structure Moves (json : Json) (t : Store) : Prop where
  others : ∀ client, client ≠ 0 → t.clients client = .idle
  awaits : t.Awaits (t.clients 0)
  pending : ∀ name records packedRecords txIds,
    t.clients 0 = .logged name records packedRecords txIds →
      ∀ record ∈ records, json.Faithful record.2

theorem Calm.moved (calm : s.Calm json tableFiles) {state : Client}
    (clients : t.clients = Function.update s.clients 0 state) (awaits : t.Awaits state)
    (pending : ∀ name records packedRecords txIds,
      state = .logged name records packedRecords txIds →
        ∀ record ∈ records, json.Faithful record.2) : Moves json t := by
  refine ⟨fun client other => ?_, ?_, ?_⟩
  · rw [clients, Function.update_of_ne other]
    exact calm.others client other
  · rw [clients, Function.update_self]
    exact awaits
  · rw [clients, Function.update_self]
    exact pending

theorem Calm.kept (calm : s.Calm json tableFiles) (acts : Acts json s e t)
    (clients : t.clients = s.clients) (quiet : ∀ client, e ≠ .swap client) : Moves json t := by
  refine ⟨?_, Awaits.keep acts (by rw [clients]) quiet calm.awaits, ?_⟩
  · rw [clients]
    exact calm.others
  · rw [clients]
    exact calm.pending

/-- When the last flush has ended, all have. -/
theorem Calm.ended (calm : s.Calm json tableFiles) (name : String) {task : Task}
    (newest : (s.site name).tasks.getLast? = some task) (ended : task.done = true) :
    ∀ other ∈ (s.site name).tasks, other.phase = .finished := by
  intro other member
  have done : other.done = true := by
    cases slot : (s.site name).table.immutable with
    | none => exact (calm.orderly name).done slot other member
    | some m =>
        obtain ⟨before, last, split, before_done, _⟩ := (calm.orderly name).serves m slot
        rw [split, List.getLast?_concat, Option.some.injEq] at newest
        rw [split] at member
        rcases List.mem_append.mp member with earlier | here
        · exact before_done other earlier
        · rw [List.mem_singleton.mp here, newest]
          exact ended
  unfold Task.done at done
  rcases Bool.or_eq_true_iff.mp done with finished | failed
  · exact of_decide_eq_true finished
  · exact absurd (of_decide_eq_true failed) (calm.succeeding name other member)

theorem Calm.moves (calm : s.Calm json tableFiles) (alone : e.Alone json)
    (step : Step json s e t) : Moves json t := by
  have acts := calm.sound.acts step
  have only {client : Nat} (busy : s.clients client ≠ .idle) : client = 0 := by
    by_contra other
    exact busy (calm.others client other)
  cases e with
  | set client name key value =>
      obtain ⟨rfl, _⟩ := alone
      have done : s.set json 0 name key value = some t := step
      unfold set at done
      split at done
      · split at done
        · cases done
        · cases done
          exact calm.moved rfl (awaits_afterWrite name _) fun _ _ _ _ at_log =>
            absurd at_log (afterWrite_quiet _ _ _ _ _ _)
      · cases done
  | append client name records =>
      obtain ⟨rfl, faithful⟩ := alone
      have done : s.append json 0 name records = some t := step
      unfold append at done
      split at done
      · split at done
        · cases done
        · cases done
          refine calm.moved rfl trivial fun _ _ _ _ at_log => ?_
          cases at_log
          exact faithful
      · cases done
  | insertMany client =>
      have done : s.insertMany client = some t := step
      unfold insertMany at done
      split at done
      · rename_i at_log
        cases done
        obtain rfl := only (fun idle => by rw [idle] at at_log; cases at_log)
        exact calm.moved rfl (awaits_afterWrite _ _) fun _ _ _ _ at_log =>
          absurd at_log (afterWrite_quiet _ _ _ _ _ _)
      · cases done
  | check client =>
      have done : s.check client = some t := step
      unfold check at done
      split at done
      · rename_i name full
        obtain rfl := only (fun idle => by rw [idle] at full; cases full)
        split at done
        · rename_i none_yet
          cases done
          refine calm.moved rfl ?_ fun _ _ _ _ at_log => by cases at_log
          show ∀ task ∈ (s.shelves name).tasks, task.phase = .finished
          rw [List.getLast?_eq_none_iff.mp none_yet]
          exact fun task member => by cases member
        · rename_i task newest
          split at done
          · rename_i ended
            cases done
            refine calm.moved rfl ?_ fun _ _ _ _ at_log => by cases at_log
            show ∀ other ∈ (s.site name).tasks, other.phase = .finished
            exact calm.ended name newest ended
          · cases done
            refine calm.moved rfl ?_ fun _ _ _ _ at_log => by cases at_log
            have inside := List.length_pos_of_mem (List.mem_of_getLast? newest)
            show (s.shelves name).tasks.length - 1 + 1 = (s.shelves name).tasks.length
            omega
      · cases done
  | wake client =>
      have done : s.wake client = some t := step
      unfold wake at done
      split at done
      · rename_i name i waits
        obtain rfl := only (fun idle => by rw [idle] at waits; cases waits)
        split at done
        · cases done
        · rename_i task known
          have last := calm.awaits
          rw [waits] at last
          split at done
          · rename_i finished
            cases done
            refine calm.moved rfl ?_ fun _ _ _ _ at_log => by cases at_log
            show ∀ other ∈ (s.site name).tasks, other.phase = .finished
            refine calm.ended name (?_ : (s.site name).tasks.getLast? = some task) ?_
            · show (s.site name).tasks.getLast? = some task
              rw [List.getLast?_eq_getElem?, ← last]
              exact known
            · unfold Task.done
              rw [finished]
              rfl
          · split at done
            · cases done
              exact calm.moved rfl trivial fun _ _ _ _ at_log => by cases at_log
            · cases done
      · cases done
  | swap client =>
      have done : s.swap client = some t := step
      unfold swap at done
      split at done
      · rename_i name ready
        obtain rfl := only (fun idle => by rw [idle] at ready; cases ready)
        cases done
        exact calm.moved rfl trivial fun _ _ _ _ at_log => by cases at_log
      · cases done
  | getCached name key =>
      cases step
      exact calm.kept acts rfl fun _ same => by cases same
  | getLocked name key =>
      cases step
      exact calm.kept acts rfl fun _ same => by cases same
  | flush name i =>
      have done : s.flush name i = some t := step
      unfold flush at done
      split at done
      · cases done
      · split at done
        · cases done
          exact calm.kept acts rfl fun _ same => by cases same
        · cases done
          exact calm.kept acts rfl fun _ same => by cases same
  | raise name i => exact alone.elim
  | writer clock =>
      cases step
      exact calm.kept acts rfl fun _ same => by cases same

/-- A lookup answers with what was written last, if the key was written or the files do not
have it. -/
theorem Calm.answer (calm : s.Calm json tableFiles) {name key : String}
    (known : latest (s.site name).written key = none → (firstIndex tableFiles name).lookup key = none) :
    (s.router.getLocked json name key).1 = .ok (s.stored name key) := by
  rw [(Router.getLocked_spec json calm.sound.cache name key).answers]
  show ((s.site name).table.find json key).1.answer = _
  unfold stored
  split
  · rename_i e newest
    rw [(calm.orderly name).find_newest (calm.sound.sites name) newest
      (calm.sound.packed name e (latest_mem newest).1)]
    rw [(calm.faithful name e (latest_mem newest).1).decoded]
  · rename_i unwritten
    exact (calm.orderly name).find_unwritten (calm.sound.sites name) unwritten (known unwritten)

/-- A write of the key is what the key holds from then on. -/
theorem stored_enter (acts : Acts json s e t) {name key : String} {entries : List Entry}
    {txIds : List Nat} (acted : s.actOn json name e = .enter entries txIds) {new : Entry}
    (found : latest entries.reverse key = some new) : t.stored name key = new.value := by
  unfold stored
  rw [acts.site, Site.act_written, acted]
  dsimp only
  rw [latest_append, found, Option.some_or]

/-- A step without a write of the key keeps what it holds. -/
theorem stored_keep (acts : Acts json s e t) {name key : String}
    (quiet : ∀ entries txIds, s.actOn json name e = .enter entries txIds →
      latest entries.reverse key = none) : t.stored name key = s.stored name key := by
  unfold stored
  rw [acts.site, Site.act_written]
  cases acted : s.actOn json name e with
  | enter entries txIds =>
      dsimp only
      rw [latest_append, quiet entries txIds acted, Option.none_or]
  | _ => rfl

/-- What enters a memtable comes from the client. -/
theorem Calm.entered (calm : s.Calm json tableFiles) (alone : e.Alone json) {name : String}
    {entries : List Entry} {txIds : List Nat}
    (acted : s.actOn json name e = .enter entries txIds) :
    ∀ new ∈ entries, json.Faithful new.value := by
  rcases enter_inv acted with ⟨client, key, value, packed, rfl, rfl⟩ |
    ⟨client, records, packedRecords, ids, rfl, at_log, rfl⟩
  · intro new member
    rw [List.mem_singleton.mp member]
    exact alone.2
  · intro new member
    have first : client = 0 := by
      by_contra other
      rw [calm.others client other] at at_log
      cases at_log
    subst first
    obtain ⟨⟨record, both⟩, _⟩ := entriesOf_mem member
    exact calm.pending name records packedRecords ids at_log _ (List.of_mem_zip both).1

/-- A memtable in the slot has records, since a swap is made when the active one is full. -/
theorem filled_step (acts : Acts json s e t) (sound : s.Sound json)
    (limit : 0 < s.router.maxMemtableSize)
    (filled : ∀ name, (s.site name).table.immutable ≠ none → (s.site name).immutable ≠ []) :
    ∀ name, (t.site name).table.immutable ≠ none → (t.site name).immutable ≠ [] := by
  intro name
  rw [acts.site]
  refine Site.act_filled (filled name) fun swaps => ?_
  obtain ⟨client, _, _, large⟩ := swap_inv swaps
  exact (sound.sites name).active_filled (Nat.lt_of_lt_of_le limit large)

theorem faithful_step (acts : Acts json s e t)
    (faithful : ∀ name, ∀ e ∈ (s.site name).written, json.Faithful e.value)
    (entered : ∀ name entries txIds, s.actOn json name e = .enter entries txIds →
      ∀ new ∈ entries, json.Faithful new.value) :
    ∀ name, ∀ e ∈ (t.site name).written, json.Faithful e.value := by
  intro name new member
  rw [acts.site, Site.act_written] at member
  cases acted : s.actOn json name e with
  | enter entries txIds =>
      rw [acted] at member
      rcases List.mem_append.mp member with here | before
      · exact entered name entries txIds acted new (List.mem_reverse.mp here)
      · exact faithful name new before
  | _ =>
      rw [acted] at member
      exact faithful name new member

theorem Calm.step (calm : s.Calm json tableFiles) (step : SingleStep json s e t) :
    t.Calm json tableFiles := by
  obtain ⟨stepped, alone, succeeding⟩ := step
  have acts := calm.sound.acts stepped
  have moves := calm.moves alone stepped
  refine ⟨calm.sound.step stepped, calm.orderly.step calm.sound calm.unblocked stepped,
    succeeding, moves.others, moves.awaits, filled_step acts calm.sound calm.limit calm.filled,
    faithful_step acts calm.faithful fun _ _ _ => calm.entered alone, moves.pending, ?_, ?_⟩
  · rw [acts.capacity]
    exact calm.room
  · rw [acts.limit]
    exact calm.limit

theorem Single.calm (single : s.Single json tableFiles) : s.Calm json tableFiles :=
  ⟨single.sound, single.orderly, single.succeeding, single.others, single.awaits, single.filled,
    single.faithful, single.pending, single.room, single.limit⟩

theorem Calm.single (calm : s.Calm json tableFiles)
    (cached : ∀ name key held, s.router.cache.cache.lookup (name, key) = some held →
      held = s.stored name key) : s.Single json tableFiles :=
  ⟨calm.sound, calm.orderly, calm.succeeding, calm.others, calm.awaits, calm.filled,
    calm.faithful, calm.pending, cached, calm.room, calm.limit⟩

theorem Single.step (single : s.Single json tableFiles)
    (absent : ∀ name, firstIndex tableFiles name = ∅) (step : SingleStep json s e t) :
    t.Single json tableFiles := by
  have acts := single.sound.acts step.1
  apply (single.calm.step step).single
  intro name key held known
  rcases acts.cached single.room (name, key) held known with
    ⟨entries, txIds, new, acted, found, value⟩ | ⟨old, quiet⟩ | ⟨rfl, answered⟩
  · rw [stored_enter acts acted found]
    exact value
  · rw [stored_keep acts quiet]
    exact single.cached name key held old
  · rw [single.calm.answer fun _ => by rw [absent name]; rfl] at answered
    rw [stored_keep acts fun entries txIds acted => ?_]
    · exact (Except.ok.inj answered).symm
    · rcases enter_inv acted with ⟨_, _, _, _, other, _⟩ | ⟨_, _, _, _, other, _⟩ <;> cases other

/-- An empty file has nothing to index. -/
theorem firstIndex_empty (name : String) : firstIndex (fun _ => File.empty) name = ∅ := by
  have pages : (TableHandler.openTable File.empty).totalPages = 0 := rfl
  unfold firstIndex Table.init Table.initDiskIndex
  rw [pages]
  rfl

theorem start_single (maxMemtableSize cacheCapacity : Nat) (limit : 0 < maxMemtableSize)
    (room : 0 < cacheCapacity) :
    (fresh maxMemtableSize cacheCapacity).Single json fun _ => File.empty := by
  constructor
  · exact start_sound json _ maxMemtableSize cacheCapacity fun _ => empty_readable
  · exact start_orderly _ _ maxMemtableSize cacheCapacity
  · exact fun name task member => by cases member
  · exact fun client _ => rfl
  · trivial
  · exact fun name held => absurd rfl held
  · exact fun name e member => by cases member
  · exact fun name records packedRecords txIds at_log => by cases at_log
  · exact fun name key held known => by cases known
  · exact room
  · exact limit

theorem run_single {maxMemtableSize cacheCapacity : Nat} (limit : 0 < maxMemtableSize)
    (room : 0 < cacheCapacity) {events : List Event}
    (run : Run (SingleStep json) (fresh maxMemtableSize cacheCapacity) events s) :
    s.Single json fun _ => File.empty := by
  apply run.preserves (start_single maxMemtableSize cacheCapacity limit room)
  exact fun u e v single step => single.step firstIndex_empty step

end Steps

/-- The steps that are not the client's. -/
def Event.Background : Event → Prop
  | .flush _ _ => True
  | .writer _ => True
  | _ => False

/-- A call of `_get_internal` at `s` may end like this: after the cache has missed, the
flushes go on until the lookup has the table's lock. -/
inductive Gets (json : Json) (s : Store) (name key : String) : Except RouterError Value → Prop
  | hit (value : Value) : (s.router.getCached name key).1 = .ok (some value) →
      Gets json s name key (.ok value)
  | raised (e : RouterError) : (s.router.getCached name key).1 = .error e →
      Gets json s name key (.error e)
  | missed {events : List Event} {t : Store} : (s.router.getCached name key).1 = .ok none →
      Run (Guarded (SingleStep json) fun _ e => e.Background)
        { s with router := (s.router.getCached name key).2 } events t →
      Gets json s name key (t.router.getLocked json name key).1

/-- The flushes write no key. -/
theorem background_stored {json : Json} {s t : Store} {e : Event} (sound : s.Sound json)
    (step : Step json s e t) (background : e.Background) (name key : String) :
    t.stored name key = s.stored name key := by
  apply stored_keep (sound.acts step)
  intro entries txIds acted
  rcases enter_inv acted with ⟨_, _, _, _, rfl, _⟩ | ⟨_, _, _, _, rfl, _⟩
  · exact background.elim
  · exact background.elim

/-- The cache gives what it holds, unless that is `None`. -/
theorem getCached_answer {s : Store} (formed : s.router.cache.WellFormed) (name key : String) :
    (s.router.getCached name key).1 = .ok none ∨
      ∃ held, s.router.cache.cache.lookup (name, key) = some held ∧
        (s.router.getCached name key).1 = .ok (some held) := by
  obtain ⟨counted, got, _⟩ := formed.get (name, key)
  unfold Router.getCached
  rw [got]
  dsimp only
  split
  · exact Or.inl rfl
  · rename_i other
    cases known : s.router.cache.cache.lookup (name, key) with
    | none => exact Or.inl rfl
    | some held => exact Or.inr ⟨held, rfl, rfl⟩

/-- A step in which no flush goes on and none is submitted, so that none can fail. -/
theorem Succeeding.quietly {json : Json} {s t : Store} {e : Event} (succeeding : s.Succeeding)
    (sound : s.Sound json) (still : ∀ name i, e ≠ .flush name i) (unraised : ∀ name i, e ≠ .raise name i)
    (unswapped : ∀ client, e ≠ .swap client) (step : Step json s e t) : t.Succeeding := by
  intro name task member
  apply succeeding name task
  have acts := actsOn json s name e
  rw [(sound.acts step).site] at member
  generalize s.actOn json name e = act at acts member
  cases acts with
  | stay => exact member
  | set _ => exact member
  | insertMany _ =>
      rw [show ((s.site name).act (.enter _ _)).tasks = (s.site name).tasks from
        ((s.site name).enterAll_frame _).1] at member
      exact member
  | swap _ _ => exact absurd rfl (unswapped _)
  | load key => exact member
  | advance _ => exact absurd rfl (still _ _)
  | raise _ => exact absurd rfl (unraised _ _)

theorem Calm.quietly {json : Json} {tableFiles : String → File} {s t : Store} {e : Event}
    (calm : s.Calm json tableFiles) (alone : e.Alone json) (still : ∀ name i, e ≠ .flush name i)
    (unswapped : ∀ client, e ≠ .swap client) (step : Step json s e t) : SingleStep json s e t := by
  refine ⟨step, alone, calm.succeeding.quietly calm.sound still ?_ unswapped step⟩
  rintro name i rfl
  exact alone.elim

/-- The first step of a lookup, which no flush can fail in. -/
theorem Calm.looked {json : Json} {tableFiles : String → File} {s : Store}
    (calm : s.Calm json tableFiles) (name key : String) :
    SingleStep json s (.getCached name key)
      { s with router := (s.router.getCached name key).2 } :=
  calm.quietly trivial (fun _ _ same => by cases same) (fun _ same => by cases same) rfl

/-- Whatever the flushes do meanwhile, the router gives a single client what it wrote
last, like a map from tables and keys to values. -/
theorem get_returns_last_write (json : Json) {maxMemtableSize cacheCapacity : Nat}
    (limit : 0 < maxMemtableSize) (room : 0 < cacheCapacity) {events : List Event} {s : Store}
    (run : Run (SingleStep json) (fresh maxMemtableSize cacheCapacity) events s)
    {name key : String} {result : Except RouterError Value} (gets : Gets json s name key result) :
    result = .ok (s.stored name key) := by
  have single := run_single limit room run
  rcases getCached_answer single.sound.cache name key with missed | ⟨held, known, found⟩
  · cases gets with
    | hit value found =>
        rw [missed] at found
        cases found
    | raised e failed =>
        rw [missed] at failed
        cases failed
    | @missed _ t _ later =>
        have looked := single.calm.looked name key
        have after : t.Single json (fun _ => File.empty) ∧
            t.stored name key = s.stored name key := by
          apply later.preserves
          · refine ⟨single.step firstIndex_empty looked, ?_⟩
            apply stored_keep (single.sound.acts looked.1)
            exact fun _ _ acted => by cases acted
          · rintro u e v ⟨before, same⟩ ⟨step, background⟩
            refine ⟨before.step firstIndex_empty step, ?_⟩
            exact (background_stored before.sound step.1 background name key).trans same
        rw [after.1.calm.answer fun _ => by rw [firstIndex_empty name]; rfl, after.2]
  · have held_last := single.cached name key held known
    cases gets with
    | hit value hit =>
        rw [found, Except.ok.injEq, Option.some.injEq] at hit
        rw [← hit, held_last]
    | raised e failed =>
        rw [found] at failed
        cases failed
    | missed missed _ =>
        rw [found, Except.ok.injEq] at missed
        cases missed

/-- What the client has stored is what it has asked for last. -/
theorem stored_requested {json : Json} {maxMemtableSize cacheCapacity : Nat} {events : List Event}
    {s : Store} (run : Run (SingleStep json) (fresh maxMemtableSize cacheCapacity) events s)
    (name key : String) : s.stored name key = (requests events).last name key :=
  (run_asked (fun _ => empty_readable) (run.mono fun _ _ _ step => step.1)).stored name key

/-- No flush of another table goes on. -/
def Event.flushesOnly (name : String) : Event → Bool
  | .flush other _ => other = name
  | _ => true

/-- A flush that goes on is one of the table, and none of its flushes fails. -/
def Unfailed (json : Json) (name : String) (s : Store) (e : Event) : Prop :=
  e.flushesOnly name = true ∧
    ∀ t ∈ s.perform json e, ∀ task ∈ (t.shelves name).tasks, task.phase ≠ .failed

instance (json : Json) (name : String) (s : Store) (e : Event) :
    Decidable (Unfailed json name s e) := by
  unfold Unfailed
  infer_instance

/-- The flushes of other tables have not begun, so that none of them fails. -/
theorem Succeeding.unfailed {json : Json} {s t : Store} {e : Event} {name : String}
    (succeeding : s.Succeeding) (sound : s.Sound json) (unfailed : s.Unfailed json name e)
    (alone : e.Alone json) (step : Step json s e t) : t.Succeeding := by
  intro other task member
  by_cases same : other = name
  · exact unfailed.2 t step task (same ▸ member)
  · have before := succeeding other
    have acts := actsOn json s other e
    rw [(sound.acts step).site] at member
    generalize s.actOn json other e = act at acts member
    cases acts with
    | stay => exact before task member
    | load _ => exact before task member
    | set _ => exact before task member
    | insertMany _ =>
        rw [show ((s.site other).act (.enter _ _)).tasks = (s.site other).tasks from
          ((s.site other).enterAll_frame _).1] at member
        exact before task member
    | swap _ _ =>
        rcases List.mem_append.mp member with old | new
        · exact before task old
        · rw [List.mem_singleton.mp new]
          decide
    | advance _ => exact absurd (of_decide_eq_true unfailed.1) same
    | raise _ => exact alone.elim

theorem unfailed_run {json : Json} {name : String} {s t : Store} {events : List Event}
    (sound : s.Sound json) (succeeding : s.Succeeding) (alone : ∀ e ∈ events, e.Alone json)
    (run : Run (Guarded (Step json) (Unfailed json name)) s events t) :
    Run (SingleStep json) s events t ∧ t.Sound json ∧ t.Succeeding := by
  induction run with
  | nil => exact ⟨Run.nil _, sound, succeeding⟩
  | snoc _ last ih =>
      obtain ⟨before, sound', succeeding'⟩ :=
        ih fun e member => alone e (List.mem_append_left _ member)
      have now := alone _ (List.mem_append_right _ List.mem_cons_self)
      have after := succeeding'.unfailed sound' last.2 now last.1
      exact ⟨Run.snoc before ⟨last.1, now, after⟩, sound'.step last.1, after⟩

/-- A record whose memtable has been flushed, and whose cache entry another write has evicted. -/
def untilEvicted : List Event :=
  [.set 0 "t" "a" (.str "x"), .check 0, .swap 0] ++ List.replicate 13 (.flush "t" 0) ++
    [.set 0 "t" "b" (.str "y")]

/-- A lookup that neither the cache nor a memtable can answer reads the table file. -/
theorem get_returns_flushed_write : ∃ s result, Run (SingleStep wordJson) (fresh 1 1) untilEvicted s ∧
    (s.router.getCached "t" "a").1 = .ok none ∧
    (s.router.table "t").active.search "a" = none ∧ (s.router.table "t").immutable = none ∧
    (s.router.table "t").diskIndex.lookup "a" = some (0, 0) ∧
    Gets wordJson s "t" "a" result ∧ result = .ok (.str "x") := by
  have outcome : (playIn (perform wordJson) (Unfailed wordJson "t") (fresh 1 1) untilEvicted).map (fun s =>
      (s.router.cache.cache.lookup ("t", "a")).isNone &&
      ((s.router.table "t").active.search "a").isNone && (s.router.table "t").immutable.isNone &&
      decide ((s.router.table "t").diskIndex.lookup "a" = some (0, 0))) = some true := by
    decide +kernel
  obtain ⟨s, played, found⟩ := Option.map_eq_some_iff.mp outcome
  simp only [Bool.and_eq_true, Option.isNone_iff_eq_none, decide_eq_true_eq] at found
  obtain ⟨⟨⟨evicted, active⟩, immutable⟩, place⟩ := found
  have start := @start_single wordJson 1 1 (by decide) (by decide)
  have alone : ∀ e ∈ untilEvicted, e.Alone wordJson := by
    intro e member
    rcases List.mem_append.mp member with member | written
    · rcases List.mem_append.mp member with member | flushes
      · simp only [List.mem_cons, List.not_mem_nil, or_false] at member
        rcases member with rfl | rfl | rfl
        · exact ⟨rfl, _, rfl, by rfl⟩
        · trivial
        · trivial
      · rw [List.eq_of_mem_replicate flushes]
        trivial
    · rw [List.mem_singleton.mp written]
      exact ⟨rfl, _, rfl, by rfl⟩
  obtain ⟨run, sound, _⟩ := unfailed_run start.sound start.succeeding alone (playIn_run played)
  have missed : (s.router.getCached "t" "a").1 = .ok none := by
    rcases getCached_answer sound.cache "t" "a" with missed | ⟨held, known, _⟩
    · exact missed
    · rw [evicted] at known
      cases known
  have gets : Gets wordJson s "t" "a" _ := Gets.missed missed (Run.nil _)
  refine ⟨s, _, run, missed, active, immutable, place, gets, ?_⟩
  rw [get_returns_last_write wordJson (by decide) (by decide) run gets, stored_requested run]
  rfl

end Store

end CachyDb
