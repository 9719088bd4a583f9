import CachyDb.Storage.Filling
import CachyDb.Storage.Large
import CachyDb.Storage.Rebuild

set_option autoImplicit false

/-! The states of a router that any number of clients use while no flush fails and no swap
finds the immutable slot taken. A lookup gives what was written last, or what the files had. -/

namespace CachyDb

open ByteString TableHandler Transition

/-- Made by `_pack_record` from a value that JSON gives back. -/
def Packed (json : Json) (payload : Bytes) : Prop :=
  ∃ key value, packRecord json key value = .ok payload ∧ json.Faithful value

/-- A table file whose pages can be read and hold such records only. -/
structure Stocked (json : Json) (file : File) : Prop where
  readable : (openTable file).WellFormed
  packed : ∀ place payload, OnFile file place payload → Packed json payload

namespace Table

/-- The first index of a file leads to records of the file. -/
theorem init_indexed {file : File} (readable : (openTable file).WellFormed) {key : String}
    {place : Nat × Nat} (known : (Table.init file).diskIndex.lookup key = some place) :
    ∃ payload, OnFile file place payload ∧
      (place, payload) ∈ (Table.init file).handler.contents ∧ payloadKey payload = some key := by
  obtain ⟨keeps, _, index⟩ := initDiskIndex_spec readable
  rw [show (Table.init file).diskIndex = (initDiskIndex (openTable file)).2 from rfl, index,
    lookup_indexOf] at known
  obtain ⟨record, newest, there⟩ := Option.bind_eq_some_iff.mp known
  split at there
  · cases there
  · cases there
    obtain ⟨member, named⟩ := newestIn_mem newest
    obtain ⟨page, seen, _⟩ := readable.mem_contents.mp member
    have inside : record.1.1 < (openTable file).totalPages := by
      by_contra outside
      rw [readable.view_none (Nat.le_of_not_lt outside)] at seen
      cases seen
    refine ⟨record.2, Stored.onFile readable (openTable_stored readable _ inside) member, ?_, named⟩
    rw [show (Table.init file).handler = (initDiskIndex (openTable file)).1 from rfl, keeps.contents]
    exact member

end Table

namespace Site

variable {s : Site} {place : Nat × Nat} {payload : Bytes}

/-- What a file has, it keeps. -/
theorem Sound.act_onFile (sound : s.Sound) {act : Act} (valid : act.Valid s)
    (there : OnFile s.table.handler.file place payload) :
    OnFile (s.act act).table.handler.file place payload := by
  cases act with
  | stay => exact there
  | enter entries txIds =>
      obtain ⟨_, _, _, _, _, handler⟩ := s.enterAll_frame entries
      show OnFile (entries.foldl Site.enter s).table.handler.file place payload
      rw [handler]
      exact there
  | load h => exact (valid sound.coherent).onFile place payload there
  | swap => exact there
  | advance i task =>
      have grows := ((sound.tasks task (List.mem_of_getElem? valid)).fill sound.coherent).1
      show OnFile (s.advance i task).table.handler.file place payload
      unfold Site.advance
      split
      case h_7 => exact grows.onFile place payload there
      all_goals exact there
  | raise i task => exact there

end Site

namespace Store

open Router

def withCache (s : Store) (cache : Cache (String × String) Value) : Store :=
  { s with router := { s.router with cache := cache } }

/-- Entries have left the cache. -/
structure Evicts (before after : Cache (String × String) Value) : Prop where
  formed : after.WellFormed
  capacity : after.capacity = before.capacity
  kept : ∀ key held, after.cache.lookup key = some held → before.cache.lookup key = some held

/-- A table whose keys, with the name of the table before them, look like chunk keys. -/
def isChunkTable (name : String) : Bool := isChunkKey (name ++ ":")

/-- An event, the read of an old manifest, a value that is put into the cache without the
lock of its table, and evictions. -/
inductive Turn
  | act (e : Event)
  | peek (name key : String)
  | putCache (name key : String) (value : Value)
  | evict (cache : Cache (String × String) Value)

/-- What is written is a JSON value. -/
def Event.Ordinary (json : Json) : Event → Prop
  | .set _ _ _ value => json.Faithful value
  | .append _ _ records => ∀ record ∈ records, json.Faithful record.2
  | _ => True

/-- Any client may be at work. A swap finds the slot empty, and no flush fails. -/
def TurnStep (json : Json) (s : Store) : Turn → Store → Prop
  | .act e, t => Step json s e t ∧ e.Ordinary json ∧ s.Unblocked e ∧ t.Succeeding
  | .peek name key, t => t = s.lookedUp json name key
  | .putCache name key value, t => (isChunkKey key = true → isChunkTable name = true) ∧
      t = s.recalled name key value
  | .evict cache, t => Evicts s.router.cache cache ∧ t = s.withCache cache

/-- What the files give for a key before anything has been written. -/
def original (json : Json) (tableFiles : String → File) (name key : String) : Value :=
  ((Table.init (tableFiles name)).readFromDisk json key).1.getD .null

/-- What was written last under a key, or what the files had. -/
def value (json : Json) (tableFiles : String → File) (s : Store) (name key : String) : Value :=
  match s.newest name key with
  | some e => e.value
  | none => original json tableFiles name key

/-- Values that wait between the log and the memtable. -/
def PendingFaithful (json : Json) (s : Store) : Prop :=
  ∀ client name records packedRecords txIds,
    s.clients client = .logged name records packedRecords txIds →
      ∀ record ∈ records, json.Faithful record.2

/-- The state of a router whose flushes succeed. In tables with ordinary names the chunks that
are cached are those that were written last. -/
structure Regular (json : Json) (tableFiles : String → File) (s : Store) : Prop where
  sound : s.Sound json
  orderly : s.Orderly tableFiles
  succeeding : s.Succeeding
  filled : ∀ name, (s.site name).table.immutable ≠ none → (s.site name).immutable ≠ []
  faithful : ∀ name, ∀ e ∈ (s.site name).written, json.Faithful e.value
  pending : s.PendingFaithful json
  files : ∀ name place payload, OnFile (tableFiles name) place payload →
    OnFile (s.site name).table.handler.file place payload
  chunks : ∀ name key held, isChunkTable name = false → isChunkKey key = true →
    s.cached name key = some held → held = s.value json tableFiles name key
  room : 0 < s.router.cache.capacity
  limit : 0 < s.router.maxMemtableSize

section

variable {json : Json} {tableFiles : String → File} {s t : Store} {e : Event} {name key : String}

theorem value_congr (newest : ∀ name key, t.newest name key = s.newest name key) :
    t.value json tableFiles = s.value json tableFiles := by
  funext name key
  rw [value, value, newest]

theorem value_of_newest {written : Value} (newest : (s.newest name key).map Entry.value = some written) :
    s.value json tableFiles name key = written := by
  obtain ⟨e, found, same⟩ := Option.map_eq_some_iff.mp newest
  rw [value, found]
  exact same

/-- A key that has not been written is read as it was at first: its record is still there. -/
theorem Regular.unwritten (regular : s.Regular json tableFiles)
    (stocked : ∀ name, Stocked json (tableFiles name))
    (unwritten : latest (s.site name).written key = none) :
    ((s.site name).table.find json key).1.answer = .ok (original json tableFiles name key) := by
  have sound := regular.sound.sites name
  obtain ⟨disk, index⟩ :=
    @Site.Orderly.find_disk json _ _ (regular.orderly name) sound key unwritten
  rw [disk]
  show Except.ok _ = _
  unfold original
  congr 1
  cases known : (firstIndex tableFiles name).lookup key with
  | none =>
      rw [Table.readFromDisk_missing (index.trans known), Table.readFromDisk_missing known]
  | some place =>
      obtain ⟨payload, there, first, _⟩ := Table.init_indexed (stocked name).readable known
      obtain ⟨other, value, packs, _⟩ := (stocked name).packed place payload there
      have still := sound.coherent.behind place payload (regular.files name place payload there)
      rw [Table.readFromDisk_at sound.coherent.formed (index.trans known) still packs,
        Table.readFromDisk_at (Table.init_coherent (stocked name).readable).formed known first packs]

/-- A file holds nothing under a key that is too long. -/
theorem original_long (stocked : ∀ name, Stocked json (tableFiles name))
    (long : maxKeyBytes < (encodeKey key).length) : original json tableFiles name key = .null := by
  cases known : (Table.init (tableFiles name)).diskIndex.lookup key with
  | none =>
      rw [original, Table.readFromDisk_missing known]
      rfl
  | some place =>
      obtain ⟨payload, there, _, named⟩ := Table.init_indexed (stocked name).readable known
      obtain ⟨other, value, packs, _⟩ := (stocked name).packed place payload there
      obtain ⟨_, _, short, _⟩ := packRecord_ok packs
      rw [(Table.payloadKey_pack packs).1, Option.some.injEq] at named
      rw [named] at short
      omega

/-- A lookup under the lock of the table. -/
theorem Regular.answer (regular : s.Regular json tableFiles)
    (stocked : ∀ name, Stocked json (tableFiles name)) (name key : String) :
    (s.router.getLocked json name key).1 = .ok (s.value json tableFiles name key) := by
  rw [(getLocked_spec json regular.sound.cache name key).answers]
  show ((s.site name).table.find json key).1.answer = _
  unfold value newest
  split
  · rename_i e newest
    rw [(regular.orderly name).find_newest (regular.sound.sites name) newest
      (regular.sound.packed name e (latest_mem newest).1)]
    rw [(regular.faithful name e (latest_mem newest).1).decoded]
  · rename_i unwritten
    exact regular.unwritten stocked unwritten

/-- The old value that a clean-up looks at. -/
theorem Regular.oldValue (regular : s.Regular json tableFiles)
    (stocked : ∀ name, Stocked json (tableFiles name)) (name key : String) :
    (s.router.getRawManifest json name key).1 = s.value json tableFiles name key := by
  have answer := regular.answer stocked name key
  rw [(getLocked_spec json regular.sound.cache name key).answers] at answer
  unfold getRawManifest
  dsimp only
  rw [show (s.router.getTableState name).1 = s.router.table name from rfl]
  cases found : ((s.router.table name).find json key).1 with
  | active value =>
      rw [found] at answer
      rw [show value = _ from answer]
  | immutable value =>
      rw [found] at answer
      rw [show value = _ from answer]
  | disk value =>
      rw [found] at answer
      rw [← Except.ok.inj answer]
      cases value <;> rfl

/-- Only an append puts a client between the log and the memtable. -/
theorem logged_inv (step : Step json s e t) {client : Nat} {records : List (String × Value)}
    {packedRecords : List (String × Bytes)} {txIds : List Nat}
    (logged : t.clients client = .logged name records packedRecords txIds) :
    s.clients client = .logged name records packedRecords txIds ∨
      e = .append client name records := by
  have moved {next : Client} {other : Nat} (quiet : ∀ name records packedRecords txIds,
      next ≠ .logged name records packedRecords txIds)
      (clients : t.clients = Function.update s.clients other next) :
      s.clients client = .logged name records packedRecords txIds ∨
        e = .append client name records := by
    rw [clients] at logged
    exact Or.inl (logged_update quiet logged)
  cases e with
  | set other name' key value =>
      have done : s.set json other name' key value = some t := step
      unfold set at done
      split at done
      · split at done
        · cases done
        · cases done
          exact moved (afterWrite_quiet _ _) rfl
      · cases done
  | append other name' records' =>
      have done : s.append json other name' records' = some t := step
      unfold append at done
      split at done
      · split at done
        · cases done
        · cases done
          by_cases same : client = other
          · subst same
            have here := logged
            dsimp only [putClient] at here
            rw [Function.update_self] at here
            cases here
            exact Or.inr rfl
          · dsimp only [putClient] at logged
            rw [Function.update_of_ne same] at logged
            exact Or.inl logged
      · cases done
  | insertMany other =>
      have done : s.insertMany other = some t := step
      unfold insertMany at done
      split at done
      · cases done
        exact moved (afterWrite_quiet _ _) rfl
      · cases done
  | check other =>
      have done : s.check other = some t := step
      unfold check at done
      split at done
      · split at done
        · cases done
          exact moved (fun _ _ _ _ same => by cases same) rfl
        · split at done
          · cases done
            exact moved (fun _ _ _ _ same => by cases same) rfl
          · cases done
            exact moved (fun _ _ _ _ same => by cases same) rfl
      · cases done
  | wake other =>
      have done : s.wake other = some t := step
      unfold wake at done
      split at done
      · split at done
        · cases done
        · split at done
          · cases done
            exact moved (fun _ _ _ _ same => by cases same) rfl
          · split at done
            · cases done
              exact moved (fun _ _ _ _ same => by cases same) rfl
            · cases done
      · cases done
  | swap other =>
      have done : s.swap other = some t := step
      unfold swap at done
      split at done
      · cases done
        exact moved (fun _ _ _ _ same => by cases same) rfl
      · cases done
  | getCached name' key =>
      cases step
      exact Or.inl logged
  | getLocked name' key =>
      cases step
      exact Or.inl logged
  | flush name' i =>
      have done : s.flush name' i = some t := step
      unfold flush at done
      split at done
      · cases done
      · split at done
        · cases done
          exact Or.inl logged
        · cases done
          exact Or.inl logged
  | raise name' i =>
      have done : s.raise name' i = some t := step
      unfold raise at done
      split at done
      · cases done
      · split at done
        · cases done
        · cases done
          exact Or.inl logged
  | writer clock =>
      cases step
      exact Or.inl logged

theorem value_enter {entries : List Entry} {new : Entry}
    (newest : t.newest name key = (latest entries.reverse key).or (s.newest name key))
    (found : latest entries.reverse key = some new) :
    t.value json tableFiles name key = new.value := by
  rw [value, newest, found]
  rfl

theorem newest_step (acts : Acts json s e t) (name key : String) :
    t.newest name key = match s.actOn json name e with
      | .enter entries _ => (latest entries.reverse key).or (s.newest name key)
      | _ => s.newest name key := by
  unfold newest
  rw [acts.site, Site.act_written]
  cases s.actOn json name e with
  | enter entries txIds => exact latest_append _ _ _
  | _ => rfl

theorem value_keep (acts : Acts json s e t)
    (quiet : ∀ entries txIds, s.actOn json name e = .enter entries txIds →
      latest entries.reverse key = none) :
    t.value json tableFiles name key = s.value json tableFiles name key := by
  have newest := newest_step acts name key
  split at newest
  · rename_i entries txIds acted
    rw [quiet entries txIds acted, Option.none_or] at newest
    rw [value, value, newest]
  · rw [value, value, newest]

theorem PendingFaithful.step (pending : s.PendingFaithful json) (ordinary : e.Ordinary json)
    (step : Step json s e t) : t.PendingFaithful json := by
  intro client name records packedRecords txIds logged
  rcases logged_inv step logged with before | rfl
  · exact pending client name records packedRecords txIds before
  · exact ordinary

/-- What enters a memtable comes from a client. -/
theorem PendingFaithful.entered (pending : s.PendingFaithful json) (ordinary : e.Ordinary json)
    {entries : List Entry} {txIds : List Nat}
    (acted : s.actOn json name e = .enter entries txIds) :
    ∀ new ∈ entries, json.Faithful new.value := by
  rcases enter_inv acted with ⟨client, key, value, packed, rfl, rfl⟩ |
    ⟨client, records, packedRecords, ids, rfl, at_log, rfl⟩
  · intro new member
    rw [List.mem_singleton.mp member]
    exact ordinary
  · intro new member
    obtain ⟨⟨record, both⟩, _⟩ := entriesOf_mem member
    exact pending client name records packedRecords ids at_log _ (List.of_mem_zip both).1

theorem Regular.act (regular : s.Regular json tableFiles)
    (stocked : ∀ name, Stocked json (tableFiles name)) (step : TurnStep json s (.act e) t) :
    t.Regular json tableFiles := by
  obtain ⟨stepped, ordinary, free, succeeding⟩ := step
  have acts := regular.sound.acts stepped
  constructor
  · exact regular.sound.step stepped
  · exact regular.orderly.step regular.sound free stepped
  · exact succeeding
  · exact filled_step acts regular.sound regular.limit regular.filled
  · exact faithful_step acts regular.faithful
      fun _ _ _ => regular.pending.entered ordinary
  · exact regular.pending.step ordinary stepped
  · intro name place payload there
    rw [acts.site]
    exact (regular.sound.sites name).act_onFile (acts.valid name)
      (regular.files name place payload there)
  · intro name key held plain chunk known
    rcases acts.cached regular.room (name, key) held known with
      ⟨entries, txIds, new, acted, found, value⟩ | ⟨old, quiet⟩ | ⟨rfl, answered⟩
    · have newest := newest_step acts name key
      rw [acted] at newest
      rw [value_enter newest found]
      exact value
    · rw [value_keep acts quiet]
      exact regular.chunks name key held plain chunk old
    · rw [regular.answer stocked name key, Except.ok.injEq] at answered
      rw [value_keep acts fun entries txIds acted => absurd acted
        (actOn_quiet (fun _ _ _ _ same => by cases same) (fun _ same => by cases same) _ _ _)]
      exact answered.symm
  · rw [acts.capacity]
    exact regular.room
  · rw [acts.limit]
    exact regular.limit

/-- Where only the cache and the log differ, the chunks in the cache decide. -/
theorem Regular.alike (regular : s.Regular json tableFiles) (alike : Alike s t)
    (chunks : ∀ name key held, isChunkTable name = false → isChunkKey key = true →
      t.cached name key = some held → held = s.value json tableFiles name key) :
    t.Regular json tableFiles := by
  constructor
  · exact regular.sound.alike alike
  · simpa only [Orderly, alike.site] using regular.orderly
  · simpa only [Succeeding, alike.site] using regular.succeeding
  · simpa only [alike.site] using regular.filled
  · simpa only [alike.site] using regular.faithful
  · simpa only [PendingFaithful, alike.clients] using regular.pending
  · simpa only [alike.site] using regular.files
  · rw [value_congr alike.newest]
    exact chunks
  · exact alike.capacity ▸ regular.room
  · exact alike.limit ▸ regular.limit

theorem withCache_alike {cache : Cache (String × String) Value} (formed : cache.WellFormed)
    (capacity : cache.capacity = s.router.cache.capacity) : Alike s (s.withCache cache) :=
  ⟨rfl, rfl, table_congr rfl rfl, Nat.le_refl _, rfl, formed, capacity⟩

theorem Regular.turn (regular : s.Regular json tableFiles)
    (stocked : ∀ name, Stocked json (tableFiles name)) {turn : Turn} (step : TurnStep json s turn t) :
    t.Regular json tableFiles := by
  cases turn with
  | act e => exact regular.act stocked step
  | peek name key =>
      obtain rfl : t = s.lookedUp json name key := step
      obtain ⟨alike, cache⟩ := @lookedUp_alike json s regular.sound.cache name key
      have locked : Step json s (.getLocked name key)
          { s with router := (s.router.getLocked json name key).2 } := rfl
      have succeeding := regular.succeeding.quietly regular.sound
        (fun _ _ same => by cases same) (fun _ _ same => by cases same)
        (fun _ same => by cases same) locked
      apply (regular.act stocked ⟨locked, trivial, trivial, succeeding⟩).alike alike
      intro other otherKey held plain chunk known
      unfold cached at known
      rw [cache] at known
      rw [value_keep (regular.sound.acts locked) fun entries txIds acted => absurd acted
        (actOn_quiet (fun _ _ _ _ same => by cases same) (fun _ same => by cases same) _ _ _)]
      exact regular.chunks other otherKey held plain chunk known
  | putCache name key value =>
      obtain ⟨allowed, rfl⟩ := step
      apply regular.alike (recalled_alike regular.sound.cache name key value).2
      intro other otherKey held plain chunk known
      rcases recalled_cached regular.sound.cache regular.room name key value known with
        ⟨⟨rfl, rfl⟩, _⟩ | ⟨_, before⟩
      · rw [allowed chunk] at plain
        cases plain
      · exact regular.chunks other otherKey held plain chunk before
  | evict cache =>
      obtain ⟨evicts, rfl⟩ := step
      apply regular.alike (withCache_alike evicts.formed evicts.capacity)
      intro other otherKey held plain chunk known
      exact regular.chunks other otherKey held plain chunk (evicts.kept _ _ known)

def Turns (json : Json) (s t : Store) : Prop := ∃ turns, Run (TurnStep json) s turns t

theorem Turns.refl (s : Store) : Turns json s s := ⟨[], Run.nil s⟩

theorem Turns.trans {u : Store} (first : Turns json s t) (second : Turns json t u) :
    Turns json s u := by
  obtain ⟨front, first⟩ := first
  obtain ⟨back, second⟩ := second
  exact ⟨front ++ back, first.append second⟩

theorem Turns.one {turn : Turn} (step : TurnStep json s turn t) : Turns json s t :=
  ⟨[turn], Run.cons step (Run.nil t)⟩

theorem Regular.turns (regular : s.Regular json tableFiles)
    (stocked : ∀ name, Stocked json (tableFiles name)) (turns : Turns json s t) :
    t.Regular json tableFiles := by
  obtain ⟨turns, run⟩ := turns
  exact run.preserves regular fun _ _ _ regular step => regular.turn stocked step

theorem Event.Alone.ordinary (alone : e.Alone json) : e.Ordinary json := by
  cases e with
  | set client name key value => exact alone.2
  | append client name records => exact alone.2
  | _ => trivial

theorem Calm.act (calm : s.Calm json tableFiles) (step : SingleStep json s e t) : Turns json s t :=
  Turns.one (show TurnStep json s (.act e) t from
    ⟨step.1, step.2.1.ordinary, calm.unblocked, step.2.2⟩)

theorem Calm.run {guard : Store → Event → Prop} {events : List Event} (calm : s.Calm json tableFiles)
    (run : Run (Guarded (SingleStep json) guard) s events t) :
    t.Calm json tableFiles ∧ Turns json s t := by
  apply run.preserves (P := fun u => u.Calm json tableFiles ∧ Turns json s u) ⟨calm, Turns.refl s⟩
  rintro u e v ⟨before, turns⟩ ⟨step, _⟩
  exact ⟨before.step step, turns.trans (before.act step)⟩

variable {codec : Codec} {value : Value} {result : Except RouterError Unit}

/-- The client is idle again if it was before. -/
def Passes (json : Json) (s t : Store) : Prop :=
  Turns json s t ∧ (s.clients 0 = .idle → t.clients 0 = .idle)

theorem Passes.refl (s : Store) : Passes json s s := ⟨Turns.refl s, id⟩

theorem Passes.trans {u : Store} (first : Passes json s t) (second : Passes json t u) :
    Passes json s u := ⟨first.1.trans second.1, second.2 ∘ first.2⟩

theorem background_clients (step : Step json s e t) (background : e.Background) :
    t.clients = s.clients := by
  cases e with
  | flush name i =>
      have done : s.flush name i = some t := step
      unfold flush at done
      split at done
      · cases done
      · split at done
        · cases done
          rfl
        · cases done
          rfl
  | writer clock =>
      cases step
      rfl
  | _ => exact background.elim

theorem Waits.clients (waits : Waits json s t) : t.clients = s.clients := by
  obtain ⟨events, run⟩ := waits
  apply run.preserves (P := fun u => u.clients = s.clients) rfl
  exact fun u e v same step => (background_clients step.1.1 step.2).trans same

theorem Calm.waits_passes (calm : s.Calm json tableFiles) (waits : Waits json s t) :
    Passes json s t := by
  obtain ⟨events, run⟩ := waits
  exact ⟨(calm.run run).2, fun idle => by rw [Waits.clients ⟨events, run⟩, idle]⟩

theorem lookedUp_passes (s : Store) (name key : String) :
    Passes json s (s.lookedUp json name key) :=
  ⟨Turns.one (show TurnStep json s (.peek name key) _ from rfl), id⟩

theorem Calm.setsInternal_passes (calm : s.Calm json tableFiles)
    (sets : SetsInternal json s name key value result t) : Passes json s t := by
  cases sets with
  | unnamed _ => exact Passes.refl s
  | unpackable _ => exact Passes.refl s
  | @written packed s₁ s₂ _ _ _ waits step behind idle =>
      have calm₁ := (calm.waits waits).1
      exact ⟨((calm.waits_passes waits).1.trans (calm₁.act step)).trans
        ((calm₁.step step).run behind).2, fun _ => idle⟩

theorem Calm.setsEach_passes {records : List (String × Value)} (calm : s.Calm json tableFiles)
    (sets : SetsEach json name s records result t) : Passes json s t := by
  induction sets with
  | nil s => exact Passes.refl s
  | raised failed => exact calm.setsInternal_passes failed
  | next first _ ih => exact (calm.setsInternal_passes first).trans (ih (calm.setsInternal first).1)

theorem Calm.cleans_passes (calm : s.Calm json tableFiles) (cleans : Cleans json s name key t) :
    Passes json s t := by
  cases cleans with
  | absent waits _ => exact (calm.waits_passes waits).trans (lookedUp_passes _ name key)
  | cleaned waits _ sets =>
      exact ((calm.waits_passes waits).trans (lookedUp_passes _ name key)).trans
        (((calm.waits waits).1.lookedUp name key).1.setsEach_passes sets)

theorem Calm.writesLarge_passes {text : Bytes} (calm : s.Calm json tableFiles)
    (plain : isChunkKey key = false)
    (writes : WritesLarge json codec s name key value text result t) : Passes json s t := by
  cases writes with
  | uncut chunked => exact calm.setsEach_passes chunked
  | unlisted chunked listed =>
      exact (calm.setsEach_passes chunked).trans
        ((calm.setsEach chunked).1.setsInternal_passes listed)
  | @written s₁ s₂ s₃ chunked listed waits =>
      have calm₁ := (calm.setsEach chunked).1
      have calm₂ := (calm₁.setsInternal listed).1
      have cached : TurnStep json s₃ (.putCache name key value) (s₃.recalled name key value) :=
        ⟨fun chunk => absurd chunk (by rw [plain]; decide), rfl⟩
      exact (((calm.setsEach_passes chunked).trans (calm₁.setsInternal_passes listed)).trans
        (calm₂.waits_passes waits)).trans ⟨Turns.one cached, id⟩

theorem Calm.sets_passes (calm : s.Calm json tableFiles)
    (sets : Sets json codec s name key value result t) : Passes json s t := by
  cases sets with
  | unnamed _ => exact Passes.refl s
  | large _ large cleans writes =>
      exact (calm.cleans_passes cleans).trans
        ((calm.cleans cleans).1.writesLarge_passes (largeText_plain large) writes)
  | uncut _ large cleans writes last =>
      have calm₁ := (calm.cleans cleans).1
      exact ((calm.cleans_passes cleans).trans
        (calm₁.writesLarge_passes (largeText_plain large) writes)).trans
          ((calm₁.writesLarge (largeText_plain large) writes).1.setsInternal_passes last)
  | small _ _ _ cleans last =>
      exact (calm.cleans_passes cleans).trans ((calm.cleans cleans).1.setsInternal_passes last)
  | chunk _ _ _ last => exact calm.setsInternal_passes last

/-- Nobody is in the middle of a write. -/
structure Steady (json : Json) (tableFiles : String → File) (s : Store) : Prop where
  regular : s.Regular json tableFiles
  idle : ∀ client, s.clients client = .idle

theorem Steady.calm (steady : s.Steady json tableFiles) : s.Calm json tableFiles := by
  have regular := steady.regular
  refine ⟨regular.sound, regular.orderly, regular.succeeding, fun client _ => steady.idle client, ?_,
    regular.filled, regular.faithful, regular.pending 0, regular.room, regular.limit⟩
  rw [steady.idle]
  trivial

theorem Steady.passes (steady : s.Steady json tableFiles)
    (stocked : ∀ name, Stocked json (tableFiles name)) (passes : Passes json s t)
    (calm : t.Calm json tableFiles) : t.Steady json tableFiles := by
  refine ⟨steady.regular.turns stocked passes.1, fun client => ?_⟩
  by_cases first : client = 0
  · rw [first]
    exact passes.2 (steady.idle 0)
  · exact calm.others client first

theorem Steady.sets (steady : s.Steady json tableFiles)
    (stocked : ∀ name, Stocked json (tableFiles name))
    (sets : Sets json codec s name key value result t) : t.Steady json tableFiles :=
  steady.passes stocked (steady.calm.sets_passes sets) (steady.calm.sets sets).1

theorem Steady.waits (steady : s.Steady json tableFiles)
    (stocked : ∀ name, Stocked json (tableFiles name)) (waits : Waits json s t) :
    t.Steady json tableFiles :=
  steady.passes stocked (steady.calm.waits_passes waits) (steady.calm.waits waits).1

/-- The steps of a lookup. -/
theorem Steady.missed (steady : s.Steady json tableFiles)
    (stocked : ∀ name, Stocked json (tableFiles name)) (name key : String) :
    ({ s with router := (s.router.getCached name key).2 } : Store).Steady json tableFiles ∧
      Still s { s with router := (s.router.getCached name key).2 } := by
  have looked := steady.calm.looked name key
  have quiet := @actOn_quiet json s (.getCached name key) (fun _ _ _ _ same => by cases same)
    (fun _ same => by cases same)
  exact ⟨steady.passes stocked ⟨steady.calm.act looked, id⟩ (steady.calm.step looked),
    steady.calm.still looked quiet fun _ _ same => by cases same⟩

theorem Steady.locked (steady : s.Steady json tableFiles)
    (stocked : ∀ name, Stocked json (tableFiles name)) (name key : String) :
    ({ s with router := (s.router.getLocked json name key).2 } : Store).Steady json tableFiles := by
  have locked := steady.calm.locked name key
  exact steady.passes stocked ⟨steady.calm.act locked, id⟩ (steady.calm.step locked)

theorem Steady.evict (steady : s.Steady json tableFiles)
    (stocked : ∀ name, Stocked json (tableFiles name)) {cache : Cache (String × String) Value}
    (evicts : Evicts s.router.cache cache) : (s.withCache cache).Steady json tableFiles :=
  steady.passes stocked
    ⟨Turns.one (show TurnStep json s (.evict cache) _ from ⟨evicts, rfl⟩), id⟩
    (steady.calm.alike (withCache_alike evicts.formed evicts.capacity))

theorem Steady.oldValue (steady : s.Steady json tableFiles)
    (stocked : ∀ name, Stocked json (tableFiles name)) (name key : String) :
    (s.router.getRawManifest json name key).1 = s.value json tableFiles name key :=
  steady.regular.oldValue stocked name key

theorem start_steady (wal : Wal) (stocked : ∀ name, Stocked json (tableFiles name))
    {maxMemtableSize cacheCapacity : Nat} (limit : 0 < maxMemtableSize) (room : 0 < cacheCapacity) :
    (start wal tableFiles maxMemtableSize cacheCapacity).Steady json tableFiles := by
  refine ⟨?_, fun _ => rfl⟩
  have known (name : String) : (start wal tableFiles maxMemtableSize cacheCapacity).router.table name =
      Table.init (tableFiles name) := by
    simp only [start, Router.init, Router.table, Router.getTableState, AList.lookup_empty]
  constructor
  · exact start_sound json wal maxMemtableSize cacheCapacity fun name => (stocked name).readable
  · exact start_orderly wal tableFiles maxMemtableSize cacheCapacity
  · exact fun name task member => by cases member
  · intro name held
    rw [site, known] at held
    exact absurd rfl held
  · exact fun name e member => by cases member
  · exact fun client name records packedRecords txIds at_log => by cases at_log
  · intro name place payload there
    rw [site, known]
    exact (Table.initDiskIndex_spec (stocked name).readable).2.1.symm ▸ there
  · exact fun name key held _ _ cached => by cases cached
  · exact room
  · exact limit

theorem empty_stocked (json : Json) : Stocked json File.empty := by
  refine ⟨empty_readable, fun place payload there => ?_⟩
  obtain ⟨page, read, _⟩ := there
  have length := TableHandler.fromBytes_length read
  rw [File.read_past_end _ _ _ (Nat.zero_le _)] at length
  cases length

/-- With empty files a key that has not been written reads as `None`. -/
theorem value_stored (absent : ∀ name, firstIndex tableFiles name = ∅) :
    s.value json tableFiles = s.stored := by
  funext name key
  rw [value, stored_eq]
  cases s.newest name key with
  | some e => rfl
  | none =>
      have missing : (firstIndex tableFiles name).lookup key = none := by
        rw [absent]
        rfl
      rw [original, Table.readFromDisk_missing missing]
      rfl

end

end Store

end CachyDb
