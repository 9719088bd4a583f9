import CachyDb.Database.Reachable
import CachyDb.Storage.Reassembly

set_option autoImplicit false

/-! `CachyDB.set_many` next to `CachyDB.set`: which calls are accepted, and what the keys of a
dict read as after the one and after the other. -/

namespace CachyDb

open ByteString Transition

namespace Store

open Router

/-- `Router.set_many`, with what it returns or raises. -/
inductive SetsMany (json : Json) (s : Store) (name : String) (records : List (String × Value)) :
    Except RouterError Unit → Store → Prop
  | unnamed : name = "" ∨ records = [] → SetsMany json s name records (.error .emptyName) s
  | unpackable {e : RouterError} : ¬ (name = "" ∨ records = []) →
      packRecords json records = .error e → SetsMany json s name records (.error e) s
  | written {packedRecords : List (String × Bytes)} {s₁ s₂ s₃ s₄ t : Store} {txIds : List Nat}
      {events : List Event} : ¬ (name = "" ∨ records = []) →
      packRecords json records = .ok packedRecords → Waits json s s₁ →
      SingleStep json s₁ (.append 0 name records) s₂ → Waits json s₂ s₃ →
      s₃.clients 0 = .logged name records packedRecords txIds →
      SingleStep json s₃ (.insertMany 0) s₄ →
      Run (Guarded (SingleStep json) fun _ e => e.Behind) s₄ events t → t.clients 0 = .idle →
      SetsMany json s name records
        ((s₃.router.setManyLocked name records packedRecords txIds).1.map fun _ => ()) t

theorem packRecords_ok_iff {json : Json} {records : List (String × Value)} :
    (∃ packedRecords, packRecords json records = .ok packedRecords) ↔
      ∀ record ∈ records, ∃ packed, packRecord json record.1 record.2 = .ok packed := by
  induction records with
  | nil => simp [packRecords]
  | cons record rest ih =>
      obtain ⟨key, value⟩ := record
      rw [List.forall_mem_cons, ← ih, packRecords]
      cases packRecord json key value with
      | error e => simp
      | ok packed => cases packRecords json rest <;> simp

/-- Among entries of different keys each is the newest of its key. -/
theorem latest_of_nodup {entries : List Entry} (distinct : (entries.map Entry.key).Nodup) {e : Entry}
    (member : e ∈ entries) : latest entries e.key = some e := by
  obtain ⟨newest, found⟩ := latest_isSome member
  obtain ⟨inside, same⟩ := latest_mem found
  rw [found, List.inj_on_of_nodup_map distinct inside member same]

section

variable {json : Json} {tableFiles : String → File} {s t : Store} {name : String}
  {records : List (String × Value)} {result : Except RouterError Unit}

theorem setManyLocked_result {r : Router} (formed : r.cache.WellFormed) (name : String)
    {packedRecords : List (String × Bytes)} {txIds : List Nat}
    (packs : packedRecords.length = records.length) (ids : txIds.length = records.length) :
    (r.setManyLocked name records packedRecords txIds).1.map (fun _ => ()) =
      if ∀ record ∈ packedRecords, record.1 ≠ "" then .ok () else .error .emptyName := by
  have cached := (r.getTableState_wal name).2.1
  obtain ⟨r', inserts, _⟩ := @insertRecords_spec (r.getTableState name).2 (cached ▸ formed) name
    records packedRecords txIds packs ids
  unfold setManyLocked
  rw [inserts]
  split
  · rename_i failed
    split at failed
    · cases failed
    · rename_i unnamed
      rw [if_neg unnamed]
      cases failed
      rfl
  · rename_i done
    split at done
    · rename_i named
      rw [if_pos named]
      rfl
    · cases done

/-- The records have keys where the packed ones have. -/
theorem all_named {packedRecords : List (String × Bytes)}
    (keys : packedRecords.map Prod.fst = records.map Prod.fst) :
    (∀ record ∈ packedRecords, record.1 ≠ "") ↔ ∀ record ∈ records, record.1 ≠ "" := by
  have same (P : String → Prop) :
      (∀ key ∈ packedRecords.map Prod.fst, P key) ↔ ∀ key ∈ records.map Prod.fst, P key := by
    rw [keys]
  simpa using same (· ≠ "")

/-- What holds before the locked section of a call, and what it will do. -/
theorem Calm.logged (calm : s.Calm json tableFiles) {packedRecords : List (String × Bytes)}
    {s₁ s₂ s₃ : Store} {txIds : List Nat} (packs : packRecords json records = .ok packedRecords)
    (waits : Waits json s s₁) (appended : SingleStep json s₁ (.append 0 name records) s₂)
    (waits' : Waits json s₂ s₃)
    (logged : s₃.clients 0 = .logged name records packedRecords txIds) :
    s₃.Calm json tableFiles ∧ Turns json s s₃ ∧ Still s s₃ ∧ txIds.length = records.length ∧
      packedRecords.map Prod.fst = records.map Prod.fst ∧
      ∀ other, s₃.actOn json other (.insertMany 0) =
        if name = other then .enter (entriesOf records packedRecords txIds)
          (if ∀ record ∈ packedRecords, record.1 ≠ "" then txIds else []) else .stay := by
  obtain ⟨calm₁, still₁⟩ := calm.waits waits
  have calm₂ := calm₁.step appended
  have still₂ := calm₁.still appended (actOn_quiet (fun _ _ _ _ same => by cases same)
    fun _ same => by cases same) fun _ _ same => by cases same
  obtain ⟨calm₃, still₃⟩ := calm₂.waits waits'
  have turns := ((calm.waits_passes waits).1.trans (calm₁.act appended)).trans
    (calm₂.waits_passes waits').1
  obtain ⟨_, first, range, _⟩ := calm₃.sound.pending 0 name records packedRecords txIds logged
  refine ⟨calm₃, turns, (still₁.trans still₂).trans still₃, ?_, packRecords_keys packs, ?_⟩
  · rw [range, List.length_range']
  · intro other
    unfold actOn
    dsimp only
    rw [logged]

/-- A call of `set_many` returns exactly when all its records can be packed and have a key. It
leaves them as they are. -/
theorem Calm.setsMany (calm : s.Calm json tableFiles) (distinct : (records.map Prod.fst).Nodup)
    (sets : SetsMany json s name records result t) :
    t.Calm json tableFiles ∧ Passes json s t ∧
      Within s t name {key | key ∈ records.map Prod.fst} ∧
      ((result = .ok () ∧ ¬ (name = "" ∨ records = []) ∧
          (∀ record ∈ records, record.1 ≠ "" ∧ ∃ packed, packRecord json record.1 record.2 = .ok packed) ∧
          ∀ record ∈ records, t.Fixed name record.1 record.2) ∨
        (result ≠ .ok () ∧ ((name = "" ∨ records = []) ∨
          ∃ record ∈ records, record.1 = "" ∨ ∃ e, packRecord json record.1 record.2 = .error e))) := by
  cases sets with
  | unnamed empty =>
      exact ⟨calm, Passes.refl s, Within.refl _ _ _, Or.inr ⟨by simp, Or.inl empty⟩⟩
  | @unpackable e named failed =>
      refine ⟨calm, Passes.refl s, Within.refl _ _ _, Or.inr ⟨by simp, Or.inr ?_⟩⟩
      by_contra none
      have all : ∀ record ∈ records, ∃ packed, packRecord json record.1 record.2 = .ok packed := by
        intro record member
        cases outcome : packRecord json record.1 record.2 with
        | ok packed => exact ⟨packed, rfl⟩
        | error e => exact absurd ⟨record, member, Or.inr ⟨e, outcome⟩⟩ none
      obtain ⟨packed, packs⟩ := packRecords_ok_iff.mpr all
      rw [packs] at failed
      cases failed
  | @written packedRecords s₁ s₂ s₃ s₄ _ txIds events named packs waits appended waits' logged inserted
      behind idle =>
      obtain ⟨calm₃, turns₃, before, ids, keys, acted⟩ :=
        calm.logged packs waits appended waits' logged
      have calm₄ := calm₃.step inserted
      obtain ⟨calm₅, still₅⟩ := calm₄.runBehind behind
      have turns := (turns₃.trans (calm₃.act inserted)).trans (calm₄.run behind).2
      have length : packedRecords.length = records.length := by
        simpa using congrArg List.length keys
      obtain ⟨within, fixed⟩ := calm₃.enters inserted acted fun _ _ same => by cases same
      have entries := @entriesOf_records records packedRecords txIds keys ids
      have entryKeys : (entriesOf records packedRecords txIds).map Entry.key =
          (records.takeWhile fun record => record.1 ≠ "").map Prod.fst := by
        rw [← entries, List.map_map]
        rfl
      refine ⟨calm₅, ⟨turns, fun _ => idle⟩, ?_, ?_⟩
      · apply ((before.within name _).trans (within.mono ?_)).trans (still₅.within name _)
        intro key member
        rw [Set.mem_ofPred_eq, entryKeys] at member
        exact ((List.takeWhile_sublist _).map Prod.fst).subset member
      · rw [setManyLocked_result calm₃.sound.cache name length ids]
        by_cases all : ∀ record ∈ records, record.1 ≠ ""
        · refine Or.inl ⟨if_pos ((all_named keys).mpr all), named, fun record member => ?_,
            fun record member => ?_⟩
          · exact ⟨all record member, packRecords_ok_iff.mp ⟨packedRecords, packs⟩ record member⟩
          · have whole : (records.takeWhile fun record => record.1 ≠ "") = records :=
              List.takeWhile_eq_self_iff.mpr fun record member => decide_eq_true (all record member)
            rw [whole] at entries entryKeys
            have inside := member
            rw [← entries] at inside
            obtain ⟨e, there, rfl⟩ := List.mem_map.mp inside
            have nodup : ((entriesOf records packedRecords txIds).reverse.map Entry.key).Nodup := by
              rw [List.map_reverse, List.nodup_reverse, entryKeys]
              exact distinct
            exact (fixed e.key e (latest_of_nodup nodup (List.mem_reverse.mpr there))).still still₅
        · refine Or.inr ⟨?_, Or.inr ?_⟩
          · rw [if_neg fun packed => all ((all_named keys).mp packed)]
            exact fun same => by cases same
          · by_contra none
            exact all fun record member unnamed => none ⟨record, member, Or.inl unnamed⟩

/-- A call that does not fill the memtable ends with its locked section. -/
theorem Calm.setsMany_ends (calm : s.Calm json tableFiles) {u : Store}
    (faithful : ∀ record ∈ records, json.Faithful record.2)
    (named : ∀ record ∈ records, record.1 ≠ "") (appended : Step json s (.append 0 name records) t)
    (inserted : Step json t (.insertMany 0) u) (idle : u.clients 0 = .idle) :
    SetsMany json s name records (.ok ()) u := by
  have appends := calm.quietly (show Event.Alone json (.append 0 name records) from ⟨rfl, faithful⟩)
    (fun _ _ same => by cases same) (fun _ same => by cases same) appended
  have calm₁ := calm.step appends
  have inserts := calm₁.quietly (show Event.Alone json (.insertMany 0) from trivial)
    (fun _ _ same => by cases same) (fun _ same => by cases same) inserted
  have done : s.append json 0 name records = some t := appended
  unfold append at done
  split at done
  · rename_i packedRecords _ packs
    split at done
    · cases done
    · rename_i nonempty
      have logged : t.clients 0 = .logged name records packedRecords
          (s.router.wal.appendManyToBuffer (packedRecords.map Prod.snd)).1 := by
        cases done
        simp [putClient]
      have sets := SetsMany.written nonempty packs ⟨[], Run.nil s⟩ appends ⟨[], Run.nil t⟩ logged inserts
        (Run.nil u) idle
      obtain ⟨_, first, range, _⟩ := calm₁.sound.pending 0 name records packedRecords _ logged
      have keys := packRecords_keys packs
      have length : packedRecords.length = records.length := by simpa using congrArg List.length keys
      rw [setManyLocked_result calm₁.sound.cache name length (by rw [range, List.length_range']),
        if_pos] at sets
      · exact sets
      · intro record member
        have inside : record.1 ∈ records.map Prod.fst := keys ▸ List.mem_map_of_mem member
        obtain ⟨old, there, same⟩ := List.mem_map.mp inside
        exact same ▸ named old there
  · cases done

end

end Store

namespace Store

open Router Database

section

variable {json : Json} {codec : Codec} {decoder : Decoder} {tableFiles : String → File}
  {s t : Store} {name key other : String} {value : Value} {result : Except RouterError Unit}

/-- How many chunks a value says it has. -/
def chunkCount (value : Value) : Nat := (overflowChunks value).getD 0

theorem reading_congr {chunk chunk' : Nat → Value} {found : Value}
    (same : ∀ i < chunkCount found, chunk i = chunk' i) :
    reading json decoder chunk found = reading json decoder chunk' found := by
  unfold reading
  cases counted : overflowChunks found with
  | none => rfl
  | some count =>
      rw [chunkCount, counted, Option.getD_some] at same
      dsimp only
      rw [mapM_congr fun i inside => congrArg (decodeChunk decoder) (same i (List.mem_range.mp inside))]

/-- A call for another key of the same kind of table leaves what was laid. -/
theorem Laid.within (laid : Laid json codec s name key value) (within : Within s t name (touched other))
    (different : key ≠ other) (kind : isChunkKey key = isChunkKey other) :
    Laid json codec t name key value := by
  have outside : ¬ (name = name ∧ key ∈ touched other) := by
    rintro ⟨_, rfl | ⟨plain, i, rfl⟩⟩
    · exact different rfl
    · rw [isChunkKey_chunkKey, plain] at kind
      cases kind
  refine ⟨?_, fun held known => laid.cached held (within.cached name key held outside known)⟩
  rcases laid.written with newest | ⟨text, large, chunked⟩
  · rw [within.newest name key outside]
    exact Or.inl newest
  · refine Or.inr ⟨text, large, chunked.within within outside fun i => ?_⟩
    rintro ⟨_, same | ⟨_, j, same⟩⟩
    · exact ne_chunkKey (kind ▸ largeText_plain large) key i same.symm
    · exact different (chunkKey_injective same).1

theorem Laid.still (laid : Laid json codec s name key value) (still : Still s t) :
    Laid json codec t name key value := by
  refine ⟨?_, fun held known => laid.cached held (still.cached name key held known)⟩
  rcases laid.written with newest | ⟨text, large, chunked⟩
  · rw [still.newest]
    exact Or.inl newest
  · exact Or.inr ⟨text, large, chunked.still still⟩

/-- What a key reads as once a value has been laid under it, given the chunks of another state
for a value that is a manifest itself. -/
theorem Laid.reads (inverts : decoder.Inverts codec) (stocked : ∀ name, Stocked json (tableFiles name))
    (steady : t.Steady json tableFiles) (laid : Laid json codec t name key value)
    (faithful : json.Faithful value) (named : ¬ (name = "" ∨ key = ""))
    (straight : flagged overflowFlag value = false ∨ (largeText json key value = none ∧
      (chunkCount value = 0 ∨ (isChunkTable name = false ∧
        ∀ i, t.newest name (chunkKey key i) = s.newest name (chunkKey key i))))) :
    (∃ u, Reads json decoder t name key
      (.ok (reading json decoder (fun i => s.value json tableFiles name (chunkKey key i)) value)) u) ∧
      ∀ other u, Reads json decoder t name key other u → other =
        .ok (reading json decoder (fun i => s.value json tableFiles name (chunkKey key i)) value) := by
  have caches : t.Caches name key {held | held = t.value json tableFiles name key ∨ held = value} :=
    fun held known => Or.inr (laid.cached held known)
  -- the value itself, unless it is large and in chunks
  have whole (newest : (t.newest name key).map Entry.value = some value) :
      t.value json tableFiles name key = value := value_of_newest newest
  apply steady.reads stocked named caches (Or.inl rfl)
  · intro found member flag count counted i inside
    rcases straight with unflagged | ⟨small, uncounted | ⟨plain, _⟩⟩
    · rcases member with rfl | rfl
      · rcases laid.written with newest | ⟨text, _, chunked⟩
        · rw [whole newest, unflagged] at flag
          cases flag
        · rw [value_of_newest chunked.manifest, overflowChunks_manifest, Option.some.injEq] at counted
          subst counted
          exact (chunked.chunks i _ (List.getElem?_eq_getElem inside)).shows
      · rw [unflagged] at flag
        cases flag
    · have same : found = value := by
        rcases member with rfl | rfl
        · rcases laid.written with newest | ⟨text, large, _⟩
          · exact whole newest
          · rw [small] at large
            cases large
        · rfl
      rw [same] at counted
      rw [chunkCount, counted] at uncounted
      exact absurd inside (by rw [show count = 0 from uncounted]; exact Nat.not_lt_zero i)
    · exact fun held known =>
        steady.regular.chunks name _ held plain (isChunkKey_chunkKey key i) known
  · intro found member
    rcases straight with unflagged | ⟨small, chunks⟩
    · rw [reading_unflagged unflagged]
      rcases member with rfl | rfl
      · rcases laid.written with newest | ⟨text, large, chunked⟩
        · rw [whole newest, reading_unflagged unflagged]
        · obtain ⟨text', written, loads⟩ := faithful
          rw [largeText_dumps large, Option.some.injEq] at written
          rw [value_of_newest chunked.manifest]
          exact chunked.reading inverts (written ▸ loads)
      · exact reading_unflagged unflagged
    · have same : found = value := by
        rcases member with rfl | rfl
        · rcases laid.written with newest | ⟨text, large, _⟩
          · exact whole newest
          · rw [small] at large
            cases large
        · rfl
      rw [same]
      apply reading_congr
      intro i inside
      rcases chunks with uncounted | ⟨_, newest⟩
      · rw [uncounted] at inside
        exact absurd inside (Nat.not_lt_zero i)
      · rw [Store.value, Store.value, newest]

/-- A small value over one without chunks is all that a call writes. -/
theorem Steady.setsPlainly (steady : s.Steady json tableFiles)
    (stocked : ∀ name, Stocked json (tableFiles name)) (small : largeText json key value = none)
    (unchunked : chunkCount (s.value json tableFiles name key) = 0)
    (sets : Sets json codec s name key value result t) : Within s t name {key} := by
  have last {u : Store} (calm : u.Calm json tableFiles) (within : Within s u name {key})
      (sets : SetsInternal json u name key value result t) : Within s t name {key} := by
    obtain ⟨_, ⟨_, _, assigned⟩ | ⟨_, rfl, _⟩⟩ := calm.setsInternal sets
    · exact within.trans assigned.within
    · exact within
  cases sets with
  | unnamed _ => exact Within.refl _ _ _
  | large _ large _ _ => rw [small] at large; cases large
  | uncut _ large _ _ _ => rw [small] at large; cases large
  | chunk _ _ _ sets => exact last steady.calm (Within.refl _ _ _) sets
  | @small s₁ _ _ _ _ _ cleans sets =>
      apply last (steady.calm.cleans cleans).1 _ sets
      cases cleans with
      | absent waits _ =>
          obtain ⟨calm, still⟩ := steady.calm.waits waits
          exact (still.trans (calm.lookedUp name key).2).within _ _
      | @cleaned u _ count _ waits counted cleaned =>
          obtain ⟨calm, still⟩ := steady.calm.waits waits
          have steady' := steady.waits stocked waits
          rw [steady'.oldValue stocked name key, value_congr still.newest] at counted
          rw [chunkCount, counted] at unchunked
          obtain rfl : count = 0 := unchunked
          have nothing := ((calm.lookedUp name key).1.setsEach cleaned).2.1
          exact ((still.trans (calm.lookedUp name key).2).within _ _).trans
            (nothing.mono fun _ member => by cases member)

end

end Store

namespace Database

open Router Store

/-- `CachyDB.set`. -/
inductive Sets (json : Json) (codec : Codec) (s : Store) (table key : String) (value : Value) :
    Except RouterError Unit → Store → Prop
  | empty : table = "" ∨ key = "" → Sets json codec s table key value (.error .emptyName) s
  | passed {result : Except RouterError Unit} {t : Store} : ¬ (table = "" ∨ key = "") →
      Store.Sets json codec s table (namespacedKey table key) value result t →
      Sets json codec s table key value result t

def namespacedRecords (table : String) (records : List (String × Value)) : List (String × Value) :=
  records.map fun record => (namespacedKey table record.1, record.2)

/-- `CachyDB.set_many`. -/
inductive SetsMany (json : Json) (s : Store) (table : String) (records : List (String × Value)) :
    Except RouterError Unit → Store → Prop
  | empty : table = "" ∨ records = [] → SetsMany json s table records (.error .emptyName) s
  | passed {result : Except RouterError Unit} {t : Store} : ¬ (table = "" ∨ records = []) →
      Store.SetsMany json s table (namespacedRecords table records) result t →
      SetsMany json s table records result t

/-- A call of `CachyDB.set` for each entry of a dict, with all their results. -/
inductive SetsAll (json : Json) (codec : Codec) (table : String) :
    Store → List (String × Value) → List (Except RouterError Unit) → Store → Prop
  | nil (s : Store) : SetsAll json codec table s [] [] s
  | cons {s t u : Store} {record : String × Value} {rest : List (String × Value)}
      {result : Except RouterError Unit} {results : List (Except RouterError Unit)} :
      Sets json codec s table record.1 record.2 result t → SetsAll json codec table t rest results u →
      SetsAll json codec table s (record :: rest) (result :: results) u

/-- `CachyDB.get`. -/
inductive Gets (json : Json) (decoder : Decoder) (s : Store) (table key : String) :
    Except RouterError Value → Store → Prop
  | empty : table = "" ∨ key = "" → Gets json decoder s table key (.error .emptyName) s
  | passed {result : Except RouterError Value} {t : Store} : ¬ (table = "" ∨ key = "") →
      Reads json decoder s table (namespacedKey table key) result t →
      Gets json decoder s table key result t

/-- Flushes go on, and entries leave the cache. -/
inductive Settles (json : Json) (s : Store) : Store → Prop
  | done : Settles json s s
  | waits {t u : Store} : Settles json s t → Waits json t u → Settles json s u
  | evicts {t : Store} {cache : Cache (String × String) Value} : Settles json s t →
      Evicts t.router.cache cache → Settles json s (t.withCache cache)

/-- A value that is no manifest, or a small one: it counts no chunks, or its key has none that
`set` would delete. -/
def Straight (json : Json) (s : Store) (table : String) (record : String × Value) : Prop :=
  flagged overflowFlag record.2 = false ∨
    (largeText json (namespacedKey table record.1) record.2 = none ∧
      (chunkCount record.2 = 0 ∨ (isChunkTable table = false ∧
        chunkCount (s.router.getRawManifest json table (namespacedKey table record.1)).1 = 0)))

section

variable {json : Json} {codec : Codec} {decoder : Decoder} {tableFiles : String → File}
  {s t u : Store} {table key : String} {value : Value} {records : List (String × Value)}

theorem packRecord_ok_iff (faithful : json.Faithful value) :
    (∃ packed, packRecord json key value = .ok packed) ↔ (encodeKey key).length ≤ maxKeyBytes := by
  obtain ⟨text, written, _⟩ := faithful
  rw [packRecord]
  by_cases long : (encodeKey key).length > maxKeyBytes
  · rw [if_pos long]
    simp [Nat.not_le.mpr long]
  · rw [if_neg long, written]
    simp [Nat.not_lt.mp long]

/-- What `CachyDB.set` accepts. -/
def Acceptable (table : String) (record : String × Value) : Prop :=
  ¬ (table = "" ∨ record.1 = "") ∧ (encodeKey (namespacedKey table record.1)).length ≤ maxKeyBytes

/-- The chunks of one key are not those of another, nor keys of the same table. -/
theorem untouched (plain : isChunkTable table = false) {other : String} (different : key ≠ other)
    (i : Nat) : chunkKey (namespacedKey table key) i ∉ touched (namespacedKey table other) := by
  rintro (same | ⟨_, j, same⟩)
  · exact ne_chunkKey ((isChunkKey_namespacedKey table other).trans plain) _ i same.symm
  · exact different (namespacedKey_injective (chunkKey_injective same).1)

theorem not_touched {other : String} (different : key ≠ other) :
    namespacedKey table key ∉ touched (namespacedKey table other) := by
  rintro (same | ⟨plain, i, same⟩)
  · exact different (namespacedKey_injective same)
  · rw [isChunkKey_namespacedKey, ← isChunkKey_namespacedKey table key, same, isChunkKey_chunkKey]
      at plain
    cases plain

end

end Database

namespace Store

open Router Database

section

variable {json : Json} {codec : Codec} {decoder : Decoder} {tableFiles : String → File}
  {s t u : Store} {table key : String} {value : Value} {records : List (String × Value)}

theorem Steady.settles (steady : s.Steady json tableFiles)
    (stocked : ∀ name, Stocked json (tableFiles name)) (settles : Settles json s t) :
    t.Steady json tableFiles ∧ Still s t := by
  induction settles with
  | done => exact ⟨steady, Still.refl s⟩
  | waits _ waits ih =>
      exact ⟨ih.1.waits stocked waits, ih.2.trans (ih.1.calm.waits waits).2⟩
  | evicts _ evicts ih =>
      refine ⟨ih.1.evict stocked evicts, ih.2.trans ⟨fun _ _ => rfl, fun name key held known => ?_⟩⟩
      exact evicts.kept (name, key) held known

/-- One entry, written with `set`. -/
theorem Steady.setsOne (steady : s.Steady json tableFiles)
    (stocked : ∀ name, Stocked json (tableFiles name)) (faithful : json.Faithful value)
    {result : Except RouterError Unit} (sets : Database.Sets json codec s table key value result t) :
    t.Steady json tableFiles ∧ Within s t table (touched (namespacedKey table key)) ∧
      (result = .ok () ↔ Acceptable table (key, value)) ∧
      (result = .ok () → Laid json codec t table (namespacedKey table key) value) ∧
      (largeText json (namespacedKey table key) value = none →
        chunkCount (s.value json tableFiles table (namespacedKey table key)) = 0 →
          Within s t table {namespacedKey table key}) := by
  cases sets with
  | empty empty =>
      refine ⟨steady, Within.refl _ _ _, ?_, fun ok => (by cases ok), fun _ _ => Within.refl _ _ _⟩
      exact ⟨fun ok => (by cases ok), fun acceptable => absurd empty acceptable.1⟩
  | passed named sets =>
      obtain ⟨calm, within, outcome⟩ := steady.calm.sets sets
      refine ⟨steady.sets stocked sets, within, ?_, ?_, fun small unchunked =>
        steady.setsPlainly stocked small unchunked sets⟩
      · rcases outcome with ⟨rfl, _, packs, _⟩ | ⟨failed, ⟨unnamed, _⟩ | ⟨e, unpacked⟩⟩
        · exact ⟨fun _ => ⟨named, (packRecord_ok_iff faithful).mp packs⟩, fun _ => rfl⟩
        · exact absurd (unnamed.resolve_right (namespacedKey_ne_empty table key))
            fun empty => named (Or.inl empty)
        · refine ⟨fun ok => absurd ok failed, fun acceptable => ?_⟩
          obtain ⟨packed, packs⟩ := (packRecord_ok_iff faithful).mpr acceptable.2
          rw [unpacked] at packs
          cases packs
      · intro ok
        rcases outcome with ⟨_, _, _, laid⟩ | ⟨failed, _⟩
        · exact laid
        · exact absurd ok failed

/-- All entries, one after the other. -/
theorem Steady.setsAll (stocked : ∀ name, Stocked json (tableFiles name))
    (steady : s.Steady json tableFiles) (faithful : ∀ record ∈ records, json.Faithful record.2)
    (distinct : (records.map Prod.fst).Nodup) {results : List (Except RouterError Unit)}
    (sets : SetsAll json codec table s records results u) :
    u.Steady json tableFiles ∧
      (∀ key, key ∉ records.map Prod.fst → ∀ t, Laid json codec s table (namespacedKey table key) t →
        Laid json codec u table (namespacedKey table key) t) ∧
      (∀ key, key ∉ records.map Prod.fst → isChunkTable table = false →
        ∀ i, u.newest table (chunkKey (namespacedKey table key) i) =
          s.newest table (chunkKey (namespacedKey table key) i)) ∧
      ((∀ result ∈ results, result = .ok ()) ↔ ∀ record ∈ records, Acceptable table record) ∧
      ((∀ result ∈ results, result = .ok ()) → ∀ record ∈ records,
        Laid json codec u table (namespacedKey table record.1) record.2 ∧
          (isChunkTable table = false →
            largeText json (namespacedKey table record.1) record.2 = none →
            chunkCount (s.value json tableFiles table (namespacedKey table record.1)) = 0 →
              ∀ i, u.newest table (chunkKey (namespacedKey table record.1) i) =
                s.newest table (chunkKey (namespacedKey table record.1) i))) := by
  induction sets with
  | nil s =>
      exact ⟨steady, fun _ _ _ laid => laid, fun _ _ _ _ => rfl, by simp,
        fun _ record member => by cases member⟩
  | @cons s t u record rest result results first _ ih =>
      obtain ⟨here, later⟩ := List.forall_mem_cons.mp faithful
      rw [List.map_cons, List.nodup_cons] at distinct
      obtain ⟨new, distinct⟩ := distinct
      obtain ⟨steady₁, within, accepted, laid, plainly⟩ := steady.setsOne stocked here first
      obtain ⟨steady₂, keeps, chunks, acceptedAll, laidAll⟩ := ih steady₁ later distinct
      have apart {key : String} (outside : key ∉ (record :: rest).map Prod.fst) :
          key ≠ record.1 ∧ key ∉ rest.map Prod.fst := by
        rw [List.map_cons, List.mem_cons, not_or] at outside
        exact outside
      refine ⟨steady₂, fun key outside value before => ?_, fun key outside plain i => ?_, ?_, ?_⟩
      · obtain ⟨different, outside⟩ := apart outside
        apply keeps key outside value
        apply before.within within fun same => different (namespacedKey_injective same)
        rw [isChunkKey_namespacedKey, isChunkKey_namespacedKey]
      · obtain ⟨different, outside⟩ := apart outside
        rw [chunks key outside plain i]
        exact within.newest _ _ fun inside => untouched plain different i inside.2
      · rw [List.forall_mem_cons, List.forall_mem_cons, accepted, acceptedAll]
      · intro oks
        obtain ⟨ok, oks⟩ := List.forall_mem_cons.mp oks
        refine List.forall_mem_cons.mpr ⟨⟨keeps _ new _ (laid ok), fun plain small unchunked i => ?_⟩,
          fun other member => ?_⟩
        · rw [chunks _ new plain i]
          exact (plainly small unchunked).newest _ _ fun inside => ne_chunkKey_self _ i inside.2
        · have different : other.1 ≠ record.1 := fun same =>
            new (same ▸ List.mem_map_of_mem member)
          obtain ⟨there, unchanged⟩ := laidAll oks other member
          refine ⟨there, fun plain small unchunked i => ?_⟩
          have same : t.newest table (namespacedKey table other.1) =
              s.newest table (namespacedKey table other.1) :=
            within.newest _ _ fun inside => not_touched different inside.2
          rw [unchanged plain small (by rw [Store.value, same]; exact unchunked) i]
          exact within.newest _ _ fun inside => untouched plain different i inside.2

/-- All entries at once. -/
theorem Steady.setsManyAll (stocked : ∀ name, Stocked json (tableFiles name))
    (steady : s.Steady json tableFiles) (faithful : ∀ record ∈ records, json.Faithful record.2)
    (distinct : (records.map Prod.fst).Nodup) {result : Except RouterError Unit}
    (sets : Database.SetsMany json s table records result t) :
    t.Steady json tableFiles ∧
      Within s t table {key | key ∈ (namespacedRecords table records).map Prod.fst} ∧
      (result = .ok () ↔ ¬ (table = "" ∨ records = []) ∧ ∀ record ∈ records,
        (encodeKey (namespacedKey table record.1)).length ≤ maxKeyBytes) ∧
      (result = .ok () → ∀ record ∈ records,
        t.Fixed table (namespacedKey table record.1) record.2) := by
  cases sets with
  | empty empty =>
      exact ⟨steady, Within.refl _ _ _, ⟨fun ok => (by cases ok), fun both => absurd empty both.1⟩,
        fun ok => (by cases ok)⟩
  | passed named sets =>
      have keys : (namespacedRecords table records).map Prod.fst =
          (records.map Prod.fst).map (namespacedKey table) := by
        simp [namespacedRecords]
      have nodup : ((namespacedRecords table records).map Prod.fst).Nodup := by
        rw [keys]
        exact distinct.map fun _ _ => namespacedKey_injective
      have inside {record : String × Value} (member : record ∈ records) :
          (namespacedKey table record.1, record.2) ∈ namespacedRecords table records :=
        List.mem_map_of_mem member
      obtain ⟨calm, passes, within, outcome⟩ := steady.calm.setsMany nodup sets
      refine ⟨steady.passes stocked passes calm, within, ?_⟩
      rcases outcome with ⟨rfl, _, packs, fixed⟩ | ⟨failed, unnamed | ⟨record, member, bad⟩⟩
      · refine ⟨⟨fun _ => ⟨named, fun record member => ?_⟩, fun _ => rfl⟩,
          fun _ record member => fixed _ (inside member)⟩
        exact (packRecord_ok_iff (faithful record member)).mp (packs _ (inside member)).2
      · have none : records = [] := by
          simpa [namespacedRecords] using unnamed.resolve_left fun empty => named (Or.inl empty)
        exact absurd (Or.inr none) named
      · refine ⟨⟨fun ok => absurd ok failed, fun both => ?_⟩, fun ok => absurd ok failed⟩
        obtain ⟨old, there, rfl⟩ := List.mem_map.mp member
        rcases bad with unnamed | ⟨e, unpacked⟩
        · exact absurd unnamed (namespacedKey_ne_empty table old.1)
        · obtain ⟨packed, packs⟩ := (packRecord_ok_iff (faithful old there)).mpr (both.2 old there)
          rw [unpacked] at packs
          cases packs

end

end Store

namespace Database

open Router Store

/-- `set_many` accepts a dict when `set` accepts all its entries, unless it has an empty key.
Flushes and evictions later, both ways every value that is `Straight` reads the same. -/
theorem set_many_agrees_with_set (json : Json) (codec : Codec) (decoder : Decoder)
    (inverts : decoder.Inverts codec) {tableFiles : String → File}
    (stocked : ∀ name, Stocked json (tableFiles name)) {s : Store}
    (reachable : s.Reachable json tableFiles) (idle : ∀ client, s.clients client = .idle)
    {table : String} {records : List (String × Value)} (nonempty : records ≠ [])
    (dict : (records.map Prod.fst).Nodup) (faithful : ∀ record ∈ records, json.Faithful record.2)
    {result : Except RouterError Unit} {results : List (Except RouterError Unit)} {t u : Store}
    (bulk : SetsMany json s table records result t)
    (single : SetsAll json codec table s records results u) :
    ((result = .ok () ↔ ∀ each ∈ results, each = .ok ()) ↔
        table = "" ∨ (∃ record ∈ records,
            maxKeyBytes < (encodeKey (namespacedKey table record.1)).length) ∨
          ∀ record ∈ records, record.1 ≠ "") ∧
      (result = .ok () → (∀ each ∈ results, each = .ok ()) →
        ∀ record ∈ records, Straight json s table record →
          ∀ t' u', Settles json t t' → Settles json u u' →
            ∃ answer, (∃ v, Gets json decoder t' table record.1 (.ok answer) v) ∧
              (∃ v, Gets json decoder u' table record.1 (.ok answer) v) ∧
              ∀ other v, Gets json decoder t' table record.1 other v ∨
                Gets json decoder u' table record.1 other v → other = .ok answer) := by
  have steady : s.Steady json tableFiles := ⟨reachable.regular stocked, idle⟩
  obtain ⟨steady₁, within, accepted, fixed⟩ := steady.setsManyAll stocked faithful dict bulk
  obtain ⟨steady₂, _, _, acceptedAll, laidAll⟩ := Steady.setsAll stocked steady faithful dict single
  constructor
  · rw [accepted, acceptedAll]
    simp only [Acceptable, nonempty, or_false]
    constructor
    · intro same
      by_contra other
      simp only [not_or, not_exists, not_and, not_lt] at other
      obtain ⟨named, short, unnamed⟩ := other
      exact unnamed fun record member empty => (same.mp ⟨named, short⟩ record member).1 (Or.inr empty)
    · rintro (empty | ⟨record, member, long⟩ | named)
      · obtain ⟨record, rest, rfl⟩ := List.exists_cons_of_ne_nil nonempty
        exact ⟨fun both => absurd empty both.1,
          fun all => absurd (Or.inl empty) (all record List.mem_cons_self).1⟩
      · exact ⟨fun both => absurd (both.2 record member) (Nat.not_le.mpr long),
          fun all => absurd (all record member).2 (Nat.not_le.mpr long)⟩
      · refine ⟨fun both record member => ⟨?_, both.2 record member⟩, fun all => ⟨?_, fun record member =>
          (all record member).2⟩⟩
        · rintro (empty | empty)
          · exact both.1 empty
          · exact named record member empty
        · obtain ⟨record, rest, rfl⟩ := List.exists_cons_of_ne_nil nonempty
          exact fun empty => (all record List.mem_cons_self).1 (Or.inl empty)
  · intro ok oks record member straight t' u' settles₁ settles₂
    obtain ⟨laid₂, unchanged⟩ := laidAll oks record member
    have acceptable := (acceptedAll.mp oks) record member
    have named : ¬ (table = "" ∨ namespacedKey table record.1 = "") := by
      rintro (empty | empty)
      · exact acceptable.1 (Or.inl empty)
      · exact namespacedKey_ne_empty table record.1 empty
    obtain ⟨steady₁', still₁⟩ := steady₁.settles stocked settles₁
    obtain ⟨steady₂', still₂⟩ := steady₂.settles stocked settles₂
    have laid₁ : Laid json codec t table (namespacedKey table record.1) record.2 :=
      (fixed ok record member).laid
    have direct := Laid.reads inverts stocked steady₁' (laid₁.still still₁) (faithful record member)
      named (s := s) ?_
    · have singly := Laid.reads inverts stocked steady₂' (laid₂.still still₂) (faithful record member)
        named (s := s) ?_
      · obtain ⟨⟨v₁, reads₁⟩, only₁⟩ := direct
        obtain ⟨⟨v₂, reads₂⟩, only₂⟩ := singly
        refine ⟨_, ⟨v₁, .passed acceptable.1 reads₁⟩, ⟨v₂, .passed acceptable.1 reads₂⟩, ?_⟩
        rintro other v (gets | gets)
        · cases gets with
          | empty empty => exact absurd empty acceptable.1
          | passed _ reads => exact only₁ other v reads
        · cases gets with
          | empty empty => exact absurd empty acceptable.1
          | passed _ reads => exact only₂ other v reads
      · rcases straight with unflagged | ⟨small, uncounted | ⟨plain, unchunked⟩⟩
        · exact Or.inl unflagged
        · exact Or.inr ⟨small, Or.inl uncounted⟩
        · rw [steady.oldValue stocked] at unchunked
          refine Or.inr ⟨small, Or.inr ⟨plain, fun i => ?_⟩⟩
          rw [still₂.newest, unchanged plain small unchunked]
    · rcases straight with unflagged | ⟨small, uncounted | ⟨plain, _⟩⟩
      · exact Or.inl unflagged
      · exact Or.inr ⟨small, Or.inl uncounted⟩
      · refine Or.inr ⟨small, Or.inr ⟨plain, fun i => ?_⟩⟩
        rw [still₁.newest]
        apply within.newest
        rintro ⟨_, inside⟩
        obtain ⟨old, there, same⟩ := List.mem_map.mp inside
        obtain ⟨other, _, rfl⟩ := List.mem_map.mp there
        exact ne_chunkKey ((isChunkKey_namespacedKey table other.1).trans plain) _ i same

/-- A call of `set_many` on an empty database. -/
theorem setsMany_fresh (key text : String) {t u : Store}
    (appended : Step manifestJson (fresh 100 10) (.append 0 "t" [(namespacedKey "t" key, .str text)]) t)
    (inserted : Step manifestJson t (.insertMany 0) u) (idle : u.isIdle = true) :
    SetsMany manifestJson (fresh 100 10) "t" [(key, .str text)] (.ok ()) u := by
  have start : (fresh 100 10).Calm manifestJson fun _ => File.empty :=
    (start_single 100 10 (by decide) (by decide)).calm
  refine .passed (by simp) (start.setsMany_ends ?_ ?_ appended inserted ((isIdle_iff u).mp idle))
  · exact List.forall_mem_singleton.mpr (manifestJson_string text)
  · exact List.forall_mem_singleton.mpr (namespacedKey_ne_empty "t" key)

theorem set_many_agrees_on_one : ∃ t u,
    SetsMany manifestJson (fresh 100 10) "t" [("k", .str "x")] (.ok ()) t ∧
      SetsAll manifestJson longCodec "t" (fresh 100 10) [("k", .str "x")] [.ok ()] u ∧
      ∃ answer, (∃ v, Gets manifestJson longDecoder t "t" "k" (.ok answer) v) ∧
        ∃ v, Gets manifestJson longDecoder u "t" "k" (.ok answer) v := by
  have outcome : ((fresh 100 10).perform manifestJson
      (.append 0 "t" [(namespacedKey "t" "k", .str "x")])).bind (fun s =>
        (s.perform manifestJson (.insertMany 0)).map isIdle) = some true := by decide +kernel
  obtain ⟨t₁, appended, outcome⟩ := Option.bind_eq_some_iff.mp outcome
  obtain ⟨t, inserted, idle⟩ := Option.map_eq_some_iff.mp outcome
  have bulk := setsMany_fresh "k" "x" appended inserted idle
  have outcome : (((fresh 100 10).lookedUp manifestJson "t" (namespacedKey "t" "k")).perform manifestJson
      (.set 0 "t" (namespacedKey "t" "k") (.str "x"))).map isIdle = some true := by decide +kernel
  obtain ⟨u, set, idle⟩ := Option.map_eq_some_iff.mp outcome
  have absent : overflowChunks ((fresh 100 10).router.getRawManifest manifestJson "t"
      (namespacedKey "t" "k")).1 = none := by decide +kernel
  have start : (fresh 100 10).Calm manifestJson fun _ => File.empty :=
    (start_single 100 10 (by decide) (by decide)).calm
  have looked := (start.lookedUp "t" (namespacedKey "t" "k")).1
  have faithful := manifestJson_string "x"
  have single : SetsAll manifestJson longCodec "t" (fresh 100 10) [("k", .str "x")] [.ok ()] u :=
    .cons (.passed (by decide) (.small (by decide +kernel) (by decide +kernel) (by decide +kernel)
      (.absent ⟨[], Run.nil _⟩ absent)
      (looked.setsInternal_ends faithful set ((isIdle_iff u).mp idle)))) (.nil u)
  have agrees := set_many_agrees_with_set manifestJson longCodec longDecoder longDecoder_inverts
    (fun _ => empty_stocked manifestJson) (.start _ (by decide) (by decide)) (fun _ => rfl)
    (List.cons_ne_nil _ _) (by simp) (List.forall_mem_singleton.mpr faithful) bulk single
  obtain ⟨answer, direct, singly, _⟩ := agrees.2 rfl (by simp) ("k", .str "x") List.mem_cons_self
    (Or.inl rfl) t u .done .done
  exact ⟨t, u, bulk, single, answer, direct, singly⟩

/-- `set_many` takes an entry with an empty key, which `set` refuses. -/
theorem set_many_takes_empty_key :
    (∃ t, SetsMany manifestJson (fresh 100 10) "t" [("", .str "x")] (.ok ()) t) ∧
      ∀ results u, SetsAll manifestJson longCodec "t" (fresh 100 10) [("", .str "x")] results u →
        results = [.error .emptyName] := by
  constructor
  · have outcome : ((fresh 100 10).perform manifestJson
        (.append 0 "t" [(namespacedKey "t" "", .str "x")])).bind (fun s =>
          (s.perform manifestJson (.insertMany 0)).map isIdle) = some true := by decide +kernel
    obtain ⟨t₁, appended, outcome⟩ := Option.bind_eq_some_iff.mp outcome
    obtain ⟨t, inserted, idle⟩ := Option.map_eq_some_iff.mp outcome
    exact ⟨t, setsMany_fresh "" "x" appended inserted idle⟩
  · intro results u sets
    cases sets with
    | cons first rest =>
        cases rest
        cases first with
        | empty _ => rfl
        | passed named _ => exact absurd (Or.inr rfl) named

end Database

end CachyDb
