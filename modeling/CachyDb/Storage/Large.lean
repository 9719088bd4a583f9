import CachyDb.Storage.Chunking
import CachyDb.Storage.Single

set_option autoImplicit false

/-! `Router.set` of a single client while flushes go on: which keys a call writes, large
values included, and what the router holds for a key from then on. -/

namespace CachyDb

open ByteString Transition

namespace Router

/-- `value.get(name) is True`, of a dict. -/
def flagged (name : String) : Value → Bool
  | .dict items =>
      match field name items with
      | some (.bool true) => true
      | _ => false
  | _ => false

def overflowFlag : String := "__cachy_overflow__"

@[simp] theorem flagged_manifest (numChunks originalSize : Nat) :
    flagged overflowFlag (manifest numChunks originalSize) = true ∧
      flagged "compressed" (manifest numChunks originalSize) = true := by
  constructor <;> rfl

@[simp] theorem overflowChunks_manifest (numChunks originalSize : Nat) :
    overflowChunks (manifest numChunks originalSize) = some numChunks := rfl

end Router

namespace Store

open Router

/-- The flushes and the writer of the log go on. -/
def Waits (json : Json) (s t : Store) : Prop :=
  ∃ events, Run (Guarded (SingleStep json) fun _ e => e.Background) s events t

/-- What may happen between the first locked section of a write and its end. -/
def Event.Behind : Event → Prop
  | .check client => client = 0
  | .wake client => client = 0
  | .swap client => client = 0
  | .flush _ _ => True
  | .writer _ => True
  | _ => False

/-- `_set_internal`, with what it returns or raises. -/
inductive SetsInternal (json : Json) (s : Store) (name key : String) (value : Value) :
    Except RouterError Unit → Store → Prop
  | unnamed : name = "" ∨ key = "" → SetsInternal json s name key value (.error .emptyName) s
  | unpackable {e : RouterError} : packRecord json key value = .error e →
      SetsInternal json s name key value (.error e) s
  | written {packed : Bytes} {s₁ s₂ t : Store} {events : List Event} :
      packRecord json key value = .ok packed → Waits json s s₁ →
      SingleStep json s₁ (.set 0 name key value) s₂ →
      Run (Guarded (SingleStep json) fun _ e => e.Behind) s₂ events t → t.clients 0 = .idle →
      SetsInternal json s name key value
        ((s₁.router.setLocked name key value packed).1.map fun _ => ()) t

/-- Calls of `_set_internal`, up to the first that raises. -/
inductive SetsEach (json : Json) (name : String) :
    Store → List (String × Value) → Except RouterError Unit → Store → Prop
  | nil (s : Store) : SetsEach json name s [] (.ok ()) s
  | raised {s t : Store} {key : String} {value : Value} {rest : List (String × Value)}
      {e : RouterError} : SetsInternal json s name key value (.error e) t →
      SetsEach json name s ((key, value) :: rest) (.error e) t
  | next {s t u : Store} {key : String} {value : Value} {rest : List (String × Value)}
      {result : Except RouterError Unit} : SetsInternal json s name key value (.ok ()) t →
      SetsEach json name t rest result u → SetsEach json name s ((key, value) :: rest) result u

/-- The read of the old manifest. -/
def lookedUp (json : Json) (s : Store) (name key : String) : Store :=
  { s with router := (s.router.getRawManifest json name key).2 }

/-- The clean-up of the chunks of an older large value. What it raises is caught. -/
inductive Cleans (json : Json) (s : Store) (name key : String) : Store → Prop
  | absent {s₁ : Store} : Waits json s s₁ →
      overflowChunks (s₁.router.getRawManifest json name key).1 = none →
      Cleans json s name key (s₁.lookedUp json name key)
  | cleaned {s₁ t : Store} {count : Nat} {result : Except RouterError Unit} : Waits json s s₁ →
      overflowChunks (s₁.router.getRawManifest json name key).1 = some count →
      SetsEach json name (s₁.lookedUp json name key) (tombstones key count) result t →
      Cleans json s name key t

/-- The chunks, the manifest and the cache entry of a large value. -/
inductive WritesLarge (json : Json) (codec : Codec) (s : Store) (name key : String) (value : Value)
    (text : Bytes) : Except RouterError Unit → Store → Prop
  | uncut {t : Store} {e : RouterError} :
      SetsEach json name s (chunkRecords codec key (cutChunks (codec.compress text))) (.error e) t →
      WritesLarge json codec s name key value text (.error e) t
  | unlisted {s₁ t : Store} {e : RouterError} :
      SetsEach json name s (chunkRecords codec key (cutChunks (codec.compress text))) (.ok ()) s₁ →
      SetsInternal json s₁ name key (manifest (cutChunks (codec.compress text)).length text.length)
        (.error e) t →
      WritesLarge json codec s name key value text (.error e) t
  | written {s₁ s₂ s₃ : Store} :
      SetsEach json name s (chunkRecords codec key (cutChunks (codec.compress text))) (.ok ()) s₁ →
      SetsInternal json s₁ name key (manifest (cutChunks (codec.compress text)).length text.length)
        (.ok ()) s₂ →
      Waits json s₂ s₃ →
      WritesLarge json codec s name key value text (s₃.router.putCache name key value).1
        { s₃ with router := (s₃.router.putCache name key value).2 }

/-- `Router.set`, with what it returns or raises. What the branch for large values raises is
caught, and the value is then written as it is. -/
inductive Sets (json : Json) (codec : Codec) (s : Store) (name key : String) (value : Value) :
    Except RouterError Unit → Store → Prop
  | unnamed : name = "" ∨ key = "" → Sets json codec s name key value (.error .emptyName) s
  | large {s₁ t : Store} {text : Bytes} : ¬ (name = "" ∨ key = "") →
      largeText json key value = some text → Cleans json s name key s₁ →
      WritesLarge json codec s₁ name key value text (.ok ()) t →
      Sets json codec s name key value (.ok ()) t
  | uncut {s₁ s₂ t : Store} {text : Bytes} {e : RouterError} {result : Except RouterError Unit} :
      ¬ (name = "" ∨ key = "") → largeText json key value = some text → Cleans json s name key s₁ →
      WritesLarge json codec s₁ name key value text (.error e) s₂ →
      SetsInternal json s₂ name key value result t → Sets json codec s name key value result t
  | small {s₁ t : Store} {result : Except RouterError Unit} : ¬ (name = "" ∨ key = "") →
      largeText json key value = none → isChunkKey key = false → Cleans json s name key s₁ →
      SetsInternal json s₁ name key value result t → Sets json codec s name key value result t
  | chunk {t : Store} {result : Except RouterError Unit} : ¬ (name = "" ∨ key = "") →
      largeText json key value = none → isChunkKey key = true →
      SetsInternal json s name key value result t → Sets json codec s name key value result t

/-- The read of a manifest puts no more than the table back. -/
theorem getRawManifest_puts (json : Json) {r : Router} (formed : r.cache.WellFormed)
    (name key : String) :
    Puts r (r.getRawManifest json name key).2 name ((r.table name).find json key).2 ∧
      Keeps r (r.getRawManifest json name key).2 r.wal ∧
      (r.getRawManifest json name key).2.cache = r.cache := by
  obtain ⟨wal, cached, _⟩ := r.getTableState_wal name
  have puts := r.puts_putTable name ((r.table name).find json key).2 (r.getTableState name).2.wal
  have keeps : Keeps r ((r.getTableState name).2.putTable name ((r.table name).find json key).2)
      r.wal := ⟨wal, cached ▸ formed, congrArg Cache.capacity cached⟩
  have back : (r.getRawManifest json name key).2 =
      (r.getTableState name).2.putTable name ((r.table name).find json key).2 := by
    unfold getRawManifest
    dsimp only
    split <;> rfl
  rw [back]
  exact ⟨puts, keeps, cached⟩

/-- What was written last under a key. -/
def newest (s : Store) (name key : String) : Option Entry := latest (s.site name).written key

def cached (s : Store) (name key : String) : Option Value := s.router.cache.cache.lookup (name, key)

theorem stored_eq (s : Store) (name key : String) :
    s.stored name key = ((s.newest name key).map Entry.value).getD .null := by
  unfold stored newest
  split
  · rename_i found
    rw [found]
    rfl
  · rename_i unwritten
    rw [unwritten]
    rfl

/-- Nothing is written, and nothing new is cached. -/
structure Still (s t : Store) : Prop where
  newest : ∀ name key, t.newest name key = s.newest name key
  cached : ∀ name key held, t.cached name key = some held → s.cached name key = some held

/-- Other keys of the table, and other tables, are left as they were. -/
structure Within (s t : Store) (name : String) (keys : Set String) : Prop where
  newest : ∀ other key, ¬ (other = name ∧ key ∈ keys) → t.newest other key = s.newest other key
  cached : ∀ other key held, ¬ (other = name ∧ key ∈ keys) →
    t.cached other key = some held → s.cached other key = some held

section

variable {s t u : Store} {name key : String} {keys more : Set String}

theorem Still.refl (s : Store) : Still s s := ⟨fun _ _ => rfl, fun _ _ _ known => known⟩

theorem Still.trans (first : Still s t) (second : Still t u) : Still s u :=
  ⟨fun name key => (second.newest name key).trans (first.newest name key),
    fun name key held known => first.cached name key held (second.cached name key held known)⟩

theorem Still.within (still : Still s t) (name : String) (keys : Set String) :
    Within s t name keys :=
  ⟨fun other key _ => still.newest other key, fun other key held _ => still.cached other key held⟩

theorem Still.stored (still : Still s t) : t.stored = s.stored := by
  funext name key
  rw [stored_eq, stored_eq, still.newest]

theorem Within.refl (s : Store) (name : String) (keys : Set String) : Within s s name keys :=
  (Still.refl s).within name keys

theorem Within.trans (first : Within s t name keys) (second : Within t u name keys) :
    Within s u name keys :=
  ⟨fun other key outside => (second.newest other key outside).trans (first.newest other key outside),
    fun other key held outside known =>
      first.cached other key held outside (second.cached other key held outside known)⟩

theorem Within.mono (within : Within s t name keys) (subset : keys ⊆ more) : Within s t name more :=
  ⟨fun other key outside => within.newest other key fun inside => outside ⟨inside.1, subset inside.2⟩,
    fun other key held outside =>
      within.cached other key held fun inside => outside ⟨inside.1, subset inside.2⟩⟩

theorem Within.stored (within : Within s t name keys) {other : String}
    (outside : ¬ (other = name ∧ key ∈ keys)) : t.stored other key = s.stored other key := by
  rw [stored_eq, stored_eq, within.newest other key outside]

end

section

variable {json : Json} {codec : Codec} {tableFiles : String → File} {s t : Store}
  {name key : String} {value : Value} {result : Except RouterError Unit}

/-- The same but for the cache and the log. -/
structure Alike (s t : Store) : Prop where
  shelves : t.shelves = s.shelves
  clients : t.clients = s.clients
  tables : ∀ name, t.router.table name = s.router.table name
  counter : s.router.wal.globalTxId ≤ t.router.wal.globalTxId
  limit : t.router.maxMemtableSize = s.router.maxMemtableSize
  formed : t.router.cache.WellFormed
  capacity : t.router.cache.capacity = s.router.cache.capacity

theorem Alike.site (alike : Alike s t) (name : String) : t.site name = s.site name := by
  rw [Store.site, Store.site, alike.shelves, alike.tables]

theorem Alike.newest (alike : Alike s t) (name key : String) : t.newest name key = s.newest name key := by
  rw [Store.newest, Store.newest, alike.site]

theorem Sound.alike (sound : s.Sound json) (alike : Alike s t) : t.Sound json := by
  refine ⟨?_, alike.formed, sound.pending.keep alike.clients alike.counter, ?_⟩
  · simpa only [alike.site] using sound.sites
  · simpa only [alike.site] using sound.packed

theorem Calm.alike (calm : s.Calm json tableFiles) (alike : Alike s t) : t.Calm json tableFiles := by
  have awaits (state : Client) : t.Awaits state = s.Awaits state := by
    cases state <;> simp only [Awaits, alike.site]
  constructor
  · exact calm.sound.alike alike
  · simpa only [Orderly, alike.site] using calm.orderly
  · simpa only [Succeeding, alike.site] using calm.succeeding
  · simpa only [alike.clients] using calm.others
  · simpa only [alike.clients, awaits] using calm.awaits
  · simpa only [alike.site] using calm.filled
  · simpa only [alike.site] using calm.faithful
  · simpa only [alike.clients] using calm.pending
  · exact alike.capacity ▸ calm.room
  · exact alike.limit ▸ calm.limit

/-- The value is put into the cache. -/
def recalled (s : Store) (name key : String) (value : Value) : Store :=
  { s with router := (s.router.putCache name key value).2 }

theorem recalled_alike (formed : s.router.cache.WellFormed) (name key : String) (value : Value) :
    (s.router.putCache name key value).1 = .ok () ∧ Alike s (s.recalled name key value) := by
  obtain ⟨r, put, keeps, _⟩ := putCache_ok formed name ⟨0, key, value, []⟩
  have frame := s.router.putCache_frame name key value
  unfold recalled
  rw [put] at frame ⊢
  obtain ⟨tables, files, _, limit⟩ := frame
  have counter : s.router.wal.globalTxId ≤ r.wal.globalTxId := by rw [keeps.wal]
  exact ⟨rfl, rfl, rfl, table_congr tables files, counter, limit, keeps.formed, keeps.capacity⟩

/-- The value is what the cache has for the key, and nothing else is new. -/
theorem recalled_cached (formed : s.router.cache.WellFormed) (room : 0 < s.router.cache.capacity)
    (name key : String) (value : Value) {other otherKey : String} {held : Value}
    (known : (s.recalled name key value).cached other otherKey = some held) :
    ((other = name ∧ otherKey = key) ∧ held = value) ∨
      (¬ (other = name ∧ otherKey = key) ∧ s.cached other otherKey = some held) := by
  obtain ⟨r, put, _, caches⟩ := putCache_ok formed name ⟨0, key, value, []⟩
  unfold recalled at known
  rw [put] at known
  rcases caches room (other, otherKey) held known with ⟨here, e, found, equal⟩ | ⟨before, unwritten⟩
  · rw [latest_cons] at found
    split at found
    · rename_i same
      rw [Option.some.injEq] at found
      exact Or.inl ⟨⟨here, same.symm⟩, by rw [equal, ← found]⟩
    · cases found
  · refine Or.inr ⟨?_, before⟩
    rintro ⟨rfl, rfl⟩
    have found := unwritten rfl
    rw [latest_cons, if_pos rfl] at found
    cases found

/-- A value goes into the cache, and no other key does. -/
theorem Calm.recalled (calm : s.Calm json tableFiles) (name key : String) (value : Value) :
    (s.recalled name key value).Calm json tableFiles ∧
      Within s (s.recalled name key value) name {key} ∧
      ∀ held, (s.recalled name key value).cached name key = some held → held = value := by
  have alike := (recalled_alike calm.sound.cache name key value).2
  refine ⟨calm.alike alike, ⟨fun other otherKey _ => alike.newest other otherKey,
    fun other otherKey held outside known => ?_⟩, fun held known => ?_⟩
  · rcases recalled_cached calm.sound.cache calm.room name key value known with ⟨inside, _⟩ | ⟨_, before⟩
    · exact absurd inside outside
    · exact before
  · rcases recalled_cached calm.sound.cache calm.room name key value known with ⟨_, same⟩ | ⟨outside, _⟩
    · exact same
    · exact absurd ⟨rfl, rfl⟩ outside

/-- A step that neither writes nor looks anything up. -/
theorem Sound.still {e : Event} (sound : s.Sound json) (room : 0 < s.router.cache.capacity)
    (step : Step json s e t)
    (quiet : ∀ name entries txIds, s.actOn json name e ≠ .enter entries txIds)
    (unlooked : ∀ name key, e ≠ .getLocked name key) : Still s t := by
  have acts := sound.acts step
  constructor
  · intro name key
    unfold newest
    rw [acts.site, Site.act_written]
    cases acted : s.actOn json name e with
    | enter entries txIds => exact absurd acted (quiet name entries txIds)
    | _ => rfl
  · intro name key held known
    rcases acts.cached room (name, key) held known with
      ⟨entries, txIds, _, acted, _⟩ | ⟨before, _⟩ | ⟨looked, _⟩
    · exact absurd acted (quiet name entries txIds)
    · exact before
    · exact absurd looked (unlooked name key)

theorem Calm.still {e : Event} (calm : s.Calm json tableFiles) (step : SingleStep json s e t)
    (quiet : ∀ name entries txIds, s.actOn json name e ≠ .enter entries txIds)
    (unlooked : ∀ name key, e ≠ .getLocked name key) : Still s t :=
  calm.sound.still calm.room step.1 quiet unlooked

/-- Only a `set` and a `set_many` write. -/
theorem actOn_quiet {e : Event} (unset : ∀ client name key value, e ≠ .set client name key value)
    (single : ∀ client, e ≠ .insertMany client) (name : String) (entries : List Entry)
    (txIds : List Nat) : s.actOn json name e ≠ .enter entries txIds := by
  intro acted
  rcases enter_inv acted with ⟨_, _, _, _, rfl, _⟩ | ⟨_, _, _, _, rfl, _⟩
  · exact unset _ _ _ _ rfl
  · exact single _ rfl

/-- Behind its first locked section a write assigns nothing. -/
theorem Calm.behind {e : Event} (calm : s.Calm json tableFiles) (step : SingleStep json s e t)
    (behind : e.Behind) : Still s t := by
  apply calm.still step
  · apply actOn_quiet
    · rintro _ _ _ _ rfl
      exact behind.elim
    · rintro _ rfl
      exact behind.elim
  · rintro _ _ rfl
    exact behind.elim

theorem Event.Background.behind {e : Event} (background : e.Background) : e.Behind := by
  cases e with
  | flush name i => trivial
  | writer clock => trivial
  | _ => exact background.elim

theorem Calm.runBehind {events : List Event} (calm : s.Calm json tableFiles)
    (run : Run (Guarded (SingleStep json) fun _ e => e.Behind) s events t) :
    t.Calm json tableFiles ∧ Still s t := by
  apply run.preserves (P := fun u => u.Calm json tableFiles ∧ Still s u) ⟨calm, Still.refl s⟩
  rintro u e v ⟨before, same⟩ ⟨step, behind⟩
  exact ⟨before.step step, same.trans (before.behind step behind)⟩

theorem Calm.waits (calm : s.Calm json tableFiles) (waits : Waits json s t) :
    t.Calm json tableFiles ∧ Still s t := by
  obtain ⟨events, run⟩ := waits
  exact calm.runBehind (run.mono fun _ _ _ step => ⟨step.1, step.2.behind⟩)

/-- The locked section of a lookup, which no flush can fail in. -/
theorem Calm.locked (calm : s.Calm json tableFiles) (name key : String) :
    SingleStep json s (.getLocked name key)
      { s with router := (s.router.getLocked json name key).2 } :=
  calm.quietly trivial (fun _ _ same => by cases same) (fun _ same => by cases same) rfl

theorem Sound.locked_newest (sound : s.Sound json) (name key other otherKey : String) :
    ({ s with router := (s.router.getLocked json name key).2 } : Store).newest other otherKey =
      s.newest other otherKey := by
  have locked : Step json s (.getLocked name key)
      { s with router := (s.router.getLocked json name key).2 } := rfl
  have spec := actsOn json s other (.getLocked name key)
  unfold newest
  rw [(sound.acts locked).site, Site.act_written]
  generalize s.actOn json other (.getLocked name key) = act at spec
  cases spec <;> rfl

/-- The last step of a lookup caches what it answers, and no other key. -/
theorem Sound.locked_cached (sound : s.Sound json) (room : 0 < s.router.cache.capacity)
    (name key : String) {other otherKey : String} {held : Value}
    (known : ({ s with router := (s.router.getLocked json name key).2 } : Store).cached other otherKey =
      some held) :
    s.cached other otherKey = some held ∨
      ((other = name ∧ otherKey = key) ∧ (s.router.getLocked json name key).1 = .ok held) := by
  have locked : Step json s (.getLocked name key)
      { s with router := (s.router.getLocked json name key).2 } := rfl
  rcases (sound.acts locked).cached room (other, otherKey) held known with
    ⟨entries, txIds, _, acted, _⟩ | ⟨before, _⟩ | ⟨looked, answered⟩
  · exact absurd acted (actOn_quiet (fun _ _ _ _ same => by cases same) (fun _ same => by cases same)
      other entries txIds)
  · exact Or.inl before
  · cases looked
    exact Or.inr ⟨⟨rfl, rfl⟩, answered⟩

/-- The read of a manifest loads the pages that a lookup loads, and caches nothing. -/
theorem lookedUp_alike (formed : s.router.cache.WellFormed) (name key : String) :
    Alike { s with router := (s.router.getLocked json name key).2 } (s.lookedUp json name key) ∧
      (s.lookedUp json name key).router.cache = s.router.cache := by
  have locked := getLocked_spec json formed name key
  obtain ⟨puts, keeps, cache⟩ := getRawManifest_puts json formed name key
  exact ⟨⟨rfl, rfl, fun other => (puts.table other).trans (locked.puts.table other).symm,
    Nat.le_of_eq (by rw [locked.keeps.wal]; exact congrArg Wal.globalTxId keeps.wal.symm),
    puts.limit.trans locked.puts.limit.symm, keeps.formed,
    keeps.capacity.trans locked.keeps.capacity.symm⟩, cache⟩

theorem Sound.lookedUp (sound : s.Sound json) (name key : String) :
    Still s (s.lookedUp json name key) := by
  obtain ⟨alike, cache⟩ := @lookedUp_alike json s sound.cache name key
  refine ⟨fun other otherKey => ?_, fun other otherKey held known => ?_⟩
  · rw [alike.newest, sound.locked_newest]
  · unfold cached at known
    rw [cache] at known
    exact known

theorem Calm.lookedUp (calm : s.Calm json tableFiles) (name key : String) :
    (s.lookedUp json name key).Calm json tableFiles ∧ Still s (s.lookedUp json name key) := by
  have alike := (@lookedUp_alike json s calm.sound.cache name key).1
  exact ⟨(calm.step (calm.locked name key)).alike alike, calm.sound.lookedUp name key⟩

/-- The key was written last with this value, and the cache holds no other one. -/
structure Fixed (s : Store) (name key : String) (value : Value) : Prop where
  newest : (s.newest name key).map Entry.value = some value
  cached : ∀ held, s.cached name key = some held → held = value

theorem Fixed.stored (fixed : s.Fixed name key value) : s.stored name key = value := by
  rw [stored_eq, fixed.newest]
  rfl

theorem Fixed.within {other : String} {keys : Set String} (fixed : s.Fixed name key value)
    (within : Within s t other keys) (outside : ¬ (name = other ∧ key ∈ keys)) :
    t.Fixed name key value :=
  ⟨by rw [within.newest name key outside]; exact fixed.newest,
    fun held known => fixed.cached held (within.cached name key held outside known)⟩

theorem Fixed.still (fixed : s.Fixed name key value) (still : Still s t) :
    t.Fixed name key value :=
  ⟨by rw [still.newest]; exact fixed.newest,
    fun held known => fixed.cached held (still.cached name key held known)⟩

/-- Nothing else has been written. -/
structure Assigned (s t : Store) (name key : String) (value : Value) : Prop where
  within : Within s t name {key}
  fixed : t.Fixed name key value

theorem Assigned.still {u : Store} (assigned : Assigned s t name key value) (still : Still t u) :
    Assigned s u name key value :=
  ⟨assigned.within.trans (still.within name {key}), assigned.fixed.still still⟩

theorem Still.assigned {u : Store} (still : Still s t) (assigned : Assigned t u name key value) :
    Assigned s u name key value :=
  ⟨(still.within name {key}).trans assigned.within, assigned.fixed⟩

/-- What a step writes into one table is there afterwards, and nothing else has changed. -/
theorem Sound.enters {e : Event} {entries : List Entry} {txIds : List Nat}
    (sound : s.Sound json) (room : 0 < s.router.cache.capacity) (step : Step json s e t)
    (acted : ∀ other, s.actOn json other e = if name = other then .enter entries txIds else .stay)
    (unlooked : ∀ name key, e ≠ .getLocked name key) :
    Within s t name {key | key ∈ entries.map Entry.key} ∧
      ∀ key new, latest entries.reverse key = some new → t.Fixed name key new.value := by
  have acts := sound.acts step
  have elsewhere {other otherKey : String}
      (outside : ¬ (other = name ∧ otherKey ∈ {key | key ∈ entries.map Entry.key}))
      (entries' : List Entry) (txIds' : List Nat)
      (entered : s.actOn json other e = .enter entries' txIds') :
      latest entries'.reverse otherKey = none := by
    rw [acted] at entered
    split at entered
    · rename_i same
      cases entered
      cases found : latest entries.reverse otherKey with
      | none => rfl
      | some new =>
          obtain ⟨member, rfl⟩ := latest_mem found
          exact absurd ⟨same.symm, List.mem_map_of_mem (List.mem_reverse.mp member)⟩ outside
    · cases entered
  have here := acted name
  rw [if_pos rfl] at here
  refine ⟨⟨fun other otherKey outside => ?_, fun other otherKey held outside known => ?_⟩,
    fun key new found => ⟨?_, fun held known => ?_⟩⟩
  · unfold newest
    rw [acts.site, Site.act_written]
    cases entered : s.actOn json other e with
    | enter entries' txIds' =>
        dsimp only
        rw [latest_append, elsewhere outside entries' txIds' entered, Option.none_or]
    | _ => rfl
  · rcases acts.cached room (other, otherKey) held known with
      ⟨entries', txIds', new, entered, found, _⟩ | ⟨before, _⟩ | ⟨looked, _⟩
    · rw [elsewhere outside entries' txIds' entered] at found
      cases found
    · exact before
    · exact absurd looked (unlooked _ _)
  · unfold newest
    rw [acts.site, Site.act_written, here]
    dsimp only
    rw [latest_append, found]
    rfl
  · rcases acts.cached room (name, key) held known with
      ⟨entries', txIds', new', entered, found', equal⟩ | ⟨_, unwritten⟩ | ⟨looked, _⟩
    · rw [here] at entered
      cases entered
      rw [found, Option.some.injEq] at found'
      rw [equal, found']
    · rw [unwritten _ _ here] at found
      cases found
    · exact absurd looked (unlooked _ _)

theorem Calm.enters {e : Event} {entries : List Entry} {txIds : List Nat}
    (calm : s.Calm json tableFiles) (step : SingleStep json s e t)
    (acted : ∀ other, s.actOn json other e = if name = other then .enter entries txIds else .stay)
    (unlooked : ∀ name key, e ≠ .getLocked name key) :
    Within s t name {key | key ∈ entries.map Entry.key} ∧
      ∀ key new, latest entries.reverse key = some new → t.Fixed name key new.value :=
  calm.sound.enters calm.room step.1 acted unlooked

/-- The first locked section of a write assigns the value. -/
theorem Sound.assigned {client : Nat} (sound : s.Sound json) (room : 0 < s.router.cache.capacity)
    (step : Step json s (.set client name key value) t) {packed : Bytes}
    (packs : packRecord json key value = .ok packed) : Assigned s t name key value := by
  have acted (other : String) : s.actOn json other (.set client name key value) =
      if name = other then .enter [⟨s.router.wal.globalTxId, key, value, packed⟩]
        [s.router.wal.globalTxId] else .stay := by
    unfold actOn
    dsimp only
    rw [packs]
  obtain ⟨within, fixed⟩ := sound.enters room step acted fun _ _ same => by cases same
  have found := latest_cons ⟨s.router.wal.globalTxId, key, value, packed⟩ [] key
  rw [if_pos rfl] at found
  refine ⟨within.mono ?_, fixed key _ found⟩
  simp

/-- Either the value is assigned, or nothing has changed and the record cannot be written. -/
theorem Calm.setsInternal (calm : s.Calm json tableFiles)
    (sets : SetsInternal json s name key value result t) :
    t.Calm json tableFiles ∧
      ((result = .ok () ∧ (∃ packed, packRecord json key value = .ok packed) ∧
          Assigned s t name key value) ∨
        (result ≠ .ok () ∧ t = s ∧
          ((name = "" ∨ key = "") ∨ ∃ e, packRecord json key value = .error e))) := by
  cases sets with
  | unnamed empty => exact ⟨calm, Or.inr ⟨by simp, rfl, Or.inl empty⟩⟩
  | unpackable failed => exact ⟨calm, Or.inr ⟨by simp, rfl, Or.inr ⟨_, failed⟩⟩⟩
  | @written packed s₁ s₂ _ _ packs waits step behind _ =>
      obtain ⟨calm₁, still₁⟩ := calm.waits waits
      obtain ⟨r, locked, _⟩ := setLocked_spec calm₁.sound.cache name
        ⟨s₁.router.wal.globalTxId, key, value, packed⟩ rfl
      obtain ⟨calm₃, still₃⟩ := (calm₁.step step).runBehind behind
      refine ⟨calm₃, Or.inl ⟨?_, ⟨packed, packs⟩,
        still₁.assigned ((calm₁.sound.assigned calm₁.room step.1 packs).still still₃)⟩⟩
      dsimp only at locked
      rw [locked]
      rfl

/-- The first locked section of a `set`, which no flush can fail in. -/
theorem Calm.setStep (calm : s.Calm json tableFiles) (faithful : json.Faithful value)
    (step : Step json s (.set 0 name key value) t) : SingleStep json s (.set 0 name key value) t :=
  calm.quietly ⟨rfl, faithful⟩ (fun _ _ same => by cases same) (fun _ same => by cases same) step

/-- A write that does not fill the memtable ends with its first locked section. -/
theorem Calm.setsInternal_ends (calm : s.Calm json tableFiles) (faithful : json.Faithful value)
    (step : Step json s (.set 0 name key value) t) (idle : t.clients 0 = .idle) :
    SetsInternal json s name key value (.ok ()) t := by
  have packs : ∃ packed, packRecord json key value = .ok packed := by
    have done : s.set json 0 name key value = some t := step
    unfold set at done
    split at done
    · rename_i packed _ packs
      exact ⟨packed, packs⟩
    · cases done
  obtain ⟨packed, packs⟩ := packs
  have sets := SetsInternal.written packs ⟨[], Run.nil s⟩ (calm.setStep faithful step) (Run.nil t) idle
  obtain ⟨r, locked, _⟩ := setLocked_spec calm.sound.cache name
    ⟨s.router.wal.globalTxId, key, value, packed⟩ rfl
  dsimp only at locked
  rw [locked] at sets
  exact sets

/-- Records of different keys are all there at the end, unless one could not be written. -/
theorem Calm.setsEach {records : List (String × Value)} (calm : s.Calm json tableFiles)
    (sets : SetsEach json name s records result t) :
    t.Calm json tableFiles ∧ Within s t name {key | key ∈ records.map Prod.fst} ∧
      (result = .ok () → (records.map Prod.fst).Nodup →
        ∀ record ∈ records, t.Fixed name record.1 record.2) := by
  induction sets with
  | nil s => exact ⟨calm, Within.refl _ _ _, fun _ _ record member => (by cases member)⟩
  | raised failed =>
      obtain ⟨calm', assigned | ⟨_, rfl, _⟩⟩ := calm.setsInternal failed
      · cases assigned.1
      · exact ⟨calm, Within.refl _ _ _, fun ok => (by cases ok)⟩
  | @next s t u key value rest result first _ ih =>
      obtain ⟨calm', ⟨_, _, assigned⟩ | ⟨failed, _⟩⟩ := calm.setsInternal first
      · obtain ⟨calm'', within, holds⟩ := ih calm'
        have here : Within s t name {other | other ∈ ((key, value) :: rest).map Prod.fst} := by
          apply assigned.within.mono
          rintro other rfl
          exact List.mem_cons_self
        refine ⟨calm'', here.trans (within.mono fun _ => List.mem_cons_of_mem _), ?_⟩
        intro ok distinct
        obtain ⟨new, distinct'⟩ := List.nodup_cons.mp distinct
        apply List.forall_mem_cons.mpr ⟨?_, holds ok distinct'⟩
        exact assigned.fixed.within within fun inside => new inside.2
      · exact absurd rfl failed

/-- A clean-up leaves all but the chunks of its key. -/
theorem Calm.cleans (calm : s.Calm json tableFiles) (cleans : Cleans json s name key t) :
    t.Calm json tableFiles ∧ Within s t name (chunkKeys key) := by
  cases cleans with
  | absent waits _ =>
      obtain ⟨calm₁, still₁⟩ := calm.waits waits
      obtain ⟨calm₂, still₂⟩ := calm₁.lookedUp name key
      exact ⟨calm₂, (still₁.trans still₂).within name _⟩
  | cleaned waits _ sets =>
      obtain ⟨calm₁, still₁⟩ := calm.waits waits
      obtain ⟨calm₂, still₂⟩ := calm₁.lookedUp name key
      obtain ⟨calm₃, within, _⟩ := calm₂.setsEach sets
      exact ⟨calm₃, ((still₁.trans still₂).within name _).trans
        (within.mono (tombstones_keys key _))⟩

/-- The manifest of a text was written last, and all the chunks it counts. -/
structure Chunked (codec : Codec) (s : Store) (name key : String) (text : Bytes) : Prop where
  manifest : (s.newest name key).map Entry.value =
    some (Router.manifest (cutChunks (codec.compress text)).length text.length)
  chunks : ∀ (i : Nat) (chunk : Bytes), (cutChunks (codec.compress text))[i]? = some chunk →
    s.Fixed name (chunkKey key i) (.str (codec.b64encode chunk))

theorem Chunked.stored {text : Bytes} (chunked : s.Chunked codec name key text) :
    s.stored name key = Router.manifest (cutChunks (codec.compress text)).length text.length := by
  rw [stored_eq, chunked.manifest]
  rfl

/-- What is written elsewhere leaves the manifest and the chunks. -/
theorem Chunked.within {other : String} {keys : Set String} {text : Bytes}
    (chunked : s.Chunked codec name key text) (within : Within s t other keys)
    (outside : ¬ (name = other ∧ key ∈ keys))
    (apart : ∀ i, ¬ (name = other ∧ chunkKey key i ∈ keys)) : t.Chunked codec name key text :=
  ⟨by rw [within.newest name key outside]; exact chunked.manifest,
    fun i chunk there => (chunked.chunks i chunk there).within within (apart i)⟩

theorem Chunked.still {text : Bytes} (chunked : s.Chunked codec name key text) (still : Still s t) :
    t.Chunked codec name key text :=
  ⟨by rw [still.newest]; exact chunked.manifest,
    fun i chunk there => (chunked.chunks i chunk there).still still⟩

/-- A large value is held with its chunks, or the write raises. -/
theorem Calm.writesLarge {text : Bytes} (calm : s.Calm json tableFiles)
    (plain : isChunkKey key = false)
    (writes : WritesLarge json codec s name key value text result t) :
    t.Calm json tableFiles ∧ Within s t name (ownKeys key) ∧
      (result = .ok () → t.Chunked codec name key text ∧
        (encodeKey key).length ≤ maxKeyBytes ∧ ∀ held, t.cached name key = some held → held = value) := by
  cases writes with
  | uncut chunked =>
      obtain ⟨calm₁, within, _⟩ := calm.setsEach chunked
      exact ⟨calm₁, within.mono ((chunkRecords_keys codec key _).trans (chunkKeys_own key)),
        fun ok => (by cases ok)⟩
  | unlisted chunked listed =>
      obtain ⟨calm₁, within, _⟩ := calm.setsEach chunked
      obtain ⟨calm₂, ⟨listed, _⟩ | ⟨_, rfl, _⟩⟩ := calm₁.setsInternal listed
      · cases listed
      · exact ⟨calm₂, within.mono ((chunkRecords_keys codec key _).trans (chunkKeys_own key)),
          fun ok => (by cases ok)⟩
  | @written s₁ s₂ s₃ chunked listed waits =>
      obtain ⟨calm₁, within, chunks⟩ := calm.setsEach chunked
      obtain ⟨calm₂, ⟨_, ⟨packed, packs⟩, assigned⟩ | ⟨failed, _⟩⟩ := calm₁.setsInternal listed
      · obtain ⟨calm₃, still₃⟩ := calm₂.waits waits
        obtain ⟨calm₄, within₄, cached₄⟩ := calm₃.recalled name key value
        have alike := (recalled_alike calm₃.sound.cache name key value).2
        have assigned₃ := assigned.still still₃
        refine ⟨calm₄, ?_, fun _ => ⟨⟨?_, fun i chunk there => ?_⟩, ?_, cached₄⟩⟩
        · exact (within.mono ((chunkRecords_keys codec key _).trans (chunkKeys_own key))).trans
            ((assigned₃.within.trans within₄).mono (key_own key))
        · exact (congrArg (Option.map Entry.value) (alike.newest name key)).trans
            assigned₃.fixed.newest
        · have member : (chunkKey key i, Value.str (codec.b64encode chunk)) ∈
              chunkRecords codec key (cutChunks (codec.compress text)) := by
            obtain ⟨inside, rfl⟩ := List.getElem?_eq_some_iff.mp there
            exact List.mem_mapIdx.mpr ⟨i, inside, rfl⟩
          exact (chunks rfl (chunkRecords_nodup codec key _) _ member).within
            (assigned₃.within.trans within₄) fun inside => ne_chunkKey plain key i inside.2.symm
        · by_contra long
          rw [packRecord, if_pos (Nat.lt_of_not_le long)] at packs
          cases packs
      · exact absurd rfl failed

/-- The table holds the value under the key: as it is, or in chunks. -/
def Holds (json : Json) (codec : Codec) (s : Store) (name key : String) (value : Value) : Prop :=
  (s.stored name key = value ∧ flagged overflowFlag value = false) ∨
    ∃ text, json.loads text = some value ∧ s.Chunked codec name key text

/-- A call for another key leaves what a key holds. -/
theorem Holds.within {other otherName : String} {held : Value}
    (holds : s.Holds json codec otherName other held) (plain : isChunkKey key = false)
    (plainOther : isChunkKey other = false) (within : Within s t name (ownKeys key))
    (different : ¬ (otherName = name ∧ other = key)) : t.Holds json codec otherName other held := by
  have outside : ¬ (otherName = name ∧ other ∈ ownKeys key) := by
    rintro ⟨rfl, rfl | ⟨i, rfl⟩⟩
    · exact different ⟨rfl, rfl⟩
    · exact ne_chunkKey plainOther key i rfl
  rcases holds with ⟨stored, unflagged⟩ | ⟨text, loads, chunked⟩
  · exact Or.inl ⟨(within.stored outside).trans stored, unflagged⟩
  · refine Or.inr ⟨text, loads, chunked.within within outside fun i => ?_⟩
    rintro ⟨rfl, owned | ⟨j, owned⟩⟩
    · exact ne_chunkKey plain other i owned.symm
    · exact different ⟨rfl, (chunkKey_injective owned).1⟩

/-- A key that is too long has never been written. -/
theorem Calm.unwritten (calm : s.Calm json tableFiles) {e : RouterError}
    (faithful : json.Faithful value) (failed : packRecord json key value = .error e) :
    s.stored name key = .null := by
  obtain ⟨text, written, _⟩ := faithful
  have long : (encodeKey key).length > maxKeyBytes := by
    by_contra short
    rw [packRecord, if_neg short, written] at failed
    cases failed
  unfold stored
  split
  · rename_i entry newest
    obtain ⟨member, rfl⟩ := latest_mem newest
    have packs := calm.sound.packed name entry member
    rw [packRecord, if_pos long] at packs
    cases packs
  · rfl

/-- What a call that returns leaves under its key: the value as it is, or in chunks if it is
large, and nothing else in the cache. -/
structure Laid (json : Json) (codec : Codec) (t : Store) (name key : String) (value : Value) :
    Prop where
  written : (t.newest name key).map Entry.value = some value ∨
    ∃ text, largeText json key value = some text ∧ t.Chunked codec name key text
  cached : ∀ held, t.cached name key = some held → held = value

theorem Fixed.laid (fixed : t.Fixed name key value) : Laid json codec t name key value :=
  ⟨Or.inl fixed.newest, fixed.cached⟩

/-- What a call may write: its key, and the chunks unless the key is a chunk's itself. -/
def touched (key : String) : Set String :=
  {other | other = key ∨ (isChunkKey key = false ∧ other ∈ chunkKeys key)}

theorem key_touched (key : String) : {key} ⊆ touched key := fun _ same => Or.inl same

theorem own_touched (plain : isChunkKey key = false) : ownKeys key ⊆ touched key :=
  fun _ member => member.imp_right fun chunk => ⟨plain, chunk⟩

theorem touched_own (key : String) : touched key ⊆ ownKeys key :=
  fun _ member => member.imp_right And.right

/-- What a call comes to. It returns exactly when its record can be packed. -/
def Outcome (json : Json) (codec : Codec) (s t : Store) (name key : String) (value : Value)
    (result : Except RouterError Unit) : Prop :=
  (result = .ok () ∧ ¬ (name = "" ∨ key = "") ∧
      (∃ packed, packRecord json key value = .ok packed) ∧ Laid json codec t name key value) ∨
    (result ≠ .ok () ∧ (((name = "" ∨ key = "") ∧ t = s) ∨
      ∃ e, packRecord json key value = .error e))

theorem Calm.sets (calm : s.Calm json tableFiles) (sets : Sets json codec s name key value result t) :
    t.Calm json tableFiles ∧ Within s t name (touched key) ∧
      Outcome json codec s t name key value result := by
  -- the last write of a call, which is all of it for a small value
  have final {s₂ : Store} (calm₂ : s₂.Calm json tableFiles) (within : Within s s₂ name (touched key))
      (named : ¬ (name = "" ∨ key = "")) (last : SetsInternal json s₂ name key value result t) :
      t.Calm json tableFiles ∧ Within s t name (touched key) ∧
        Outcome json codec s t name key value result := by
    obtain ⟨calm₃, ⟨ok, packs, assigned⟩ | ⟨failed, rfl, unnamed | unpacked⟩⟩ :=
      calm₂.setsInternal last
    · exact ⟨calm₃, within.trans (assigned.within.mono (key_touched key)),
        Or.inl ⟨ok, named, packs, assigned.fixed.laid⟩⟩
    · exact absurd unnamed named
    · exact ⟨calm₃, within, Or.inr ⟨failed, Or.inr unpacked⟩⟩
  cases sets with
  | unnamed empty => exact ⟨calm, Within.refl _ _ _, Or.inr ⟨by simp, Or.inl ⟨empty, rfl⟩⟩⟩
  | @large s₁ _ text named large cleans writes =>
      have own := own_touched (largeText_plain large)
      obtain ⟨calm₁, within₁⟩ := calm.cleans cleans
      obtain ⟨calm₂, within₂, laid⟩ := calm₁.writesLarge (largeText_plain large) writes
      obtain ⟨chunked, short, cached⟩ := laid rfl
      refine ⟨calm₂, (within₁.mono ((chunkKeys_own key).trans own)).trans (within₂.mono own),
        Or.inl ⟨rfl, named, ?_, Or.inr ⟨text, large, chunked⟩, cached⟩⟩
      rw [packRecord, if_neg (Nat.not_lt.mpr short), largeText_dumps large]
      exact ⟨_, rfl⟩
  | uncut named large cleans writes last =>
      have own := own_touched (largeText_plain large)
      obtain ⟨calm₁, within₁⟩ := calm.cleans cleans
      obtain ⟨calm₂, within₂, _⟩ := calm₁.writesLarge (largeText_plain large) writes
      exact final calm₂ ((within₁.mono ((chunkKeys_own key).trans own)).trans (within₂.mono own))
        named last
  | small named _ plain cleans last =>
      obtain ⟨calm₁, within₁⟩ := calm.cleans cleans
      exact final calm₁ (within₁.mono ((chunkKeys_own key).trans (own_touched plain))) named last
  | chunk named _ _ last => exact final calm (Within.refl _ _ _) named last

theorem Laid.holds (laid : Laid json codec t name key value)
    (unflagged : flagged overflowFlag value = false) (faithful : json.Faithful value) :
    t.Holds json codec name key value := by
  rcases laid.written with newest | ⟨text, large, chunked⟩
  · refine Or.inl ⟨?_, unflagged⟩
    rw [stored_eq, newest]
    rfl
  · obtain ⟨text', written, read⟩ := faithful
    rw [largeText_dumps large, Option.some.injEq] at written
    exact Or.inr ⟨text, written ▸ read, chunked⟩

/-- A call that raises leaves what its key holds: a key that is too long holds nothing. -/
theorem Holds.raised {old : Value} {e : RouterError} (holds : s.Holds json codec name key old)
    (calm : s.Calm json tableFiles) (calm' : t.Calm json tableFiles) (faithful : json.Faithful value)
    (failed : packRecord json key value = .error e) : t.Holds json codec name key old := by
  rcases holds with ⟨stored, unflagged⟩ | ⟨text, _, chunked⟩
  · rw [calm.unwritten faithful failed] at stored
    exact Or.inl ⟨(calm'.unwritten faithful failed).trans stored, unflagged⟩
  · have stored := chunked.stored
    rw [calm.unwritten faithful failed] at stored
    cases stored

end

/-- A call of `set`; a deletion sets `None`. -/
structure SetCall where
  name : String
  key : String
  value : Value

/-- The key is not a chunk key, and the value is read back from its JSON and is no manifest. -/
structure SetCall.Proper (json : Json) (call : SetCall) : Prop where
  plain : isChunkKey call.key = false
  unflagged : flagged overflowFlag call.value = false
  faithful : json.Faithful call.value

def SetStep (json : Json) (codec : Codec) (s : Store)
    (call : SetCall × Except RouterError Unit) (t : Store) : Prop :=
  call.1.Proper json ∧ Sets json codec s call.1.name call.1.key call.1.value call.2 t

/-- The value of the last call for the key that has returned. -/
def lastSet (name key : String) (calls : List (SetCall × Except RouterError Unit)) : Value :=
  calls.foldl (fun last call =>
    match call.2 with
    | .ok () => if name = call.1.name ∧ key = call.1.key then call.1.value else last
    | .error _ => last) .null

/-- After every run of calls each key holds what was set last. -/
theorem run_holds {json : Json} {codec : Codec} {maxMemtableSize cacheCapacity : Nat}
    (limit : 0 < maxMemtableSize) (room : 0 < cacheCapacity)
    {calls : List (SetCall × Except RouterError Unit)} {s : Store}
    (run : Run (SetStep json codec) (fresh maxMemtableSize cacheCapacity) calls s) :
    s.Calm json (fun _ => File.empty) ∧ ∀ name key, isChunkKey key = false →
      s.Holds json codec name key (lastSet name key calls) := by
  generalize start : fresh maxMemtableSize cacheCapacity = s₀ at run
  induction run with
  | nil =>
      subst start
      exact ⟨(start_single maxMemtableSize cacheCapacity limit room).calm,
        fun name key _ => Or.inl ⟨rfl, rfl⟩⟩
  | @snoc s t earlier call _ step ih =>
      obtain ⟨calm, holds⟩ := ih
      obtain ⟨call, result⟩ := call
      obtain ⟨proper, sets⟩ := step
      obtain ⟨calm', touches, outcome⟩ := calm.sets sets
      have within := touches.mono (touched_own call.key)
      refine ⟨calm', fun name key plain => ?_⟩
      rw [lastSet, List.foldl_append, List.foldl_cons, List.foldl_nil, ← lastSet]
      have before := holds name key plain
      by_cases same : name = call.name ∧ key = call.key
      · rw [same.1, same.2] at before ⊢
        rcases outcome with ⟨rfl, _, _, laid⟩ | ⟨failed, ⟨_, rfl⟩ | ⟨e, unpacked⟩⟩
        · dsimp only
          rw [if_pos ⟨rfl, rfl⟩]
          exact laid.holds proper.unflagged proper.faithful
        · cases result with
          | ok done => exact absurd rfl failed
          | error e => exact before
        · cases result with
          | ok done => exact absurd rfl failed
          | error e => exact before.raised calm calm' proper.faithful unpacked
      · have kept := before.within proper.plain plain within same
        cases result with
        | ok done =>
            dsimp only
            rw [if_neg same]
            exact kept
        | error e => exact kept

end Store

end CachyDb
