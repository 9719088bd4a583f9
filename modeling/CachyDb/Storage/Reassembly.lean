import CachyDb.Storage.Regular

set_option autoImplicit false

/-! `Router.get`, which puts a large value together from its chunks. Whatever was set under
other keys and whatever the flushes have done, it gives back what was set last. -/

namespace CachyDb

open ByteString Transition

/-- `zlib.decompress`, and `base64.b64decode` of an encoded string. -/
structure Decoder where
  decompress : Bytes → Option Bytes
  b64decode : String → Option Bytes

structure Decoder.Inverts (decoder : Decoder) (codec : Codec) : Prop where
  decompress : ∀ bytes, decoder.decompress (codec.compress bytes) = some bytes
  b64decode : ∀ bytes, decoder.b64decode (codec.b64encode bytes) = some bytes

namespace Router

/-- The bytes of a chunk. What is no string has no `encode`. -/
def decodeChunk (decoder : Decoder) : Value → Option Bytes
  | .str text => decoder.b64decode text
  | _ => none

/-- The value whose manifest and chunks were read. -/
def assemble (json : Json) (decoder : Decoder) (value : Value) (chunks : List Bytes) : Option Value :=
  if flagged "compressed" value then (decoder.decompress chunks.flatten).bind json.loads
  else json.loads chunks.flatten

end Router

namespace Store

open Router

/-- `_get_internal`: after the cache has missed, the flushes go on until the lookup has the
lock of the table. -/
inductive Finds (json : Json) (s : Store) (name key : String) : Except RouterError Value → Store → Prop
  | hit {value : Value} : (s.router.getCached name key).1 = .ok (some value) →
      Finds json s name key (.ok value) { s with router := (s.router.getCached name key).2 }
  | raised {e : RouterError} : (s.router.getCached name key).1 = .error e →
      Finds json s name key (.error e) { s with router := (s.router.getCached name key).2 }
  | missed {t : Store} : (s.router.getCached name key).1 = .ok none →
      Waits json { s with router := (s.router.getCached name key).2 } t →
      Finds json s name key (t.router.getLocked json name key).1
        { t with router := (t.router.getLocked json name key).2 }

/-- The loop over the chunks. It gives nothing when one of them is missing, when a lookup
raises, or when a chunk cannot be decoded. -/
inductive Collects (json : Json) (decoder : Decoder) (name key : String) :
    Store → List Nat → Option (List Bytes) → Store → Prop
  | nil (s : Store) : Collects json decoder name key s [] (some []) s
  | raised {s t : Store} {i : Nat} {rest : List Nat} {e : RouterError} :
      Finds json s name (chunkKey key i) (.error e) t →
      Collects json decoder name key s (i :: rest) none t
  | undecoded {s t : Store} {i : Nat} {rest : List Nat} {value : Value} :
      Finds json s name (chunkKey key i) (.ok value) t → decodeChunk decoder value = none →
      Collects json decoder name key s (i :: rest) none t
  | next {s t u : Store} {i : Nat} {rest : List Nat} {value : Value} {chunk : Bytes}
      {chunks : Option (List Bytes)} :
      Finds json s name (chunkKey key i) (.ok value) t → decodeChunk decoder value = some chunk →
      Collects json decoder name key t rest chunks u →
      Collects json decoder name key s (i :: rest) (chunks.map (chunk :: ·)) u

/-- `Router.get`. What the reassembly raises is caught and gives `None`. -/
inductive Reads (json : Json) (decoder : Decoder) (s : Store) (name key : String) :
    Except RouterError Value → Store → Prop
  | unnamed : name = "" ∨ key = "" → Reads json decoder s name key (.error .emptyName) s
  | raised {t : Store} {e : RouterError} : ¬ (name = "" ∨ key = "") →
      Finds json s name key (.error e) t → Reads json decoder s name key (.error e) t
  | plain {t : Store} {value : Value} : ¬ (name = "" ∨ key = "") →
      Finds json s name key (.ok value) t → flagged overflowFlag value = false →
      Reads json decoder s name key (.ok value) t
  | malformed {t : Store} {value : Value} : ¬ (name = "" ∨ key = "") →
      Finds json s name key (.ok value) t → flagged overflowFlag value = true →
      overflowChunks value = none → Reads json decoder s name key (.ok .null) t
  | incomplete {t u : Store} {value : Value} {count : Nat} : ¬ (name = "" ∨ key = "") →
      Finds json s name key (.ok value) t → flagged overflowFlag value = true →
      overflowChunks value = some count →
      Collects json decoder name key t (List.range count) none u →
      Reads json decoder s name key (.ok .null) u
  | broken {t u : Store} {value : Value} {count : Nat} {chunks : List Bytes} :
      ¬ (name = "" ∨ key = "") → Finds json s name key (.ok value) t →
      flagged overflowFlag value = true → overflowChunks value = some count →
      Collects json decoder name key t (List.range count) (some chunks) u →
      assemble json decoder value chunks = none → Reads json decoder s name key (.ok .null) u
  | whole {t u v : Store} {value original : Value} {count : Nat} {chunks : List Bytes} :
      ¬ (name = "" ∨ key = "") → Finds json s name key (.ok value) t →
      flagged overflowFlag value = true → overflowChunks value = some count →
      Collects json decoder name key t (List.range count) (some chunks) u →
      assemble json decoder value chunks = some original → Waits json u v →
      Reads json decoder s name key
        (match (v.router.putCache name key original).1 with
          | .ok () => .ok original
          | .error _ => .ok .null)
        { v with router := (v.router.putCache name key original).2 }

/-- What a read makes of the chunks that its loop has collected. -/
def joined (json : Json) (decoder : Decoder) (found : Value) (chunks : Option (List Bytes)) : Value :=
  (chunks.bind (assemble json decoder found)).getD .null

/-- What a read gives that has found a value, with the chunks of its key. -/
def reading (json : Json) (decoder : Decoder) (chunk : Nat → Value) (found : Value) : Value :=
  if flagged overflowFlag found then
    match overflowChunks found with
    | none => .null
    | some count =>
        joined json decoder found ((List.range count).mapM fun i => decodeChunk decoder (chunk i))
  else found

theorem reading_unflagged {json : Json} {decoder : Decoder} {chunk : Nat → Value} {found : Value}
    (unflagged : flagged overflowFlag found = false) : reading json decoder chunk found = found := by
  unfold reading
  rw [unflagged]
  rfl

section

variable {json : Json} {codec : Codec} {decoder : Decoder} {tableFiles : String → File}
  {s t : Store} {name key : String}

/-- The last step of a lookup caches what it answers, and no other key. -/
theorem Calm.answered (calm : s.Calm json tableFiles) (name key : String) :
    ({ s with router := (s.router.getLocked json name key).2 } : Store).Calm json tableFiles ∧
      Within s { s with router := (s.router.getLocked json name key).2 } name {key} ∧
      ∀ held, ({ s with router := (s.router.getLocked json name key).2 } : Store).cached name key =
        some held → s.cached name key = some held ∨ (s.router.getLocked json name key).1 = .ok held := by
  refine ⟨calm.step (calm.locked name key),
    ⟨fun other otherKey _ => calm.sound.locked_newest name key other otherKey,
      fun other otherKey held outside known => ?_⟩, fun held known => ?_⟩
  · rcases calm.sound.locked_cached calm.room name key known with before | ⟨inside, _⟩
    · exact before
    · exact absurd inside outside
  · exact (calm.sound.locked_cached calm.room name key known).imp_right And.right

/-- The cache has no value for the key but these. -/
def Caches (s : Store) (name key : String) (values : Set Value) : Prop :=
  ∀ held, s.cached name key = some held → held ∈ values

/-- A lookup gives what is held, or what the cache has. -/
theorem Steady.finds (steady : s.Steady json tableFiles)
    (stocked : ∀ name, Stocked json (tableFiles name)) {values : Set Value}
    (caches : s.Caches name key values) (inside : s.value json tableFiles name key ∈ values)
    {result : Except RouterError Value} (finds : Finds json s name key result t) :
    t.Steady json tableFiles ∧ (∀ name key, t.newest name key = s.newest name key) ∧
      Within s t name {key} ∧ t.Caches name key values ∧ ∃ value ∈ values, result = .ok value := by
  obtain ⟨steady₁, still₁⟩ := steady.missed stocked name key
  have formed := steady.regular.sound.cache
  have caches₁ {u : Store} (still : Still s u) : u.Caches name key values :=
    fun held there => caches held (still.cached name key held there)
  cases finds with
  | @hit value found =>
      refine ⟨steady₁, still₁.newest, still₁.within name {key}, caches₁ still₁, value, ?_, rfl⟩
      rcases getCached_answer formed name key with missed | ⟨held, there, hit⟩
      · rw [missed] at found
        cases found
      · rw [hit, Except.ok.injEq, Option.some.injEq] at found
        exact found ▸ caches held there
  | raised failed =>
      rcases getCached_answer formed name key with missed | ⟨_, _, hit⟩
      · rw [missed] at failed
        cases failed
      · rw [hit] at failed
        cases failed
  | @missed u _ waits =>
      have still := still₁.trans (steady₁.calm.waits waits).2
      have steady₂ := steady₁.waits stocked waits
      obtain ⟨_, within₃, cached₃⟩ := steady₂.calm.answered name key
      have answer := steady₂.regular.answer stocked name key
      rw [value_congr still.newest] at answer
      refine ⟨steady₂.locked stocked name key, fun other otherKey => ?_,
        (still.within name {key}).trans within₃, fun held there => ?_, _, inside, answer⟩
      · rw [steady₂.regular.sound.locked_newest, still.newest]
      · rcases cached₃ held there with before | answered
        · exact caches₁ still held before
        · rw [answer, Except.ok.injEq] at answered
          exact answered ▸ inside

/-- A lookup ends even if no flush goes on meanwhile. -/
theorem Steady.lookup_ends (steady : s.Steady json tableFiles) (name key : String) :
    ∃ result t, Finds json s name key result t := by
  rcases getCached_answer steady.regular.sound.cache name key with missed | ⟨held, _, found⟩
  · exact ⟨_, _, .missed missed ⟨[], Run.nil _⟩⟩
  · exact ⟨_, _, .hit found⟩

/-- A lookup of the key can find nothing but what was written last. -/
def Shows (json : Json) (tableFiles : String → File) (s : Store) (name key : String) : Prop :=
  s.Caches name key {s.value json tableFiles name key}

theorem Fixed.value {value : Value} (fixed : s.Fixed name key value) :
    s.value json tableFiles name key = value := value_of_newest fixed.newest

theorem Fixed.shows {value : Value} (fixed : s.Fixed name key value) :
    Shows json tableFiles s name key := by
  intro held there
  rw [Set.mem_singleton_iff, fixed.cached held there, fixed.value]

/-- A lookup of one key keeps what lookups of other keys can find. -/
theorem Shows.keep {other : String} (shows : Shows json tableFiles s name other)
    (newest : ∀ name key, t.newest name key = s.newest name key) (within : Within s t name {key})
    (different : other ≠ key) : Shows json tableFiles t name other := by
  unfold Shows
  rw [value_congr newest]
  exact fun held there => shows held (within.cached name other held (fun same => different same.2) there)

/-- The loop gives what the chunks hold, or nothing. -/
theorem Steady.collects (steady : s.Steady json tableFiles)
    (stocked : ∀ name, Stocked json (tableFiles name)) {indices : List Nat}
    (shows : ∀ i ∈ indices, Shows json tableFiles s name (chunkKey key i))
    {result : Option (List Bytes)} (collects : Collects json decoder name key s indices result t) :
    t.Steady json tableFiles ∧
      result = indices.mapM fun i => decodeChunk decoder (s.value json tableFiles name (chunkKey key i)) := by
  induction collects with
  | nil s => exact ⟨steady, rfl⟩
  | raised finds =>
      obtain ⟨_, _, _, _, _, _, failed⟩ :=
        steady.finds stocked (shows _ List.mem_cons_self) rfl finds
      cases failed
  | undecoded finds failed =>
      obtain ⟨steady', _, _, _, _, rfl, found⟩ :=
        steady.finds stocked (shows _ List.mem_cons_self) rfl finds
      rw [Except.ok.inj found] at failed
      exact ⟨steady', by rw [List.mapM_cons, failed]; rfl⟩
  | @next s t u i rest value bytes chunks finds decoded _ ih =>
      obtain ⟨steady', newest, within, caches, _, rfl, found⟩ :=
        steady.finds stocked (shows i List.mem_cons_self) rfl finds
      rw [Except.ok.inj found] at decoded
      have shows' : ∀ j ∈ rest, Shows json tableFiles t name (chunkKey key j) := by
        intro j member
        by_cases same : chunkKey key j = chunkKey key i
        · rw [same, Shows, value_congr newest]
          exact caches
        · exact (shows j (List.mem_cons_of_mem _ member)).keep newest within same
      obtain ⟨steady'', rfl⟩ := ih steady' shows'
      refine ⟨steady'', ?_⟩
      rw [List.mapM_cons, decoded, value_congr newest]
      cases rest.mapM fun i => decodeChunk decoder (s.value json tableFiles name (chunkKey key i)) <;> rfl

theorem Steady.loop_ends (steady : s.Steady json tableFiles)
    (stocked : ∀ name, Stocked json (tableFiles name)) {indices : List Nat}
    (shows : ∀ i ∈ indices, Shows json tableFiles s name (chunkKey key i)) :
    ∃ result t, Collects json decoder name key s indices result t := by
  induction indices generalizing s with
  | nil => exact ⟨_, s, .nil s⟩
  | cons i rest ih =>
      obtain ⟨result, t, finds⟩ := steady.lookup_ends name (chunkKey key i)
      obtain ⟨steady', newest, within, caches, value, rfl, rfl⟩ :=
        steady.finds stocked (shows i List.mem_cons_self) rfl finds
      have shows' : ∀ j ∈ rest, Shows json tableFiles t name (chunkKey key j) := by
        intro j member
        by_cases same : chunkKey key j = chunkKey key i
        · rw [same, Shows, value_congr newest]
          exact caches
        · exact (shows j (List.mem_cons_of_mem _ member)).keep newest within same
      cases decoded : decodeChunk decoder (s.value json tableFiles name (chunkKey key i)) with
      | none => exact ⟨_, t, .undecoded finds decoded⟩
      | some chunk =>
          obtain ⟨later, u, collects⟩ := ih steady' shows'
          exact ⟨_, u, .next finds decoded collects⟩

theorem ne_chunkKey_self (key : String) (i : Nat) : chunkKey key i ≠ key := by
  intro same
  have lengths := congrArg (fun s : String => s.toList.length) same
  simp [chunkKey] at lengths
  omega

/-- A read ends, and gives what the values that it can find come to, if they come to the same. -/
theorem Steady.reads (steady : s.Steady json tableFiles)
    (stocked : ∀ name, Stocked json (tableFiles name)) (named : ¬ (name = "" ∨ key = ""))
    {values : Set Value} (caches : s.Caches name key values)
    (inside : s.value json tableFiles name key ∈ values)
    (shows : ∀ found ∈ values, flagged overflowFlag found = true → ∀ count,
      overflowChunks found = some count → ∀ i < count, Shows json tableFiles s name (chunkKey key i))
    {answer : Value} (same : ∀ found ∈ values, reading json decoder
      (fun i => s.value json tableFiles name (chunkKey key i)) found = answer) :
    (∃ t, Reads json decoder s name key (.ok answer) t) ∧
      ∀ result t, Reads json decoder s name key result t → result = .ok answer := by
  -- the chunks that the loop finds, when the lookup has found a manifest
  have loop {found : Value} {t : Store} {count : Nat} (finds : Finds json s name key (.ok found) t)
      (flag : flagged overflowFlag found = true) (counted : overflowChunks found = some count) :
      t.Steady json tableFiles ∧
        (∀ i ∈ List.range count, Shows json tableFiles t name (chunkKey key i)) ∧
        answer = joined json decoder found ((List.range count).mapM fun i =>
          decodeChunk decoder (t.value json tableFiles name (chunkKey key i))) := by
    obtain ⟨steady', newest, within, _, value, member, equal⟩ :=
      steady.finds stocked caches inside finds
    cases equal
    refine ⟨steady', fun i below => ?_, ?_⟩
    · exact (shows found member flag count counted i (List.mem_range.mp below)).keep newest within
        (ne_chunkKey_self key i)
    · rw [← same found member, reading, if_pos flag, counted, value_congr newest]
  have only {found : Value} {t : Store} (finds : Finds json s name key (.ok found) t)
      (unflagged : flagged overflowFlag found = false) : found = answer := by
    obtain ⟨_, _, _, _, value, member, equal⟩ := steady.finds stocked caches inside finds
    cases equal
    rw [← same found member, reading_unflagged unflagged]
  constructor
  · obtain ⟨result, t, finds⟩ := steady.lookup_ends name key
    obtain ⟨_, _, _, _, found, member, rfl⟩ := steady.finds stocked caches inside finds
    cases flag : flagged overflowFlag found with
    | false => exact ⟨t, only finds flag ▸ .plain named finds flag⟩
    | true =>
        cases counted : overflowChunks found with
        | none =>
            have null := same found member
            rw [reading, if_pos flag, counted] at null
            exact ⟨t, null ▸ .malformed named finds flag counted⟩
        | some count =>
            obtain ⟨steady', shows', comes⟩ := loop finds flag counted
            obtain ⟨chunks, u, collects⟩ :=
              @Steady.loop_ends json decoder tableFiles t name key steady' stocked _ shows'
            obtain ⟨steady'', equal⟩ := steady'.collects stocked shows' collects
            rw [← equal] at comes
            cases chunks with
            | none => exact ⟨u, comes ▸ .incomplete named finds flag counted collects⟩
            | some chunks =>
                rw [joined, Option.bind_some] at comes
                cases assembled : assemble json decoder found chunks with
                | none =>
                    rw [assembled] at comes
                    exact ⟨u, comes ▸ .broken named finds flag counted collects assembled⟩
                | some original =>
                    rw [assembled] at comes
                    have reads := Reads.whole named finds flag counted collects assembled
                      ⟨[], Run.nil u⟩
                    rw [(recalled_alike steady''.regular.sound.cache name key original).1] at reads
                    rw [comes]
                    exact ⟨_, reads⟩
  · intro result t reads
    have kept {count : Nat} {found : Value} {t u : Store} {chunks : Option (List Bytes)}
        (finds : Finds json s name key (.ok found) t) (flag : flagged overflowFlag found = true)
        (counted : overflowChunks found = some count)
        (collects : Collects json decoder name key t (List.range count) chunks u) :
        u.Steady json tableFiles ∧ answer = joined json decoder found chunks := by
      obtain ⟨steady', shows', comes⟩ := loop finds flag counted
      obtain ⟨steady'', equal⟩ := steady'.collects stocked shows' collects
      exact ⟨steady'', equal ▸ comes⟩
    cases reads with
    | unnamed empty => exact absurd empty named
    | raised _ finds =>
        obtain ⟨_, _, _, _, _, _, failed⟩ := steady.finds stocked caches inside finds
        cases failed
    | plain _ finds unflagged => rw [only finds unflagged]
    | malformed _ finds flag uncounted =>
        obtain ⟨_, _, _, _, value, member, equal⟩ := steady.finds stocked caches inside finds
        cases equal
        rw [← same _ member, reading, if_pos flag, uncounted]
    | incomplete _ finds flag counted collects =>
        rw [(kept finds flag counted collects).2]
        rfl
    | broken _ finds flag counted collects failed =>
        rw [(kept finds flag counted collects).2, joined, Option.bind_some, failed]
        rfl
    | whole _ finds flag counted collects assembled waits =>
        obtain ⟨steady', comes⟩ := kept finds flag counted collects
        rw [(recalled_alike (steady'.waits stocked waits).regular.sound.cache name key _).1, comes,
          joined, Option.bind_some, assembled]
        rfl

theorem mapM_congr {chunks chunks' : Nat → Option Bytes} {indices : List Nat}
    (same : ∀ i ∈ indices, chunks i = chunks' i) : indices.mapM chunks = indices.mapM chunks' := by
  induction indices with
  | nil => rfl
  | cons i rest ih =>
      rw [List.mapM_cons, List.mapM_cons, same i List.mem_cons_self,
        ih fun j member => same j (List.mem_cons_of_mem _ member)]

theorem mapM_some (chunk : Nat → Bytes) (indices : List Nat) :
    (indices.mapM fun i => some (chunk i)) = some (indices.map chunk) := by
  induction indices with
  | nil => rfl
  | cons i rest ih =>
      rw [List.mapM_cons, ih]
      rfl

/-- The chunks of a manifest make up its value. -/
theorem reading_whole (inverts : decoder.Inverts codec) {text : Bytes} {chunkAt : Nat → Value}
    (chunks : ∀ (i : Nat) (chunk : Bytes), (cutChunks (codec.compress text))[i]? = some chunk →
      chunkAt i = .str (codec.b64encode chunk)) {value : Value} (loads : json.loads text = some value) :
    reading json decoder chunkAt (manifest (cutChunks (codec.compress text)).length text.length) =
      value := by
  have decoded : ((List.range (cutChunks (codec.compress text)).length).mapM fun i =>
      decodeChunk decoder (chunkAt i)) = some (cutChunks (codec.compress text)) := by
    have each : ∀ i ∈ List.range (cutChunks (codec.compress text)).length,
        decodeChunk decoder (chunkAt i) = some ((cutChunks (codec.compress text))[i]?.getD []) := by
      intro i inside
      have there := List.getElem?_eq_getElem (List.mem_range.mp inside)
      rw [chunks i _ there, there]
      exact inverts.b64decode _
    rw [mapM_congr each, mapM_some]
    congr 1
    apply List.ext_getElem
    · simp
    · intro i _ inside
      simp [inside]
  rw [reading, if_pos (flagged_manifest _ _).1, overflowChunks_manifest]
  dsimp only
  rw [decoded, joined, Option.bind_some, assemble, if_pos (flagged_manifest _ _).2, flatten_cutChunks,
    inverts.decompress, Option.bind_some, loads]
  rfl

/-- The chunks that are held make up the value. -/
theorem Chunked.reading (inverts : decoder.Inverts codec) {text : Bytes}
    (chunked : s.Chunked codec name key text) {value : Value} (loads : json.loads text = some value) :
    Store.reading json decoder (fun i => s.value json tableFiles name (chunkKey key i))
      (Router.manifest (cutChunks (codec.compress text)).length text.length) = value :=
  reading_whole inverts (fun i chunk there => (chunked.chunks i chunk there).value) loads

end

/-- All entries have left the cache. -/
structure Evicted (before after : Cache (String × String) Value) : Prop where
  formed : after.WellFormed
  capacity : after.capacity = before.capacity
  empty : ∀ key, after.cache.lookup key = none

theorem run_steady {json : Json} {codec : Codec} {maxMemtableSize cacheCapacity : Nat}
    (limit : 0 < maxMemtableSize) (room : 0 < cacheCapacity)
    {calls : List (SetCall × Except RouterError Unit)} {s : Store}
    (run : Run (SetStep json codec) (fresh maxMemtableSize cacheCapacity) calls s) :
    s.Steady json fun _ => File.empty := by
  have stocked (_ : String) : Stocked json File.empty := empty_stocked json
  apply run.preserves (start_steady _ stocked limit room)
  exact fun _ _ _ steady step => steady.sets stocked step.2

/-- After every run of calls of `set` a read whose cache is empty gives the value that was set
last, and the keys of the chunks belong to one key each. -/
theorem get_returns_last_set (json : Json) (codec : Codec) (decoder : Decoder)
    (inverts : decoder.Inverts codec) {maxMemtableSize cacheCapacity : Nat}
    (limit : 0 < maxMemtableSize) (room : 0 < cacheCapacity)
    {calls : List (SetCall × Except RouterError Unit)} {s : Store}
    (run : Run (SetStep json codec) (fresh maxMemtableSize cacheCapacity) calls s)
    {cache : Cache (String × String) Value} (evicted : Evicted s.router.cache cache)
    {name key : String} (named : name ≠ "") (keyed : key ≠ "") (plain : isChunkKey key = false) :
    (∃ t, Reads json decoder (s.withCache cache) name key (.ok (lastSet name key calls)) t) ∧
      (∀ result t, Reads json decoder (s.withCache cache) name key result t →
        result = .ok (lastSet name key calls)) ∧
      ∀ other i j, key ≠ chunkKey other i ∧
        (chunkKey key i = chunkKey other j → key = other ∧ i = j) := by
  have stocked (_ : String) : Stocked json File.empty := empty_stocked json
  have uncached (other otherKey : String) : (s.withCache cache).cached other otherKey = none :=
    evicted.empty (other, otherKey)
  have caches (otherKey : String) (values : Set Value) :
      (s.withCache cache).Caches name otherKey values := by
    intro held there
    rw [uncached] at there
    cases there
  have still : Still s (s.withCache cache) :=
    ⟨fun _ _ => rfl, fun other otherKey held there => by rw [uncached] at there; cases there⟩
  have steady := (run_steady limit room run).evict stocked ⟨evicted.formed, evicted.capacity,
    fun other held there => by rw [evicted.empty] at there; cases there⟩
  have stored : (s.withCache cache).value json (fun _ => File.empty) name key = s.stored name key := by
    rw [value_stored firstIndex_empty, still.stored]
  have same : ∀ found ∈ ({s.stored name key} : Set Value), reading json decoder (fun i =>
      (s.withCache cache).value json (fun _ => File.empty) name (chunkKey key i)) found =
        lastSet name key calls := by
    rintro found rfl
    rcases (run_holds limit room run).2 name key plain with ⟨same, unflagged⟩ | ⟨text, loads, chunked⟩
    · rw [same, reading_unflagged unflagged]
    · rw [chunked.stored]
      exact (chunked.still still).reading inverts loads
  obtain ⟨ends, gives⟩ := steady.reads stocked (not_or.mpr ⟨named, keyed⟩) (caches key _) stored
    (fun _ _ _ _ _ _ _ => caches _ _) same
  exact ⟨ends, gives, fun other i j => ⟨ne_chunkKey plain other i, chunkKey_injective⟩⟩

def longValue : Value := .str (String.ofList (List.replicate 2001 'x'))

def longText : Bytes := 0x22 :: (List.replicate 2001 0x78 ++ [0x22])

/-- What zlib makes of the text, and base64 of that. -/
def longCompressed : Bytes := [120, 156, 83, 170, 24, 5, 163, 96, 20, 140, 130, 81, 48, 10, 70, 193,
  208, 7, 74, 0, 45, 226, 170, 106]

def longEncoded : String := "eJxTqhgFo2AUjIJRMApGwdAHSgAt4qpq"

/-- zlib and base64 as far as the example needs them. -/
def longCodec : Codec where
  compress bytes := if bytes = longText then longCompressed else 0 :: bytes
  b64encode bytes :=
    if bytes = longCompressed then longEncoded
    else "#" ++ String.ofList (bytes.map Char.ofUInt8)
  compress_ne_nil bytes := by split <;> simp [longCompressed]

def longDecoder : Decoder where
  decompress
    | 0 :: bytes => some bytes
    | bytes => if bytes = longCompressed then some longText else none
  b64decode text :=
    if text = longEncoded then some longCompressed
    else some ((text.toList.drop 1).map Char.toUInt8)

theorem longDecoder_inverts : longDecoder.Inverts longCodec := by
  constructor
  · intro bytes
    show longDecoder.decompress (if bytes = longText then longCompressed else 0 :: bytes) = some bytes
    split
    · rename_i same
      rw [same]
      rfl
    · rfl
  · intro bytes
    show longDecoder.b64decode (if bytes = longCompressed then longEncoded
      else "#" ++ String.ofList (bytes.map Char.ofUInt8)) = some bytes
    split
    · rename_i same
      rw [same]
      rfl
    · have other : "#" ++ String.ofList (bytes.map Char.ofUInt8) ≠ longEncoded := by
        intro same
        have first := congrArg (fun s : String => s.toList.head?) same
        rw [String.toList_append] at first
        cases first
      have byte : Char.toUInt8 ∘ Char.ofUInt8 = id := by
        funext b
        exact UInt8.toUInt8_toUInt32 b
      unfold longDecoder
      dsimp only
      rw [if_neg other, String.toList_append]
      simp [byte]

def isIdle (s : Store) : Bool :=
  match s.clients 0 with
  | .idle => true
  | _ => false

theorem isIdle_iff (s : Store) : s.isIdle = true ↔ s.clients 0 = .idle := by
  unfold isIdle
  split <;> simp_all

set_option maxRecDepth 100000 in
/-- A value in one chunk, overwritten by a small one: the chunk gets a tombstone, then the manifest
gives way to the value. -/
theorem get_returns_overwritten : ∃ s, Run (SetStep manifestJson longCodec) (fresh 100 10)
    [(⟨"t", "k", longValue⟩, .ok ()), (⟨"t", "k", .str "x"⟩, .ok ())] s ∧
      ∃ t, Reads manifestJson longDecoder (s.withCache (Cache.init 10)) "t" "k" (.ok (.str "x")) t := by
  have large : largeText manifestJson "k" longValue = some longText := by decide +kernel
  have absent : overflowChunks ((fresh 100 10).router.getRawManifest manifestJson "t" "k").1 = none := by
    decide +kernel
  have size : longText.length = 2003 := by decide +kernel
  have cut : cutChunks (longCodec.compress longText) = [longCompressed] := by decide +kernel
  have outcome : ((((fresh 100 10).lookedUp manifestJson "t" "k").perform manifestJson
      (.set 0 "t" (chunkKey "k" 0) (.str longEncoded))).bind fun s₂ =>
        (s₂.perform manifestJson (.set 0 "t" "k" (manifest 1 2003))).bind fun s₃ =>
        (((s₃.recalled "t" "k" longValue).lookedUp manifestJson "t" "k").perform manifestJson
          (.set 0 "t" (chunkKey "k" 0) .null)).bind fun s₅ =>
        (s₅.perform manifestJson (.set 0 "t" "k" (.str "x"))).map fun s₆ =>
          (s₂.isIdle && s₃.isIdle && s₅.isIdle && s₆.isIdle,
            overflowChunks ((s₃.recalled "t" "k" longValue).router.getRawManifest
              manifestJson "t" "k").1, s₆.router.cache.capacity)) = some (true, some 1, 10) := by
    decide +kernel
  obtain ⟨s₂, chunked, outcome⟩ := Option.bind_eq_some_iff.mp outcome
  obtain ⟨s₃, listed, outcome⟩ := Option.bind_eq_some_iff.mp outcome
  obtain ⟨s₅, cleaned, outcome⟩ := Option.bind_eq_some_iff.mp outcome
  obtain ⟨s₆, replaced, outcome⟩ := Option.map_eq_some_iff.mp outcome
  simp only [Prod.mk.injEq, Bool.and_eq_true] at outcome
  obtain ⟨⟨⟨⟨idle₂, idle₃⟩, idle₅⟩, idle₆⟩, old, capacity⟩ := outcome
  have start : (fresh 100 10).Calm manifestJson fun _ => File.empty :=
    (start_single 100 10 (by decide) (by decide)).calm
  -- the large value
  obtain ⟨calm₁, _⟩ := start.lookedUp "t" "k"
  have calm₂ := calm₁.step (calm₁.setStep (manifestJson_string longEncoded) chunked)
  have chunks : SetsEach manifestJson "t" ((fresh 100 10).lookedUp manifestJson "t" "k")
      (chunkRecords longCodec "k" (cutChunks (longCodec.compress longText))) (.ok ()) s₂ := by
    rw [cut]
    exact .next (calm₁.setsInternal_ends (manifestJson_string longEncoded) chunked
      ((isIdle_iff s₂).mp idle₂)) (.nil s₂)
  have manifest : SetsInternal manifestJson s₂ "t" "k"
      (Router.manifest (cutChunks (longCodec.compress longText)).length longText.length)
      (.ok ()) s₃ := by
    rw [cut, size]
    exact calm₂.setsInternal_ends (manifestJson_faithful 1 2003) listed ((isIdle_iff s₃).mp idle₃)
  have calm₃ := calm₂.step (calm₂.setStep (manifestJson_faithful 1 2003) listed)
  have writes : WritesLarge manifestJson longCodec _ "t" "k" longValue longText _ _ :=
    .written chunks manifest ⟨[], Run.nil s₃⟩
  rw [(recalled_alike calm₃.sound.cache "t" "k" longValue).1] at writes
  have properLong : SetCall.Proper manifestJson ⟨"t", "k", longValue⟩ :=
    ⟨by decide, rfl, manifestJson_string _⟩
  have first : Sets manifestJson longCodec (fresh 100 10) "t" "k" longValue (.ok ())
      (s₃.recalled "t" "k" longValue) :=
    .large (by decide) large (.absent ⟨[], Run.nil _⟩ absent) writes
  -- the small one
  obtain ⟨calm₄, _⟩ := start.sets first
  obtain ⟨calm₄', _⟩ := calm₄.lookedUp "t" "k"
  have tombstones : SetsInternal manifestJson _ "t" (chunkKey "k" 0) .null (.ok ()) s₅ :=
    calm₄'.setsInternal_ends manifestJson.faithful_null cleaned ((isIdle_iff s₅).mp idle₅)
  have calm₅ := calm₄'.step (calm₄'.setStep manifestJson.faithful_null cleaned)
  have last : SetsInternal manifestJson s₅ "t" "k" (.str "x") (.ok ()) s₆ :=
    calm₅.setsInternal_ends (manifestJson_string "x") replaced ((isIdle_iff s₆).mp idle₆)
  have second : Sets manifestJson longCodec (s₃.recalled "t" "k" longValue) "t" "k" (.str "x")
      (.ok ()) s₆ :=
    .small (by decide) (by decide) (by decide)
      (.cleaned ⟨[], Run.nil _⟩ old (.next tombstones (.nil s₅))) last
  have properSmall : SetCall.Proper manifestJson ⟨"t", "k", .str "x"⟩ :=
    ⟨by decide, rfl, manifestJson_string _⟩
  have run : Run (SetStep manifestJson longCodec) (fresh 100 10)
      [(⟨"t", "k", longValue⟩, .ok ()), (⟨"t", "k", .str "x"⟩, .ok ())] s₆ :=
    .snoc (.snoc (.nil _) ⟨properLong, first⟩) ⟨properSmall, second⟩
  exact ⟨s₆, run, (get_returns_last_set manifestJson longCodec longDecoder
    longDecoder_inverts (by decide) (by decide) run
    ⟨Cache.init_wellFormed 10, capacity.symm, fun _ => rfl⟩
    (by decide) (by decide) (by decide)).1⟩

end Store

end CachyDb
