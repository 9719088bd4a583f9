import CachyDb.Storage.Room

set_option autoImplicit false

/-! A `set` of a key that holds a large value, as a read sees it that comes between two of its
writes. -/

namespace CachyDb.Store

open ByteString Router Transition

/-- Between two calls of `_set_internal` of one `set`: among the tombstones or behind them, among
the chunks or before the manifest, and before the value that is written as it is because its
chunks were not. -/
inductive Pauses (json : Json) (codec : Codec) (s : Store) (name key : String) (value : Value) :
    Store → Prop
  | cleaning {s₁ u : Store} {count : Nat} {front back : List (String × Value)} :
      ¬ (name = "" ∨ key = "") → isChunkKey key = false → Waits json s s₁ →
      overflowChunks (s₁.router.getRawManifest json name key).1 = some count →
      front ++ back = tombstones key count → front ≠ [] →
      SetsEach json name (s₁.lookedUp json name key) front (.ok ()) u →
      Pauses json codec s name key value u
  | chunking {s₁ u : Store} {text : Bytes} {front back : List (String × Value)} :
      ¬ (name = "" ∨ key = "") → largeText json key value = some text → Cleans json s name key s₁ →
      front ++ back = chunkRecords codec key (cutChunks (codec.compress text)) → front ≠ [] →
      SetsEach json name s₁ front (.ok ()) u → Pauses json codec s name key value u
  | uncut {s₁ u : Store} {text : Bytes} {e : RouterError} :
      ¬ (name = "" ∨ key = "") → largeText json key value = some text → Cleans json s name key s₁ →
      WritesLarge json codec s₁ name key value text (.error e) u →
      Pauses json codec s name key value u

/-- The tables hold the manifest of a text and all the chunks it counts, in the memtables or on
file. -/
structure InChunks (json : Json) (codec : Codec) (tableFiles : String → File) (s : Store)
    (name key : String) (text : Bytes) : Prop where
  manifest : s.value json tableFiles name key =
    Router.manifest (cutChunks (codec.compress text)).length text.length
  chunks : ∀ (i : Nat) (chunk : Bytes), (cutChunks (codec.compress text))[i]? = some chunk →
    s.value json tableFiles name (chunkKey key i) = .str (codec.b64encode chunk)

section

variable {json : Json} {codec : Codec} {decoder : Decoder} {tableFiles : String → File}
  {s s₁ t u : Store} {name key : String} {old new : Value} {text : Bytes} {count size : Nat}

/-- What a `set` has written and cut, they hold. -/
theorem Chunked.inChunks (chunked : s.Chunked codec name key text) :
    InChunks json codec tableFiles s name key text :=
  ⟨value_of_newest chunked.manifest, fun i chunk cut => (chunked.chunks i chunk cut).value⟩

theorem Still.value (still : Still s t) (name key : String) :
    t.value json tableFiles name key = s.value json tableFiles name key := by
  simp only [Store.value, still.newest]

theorem InChunks.still (holds : InChunks json codec tableFiles s name key text) (still : Still s t) :
    InChunks json codec tableFiles t name key text :=
  ⟨(still.value name key).trans holds.manifest,
    fun i chunk cut => (still.value name _).trans (holds.chunks i chunk cut)⟩

theorem chunks_pos (codec : Codec) (text : Bytes) : 0 < (cutChunks (codec.compress text)).length := by
  obtain ⟨first, rest, cut⟩ := cutChunks_ne_nil (codec.compress_ne_nil text)
  rw [cut]
  exact Nat.zero_lt_succ _

/-- The first tombstone of a manifest. -/
theorem tombstones_first (key : String) (positive : 0 < count) :
    ∃ rest, tombstones key count = (chunkKey key 0, .null) :: rest := by
  obtain ⟨n, rfl⟩ := Nat.exists_eq_add_one.mpr positive
  exact ⟨_, by rw [tombstones, List.range_succ_eq_map, List.map_cons]⟩

theorem reading_first_missing {chunk : Nat → Value} (positive : 0 < count)
    (missing : chunk 0 = .null) : reading json decoder chunk (manifest count size) = .null := by
  obtain ⟨n, rfl⟩ := Nat.exists_eq_add_one.mpr positive
  have undecoded : decodeChunk decoder (chunk 0) = none := by
    rw [missing]
    rfl
  have none_read : ((List.range (n + 1)).mapM fun i => decodeChunk decoder (chunk i)) = none := by
    rw [List.range_succ_eq_map, List.mapM_cons, undecoded]
    rfl
  rw [reading, if_pos (flagged_manifest _ _).1, overflowChunks_manifest]
  dsimp only
  rw [none_read]
  rfl

/-- A manifest without its first chunk reads as `None`. -/
theorem Steady.reads_unchunked (steady : u.Steady json tableFiles)
    (stocked : ∀ name, Stocked json (tableFiles name)) (named : ¬ (name = "" ∨ key = ""))
    (positive : 0 < count) (listed : u.value json tableFiles name key = manifest count size)
    (gone : u.Fixed name (chunkKey key 0) .null) {cache : Cache (String × String) Value}
    (evicted : Evicted u.router.cache cache) :
    (∃ t, Reads json decoder (u.withCache cache) name key (.ok .null) t) ∧
      ∀ result t, Reads json decoder (u.withCache cache) name key result t → result = .ok .null := by
  have caches (otherKey : String) (values : Set Value) :
      (u.withCache cache).Caches name otherKey values := by
    intro held there
    have empty : (u.withCache cache).cached name otherKey = none := evicted.empty (name, otherKey)
    rw [empty] at there
    cases there
  have steady' := steady.evict stocked ⟨evicted.formed, evicted.capacity, fun other held there => by
    rw [evicted.empty] at there
    cases there⟩
  have missing : (u.withCache cache).value json tableFiles name (chunkKey key 0) = .null :=
    value_of_newest gone.newest
  refine steady'.reads stocked named (caches key {manifest count size}) listed
    (fun _ _ _ _ _ _ _ => caches _ _) ?_
  rintro found rfl
  exact reading_first_missing positive missing

/-- The old manifest and its chunks, as the clean-up meets them. -/
theorem Steady.meets (steady : s.Steady json tableFiles)
    (stocked : ∀ name, Stocked json (tableFiles name)) (holds : InChunks json codec tableFiles s name key text)
    (waits : Waits json s s₁) :
    (s₁.lookedUp json name key).Steady json tableFiles ∧
      InChunks json codec tableFiles (s₁.lookedUp json name key) name key text ∧
      overflowChunks (s₁.router.getRawManifest json name key).1 =
        some (cutChunks (codec.compress text)).length := by
  have steady₁ := steady.waits stocked waits
  have holds₁ := holds.still (steady.calm.waits waits).2
  refine ⟨steady₁.lookedUp stocked name key, holds₁.still (steady₁.calm.lookedUp name key).2, ?_⟩
  rw [steady₁.oldValue stocked, holds₁.manifest, overflowChunks_manifest]

/-- Among the tombstones a read gives `None` already. -/
theorem Steady.reads_cleaning (steady : s.Steady json tableFiles)
    (stocked : ∀ name, Stocked json (tableFiles name)) (named : ¬ (name = "" ∨ key = ""))
    (plain : isChunkKey key = false) (holds : InChunks json codec tableFiles s name key text)
    {front back : List (String × Value)}
    (split : front ++ back = tombstones key (cutChunks (codec.compress text)).length)
    (nonempty : front ≠ []) (sets : SetsEach json name s front (.ok ()) u)
    {cache : Cache (String × String) Value} (evicted : Evicted u.router.cache cache) :
    (∃ t, Reads json decoder (u.withCache cache) name key (.ok .null) t) ∧
      ∀ result t, Reads json decoder (u.withCache cache) name key result t → result = .ok .null := by
  have positive := chunks_pos codec text
  obtain ⟨rest, first⟩ := tombstones_first key positive
  obtain ⟨record, front', rfl⟩ := List.exists_cons_of_ne_nil nonempty
  obtain ⟨rfl, _⟩ := List.cons.inj (split.trans first)
  obtain ⟨calm', within, fixed⟩ := steady.calm.setsEach sets
  have steady' := steady.passes stocked (steady.calm.setsEach_passes sets) calm'
  have sub : ∀ record ∈ (chunkKey key 0, Value.null) :: front',
      record ∈ tombstones key (cutChunks (codec.compress text)).length := by
    intro record member
    rw [← split]
    exact List.mem_append_left _ member
  have nodup : (((chunkKey key 0, Value.null) :: front').map Prod.fst).Nodup := by
    have all : ((tombstones key (cutChunks (codec.compress text)).length).map Prod.fst).Nodup := by
      rw [tombstones, List.map_map]
      exact List.nodup_range.map fun i j same => (chunkKey_injective same).2
    rw [← split, List.map_append] at all
    exact (List.nodup_append.mp all).1
  have outside : ¬ (name = name ∧ key ∈ {key | key ∈ ((chunkKey key 0, Value.null) :: front').map
      Prod.fst}) := by
    rintro ⟨_, member⟩
    obtain ⟨record, inside, same⟩ := List.mem_map.mp member
    obtain ⟨i, _, rfl⟩ := List.mem_map.mp (sub record inside)
    exact ne_chunkKey plain key i same.symm
  have listed : u.value json tableFiles name key =
      manifest (cutChunks (codec.compress text)).length text.length := by
    rw [value, within.newest name key outside]
    exact holds.manifest
  exact steady'.reads_unchunked stocked named positive listed
    (fixed rfl nodup _ List.mem_cons_self) evicted

/-- The chunks that the tables hold have keys that a tombstone can be packed with. -/
theorem InChunks.cleared (holds : InChunks json codec tableFiles s name key text)
    (stocked : ∀ name, Stocked json (tableFiles name)) (calm : s.Calm json tableFiles)
    {e : RouterError} : packRecord json (chunkKey key 0) .null ≠ .error e := by
  intro failed
  obtain ⟨first, rest, cut⟩ := cutChunks_ne_nil (codec.compress_ne_nil text)
  have there := holds.chunks 0 first (by rw [cut]; rfl)
  have long : maxKeyBytes < (encodeKey (chunkKey key 0)).length := by
    by_contra short
    rw [packRecord, if_neg short, json.dumps_null] at failed
    cases failed
  unfold value at there
  split at there
  · rename_i e newest
    obtain ⟨member, same⟩ := latest_mem newest
    obtain ⟨_, _, short, _⟩ := packRecord_ok (calm.sound.packed name e member)
    rw [same] at short
    omega
  · rw [original_long stocked long] at there
    cases there

/-- Behind every pause lies the one after the first tombstone. -/
theorem Steady.pauses_first (steady : s.Steady json tableFiles)
    (stocked : ∀ name, Stocked json (tableFiles name))
    (holds : InChunks json codec tableFiles s name key text) (paused : Pauses json codec s name key new u) :
    ∃ s₁ v, Waits json s s₁ ∧
      SetsEach json name (s₁.lookedUp json name key) [(chunkKey key 0, .null)] (.ok ()) v := by
  have named : ¬ (name = "" ∨ key = "") := by
    cases paused <;> assumption
  -- the first step of the tombstones, however far the clean-up gets
  have begins {s₁ : Store} {result : Except RouterError Unit} {records : List (String × Value)} {v : Store}
      (waits : Waits json s s₁)
      (sets : SetsEach json name (s₁.lookedUp json name key) ((chunkKey key 0, .null) :: records) result v) :
      ∃ s₁ v, Waits json s s₁ ∧
        SetsEach json name (s₁.lookedUp json name key) [(chunkKey key 0, .null)] (.ok ()) v := by
    obtain ⟨steady₁, holds₁, _⟩ := steady.meets stocked holds waits
    cases sets with
    | next first _ => exact ⟨s₁, _, waits, .next first (.nil _)⟩
    | raised failed =>
        obtain ⟨_, ⟨ok, _⟩ | ⟨_, _, unnamed | ⟨e, unpacked⟩⟩⟩ := steady₁.calm.setsInternal failed
        · cases ok
        · exact absurd unnamed (not_or.mpr ⟨(not_or.mp named).1, chunkKey_ne_empty key 0⟩)
        · exact absurd unpacked (holds₁.cleared stocked steady₁.calm)
  have cleaned {s₁ : Store} (cleans : Cleans json s name key s₁) :
      ∃ s₁ v, Waits json s s₁ ∧
        SetsEach json name (s₁.lookedUp json name key) [(chunkKey key 0, .null)] (.ok ()) v := by
    cases cleans with
    | absent waits uncounted =>
        rw [(steady.meets stocked holds waits).2.2] at uncounted
        cases uncounted
    | cleaned waits counted sets =>
        rw [(steady.meets stocked holds waits).2.2, Option.some.injEq] at counted
        obtain ⟨rest, first⟩ := tombstones_first key (counted ▸ chunks_pos codec text)
        rw [first] at sets
        exact begins waits sets
  cases paused with
  | chunking _ _ cleans _ _ _ => exact cleaned cleans
  | uncut _ _ cleans _ => exact cleaned cleans
  | cleaning _ _ waits counted split nonempty sets =>
      rw [(steady.meets stocked holds waits).2.2, Option.some.injEq] at counted
      obtain ⟨rest, first⟩ := tombstones_first key (counted ▸ chunks_pos codec text)
      obtain ⟨record, front, rfl⟩ := List.exists_cons_of_ne_nil nonempty
      obtain ⟨rfl, _⟩ := List.cons.inj (split.trans first)
      exact begins waits sets

/-- A `set` over a large value that has begun to write is seen as the old value or as the new one
at all its pauses exactly if it deletes: among the tombstones, which come first, a read gives
`None`. -/
theorem overwrite_atomic_iff (json : Json) (codec : Codec) (decoder : Decoder)
    {tableFiles : String → File} (stocked : ∀ name, Stocked json (tableFiles name)) {s u : Store}
    (reachable : s.Reachable json tableFiles) (idle : ∀ client, s.clients client = .idle)
    {name key : String} {old new : Value} {text : Bytes}
    (large : largeText json key old = some text)
    (holds : InChunks json codec tableFiles s name key text)
    (paused : Pauses json codec s name key new u) :
    (∀ u, Pauses json codec s name key new u → ∀ cache, Evicted u.router.cache cache →
      (∃ result t, Reads json decoder (u.withCache cache) name key result t) ∧
        ∀ result t, Reads json decoder (u.withCache cache) name key result t →
          result = .ok old ∨ result = .ok new) ↔ new = .null := by
  have steady : s.Steady json tableFiles := ⟨reachable.regular stocked, idle⟩
  have plain := largeText_plain large
  constructor
  · intro atomic
    have named : ¬ (name = "" ∨ key = "") := by
      cases paused <;> assumption
    obtain ⟨s₁, v, waits, first⟩ := steady.pauses_first stocked holds paused
    obtain ⟨steady₁, holds₁, counted⟩ := steady.meets stocked holds waits
    obtain ⟨rest, tombs⟩ := tombstones_first key (chunks_pos codec text)
    have here : Pauses json codec s name key new v :=
      .cleaning named plain waits counted tombs.symm (List.cons_ne_nil _ _) first
    have evicted : Evicted v.router.cache (Cache.init v.router.cache.capacity) :=
      ⟨Cache.init_wellFormed _, rfl, fun _ => rfl⟩
    obtain ⟨⟨t, reads⟩, _⟩ := steady₁.reads_cleaning stocked named plain holds₁ tombs.symm
      (List.cons_ne_nil _ _) first evicted
    rcases (atomic v here _ evicted).2 _ t reads with same | same
    · cases same
      cases large
    · exact (Except.ok.inj same).symm
  · rintro rfl u paused cache evicted
    cases paused with
    | chunking _ large _ _ _ _ => cases large
    | uncut _ large _ _ => cases large
    | cleaning named _ waits counted cut nonempty sets =>
        obtain ⟨steady₁, holds₁, counted'⟩ := steady.meets stocked holds waits
        rw [counted', Option.some.injEq] at counted
        subst counted
        obtain ⟨⟨t, reads⟩, only⟩ := steady₁.reads_cleaning stocked named plain holds₁ cut
          nonempty sets evicted
        exact ⟨⟨_, t, reads⟩, fun result t reads => Or.inr (only result t reads)⟩

end

/-- A call over the large value has a pause behind its first tombstone, where it is gone. -/
theorem pauses_long (value : Value) : ∃ s u,
    Sets manifestJson longCodec (fresh 100 10) "t" "k" longValue (.ok ()) s ∧
      s.Steady manifestJson (fun _ => File.empty) ∧ s.Chunked longCodec "t" "k" longText ∧
      Pauses manifestJson longCodec s "t" "k" value u ∧ ∀ cache, Evicted u.router.cache cache →
        ∃ t, Reads manifestJson longDecoder (u.withCache cache) "t" "k" (.ok .null) t := by
  obtain ⟨s, sets, steady, roomy, chunked⟩ := sets_long
  have stocked (_ : String) : Stocked manifestJson File.empty := empty_stocked manifestJson
  obtain ⟨steady₁, holds₁, counted⟩ := steady.meets stocked chunked.inChunks ⟨[], Run.nil s⟩
  obtain ⟨rest, tombs⟩ := tombstones_first "k" (chunks_pos longCodec longText)
  have room : (s.lookedUp manifestJson "t" "k").Roomy (1 + 89) := roomy.lookedUp steady.calm "t" "k"
  obtain ⟨u, sets', _⟩ := steady₁.setsInternal_ends stocked room
    (show ¬ ("t" = "" ∨ chunkKey "k" 0 = "") by decide) manifestJson.faithful_null
    (packs_of_short (by decide) manifestJson.faithful_null)
  have first : SetsEach manifestJson "t" (s.lookedUp manifestJson "t" "k") [(chunkKey "k" 0, .null)]
      (.ok ()) u := .next sets' (.nil u)
  refine ⟨s, u, sets, steady, chunked, .cleaning (by decide) (by decide) ⟨[], Run.nil s⟩ counted
    tombs.symm (List.cons_ne_nil _ _) first, fun cache evicted => ?_⟩
  exact (steady₁.reads_cleaning stocked (by decide) (by decide) holds₁ tombs.symm
    (List.cons_ne_nil _ _) first evicted).1

/-- A read in between finds neither the old value nor the new one. -/
theorem overwrite_exposes_none : ∃ s u cache t,
    Sets manifestJson longCodec (fresh 100 10) "t" "k" longValue (.ok ()) s ∧
      Pauses manifestJson longCodec s "t" "k" (.str "x") u ∧ Evicted u.router.cache cache ∧
      Reads manifestJson longDecoder (u.withCache cache) "t" "k" (.ok .null) t := by
  obtain ⟨s, u, sets, _, _, paused, gone⟩ := pauses_long (.str "x")
  have evicted : Evicted u.router.cache (Cache.init u.router.cache.capacity) :=
    ⟨Cache.init_wellFormed _, rfl, fun _ => rfl⟩
  obtain ⟨t, reads⟩ := gone _ evicted
  exact ⟨s, u, _, t, sets, paused, evicted, reads⟩

/-- A deletion of the large value. -/
theorem deletion_atomic : ∃ s,
    Sets manifestJson longCodec (fresh 100 10) "t" "k" longValue (.ok ()) s ∧
      ∀ u, Pauses manifestJson longCodec s "t" "k" .null u → ∀ cache, Evicted u.router.cache cache →
        (∃ result t, Reads manifestJson longDecoder (u.withCache cache) "t" "k" result t) ∧
          ∀ result t, Reads manifestJson longDecoder (u.withCache cache) "t" "k" result t →
            result = .ok longValue ∨ result = .ok .null := by
  obtain ⟨s, u, sets, steady, chunked, paused, _⟩ := pauses_long .null
  have reachable := (fresh_reachable manifestJson (show 0 < 100 by decide)
    (show 0 < 10 by decide)).turns ((start_single 100 10 (by decide) (by decide)).calm.sets_passes
      sets).1
  exact ⟨s, sets, (overwrite_atomic_iff manifestJson longCodec longDecoder
    (fun _ => empty_stocked _) reachable steady.idle long_large chunked.inChunks paused).mpr rfl⟩

end CachyDb.Store
