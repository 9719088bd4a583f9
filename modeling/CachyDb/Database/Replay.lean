import CachyDb.Database.Facade

set_option autoImplicit false

/-! Which records a call of `set` or `set_many` gives to the log, and into which table
recovery puts them. -/

namespace CachyDb.Database

open ByteString Router

/-- The payload is a packed record of one of these keys. -/
def PackedUnder (json : Json) (keys : Set String) (payload : Bytes) : Prop :=
  ∃ key value, key ∈ keys ∧ packRecord json key value = .ok payload

/-- Payloads were added, all of them packed records of these keys. -/
def Adds (json : Json) (keys : Set String) (before after : List Bytes) : Prop :=
  ∃ added, after = before ++ added ∧ ∀ payload ∈ added, PackedUnder json keys payload

theorem PackedUnder.mono {json : Json} {keys more : Set String} {payload : Bytes}
    (packed : PackedUnder json keys payload) (within : keys ⊆ more) :
    PackedUnder json more payload := by
  obtain ⟨key, value, member, result⟩ := packed
  exact ⟨key, value, within member, result⟩

namespace Adds

variable {json : Json} {keys more : Set String} {before between after : List Bytes}

theorem refl (json : Json) (keys : Set String) (written : List Bytes) :
    Adds json keys written written :=
  ⟨[], (List.append_nil _).symm, by simp⟩

theorem mono (adds : Adds json keys before after) (within : keys ⊆ more) :
    Adds json more before after := by
  obtain ⟨added, same, packed⟩ := adds
  exact ⟨added, same, fun payload member => (packed payload member).mono within⟩

theorem trans (first : Adds json keys before between) (second : Adds json keys between after) :
    Adds json keys before after := by
  obtain ⟨added, rfl, packed⟩ := first
  obtain ⟨added', rfl, packed'⟩ := second
  refine ⟨added ++ added', List.append_assoc _ _ _, ?_⟩
  intro payload member
  rcases List.mem_append.mp member with here | here
  · exact packed payload here
  · exact packed' payload here

theorem keeps (adds : Adds json keys before after) {payload : Bytes} (member : payload ∈ before) :
    payload ∈ after := by
  obtain ⟨added, rfl, _⟩ := adds
  exact List.mem_append_left _ member

theorem snoc {payload : Bytes} (packed : PackedUnder json keys payload) :
    Adds json keys before (before ++ [payload]) := by
  refine ⟨[payload], rfl, ?_⟩
  intro other member
  rw [List.mem_singleton.mp member]
  exact packed

/-- A call starts with nothing written. -/
theorem all_packed (adds : Adds json keys [] after) {payload : Bytes} (member : payload ∈ after) :
    PackedUnder json keys payload := by
  obtain ⟨added, rfl, packed⟩ := adds
  exact packed payload member

end Adds

section

variable (json : Json) (others : Surroundings) (c : Caller) (name : String)

/-- Either the record cannot be packed or its payload goes to the log. -/
theorem setInternal_written (key : String) (value : Value) :
    ((setInternal json others c name key value).1 ≠ .ok () ∧
      (setInternal json others c name key value).2.written = c.written ∧
        ∀ packed, packRecord json key value = .ok packed → name = "" ∨ key = "") ∨
    ∃ packed, packRecord json key value = .ok packed ∧
      (setInternal json others c name key value).2.written = c.written ++ [packed] := by
  unfold setInternal
  by_cases unnamed : name = "" ∨ key = ""
  · rw [if_pos unnamed]
    exact Or.inl ⟨by simp, rfl, fun _ _ => unnamed⟩
  · rw [if_neg unnamed]
    cases result : packRecord json key value with
    | error e =>
        refine Or.inl ⟨by simp, rfl, ?_⟩
        intro packed packs
        cases packs
    | ok packed =>
        refine Or.inr ⟨packed, rfl, ?_⟩
        dsimp only
        split
        · rfl
        · rfl
        · split
          · rfl
          · rfl

theorem setInternal_adds (key : String) (value : Value) :
    Adds json {key} c.written (setInternal json others c name key value).2.written := by
  rcases setInternal_written json others c name key value with ⟨_, same, _⟩ | ⟨packed, result, more⟩
  · rw [same]
    exact Adds.refl json _ _
  · rw [more]
    exact Adds.snoc ⟨key, value, rfl, result⟩

/-- A call that returns has logged its record. -/
theorem setInternal_ok (key : String) (value : Value)
    (accepted : (setInternal json others c name key value).1 = .ok ()) :
    ∃ payload ∈ (setInternal json others c name key value).2.written,
      PackedUnder json {key} payload := by
  rcases setInternal_written json others c name key value with ⟨raises, _⟩ | ⟨packed, result, more⟩
  · exact absurd accepted raises
  · rw [more]
    exact ⟨packed, by simp, key, value, rfl, result⟩

/-- A record that can be packed is logged even when the call raises later. -/
theorem setInternal_logs {key : String} {value : Value} {packed : Bytes}
    (result : packRecord json key value = .ok packed) (named : name ≠ "") (keyed : key ≠ "") :
    packed ∈ (setInternal json others c name key value).2.written := by
  rcases setInternal_written json others c name key value with ⟨_, _, unnamed⟩ | ⟨packed', result', more⟩
  · rcases unnamed packed result with empty | empty
    · exact absurd empty named
    · exact absurd empty keyed
  · rw [result, Except.ok.injEq] at result'
    rw [more, result']
    simp

theorem setEach_adds (records : List (String × Value)) :
    Adds json {key | key ∈ records.map Prod.fst} c.written
      (setEach json others name c records).2.written := by
  induction records generalizing c with
  | nil => exact Adds.refl json _ _
  | cons record rest ih =>
      have first := setInternal_adds json others c name record.1 record.2
      unfold setEach
      rcases step : setInternal json others c name record.1 record.2 with ⟨outcome, c'⟩
      rw [step] at first
      have wider : Adds json {key | key ∈ (record :: rest).map Prod.fst} c.written c'.written := by
        apply first.mono
        rintro key rfl
        simp
      cases outcome with
      | error e => exact wider
      | ok done =>
          apply wider.trans
          apply (ih c').mono
          intro key member
          exact List.mem_cons_of_mem _ member

/-- The first of several records is logged if it can be packed. -/
theorem setEach_logs {key : String} {value : Value} {packed : Bytes}
    (rest : List (String × Value)) (result : packRecord json key value = .ok packed)
    (named : name ≠ "") (keyed : key ≠ "") :
    packed ∈ (setEach json others name c ((key, value) :: rest)).2.written := by
  have logged := setInternal_logs json others c name result named keyed
  unfold setEach
  rcases step : setInternal json others c name key value with ⟨outcome, c'⟩
  rw [step] at logged
  cases outcome with
  | error e => exact logged
  | ok done => exact (setEach_adds json others c' name rest).keeps logged

theorem writeLarge_adds (codec : Codec) (key : String) (value : Value) (text : Bytes) :
    Adds json (ownKeys key) c.written
      (writeLarge json codec others c name key value text).2.written := by
  have chunks : Adds json (ownKeys key) c.written (setEach json others name c
      (chunkRecords codec key (cutChunks (codec.compress text)))).2.written :=
    (setEach_adds json others c name _).mono
      ((chunkRecords_keys codec key _).trans (chunkKeys_own key))
  unfold writeLarge
  dsimp only
  rcases step : setEach json others name c
    (chunkRecords codec key (cutChunks (codec.compress text))) with ⟨outcome, c'⟩
  rw [step] at chunks
  cases outcome with
  | error e => exact chunks
  | ok done =>
      have closing := (setInternal_adds json others c' name key
        (manifest (cutChunks (codec.compress text)).length text.length)).mono (key_own key)
      dsimp only
      rcases last : setInternal json others c' name key
        (manifest (cutChunks (codec.compress text)).length text.length) with ⟨outcome, c''⟩
      rw [last] at closing
      cases outcome with
      | error e => exact chunks.trans closing
      | ok done => exact chunks.trans closing

theorem writeLarge_ok (codec : Codec) (key : String) (value : Value) (text : Bytes)
    (accepted : (writeLarge json codec others c name key value text).1 = .ok ()) :
    ∃ payload ∈ (writeLarge json codec others c name key value text).2.written,
      PackedUnder json {key} payload := by
  unfold writeLarge at accepted ⊢
  dsimp only at accepted ⊢
  rcases step : setEach json others name c
    (chunkRecords codec key (cutChunks (codec.compress text))) with ⟨outcome, c'⟩
  rw [step] at accepted
  cases outcome with
  | error e => cases accepted
  | ok done =>
      dsimp only at accepted ⊢
      have closing := setInternal_ok json others c' name key
        (manifest (cutChunks (codec.compress text)).length text.length)
      rcases last : setInternal json others c' name key
        (manifest (cutChunks (codec.compress text)).length text.length) with ⟨outcome, c''⟩
      rw [last] at accepted closing
      cases outcome with
      | error e => cases accepted
      | ok done => exact closing rfl

/-- A call of `set` that returns has logged a record of its own key, at last. -/
theorem setLarge_ok (codec : Codec) (key : String) (value : Value) (text : Bytes)
    (accepted : (setLarge json codec others c name key value text).1 = .ok ()) :
    ∃ payload ∈ (setLarge json codec others c name key value text).2.written,
      PackedUnder json {key} payload := by
  unfold setLarge at accepted ⊢
  rcases step : writeLarge json codec others (cleanUp json others c name key) name key value text
    with ⟨outcome, c'⟩
  rw [step] at accepted
  cases outcome with
  | ok done =>
      have stored := writeLarge_ok json others (cleanUp json others c name key) name codec key value
        text (by rw [step])
      rwa [step] at stored
  | error e => exact setInternal_ok json others c' name key value accepted

/-- A first record that cannot be packed stops the loop at once. -/
theorem setEach_stops {key : String} {value : Value} (rest : List (String × Value))
    (unpackable : ∀ packed, packRecord json key value ≠ .ok packed) :
    (setEach json others name c ((key, value) :: rest)).1 ≠ .ok () ∧
      (setEach json others name c ((key, value) :: rest)).2.written = c.written := by
  unfold setEach
  rcases setInternal_written json others c name key value with ⟨raises, same, _⟩ | ⟨packed, result, _⟩
  · rcases step : setInternal json others c name key value with ⟨outcome, c'⟩
    rw [step] at raises same
    cases outcome with
    | error e => exact ⟨by simp, same⟩
    | ok done => exact absurd rfl raises
  · exact absurd result (unpackable packed)

/-- The old value makes the clean-up write a tombstone. -/
def CleansUp (json : Json) (r : Router) (name key : String) : Prop :=
  ∃ count, overflowChunks (r.getRawManifest json name key).1 = some (count + 1)

theorem tombstones_succ (key : String) (count : Nat) :
    ∃ rest, tombstones key (count + 1) = (chunkKey key 0, .null) :: rest := by
  rw [tombstones, List.range_succ_eq_map, List.map_cons]
  exact ⟨_, rfl⟩

theorem cleanUp_logs {key : String} (named : name ≠ "")
    (short : (encodeKey (chunkKey key 0)).length ≤ maxKeyBytes)
    (old : CleansUp json c.router name key) :
    ∃ payload ∈ (cleanUp json others c name key).written,
      PackedUnder json (chunkKeys key) payload := by
  obtain ⟨count, chunks⟩ := old
  obtain ⟨rest, first⟩ := tombstones_succ key count
  obtain ⟨packed, result⟩ := packRecord_short short json.dumps_null
  refine ⟨packed, ?_, chunkKey key 0, .null, ⟨0, rfl⟩, result⟩
  simp only [cleanUp, chunks, first]
  exact setEach_logs json others _ name rest result named (chunkKey_ne_empty key 0)

theorem cleanUp_silent {key : String}
    (quiet : ¬ ((encodeKey (chunkKey key 0)).length ≤ maxKeyBytes ∧
      CleansUp json c.router name key)) :
    (cleanUp json others c name key).written = c.written := by
  unfold cleanUp
  dsimp only
  cases chunks : overflowChunks (c.router.getRawManifest json name key).1 with
  | none => rfl
  | some count =>
      cases count with
      | zero => rfl
      | succ count =>
          obtain ⟨rest, first⟩ := tombstones_succ key count
          dsimp only
          rw [first]
          apply (setEach_stops json others _ name rest _).2
          intro packed
          apply packRecord_not_long
          exact fun short => quiet ⟨short, count, chunks⟩

theorem chunkRecords_cons (codec : Codec) (key : String) (text : Bytes) :
    ∃ chunk rest, chunkRecords codec key (cutChunks (codec.compress text)) =
      (chunkKey key 0, .str (codec.b64encode chunk)) :: rest := by
  obtain ⟨chunk, rest, cut⟩ := cutChunks_ne_nil (codec.compress_ne_nil text)
  rw [chunkRecords, cut, List.mapIdx_cons]
  exact ⟨chunk, _, rfl⟩

theorem writeLarge_logs (codec : Codec) {key : String} (value : Value) (text : Bytes)
    (named : name ≠ "") (short : (encodeKey (chunkKey key 0)).length ≤ maxKeyBytes) :
    ∃ payload ∈ (writeLarge json codec others c name key value text).2.written,
      PackedUnder json (chunkKeys key) payload := by
  obtain ⟨chunk, rest, records⟩ := chunkRecords_cons codec key text
  obtain ⟨chunkText, written⟩ := Option.isSome_iff_exists.mp (json.dumps_str (codec.b64encode chunk))
  obtain ⟨packed, result⟩ := packRecord_short short written
  refine ⟨packed, ?_, chunkKey key 0, _, ⟨0, rfl⟩, result⟩
  have logged := setEach_logs json others c name rest result named (chunkKey_ne_empty key 0)
  rw [← records] at logged
  unfold writeLarge
  dsimp only
  rcases step : setEach json others name c
    (chunkRecords codec key (cutChunks (codec.compress text))) with ⟨outcome, c'⟩
  rw [step] at logged
  cases outcome with
  | error e => exact logged
  | ok done =>
      have closing := (setInternal_adds json others c' name key
        (manifest (cutChunks (codec.compress text)).length text.length)).keeps logged
      dsimp only
      rcases last : setInternal json others c' name key
        (manifest (cutChunks (codec.compress text)).length text.length) with ⟨outcome, c''⟩
      rw [last] at closing
      cases outcome with
      | error e => exact closing
      | ok done => exact closing

theorem writeLarge_silent (codec : Codec) {key : String} (value : Value) (text : Bytes)
    (long : ¬ (encodeKey (chunkKey key 0)).length ≤ maxKeyBytes) :
    (writeLarge json codec others c name key value text).1 ≠ .ok () ∧
      (writeLarge json codec others c name key value text).2.written = c.written := by
  obtain ⟨chunk, rest, records⟩ := chunkRecords_cons codec key text
  have unpackable (packed : Bytes) :
      packRecord json (chunkKey key 0) (.str (codec.b64encode chunk)) ≠ .ok packed :=
    packRecord_not_long long
  have stops := setEach_stops json others c name rest unpackable
  rw [← records] at stops
  unfold writeLarge
  dsimp only
  rcases step : setEach json others name c
    (chunkRecords codec key (cutChunks (codec.compress text))) with ⟨outcome, c'⟩
  rw [step] at stops
  cases outcome with
  | error e => exact ⟨by simp, stops.2⟩
  | ok done => exact absurd rfl stops.1

end

/-- The call of `Router.set` gives a chunk record to the log. It does so for a large value,
and for any value that follows one, unless the key has no room for the chunk prefix. -/
def LogsChunks (json : Json) (r : Router) (name key : String) (value : Value) : Prop :=
  isChunkKey key = false ∧ (encodeKey (chunkKey key 0)).length ≤ maxKeyBytes ∧
    ((largeText json key value).isSome ∨ CleansUp json r name key)

section

variable (json : Json) (codec : Codec) (others : Surroundings) (r : Router) {name key : String}
  (value : Value)

theorem set_ok (accepted : (Router.set json codec others r name key value).1 = .ok ()) :
    ∃ payload ∈ (Router.set json codec others r name key value).2.written,
      PackedUnder json {key} payload := by
  unfold Router.set at accepted ⊢
  split at accepted
  · cases accepted
  · rename_i named
    rw [if_neg named]
    cases large : largeText json key value with
    | some text =>
        rw [large] at accepted
        exact setLarge_ok json others _ name codec key value text accepted
    | none =>
        rw [large] at accepted
        dsimp only at accepted ⊢
        split at accepted
        · rename_i chunk
          rw [if_pos chunk]
          exact setInternal_ok json others _ name key value accepted
        · rename_i plain
          rw [if_neg plain]
          exact setInternal_ok json others _ name key value accepted

/-- Without chunk records the call logs records of its own key only. -/
theorem set_silent (quiet : ¬ LogsChunks json r name key value) :
    Adds json {key} [] (Router.set json codec others r name key value).2.written := by
  unfold Router.set
  split
  · exact Adds.refl json _ _
  · cases large : largeText json key value with
    | some text =>
        have long : ¬ (encodeKey (chunkKey key 0)).length ≤ maxKeyBytes :=
          fun short => quiet ⟨largeText_plain large, short, Or.inl (by rw [large]; rfl)⟩
        have cleaned : (cleanUp json others ⟨r, []⟩ name key).written = [] :=
          cleanUp_silent json others ⟨r, []⟩ name fun both => long both.1
        have silent := writeLarge_silent json others (cleanUp json others ⟨r, []⟩ name key) name
          codec value text long
        dsimp only
        unfold setLarge
        rcases step : writeLarge json codec others (cleanUp json others ⟨r, []⟩ name key) name key
          value text with ⟨outcome, c'⟩
        rw [step, cleaned] at silent
        cases outcome with
        | ok done => exact absurd rfl silent.1
        | error e =>
            have last := setInternal_adds json others c' name key value
            rwa [silent.2] at last
    | none =>
        dsimp only
        split
        · exact setInternal_adds json others ⟨r, []⟩ name key value
        · rename_i plain
          have cleaned : (cleanUp json others ⟨r, []⟩ name key).written = [] := by
            apply cleanUp_silent json others ⟨r, []⟩ name
            rintro ⟨short, old⟩
            exact quiet ⟨Bool.not_eq_true _ ▸ plain, short, Or.inr old⟩
          have last := setInternal_adds json others (cleanUp json others ⟨r, []⟩ name key) name key
            value
          rwa [cleaned] at last

theorem set_logs (accepted : (Router.set json codec others r name key value).1 = .ok ())
    (logs : LogsChunks json r name key value) :
    ∃ payload ∈ (Router.set json codec others r name key value).2.written,
      PackedUnder json (chunkKeys key) payload := by
  obtain ⟨plain, short, why⟩ := logs
  unfold Router.set at accepted ⊢
  split at accepted
  · cases accepted
  · rename_i named
    rw [if_neg named]
    have nameless : name ≠ "" := fun empty => named (Or.inl empty)
    cases large : largeText json key value with
    | some text =>
        obtain ⟨payload, logged, packed⟩ := writeLarge_logs json others
          (cleanUp json others ⟨r, []⟩ name key) name codec value text nameless short
        refine ⟨payload, ?_, packed⟩
        dsimp only
        unfold setLarge
        rcases step : writeLarge json codec others (cleanUp json others ⟨r, []⟩ name key) name key
          value text with ⟨outcome, c'⟩
        rw [step] at logged
        cases outcome with
        | ok done => exact logged
        | error e => exact (setInternal_adds json others c' name key value).keeps logged
    | none =>
        have old : CleansUp json r name key := by
          rcases why with large' | old
          · rw [large] at large'
            cases large'
          · exact old
        obtain ⟨payload, logged, packed⟩ := cleanUp_logs json others ⟨r, []⟩ name nameless short old
        refine ⟨payload, ?_, packed⟩
        dsimp only
        rw [plain, if_neg (by decide)]
        exact (setInternal_adds json others _ name key value).keeps logged

end

/-- Every record of a `set_many` is packed under its own key. -/
theorem packRecords_packed {json : Json} {records : List (String × Value)}
    {packedRecords : List (String × Bytes)} (packs : packRecords json records = .ok packedRecords) :
    packedRecords.length = records.length ∧
      ∀ payload ∈ packedRecords.map Prod.snd,
        PackedUnder json {key | key ∈ records.map Prod.fst} payload := by
  refine ⟨packRecords_length packs, fun payload member => ?_⟩
  obtain ⟨packed, inside, rfl⟩ := List.mem_map.mp member
  obtain ⟨record, among, _, result⟩ := packRecords_mem packs inside
  exact ⟨record.1, record.2, List.mem_map_of_mem among, result⟩

theorem setMany_written {json : Json} {others : Surroundings} {r : Router} {name : String}
    {records : List (String × Value)}
    (accepted : (Router.setMany json others r name records).1 = .ok ()) :
    ∃ packedRecords, packRecords json records = .ok packedRecords ∧
      (Router.setMany json others r name records).2.written = packedRecords.map Prod.snd := by
  unfold Router.setMany at accepted ⊢
  split at accepted
  · cases accepted
  · rename_i named
    rw [if_neg named]
    cases packs : packRecords json records with
    | error e =>
        rw [packs] at accepted
        cases accepted
    | ok packedRecords =>
        refine ⟨packedRecords, rfl, ?_⟩
        dsimp only
        split
        · rfl
        · rfl
        · split
          · rfl
          · rfl

/-- What a client can ask the facade to write. -/
inductive Request
  | set (key : String) (value : Value)
  | setMany (records : List (String × Value))

def Request.perform (json : Json) (codec : Codec) (others : Surroundings) (r : Router)
    (table : String) : Request → Except RouterError Unit × Caller
  | .set key value => Database.set json codec others r table key value
  | .setMany records => Database.setMany json others r table records

/-- The request writes chunk records, or tombstones for older ones. -/
def Request.LogsChunks (json : Json) (r : Router) (table : String) : Request → Prop
  | .set key value => Database.LogsChunks json r table (namespacedKey table key) value
  | .setMany _ => False

section

variable {json : Json} {table : String}

theorem replaysInto_packed {key : String} {payload : Bytes} {value : Value} (named : key ≠ "")
    (result : packRecord json key value = .ok payload) :
    ReplaysInto json payload table ↔ recoveryTable key = table := by
  obtain ⟨read, decoded⟩ := json.loads_dumps value _ (packRecord_value result)
  exact replaysInto_iff (unpackRecord_pack result decoded) named

theorem replays_own {key : String} {payload : Bytes} (named : table ≠ "")
    (packed : PackedUnder json {namespacedKey table key} payload) :
    ReplaysInto json payload table ↔ ':' ∉ table.toList := by
  obtain ⟨_, value, rfl, result⟩ := packed
  exact (replaysInto_packed (namespacedKey_ne_empty table key) result).trans
    (recoveryTable_namespacedKey named key)

/-- A chunk record belongs to a table of another name than `__chunk__`. -/
theorem chunk_misplaced {key : String} {payload : Bytes}
    (plain : isChunkKey (namespacedKey table key) = false)
    (packed : PackedUnder json (chunkKeys (namespacedKey table key)) payload) :
    ¬ ReplaysInto json payload table := by
  obtain ⟨_, value, ⟨i, rfl⟩, result⟩ := packed
  rw [replaysInto_packed (chunkKey_ne_empty _ i) result, recoveryTable_chunkKey]
  rintro rfl
  have chars : (namespacedKey "__chunk__" key).toList = chunkPrefix.toList ++ key.toList := by
    rw [toList_namespacedKey]
    rfl
  rw [isChunkKey, chars] at plain
  have front : chunkPrefix.toList.isPrefixOf (chunkPrefix.toList ++ key.toList) = true := by
    rw [List.isPrefixOf_iff_prefix]
    exact List.prefix_append _ _
  rw [front] at plain
  cases plain

end

section

variable {json : Json} {codec : Codec} {others : Surroundings} {r : Router} {table : String}

theorem set_replays_iff {key : String} {value : Value}
    (accepted : (Database.set json codec others r table key value).1 = .ok ()) :
    (∀ payload ∈ (Database.set json codec others r table key value).2.written,
      ReplaysInto json payload table) ↔
      ':' ∉ table.toList ∧ ¬ LogsChunks json r table (namespacedKey table key) value := by
  unfold Database.set at accepted ⊢
  split at accepted
  · cases accepted
  · rename_i named
    rw [if_neg named]
    have named' : table ≠ "" := fun empty => named (Or.inl empty)
    constructor
    · intro each
      constructor
      · obtain ⟨payload, logged, packed⟩ := set_ok json codec others r value accepted
        exact (replays_own named' packed).mp (each payload logged)
      · intro logs
        obtain ⟨payload, logged, packed⟩ := set_logs json codec others r value accepted logs
        exact chunk_misplaced logs.1 packed (each payload logged)
    · rintro ⟨clear, quiet⟩ payload logged
      have packed := (set_silent json codec others r value quiet).all_packed logged
      exact (replays_own named' packed).mpr clear

theorem setMany_replays_iff {records : List (String × Value)}
    (accepted : (Database.setMany json others r table records).1 = .ok ()) :
    (∀ payload ∈ (Database.setMany json others r table records).2.written,
      ReplaysInto json payload table) ↔ ':' ∉ table.toList := by
  unfold Database.setMany at accepted ⊢
  split at accepted
  · cases accepted
  · rename_i named
    rw [if_neg named]
    obtain ⟨packedRecords, packs, logged⟩ := setMany_written accepted
    obtain ⟨length, packed⟩ := packRecords_packed packs
    rw [List.length_map] at length
    have own : ∀ payload ∈ packedRecords.map Prod.snd,
        (ReplaysInto json payload table ↔ ':' ∉ table.toList) := by
      intro payload member
      obtain ⟨key, value, among, result⟩ := packed payload member
      simp only [Set.mem_ofPred_eq, List.map_map, List.mem_map, Function.comp_apply] at among
      obtain ⟨record, _, rfl⟩ := among
      exact replays_own (fun empty => named (Or.inl empty)) ⟨_, value, rfl, result⟩
    rw [logged]
    constructor
    · intro each
      have some_there : packedRecords ≠ [] := by
        rintro rfl
        exact named (Or.inr (List.eq_nil_of_length_eq_zero length.symm))
      obtain ⟨first, rest, rfl⟩ := List.exists_cons_of_ne_nil some_there
      have member : first.2 ∈ (first :: rest).map Prod.snd := by simp
      exact (own first.2 member).mp (each first.2 member)
    · intro clear payload member
      exact (own payload member).mpr clear

/-- Recovery puts the records of a call back into the table of the call exactly when the
table's name has no `:` and no chunk record was logged. -/
theorem Request.replays_iff {request : Request}
    (accepted : (request.perform json codec others r table).1 = .ok ()) :
    (∀ payload ∈ (request.perform json codec others r table).2.written,
      ReplaysInto json payload table) ↔
      ':' ∉ table.toList ∧ ¬ request.LogsChunks json r table := by
  cases request with
  | set key value => exact set_replays_iff accepted
  | setMany records =>
      rw [Request.perform] at accepted ⊢
      rw [setMany_replays_iff accepted]
      simp [Request.LogsChunks]

end

/-- The manifest of a text of 2003 bytes in one chunk, and what `json.dumps` makes of it. -/
def sampleManifest : Value := manifest 1 2003

def sampleManifestText : Bytes :=
  encodeKey ("\x7b\"__cachy_overflow__\": true, \"num_chunks\": 1, " ++
    "\"original_size\": 2003, \"compressed\": true\x7d")

/-- JSON as far as the examples need it: `null`, the number 1, strings without characters
that are escaped, and one manifest. -/
def plainJson : Json where
  dumps
    | .null => some nullBytes
    | .int 1 => some [0x31]
    | .str s => some (0x22 :: encodeKey s ++ [0x22])
    | .dict [(.str "__cachy_overflow__", .bool true), (.str "num_chunks", .int 1),
        (.str "original_size", .int 2003), (.str "compressed", .bool true)] =>
        some sampleManifestText
    | _ => none
  loads
    | 0x22 :: rest => (decodeKey rest.dropLast).map .str
    | text =>
        if text = nullBytes then some .null
        else if text = [0x31] then some (.int 1)
        else if text = sampleManifestText then some sampleManifest
        else none
  dumps_null := rfl
  dumps_str _ := rfl
  loads_null := rfl
  loads_dumps := by
    intro value text written
    split at written
    · cases written
      exact ⟨_, rfl⟩
    · cases written
      exact ⟨_, rfl⟩
    · rename_i s
      cases written
      refine ⟨.str s, ?_⟩
      simp
    · cases written
      exact ⟨_, rfl⟩
    · cases written
  loads_nil := rfl

/-- What zlib and base64 make of a string of 2001 times the letter x. -/
def sampleCodec : Codec where
  compress _ := [120, 156, 83, 170, 24, 5, 163, 96, 20, 140, 130, 81, 48, 10, 70, 193, 208, 7, 74,
    0, 45, 226, 170, 106]
  b64encode _ := "eJxTqhgFo2AUjIJRMApGwdAHSgAt4qpq"
  compress_ne_nil _ := by simp

/-- Nobody else does anything. -/
def alone : Surroundings := ⟨id, fun r => (.ok (), r)⟩

/-- A router on an empty data directory, with the limits of the facade. -/
def freshRouter : Router :=
  Router.init ⟨0, [], ∅, none, FileSystem.empty, []⟩ (fun _ => File.empty) 20000 5000

/-- A small value and a table with a plain name. -/
theorem Request.replays_small :
    ((Request.set "k" (.int 1)).perform plainJson sampleCodec alone freshRouter "t").1 = .ok () ∧
      ∀ payload ∈ ((Request.set "k" (.int 1)).perform plainJson sampleCodec alone freshRouter
        "t").2.written, ReplaysInto plainJson payload "t" := by
  have accepted : ((Request.set "k" (.int 1)).perform plainJson sampleCodec alone freshRouter
      "t").1 = .ok () := by decide +kernel
  refine ⟨accepted, (Request.replays_iff accepted).mpr ⟨by decide, ?_⟩⟩
  rintro ⟨_, _, large | ⟨count, old⟩⟩
  · exact absurd large (by decide +kernel)
  · have no_manifest : overflowChunks (freshRouter.getRawManifest plainJson "t"
        (namespacedKey "t" "k")).1 = none := by decide +kernel
    rw [no_manifest] at old
    cases old

def longString : String := String.ofList (List.replicate 2001 'x')

set_option maxRecDepth 100000 in
/-- A table with a `:` in its name, and a large value. -/
theorem Request.misplaced :
    (((Request.set "k" (.int 1)).perform plainJson sampleCodec alone freshRouter "a:b").1 = .ok () ∧
      ¬ ∀ payload ∈ ((Request.set "k" (.int 1)).perform plainJson sampleCodec alone freshRouter
        "a:b").2.written, ReplaysInto plainJson payload "a:b") ∧
    (((Request.set "k" (.str longString)).perform plainJson sampleCodec alone freshRouter
        "t").1 = .ok () ∧
      ¬ ∀ payload ∈ ((Request.set "k" (.str longString)).perform plainJson sampleCodec alone
        freshRouter "t").2.written, ReplaysInto plainJson payload "t") := by
  have small : (Database.set plainJson sampleCodec alone freshRouter "a:b" "k" (.int 1)).1 =
      .ok () := by decide +kernel
  have large : (Database.set plainJson sampleCodec alone freshRouter "t" "k"
      (.str longString)).1 = .ok () := by decide +kernel
  refine ⟨⟨small, ?_⟩, large, ?_⟩
  · intro each
    exact absurd ((set_replays_iff small).mp each).1 (by decide)
  · intro each
    apply ((set_replays_iff large).mp each).2
    exact ⟨by decide +kernel, by decide +kernel, Or.inl (by decide +kernel)⟩

end CachyDb.Database
