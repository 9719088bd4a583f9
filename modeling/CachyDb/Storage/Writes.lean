import CachyDb.Database.Bulk

set_option autoImplicit false

/-! What the calls of a router write, as lists of records: the newest values are those of the
lists, and the cache has nothing else for their keys. -/

namespace CachyDb

open ByteString Router Transition

/-- The value that a list of records assigns last to a key. -/
def lastOf : List (String × Value) → String → Option Value
  | [], _ => none
  | (key, value) :: rest, other => (lastOf rest other).or (if key = other then some value else none)

@[simp] theorem lastOf_nil (key : String) : lastOf [] key = none := rfl

theorem lastOf_append (front back : List (String × Value)) (key : String) :
    lastOf (front ++ back) key = (lastOf back key).or (lastOf front key) := by
  induction front with
  | nil => simp
  | cons record front ih => simp [lastOf, ih, Option.or_assoc]

theorem lastOf_none {records : List (String × Value)} {key : String} :
    lastOf records key = none ↔ key ∉ records.map Prod.fst := by
  induction records with
  | nil => simp
  | cons record records ih =>
      by_cases same : record.1 = key
      · simp [lastOf, same]
      · simp [lastOf, same, ih, Ne.symm same]

theorem mem_of_lastOf {records : List (String × Value)} {key : String} {value : Value}
    (found : lastOf records key = some value) : (key, value) ∈ records := by
  induction records with
  | nil => cases found
  | cons record records ih =>
      cases later : lastOf records key with
      | some newer =>
          simp only [lastOf, later, Option.some_or] at found
          exact List.mem_cons_of_mem _ (ih (later.trans found))
      | none =>
          by_cases same : record.1 = key
          · simp only [lastOf, later, same, Option.none_or, if_pos, Option.some.injEq] at found
            rw [← same, ← found]
            exact List.mem_cons_self
          · simp [lastOf, later, same] at found

/-- `_pack_record` takes the record. -/
def packs (json : Json) (record : String × Value) : Bool :=
  match packRecord json record.1 record.2 with
  | .ok _ => true
  | .error _ => false

theorem packs_iff {json : Json} {record : String × Value} :
    packs json record = true ↔ ∃ packed, packRecord json record.1 record.2 = .ok packed := by
  unfold packs
  cases packRecord json record.1 record.2 <;> simp

theorem lastOf_chunkRecords (codec : Codec) (key : String) (chunks : List Bytes) (i : Nat) :
    lastOf (chunkRecords codec key chunks) (chunkKey key i) =
      chunks[i]?.map fun chunk => .str (codec.b64encode chunk) := by
  have records (value : Value) : (chunkKey key i, value) ∈ chunkRecords codec key chunks ↔
      some value = chunks[i]?.map fun chunk => .str (codec.b64encode chunk) := by
    constructor
    · intro member
      obtain ⟨j, inside, same⟩ := List.mem_mapIdx.mp member
      obtain ⟨keys, rfl⟩ := Prod.mk.inj same
      obtain ⟨_, rfl⟩ := chunkKey_injective keys
      rw [List.getElem?_eq_getElem inside]
      rfl
    · intro same
      obtain ⟨chunk, there, rfl⟩ := Option.map_eq_some_iff.mp same.symm
      obtain ⟨inside, rfl⟩ := List.getElem?_eq_some_iff.mp there
      exact List.mem_mapIdx.mpr ⟨i, inside, rfl⟩
  cases found : lastOf (chunkRecords codec key chunks) (chunkKey key i) with
  | some value => exact (records value).mp (mem_of_lastOf found)
  | none =>
      cases there : chunks[i]?.map fun chunk => Value.str (codec.b64encode chunk) with
      | none => rfl
      | some value =>
          have member := (records value).mpr there.symm
          exact absurd (List.mem_map_of_mem member) (lastOf_none.mp found)

/-- The tombstones that a clean-up writes for an old value. -/
def cleanWrites (json : Json) (old : Value) (key : String) : List (String × Value) :=
  match overflowChunks old with
  | none => []
  | some count => (tombstones key count).takeWhile (packs json)

/-- The chunks and the manifest of a text. -/
def largeRecords (codec : Codec) (key : String) (text : Bytes) : List (String × Value) :=
  chunkRecords codec key (cutChunks (codec.compress text)) ++
    [(key, manifest (cutChunks (codec.compress text)).length text.length)]

/-- What a `set` writes under a key that has an old value. -/
def setWrites (json : Json) (codec : Codec) (old : Value) (key : String) (value : Value) :
    List (String × Value) :=
  match largeText json key value with
  | some text =>
      if (largeRecords codec key text).all (packs json) then
        cleanWrites json old key ++ largeRecords codec key text
      else
        cleanWrites json old key ++ ((largeRecords codec key text).takeWhile (packs json) ++
          [(key, value)].takeWhile (packs json))
  | none =>
      (if isChunkKey key then [] else cleanWrites json old key) ++
        [(key, value)].takeWhile (packs json)

/-- What a `set_many` writes: nothing if one record does not pack, and nothing from the first
empty key on. -/
def manyWrites (json : Json) (records : List (String × Value)) : List (String × Value) :=
  if records.all (packs json) then records.takeWhile fun record => record.1 ≠ "" else []

namespace Store

/-- In how many chunks a call of `set` writes its value. -/
def cutIn (json : Json) (codec : Codec) (key : String) (value : Value) : Option Nat :=
  match largeText json key value with
  | some text =>
      if (largeRecords codec key text).all (packs json) then
        some (cutChunks (codec.compress text)).length
      else none
  | none => none

/-- The records were written, and what is cached for a key is what was put there or was there
before. -/
structure Wrote (s t : Store) (name : String) (records puts : List (String × Value)) : Prop where
  newest : ∀ other key, (t.newest other key).map Entry.value =
    if other = name then (lastOf records key).or ((s.newest other key).map Entry.value)
    else (s.newest other key).map Entry.value
  cached : ∀ other key held, t.cached other key = some held →
    (other = name ∧ lastOf puts key = some held) ∨
      ((other = name → lastOf puts key = none) ∧ s.cached other key = some held)

section

variable {json : Json} {codec : Codec} {decoder : Decoder} {tableFiles : String → File}
  {s t u : Store} {name key : String} {value : Value} {result : Except RouterError Unit}
  {records puts more moreputs : List (String × Value)}

theorem Still.wrote (still : Still s t) (name : String) : Wrote s t name [] [] := by
  constructor
  · intro other key
    simp [still.newest]
  · intro other key held known
    exact Or.inr ⟨fun _ => rfl, still.cached other key held known⟩

theorem Wrote.refl (s : Store) (name : String) : Wrote s s name [] [] := (Still.refl s).wrote name

theorem Wrote.trans (first : Wrote s t name records puts) (second : Wrote t u name more moreputs) :
    Wrote s u name (records ++ more) (puts ++ moreputs) := by
  constructor
  · intro other key
    rw [second.newest, first.newest, lastOf_append]
    split
    · rw [Option.or_assoc]
    · rfl
  · intro other key held known
    rw [lastOf_append]
    rcases second.cached other key held known with ⟨same, put⟩ | ⟨unput, before⟩
    · exact Or.inl ⟨same, by rw [put, Option.some_or]⟩
    · rcases first.cached other key held before with ⟨same, put⟩ | ⟨unput', before⟩
      · exact Or.inl ⟨same, by rw [unput same, put, Option.none_or]⟩
      · exact Or.inr ⟨fun same => by rw [unput same, unput' same, Option.none_or], before⟩

/-- What a key reads as in the tiers below the cache. -/
theorem Wrote.values (wrote : Wrote s t name records puts) (other key : String) :
    t.value json tableFiles other key =
      if other = name then (lastOf records key).getD (s.value json tableFiles other key)
      else s.value json tableFiles other key := by
  have newest := wrote.newest other key
  have values (u : Store) : u.value json tableFiles other key =
      ((u.newest other key).map Entry.value).getD (original json tableFiles other key) := by
    rw [Store.value]
    cases u.newest other key <;> rfl
  rw [values t, values s, newest]
  split
  · cases lastOf records key <;> simp
  · rfl

theorem Wrote.stored (wrote : Wrote s t name records puts) (other key : String) :
    t.stored other key =
      if other = name then (lastOf records key).getD (s.stored other key) else s.stored other key := by
  have values : t.value manifestJson (fun _ => File.empty) other key = _ := wrote.values other key
  rwa [value_stored firstIndex_empty, value_stored firstIndex_empty] at values

theorem Assigned.wrote (assigned : Assigned s t name key value) :
    Wrote s t name [(key, value)] [(key, value)] := by
  constructor
  · intro other otherKey
    by_cases here : other = name
    · by_cases same : key = otherKey
      · subst here same
        simp [lastOf, assigned.fixed.newest]
      · have outside : ¬ (other = name ∧ otherKey ∈ ({key} : Set String)) :=
          fun inside => same inside.2.symm
        simp [lastOf, same, assigned.within.newest other otherKey outside]
    · have outside : ¬ (other = name ∧ otherKey ∈ ({key} : Set String)) := fun inside => here inside.1
      simp [here, assigned.within.newest other otherKey outside]
  · intro other otherKey held known
    by_cases inside : other = name ∧ otherKey ∈ ({key} : Set String)
    · obtain ⟨rfl, rfl⟩ := inside
      have same := assigned.fixed.cached held known
      exact Or.inl ⟨rfl, by simp [lastOf, same]⟩
    · refine Or.inr ⟨fun here => ?_, assigned.within.cached other otherKey held inside known⟩
      have different : key ≠ otherKey := fun same => inside ⟨here, same.symm⟩
      simp [lastOf, different]

/-- A call of `_set_internal`. -/
theorem Calm.setsInternal_wrote (calm : s.Calm json tableFiles) (named : ¬ (name = "" ∨ key = ""))
    (sets : SetsInternal json s name key value result t) :
    t.Calm json tableFiles ∧ (result = .ok () ↔ packs json (key, value) = true) ∧
      Wrote s t name ([(key, value)].takeWhile (packs json))
        ([(key, value)].takeWhile (packs json)) := by
  obtain ⟨calm', ⟨rfl, packed, assigned⟩ | ⟨failed, rfl, unnamed | ⟨e, unpacked⟩⟩⟩ :=
    calm.setsInternal sets
  · have there : packs json (key, value) = true := packs_iff.mpr packed
    refine ⟨calm', by simp [there], ?_⟩
    simpa [there] using assigned.wrote
  · exact absurd unnamed named
  · have absent : packs json (key, value) = false := by simp [packs, unpacked]
    refine ⟨calm', by simp [absent, failed], ?_⟩
    simpa [absent] using Wrote.refl t name

theorem Calm.setsEach_wrote (calm : s.Calm json tableFiles) (named : name ≠ "")
    (keyed : ∀ record ∈ records, record.1 ≠ "") (sets : SetsEach json name s records result t) :
    t.Calm json tableFiles ∧ (result = .ok () ↔ records.all (packs json) = true) ∧
      Wrote s t name (records.takeWhile (packs json)) (records.takeWhile (packs json)) := by
  induction sets with
  | nil s => exact ⟨calm, by simp, Wrote.refl s name⟩
  | @raised s t key value rest e failed =>
      have both : ¬ (name = "" ∨ key = "") := not_or.mpr ⟨named, keyed _ List.mem_cons_self⟩
      obtain ⟨calm', packed, wrote⟩ := calm.setsInternal_wrote both failed
      have absent : packs json (key, value) = false := by simpa using packed
      refine ⟨calm', by simp [absent], ?_⟩
      simpa [absent] using wrote
  | @next s t u key value rest result first _ ih =>
      have both : ¬ (name = "" ∨ key = "") := not_or.mpr ⟨named, keyed _ List.mem_cons_self⟩
      obtain ⟨calm', packed, wrote⟩ := calm.setsInternal_wrote both first
      have there : packs json (key, value) = true := packed.mp rfl
      obtain ⟨calm'', rest_packed, later⟩ :=
        ih calm' fun record member => keyed record (List.mem_cons_of_mem _ member)
      refine ⟨calm'', by simp [there, rest_packed], ?_⟩
      have whole := wrote.trans later
      simpa [there] using whole

theorem tombstones_keyed (key : String) (count : Nat) :
    ∀ record ∈ tombstones key count, record.1 ≠ "" := by
  intro record member
  obtain ⟨i, _, rfl⟩ := List.mem_map.mp member
  exact chunkKey_ne_empty key i

theorem chunkRecords_keyed (codec : Codec) (key : String) (chunks : List Bytes) :
    ∀ record ∈ chunkRecords codec key chunks, record.1 ≠ "" := by
  intro record member
  obtain ⟨i, _, rfl⟩ := List.mem_mapIdx.mp member
  exact chunkKey_ne_empty key i

/-- A clean-up goes by the value that the key has. -/
theorem Steady.cleans_wrote (steady : s.Steady json tableFiles)
    (stocked : ∀ name, Stocked json (tableFiles name)) (named : name ≠ "")
    (cleans : Cleans json s name key t) :
    t.Calm json tableFiles ∧
      Wrote s t name (cleanWrites json (s.value json tableFiles name key) key)
        (cleanWrites json (s.value json tableFiles name key) key) := by
  have old {s₁ : Store} (waits : Waits json s s₁) :
      (s₁.router.getRawManifest json name key).1 = s.value json tableFiles name key := by
    rw [(steady.waits stocked waits).oldValue stocked,
      value_congr (steady.calm.waits waits).2.newest]
  cases cleans with
  | absent waits uncounted =>
      obtain ⟨calm₁, still₁⟩ := steady.calm.waits waits
      obtain ⟨calm₂, still₂⟩ := calm₁.lookedUp name key
      rw [old waits] at uncounted
      rw [cleanWrites, uncounted]
      exact ⟨calm₂, (still₁.trans still₂).wrote name⟩
  | @cleaned s₁ _ count _ waits counted sets =>
      obtain ⟨calm₁, still₁⟩ := steady.calm.waits waits
      obtain ⟨calm₂, still₂⟩ := calm₁.lookedUp name key
      obtain ⟨calm₃, _, wrote⟩ := calm₂.setsEach_wrote named (tombstones_keyed key count) sets
      rw [old waits] at counted
      rw [cleanWrites, counted]
      exact ⟨calm₃, by simpa using ((still₁.trans still₂).wrote name).trans wrote⟩

theorem recalled_wrote (calm : s.Calm json tableFiles) (name key : String) (value : Value) :
    Wrote s (s.recalled name key value) name [] [(key, value)] := by
  have alike := (recalled_alike calm.sound.cache name key value).2
  constructor
  · intro other otherKey
    simp [alike.newest]
  · intro other otherKey held known
    rcases recalled_cached calm.sound.cache calm.room name key value known with
      ⟨⟨rfl, rfl⟩, rfl⟩ | ⟨outside, before⟩
    · exact Or.inl ⟨rfl, by simp [lastOf]⟩
    · refine Or.inr ⟨fun here => ?_, before⟩
      have different : key ≠ otherKey := fun same => outside ⟨here, same.symm⟩
      simp [lastOf, different]

/-- The branch for large values: all its records, or those before the first that does not
pack. -/
theorem Calm.writesLarge_wrote {text : Bytes} (calm : s.Calm json tableFiles)
    (named : ¬ (name = "" ∨ key = ""))
    (writes : WritesLarge json codec s name key value text result t) :
    t.Calm json tableFiles ∧
      ((result = .ok () ∧ (largeRecords codec key text).all (packs json) = true ∧
          Wrote s t name (largeRecords codec key text)
            (largeRecords codec key text ++ [(key, value)])) ∨
        (result ≠ .ok () ∧ (largeRecords codec key text).all (packs json) = false ∧
          Wrote s t name ((largeRecords codec key text).takeWhile (packs json))
            ((largeRecords codec key text).takeWhile (packs json)))) := by
  have keyed := chunkRecords_keyed codec key (cutChunks (codec.compress text))
  have first := (not_or.mp named).1
  cases writes with
  | @uncut _ e chunked =>
      obtain ⟨calm₁, packed, wrote⟩ := calm.setsEach_wrote first keyed chunked
      have some_not : (chunkRecords codec key (cutChunks (codec.compress text))).all (packs json) =
          false := by simpa using packed
      refine ⟨calm₁, Or.inr ⟨by simp, by simp [largeRecords, List.all_append, some_not], ?_⟩⟩
      rw [largeRecords, List.takeWhile_append, if_neg]
      · exact wrote
      · intro whole
        have all := List.takeWhile_eq_self_iff.mp (List.IsPrefix.eq_of_length
          (List.takeWhile_prefix _) whole)
        rw [List.all_eq_false] at some_not
        obtain ⟨record, member, fails⟩ := some_not
        exact fails (all record member)
  | @unlisted s₁ _ e chunked listed =>
      obtain ⟨calm₁, packed, wrote⟩ := calm.setsEach_wrote first keyed chunked
      obtain ⟨calm₂, listed_packed, wrote'⟩ := calm₁.setsInternal_wrote named listed
      have all := packed.mp rfl
      have last : packs json (key, manifest (cutChunks (codec.compress text)).length text.length) =
          false := by simpa using listed_packed
      refine ⟨calm₂, Or.inr ⟨by simp, by simp [largeRecords, List.all_append, last], ?_⟩⟩
      have each : ∀ record ∈ chunkRecords codec key (cutChunks (codec.compress text)),
          packs json record = true := List.all_eq_true.mp all
      rw [largeRecords, List.takeWhile_append_of_pos each]
      rw [List.takeWhile_eq_self_iff.mpr each] at wrote
      exact wrote.trans wrote'
  | @written s₁ s₂ s₃ chunked listed waits =>
      obtain ⟨calm₁, packed, wrote⟩ := calm.setsEach_wrote first keyed chunked
      obtain ⟨calm₂, listed_packed, wrote'⟩ := calm₁.setsInternal_wrote named listed
      obtain ⟨calm₃, still₃⟩ := calm₂.waits waits
      have all := packed.mp rfl
      have last := listed_packed.mp rfl
      have each : ∀ record ∈ chunkRecords codec key (cutChunks (codec.compress text)),
          packs json record = true := List.all_eq_true.mp all
      have stored := (recalled_alike calm₃.sound.cache name key value).1
      refine ⟨(calm₃.recalled name key value).1, Or.inl ⟨stored, ?_, ?_⟩⟩
      · simp [largeRecords, List.all_append, last]
        exact fun key value member => each (key, value) member
      · rw [List.takeWhile_eq_self_iff.mpr each] at wrote
        have single : [(key, manifest (cutChunks (codec.compress text)).length text.length)].takeWhile
            (packs json) = [(key, manifest (cutChunks (codec.compress text)).length text.length)] := by
          simp [last]
        rw [single] at wrote'
        have whole := ((wrote.trans wrote').trans (still₃.wrote name)).trans
          (recalled_wrote calm₃ name key value)
        show Wrote s (s₃.recalled name key value) name _ _
        simpa [largeRecords] using whole

/-- What a call of `set` puts into the cache. -/
def setPuts (json : Json) (codec : Codec) (old : Value) (key : String) (value : Value) :
    List (String × Value) :=
  setWrites json codec old key value ++ [(key, value)].takeWhile fun _ =>
    match largeText json key value with
    | some text => (largeRecords codec key text).all (packs json)
    | none => false

/-- A call of `set` writes and caches what its arguments and the old value of the key say. -/
theorem Steady.sets_wrote (steady : s.Steady json tableFiles)
    (stocked : ∀ name, Stocked json (tableFiles name)) (named : ¬ (name = "" ∨ key = ""))
    (sets : Sets json codec s name key value result t) :
    t.Steady json tableFiles ∧
      Wrote s t name (setWrites json codec (s.value json tableFiles name key) key value)
        (setPuts json codec (s.value json tableFiles name key) key value) ∧
      (result = .ok () ↔ packs json (key, value) = true ∨
        ∃ text, largeText json key value = some text ∧
          (largeRecords codec key text).all (packs json) = true) := by
  refine ⟨steady.sets stocked sets, ?_⟩
  have first := (not_or.mp named).1
  cases sets with
  | unnamed empty => exact absurd empty named
  | @large s₁ _ text _ large cleans writes =>
      obtain ⟨calm₁, cleaned⟩ := steady.cleans_wrote stocked first cleans
      obtain ⟨_, ⟨_, all, wrote⟩ | ⟨failed, _⟩⟩ := calm₁.writesLarge_wrote named writes
      · refine ⟨?_, fun _ => Or.inr ⟨_, large, all⟩, fun _ => rfl⟩
        simpa [setWrites, setPuts, large, all] using cleaned.trans wrote
      · exact absurd rfl failed
  | @uncut s₁ s₂ _ text e _ _ large cleans writes last =>
      obtain ⟨calm₁, cleaned⟩ := steady.cleans_wrote stocked first cleans
      obtain ⟨calm₂, ⟨failed, _⟩ | ⟨_, some_not, wrote⟩⟩ := calm₁.writesLarge_wrote named writes
      · cases failed
      · obtain ⟨_, packed, wrote'⟩ := calm₂.setsInternal_wrote named last
        refine ⟨?_, packed.trans ⟨Or.inl, ?_⟩⟩
        · simpa [setWrites, setPuts, large, some_not] using (cleaned.trans wrote).trans wrote'
        · rintro (packs | ⟨text', large', all⟩)
          · exact packs
          · rw [large, Option.some.injEq] at large'
            rw [← large', some_not] at all
            cases all
  | small _ small plain cleans last =>
      obtain ⟨calm₁, cleaned⟩ := steady.cleans_wrote stocked first cleans
      obtain ⟨_, packed, wrote⟩ := calm₁.setsInternal_wrote named last
      refine ⟨?_, by simp [small, packed]⟩
      simpa [setWrites, setPuts, small, plain] using cleaned.trans wrote
  | chunk _ small chunk last =>
      obtain ⟨_, packed, wrote⟩ := steady.calm.setsInternal_wrote named last
      refine ⟨?_, by simp [small, packed]⟩
      simpa [setWrites, setPuts, small, chunk] using wrote

theorem lastOf_entries (entries : List Entry) (key : String) :
    lastOf (entries.map fun e => (e.key, e.value)) key =
      (latest entries.reverse key).map Entry.value := by
  induction entries with
  | nil => rfl
  | cons e entries ih =>
      rw [List.map_cons, lastOf, ih, List.reverse_cons, latest_append, latest_cons, latest_nil]
      cases latest entries.reverse key with
      | some newest => rfl
      | none => by_cases same : e.key = key <;> simp [same]

/-- What a step writes into one table. -/
theorem Calm.enters_wrote {e : Event} {entries : List Entry} {txIds : List Nat}
    (calm : s.Calm json tableFiles) (step : SingleStep json s e t)
    (acted : ∀ other, s.actOn json other e = if name = other then .enter entries txIds else .stay)
    (unlooked : ∀ name key, e ≠ .getLocked name key) :
    Wrote s t name (entries.map fun e => (e.key, e.value)) (entries.map fun e => (e.key, e.value)) := by
  obtain ⟨within, fixed⟩ := calm.enters step acted unlooked
  have unwritten {key : String} (missing : latest entries.reverse key = none) :
      key ∉ entries.map Entry.key := by
    intro member
    obtain ⟨entry, there, rfl⟩ := List.mem_map.mp member
    obtain ⟨newest, found⟩ := latest_isSome (List.mem_reverse.mpr there)
    rw [missing] at found
    cases found
  constructor
  · intro other otherKey
    rw [lastOf_entries]
    by_cases here : other = name
    · subst here
      cases found : latest entries.reverse otherKey with
      | some new => simpa using (fixed otherKey new found).newest
      | none =>
          rw [within.newest other otherKey fun inside => unwritten found inside.2]
          simp
    · rw [within.newest other otherKey fun inside => here inside.1, if_neg here]
  · intro other otherKey held known
    rw [lastOf_entries]
    by_cases here : other = name
    · subst here
      cases found : latest entries.reverse otherKey with
      | some new =>
          have same := (fixed otherKey new found).cached held known
          exact Or.inl ⟨rfl, by simp [same]⟩
      | none =>
          exact Or.inr ⟨fun _ => rfl,
            within.cached other otherKey held (fun inside => unwritten found inside.2) known⟩
    · exact Or.inr ⟨fun same => absurd same here,
        within.cached other otherKey held (fun inside => here inside.1) known⟩

/-- A call of `set_many` writes its records up to the first empty key, unless one cannot be
packed. -/
theorem Steady.setsMany_wrote (steady : s.Steady json tableFiles)
    (stocked : ∀ name, Stocked json (tableFiles name)) (distinct : (records.map Prod.fst).Nodup)
    (named : name ≠ "") (sets : SetsMany json s name records result t) :
    t.Steady json tableFiles ∧
      Wrote s t name (manyWrites json records) (manyWrites json records) ∧
      (result = .ok () → manyWrites json records = records) := by
  obtain ⟨calm', passes, _⟩ := steady.calm.setsMany distinct sets
  refine ⟨steady.passes stocked passes calm', ?_⟩
  cases sets with
  | unnamed empty =>
      rw [empty.resolve_left named]
      exact ⟨Wrote.refl s name, fun _ => rfl⟩
  | @unpackable e _ failed =>
      have some_not : ¬ records.all (packs json) = true := by
        intro all
        obtain ⟨packed, ok⟩ := packRecords_ok_iff.mpr fun record member =>
          packs_iff.mp (List.all_eq_true.mp all record member)
        rw [ok] at failed
        cases failed
      rw [manyWrites, if_neg some_not]
      exact ⟨Wrote.refl s name, fun ok => (by cases ok)⟩
  | @written packedRecords s₁ s₂ s₃ s₄ _ txIds events nonempty packed waits appended waits' logged
      inserted behind idle =>
      obtain ⟨calm₃, _, before, ids, keys, acted⟩ :=
        steady.calm.logged packed waits appended waits' logged
      obtain ⟨_, still₅⟩ := (calm₃.step inserted).runBehind behind
      have length : packedRecords.length = records.length := by
        simpa using congrArg List.length keys
      have entered := calm₃.enters_wrote inserted acted fun _ _ same => by cases same
      rw [entriesOf_records keys ids] at entered
      have all : records.all (packs json) = true := by
        rw [List.all_eq_true]
        exact fun record member => packs_iff.mpr (packRecords_ok_iff.mp ⟨packedRecords, packed⟩ record member)
      have whole : Wrote s t name (manyWrites json records) (manyWrites json records) := by
        rw [manyWrites, if_pos all]
        simpa using ((before.wrote name).trans entered).trans (still₅.wrote name)
      refine ⟨whole, fun ok => ?_⟩
      rw [setManyLocked_result calm₃.sound.cache name length ids] at ok
      have keyed : ∀ record ∈ records, record.1 ≠ "" := by
        by_contra unnamed
        rw [if_neg fun named => unnamed ((all_named keys).mp named)] at ok
        cases ok
      rw [manyWrites, if_pos all, List.takeWhile_eq_self_iff]
      exact fun record member => decide_eq_true (keyed record member)

end

end Store

end CachyDb
