import CachyDb.Storage.Calls

set_option autoImplicit false

/-! The router as a dictionary of records: what its tables hold after a list of calls, and what a
read of them comes to, whatever the cache and the flushes do. -/

namespace CachyDb

open ByteString Router Transition

/-- The values of the records under tables and keys, the chunks included. -/
abbrev Dictionary := String → String → Value

namespace Dictionary

def empty : Dictionary := fun _ _ => .null

/-- Records go into a table. -/
def write (d : Dictionary) (name : String) (records : List (String × Value)) : Dictionary :=
  fun other key => if other = name then (lastOf records key).getD (d other key) else d other key

/-- What a read of the key comes to. -/
def read (json : Json) (decoder : Decoder) (d : Dictionary) (name key : String) : Value :=
  Store.reading json decoder (fun i => d name (chunkKey key i)) (d name key)

/-- What a call writes. -/
def after (json : Json) (codec : Codec) (d : Dictionary) : Store.Call → Dictionary
  | .set name key value =>
      if name = "" ∨ key = "" then d
      else d.write name (setWrites json codec (d name key) key value)
  | .setMany name records => if name = "" then d else d.write name (manyWrites json records)
  | .get _ _ => d

def afterAll (json : Json) (codec : Codec) (d : Dictionary) (calls : List Store.Call) :
    Dictionary :=
  calls.foldl (after json codec) d

/-- What a `get` returns or raises. -/
def answer (json : Json) (decoder : Decoder) (d : Dictionary) (name key : String) :
    Except RouterError Value :=
  if name = "" ∨ key = "" then .error .emptyName else .ok (d.read json decoder name key)

/-- A call whose values JSON gives back, that brings no flagged value but a small one under an
ordinary key, writes no chunk of a key that has a flagged value, and reads no flagged value out of
chunks. -/
def Clear (json : Json) (decoder : Decoder) (d : Dictionary) : Store.Call → Prop
  | .set name key value => json.Faithful value ∧
      (flagged overflowFlag value = true →
        isChunkKey key = false ∧ largeText json key value = none) ∧
      ∀ other i, key = chunkKey other i → flagged overflowFlag (d name other) = false
  | .setMany name records =>
      (∀ record ∈ records, json.Faithful record.2 ∧
        (flagged overflowFlag record.2 = true → isChunkKey record.1 = false)) ∧
      ∀ other i, chunkKey other i ∈ (manyWrites json records).map Prod.fst →
        other ∈ (manyWrites json records).map Prod.fst ∨ flagged overflowFlag (d name other) = false
  | .get name key => flagged overflowFlag (d name key) = true →
      flagged overflowFlag (d.read json decoder name key) = false

/-- Each of the calls is so, where it comes in the list. -/
def Throughout (json : Json) (codec : Codec) (d : Dictionary) (P : Dictionary → Store.Call → Prop)
    (calls : List Store.Call) : Prop :=
  ∀ before call rest, calls = before ++ call :: rest → P (afterAll json codec d before) call

/-- What may stand in the cache: the value, or what its chunks come to. -/
def Held (json : Json) (decoder : Decoder) (d : Dictionary) (name key : String) (held : Value) :
    Prop :=
  held = d name key ∨ (flagged overflowFlag (d name key) = true ∧
    flagged overflowFlag held = false ∧ held = d.read json decoder name key)

section

variable {json : Json} {codec : Codec} {decoder : Decoder} {d d' : Dictionary} {name key : String}
  {held : Value}

theorem afterAll_append (calls : List Store.Call) (call : Store.Call) :
    afterAll json codec d (calls ++ [call]) =
      after json codec (afterAll json codec d calls) call := by
  rw [afterAll, List.foldl_append]
  rfl

theorem Throughout.init {P : Dictionary → Store.Call → Prop} {calls : List Store.Call}
    {call : Store.Call} (all : Throughout json codec d P (calls ++ [call])) :
    Throughout json codec d P calls ∧ P (afterAll json codec d calls) call := by
  constructor
  · rintro before other rest rfl
    exact all before other (rest ++ [call]) (by simp)
  · exact all calls call [] rfl

theorem Throughout.nil {P : Dictionary → Store.Call → Prop} : Throughout json codec d P [] := by
  intro before call rest split
  simp at split

theorem Throughout.snoc {P : Dictionary → Store.Call → Prop} {calls : List Store.Call}
    {call : Store.Call} (all : Throughout json codec d P calls)
    (last : P (afterAll json codec d calls) call) :
    Throughout json codec d P (calls ++ [call]) := by
  intro before other rest split
  rcases List.eq_nil_or_concat rest with rfl | ⟨rest, final, rfl⟩
  · obtain ⟨rfl, same⟩ := List.append_inj' split rfl
    cases same
    exact last
  · rw [List.concat_eq_append, ← List.cons_append, ← List.append_assoc] at split
    obtain ⟨same, _⟩ := List.append_inj' split rfl
    exact all before other rest same

theorem Held.read (of : Held json decoder d name key held) :
    Store.reading json decoder (fun i => d name (chunkKey key i)) held =
      d.read json decoder name key := by
  rcases of with rfl | ⟨_, unflagged, same⟩
  · rfl
  · rw [Store.reading_unflagged unflagged, same]

theorem Held.unflagged (of : Held json decoder d name key held)
    (plain : flagged overflowFlag (d name key) = false) : held = d name key := by
  rcases of with same | ⟨flag, _⟩
  · exact same
  · rw [plain] at flag
    cases flag

theorem Held.flagged (of : Held json decoder d name key held)
    (flag : Router.flagged overflowFlag held = true) : held = d name key := by
  rcases of with same | ⟨_, unflagged, _⟩
  · exact same
  · rw [flag] at unflagged
    cases unflagged

theorem Held.congr (of : Held json decoder d name key held) (same : d' name key = d name key)
    (chunks : Router.flagged overflowFlag (d name key) = true →
      ∀ i, d' name (chunkKey key i) = d name (chunkKey key i)) :
    Held json decoder d' name key held := by
  rcases of with equal | ⟨flag, unflagged, equal⟩
  · exact Or.inl (equal.trans same.symm)
  · refine Or.inr ⟨same ▸ flag, unflagged, ?_⟩
    rw [equal, Dictionary.read, Dictionary.read, same]
    exact congrArg (Store.reading json decoder · (d name key))
      (funext fun i => (chunks flag i).symm)

end

end Dictionary

namespace Store

open Dictionary

/-- The tables hold what the dictionary holds, and the cache nothing that reads otherwise. -/
structure Mirrors (json : Json) (decoder : Decoder) (tableFiles : String → File) (s : Store)
    (d : Dictionary) : Prop where
  steady : s.Steady json tableFiles
  value : ∀ name key, s.value json tableFiles name key = d name key
  cached : ∀ name key held, s.cached name key = some held → Held json decoder d name key held
  chunks : ∀ name key, isChunkKey key = true → flagged overflowFlag (d name key) = false

section

variable {json : Json} {codec : Codec} {decoder : Decoder} {tableFiles : String → File}
  {d d' : Dictionary} {s t : Store} {name key : String} {given : Value}
  {records : List (String × Value)}

theorem Mirrors.findable (mirrors : s.Mirrors json decoder tableFiles d) {found : Value}
    (findable : Findable json tableFiles s name key found) :
    Held json decoder d name key found := by
  rcases findable with known | rfl
  · exact mirrors.cached name key found known
  · exact Or.inl (mirrors.value name key)

/-- A read gives what the dictionary says. -/
theorem Mirrors.reads (mirrors : s.Mirrors json decoder tableFiles d)
    (stocked : ∀ name, Stocked json (tableFiles name)) (named : ¬ (name = "" ∨ key = "")) :
    (∃ t, Reads json decoder s name key (.ok (d.read json decoder name key)) t) ∧
      ∀ result t, Reads json decoder s name key result t →
        result = .ok (d.read json decoder name key) := by
  have values : (fun i => s.value json tableFiles name (chunkKey key i)) =
      fun i => d name (chunkKey key i) := funext fun i => mirrors.value name _
  have caches : s.Caches name key {found | Held json decoder d name key found} :=
    mirrors.cached name key
  apply mirrors.steady.reads stocked named caches
    (Or.inl (mirrors.value name key))
  · intro found held flag count counted i inside other known
    have unflagged := mirrors.chunks name _ (isChunkKey_chunkKey key i)
    rw [Set.mem_singleton_iff, mirrors.value]
    exact (mirrors.cached name _ other known).unflagged unflagged
  · intro found held
    rw [values]
    exact held.read

/-- A step after which the cache has values that read as the dictionary does, or that it had
before for keys that read as before. -/
theorem Mirrors.step (mirrors : s.Mirrors json decoder tableFiles d)
    (steady : t.Steady json tableFiles)
    (value : ∀ name key, t.value json tableFiles name key = d' name key)
    (cached : ∀ name key held, t.cached name key = some held → Held json decoder d' name key held ∨
      (s.cached name key = some held ∧ d' name key = d name key ∧
        (flagged overflowFlag (d name key) = true →
          ∀ i, d' name (chunkKey key i) = d name (chunkKey key i))))
    (chunks : ∀ name key, isChunkKey key = true → flagged overflowFlag (d' name key) = false) :
    t.Mirrors json decoder tableFiles d' := by
  refine ⟨steady, value, fun name key held known => ?_, chunks⟩
  rcases cached name key held known with holds | ⟨before, same, apart⟩
  · exact holds
  · exact (mirrors.cached name key held before).congr same apart

/-- A `get` leaves the dictionary, and caches what it returns. -/
theorem Mirrors.get (mirrors : s.Mirrors json decoder tableFiles d)
    (stocked : ∀ name, Stocked json (tableFiles name))
    (clear : Clear json decoder d (.get name key))
    {result : Except RouterError Value} (reads : Reads json decoder s name key result t) :
    t.Mirrors json decoder tableFiles d ∧ result = d.answer json decoder name key := by
  have straight : isChunkKey key = true → ∀ found,
      Findable json tableFiles s name key found → flagged overflowFlag found = false := by
    intro chunk found findable
    rw [(mirrors.findable findable).unflagged (mirrors.chunks name key chunk)]
    exact mirrors.chunks name key chunk
  obtain ⟨steady', newest, cached⟩ :=
    mirrors.steady.reads_kept stocked straight reads
  by_cases named : name = "" ∨ key = ""
  · cases reads with
    | unnamed _ => exact ⟨mirrors, by rw [answer, if_pos named]⟩
    | _ => contradiction
  · have only := (mirrors.reads stocked named).2 result t reads
    refine ⟨mirrors.step steady' ?_ ?_ mirrors.chunks, by rw [answer, if_neg named, only]⟩
    · intro other otherKey
      rw [value_congr newest]
      exact mirrors.value other otherKey
    · intro other otherKey held known
      left
      rcases cached other otherKey held known with
        findable | ⟨rfl, rfl, returned, found, findable, flag⟩
      · exact mirrors.findable findable
      · have same := (mirrors.findable findable).flagged flag
        rw [only, Except.ok.injEq] at returned
        rw [same] at flag
        exact Or.inr ⟨flag, returned ▸ clear flag, returned.symm⟩

/-- Records of a `set` under keys that are too long are neither written nor cached. -/
theorem setPuts_short {old : Value} {record : String × Value}
    (member : record ∈ setPuts json codec old key given) :
    (encodeKey record.1).length ≤ maxKeyBytes := by
  have packed {other : String} {value : Value} (packs : packs json (other, value) = true) :
      (encodeKey other).length ≤ maxKeyBytes := by
    obtain ⟨payload, packing⟩ := packs_iff.mp packs
    obtain ⟨_, _, short, _⟩ := packRecord_ok packing
    exact short
  have taken {records : List (String × Value)} (member : record ∈ records.takeWhile (packs json)) :
      (encodeKey record.1).length ≤ maxKeyBytes := packed (List.mem_takeWhile_imp member)
  have cleaned (member : record ∈ cleanWrites json old key) :
      (encodeKey record.1).length ≤ maxKeyBytes := by
    unfold cleanWrites at member
    split at member
    · cases member
    · exact taken member
  unfold setPuts setWrites at member
  cases large : largeText json key given with
  | none =>
      simp only [large, List.takeWhile_cons_of_neg, List.append_nil, Bool.false_eq_true,
        not_false_eq_true] at member
      rcases List.mem_append.mp member with clean | last
      · split at clean
        · cases clean
        · exact cleaned clean
      · exact taken last
  | some text =>
      by_cases all : (largeRecords codec key text).all (packs json) = true
      · have each := List.all_eq_true.mp all
        simp only [large, if_pos all, List.mem_append] at member
        rcases member with (clean | record_mem) | last
        · exact cleaned clean
        · exact packed (each _ record_mem)
        · rw [List.mem_singleton.mp ((List.takeWhile_sublist _).subset last)]
          have listed := each (key, manifest (cutChunks (codec.compress text)).length text.length)
            (by simp [largeRecords])
          exact packed listed
      · simp only [large, if_neg all, List.mem_append] at member
        rcases member with (clean | front | last) | last
        · exact cleaned clean
        · exact taken front
        · exact taken last
        · rw [List.takeWhile_cons_of_neg (by simpa using all)] at last
          cases last

/-- What a `set` writes elsewhere is not flagged. -/
theorem setWrites_mem {old : Value} {record : String × Value}
    (member : record ∈ setWrites json codec old key given) :
    flagged overflowFlag record.2 = false ∨
      (record.1 = key ∧ (record.2 = given ∨ isChunkKey key = false)) := by
  have cleaned (member : record ∈ cleanWrites json old key) :
      flagged overflowFlag record.2 = false := by
    unfold cleanWrites at member
    split at member
    · cases member
    · obtain ⟨i, _, rfl⟩ := List.mem_map.mp ((List.takeWhile_sublist _).subset member)
      rfl
  have last (member : record ∈ [(key, given)].takeWhile (packs json)) : record = (key, given) :=
    List.mem_singleton.mp ((List.takeWhile_sublist _).subset member)
  unfold setWrites at member
  cases large : largeText json key given with
  | none =>
      simp only [large] at member
      rcases List.mem_append.mp member with clean | there
      · split at clean
        · cases clean
        · exact Or.inl (cleaned clean)
      · rw [last there]
        exact Or.inr ⟨rfl, Or.inl rfl⟩
  | some text =>
      have chunked (member : record ∈ largeRecords codec key text) :
          flagged overflowFlag record.2 = false ∨
            (record.1 = key ∧ (record.2 = given ∨ isChunkKey key = false)) := by
        rcases List.mem_append.mp member with chunk | listed
        · obtain ⟨i, _, rfl⟩ := List.mem_mapIdx.mp chunk
          exact Or.inl rfl
        · rw [List.mem_singleton.mp listed]
          exact Or.inr ⟨rfl, Or.inr (largeText_plain large)⟩
      simp only [large] at member
      split at member
      · rcases List.mem_append.mp member with clean | there
        · exact Or.inl (cleaned clean)
        · exact chunked there
      · simp only [List.mem_append] at member
        rcases member with clean | front | there
        · exact Or.inl (cleaned clean)
        · exact chunked ((List.takeWhile_sublist _).subset front)
        · rw [last there]
          exact Or.inr ⟨rfl, Or.inl rfl⟩

/-- The value that a `set` puts into the cache last is not among its chunks. -/
theorem lastOf_setPuts {old : Value} {other : String} (different : other ≠ key) :
    lastOf (setPuts json codec old key given) other =
      lastOf (setWrites json codec old key given) other := by
  rw [setPuts, lastOf_append, lastOf_none.mpr, Option.none_or]
  intro member
  obtain ⟨record, there, rfl⟩ := List.mem_map.mp member
  rw [List.mem_singleton.mp ((List.takeWhile_sublist _).subset there)] at different
  exact different rfl

/-- Behind a call that returns the cache has its value, which is what the tables come to. -/
theorem Laid.held (laid : Laid json codec t name key given) (inverts : decoder.Inverts codec)
    (faithful : json.Faithful given)
    (small : flagged overflowFlag given = true → largeText json key given = none)
    (value : ∀ key, t.value json tableFiles name key = d' name key) {held : Value}
    (known : t.cached name key = some held) : Held json decoder d' name key held := by
  obtain rfl := laid.cached held known
  rcases laid.written with newest | ⟨text, large, chunked⟩
  · exact Or.inl ((value_of_newest newest).symm.trans (value key))
  · obtain ⟨text', written, loads⟩ := faithful
    rw [largeText_dumps large, Option.some.injEq] at written
    have joined : Store.reading json decoder
        (fun i => t.value json tableFiles name (chunkKey key i))
        (manifest (cutChunks (codec.compress text)).length text.length) = held :=
      chunked.reading inverts (written ▸ loads)
    have listed := (value key).symm.trans (value_of_newest chunked.manifest)
    simp only [value] at joined
    refine Or.inr ⟨?_, ?_, ?_⟩
    · rw [listed]
      exact (flagged_manifest _ _).1
    · by_contra flag
      rw [small (by simpa using flag)] at large
      cases large
    · rw [Dictionary.read, listed, joined]

theorem Within.value {keys : Set String} (within : Within s t name keys) {other otherKey : String}
    (outside : ¬ (other = name ∧ otherKey ∈ keys)) :
    t.value json tableFiles other otherKey = s.value json tableFiles other otherKey := by
  rw [Store.value, Store.value, within.newest other otherKey outside]

/-- A key whose record cannot be packed has not been written, nor its chunks. -/
theorem Calm.long_unwritten (calm : s.Calm json tableFiles) {e : RouterError}
    (faithful : json.Faithful given) (failed : packRecord json key given = .error e) :
    s.newest name key = none ∧ ∀ i, s.newest name (chunkKey key i) = none := by
  obtain ⟨text, dumped, _⟩ := faithful
  have long : maxKeyBytes < (encodeKey key).length := by
    by_contra short
    rw [packRecord, if_neg short, dumped] at failed
    cases failed
  have unwritten {other : String} (longer : maxKeyBytes < (encodeKey other).length) :
      s.newest name other = none := by
    by_contra written
    obtain ⟨entry, newest⟩ := Option.ne_none_iff_exists'.mp written
    obtain ⟨member, rfl⟩ := latest_mem newest
    have packs := calm.sound.packed name entry member
    rw [packRecord, if_pos longer] at packs
    cases packs
  refine ⟨unwritten long, fun i => unwritten ?_⟩
  simp only [chunkKey, encodeKey_append, List.length_append]
  omega

/-- Such a call leaves the key and its chunks. -/
theorem Mirrors.unpacked (mirrors : s.Mirrors json decoder tableFiles d)
    (calm : t.Calm json tableFiles)
    (value : ∀ key, t.value json tableFiles name key = d' name key) {e : RouterError}
    (faithful : json.Faithful given) (failed : packRecord json key given = .error e) :
    d' name key = d name key ∧ ∀ i, d' name (chunkKey key i) = d name (chunkKey key i) := by
  obtain ⟨before, chunks⟩ :=
    @Calm.long_unwritten _ _ _ name _ _ mirrors.steady.calm _ faithful failed
  obtain ⟨behind, later⟩ := @Calm.long_unwritten _ _ _ name _ _ calm _ faithful failed
  refine ⟨?_, fun i => ?_⟩
  · rw [← value, ← mirrors.value, Store.value, Store.value, before, behind]
  · rw [← value, ← mirrors.value, Store.value, Store.value, chunks i, later i]

theorem Mirrors.set (inverts : decoder.Inverts codec)
    (mirrors : s.Mirrors json decoder tableFiles d)
    (stocked : ∀ name, Stocked json (tableFiles name))
    (clear : Clear json decoder d (.set name key given)) {result : Except RouterError Unit}
    (sets : Sets json codec s name key given result t) :
    t.Mirrors json decoder tableFiles (d.after json codec (.set name key given)) := by
  by_cases named : name = "" ∨ key = ""
  · rw [after, if_pos named]
    cases sets with
    | unnamed _ => exact mirrors
    | _ => contradiction
  · obtain ⟨faithful, unflagged, apart⟩ := clear
    obtain ⟨steady', wrote, _⟩ := mirrors.steady.sets_wrote stocked named sets
    obtain ⟨calm', within, outcome⟩ := mirrors.steady.calm.sets sets
    rw [mirrors.value] at wrote
    have value (other otherKey : String) : t.value json tableFiles other otherKey =
        d.after json codec (.set name key given) other otherKey := by
      rw [wrote.values, after, if_neg named, write, mirrors.value]
    -- the keys that the call does not touch
    have frame {other otherKey : String} (outside : ¬ (other = name ∧ otherKey ∈ touched key)) :
        d.after json codec (.set name key given) other otherKey = d other otherKey := by
      rw [← value, within.value outside, mirrors.value]
    refine mirrors.step steady' value (fun other otherKey held known => ?_)
      fun other otherKey chunk => ?_
    · by_cases here : other = name ∧ otherKey = key
      · obtain ⟨rfl, rfl⟩ := here
        rcases outcome with ⟨_, _, _, laid⟩ | ⟨_, ⟨unnamed, _⟩ | ⟨e, failed⟩⟩
        · exact Or.inl
            (laid.held inverts faithful (fun flag => (unflagged flag).2) (value other) known)
        · exact absurd unnamed named
        · right
          obtain ⟨same, chunks⟩ := mirrors.unpacked calm' (value other) faithful failed
          refine ⟨?_, same, fun _ => chunks⟩
          rcases wrote.cached other otherKey held known with ⟨_, put⟩ | ⟨_, kept⟩
          · obtain ⟨text, dumped, _⟩ := faithful
            obtain ⟨payload, packing⟩ := packRecord_short (setPuts_short (mem_of_lastOf put)) dumped
            rw [packing] at failed
            cases failed
          · exact kept
      · rcases wrote.cached other otherKey held known with ⟨rfl, put⟩ | ⟨unput, before⟩
        · have different : otherKey ≠ key := fun same => here ⟨rfl, same⟩
          rw [lastOf_setPuts different] at put
          left
          left
          rw [after, if_neg named, write, if_pos rfl, put]
          rfl
        · right
          refine ⟨before, ?_, fun flag i => ?_⟩
          · rw [after, if_neg named, write]
            split
            · rename_i same
              have different : otherKey ≠ key := fun key_same => here ⟨same, key_same⟩
              rw [← lastOf_setPuts different, unput same]
              rfl
            · rfl
          · apply frame
            rintro ⟨rfl, same | ⟨_, j, same⟩⟩
            · rw [apart otherKey i same.symm] at flag
              cases flag
            · exact here ⟨rfl, (chunkKey_injective same).1⟩
    · rw [after, if_neg named, write]
      split
      · rename_i same
        cases found : lastOf (setWrites json codec (d name key) key given) otherKey with
        | none => exact mirrors.chunks other otherKey chunk
        | some value =>
            rcases setWrites_mem (mem_of_lastOf found) with plain | ⟨rfl, rfl | plain⟩
            · exact plain
            · by_contra flag
              rw [(unflagged (by simpa using flag)).1] at chunk
              cases chunk
            · rw [chunk] at plain
              cases plain
      · exact mirrors.chunks other otherKey chunk

theorem manyWrites_mem {record : String × Value} (member : record ∈ manyWrites json records) :
    record ∈ records := by
  unfold manyWrites at member
  split at member
  · exact (List.takeWhile_sublist _).subset member
  · cases member

theorem Mirrors.setMany (mirrors : s.Mirrors json decoder tableFiles d)
    (stocked : ∀ name, Stocked json (tableFiles name))
    (clear : Clear json decoder d (.setMany name records)) (distinct : (records.map Prod.fst).Nodup)
    {result : Except RouterError Unit} (sets : SetsMany json s name records result t) :
    t.Mirrors json decoder tableFiles (d.after json codec (.setMany name records)) := by
  by_cases named : name = ""
  · rw [after, if_pos named]
    cases sets with
    | written nonempty _ _ _ _ _ _ _ _ => exact absurd (Or.inl named) nonempty
    | _ => exact mirrors
  · obtain ⟨unflagged, apart⟩ := clear
    obtain ⟨steady', wrote, _⟩ :=
      mirrors.steady.setsMany_wrote stocked distinct named sets
    have value (other otherKey : String) : t.value json tableFiles other otherKey =
        d.after json codec (.setMany name records) other otherKey := by
      rw [wrote.values, after, if_neg named, write, mirrors.value]
    refine mirrors.step steady' value (fun other otherKey held known => ?_)
      fun other otherKey chunk => ?_
    · rw [after, if_neg named]
      rcases wrote.cached other otherKey held known with ⟨rfl, put⟩ | ⟨unput, before⟩
      · left
        left
        rw [write, if_pos rfl, put]
        rfl
      · right
        refine ⟨before, ?_, fun flag i => ?_⟩
        · rw [write]
          split
          · rename_i same
            rw [unput same]
            rfl
          · rfl
        · rw [write]
          split
          · rename_i same
            subst same
            rw [lastOf_none.mpr]
            · rfl
            · intro inside
              rcases apart otherKey i inside with written | plain
              · exact lastOf_none.mp (unput rfl) written
              · rw [plain] at flag
                cases flag
          · rfl
    · rw [after, if_neg named, write]
      split
      · cases found : lastOf (manyWrites json records) otherKey with
        | none => exact mirrors.chunks other otherKey chunk
        | some value =>
            by_contra flag
            have plain :=
              (unflagged _ (manyWrites_mem (mem_of_lastOf found))).2 (by simpa using flag)
            rw [chunk] at plain
            cases plain
      · exact mirrors.chunks other otherKey chunk

/-- One call, with what it returns if it is a `get`. -/
theorem Mirrors.call (inverts : decoder.Inverts codec)
    (mirrors : s.Mirrors json decoder tableFiles d)
    (stocked : ∀ name, Stocked json (tableFiles name))
    {call : Call × Except RouterError Value} (clear : Clear json decoder d call.1)
    (performed : Calls json codec decoder s call t) :
    t.Mirrors json decoder tableFiles (d.after json codec call.1) ∧
      ∀ name key, call.1 = .get name key → call.2 = d.answer json decoder name key := by
  cases performed with
  | set sets => exact ⟨mirrors.set inverts stocked clear sets, fun _ _ same => by cases same⟩
  | setMany distinct sets =>
      exact ⟨mirrors.setMany stocked clear distinct sets, fun _ _ same => by cases same⟩
  | get reads =>
      obtain ⟨mirrors', answered⟩ := mirrors.get stocked clear reads
      refine ⟨mirrors', fun name key same => ?_⟩
      cases same
      exact answered

theorem fresh_mirrors (json : Json) (decoder : Decoder) {maxMemtableSize cacheCapacity : Nat}
    (limit : 0 < maxMemtableSize) (room : 0 < cacheCapacity) :
    (fresh maxMemtableSize cacheCapacity).Mirrors json decoder (fun _ => File.empty)
      Dictionary.empty :=
  ⟨fresh_steady json limit room, fresh_value json _ _, fun _ _ _ known => (by cases known),
    fun _ _ _ => rfl⟩

/-- After a run of such calls the router mirrors the dictionary, and every `get` on the way has
given what was in it. -/
theorem Mirrors.run (inverts : decoder.Inverts codec)
    (stocked : ∀ name, Stocked json (tableFiles name))
    (start : s.Mirrors json decoder tableFiles d) {calls : List (Call × Except RouterError Value)}
    (run : Run (Calls json codec decoder) s calls t)
    (clear : Throughout json codec d (Clear json decoder) (calls.map Prod.fst)) :
    t.Mirrors json decoder tableFiles (afterAll json codec d (calls.map Prod.fst)) ∧
      ∀ before name key result rest, calls = before ++ (.get name key, result) :: rest →
        result = (afterAll json codec d (before.map Prod.fst)).answer json decoder name key := by
  induction run with
  | nil =>
      refine ⟨start, fun before name key result rest split => ?_⟩
      simp at split
  | @snoc t u calls call _ step ih =>
      rw [List.map_append, List.map_singleton] at clear ⊢
      obtain ⟨clear, last⟩ := clear.init
      obtain ⟨mirrors, answers⟩ := ih clear
      obtain ⟨mirrors', answered⟩ := mirrors.call inverts stocked last step
      rw [afterAll_append]
      refine ⟨mirrors', fun before name key result rest split => ?_⟩
      rcases List.eq_nil_or_concat rest with rfl | ⟨rest, final, rfl⟩
      · obtain ⟨rfl, same⟩ := List.append_inj' split rfl
        cases same
        exact answered name key rfl
      · rw [List.concat_eq_append, ← List.cons_append, ← List.append_assoc] at split
        obtain ⟨same, _⟩ := List.append_inj' split rfl
        exact answers before name key result rest same

end

/-- A small value is written where nothing has been written before. -/
theorem small_set {capacity : Nat} (room : 0 < capacity) {name : String} (named : name ≠ "")
    {value : Value} (small : largeText manifestJson "k" value = none)
    (clear : Clear manifestJson longDecoder Dictionary.empty (.set name "k" value)) :
    ∃ s, Sets manifestJson longCodec (fresh 100 capacity) name "k" value (.ok ()) s ∧
      s.Mirrors manifestJson longDecoder (fun _ => File.empty)
        (Dictionary.empty.after manifestJson longCodec (.set name "k" value)) := by
  have steady := fresh_steady manifestJson (show 0 < 100 by decide) room
  have unset := fresh_value manifestJson 100 capacity name "k"
  have roomy : (fresh 100 capacity).Roomy (chunkCount ((fresh 100 capacity).value manifestJson
      (fun _ => File.empty) name "k") + (1 + 90)) := by
    rw [unset]
    intro other
    show 0 + (0 + (1 + 90)) < 100
    decide
  have written : ∃ s,
      Sets manifestJson longCodec (fresh 100 capacity) name "k" value (.ok ()) s ∧
      s.Steady manifestJson (fun _ => File.empty) ∧ s.Roomy 90 := by
    refine steady.setsSmall_ends (fun _ => empty_stocked _) (by simp [named]) (by decide)
      small roomy clear.1 (packs_of_short (by decide) clear.1) ?_
    rw [unset]
    intro record member
    cases member
  obtain ⟨s, sets, _⟩ := written
  exact ⟨s, sets, (fresh_mirrors manifestJson longDecoder (show 0 < 100 by decide) room).set
    longDecoder_inverts (fun _ => empty_stocked _) clear sets⟩

theorem string_set {capacity : Nat} (room : 0 < capacity) {name : String} (named : name ≠ "") :
    ∃ s, Sets manifestJson longCodec (fresh 100 capacity) name "k" (.str "x") (.ok ()) s ∧
      s.Mirrors manifestJson longDecoder (fun _ => File.empty)
        (Dictionary.empty.after manifestJson longCodec (.set name "k" (.str "x"))) := by
  apply small_set room named (by decide)
  exact ⟨manifestJson_string "x", fun flag => (by cases flag), fun other i same =>
    absurd same (ne_chunkKey (by decide) other i)⟩

/-- A string, written and read. -/
theorem string_run {capacity : Nat} (room : 0 < capacity) : ∃ s,
    Run (Calls manifestJson longCodec longDecoder) (fresh 100 capacity)
      [(.set "t" "k" (.str "x"), .ok (.bool true)), (.get "t" "k", .ok (.str "x"))] s := by
  obtain ⟨s, sets, mirrors⟩ := string_set room (show "t" ≠ "" by decide)
  obtain ⟨⟨t, reads⟩, _⟩ := mirrors.reads (fun _ => empty_stocked _)
    (show ¬ ("t" = "" ∨ "k" = "") by decide)
  exact ⟨t, .snoc (.snoc (.nil _) (.set sets)) (.get reads)⟩

end Store

end CachyDb
