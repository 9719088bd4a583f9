import CachyDb.Storage.Dictionary
import CachyDb.Storage.Filed
import CachyDb.Storage.Opening
import CachyDb.Storage.TablePath

set_option autoImplicit false

/-! Two tables in one directory: what a `get` on one of them returns does not depend on the calls
on the other, as long as their files are not the same. -/

namespace CachyDb

open ByteString Router Transition TableHandler

namespace Dictionary

/-- What the calls of `get` on one table return. -/
def answers (json : Json) (codec : Codec) (decoder : Decoder) (name : String) :
    Dictionary → List Store.Call → List (Except RouterError Value)
  | _, [] => []
  | d, call :: rest =>
      (match call with
      | .get other key => if other = name then [d.answer json decoder name key] else []
      | _ => []) ++ answers json codec decoder name (d.after json codec call) rest

section

variable {json : Json} {codec : Codec} {decoder : Decoder} {d d' : Dictionary} {name : String}
  {call : Store.Call}

theorem write_congr (same : d name = d' name) (records : List (String × Value)) :
    d.write name records name = d'.write name records name := by
  funext key
  simp only [write, if_pos, same]

theorem after_congr (same : d name = d' name) (here : call.table = name) :
    d.after json codec call name = d'.after json codec call name := by
  cases call with
  | set other key value =>
      obtain rfl : other = name := here
      simp only [after]
      split
      · exact same
      · rw [same]
        exact write_congr same _
  | setMany other records =>
      obtain rfl : other = name := here
      simp only [after]
      split
      · exact same
      · exact write_congr same _
  | get other key => exact same

theorem after_other (elsewhere : call.table ≠ name) : d.after json codec call name = d name := by
  have untouched (other : String) (records : List (String × Value)) (different : other ≠ name) :
      d.write other records name = d name := by
    funext key
    rw [write, if_neg different.symm]
  cases call with
  | set other key value =>
      simp only [after]
      split
      · rfl
      · exact untouched other _ elsewhere
  | setMany other records =>
      simp only [after]
      split
      · rfl
      · exact untouched other _ elsewhere
  | get other key => rfl

theorem read_congr (same : d name = d' name) (key : String) :
    d.read json decoder name key = d'.read json decoder name key := by
  simp only [read, same]

theorem Clear.congr (same : d name = d' name) (here : call.table = name)
    (clear : Clear json decoder d call) : Clear json decoder d' call := by
  cases call with
  | set other key value =>
      obtain rfl : other = name := here
      simpa only [Clear, same] using clear
  | setMany other records =>
      obtain rfl : other = name := here
      simpa only [Clear, same] using clear
  | get other key =>
      obtain rfl : other = name := here
      simpa only [Clear, same, read_congr same] using clear

/-- The calls on one table make what is in it. -/
theorem afterAll_filter (calls : List Store.Call) :
    afterAll json codec d (calls.filter fun call => call.table = name) name =
      afterAll json codec d calls name := by
  induction calls using List.reverseRecOn with
  | nil => rfl
  | append_singleton calls call ih =>
      rw [List.filter_append, afterAll_append]
      by_cases here : call.table = name
      · simpa [here, afterAll_append] using after_congr ih here
      · simpa [here] using ih.trans (after_other here).symm

theorem Throughout.filter {calls : List Store.Call}
    (clear : Throughout json codec d (Clear json decoder) calls) (name : String) :
    Throughout json codec d (Clear json decoder)
      (calls.filter fun call => call.table = name) := by
  induction calls using List.reverseRecOn with
  | nil => exact Throughout.nil
  | append_singleton calls call ih =>
      obtain ⟨before, last⟩ := clear.init
      rw [List.filter_append]
      by_cases here : call.table = name
      · simpa [here] using (ih before).snoc (last.congr (afterAll_filter calls).symm here)
      · simpa [here] using ih before

/-- The calls on other tables change no answer. -/
theorem answers_filter (same : d name = d' name) (calls : List Store.Call) :
    answers json codec decoder name d' (calls.filter fun call => call.table = name) =
      answers json codec decoder name d calls := by
  induction calls generalizing d d' with
  | nil => rfl
  | cons call calls ih =>
      by_cases here : call.table = name
      · have later := ih (@after_congr json codec _ _ _ _ same here)
        simp only [List.filter_cons, here, decide_true, if_true, answers, later]
        congr 1
        cases call with
        | get other key => simp only [answer, read_congr same]
        | _ => rfl
      · rw [List.filter_cons_of_neg (by simpa using here),
          ih ((@after_other json codec _ _ _ here).trans same)]
        cases call with
        | get other key => simp [answers, show other ≠ name from here]
        | _ => rfl

end

end Dictionary

namespace Store

open Dictionary

/-- The first use of a table opens its file. Where another table with the same file is open, the
file has what that table has written to it. What two open tables do to one file later on is not
followed here. -/
def mounted (cwd : List String) (s : Store) (name : String) : Store :=
  if name ∈ s.router.tables then s
  else
    match s.router.tables.keys.find? fun other => place cwd other = place cwd name with
    | none => s
    | some other =>
        let file := (s.router.table other).handler.file
        { s with
          router := { s.router with tableFiles := Function.update s.router.tableFiles name file }
          shelves := Function.update s.shelves name { s.shelves name with synced := file } }

/-- A call in a process that works in the directory `cwd`. -/
def SharedCalls (cwd : List String) (json : Json) (codec : Codec) (decoder : Decoder) (s : Store)
    (call : Call × Except RouterError Value) (t : Store) : Prop :=
  Calls json codec decoder (s.mounted cwd call.1.table) call t

/-- What the calls of `get` on a table have returned. -/
def gets (name : String) (calls : List (Call × Except RouterError Value)) :
    List (Except RouterError Value) :=
  calls.filterMap fun call =>
    match call.1 with
    | .get other _ => if other = name then some call.2 else none
    | _ => none

section

variable {json : Json} {codec : Codec} {decoder : Decoder} {tableFiles : String → File}
  {d : Dictionary} {cwd : List String} {names : Set String} {name other : String} {s t : Store}
  {calls : List (Call × Except RouterError Value)}

/-- Tables whose files are apart do not see each other's files. -/
theorem Confined.mounted (confined : s.Confined names) (apart : names.Pairwise (Apart cwd))
    (inside : name ∈ names) : s.mounted cwd name = s := by
  unfold Store.mounted
  split
  · rfl
  · rename_i unopened
    have none_there : (s.router.tables.keys.find? fun other => place cwd other = place cwd name) =
        none := by
      rw [List.find?_eq_none]
      intro other open_other
      have different : other ≠ name := fun same => unopened (same ▸ open_other)
      have there := confined.tables other open_other
      simpa using (apart there inside different).place_ne
    rw [none_there]

/-- For such tables a run is one in which each table has its own file. -/
theorem Confined.run (confined : s.Confined names) (apart : names.Pairwise (Apart cwd))
    (inside : ∀ call ∈ calls, call.1.table ∈ names) :
    Run (SharedCalls cwd json codec decoder) s calls t ↔
      Run (Calls json codec decoder) s calls t := by
  have keeps {events : List (Call × Except RouterError Value)} {u : Store}
      (within : ∀ call ∈ events, call.1.table ∈ names)
      (run : Run (Calls json codec decoder) s events u) : u.Confined names := by
    induction run with
    | nil => exact confined
    | snoc _ last ih =>
        rw [List.forall_mem_append, List.forall_mem_singleton] at within
        exact (ih within.1).calls within.2 last
  constructor
  · intro run
    induction run with
    | nil => exact .nil _
    | @snoc t u calls call _ last ih =>
        rw [List.forall_mem_append, List.forall_mem_singleton] at inside
        have before := ih inside.1
        rw [SharedCalls, (keeps inside.1 before).mounted apart inside.2] at last
        exact .snoc before last
  · intro run
    induction run with
    | nil => exact .nil _
    | @snoc t u calls call before last ih =>
        rw [List.forall_mem_append, List.forall_mem_singleton] at inside
        refine .snoc (ih inside.1) ?_
        rw [SharedCalls, (keeps inside.1 before).mounted apart inside.2]
        exact last

theorem gets_eq_answers
    (answered : ∀ before other key result rest, calls = before ++ (.get other key, result) :: rest →
      result = (afterAll json codec d (before.map Prod.fst)).answer json decoder other key) :
    gets name calls = answers json codec decoder name d (calls.map Prod.fst) := by
  induction calls generalizing d with
  | nil => rfl
  | cons call calls ih =>
      have later := @ih (d.after json codec call.1) fun before other key result rest split =>
        answered (call :: before) other key result rest (by rw [split, List.cons_append])
      obtain ⟨call, result⟩ := call
      cases call with
      | get other key =>
          have first := answered [] other key result calls rfl
          by_cases here : other = name
          · subst here
            simpa [gets, answers, first, afterAll] using later
          · simpa [gets, answers, here] using later
      | set other key value => simpa [gets, answers] using later
      | setMany other records => simpa [gets, answers] using later

theorem start_mirrors (decoder : Decoder) (wal : Wal)
    (stocked : ∀ name, Stocked json (tableFiles name)) {maxMemtableSize cacheCapacity : Nat}
    (limit : 0 < maxMemtableSize) (room : 0 < cacheCapacity)
    (straight : ∀ name key, isChunkKey key = true →
      flagged overflowFlag (original json tableFiles name key) = false) :
    (start wal tableFiles maxMemtableSize cacheCapacity).Mirrors json decoder tableFiles
      (original json tableFiles) :=
  ⟨start_steady wal stocked limit room, fun _ _ => rfl, fun _ _ _ known => (by cases known),
    straight⟩

end

/-- Where the files of two tables are apart, what a `get` on one of them returns is what it
returns without the calls on the other. -/
theorem tables_isolated (json : Json) (codec : Codec) (decoder : Decoder)
    (inverts : decoder.Inverts codec) {maxMemtableSize cacheCapacity : Nat}
    (limit : 0 < maxMemtableSize) (room : 0 < cacheCapacity) (wal : Wal) {cwd : List String}
    {directory : List String → File} (stocked : ∀ place, Stocked json (directory place))
    {name other : String} (apart : Apart cwd name other)
    (straight : ∀ table key, isChunkKey key = true → flagged overflowFlag
      (original json (fun table => directory (place cwd table)) table key) = false)
    {calls kept : List (Call × Except RouterError Value)} {s t : Store}
    (run : Run (SharedCalls cwd json codec decoder)
      (start wal (fun table => directory (place cwd table)) maxMemtableSize cacheCapacity) calls s)
    (alone : Run (SharedCalls cwd json codec decoder)
      (start wal (fun table => directory (place cwd table)) maxMemtableSize cacheCapacity) kept t)
    (both : ∀ call ∈ calls, call.1.table = name ∨ call.1.table = other)
    (removed : kept.map Prod.fst =
      (calls.map Prod.fst).filter fun call => call.table = name)
    (clear : Throughout json codec (original json fun table => directory (place cwd table))
      (Clear json decoder) (calls.map Prod.fst)) :
    gets name calls = gets name kept := by
  have confined := start_confined wal (fun table => directory (place cwd table)) maxMemtableSize
    cacheCapacity {name, other}
  have pairwise : ({name, other} : Set String).Pairwise (Apart cwd) :=
    Set.pairwise_pair.mpr fun _ => ⟨apart, apart.symm⟩
  have start := start_mirrors decoder wal (fun table => stocked (place cwd table)) limit room
    straight
  have only : ∀ call ∈ kept, call.1.table = name := by
    intro call member
    have listed := List.mem_map_of_mem member (f := Prod.fst)
    rw [removed] at listed
    simpa using (List.mem_filter.mp listed).2
  have answered := (start.run inverts (fun table => stocked (place cwd table))
    ((confined.run pairwise both).mp run) clear).2
  have answered' := (start.run inverts (fun table => stocked (place cwd table))
    ((confined.run pairwise fun call member => Or.inl (only call member)).mp alone)
    (removed ▸ clear.filter name)).2
  rw [gets_eq_answers answered, gets_eq_answers answered', removed, answers_filter rfl]

theorem empty_original : original manifestJson (fun _ => File.empty) = Dictionary.empty := by
  funext name key
  exact fresh_value manifestJson 100 10 name key

/-- A key of `t` is read after a write to `u`, and without it. -/
theorem plain_tables_isolated : ∃ s t,
    Run (SharedCalls ["srv"] manifestJson longCodec longDecoder) (fresh 100 10)
      [(.set "u" "k" (.str "x"), .ok (.bool true)), (.get "t" "k", .ok .null)] s ∧
    Run (SharedCalls ["srv"] manifestJson longCodec longDecoder) (fresh 100 10)
      [(.get "t" "k", .ok .null)] t ∧
    gets "t" [(.set "u" "k" (.str "x"), .ok (.bool true)), (.get "t" "k", .ok .null)] =
      gets "t" [(.get "t" "k", .ok .null)] := by
  have apart : Apart ["srv"] "t" "u" := apart_of_plain (by decide) (by decide) (by decide)
  have confined := start_confined ⟨0, [], ∅, none, FileSystem.empty, []⟩ (fun _ => File.empty)
    100 10 {"t", "u"}
  have pairwise : ({"t", "u"} : Set String).Pairwise (Apart ["srv"]) :=
    Set.pairwise_pair.mpr fun _ => ⟨apart, apart.symm⟩
  obtain ⟨s, sets, mirrors⟩ := string_set (show 0 < 10 by decide) (show "u" ≠ "" by decide)
  obtain ⟨⟨s', reads⟩, _⟩ := mirrors.reads (fun _ => empty_stocked _)
    (show ¬ ("t" = "" ∨ "k" = "") by decide)
  obtain ⟨⟨t, alone⟩, _⟩ := (fresh_mirrors manifestJson longDecoder (show 0 < 100 by decide)
    (show 0 < 10 by decide)).reads (fun _ => empty_stocked _)
      (show ¬ ("t" = "" ∨ "k" = "") by decide)
  have run := (@Confined.run _ longCodec longDecoder ["srv"] _ _ _
    [(.set "u" "k" (.str "x"), .ok (.bool true)), (.get "t" "k", .ok .null)] confined pairwise
    (by simp [Call.table])).mpr (.snoc (.snoc (.nil _) (.set sets)) (.get reads))
  have single := (@Confined.run _ longCodec longDecoder ["srv"] _ _ _
    [(.get "t" "k", .ok .null)] confined pairwise (by simp [Call.table])).mpr
      (.snoc (.nil _) (.get alone))
  refine ⟨s', t, run, single, ?_⟩
  refine @tables_isolated manifestJson longCodec longDecoder longDecoder_inverts _ _ (by decide)
    (by decide) _ _ (fun _ => File.empty) (fun _ => empty_stocked _) "t" "u" apart ?_ _ _ _ _ run
    single (by simp [Call.table]) (by simp [Call.table]) ?_
  · intro table key _
    rw [empty_original]
    rfl
  · rw [empty_original]
    refine Throughout.snoc (Throughout.snoc Throughout.nil ?_) fun flag => by cases flag
    exact ⟨manifestJson_string "x", fun flag => (by cases flag), fun other i same =>
      absurd same (ne_chunkKey (by decide) other i)⟩

/-- The files as `Site.Filed` has them, along the steps of a single client that does not read. -/
theorem Calm.filed {json : Json} {tableFiles : String → File} {s t : Store} {e : Event}
    {name : String} {base : List ((Nat × Nat) × Bytes)} (calm : s.Calm json tableFiles)
    (filed : (s.site name).Filed base) (step : SingleStep json s e t)
    (unread : ∀ name key, e ≠ .getLocked name key) : (t.site name).Filed base := by
  have acts := calm.sound.acts step.1
  have keyed : (s.site name).Keyed := fun entry member =>
    (Table.payloadKey_pack (calm.sound.packed name entry member)).1
  rw [acts.site]
  refine filed.act keyed (calm.sound.sites name) (calm.orderly name) (acts.valid name)
    (unblocked_act calm.unblocked name) fun h load => ?_
  have on := actsOn json s name e
  rw [load] at on
  cases on with
  | load key => exact absurd rfl (unread name key)

/-- A flush that has failed stays so. -/
theorem succeeding_before {json : Json} {s t : Store} {e : Event} (acts : Acts json s e t)
    (succeeding : t.Succeeding) : s.Succeeding := by
  intro name task member failed
  have later := succeeding name
  have valid := acts.valid name
  rw [acts.site] at later
  have done : task.done = true := by simp [Task.done, failed]
  obtain ⟨j, known⟩ := List.mem_iff_getElem?.mp member
  cases acted : s.actOn json name e with
  | stay => exact later task (by rw [acted]; exact member) failed
  | load h => exact later task (by rw [acted]; exact member) failed
  | enter entries txIds =>
      refine later task ?_ failed
      rw [acted, show ((s.site name).act (.enter entries txIds)).tasks = (s.site name).tasks from
        ((s.site name).enterAll_frame entries).1]
      exact member
  | swap => exact later task (by rw [acted]; exact List.mem_append_left _ member) failed
  | advance i other =>
      rw [acted] at later valid
      by_cases here : i = j
      · subst here
        obtain rfl := Option.some.inj (valid.symm.trans known)
        rw [show (s.site name).act (.advance i other) = s.site name from
          Site.advance_done known done] at later
        exact later other member failed
      · refine later task (List.mem_of_getElem? (i := j) ?_) failed
        show ((s.site name).advance i other).tasks[j]? = some task
        unfold Site.advance
        split
        all_goals exact (List.getElem?_set_ne here).trans known
  | raise i other =>
      rw [acted] at later valid
      by_cases here : i = j
      · subst here
        obtain rfl := Option.some.inj (valid.1.symm.trans known)
        have running : other.done = false := valid.2
        rw [done] at running
        cases running
      · refine later task (List.mem_of_getElem? (i := j) ?_) failed
        exact (List.getElem?_set_ne here).trans known


/-- What goes on behind a write, if no flush has failed at the end. -/
theorem behind_of_run {json : Json} {s t : Store} {events : List Event} (sound : s.Sound json)
    (run : Run (Step json) s events t) (behind : ∀ e ∈ events, e.Behind)
    (succeeding : t.Succeeding) :
    Run (Guarded (SingleStep json) fun _ e => e.Behind) s events t ∧ s.Succeeding := by
  induction run with
  | nil => exact ⟨.nil _, succeeding⟩
  | @snoc t u events e run last ih =>
      rw [List.forall_mem_append, List.forall_mem_singleton] at behind
      have middle := run.preserves sound fun _ _ _ sound step => sound.step step
      obtain ⟨before, start⟩ := ih behind.1 (succeeding_before (middle.acts last) succeeding)
      have alone : e.Alone json := by
        have last := behind.2
        cases e with
        | set => exact last.elim
        | append => exact last.elim
        | raise => exact last.elim
        | _ => trivial
      exact ⟨.snoc before ⟨⟨last, alone, succeeding⟩, behind.2⟩, start⟩

/-- Behind a write that fills the memtable: the swap, and the flush. -/
def filling : List Event := [.check 0, .swap 0] ++ List.replicate 13 (.flush "./t" 0)

theorem fresh_looked : ((fresh 1 1).lookedUp manifestJson "./t" "k").site "./t" =
    (fresh 1 1).site "./t" := rfl

theorem fresh_filed : ((fresh 1 1).site "./t").Filed [] := by
  refine ⟨openTable_ahead empty_readable _, [], [], [], rfl, rfl, fun record member => ?_,
    fun key => rfl, fun task member => ?_⟩
  · cases member
  · cases member

def written : Bytes := [0x00, 0x01, 0x6B, 0x22, 0x78, 0x22]

set_option maxRecDepth 100000 in
theorem filling_ends : ∃ s₁ s,
    ((fresh 1 1).lookedUp manifestJson "./t" "k").perform manifestJson
      (.set 0 "./t" "k" (.str "x")) = some s₁ ∧ s₁.play manifestJson filling = some s ∧
      s.isIdle = true ∧ (s.shelves "./t").tasks.map Task.phase = [.finished] ∧
      (s.shelves "./t").active.length = 0 ∧ (s.shelves "./t").immutable.length = 0 ∧
      (latest (s.shelves "./t").written "k").map Entry.packed = some written ∧
      (s.router.tables.keys.find? fun other => place ["srv"] other = place ["srv"] "t") =
        some "./t" ∧
      "t" ∉ s.router.tables ∧ (s.cached "t" "k").isSome = false := by
  have outcome : (((fresh 1 1).lookedUp manifestJson "./t" "k").perform manifestJson
      (.set 0 "./t" "k" (.str "x"))).bind (fun s₁ => (s₁.play manifestJson filling).map
        fun s => (s.isIdle, (s.shelves "./t").tasks.map Task.phase, (s.shelves "./t").active.length,
          (s.shelves "./t").immutable.length)) = some (true, [.finished], 0, 0) := by decide +kernel
  have rest : (((fresh 1 1).lookedUp manifestJson "./t" "k").perform manifestJson
      (.set 0 "./t" "k" (.str "x"))).bind (fun s₁ => (s₁.play manifestJson filling).map
        fun s => ((latest (s.shelves "./t").written "k").map Entry.packed,
          (s.router.tables.keys.find? fun other => place ["srv"] other = place ["srv"] "t"),
          decide ("t" ∉ s.router.tables), (s.cached "t" "k").isSome)) =
      some (some written, some "./t", true, false) := by decide +kernel
  obtain ⟨s₁, set, outcome⟩ := Option.bind_eq_some_iff.mp outcome
  obtain ⟨s, played, outcome⟩ := Option.map_eq_some_iff.mp outcome
  rw [set, Option.bind_some, played, Option.map_some, Option.some.injEq] at rest
  simp only [Prod.mk.injEq] at outcome rest
  obtain ⟨idle, phases, active, immutable⟩ := outcome
  obtain ⟨newest, found, unopened, uncached⟩ := rest
  exact ⟨s₁, s, set, played, idle, phases, active, immutable, newest, found,
    of_decide_eq_true unopened, uncached⟩

theorem Confined.steps {json : Json} {names : Set String} {s t : Store} {events : List Event}
    (confined : s.Confined names) (named : ∀ e ∈ events, e.Names names)
    (run : Run (Step json) s events t) : t.Confined names := by
  induction run with
  | nil => exact confined
  | snoc _ last ih =>
      rw [List.forall_mem_append, List.forall_mem_singleton] at named
      exact (ih named.1).step named.2 last

/-- A table that is opened on this file finds the newest record of a key. -/
theorem find_saved {json : Json} {file : File} {key : String} {value : Value} {packed : Bytes}
    (readable : (openTable file).WellFormed)
    (newest : Table.newestPayload (openTable file).contents key = some packed)
    (packs : packRecord json key value = .ok packed) (faithful : json.Faithful value)
    (present : value ≠ .null) : ((Table.init file).find json key).1.answer = .ok value := by
  obtain ⟨record, found, rfl⟩ := Option.map_eq_some_iff.mp newest
  obtain ⟨keeps, _, index⟩ := Table.initDiskIndex_spec readable
  have known : (Table.init file).diskIndex.lookup key = some record.1 := by
    show (Table.initDiskIndex (openTable file)).2.lookup key = some record.1
    have kept : isDeletion key record.2 = false := by
      by_contra deleted
      exact present ((isDeletion_iff packs faithful).mp (by simpa using deleted))
    rw [index, Table.lookup_indexOf, found, Option.bind_some, (Table.payloadKey_pack packs).2, kept]
    rfl
  have there : (record.1, record.2) ∈ (Table.init file).handler.contents := by
    show record ∈ (Table.initDiskIndex (openTable file)).1.contents
    rw [keeps.contents]
    exact (Table.newestIn_mem found).1
  have read := Table.readFromDisk_at keeps.formed known there packs
  rw [faithful.decoded] at read
  show Table.Found.answer (.disk ((Table.init file).readFromDisk json key).1) = .ok value
  rw [read]
  rfl

/-- A table that is opened while another table has its file reads the records of that table. -/
theorem Calm.mounted_reads {json : Json} {decoder : Decoder} {tableFiles : String → File}
    {s : Store} (calm : s.Calm json tableFiles) {cwd : List String} {name other key : String}
    {value : Value} {packed : Bytes} (named : ¬ (name = "" ∨ key = "")) (unopened : name ∉ s.router.tables)
    (found : (s.router.tables.keys.find? fun other => place cwd other = place cwd name) =
      some other)
    (uncached : s.cached name key = none)
    (readable : (openTable (s.router.table other).handler.file).WellFormed)
    (newest : Table.newestPayload (s.router.table other).handler.saved key = some packed)
    (packs : packRecord json key value = .ok packed) (faithful : json.Faithful value)
    (present : value ≠ .null) (unflagged : flagged overflowFlag value = false) :
    ∃ t, Reads json decoder (s.mounted cwd name) name key (.ok value) t := by
  have opened : s.mounted cwd name = { s with
      router := { s.router with
        tableFiles := Function.update s.router.tableFiles name (s.router.table other).handler.file }
      shelves := Function.update s.shelves name
        { s.shelves name with synced := (s.router.table other).handler.file } } := by
    rw [mounted, if_neg unopened, found]
  have first : (s.mounted cwd name).router.table name =
      Table.init (s.router.table other).handler.file := by
    rw [opened]
    simp only [Router.table, Router.getTableState, AList.lookup_eq_none.mpr unopened,
      Function.update_self]
  have cache : (s.mounted cwd name).router.cache = s.router.cache := by rw [opened]
  have missed : (s.mounted cwd name).router.getCached name key =
      (.ok none, (s.mounted cwd name).router) := by
    have unknown : (s.mounted cwd name).router.cache.cache.lookup (name, key) = none := by
      rw [cache]
      exact uncached
    simp only [Router.getCached, Cache.get, unknown]
  have read := (getLocked_spec json (cache ▸ calm.sound.cache) name key).answers
  rw [first, find_saved readable newest packs faithful present] at read
  have finds := @Finds.missed json (s.mounted cwd name) name key _ (by rw [missed])
    ⟨[], Run.nil _⟩
  rw [missed, read] at finds
  exact ⟨_, .plain named finds unflagged⟩

/-- A write to `./t` that fills the memtable, with its flush. -/
theorem dotted_write : ∃ s,
    Sets manifestJson longCodec (fresh 1 1) "./t" "k" (.str "x") (.ok ()) s ∧
    s.Calm manifestJson (fun _ => File.empty) ∧
      (openTable (s.router.table "./t").handler.file).WellFormed ∧
      Table.newestPayload (s.router.table "./t").handler.saved "k" = some written ∧
      (s.router.tables.keys.find? fun other => place ["srv"] other = place ["srv"] "t") =
        some "./t" ∧
      "t" ∉ s.router.tables ∧ s.cached "t" "k" = none := by
  obtain ⟨s₁, s, set, played, idle, phases, active, immutable, newest, found, unopened, uncached⟩ :=
    filling_ends
  have steady := fresh_steady manifestJson (show 0 < 1 by decide) (show 0 < 1 by decide)
  have calm := (steady.lookedUp (fun _ => empty_stocked _) "./t" "k").calm
  have setStep := calm.setStep (manifestJson_string "x") set
  have calm₁ := calm.step setStep
  have behaves : ∀ e ∈ filling, e.Behind := by simp [filling, Event.Behind]
  have confined : s.Confined {"./t"} := by
    have looked := (start_confined _ _ 1 1 {"./t"}).opened rfl
      ((fresh 1 1).router.opens_getRawManifest manifestJson "./t" "k")
    have named : Event.Names {"./t"} (.set 0 "./t" "k" (.str "x")) := rfl
    exact (looked.step named set).steps (fun e member => Event.names_of_behind (behaves e member))
      (play_run played)
  have succeeding : s.Succeeding := by
    intro name task member failed
    obtain rfl : name = "./t" := confined.tasks name (List.ne_nil_of_mem member)
    have phase := List.mem_map_of_mem member (f := Task.phase)
    rw [show (s.site "./t").tasks.map Task.phase = [.finished] from phases, failed] at phase
    simp at phase
  obtain ⟨behind, _⟩ := behind_of_run calm₁.sound (play_run played) behaves succeeding
  -- the call
  obtain ⟨packed, packs⟩ : ∃ packed, packRecord manifestJson "k" (.str "x") = .ok packed :=
    packs_iff.mp (packs_of_short (by decide) (manifestJson_string "x"))
  have internal := SetsInternal.written packs ⟨[], Run.nil _⟩ setStep behind
    ((isIdle_iff s).mp idle)
  obtain ⟨r, locked, _⟩ := setLocked_spec calm.sound.cache "./t"
    ⟨((fresh 1 1).lookedUp manifestJson "./t" "k").router.wal.globalTxId, "k", .str "x", packed⟩ rfl
  dsimp only at locked
  rw [locked] at internal
  have absent : overflowChunks ((fresh 1 1).router.getRawManifest manifestJson "./t" "k").1 =
      none := rfl
  have sets : Sets manifestJson longCodec (fresh 1 1) "./t" "k" (.str "x") (.ok ()) s :=
    .small (by decide) (by decide) (by decide) (.absent ⟨[], Run.nil _⟩ absent) internal
  -- the file
  have filed₀ : (((fresh 1 1).lookedUp manifestJson "./t" "k").site "./t").Filed [] := by
    rw [fresh_looked]
    exact fresh_filed
  have filed₁ := calm.filed filed₀ setStep fun _ _ same => by cases same
  obtain ⟨calm', filed⟩ := behind.preserves
    (P := fun u => u.Calm manifestJson (fun _ => File.empty) ∧ (u.site "./t").Filed [])
    ⟨calm₁, filed₁⟩ fun u e v before step =>
      ⟨before.1.step step.1, before.1.filed before.2 step.1 (by
        rintro name key rfl
        exact step.2)⟩
  have keyed : (s.site "./t").Keyed := fun entry member =>
    (Table.payloadKey_pack (calm'.sound.packed "./t" entry member)).1
  have no_active : (s.site "./t").active = [] := List.length_eq_zero_iff.mp active
  have no_immutable : (s.site "./t").immutable = [] := List.length_eq_zero_iff.mp immutable
  refine ⟨s, sets, calm', filed.ahead.onFile, ?_, found, unopened, by simpa using uncached⟩
  obtain ⟨older, whole, newest_of⟩ := filed.newest keyed
  rw [no_active, no_immutable, List.nil_append, List.nil_append] at whole
  rcases newest_of "k" with ⟨e, swapped, _⟩ | same
  · rw [no_immutable] at swapped
    cases swapped
  · have latest_written : (latest older "k").map Entry.packed = some written := whole ▸ newest
    exact same.trans (by rw [latest_written, Option.some_or])

/-- What is written to `./t` is there when `t` is opened, and not without that write. -/
theorem dotted_table_shared : ∃ s t,
    Run (SharedCalls ["srv"] manifestJson longCodec longDecoder) (fresh 1 1)
      [(.set "./t" "k" (.str "x"), .ok (.bool true)), (.get "t" "k", .ok (.str "x"))] s ∧
    Run (SharedCalls ["srv"] manifestJson longCodec longDecoder) (fresh 1 1)
      [(.get "t" "k", .ok .null)] t := by
  obtain ⟨s, sets, calm, readable, newest, found, unopened, uncached⟩ := dotted_write
  have packs : packRecord manifestJson "k" (.str "x") = .ok written := by decide +kernel
  obtain ⟨t, reads⟩ := @Calm.mounted_reads _ longDecoder _ _ calm ["srv"] "t" "./t" "k" _ _
    (by decide) unopened found uncached readable newest packs (manifestJson_string "x")
    (fun same => by cases same) rfl
  have mirrors := fresh_mirrors manifestJson longDecoder (show 0 < 1 by decide)
    (show 0 < 1 by decide)
  obtain ⟨⟨u, alone⟩, _⟩ := mirrors.reads (fun _ => empty_stocked _)
    (show ¬ ("t" = "" ∨ "k" = "") by decide)
  have unmounted (name : String) : (fresh 1 1).mounted ["srv"] name = fresh 1 1 :=
    (start_confined _ _ 1 1 {name}).mounted (Set.pairwise_singleton name _) rfl
  have first : SharedCalls ["srv"] manifestJson longCodec longDecoder (fresh 1 1)
      (.set "./t" "k" (.str "x"), .ok (.bool true)) s := by
    rw [SharedCalls, unmounted]
    exact .set sets
  have only : SharedCalls ["srv"] manifestJson longCodec longDecoder (fresh 1 1)
      (.get "t" "k", .ok .null) u := by
    rw [SharedCalls, unmounted]
    exact .get alone
  exact ⟨t, u, .snoc (.snoc (.nil _) first) (.get reads), .snoc (.nil _) only⟩

end Store

end CachyDb
