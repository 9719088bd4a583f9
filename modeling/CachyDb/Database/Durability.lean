import CachyDb.Database.Reopening
import CachyDb.Storage.Regular
import CachyDb.Wal.Checkpoint

set_option autoImplicit false

/-! What the database still knows after its processes have ended: a lookup gives a write that
no write of the key is newer than, unless its record has never come to the log files. -/

namespace CachyDb.Database.Lifetime

open ByteString TableHandler Transition Chronicle

/-- The call is about this key, and this process has found its record in the log. -/
def Found (s : Lifetime) (name key : String) (call : String × Entry) : Prop :=
  call.1 = name ∧ call.2.key = key ∧ call.2.record ∈ s.found

/-- For each key the process has started with a write that it has found no newer one for. -/
def Based (json : Json) (s : Lifetime) : Prop :=
  ∀ name key, ∃ base : Option Entry,
    ((latest (s.recovered json name) key).map Entry.packed).or
      (Table.newestPayload (openTable (s.files name)).contents key) = base.map Entry.packed ∧
    (∀ e ∈ base, e.key = key) ∧
    UpToDate (s.Found name key) s.past (base.map fun e => (name, e))

/-- What this process has recovered has left the memtables for the files. -/
def Reflushed (json : Json) (s : Lifetime) : Prop :=
  ∀ name, ∀ e ∈ (s.store.site name).active ++ (s.store.site name).immutable,
    e ∉ s.recovered json name

theorem reflushed_of_unreplayed (json : Json) {s : Lifetime} (nothing : s.replayed = []) :
    s.Reflushed json := by
  intro name e _
  rw [recovered, nothing]
  exact List.not_mem_nil

section Openings

variable {json : Json} {s t : Lifetime} {maxMemtableSize cacheCapacity : Nat}

/-- A marked record has left the active memtable. -/
theorem Shelved.marked_entered (shelved : s.Shelved json) (journal : s.Journal json)
    {call : String × Entry} (recent : call ∈ s.recent) (marked : call.2.txId ∈ s.log.marked)
    {older : List Entry} (whole : (s.store.site call.1).written =
      (s.store.site call.1).active ++ ((s.store.site call.1).immutable ++ older)) :
    call.2 ∈ (s.store.site call.1).immutable ++ older := by
  have late := journal.late call recent
  obtain ⟨other, entry, member, id⟩ := shelved.marked call.2.txId marked late
  have same := journal.unique (shelved.recent_of journal member (by omega)) recent id
  cases same
  rw [whole] at member
  rcases List.mem_append.mp member with active | rest
  · exact absurd marked ((shelved.marks other).active entry active late)
  · exact rest

/-- What is marked is older than what is not. -/
theorem Shelved.marked_older (shelved : s.Shelved json) (journal : s.Journal json)
    {name : String} {new old : Entry} (here : (name, new) ∈ s.recent)
    (unmarked : new.txId ∉ s.log.marked) (there : (name, old) ∈ s.recent)
    (marked : old.txId ∈ s.log.marked) (key : old.key = new.key) : old.txId < new.txId := by
  obtain ⟨older, whole⟩ := (shelved.store.sites name).history
  have rest := shelved.marked_entered journal there marked whole
  have late := journal.late _ there
  rcases shelved.placed _ here with member | ⟨client, waits⟩
  · have advancing := shelved.ordered.advancing name
    dsimp only at member rest late
    rw [Advancing, whole] at advancing
    obtain ⟨_, settled, behind⟩ := List.pairwise_append.mp advancing
    rw [whole] at member
    rcases List.mem_append.mp member with active | passed
    · exact behind new active old rest key.symm
    · rcases List.mem_append.mp passed with immutable | gone
      · rcases (shelved.marks name).slot with done | still
        · exact absurd (done.marked new immutable) unmarked
        · rcases List.mem_append.mp rest with held | left
          · exact absurd marked (still old held late)
          · exact (List.pairwise_append.mp settled).2.2 new immutable old left key.symm
      · exact absurd ((shelved.marks name).older older whole new gone) unmarked
  · apply (shelved.waiting client name new waits).2 old _ key
    rw [whole]
    exact List.mem_append_right _ rest

/-- Behind the memtables there is what this process has written and flushed, and then what
it has recovered. -/
theorem Shelved.split_older (shelved : s.Shelved json) (reflushed : s.Reflushed json)
    {name : String} {older : List Entry} (whole : (s.store.site name).written =
      (s.store.site name).active ++ ((s.store.site name).immutable ++ older)) :
    ∃ passed, older = passed ++ s.recovered json name ∧ ∀ e ∈ passed, (name, e) ∈ s.recent := by
  obtain ⟨clients, parts, recent⟩ := shelved.entered name
  rw [parts, ← List.append_assoc] at whole
  rcases List.append_eq_append_iff.mp whole with ⟨between, held, rest⟩ | ⟨passed, held, rest⟩
  · have none_held : between = [] := by
      rw [List.eq_nil_iff_forall_not_mem]
      intro e member
      apply reflushed name e
      · rw [held]
        exact List.mem_append_right _ member
      · rw [rest]
        exact List.mem_append_left _ member
    rw [none_held, List.nil_append] at rest
    exact ⟨[], rest.symm, fun e member => by cases member⟩
  · refine ⟨passed, rest, fun e member => recent e ?_⟩
    rw [held]
    exact List.mem_append_right _ member

/-- What is in the memtables has been handed to the log by this process. -/
theorem Shelved.held_recent (shelved : s.Shelved json) (reflushed : s.Reflushed json)
    {name : String} {e : Entry}
    (held : e ∈ (s.store.site name).active ++ (s.store.site name).immutable) :
    (name, e) ∈ s.recent := by
  obtain ⟨older, whole⟩ := (shelved.store.sites name).history
  obtain ⟨clients, parts, recent⟩ := shelved.entered name
  have member : e ∈ (s.store.site name).written := by
    rw [whole, ← List.append_assoc]
    exact List.mem_append_left _ held
  rw [parts] at member
  rcases List.mem_append.mp member with new | old
  · exact recent e new
  · exact absurd old (reflushed name e held)

/-- In the history of this process the write of a key with the highest id is the newest. -/
theorem Journal.upToDate (journal : s.Journal json) {lasting : String × Entry → Prop}
    {call : String × Entry} (recent : call ∈ s.recent)
    (none_newer : ∀ w ∈ s.recent, call.2.txId < w.2.txId → ¬ lasting w) :
    UpToDate lasting s.history (some call) := by
  apply UpToDate.before
  exact @upToDate_of_stamp _ lasting s.recent (fun call => call.2.txId) journal.sorted call recent
    none_newer

/-- A call of an earlier process whose record is in the log now was found there, or has been
made again. -/
theorem Journal.past_origin (journal : s.Journal json) {call : String × Entry}
    (past : call ∈ s.past) (there : call.2.record ∈ s.log.written) :
    call.2.record ∈ s.found ∨ call ∈ s.recent := by
  rcases journal.origin there with found | ⟨again, recent, same⟩
  · exact Or.inl found
  · have mine := (journal.genuine call (List.mem_append_right _ past)).recovered
    rw [← same, (journal.recent_genuine recent).recovered] at mine
    cases mine
    exact Or.inr recent

/-- An opening finds for each key a write that is as new as the log knows of. -/
theorem Based.reopened (based : s.Based json) (shelved : s.Shelved json) (journal : s.Journal json)
    (reflushed : s.Reflushed json) (reopened : Reopened json s t maxMemtableSize cacheCapacity) :
    t.Based json := by
  intro name key
  have filed := shelved.filed name
  obtain ⟨older, whole, newest⟩ := filed.newest (shelved.keyed name)
  have advancing := shelved.ordered.advancing name
  rw [Advancing, whole] at advancing
  have behind := (List.pairwise_append.mp advancing).2.1
  rw [reopened.past, reopened.files]
  show ∃ base : Option Entry, ((latest (t.recovered json name) key).map Entry.packed).or
    (Table.newestPayload (s.store.site name).table.handler.saved key) = base.map Entry.packed ∧ _
  cases recovered : latest (t.recovered json name) key with
  | some r =>
      obtain ⟨member, at_key⟩ := latest_mem recovered
      obtain ⟨recent, left⟩ := journal.recovered_from reopened member
      have unmarked : r.txId ∉ s.log.marked := by
        rw [reopened.replayed, List.mem_filter, decide_eq_true_iff] at left
        exact left.2
      refine ⟨some r, rfl, fun e same => (by cases same; exact at_key), ?_⟩
      apply journal.upToDate recent
      rintro ⟨other, w⟩ inside above ⟨rfl, same_key, there⟩
      rw [reopened.found] at there
      by_cases marked : w.txId ∈ s.log.marked
      · have := shelved.marked_older journal recent unmarked inside marked
          (same_key.trans at_key.symm)
        dsimp only at above
        omega
      · have found := journal.recovers reopened inside there marked
        have sorted : Advancing (t.recovered json other) := by
          apply (reopened.recovered_sorted journal.logging other).imp
          intro new old below _
          exact below
        rcases sorted.latest_max recovered w found same_key with rfl | below
        · exact Nat.lt_irrefl _ above
        · dsimp only at above
          omega
  | none =>
      -- a lasting write of this process is marked, so it has left the active memtable
      have settled : ∀ w, (name, w) ∈ s.recent → t.Found name key (name, w) →
          w.txId ∈ s.log.marked ∧ w.key = key ∧ w ∈ (s.store.site name).immutable ++ older := by
        rintro w recent ⟨_, same_key, there⟩
        rw [reopened.found] at there
        have marked : w.txId ∈ s.log.marked := by
          by_contra unmarked
          obtain ⟨_, found⟩ := latest_isSome (journal.recovers reopened recent there unmarked)
          dsimp only at same_key found
          rw [same_key, recovered] at found
          cases found
        exact ⟨marked, same_key, shelved.marked_entered journal recent marked whole⟩
      -- the newest entry behind the active memtable answers for all of them
      have answers {e : Entry}
          (found : latest ((s.store.site name).immutable ++ older) key = some e)
          (recent : (name, e) ∈ s.recent) :
          UpToDate (t.Found name key) s.history (some (name, e)) := by
        apply journal.upToDate recent
        rintro ⟨other, w⟩ inside above lasting
        obtain rfl : other = name := lasting.1
        obtain ⟨_, same_key, rest⟩ := settled w inside lasting
        rcases Advancing.latest_max behind found w rest same_key with rfl | below
        · exact Nat.lt_irrefl _ above
        · dsimp only at above
          omega
      rw [Option.map_none, Option.none_or]
      by_cases here : ∃ e, latest (s.store.site name).immutable key = some e ∧
          Table.newestPayload (s.store.site name).table.handler.saved key = some e.packed
      · obtain ⟨e, held, payload⟩ := here
        refine ⟨some e, payload, fun other same => (by cases same; exact (latest_mem held).2), ?_⟩
        apply answers
        · rw [latest_append, held, Option.some_or]
        · exact shelved.held_recent reflushed (List.mem_append_right _ (latest_mem held).1)
      · have payload := (newest key).resolve_left here
        obtain ⟨passed, rest, recent⟩ := shelved.split_older reflushed whole
        -- nothing lasting of the key is in the immutable memtable
        have passing : ∀ w, (name, w) ∈ s.recent → t.Found name key (name, w) → w ∈ older := by
          intro w inside lasting
          obtain ⟨marked, same_key, at_rest⟩ := settled w inside lasting
          rcases List.mem_append.mp at_rest with held | gone
          · rcases (shelved.marks name).slot with done | still
            · obtain ⟨e, found⟩ := latest_isSome held
              rw [same_key] at found
              exact absurd ⟨e, found, done.filed key e found⟩ here
            · exact absurd marked (still w held (journal.late _ inside))
          · exact gone
        have sorted : Advancing older := (List.pairwise_append.mp behind).2.1
        rw [payload]
        cases flushed : latest passed key with
        | some e =>
            obtain ⟨member, at_key⟩ := latest_mem flushed
            have found : latest older key = some e := by
              rw [rest, latest_append, flushed, Option.some_or]
            refine ⟨some e, by rw [found]; rfl, fun other same => (by cases same; exact at_key), ?_⟩
            apply journal.upToDate (recent e member)
            rintro ⟨other, w⟩ inside above lasting
            obtain rfl : other = name := lasting.1
            rcases sorted.latest_max found w (passing w inside lasting) lasting.2.1 with rfl | below
            · exact Nat.lt_irrefl _ above
            · dsimp only at above
              omega
        | none =>
            obtain ⟨base, packed, own, current⟩ := based name key
            have nothing : ∀ call ∈ s.recent, ¬ t.Found name key call := by
              rintro ⟨other, w⟩ inside lasting
              obtain rfl : other = name := lasting.1
              have gone := passing w inside lasting
              rw [rest] at gone
              rcases List.mem_append.mp gone with mine | old
              · obtain ⟨_, found⟩ := latest_isSome mine
                rw [show w.key = key from lasting.2.1, flushed] at found
                cases found
              · have early := (journal.completed _ (shelved.recovered other w old).2).1
                have late := journal.late _ inside
                simp only [Entry.record] at early late
                omega
            refine ⟨base, ?_, own, ?_⟩
            · rw [rest, latest_append, flushed, Option.none_or]
              exact packed
            · apply UpToDate.behind _ nothing
              apply current.mono
              rintro call past ⟨table, at_key, there⟩
              refine ⟨table, at_key, ?_⟩
              rw [reopened.found] at there
              rcases journal.past_origin past there with found | again
              · exact found
              · rw [← reopened.found] at there
                exact absurd ⟨table, at_key, there⟩ (nothing call again)

end Openings

/-- The call is about this key, its record is in the log files or was handed to this process,
and it is not between the log and the memtable. -/
structure Lasting (s : Lifetime) (name key : String) (call : String × Entry) : Prop where
  table : call.1 = name
  key : call.2.key = key
  logged : call ∈ s.recent ∨ call.2.record ∈ s.log.written
  entered : ∀ client, ¬ s.store.Delayed client call.1 call.2

/-- The value of a write, or `None`. -/
def worth (answer : Option Entry) : Value := (answer.map Entry.value).getD .null

section Answers

variable {json : Json} {s : Lifetime} {name key : String}

/-- Two records with one payload have one value. -/
theorem packed_value {e e' : Entry} (packs : packRecord json e.key e.value = .ok e.packed)
    (packs' : packRecord json e'.key e'.value = .ok e'.packed) (same : e.packed = e'.packed) :
    json.decoded e.value = json.decoded e'.value := by
  have unpacked := unpackRecord_decoded packs
  rw [same, unpackRecord_decoded packs', Except.ok.injEq, Prod.mk.injEq] at unpacked
  exact unpacked.2.symm

/-- The index of a file leads to its newest record of a key, wherever the records still are. -/
theorem read_newest {table : Table} {file : File} (readable : (openTable file).WellFormed)
    (formed : table.handler.WellFormed)
    (index : table.diskIndex.lookup key = (Table.init file).diskIndex.lookup key)
    (holds : ∀ record ∈ (openTable file).contents, record ∈ table.handler.contents)
    {base : Option Entry}
    (newest : Table.newestPayload (openTable file).contents key = base.map Entry.packed)
    (packs : ∀ e ∈ base, packRecord json e.key e.value = .ok e.packed ∧ json.Faithful e.value) :
    ((table.readFromDisk json key).1).getD .null = worth base := by
  have lookup := (Table.initDiskIndex_spec readable).2.2
  rw [show (Table.init file).diskIndex = (Table.initDiskIndex (openTable file)).2 from rfl, lookup,
    Table.lookup_indexOf] at index
  unfold Table.newestPayload at newest
  cases found : Table.newestIn (openTable file).contents key with
  | none =>
      rw [found, Option.map_none] at newest
      rw [found, Option.bind_none] at index
      rw [Table.readFromDisk_missing index, Option.map_eq_none_iff.mp newest.symm]
      rfl
  | some record =>
      rw [found, Option.map_some] at newest
      obtain ⟨e, rfl, packed⟩ := Option.map_eq_some_iff.mp newest.symm
      obtain ⟨result, faithful⟩ := packs e rfl
      rw [found, Option.bind_some, ← packed, (Table.payloadKey_pack result).2] at index
      show _ = e.value
      split at index
      · rename_i deleted
        rw [Table.readFromDisk_missing index, ← faithful.decoded,
          decoded_of_deletion result deleted]
        rfl
      · have there := holds record (Table.newestIn_mem found).1
        rw [packed] at result
        rw [Table.readFromDisk_at formed index there result, faithful.decoded]
        rfl

/-- What the table files give to this process, before anything is recovered or written. -/
theorem Based.unrecovered (based : s.Based json) (shelved : s.Shelved json)
    (journal : s.Journal json) (nothing : latest (s.recovered json name) key = none) :
    ∃ base : Option Entry, (∀ e ∈ base, e.key = key) ∧
      UpToDate (s.Found name key) s.past (base.map fun e => (name, e)) ∧
      ∀ table : Table, table.handler.WellFormed →
        table.diskIndex.lookup key = (Table.init (s.files name)).diskIndex.lookup key →
        (∀ record ∈ (openTable (s.files name)).contents, record ∈ table.handler.contents) →
        ((table.readFromDisk json key).1).getD .null = worth base := by
  obtain ⟨base, packed, own, current⟩ := based name key
  rw [nothing, Option.map_none, Option.none_or] at packed
  refine ⟨base, own, current, fun table formed index holds => ?_⟩
  apply read_newest (shelved.readable name) formed index holds packed
  rintro e rfl
  have genuine := journal.genuine (name, e) (List.mem_append_right _ current.mem)
  exact ⟨genuine.packs, genuine.faithful⟩

/-- The entries of a table are calls. -/
theorem Shelved.written_genuine (shelved : s.Shelved json) (journal : s.Journal json) {e : Entry}
    (member : e ∈ (s.store.site name).written) : Genuine json (name, e) := by
  obtain ⟨clients, whole, recent⟩ := shelved.entered name
  rw [whole] at member
  rcases List.mem_append.mp member with new | old
  · exact journal.recent_genuine (recent e new)
  · exact journal.genuine _ (List.mem_append_right _ (shelved.recovered name e old).1)

/-- A lookup under the lock of the table, where the tables have been written as in this state. -/
theorem Shelved.answer_of {u : Store} (shelved : s.Shelved json) (journal : s.Journal json)
    (based : s.Based json) (sound : u.Sound json) (orderly : u.Orderly s.files)
    (written : ∀ name, (u.site name).written = (s.store.site name).written)
    (holds : ∀ name, ∀ record ∈ (openTable (s.files name)).contents,
      record ∈ (u.site name).table.handler.contents) (name key : String) :
    (u.router.getLocked json name key).1 = .ok (s.store.value json s.files name key) := by
  rw [(Router.getLocked_spec json sound.cache name key).answers]
  show ((u.site name).table.find json key).1.answer = _
  unfold Store.value Store.newest
  split
  · rename_i e newest
    have genuine := shelved.written_genuine journal (latest_mem newest).1
    rw [← written] at newest
    rw [(orderly name).find_newest (sound.sites name) newest genuine.packs,
      genuine.faithful.decoded]
  · rename_i unwritten
    obtain ⟨clients, whole, _⟩ := shelved.entered name
    have nothing := unwritten
    rw [whole, latest_append, Option.or_eq_none_iff] at nothing
    obtain ⟨base, _, _, reads⟩ := based.unrecovered shelved journal nothing.2
    rw [← written] at unwritten
    obtain ⟨disk, index⟩ :=
      @Site.Orderly.find_disk json _ _ (orderly name) (sound.sites name) key unwritten
    have loads := Table.init_loads (shelved.readable name)
    rw [disk, Store.original, reads (Table.init (s.files name)) loads.grows.coherent.formed rfl
      loads.grows.holds]
    exact congrArg Except.ok (reads _ (sound.sites name).coherent.formed index (holds name))

theorem Shelved.answer (shelved : s.Shelved json) (journal : s.Journal json) (based : s.Based json)
    (name key : String) : (s.store.router.getLocked json name key).1 =
      .ok (s.store.value json s.files name key) :=
  shelved.answer_of journal based shelved.store shelved.orderly (fun _ => rfl) shelved.holds name key

/-- What is read under a key is a write that no lasting one is newer than. -/
theorem Shelved.current (shelved : s.Shelved json) (journal : s.Journal json) (based : s.Based json)
    (name key : String) : ∃ answer : Option Entry, (∀ e ∈ answer, e.key = key) ∧
      UpToDate (s.Lasting name key) s.history (answer.map fun e => (name, e)) ∧
      s.store.value json s.files name key = worth answer := by
  obtain ⟨clients, whole, recent⟩ := shelved.entered name
  have placed {w : Entry} (inside : (name, w) ∈ s.recent)
      (lasting : s.Lasting name key (name, w)) : w ∈ clients := by
    rcases shelved.placed _ inside with there | ⟨client, waits⟩
    · rw [whole] at there
      rcases List.mem_append.mp there with new | old
      · exact new
      · have early := (journal.completed _ (shelved.recovered name w old).2).1
        have late := journal.late _ inside
        simp only [Entry.record] at early late
        omega
    · exact absurd waits (lasting.entered client)
  have advancing := shelved.ordered.advancing name
  unfold Store.value Store.newest
  cases mine : latest clients key with
  | some e =>
      obtain ⟨member, at_key⟩ := latest_mem mine
      have newest : latest (s.store.site name).written key = some e := by
        rw [whole, latest_append, mine, Option.some_or]
      rw [newest]
      refine ⟨some e, fun other same => (by cases same; exact at_key), ?_, rfl⟩
      apply journal.upToDate (recent e member)
      rintro ⟨other, w⟩ inside above lasting
      obtain rfl : other = name := lasting.table
      have there : w ∈ (s.store.site other).written := by
        rw [whole]
        exact List.mem_append_left _ (placed inside lasting)
      rcases advancing.latest_max newest w there lasting.key with rfl | below
      · exact Nat.lt_irrefl _ above
      · dsimp only at above
        omega
  | none =>
      -- all that lasts was there when this process began
      have nothing : ∀ call ∈ s.recent, ¬ s.Lasting name key call := by
        rintro ⟨other, w⟩ inside lasting
        obtain rfl : other = name := lasting.table
        obtain ⟨_, found⟩ := latest_isSome (placed inside lasting)
        rw [show w.key = key from lasting.key, mine] at found
        cases found
      have behind {base : Option Entry}
          (current : UpToDate (s.Found name key) s.past (base.map fun e => (name, e))) :
          UpToDate (s.Lasting name key) s.history (base.map fun e => (name, e)) := by
        apply UpToDate.behind _ nothing
        apply current.mono
        intro call past lasting
        refine ⟨lasting.table, lasting.key, ?_⟩
        rcases lasting.logged with again | there
        · exact absurd lasting (nothing call again)
        · rcases journal.past_origin past there with found | again
          · exact found
          · exact absurd lasting (nothing call again)
      rw [whole, latest_append, mine, Option.none_or]
      cases recovered : latest (s.recovered json name) key with
      | some e =>
          obtain ⟨base, packed, own, current⟩ := based name key
          rw [recovered, Option.map_some, Option.some_or] at packed
          obtain ⟨b, rfl, same⟩ := Option.map_eq_some_iff.mp packed.symm
          have genuine := journal.genuine (name, b) (List.mem_append_right _ current.mem)
          have genuine' := journal.genuine (name, e)
            (List.mem_append_right _ (shelved.recovered name e (latest_mem recovered).1).1)
          refine ⟨some b, own, behind current, ?_⟩
          have values := packed_value genuine.packs genuine'.packs same
          rw [genuine.faithful.decoded, genuine'.faithful.decoded] at values
          exact values.symm
      | none =>
          obtain ⟨base, own, current, reads⟩ := based.unrecovered shelved journal recovered
          have loads := Table.init_loads (shelved.readable name)
          exact ⟨base, own, behind current,
            reads (Table.init (s.files name)) loads.grows.coherent.formed rfl loads.grows.holds⟩

end Answers

/-- What holds in every state: the log, the tables, what they started with, and the cache. -/
structure Durable (json : Json) (s : Lifetime) : Prop where
  journal : s.Journal json
  shelved : s.Shelved json
  based : s.Based json
  cached : ∀ name key held, s.store.router.cache.cache.lookup (name, key) = some held →
    held = s.store.value json s.files name key

/-- A swap finds the slot empty, and the writes of a key enter its memtable in the order in
which they were logged. Recovery finds the tables of the keys. A process is not ended before
all that it has recovered is flushed. -/
def Allowed (json : Json) (s : Lifetime) : Event → Prop
  | .work e => s.store.Unblocked e ∧ s.store.InTurn json e ∧ Homed json e
  | .preAllocate _ => True
  | .reopen _ _ => s.Reflushed json

section Runs

variable {json : Json} {s t : Lifetime}

theorem Durable.work {e : Store.Event} {store : Store} (durable : s.Durable json)
    (free : s.store.Unblocked e) (inTurn : s.store.InTurn json e) (homed : Homed json e)
    (step : Store.Step json s.store e store) (fits : (s.store.follow json s.log e).Fits) :
    Durable json { s with
      store := store
      log := s.store.follow json s.log e
      recent := (s.store.calls json e).reverse ++ s.recent } := by
  obtain ⟨journal, shelved, based, cached⟩ := durable
  have acts := shelved.store.acts step
  refine ⟨journal.work shelved.store shelved.below shelved.traced homed step fits,
    shelved.work journal free inTurn homed step, based, fun name key held known => ?_⟩
  rcases acts.cached shelved.room (name, key) held known with
    ⟨entries, txIds, new, acted, found, value⟩ | ⟨old, quiet⟩ | ⟨rfl, answered⟩
  · have newest := Store.newest_step acts name key
    rw [acted] at newest
    rw [Store.value_enter newest found]
    exact value
  · rw [Store.value_keep acts quiet]
    exact cached name key held old
  · rw [shelved.answer journal based, Except.ok.injEq] at answered
    rw [Store.value_keep acts fun entries txIds acted => (by
      rcases Store.enter_inv acted with ⟨_, _, _, _, other, _⟩ | ⟨_, _, _, _, other, _⟩ <;>
        cases other)]
    exact answered.symm

theorem Durable.reopened {maxMemtableSize cacheCapacity : Nat} (durable : s.Durable json)
    (reflushed : s.Reflushed json) (reopened : Reopened json s t maxMemtableSize cacheCapacity) :
    t.Durable json := by
  obtain ⟨journal, shelved, based, _⟩ := durable
  refine ⟨journal.reopened reopened, shelved.reopened journal reopened,
    based.reopened shelved journal reflushed reopened, fun name key held known => ?_⟩
  rw [reopened.store.cache] at known
  cases known

/-- Where only the cache and the log differ, the marks decide. -/
theorem Shelved.alike {store : Store} {log : Wal.Log} (shelved : s.Shelved json)
    (alike : Store.Alike s.store store) (marked : log.marked = s.log.marked) :
    Shelved json { s with store := store, log := log } := by
  have site := alike.site
  have delayed {client : Nat} {name : String} {w : Entry} :
      store.Delayed client name w ↔ s.store.Delayed client name w := by
    rw [Store.Delayed, Store.Delayed, alike.clients]
  constructor
  · exact shelved.store.alike alike
  · exact fun name => site name ▸ shelved.orderly name
  · exact ⟨fun name => site name ▸ shelved.ordered.advancing name, fun name e member =>
      Nat.lt_of_lt_of_le (shelved.ordered.below name e (site name ▸ member)) alike.counter⟩
  · exact fun name => site name ▸ shelved.traced name
  · exact fun name => site name ▸ shelved.filed name
  · exact fun name => site name ▸ shelved.holds name
  · intro name
    dsimp only
    rw [site, marked]
    exact shelved.marks name
  · intro client name records packedRecords txIds at_log
    exact shelved.named client name records packedRecords txIds (alike.clients ▸ at_log)
  · exact fun name => site name ▸ shelved.entered name
  · exact shelved.recovered
  · intro client name w waits
    dsimp only
    rw [site]
    exact shelved.waiting client name w (delayed.mp waits)
  · intro call member
    dsimp only
    rw [site]
    exact (shelved.placed call member).imp id fun ⟨client, waits⟩ => ⟨client, delayed.mpr waits⟩
  · intro txId member late
    obtain ⟨name, e, inside, id⟩ := shelved.marked txId (marked ▸ member) late
    exact ⟨name, e, (site name).symm ▸ inside, id⟩
  · exact shelved.readable
  · exact alike.capacity ▸ shelved.room

/-- A thread of the log touches no table and no record. -/
theorem Durable.preAllocated {fileId : Nat} (durable : s.Durable json)
    (step : s.preAllocate fileId = some t) : t.Durable json := by
  obtain ⟨journal, shelved, based, cached⟩ := durable
  unfold preAllocate at step
  dsimp only at step
  split at step
  · rename_i started
    cases step
    have fields := Wal.preAllocateAsync_fields s.store.router.wal fileId
    have alike : Store.Alike s.store { s.store with
        router := { s.store.router with
          wal := Wal.runPreAllocation s.store.router.wal fileId } } :=
      ⟨rfl, rfl, fun name => Router.table_congr (by rfl) (by rfl) name,
        Nat.le_of_eq fields.1.symm, rfl, shelved.store.cache, rfl⟩
    have wal : (s.log.preAllocate fileId).wal =
        Wal.runPreAllocation s.store.router.wal fileId := by
      rw [← journal.logging.wal]
      rfl
    have buffer : (s.log.preAllocate fileId).records = s.log.records := by
      rw [Wal.Log.records, wal, Wal.Log.records, journal.logging.wal]
      exact congrArg (s.log.swapped ++ ·) fields.2.1
    refine ⟨⟨⟨wal, ?_, journal.logging.whole.nothingLost, journal.logging.whole.all⟩,
      Nat.le_trans journal.counter alike.counter, buffer.trans journal.records, journal.written,
      journal.completed, journal.late, journal.genuine⟩, shelved.alike alike rfl, based,
      fun name key held known => ?_⟩
    · exact journal.logging.inOrder.preAllocate fileId (by rw [journal.logging.wal]; exact started)
    · rw [Store.value_congr alike.newest]
      exact cached name key held known
  · cases step

/-- What was handed to the writer stays so. -/
theorem perform_swapped {e : Event} (step : Step json s e t) : s.log.swapped <+: t.log.swapped := by
  unfold Step perform at step
  cases e with
  | work e =>
      obtain ⟨store, _, rfl⟩ := Option.map_eq_some_iff.mp step
      exact (s.store.follow_prefix json s.log e).1
  | preAllocate fileId =>
      unfold preAllocate at step
      dsimp only at step
      split at step
      · cases step
        exact List.prefix_rfl
      · cases step
  | reopen maxMemtableSize cacheCapacity =>
      have replayed (records : List Wal.Record) (log : Wal.Log) :
          (records.foldl (replayLog json) log).swapped = log.swapped := by
        induction records generalizing log with
        | nil => rfl
        | cons record rest ih =>
            rw [List.foldl_cons, ih]
            unfold replayLog
            split
            · rfl
            · rfl
      unfold reopen at step
      dsimp only at step
      split at step
      · cases step
      · split at step
        · cases step
        · cases step
          dsimp only
          rw [replayed]
          unfold Wal.Log.after
          dsimp only
          split
          · exact List.prefix_rfl
          · exact List.prefix_rfl

theorem Durable.step {e : Event} (durable : s.Durable json) (step : Step json s e t)
    (allowed : s.Allowed json e) (fits : t.log.Fits) : t.Durable json := by
  cases e with
  | work e =>
      obtain ⟨store, moved, rfl⟩ := Option.map_eq_some_iff.mp step
      exact durable.work allowed.1 allowed.2.1 allowed.2.2 moved fits
  | preAllocate fileId => exact durable.preAllocated step
  | reopen maxMemtableSize cacheCapacity =>
      exact durable.reopened allowed (durable.journal.logging.reopened step)

/-- A process on an empty directory. -/
theorem first_durable (json : Json) {maxMemtableSize cacheCapacity : Nat}
    (room : 0 < cacheCapacity) : (first maxMemtableSize cacheCapacity).Durable json := by
  have site (name : String) : (first maxMemtableSize cacheCapacity).store.site name =
      ⟨⟨[], File.empty, [], [], []⟩, Table.init File.empty⟩ := Store.start_site _ _ _ _ name
  have readable := Store.empty_readable
  constructor
  · exact ⟨⟨rfl, Wal.Log.start_inOrder, rfl, rfl⟩, Nat.le_refl 0, rfl, List.nil_prefix,
      fun r member => (by cases member), fun call member => (by cases member),
      fun call member => (by cases member)⟩
  · constructor
    · exact Store.start_sound json _ _ _ fun _ => readable
    · exact Store.start_orderly _ _ _ _
    · exact ⟨fun name => List.Pairwise.nil, fun name e member => (by cases member)⟩
    · exact fun name task member => by cases member
    · intro name
      rw [site]
      exact opened_filed readable
    · intro name
      rw [site]
      exact (Table.init_loads readable).grows.holds
    · intro name
      rw [site]
      exact ⟨fun e member => (by cases member), fun e member => (by cases member),
        fun task member => (by cases member), fun e member => (by cases member),
        Or.inr fun e member => (by cases member), fun task member => (by cases member),
        fun older whole e member => by
          rw [← show ([] : List Entry) = older from whole] at member
          cases member⟩
    · exact fun client name records packedRecords txIds at_log => by cases at_log
    · exact fun name => ⟨[], rfl, fun e member => (by cases member)⟩
    · exact fun name e member => by cases member
    · rintro client name w ⟨_, _, _, at_log, _⟩
      cases at_log
    · exact fun call member => by cases member
    · exact fun txId member => by cases member
    · exact fun _ => readable
    · exact room
  · have nothing : (openTable File.empty).contents = [] := rfl
    refine fun name key => ⟨none, ?_, fun e member => (by cases member),
      fun call member => (by cases member)⟩
    show Option.or none (Table.newestPayload (openTable File.empty).contents key) = none
    rw [nothing]
    rfl
  · exact fun name key held known => by cases known

/-- What did not fit in the end did not fit before, so every state of the run is in order. -/
theorem run_durable {maxMemtableSize cacheCapacity : Nat} (room : 0 < cacheCapacity)
    {events : List Event} (run : Run (Guarded (Step json) (Allowed json))
      (first maxMemtableSize cacheCapacity) events s) (fits : s.log.Fits) : s.Durable json := by
  have durable : s.log.Fits → s.Durable json := by
    apply run.preserves (P := fun s => s.log.Fits → s.Durable json)
    · exact fun _ => first_durable json room
    · rintro u e v before ⟨step, allowed⟩ fits
      exact (before (fits.before (perform_swapped step))).step step allowed fits
  exact durable fits

/-- Under the lock of its table a key reads as a write that no lasting write of the key is newer
than, and what the cache has for the key is the same. -/
theorem Durable.reads (durable : s.Durable json) (name key : String) :
    ∃ answer : Option Entry, (∀ e ∈ answer, e.key = key) ∧
      UpToDate (s.Lasting name key) s.history (answer.map fun e => (name, e)) ∧
      (s.store.router.getLocked json name key).1 = .ok (worth answer) ∧
      ∀ held, (s.store.router.getCached name key).1 = .ok (some held) → held = worth answer := by
  obtain ⟨journal, shelved, based, cached⟩ := durable
  obtain ⟨answer, own, current, value⟩ := shelved.current journal based name key
  refine ⟨answer, own, current, ?_, fun held hit => ?_⟩
  · rw [shelved.answer journal based, value]
  · rcases Store.getCached_answer shelved.store.cache name key with missed | ⟨other, known, got⟩
    · rw [missed] at hit
      cases hit
    · rw [got] at hit
      cases hit
      rw [cached name key held known, value]

/-- Whatever the clients and the flushes do, wherever the processes end, and however their
successors are set up. -/
theorem reads_outlive_processes (json : Json) {maxMemtableSize cacheCapacity : Nat}
    (room : 0 < cacheCapacity) {events : List Event} {s : Lifetime}
    (run : Run (Guarded (Step json) (Allowed json)) (first maxMemtableSize cacheCapacity) events s)
    (fits : s.log.Fits) (name key : String) :
    ∃ answer : Option Entry, (∀ e ∈ answer, e.key = key) ∧
      UpToDate (s.Lasting name key) s.history (answer.map fun e => (name, e)) ∧
      (s.store.router.getLocked json name key).1 = .ok (worth answer) ∧
      ∀ held, (s.store.router.getCached name key).1 = .ok (some held) → held = worth answer :=
  (run_durable room run fits).reads name key

/-- A record is written, and comes to the log files. -/
def oneWritten : List Event :=
  [.work (.set 0 "t" "t:a" (.str "x")), .work (.writer fun _ => 0)]

def oneRecord : List Wal.Record := [(0, [0, 3, 0x74, 0x3A, 0x61, 0x22, 0x78, 0x22])]

/-- What the process knows when it dies, and the next one when it has begun. -/
structure WrittenOnce (s t : Lifetime) : Prop where
  run : Run (Guarded (Step wordJson) (Allowed wordJson)) (first 2 1) oneWritten s
  reopens : s.reopen wordJson 2 1 = some t
  recent : ∃ e, s.recent = [("t", e)]
  replayed : s.replayed = []
  buffer : s.store.router.wal.walBuffer = []
  settled : ∀ client name w, ¬ s.store.Delayed client name w
  before : s.log.swapped = oneRecord
  after : t.log.swapped = oneRecord
  read : (t.store.router.getLocked wordJson "t" "t:a").1.toOption.bind wordJson.dumps =
    some [0x22, 0x78, 0x22]

theorem written_once : ∃ s t, WrittenOnce s t := by
  have outcome : ((first 2 1).perform wordJson (.work (.set 0 "t" "t:a" (.str "x")))).bind
      (fun a => (a.perform wordJson (.work (.writer fun _ => 0))).bind
        fun s => (s.reopen wordJson 2 1).map
          fun t => (s.log.swapped, t.log.swapped,
            (t.store.router.getLocked wordJson "t" "t:a").1.toOption.bind wordJson.dumps)) =
      some (oneRecord, oneRecord, some [0x22, 0x78, 0x22]) := by decide +kernel
  obtain ⟨a, written, outcome⟩ := Option.bind_eq_some_iff.mp outcome
  obtain ⟨s, flushed, outcome⟩ := Option.bind_eq_some_iff.mp outcome
  obtain ⟨t, reopens, result⟩ := Option.map_eq_some_iff.mp outcome
  simp only [Prod.mk.injEq] at result
  obtain ⟨before, after, read⟩ := result
  have set : (first 2 1).Allowed wordJson (.work (.set 0 "t" "t:a" (.str "x"))) := by
    refine ⟨trivial, ?_, by decide, ⟨_, rfl, by rfl⟩⟩
    rintro name entries txIds _ new _ client w ⟨_, _, _, at_log, _⟩
    cases at_log
  have writer : a.Allowed wordJson (.work (.writer fun _ => 0)) :=
    ⟨trivial, fun name entries txIds acted => (by cases acted), trivial⟩
  have run : Run (Guarded (Step wordJson) (Allowed wordJson)) (first 2 1) oneWritten s :=
    Run.cons ⟨written, set⟩ (Run.cons ⟨flushed, writer⟩ (Run.nil s))
  obtain ⟨store, moved, same⟩ :=
    Option.map_eq_some_iff.mp (show a.work wordJson _ = some s from flushed)
  obtain ⟨store', moved', same'⟩ :=
    Option.map_eq_some_iff.mp (show (first 2 1).work wordJson _ = some a from written)
  refine ⟨s, t, run, reopens, ?_, ?_, ?_, fun client name w waits => ?_, before, after, read⟩
  · rw [← same, ← same']
    exact ⟨_, rfl⟩
  · rw [← same, ← same']
    rfl
  · rw [← same]
    cases moved
    exact Wal.flushBuffer_empty _ _
  · rw [← same] at waits
    rw [← same'] at moved
    rcases Store.delayed_before moved waits with ⟨waited, _⟩ | ⟨called, _⟩
    · rcases Store.delayed_before moved' waited with ⟨⟨_, _, _, at_log, _⟩, _⟩ | ⟨_, quiet⟩
      · cases at_log
      · cases quiet "t"
    · cases called

/-- What fits into one file fits into several. -/
theorem fits_of_small {log : Wal.Log} (small : Wal.payloadBytes log.swapped ≤ Wal.payloadAreaSize)
    (ids : ∀ r ∈ log.swapped, Wal.validateTxId (r.1 + Wal.walCapacity) = .ok ()) : log.Fits :=
  ⟨fun _ => Nat.le_trans (Wal.payloadBytes_filter_le _ _) small, ids⟩

theorem oneRecord_fits {log : Wal.Log} (swapped : log.swapped = oneRecord) : log.Fits := by
  apply fits_of_small
  · rw [swapped]
    decide
  · rw [swapped]
    decide

/-- The next process gives the value. -/
theorem reads_outlive_one_process :
    ∃ s, ∃ answer : Option Entry,
      Run (Guarded (Step wordJson) (Allowed wordJson)) (first 2 1) (oneWritten ++ [.reopen 2 1]) s ∧
      UpToDate (s.Lasting "t" "t:a") s.history (answer.map fun e => ("t", e)) ∧
      (s.store.router.getLocked wordJson "t" "t:a").1 = .ok (worth answer) ∧
      wordJson.dumps (worth answer) = some [0x22, 0x78, 0x22] := by
  obtain ⟨s, t, once⟩ := written_once
  have died : s.Allowed wordJson (.reopen 2 1) :=
    reflushed_of_unreplayed wordJson once.replayed
  have run : Run (Guarded (Step wordJson) (Allowed wordJson)) (first 2 1)
      (oneWritten ++ [.reopen 2 1]) t := Run.snoc once.run ⟨once.reopens, died⟩
  obtain ⟨answer, _, current, locked, _⟩ :=
    reads_outlive_processes wordJson (by decide) run (oneRecord_fits once.after) "t" "t:a"
  have read := once.read
  rw [locked] at read
  exact ⟨t, answer, run, current, locked, read⟩

end Runs

end CachyDb.Database.Lifetime
