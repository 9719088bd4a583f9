import CachyDb.Storage.Runs

set_option autoImplicit false

/-! While every swap finds the immutable slot empty, the flush of a table that was submitted
last is the only one that has not ended, and the two memtables and the index hold the
newest entry of every key. -/

namespace CachyDb

open ByteString TableHandler Transition

namespace Table

/-- The index and the pages give this record for its key, or nothing after a deletion. -/
def Indexed (t : Table) (key : String) (packed : Bytes) : Prop :=
  if isDeletion key packed then t.diskIndex.lookup key = none
  else ∃ place, t.diskIndex.lookup key = some place ∧ (place, packed) ∈ t.handler.contents

/-- The index gives the newest entry of the key, and what it gave at first for a key
without entries. -/
def Reflects (t : Table) (first : AList (fun _ : String => Nat × Nat)) (history : List Entry)
    (key : String) : Prop :=
  match latest history key with
  | none => t.diskIndex.lookup key = first.lookup key
  | some e => t.Indexed key e.packed

/-- A key keeps what it has as long as the index does, since pages only grow. -/
theorem Indexed.keep {t t' : Table} {key : String} {packed : Bytes} (indexed : t.Indexed key packed)
    (index : t'.diskIndex.lookup key = t.diskIndex.lookup key)
    (contents : ∀ record ∈ t.handler.contents, record ∈ t'.handler.contents) :
    t'.Indexed key packed := by
  unfold Indexed at *
  rw [index]
  split
  · rename_i deleted
    rw [if_pos deleted] at indexed
    exact indexed
  · rename_i kept
    rw [if_neg kept] at indexed
    obtain ⟨place, known, held⟩ := indexed
    exact ⟨place, known, contents _ held⟩

theorem Reflects.keep {t t' : Table} {first : AList (fun _ : String => Nat × Nat)}
    {history : List Entry} {key : String} (reflects : t.Reflects first history key)
    (index : t'.diskIndex.lookup key = t.diskIndex.lookup key)
    (contents : ∀ record ∈ t.handler.contents, record ∈ t'.handler.contents) :
    t'.Reflects first history key := by
  unfold Reflects at *
  split
  · rename_i missing
    rw [missing] at reflects
    exact index.trans reflects
  · rename_i e found
    rw [found] at reflects
    exact reflects.keep index contents

theorem lookup_drop (keys : List String) (index : AList (fun _ : String => Nat × Nat))
    (key : String) :
    (keys.foldl (fun index key => index.erase key) index).lookup key =
      if key ∈ keys then none else index.lookup key := by
  induction keys generalizing index with
  | nil => rfl
  | cons gone rest ih =>
      rw [List.foldl_cons, ih]
      by_cases later : key ∈ rest
      · rw [if_pos later, if_pos (List.mem_cons_of_mem _ later)]
      · rw [if_neg later]
        by_cases here : key = gone
        · subst here
          rw [AList.lookup_erase, if_pos List.mem_cons_self]
        · rw [AList.lookup_erase_ne here, if_neg]
          exact fun member => (List.mem_cons.mp member).elim here later

theorem lookup_applyUpdates (index : AList (fun _ : String => Nat × Nat))
    (updates : List (String × (Nat × Nat))) (key : String) :
    (∃ place, (key, place) ∈ updates ∧ (applyUpdates index updates).lookup key = some place) ∨
      ((∀ place, (key, place) ∉ updates) ∧
        (applyUpdates index updates).lookup key = index.lookup key) := by
  induction updates generalizing index with
  | nil => exact Or.inr ⟨fun place member => (by cases member), rfl⟩
  | cons update rest ih =>
      obtain ⟨other, there⟩ := update
      rcases ih (index.insert other there) with ⟨place, member, found⟩ | ⟨missing, found⟩
      · exact Or.inl ⟨place, List.mem_cons_of_mem _ member, found⟩
      · by_cases same : key = other
        · subst same
          rw [AList.lookup_insert] at found
          exact Or.inl ⟨there, List.mem_cons_self, found⟩
        · rw [AList.lookup_insert_ne same] at found
          refine Or.inr ⟨fun place member => ?_, found⟩
          rcases List.mem_cons.mp member with here | later
          · exact same (congrArg Prod.fst here)
          · exact missing place later

end Table

namespace Phase

/-- The flush has its records, and has not touched the index. -/
def early (phase : Phase) : Prop :=
  phase ≠ .queued ∧ phase ≠ .finished ∧ phase ≠ .indexing ∧ phase ≠ .syncing ∧ phase ≠ .marking ∧
    phase ≠ .clearing

/-- The index has been updated. -/
def late (phase : Phase) : Prop := phase = .syncing ∨ phase = .marking ∨ phase = .clearing

instance (phase : Phase) : Decidable phase.early := by unfold early; infer_instance
instance (phase : Phase) : Decidable phase.late := by unfold late; infer_instance

end Phase

/-- A step on the pages leads to another such step, to the index, or to a failure. -/
theorem Task.fill_early (h : TableHandler) (task : Task) (early : task.phase.early) :
    (task.fill h).2.phase.early := by
  unfold Task.fill
  split
  · split
    · exact (by decide : Phase.early .allocating)
    · exact (by decide : Phase.early .opening)
  · split
    · exact (by decide : Phase.early .failed)
    · exact (by decide : Phase.early .opening)
  · split
    · exact (by decide : Phase.early .failed)
    · exact (by decide : Phase.early .checking)
  · split
    · exact (by decide : Phase.early .closing)
    · split
      · exact (by decide : Phase.early .inserting)
      · exact (by decide : Phase.early .saving)
    · exact (by decide : Phase.early .failed)
  · split
    · exact (by decide : Phase.early .failed)
    · exact (by decide : Phase.early .growing)
  · split
    · exact (by decide : Phase.early .failed)
    · exact (by decide : Phase.early .reopening)
  · split
    · exact (by decide : Phase.early .failed)
    · exact (by decide : Phase.early .inserting)
  · split
    · exact early
    · split
      · exact (by decide : Phase.early .failed)
      · exact (by decide : Phase.early .checking)
  · split
    · exact (by decide : Phase.early .failed)
    · exact (by decide : Phase.early .dropping)
  · exact early

namespace Site

/-- The flush works on the immutable memtable, and has brought it into the index as far as
its place says. -/
structure Serves (s : Site) (task : Task) : Prop where
  entries : task.phase.running → task.entries = s.immutable
  finished : task.phase = .finished → s.immutable = []
  dropped : task.phase = .indexing → ∀ key e, latest s.immutable key = some e →
    isDeletion key e.packed = true → s.table.diskIndex.lookup key = none
  indexed : task.phase.late → ∀ key e, latest s.immutable key = some e →
    s.table.Indexed key e.packed

structure Orderly (first : AList (fun _ : String => Nat × Nat)) (s : Site) : Prop where
  done : s.table.immutable = none → ∀ task ∈ s.tasks, task.done = true
  serves : ∀ m, s.table.immutable = some m → ∃ before last, s.tasks = before ++ [last] ∧
    (∀ task ∈ before, task.done = true) ∧ s.Serves last
  older : ∃ older, s.written = s.active ++ (s.immutable ++ older) ∧
    ∀ key, latest s.immutable key = none → s.table.Reflects first older key

variable {first : AList (fun _ : String => Nat × Nat)} {s s' : Site} {h : TableHandler} {synced : File}

theorem Serves.keep {task : Task} (serves : s.Serves task) (immutable : s'.immutable = s.immutable)
    (index : s'.table.diskIndex = s.table.diskIndex)
    (contents : ∀ record ∈ s.table.handler.contents, record ∈ s'.table.handler.contents) :
    s'.Serves task := by
  constructor
  · rw [immutable]
    exact serves.entries
  · rw [immutable]
    exact serves.finished
  · rw [immutable, index]
    exact serves.dropped
  · rw [immutable]
    intro late key e newest
    exact (serves.indexed late key e newest).keep (by rw [index]) contents

theorem Serves.move {task : Task} (serves : s.Serves task) {next : Phase}
    (running : next.running → task.phase.running) (place : next ≠ .finished ∧ next ≠ .indexing)
    (late : next.late → task.phase.late) : s.Serves (task.move next) :=
  ⟨fun on => serves.entries (running on), fun ended => absurd ended place.1,
    fun indexing => absurd indexing place.2, fun after => serves.indexed (late after)⟩

theorem Serves.fail {task : Task} (serves : s.Serves task) : s.Serves (task.move .failed) :=
  serves.move (fun running => absurd running (by decide)) (by decide)
    fun late => absurd late (by decide)

/-- A reader loads pages, a write goes to the active memtable. -/
theorem Orderly.keep (orderly : s.Orderly first) (added : List Entry)
    (tasks : s'.tasks = s.tasks) (active : s'.active = added ++ s.active)
    (immutable : s'.immutable = s.immutable) (written : s'.written = added ++ s.written)
    (slot : s'.table.immutable = s.table.immutable)
    (index : s'.table.diskIndex = s.table.diskIndex)
    (contents : ∀ record ∈ s.table.handler.contents, record ∈ s'.table.handler.contents) :
    s'.Orderly first := by
  constructor
  · rw [slot, tasks]
    exact orderly.done
  · intro m held
    rw [slot] at held
    obtain ⟨before, last, split, ended, serves⟩ := orderly.serves m held
    exact ⟨before, last, tasks.trans split, ended, serves.keep immutable index contents⟩
  · obtain ⟨older, whole, reflects⟩ := orderly.older
    refine ⟨older, by rw [written, active, immutable, whole, List.append_assoc], ?_⟩
    intro key missing
    rw [immutable] at missing
    exact (reflects key missing).keep (by rw [index]) contents

theorem enterAll_frame (s : Site) (entries : List Entry) :
    (entries.foldl Site.enter s).tasks = s.tasks ∧
      (entries.foldl Site.enter s).immutable = s.immutable ∧
      (entries.foldl Site.enter s).written = entries.reverse ++ s.written ∧
      (entries.foldl Site.enter s).table.immutable = s.table.immutable ∧
      (entries.foldl Site.enter s).table.diskIndex = s.table.diskIndex ∧
      (entries.foldl Site.enter s).table.handler = s.table.handler := by
  induction entries generalizing s with
  | nil => exact ⟨rfl, rfl, rfl, rfl, rfl, rfl⟩
  | cons e rest ih =>
      obtain ⟨tasks, immutable, written, slot, index, handler⟩ := ih (s.enter e)
      refine ⟨tasks, immutable, ?_, slot, index, handler⟩
      rw [List.foldl_cons, written, List.reverse_cons, List.append_assoc]
      rfl

theorem Orderly.enter (orderly : s.Orderly first) (entries : List Entry) (txIds : List Nat) :
    ((entries.foldl Site.enter s).addTxIds txIds).Orderly first := by
  obtain ⟨tasks, immutable, written, slot, index, handler⟩ := s.enterAll_frame entries
  refine orderly.keep entries.reverse tasks (s.enterAll_active entries) immutable written slot index ?_
  intro record held
  show record ∈ (entries.foldl Site.enter s).table.handler.contents
  rw [handler]
  exact held

/-- The slot is empty, so the swap puts nothing out of reach. -/
theorem Orderly.swap (orderly : s.Orderly first) (sound : s.Sound)
    (free : s.table.immutable = none) : s.swap.Orderly first := by
  have none_there := sound.empty free
  constructor
  · intro none
    cases none
  · intro m _
    refine ⟨s.tasks, Task.queued, rfl, orderly.done free, ⟨?_, ?_, ?_, ?_⟩⟩
    · exact fun running => absurd running (by decide)
    · exact fun finished => absurd finished (by decide)
    · exact fun indexing => absurd indexing (by decide)
    · exact fun late => absurd late (by decide)
  · obtain ⟨older, whole, reflects⟩ := orderly.older
    rw [none_there] at whole reflects
    exact ⟨older, whole, fun key _ => reflects key rfl⟩

/-- Only the flush that was submitted last still runs. -/
theorem Orderly.current (orderly : s.Orderly first) {i : Nat} {task : Task}
    (known : s.tasks[i]? = some task) (running : task.done = false) :
    ∃ m before, s.table.immutable = some m ∧ s.tasks = before ++ [task] ∧ i = before.length ∧
      (∀ task ∈ before, task.done = true) ∧ s.Serves task := by
  have member := List.mem_of_getElem? known
  cases slot : s.table.immutable with
  | none =>
      rw [orderly.done slot task member] at running
      cases running
  | some m =>
      obtain ⟨before, last, split, ended, serves⟩ := orderly.serves m slot
      rw [split] at known
      by_cases inside : i < before.length
      · rw [List.getElem?_append_left inside] at known
        rw [ended task (List.mem_of_getElem? known)] at running
        cases running
      · rw [List.getElem?_append_right (by omega)] at known
        have here : i - before.length = 0 := by
          by_contra beyond
          rw [List.getElem?_eq_none (by simp; omega)] at known
          cases known
        rw [here] at known
        obtain rfl : last = task := Option.some.inj known
        exact ⟨m, before, rfl, split, by omega, ended, serves⟩

/-- The running flush takes a step. -/
theorem Orderly.replace (orderly : s.Orderly first) {m : MemTable String Bytes}
    {before : List Task} {task : Task} (slot : s'.table.immutable = some m)
    (tasks : s'.tasks = before ++ [task]) (ended : ∀ task ∈ before, task.done = true)
    (serves : s'.Serves task) (active : s'.active = s.active)
    (immutable : s'.immutable = s.immutable) (written : s'.written = s.written)
    (index : ∀ key, latest s.immutable key = none →
      s'.table.diskIndex.lookup key = s.table.diskIndex.lookup key)
    (contents : ∀ record ∈ s.table.handler.contents, record ∈ s'.table.handler.contents) :
    s'.Orderly first := by
  constructor
  · intro none
    rw [slot] at none
    cases none
  · intro _ _
    exact ⟨before, task, tasks, ended, serves⟩
  · obtain ⟨older, whole, reflects⟩ := orderly.older
    refine ⟨older, by rw [written, active, immutable, whole], ?_⟩
    intro key missing
    rw [immutable] at missing
    exact (reflects key missing).keep (index key missing) contents

theorem set_last {before : List Task} (task other : Task) :
    (before ++ [task]).set before.length other = before ++ [other] := by
  rw [List.set_append_right _ _ (Nat.le_refl _), Nat.sub_self]
  rfl

/-- Only the place of the running flush changes. -/
theorem Orderly.putTask (orderly : s.Orderly first) {i : Nat} {task task' : Task}
    (known : s.tasks[i]? = some task) (running : task.done = false)
    (serves : s.Serves task → s.Serves task') : (s.putTask i task').Orderly first := by
  obtain ⟨m, before, slot, split, rfl, ended, served⟩ := orderly.current known running
  have tasks : (s.putTask before.length task').tasks = before ++ [task'] := by
    show s.tasks.set before.length task' = before ++ [task']
    rw [split, set_last]
  have serves' : (s.putTask before.length task').Serves task' :=
    (serves served).keep rfl rfl fun _ => id
  exact orderly.replace slot tasks ended serves' rfl rfl rfl (fun _ _ => rfl) fun _ => id

/-- The running flush changes the index, for the keys of its memtable only. -/
theorem Orderly.reindex (orderly : s.Orderly first) {i : Nat} {task task' : Task}
    (known : s.tasks[i]? = some task) (running : task.done = false)
    (index : AList (fun _ : String => Nat × Nat))
    (serves : s.Serves task →
      Serves { s with table := { s.table with diskIndex := index } } task')
    (others : ∀ key, latest s.immutable key = none →
      index.lookup key = s.table.diskIndex.lookup key) :
    (Site.putTask { s with table := { s.table with diskIndex := index } } i task').Orderly first := by
  obtain ⟨m, before, slot, split, rfl, ended, served⟩ := orderly.current known running
  have tasks : s.tasks.set before.length task' = before ++ [task'] := by
    rw [split, set_last]
  have serves' : (Site.putTask { s with table := { s.table with diskIndex := index } }
      before.length task').Serves task' := (serves served).keep rfl rfl fun _ => id
  exact orderly.replace slot tasks ended serves' rfl rfl rfl others fun _ => id

theorem Orderly.raise (orderly : s.Orderly first) {i : Nat} {task : Task}
    (known : s.tasks[i]? = some task) (running : task.done = false) :
    (s.putTask i (task.move .failed)).Orderly first := by
  exact orderly.putTask known running Serves.fail

/-- A flush that has ended does nothing. -/
theorem advance_done {i : Nat} {task : Task} (known : s.tasks[i]? = some task)
    (done : task.done = true) : s.advance i task = s := by
  have same : (s.putHandler s.table.handler).putTask i task = s := by
    have tasks : s.tasks.set i task = s.tasks := by
      apply List.ext_getElem?
      intro j
      by_cases here : j = i
      · subst here
        rw [List.getElem?_set_self (List.getElem?_eq_some_iff.mp known).1, known]
      · rw [List.getElem?_set_ne (fun back => here back.symm)]
    show { s with tasks := s.tasks.set i task } = s
    rw [tasks]
  unfold Task.done at done
  cases phase : task.phase with
  | finished => simpa only [Site.advance, phase, Task.fill] using same
  | failed => simpa only [Site.advance, phase, Task.fill] using same
  | _ => simp [phase] at done

/-- The records of a flush of the immutable memtable. -/
theorem Serves.records {task : Task} (serves : s.Serves task) (sound : task.Sound h synced)
    (running : task.phase.running) {key : String} {packed : Bytes} :
    (key, packed) ∈ task.records ↔ (latest s.immutable key).map Entry.packed = some packed := by
  rw [← serves.entries running]
  exact (sound.sourced running).records key packed

theorem not_done {task : Task} {phase : Phase} (here : task.phase = phase)
    (running : phase ≠ .finished ∧ phase ≠ .failed) : task.done = false := by
  unfold Task.done
  rw [here, decide_eq_false running.1, decide_eq_false running.2]
  rfl

/-- A flush that finds an empty memtable ends at once. -/
theorem Orderly.begin (orderly : s.Orderly first) (sound : s.Sound) {i : Nat} {task : Task}
    (known : s.tasks[i]? = some task) (queued : task.phase = .queued) :
    (s.putTask i (s.begin task)).Orderly first := by
  have running := not_done queued (by decide)
  obtain ⟨m, _, slot, _⟩ := orderly.current known running
  apply orderly.putTask known running
  intro _
  unfold Site.begin Table.beginFlush
  rw [slot]
  dsimp only
  split
  · rename_i started
    split at started
    · rename_i empty
      have nothing : s.immutable = [] := by
        cases entries : s.immutable with
        | nil => rfl
        | cons e rest =>
            have held := sound.immutable m slot e.key
            rw [entries, latest_cons, if_pos rfl] at held
            have := MemTable.size_pos_of_lookup held
            omega
      refine ⟨?_, fun _ => nothing, ?_, ?_⟩
      · exact fun running => absurd (show Phase.running .finished from running) (by decide)
      · exact fun indexing => by cases indexing
      · exact fun late => absurd (show Phase.late .finished from late) (by decide)
    · cases started
  · refine ⟨fun _ => rfl, ?_, ?_, ?_⟩
    · exact fun finished => by cases finished
    · exact fun indexing => by cases indexing
    · exact fun late => absurd (show Phase.late .sizing from late) (by decide)

/-- A step on the pages. -/
theorem Orderly.fill (orderly : s.Orderly first) (sound : s.Sound) {i : Nat} {task : Task}
    (known : s.tasks[i]? = some task) (running : task.phase.running) (early : task.phase.early) :
    ((s.putHandler (task.fill s.table.handler).1).putTask i
      (task.fill s.table.handler).2).Orderly first := by
  have task_sound := sound.tasks task (List.mem_of_getElem? known)
  obtain ⟨grows, _, keeps⟩ := task_sound.fill sound.coherent
  have loaded : (s.putHandler (task.fill s.table.handler).1).Orderly first :=
    orderly.keep [] rfl rfl rfl rfl rfl rfl grows.holds
  have known' : (s.putHandler (task.fill s.table.handler).1).tasks[i]? = some task := known
  apply loaded.putTask known' (not_done rfl running.2)
  intro serves
  have next := task.fill_early s.table.handler early
  refine ⟨fun _ => keeps.entries.trans (serves.entries running), ?_, ?_, ?_⟩
  · exact fun finished => absurd finished next.2.1
  · exact fun indexing => absurd indexing next.2.2.1
  · rintro (syncing | marking | clearing)
    · exact absurd syncing next.2.2.2.1
    · exact absurd marking next.2.2.2.2.1
    · exact absurd clearing next.2.2.2.2.2

/-- The deleted keys leave the index. -/
theorem Orderly.drop (orderly : s.Orderly first) (sound : s.Sound) {i : Nat} {task : Task}
    (known : s.tasks[i]? = some task) (dropping : task.phase = .dropping) :
    (s.advance i task).Orderly first := by
  have task_sound := sound.tasks task (List.mem_of_getElem? known)
  have current := not_done dropping (by decide)
  obtain ⟨_, _, _, _, _, _, serves⟩ := orderly.current known current
  have running : task.phase.running := by
    rw [dropping]
    decide
  have rest := task_sound.rest (by rw [dropping]; decide)
  have records {key : String} {packed : Bytes} : (key, packed) ∈ task.records ↔
      (latest s.immutable key).map Entry.packed = some packed := serves.records task_sound running
  simp only [Site.advance, dropping]
  apply orderly.reindex known current
  · intro _
    refine ⟨fun _ => serves.entries running, ?_, ?_, ?_⟩
    · exact fun finished => by cases finished
    · intro _ key e newest deleted
      have member : (key, e.packed) ∈ task.records := by
        rw [records, newest]
        rfl
      show (task.job.deletions.foldl (fun index key => index.erase key) s.table.diskIndex).lookup key =
        none
      rw [Table.lookup_drop, if_pos]
      rcases task_sound.noted running _ member with pending | noted
      · rw [rest] at pending
        cases pending
      · rw [if_pos deleted] at noted
        exact noted
    · exact fun late => absurd (show Phase.late .indexing from late) (by decide)
  · intro key missing
    show (task.job.deletions.foldl (fun index key => index.erase key) s.table.diskIndex).lookup key =
      s.table.diskIndex.lookup key
    rw [Table.lookup_drop, if_neg]
    intro gone
    obtain ⟨packed, member, _⟩ := task_sound.deletions key gone
    rw [records, missing] at member
    cases member

/-- The other keys get their new places. -/
theorem Orderly.index (orderly : s.Orderly first) (sound : s.Sound) {i : Nat} {task : Task}
    (known : s.tasks[i]? = some task) (indexing : task.phase = .indexing) :
    (s.advance i task).Orderly first := by
  have task_sound := sound.tasks task (List.mem_of_getElem? known)
  have current := not_done indexing (by decide)
  obtain ⟨_, _, _, _, _, _, serves⟩ := orderly.current known current
  have running : task.phase.running := by
    rw [indexing]
    decide
  have rest := task_sound.rest (by rw [indexing]; decide)
  have records {key : String} {packed : Bytes} : (key, packed) ∈ task.records ↔
      (latest s.immutable key).map Entry.packed = some packed := serves.records task_sound running
  have updated (key : String) (e : Entry) (newest : latest s.immutable key = some e)
      (place : Nat × Nat) (update : (key, place) ∈ task.job.updates) :
      isDeletion key e.packed = false ∧ (place, e.packed) ∈ s.table.handler.contents := by
    obtain ⟨packed, member, kept, held⟩ := task_sound.updates _ update
    rw [records, newest] at member
    cases member
    exact ⟨kept, held⟩
  simp only [Site.advance, indexing]
  apply orderly.reindex known current
  · intro _
    refine ⟨fun _ => serves.entries running, ?_, ?_, ?_⟩
    · exact fun finished => by cases finished
    · exact fun indexing => by cases indexing
    · intro _ key e newest
      have member : (key, e.packed) ∈ task.records := by
        rw [records, newest]
        rfl
      show if isDeletion key e.packed then
          (Table.applyUpdates s.table.diskIndex task.job.updates).lookup key = none
        else ∃ place, (Table.applyUpdates s.table.diskIndex task.job.updates).lookup key =
          some place ∧ (place, e.packed) ∈ s.table.handler.contents
      rcases Table.lookup_applyUpdates s.table.diskIndex task.job.updates key with
        ⟨place, update, found⟩ | ⟨missing, same⟩
      · obtain ⟨kept, held⟩ := updated key e newest place update
        rw [if_neg (by rw [kept]; decide)]
        exact ⟨place, found, held⟩
      · by_cases deleted : isDeletion key e.packed = true
        · rw [if_pos deleted, same]
          exact serves.dropped indexing key e newest deleted
        · rcases task_sound.noted running _ member with pending | noted
          · rw [rest] at pending
            cases pending
          · rw [if_neg deleted] at noted
            obtain ⟨place, update⟩ := noted
            exact absurd update (missing place)
  · intro key none_there
    show (Table.applyUpdates s.table.diskIndex task.job.updates).lookup key = _
    rcases Table.lookup_applyUpdates s.table.diskIndex task.job.updates key with
      ⟨place, update, _⟩ | ⟨_, same⟩
    · obtain ⟨packed, member, _⟩ := task_sound.updates _ update
      rw [records, none_there] at member
      cases member
    · exact same

/-- The memtable goes, what it held is in the index. -/
theorem Orderly.clear (orderly : s.Orderly first) {i : Nat} {task : Task}
    (known : s.tasks[i]? = some task) (clearing : task.phase = .clearing) :
    (s.advance i task).Orderly first := by
  obtain ⟨m, before, slot, split, rfl, ended, serves⟩ :=
    orderly.current known (not_done clearing (by decide))
  simp only [Site.advance, clearing]
  constructor
  · intro _ other member
    have tasks : s.tasks.set before.length (task.move .finished) =
        before ++ [task.move .finished] := by
      rw [split, set_last]
    have inside : other ∈ before ++ [task.move .finished] := tasks ▸ member
    rcases List.mem_append.mp inside with old | new
    · exact ended other old
    · rw [List.mem_singleton.mp new]
      rfl
  · intro m cleared
    cases cleared
  · obtain ⟨older, whole, reflects⟩ := orderly.older
    refine ⟨s.immutable ++ older, whole, fun key _ => ?_⟩
    have here := reflects key
    unfold Table.Reflects at *
    rw [latest_append]
    cases newest : latest s.immutable key with
    | none => exact here newest
    | some e => exact serves.indexed (Or.inr (Or.inr clearing)) key e newest

theorem Orderly.advance (orderly : s.Orderly first) (sound : s.Sound) {i : Nat} {task : Task}
    (known : s.tasks[i]? = some task) : (s.advance i task).Orderly first := by
  have filled (running : task.phase.running) (early : task.phase.early) :=
    orderly.fill sound known running early
  cases phase : task.phase with
  | queued =>
      simp only [Site.advance, phase]
      exact orderly.begin sound known phase
  | dropping => exact orderly.drop sound known phase
  | indexing => exact orderly.index sound known phase
  | syncing =>
      simp only [Site.advance, phase]
      have synced : Orderly first { s with synced := s.table.handler.file } :=
        orderly.keep [] rfl rfl rfl rfl rfl rfl fun _ => id
      apply synced.putTask known (not_done phase (by decide))
      intro serves
      apply serves.move (fun _ => by rw [phase]; decide) (by decide)
      exact fun _ => Or.inl phase
  | marking =>
      simp only [Site.advance, phase]
      apply orderly.putTask known (not_done phase (by decide))
      intro serves
      apply serves.move (fun _ => by rw [phase]; decide) (by decide)
      exact fun _ => Or.inr (Or.inl phase)
  | clearing => exact orderly.clear known phase
  | finished =>
      rw [advance_done known (by unfold Task.done; rw [phase]; rfl)]
      exact orderly
  | failed =>
      rw [advance_done known (by unfold Task.done; rw [phase]; rfl)]
      exact orderly
  | _ =>
      rw [phase] at filled
      simpa only [Site.advance, phase] using filled (by decide) (by decide)

/-- Only a swap submits a flush. -/
theorem act_length {act : Act} (quiet : act ≠ .swap) :
    (s.act act).tasks.length = s.tasks.length := by
  cases act with
  | enter entries txIds =>
      exact congrArg List.length (s.enterAll_frame entries).1
  | swap => exact absurd rfl quiet
  | advance i task =>
      show (s.advance i task).tasks.length = s.tasks.length
      unfold Site.advance
      split
      all_goals exact List.length_set
  | raise i task => exact List.length_set
  | stay => rfl
  | load h => rfl

/-- What keeps a table in order: every swap finds the slot empty. -/
def Act.Unblocked (s : Site) (act : Act) : Prop := act = .swap → s.table.immutable = none

theorem Orderly.act (orderly : s.Orderly first) (sound : s.Sound) {act : Act} (valid : act.Valid s)
    (free : act.Unblocked s) : (s.act act).Orderly first := by
  cases act with
  | stay => exact orderly
  | enter entries txIds => exact orderly.enter entries txIds
  | load h =>
      have grows := valid sound.coherent
      exact orderly.keep [] rfl rfl rfl rfl rfl rfl grows.holds
  | swap => exact orderly.swap sound (free rfl)
  | advance i task => exact orderly.advance sound valid
  | raise i task => exact orderly.raise valid.1 valid.2

end Site

end CachyDb
