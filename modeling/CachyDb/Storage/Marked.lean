import CachyDb.Storage.Runs

set_option autoImplicit false

/-! A flush marks transactions as completed in the log only when their records are in the
synced table file. -/

namespace CachyDb

open ByteString TableHandler Transition

/-- An entry is followed by the newest one of its key. -/
theorem newest_since {entries : List Entry} {e : Entry} (member : e ∈ entries) :
    ∃ newer older e', entries = newer ++ e :: older ∧
      latest (newer ++ [e]) e.key = some e' ∧ latest entries e.key = some e' := by
  obtain ⟨newer, older, split⟩ := List.append_of_mem member
  have last : e ∈ newer ++ [e] := List.mem_append_right _ List.mem_cons_self
  obtain ⟨e', found⟩ := latest_isSome last
  refine ⟨newer, older, e', split, found, ?_⟩
  have whole : entries = (newer ++ [e]) ++ older := by
    rw [split, List.append_assoc, List.singleton_append]
  rw [whole, latest_append, found, Option.some_or]

namespace Store

/-- The log hears of a flush through its marks only. -/
theorem flush_wal {s t : Store} {name : String} {i : Nat} (done : s.flush name i = some t) :
    t.router.wal = s.router.wal.markManyJobsComplete (s.marks name i) := by
  unfold flush at done
  unfold marks
  split at done
  · cases done
  · split at done
    · rename_i marking
      cases done
      rw [if_pos marking]
      rfl
    · rename_i quiet
      cases done
      rw [if_neg quiet]
      rfl

/-- Every id that a flush marks belongs to an entry of the memtable that the flush has
read, and the record this memtable held for its key, entered under that id or later, is in
the file as of the last `sync`. -/
theorem marked_on_disk (json : Json) (wal : Wal) {tableFiles : String → File}
    (maxMemtableSize cacheCapacity : Nat)
    (readable : ∀ name, (TableHandler.openTable (tableFiles name)).WellFormed)
    {events : List Event} {s : Store}
    (run : Run (Step json) (start wal tableFiles maxMemtableSize cacheCapacity) events s)
    (name : String) (i : Nat) :
    ∀ txId ∈ s.marks name i, ∃ task, (s.shelves name).tasks[i]? = some task ∧
      ∃ newer e older e', task.entries = newer ++ e :: older ∧ e.txId = txId ∧
        latest (newer ++ [e]) e.key = some e' ∧ (e.key, e'.packed) ∈ task.records ∧
        ∃ place, OnFile (s.shelves name).synced place e'.packed := by
  have sound := run_sound (start_sound json wal maxMemtableSize cacheCapacity readable) run
  intro txId marked
  unfold marks at marked
  split at marked
  · cases marked
  · rename_i task known
    split at marked
    · rename_i marking
      have done := (sound.sites name).tasks task (List.mem_of_getElem? known)
      have sourced := done.sourced (by rw [marking]; decide)
      obtain ⟨e, inside, id⟩ := sourced.txIds txId marked
      obtain ⟨newer, older, e', split, newest, held⟩ := newest_since inside
      have record : (e.key, e'.packed) ∈ task.records := by
        apply (sourced.records e.key e'.packed).mpr
        rw [held, Option.map_some]
      have synced := done.onDisk (by rw [marking]; decide) _ record
      exact ⟨task, known, newer, e, older, e', split, id, newest, record, synced⟩
    · cases marked

/-- One record is written, and its flush goes on until the call of
`mark_many_jobs_complete`. -/
def untilMarked : List Event :=
  [.set 0 "t" "k" (.str "a"), .check 0, .swap 0] ++ List.replicate 11 (.flush "t" 0)

theorem marked_on_disk_of_one : ∃ s, Run (Step wordJson) (fresh 1 1) untilMarked s ∧
    s.marks "t" 0 = [0] ∧ ∃ task, (s.shelves "t").tasks[0]? = some task ∧
      ∃ record ∈ task.records, ∃ place, OnFile (s.shelves "t").synced place record.2 := by
  have marks : ((fresh 1 1).play wordJson untilMarked).map (fun s => s.marks "t" 0) =
      some [0] := by decide +kernel
  obtain ⟨s, played, marked⟩ := Option.map_eq_some_iff.mp marks
  have run := play_run played
  have inside : 0 ∈ s.marks "t" 0 := by
    rw [marked]
    exact List.mem_cons_self
  obtain ⟨task, known, newer, e, older, e', _, _, _, record, synced⟩ :=
    marked_on_disk wordJson _ 1 1 (fun _ => empty_readable) run "t" 0 0 inside
  exact ⟨s, run, marked, task, known, _, record, synced⟩

end Store

end CachyDb
