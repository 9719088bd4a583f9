import CachyDb.Storage.Orderly

set_option autoImplicit false

/-! What a swap of the memtables leaves within reach. A client waits for the last flush
before it takes the table lock, and looks at the size of the active memtable again under
the lock, but not at the immutable slot. -/

namespace CachyDb

open ByteString Transition

/-- The newest record of every key is in the active memtable, in the immutable one, with
a flush that has it in its hands, or in the pages under the index. -/
def Site.Kept (s : Site) : Prop :=
  ∀ key e, latest s.written key = some e →
    s.table.active.search key = some e.packed ∨
    (∃ m, s.table.immutable = some m ∧ m.search key = some e.packed) ∨
    (∃ task ∈ s.tasks, task.phase.running ∧ (key, e.packed) ∈ task.records) ∨
    s.table.Indexed key e.packed

theorem Site.Orderly.kept {first : AList (fun _ : String => Nat × Nat)} {s : Site}
    (orderly : s.Orderly first) (sound : s.Sound) : s.Kept := by
  intro key e newest
  obtain ⟨older, whole, reflects⟩ := orderly.older
  rw [whole, latest_append] at newest
  cases active : latest s.active key with
  | some e' =>
      rw [active, Option.some_or, Option.some.injEq] at newest
      left
      rw [MemTable.search_eq_lookup, sound.active key, active, newest]
      rfl
  | none =>
      rw [active, Option.none_or, latest_append] at newest
      cases immutable : latest s.immutable key with
      | some e' =>
          rw [immutable, Option.some_or, Option.some.injEq] at newest
          right
          left
          cases slot : s.table.immutable with
          | none =>
              rw [sound.empty slot] at immutable
              cases immutable
          | some m =>
              refine ⟨m, rfl, ?_⟩
              rw [MemTable.search_eq_lookup, sound.immutable m slot key, immutable, newest]
              rfl
      | none =>
          rw [immutable, Option.none_or] at newest
          have indexed := reflects key immutable
          unfold Table.Reflects at indexed
          rw [newest] at indexed
          exact Or.inr (Or.inr (Or.inr indexed))

namespace Store

/-- The swap that a client is about to make finds the immutable slot empty. -/
def Unblocked (s : Store) : Event → Prop
  | .swap client =>
      match s.clients client with
      | .ready name =>
          (s.router.table name).active.size ≥ s.router.maxMemtableSize →
            (s.router.table name).immutable = none
      | _ => True
  | _ => True

instance (s : Store) (state : Client) : Decidable (match state with
    | .ready name =>
        (s.router.table name).active.size ≥ s.router.maxMemtableSize →
          (s.router.table name).immutable = none
    | _ => True) := by
  split <;> infer_instance

instance (s : Store) (e : Event) : Decidable (s.Unblocked e) := by
  unfold Unblocked
  split <;> infer_instance

/-- What the index of each table was at first. -/
def firstIndex (tableFiles : String → File) (name : String) : AList (fun _ : String => Nat × Nat) :=
  (Table.init (tableFiles name)).diskIndex

theorem unblocked_act {json : Json} {s : Store} {e : Event} (free : s.Unblocked e) (name : String) :
    (s.actOn json name e).Unblocked (s.site name) := by
  intro swaps
  obtain ⟨client, rfl, ready, large⟩ := swap_inv swaps
  simp only [Unblocked, ready] at free
  exact free large

/-- Every table is in order. -/
def Orderly (tableFiles : String → File) (s : Store) : Prop :=
  ∀ name, (s.site name).Orderly (firstIndex tableFiles name)

theorem start_orderly (wal : Wal) (tableFiles : String → File) (maxMemtableSize cacheCapacity : Nat) :
    (start wal tableFiles maxMemtableSize cacheCapacity).Orderly tableFiles := by
  intro name
  have known : (start wal tableFiles maxMemtableSize cacheCapacity).router.table name =
      Table.init (tableFiles name) := by
    simp only [start, Router.init, Router.table, Router.getTableState, AList.lookup_empty]
  refine ⟨?_, ?_, ⟨[], rfl, fun key _ => ?_⟩⟩
  · exact fun _ task member => by cases member
  · rw [site, known]
    exact fun m held => by cases held
  · rw [site, known]
    rfl

theorem Orderly.step {json : Json} {tableFiles : String → File} {s t : Store} {e : Event}
    (orderly : s.Orderly tableFiles) (sound : s.Sound json) (free : s.Unblocked e)
    (step : Step json s e t) : t.Orderly tableFiles := by
  intro name
  have acts := sound.acts step
  rw [acts.site]
  exact (orderly name).act (sound.sites name) (acts.valid name) (unblocked_act free name)

theorem run_orderly {json : Json} {tableFiles : String → File} {wal : Wal}
    {maxMemtableSize cacheCapacity : Nat}
    (readable : ∀ name, (TableHandler.openTable (tableFiles name)).WellFormed)
    {events : List Event} {s : Store}
    (run : Run (Guarded (Step json) Unblocked)
      (start wal tableFiles maxMemtableSize cacheCapacity) events s) :
    s.Sound json ∧ s.Orderly tableFiles := by
  apply run.preserves
  · exact ⟨start_sound json wal maxMemtableSize cacheCapacity readable,
      start_orderly wal tableFiles maxMemtableSize cacheCapacity⟩
  · rintro u e v ⟨sound, orderly⟩ ⟨step, free⟩
    exact ⟨sound.step step, orderly.step sound free step⟩

/-- In every run whose swaps find the slot empty nothing is lost between the memtables,
whatever the flushes do. -/
theorem kept_between_swaps (json : Json) (wal : Wal) {tableFiles : String → File}
    (maxMemtableSize cacheCapacity : Nat)
    (readable : ∀ name, (TableHandler.openTable (tableFiles name)).WellFormed)
    {events : List Event} {s : Store}
    (run : Run (Guarded (Step json) Unblocked)
      (start wal tableFiles maxMemtableSize cacheCapacity) events s) (name : String) :
    (s.site name).Kept := by
  obtain ⟨sound, orderly⟩ := run_orderly readable run
  exact (orderly name).kept (sound.sites name)

/-- A write that fills the memtable, and its swap. -/
def oneSwap : List Event := [.set 0 "t" "a" (.str "x"), .check 0, .swap 0]

/-- Two clients find no flush that they would have to wait for. The second one swaps when
the first has swapped and the active memtable has filled up again. -/
def twoSwaps : List Event :=
  [.set 0 "t" "a" (.str "x"), .set 1 "t" "b" (.str "y"), .check 0, .check 1, .swap 0,
    .set 2 "t" "c" (.str "z"), .swap 1]

theorem kept_after_one_swap :
    ∃ s, Run (Guarded (Step wordJson) Unblocked) (fresh 1 1) oneSwap s ∧ (s.site "t").Kept := by
  obtain ⟨s, played⟩ := Option.isSome_iff_exists.mp
    (by decide +kernel : (playIn (perform wordJson) Unblocked (fresh 1 1) oneSwap).isSome)
  have run := playIn_run played
  exact ⟨s, run, kept_between_swaps wordJson _ 1 1 (fun _ => empty_readable) run "t"⟩

/-- Nothing holds the first record any more. -/
theorem lost_in_two_swaps :
    ∃ s, Run (Step wordJson) (fresh 1 1) twoSwaps s ∧ ¬ (s.site "t").Kept := by
  have outcome : ((fresh 1 1).play wordJson twoSwaps).map (fun s =>
      ((latest (s.site "t").written "a").map Entry.packed, (s.site "t").table.active.search "a",
        (s.site "t").table.immutable.map fun m => m.search "a")) =
      some (some [0, 1, 0x61, 0x22, 0x78, 0x22], none, some none) := by decide +kernel
  have rest : ((fresh 1 1).play wordJson twoSwaps).map (fun s =>
      ((s.site "t").tasks.map Task.phase, (s.site "t").table.diskIndex.lookup "a")) =
      some ([.queued, .queued], none) := by decide +kernel
  obtain ⟨s, played, result⟩ := Option.map_eq_some_iff.mp outcome
  rw [played, Option.map_some, Option.some.injEq, Prod.mk.injEq] at rest
  obtain ⟨phases, index⟩ := rest
  simp only [Prod.mk.injEq] at result
  obtain ⟨newest, active, immutable⟩ := result
  obtain ⟨e, written, packed⟩ := Option.map_eq_some_iff.mp newest
  refine ⟨s, play_run played, fun kept => ?_⟩
  rcases kept "a" e written with held | ⟨m, slot, held⟩ | ⟨task, member, running, _⟩ | indexed
  · rw [active] at held
    cases held
  · rw [slot, Option.map_some, held] at immutable
    cases immutable
  · have queued := List.mem_map_of_mem member (f := Task.phase)
    rw [phases] at queued
    simp only [List.mem_cons, List.not_mem_nil, or_false, or_self] at queued
    exact running.1 queued
  · unfold Table.Indexed at indexed
    rw [packed, if_neg (by decide +kernel), index] at indexed
    obtain ⟨place, known, _⟩ := indexed
    cases known

end Store

end CachyDb
