import CachyDb.Storage.Filed
import CachyDb.Storage.Logged

set_option autoImplicit false

/-! The completion marks of a table against its memtables: a record is marked when it has
left the memtables for the file, and no other record of this process is. -/

namespace CachyDb

open ByteString TableHandler Table

theorem TableHandler.Loads.trans {h h' h'' : TableHandler} (first : Loads h h')
    (second : Loads h' h'') : Loads h h'' :=
  ⟨first.grows.trans second.grows, second.file.trans first.file,
    fun drafts => second.drafts (first.drafts drafts),
    fun kind unsaved => second.unsaved kind (first.unsaved kind unsaved)⟩

/-- A lookup loads pages. -/
theorem Table.find_loads (json : Json) (key : String) (t : Table) (coherent : t.handler.Coherent) :
    ∃ h, (t.find json key).2 = { t with handler := h } ∧ Loads t.handler h := by
  apply find_keeps json key t
  · intro h pageId page h' loads read
    exact loads.trans (loads.grows.coherent.loads read)
  · exact Loads.refl coherent

namespace Site

/-- The immutable memtable is marked, the file has its newest records, and no flush works on
the pages any more. -/
structure Settled (marked : Finset Nat) (s : Site) : Prop where
  marked : ∀ e ∈ s.immutable, e.txId ∈ marked
  filed : ∀ key e, latest s.immutable key = some e →
    newestPayload s.table.handler.saved key = some e.packed
  still : ∀ task ∈ s.tasks, task.done = true ∨ task.phase = .clearing

/-- Of the records from `opened` on, those of the memtables are noted for their flush and not
marked before it. All that has left the memtables is marked. -/
structure Marks (opened : Nat) (marked : Finset Nat) (s : Site) : Prop where
  activeIds : ∀ e ∈ s.active, opened ≤ e.txId → e.txId ∈ s.table.activeTxIds
  immutableIds : ∀ e ∈ s.immutable, opened ≤ e.txId → e.txId ∈ s.table.immutableTxIds.getD []
  taskIds : ∀ task ∈ s.tasks, task.phase.running → ∀ e ∈ task.entries,
    opened ≤ e.txId → e.txId ∈ task.txIds
  active : ∀ e ∈ s.active, opened ≤ e.txId → e.txId ∉ marked
  slot : s.Settled marked ∨ ∀ e ∈ s.immutable, opened ≤ e.txId → e.txId ∉ marked
  clearing : ∀ task ∈ s.tasks, task.phase = .clearing → s.Settled marked
  older : ∀ older, s.written = s.active ++ (s.immutable ++ older) → ∀ e ∈ older, e.txId ∈ marked

section Acts

variable {opened : Nat} {marked : Finset Nat} {s s' : Site}
  {first : AList (fun _ : String => Nat × Nat)} {base : List ((Nat × Nat) × Bytes)}

theorem Settled.keep (settled : s.Settled marked) (tasks : s'.tasks = s.tasks)
    (immutable : s'.immutable = s.immutable)
    (file : s'.table.handler.file = s.table.handler.file) : s'.Settled marked := by
  refine ⟨immutable ▸ settled.marked, ?_, tasks ▸ settled.still⟩
  rw [immutable, saved_congr file]
  exact settled.filed

theorem enterAll_ids (s : Site) (entries : List Entry) :
    (entries.foldl Site.enter s).table.immutableTxIds = s.table.immutableTxIds ∧
      (entries.foldl Site.enter s).table.activeTxIds = s.table.activeTxIds := by
  induction entries generalizing s with
  | nil => exact ⟨rfl, rfl⟩
  | cons e rest ih => exact ih (s.enter e)

/-- A reader loads pages, a write goes to the active memtable. -/
theorem Marks.keep (marks : s.Marks opened marked) (added : List Entry)
    (tasks : s'.tasks = s.tasks) (active : s'.active = added ++ s.active)
    (immutable : s'.immutable = s.immutable) (written : s'.written = added ++ s.written)
    (file : s'.table.handler.file = s.table.handler.file)
    (ids : s'.table.immutableTxIds = s.table.immutableTxIds)
    (activeIds : ∀ e ∈ s'.active, opened ≤ e.txId → e.txId ∈ s'.table.activeTxIds)
    (fresh : ∀ e ∈ added, opened ≤ e.txId → e.txId ∉ marked) : s'.Marks opened marked := by
  refine ⟨activeIds, ?_, tasks ▸ marks.taskIds, ?_, ?_, ?_, ?_⟩
  · rw [immutable, ids]
    exact marks.immutableIds
  · rw [active]
    intro e member
    rcases List.mem_append.mp member with new | old
    · exact fresh e new
    · exact marks.active e old
  · rcases marks.slot with settled | open_still
    · exact Or.inl (settled.keep tasks immutable file)
    · exact Or.inr (immutable ▸ open_still)
  · rw [tasks]
    intro task member clearing
    exact (marks.clearing task member clearing).keep tasks immutable file
  · intro older whole
    apply marks.older older
    rw [written, active, immutable, List.append_assoc] at whole
    exact List.append_cancel_left whole

/-- The slot is empty, so that all that was flushed has been marked. -/
theorem Marks.swap (marks : s.Marks opened marked) (sound : s.Sound) (orderly : s.Orderly first)
    (free : s.table.immutable = none) : s.swap.Marks opened marked := by
  have none_there := sound.empty free
  refine ⟨?_, marks.activeIds, ?_, ?_, Or.inr marks.active, ?_, ?_⟩
  · intro e member
    cases member
  · intro task member running
    rcases List.mem_append.mp member with old | new
    · exact marks.taskIds task old running
    · rw [List.mem_singleton.mp new] at running
      exact absurd running (by decide)
  · intro e member
    cases member
  · intro task member clearing
    rcases List.mem_append.mp member with old | new
    · have done := orderly.done free task old
      rw [not_done clearing (by decide)] at done
      cases done
    · rw [List.mem_singleton.mp new] at clearing
      cases clearing
  · intro older whole
    apply marks.older older
    rw [none_there]
    exact whole

/-- A flush moves on, and neither the memtables nor the marks change. -/
theorem Marks.moved (marks : s.Marks opened marked) {i : Nat} {task task' : Task}
    (known : s.tasks[i]? = some task) (before : task.done = false ∧ task.phase ≠ .clearing)
    (after : task'.phase ≠ .clearing) (tasks : s'.tasks = s.tasks.set i task')
    (ids : task'.phase.running → ∀ e ∈ task'.entries, opened ≤ e.txId → e.txId ∈ task'.txIds)
    (active : s'.active = s.active) (immutable : s'.immutable = s.immutable)
    (written : s'.written = s.written) (activeIds : s'.table.activeTxIds = s.table.activeTxIds)
    (immutableIds : s'.table.immutableTxIds = s.table.immutableTxIds) :
    s'.Marks opened marked := by
  have member := List.mem_of_getElem? known
  have unsettled (settled : s.Settled marked) : False := by
    rcases settled.still task member with done | clearing
    · rw [before.1] at done
      cases done
    · exact before.2 clearing
  refine ⟨?_, ?_, ?_, ?_, ?_, ?_, ?_⟩
  · rw [active, activeIds]
    exact marks.activeIds
  · rw [immutable, immutableIds]
    exact marks.immutableIds
  · rw [tasks]
    intro other inside running
    rcases List.mem_or_eq_of_mem_set inside with old | new
    · exact marks.taskIds other old running
    · rw [new] at running ⊢
      exact ids running
  · rw [active]
    exact marks.active
  · rw [immutable]
    exact Or.inr (marks.slot.resolve_left unsettled)
  · rw [tasks]
    intro other inside clearing
    rcases List.mem_or_eq_of_mem_set inside with old | new
    · exact absurd (marks.clearing other old clearing) unsettled
    · rw [new] at clearing
      exact absurd clearing after
  · rw [active, immutable, written]
    exact marks.older

/-- A flush ends in an error. -/
theorem Marks.raise (marks : s.Marks opened marked) {i : Nat} {task : Task} :
    (s.putTask i (task.move .failed)).Marks opened marked := by
  have settled (before : s.Settled marked) : (s.putTask i (task.move .failed)).Settled marked := by
    refine ⟨before.marked, before.filed, fun other inside => ?_⟩
    rcases List.mem_or_eq_of_mem_set inside with old | new
    · exact before.still other old
    · rw [new]
      exact Or.inl rfl
  refine ⟨marks.activeIds, marks.immutableIds, ?_, marks.active, marks.slot.imp settled id, ?_,
    marks.older⟩
  · intro other inside running
    rcases List.mem_or_eq_of_mem_set inside with old | new
    · exact marks.taskIds other old running
    · rw [new] at running
      exact absurd running (show ¬ Phase.running .failed by decide)
  · intro other inside clearing
    rcases List.mem_or_eq_of_mem_set inside with old | new
    · exact settled (marks.clearing other old clearing)
    · rw [new] at clearing
      cases clearing

/-- The ids go to the log, and their records have been written to the file. -/
theorem Marks.mark (marks : s.Marks opened marked) (filed : s.Filed base) (keyed : s.Keyed)
    (sound : s.Sound) (orderly : s.Orderly first) {i : Nat} {task : Task}
    (known : s.tasks[i]? = some task) (marking : task.phase = .marking)
    (early : ∀ e ∈ s.written, e.txId < opened → e.txId ∈ marked)
    (apart : ∀ e ∈ s.active, opened ≤ e.txId → e.txId ∉ task.txIds) :
    (s.advance i task).Marks opened (marked ∪ task.txIds.toFinset) := by
  have member := List.mem_of_getElem? known
  obtain ⟨m, before, slot, split, rfl, ended, serves⟩ :=
    orderly.current known (not_done marking (by decide))
  have mine := serves.entries (by rw [marking]; decide)
  have ids := marks.taskIds task member (by rw [marking]; decide)
  rw [mine] at ids
  obtain ⟨older, whole⟩ := sound.history
  simp only [Site.advance, marking]
  have settled : (s.putTask before.length (task.move .clearing)).Settled
      (marked ∪ task.txIds.toFinset) := by
    refine ⟨fun e inside => ?_, fun key e newest => ?_, fun other inside => ?_⟩
    · rw [Finset.mem_union, List.mem_toFinset]
      by_cases late : opened ≤ e.txId
      · exact Or.inr (ids e inside late)
      · refine Or.inl (early e ?_ (by omega))
        rw [whole]
        exact List.mem_append_right _ (List.mem_append_left _ inside)
    · exact filed.closed keyed sound orderly known (by rw [marking]; decide) newest
    · have there : other ∈ before ++ [task.move .clearing] := by
        rw [← set_last task, ← split]
        exact inside
      rcases List.mem_append.mp there with old | new
      · exact Or.inl (ended other old)
      · rw [List.mem_singleton.mp new]
        exact Or.inr rfl
  refine ⟨marks.activeIds, marks.immutableIds, ?_, ?_, Or.inl settled, fun _ _ _ => settled, ?_⟩
  · intro other inside running
    rcases List.mem_or_eq_of_mem_set inside with old | new
    · exact marks.taskIds other old running
    · rw [new]
      exact marks.taskIds task member (by rw [marking]; decide)
  · intro e inside late
    rw [Finset.mem_union, List.mem_toFinset, not_or]
    exact ⟨marks.active e inside late, apart e inside late⟩
  · intro older' whole' e inside
    exact Finset.mem_union_left _ (marks.older older' whole' e inside)

/-- The marks of another table. -/
theorem Marks.elsewhere (marks : s.Marks opened marked) {txIds : List Nat}
    (apart : ∀ e ∈ s.written, opened ≤ e.txId → e.txId ∉ txIds) (sound : s.Sound) :
    s.Marks opened (marked ∪ txIds.toFinset) := by
  obtain ⟨older, whole⟩ := sound.history
  have settled (before : s.Settled marked) : s.Settled (marked ∪ txIds.toFinset) :=
    ⟨fun e inside => Finset.mem_union_left _ (before.marked e inside), before.filed, before.still⟩
  refine ⟨marks.activeIds, marks.immutableIds, marks.taskIds, fun e inside late => ?_, ?_,
    fun task member clearing => settled (marks.clearing task member clearing),
    fun older' whole' e inside => Finset.mem_union_left _ (marks.older older' whole' e inside)⟩
  · rw [Finset.mem_union, List.mem_toFinset, not_or]
    refine ⟨marks.active e inside late, apart e ?_ late⟩
    rw [whole]
    exact List.mem_append_left _ inside
  · refine marks.slot.imp settled fun unmarked e inside late => ?_
    rw [Finset.mem_union, List.mem_toFinset, not_or]
    refine ⟨unmarked e inside late, apart e ?_ late⟩
    rw [whole]
    exact List.mem_append_right _ (List.mem_append_left _ inside)

/-- The other steps of a flush. -/
theorem Marks.advance (marks : s.Marks opened marked) (sound : s.Sound)
    (orderly : s.Orderly first) {i : Nat} {task : Task} (known : s.tasks[i]? = some task)
    (quiet : task.phase ≠ .marking) : (s.advance i task).Marks opened marked := by
  have member := List.mem_of_getElem? known
  have ids := marks.taskIds task member
  -- the steps on the pages
  have filled (running : task.phase.running) (phase : task.phase ≠ .clearing)
      (after : (task.fill s.table.handler).2.phase ≠ .clearing) :
      ((s.putHandler (task.fill s.table.handler).1).putTask i
        (task.fill s.table.handler).2).Marks opened marked := by
    have keeps := ((sound.tasks task member).fill sound.coherent).2.2
    apply marks.moved known ⟨not_done rfl running.2, phase⟩ after (by rfl) _ (by rfl) (by rfl)
      (by rfl) (by rfl) (by rfl)
    intro _ e inside late
    rw [keeps.txIds]
    rw [keeps.entries] at inside
    exact ids running e inside late
  -- the steps that only move the flush on
  have moved {s' : Site} (next : Phase)
      (here : task.phase.running ∧ task.phase ≠ .clearing ∧ next ≠ .clearing)
      (tasks : s'.tasks = s.tasks.set i (task.move next)) (active : s'.active = s.active)
      (immutable : s'.immutable = s.immutable) (written : s'.written = s.written)
      (activeIds : s'.table.activeTxIds = s.table.activeTxIds)
      (immutableIds : s'.table.immutableTxIds = s.table.immutableTxIds) :
      s'.Marks opened marked :=
    marks.moved known ⟨not_done rfl here.1.2, here.2.1⟩ here.2.2 tasks (fun _ => ids here.1) active
      immutable written activeIds immutableIds
  cases phase : task.phase with
  | queued =>
      simp only [Site.advance, phase]
      have running := not_done phase (by decide)
      have began : (s.begin task).phase ≠ .clearing ∧ ((s.begin task).phase.running →
          ∀ e ∈ (s.begin task).entries, opened ≤ e.txId → e.txId ∈ (s.begin task).txIds) := by
        unfold Site.begin Table.beginFlush
        split
        · exact ⟨show Phase.finished ≠ .clearing by decide,
            fun runs => absurd runs (show ¬ Phase.running .finished by decide)⟩
        · rename_i records txIds started
          refine ⟨show Phase.sizing ≠ .clearing by decide, fun _ e inside late => ?_⟩
          split at started
          · cases started
          · split at started
            · cases started
            · obtain ⟨_, rfl⟩ := Prod.mk.inj (Option.some.inj started)
              exact marks.immutableIds e inside late
      exact marks.moved known ⟨running, by rw [phase]; decide⟩ began.1 (by rfl) began.2 (by rfl)
        (by rfl) (by rfl) (by rfl) (by rfl)
  | dropping =>
      simp only [Site.advance, phase]
      rw [phase] at moved
      exact moved .indexing (by decide) rfl rfl rfl rfl rfl rfl
  | indexing =>
      simp only [Site.advance, phase]
      rw [phase] at moved
      exact moved .syncing (by decide) rfl rfl rfl rfl rfl rfl
  | syncing =>
      simp only [Site.advance, phase]
      rw [phase] at moved
      exact moved .marking (by decide) rfl rfl rfl rfl rfl rfl
  | marking => exact absurd phase quiet
  | clearing =>
      have settled := marks.clearing task member phase
      simp only [Site.advance, phase]
      refine ⟨marks.activeIds, fun e inside => (by cases inside), ?_, marks.active,
        Or.inr fun e inside => (by cases inside), ?_, ?_⟩
      · intro other inside running
        rcases List.mem_or_eq_of_mem_set inside with old | new
        · exact marks.taskIds other old running
        · rw [new] at running
          exact absurd running (show ¬ Phase.running .finished by decide)
      · intro other inside clearing
        obtain ⟨_, before, _, split, rfl, ended, _⟩ :=
          orderly.current known (not_done phase (by decide))
        have there : other ∈ before ++ [task.move .finished] := by
          rw [← set_last task, ← split]
          exact inside
        rcases List.mem_append.mp there with old | new
        · have done := ended other old
          rw [not_done clearing (by decide)] at done
          cases done
        · rw [List.mem_singleton.mp new] at clearing
          cases clearing
      · intro older whole e inside
        obtain ⟨older', whole'⟩ := sound.history
        have same : older = s.immutable ++ older' := by
          rw [whole'] at whole
          exact (List.append_cancel_left whole).symm
        rw [same] at inside
        rcases List.mem_append.mp inside with left | right
        · exact settled.marked e left
        · exact marks.older older' whole' e right
  | finished =>
      rw [advance_done known (by unfold Task.done; rw [phase]; rfl)]
      exact marks
  | failed =>
      rw [advance_done known (by unfold Task.done; rw [phase]; rfl)]
      exact marks
  | _ =>
      have early := Task.fill_early s.table.handler task (by rw [phase]; decide)
      rw [phase] at filled
      have after : (task.fill s.table.handler).2.phase ≠ .clearing := early.2.2.2.2.2
      simpa only [Site.advance, phase] using filled (by decide) (by decide) after

/-- Whatever the router does to the table, a mark of its own aside. -/
theorem Marks.act (marks : s.Marks opened marked) (sound : s.Sound) (orderly : s.Orderly first)
    {act : Act} (valid : act.Valid s) (free : act.Unblocked s)
    (reads : ∀ h, act = .load h → h.file = s.table.handler.file)
    (fresh : ∀ entries txIds, act = .enter entries txIds →
      ∀ e ∈ entries, opened ≤ e.txId → e.txId ∈ txIds ∧ e.txId ∉ marked)
    (quiet : ∀ i task, act = .advance i task → task.phase ≠ .marking) :
    (s.act act).Marks opened marked := by
  cases act with
  | stay => exact marks
  | enter entries txIds =>
      obtain ⟨tasks, immutable, written, _, _, handler⟩ := s.enterAll_frame entries
      have active := s.enterAll_active entries
      obtain ⟨ids, activeIds⟩ := s.enterAll_ids entries
      have new := fresh entries txIds rfl
      apply @Marks.keep opened marked s (s.act (.enter entries txIds)) marks entries.reverse tasks
        active immutable written
      · exact congrArg TableHandler.file handler
      · exact ids
      · intro e member late
        show e.txId ∈ (entries.foldl Site.enter s).table.activeTxIds ++ txIds
        rw [activeIds]
        have inside : e ∈ entries.reverse ++ s.active := by
          rw [← active]
          exact member
        rcases List.mem_append.mp inside with here | before
        · exact List.mem_append_right _ (new e (List.mem_reverse.mp here) late).1
        · exact List.mem_append_left _ (marks.activeIds e before late)
      · exact fun e member late => (new e (List.mem_reverse.mp member) late).2
  | load h =>
      exact marks.keep [] rfl rfl rfl rfl (reads h rfl) rfl marks.activeIds
        fun e member => (by cases member)
  | swap => exact marks.swap sound orderly (free rfl)
  | advance i task => exact marks.advance sound orderly valid (quiet i task rfl)
  | raise i task => exact marks.raise

/-- No record leaves the pages. -/
theorem act_contents (sound : s.Sound) {act : Act} (valid : act.Valid s) :
    ∀ record ∈ s.table.handler.contents, record ∈ (s.act act).table.handler.contents := by
  intro record member
  cases act with
  | enter entries txIds =>
      show record ∈ (entries.foldl Site.enter s).table.handler.contents
      rw [(s.enterAll_frame entries).2.2.2.2.2]
      exact member
  | load h => exact (valid sound.coherent).holds record member
  | advance i task =>
      have task_sound := sound.tasks task (List.mem_of_getElem? valid)
      show record ∈ (s.advance i task).table.handler.contents
      unfold advance
      split
      all_goals first
        | exact member
        | exact (task_sound.fill sound.coherent).1.holds record member
  | _ => exact member

end Acts

end Site

namespace Store

/-- A lookup loads pages. -/
theorem load_inv {json : Json} {s : Store} {name : String} {e : Event} (sound : s.Sound json)
    {h : TableHandler}
    (acted : s.actOn json name e = .load h) :
    Loads (s.site name).table.handler h := by
  have acts := actsOn json s name e
  rw [acted] at acts
  cases acts with
  | load key =>
      obtain ⟨found, same, loads⟩ :=
        find_loads json key (s.router.table name) (sound.sites name).coherent
      rw [same]
      exact loads

end Store

end CachyDb
