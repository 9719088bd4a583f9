import CachyDb.Storage.Marked
import CachyDb.Storage.Turns

set_option autoImplicit false

/-! Flushes end, whatever other threads do to the table in between. -/

namespace CachyDb

open ByteString TableHandler Transition

namespace Phase

/-- The steps from a place to the end of a flush that has no more records. -/
def distance : Phase → Nat
  | .sizing => 10
  | .allocating => 9
  | .opening => 8
  | .checking => 7
  | .saving => 6
  | .growing => 5
  | .reopening => 4
  | .inserting => 3
  | .closing => 6
  | .dropping => 5
  | .indexing => 4
  | .syncing => 3
  | .marking => 2
  | .clearing => 1
  | _ => 0

/-- The flush is inside a turn of its loop. -/
def inTurn (phase : Phase) : Prop :=
  phase = .saving ∨ phase = .growing ∨ phase = .reopening ∨ phase = .inserting

/-- The next step is one on the pages or on the file. -/
def onPages (phase : Phase) : Prop :=
  phase.inTurn ∨ phase = .sizing ∨ phase = .allocating ∨ phase = .opening ∨ phase = .checking ∨
    phase = .closing

instance (phase : Phase) : Decidable phase.inTurn := by unfold inTurn; infer_instance
instance (phase : Phase) : Decidable phase.onPages := by unfold onPages; infer_instance

end Phase

namespace Task

/-- The steps that a flush still takes at most: five for each record, and those of its place. -/
def left (task : Task) : Nat := 5 * task.job.records.length + task.phase.distance

/-- Inside a turn of the loop there is a record. -/
def Fed (task : Task) : Prop := task.phase.inTurn → task.job.records ≠ []

/-- The flush has come closer to its end. -/
structure Nearer (task task' : Task) : Prop where
  less : task'.left < task.left
  fed : task'.Fed
  records : task'.records = task.records
  begun : task'.phase ≠ .queued

/-- Until a flush has ended there is a step left. -/
theorem left_pos {task : Task} (undone : task.done = false) (begun : task.phase ≠ .queued) :
    0 < task.left := by
  apply Nat.add_pos_right
  cases phase : task.phase with
  | queued => exact absurd phase begun
  | finished =>
      rw [done, phase] at undone
      cases undone
  | failed =>
      rw [done, phase] at undone
      cases undone
  | _ => decide

/-- No record has been placed. -/
theorem nearer_of_phase {task task' : Task} {phase : Phase} (phase' : Phase)
    (here : task.phase = phase) (there : task'.phase = phase') (job : task'.job.records = task.job.records)
    (records : task'.records = task.records)
    (closer : phase'.distance < phase.distance ∧ phase' ≠ .queued)
    (fed : phase'.inTurn → task.job.records ≠ []) : Nearer task task' := by
  refine ⟨?_, ?_, records, there ▸ closer.2⟩
  · rw [left, left, job, here, there]
    exact Nat.add_lt_add_left closer.1 _
  · rw [Fed, job, there]
    exact fed

theorem outside {phase : Phase} (out : ¬ phase.inTurn) (records : List (String × Bytes)) :
    phase.inTurn → records ≠ [] := fun inside => absurd inside out

/-- What raises ends the flush. -/
theorem nearer_failed {task : Task} {phase : Phase} (here : task.phase = phase)
    (undone : 0 < phase.distance) : Nearer task (task.move .failed) :=
  nearer_of_phase .failed here rfl rfl rfl ⟨undone, by decide⟩ (outside (by decide) _)

/-- A step on the pages or on the file. -/
theorem fill_nearer (h : TableHandler) {task : Task} (fed : task.Fed)
    (filling : task.phase.onPages) : Nearer task (task.fill h).2 := by
  cases phase : task.phase with
  | sizing =>
      simp only [Task.fill, phase]
      split
      · exact nearer_of_phase .allocating phase rfl rfl rfl (by decide) (outside (by decide) _)
      · exact nearer_of_phase .opening phase rfl rfl rfl (by decide) (outside (by decide) _)
  | allocating =>
      simp only [Task.fill, phase]
      split
      · exact nearer_failed phase (by decide)
      · exact nearer_of_phase .opening phase rfl rfl rfl (by decide) (outside (by decide) _)
  | opening =>
      simp only [Task.fill, phase]
      split
      · exact nearer_failed phase (by decide)
      · exact nearer_of_phase .checking phase rfl rfl rfl (by decide) (outside (by decide) _)
  | checking =>
      simp only [Task.fill, phase]
      split
      · exact nearer_of_phase .closing phase rfl rfl rfl (by decide) (outside (by decide) _)
      · rename_i pending _
        have some_record : task.job.records ≠ [] := by
          rw [pending]
          exact List.cons_ne_nil _ _
        split
        · exact nearer_of_phase .inserting phase rfl rfl rfl (by decide) fun _ => some_record
        · exact nearer_of_phase .saving phase rfl rfl rfl (by decide) fun _ => some_record
      · exact nearer_failed phase (by decide)
  | saving =>
      have pending := fed (by rw [phase]; decide)
      simp only [Task.fill, phase]
      split
      · exact nearer_failed phase (by decide)
      · exact nearer_of_phase .growing phase rfl rfl rfl (by decide) fun _ => pending
  | growing =>
      have pending := fed (by rw [phase]; decide)
      simp only [Task.fill, phase]
      split
      · exact nearer_failed phase (by decide)
      · exact nearer_of_phase .reopening phase rfl rfl rfl (by decide) fun _ => pending
  | reopening =>
      have pending := fed (by rw [phase]; decide)
      simp only [Task.fill, phase]
      split
      · exact nearer_failed phase (by decide)
      · exact nearer_of_phase .inserting phase rfl rfl rfl (by decide) fun _ => pending
  | inserting =>
      have pending := fed (by rw [phase]; decide)
      simp only [Task.fill, phase]
      split
      · rename_i nothing
        exact absurd nothing pending
      · rename_i key packed rest records
        split
        · exact nearer_failed phase (by decide)
        · -- a record has been placed, and the loop begins its next turn
          refine ⟨?_, @outside .checking (by decide) _, rfl, (by decide : Phase.checking ≠ .queued)⟩
          show 5 * rest.length + 7 < 5 * task.job.records.length + task.phase.distance
          rw [records, phase, List.length_cons]
          show 5 * rest.length + 7 < 5 * (rest.length + 1) + 3
          omega
  | closing =>
      simp only [Task.fill, phase]
      split
      · exact nearer_failed phase (by decide)
      · exact nearer_of_phase .dropping phase rfl rfl rfl (by decide) (outside (by decide) _)
  | _ =>
      rw [phase] at filling
      exact absurd filling (by decide)

end Task

namespace Site

variable {s : Site} {i : Nat} {task : Task}

/-- A flush that has read its records takes a step towards its end. -/
theorem advance_nearer (fed : task.Fed) (begun : task.phase ≠ .queued)
    (undone : task.done = false) : ∃ task', (s.advance i task).tasks = s.tasks.set i task' ∧
      task.Nearer task' := by
  have filled (filling : task.phase.onPages) :
      ∃ task', s.tasks.set i (task.fill s.table.handler).2 = s.tasks.set i task' ∧
        task.Nearer task' := ⟨_, rfl, Task.fill_nearer _ fed filling⟩
  cases phase : task.phase with
  | queued => exact absurd phase begun
  | finished =>
      rw [Task.done, phase] at undone
      cases undone
  | failed =>
      rw [Task.done, phase] at undone
      cases undone
  | dropping =>
      refine ⟨task.move .indexing, ?_, Task.nearer_of_phase .indexing phase rfl rfl rfl (by decide)
        (Task.outside (by decide) _)⟩
      rw [advance, phase]
      rfl
  | indexing =>
      refine ⟨task.move .syncing, ?_, Task.nearer_of_phase .syncing phase rfl rfl rfl (by decide)
        (Task.outside (by decide) _)⟩
      rw [advance, phase]
      rfl
  | syncing =>
      refine ⟨task.move .marking, ?_, Task.nearer_of_phase .marking phase rfl rfl rfl (by decide)
        (Task.outside (by decide) _)⟩
      rw [advance, phase]
      rfl
  | marking =>
      refine ⟨task.move .clearing, ?_, Task.nearer_of_phase .clearing phase rfl rfl rfl (by decide)
        (Task.outside (by decide) _)⟩
      rw [advance, phase]
      rfl
  | clearing =>
      refine ⟨task.move .finished, ?_, Task.nearer_of_phase .finished phase rfl rfl rfl (by decide)
        (Task.outside (by decide) _)⟩
      rw [advance, phase]
      rfl
  | _ =>
      rw [advance, phase]
      exact filled (by rw [phase]; decide)

theorem advance_set (s : Site) (i : Nat) (task : Task) :
    ∃ task', (s.advance i task).tasks = s.tasks.set i task' := by
  unfold advance
  split
  all_goals exact ⟨_, rfl⟩

end Site

/-- A flush that was scheduled `count` times before it has ended. -/
structure Task.Paced (count : Nat) (task : Task) : Prop where
  fed : task.Fed
  queued : task.phase = .queued → count = 0
  begun : task.phase ≠ .queued → count + task.left ≤ 5 * task.records.length + 11

theorem Task.Paced.nearer {count : Nat} {task task' : Task} (paced : task.Paced count)
    (begun : task.phase ≠ .queued) (nearer : task.Nearer task') : task'.Paced (count + 1) := by
  refine ⟨nearer.fed, fun queued => absurd queued nearer.begun, fun _ => ?_⟩
  have before := paced.begun begun
  have less := nearer.less
  rw [nearer.records]
  omega

namespace Store

/-- The event schedules the flush `i` of the table. -/
def Event.flushes (name : String) (i : Nat) : Event → Bool
  | .flush other j => other = name && j = i
  | _ => false

/-- The flush has been scheduled so often, and it has not ended too late. -/
structure Timed (name : String) (i count : Nat) (s : Store) : Prop where
  paced : ∀ task, (s.site name).tasks[i]? = some task → task.done = false → task.Paced count
  unborn : (s.site name).tasks[i]? = none → count = 0

section Steps

variable {json : Json} {s t : Store} {e : Event} {name : String} {i count : Nat}

theorem flushes_inv (flushes : e.flushes name i = true) : e = .flush name i := by
  cases e with
  | flush other j =>
      obtain ⟨table, index⟩ := Bool.and_eq_true_iff.mp flushes
      rw [of_decide_eq_true table, of_decide_eq_true index]
  | _ => cases flushes

/-- A flush can take its next step at any time. -/
theorem flush_known (step : Step json s (.flush name i) t) : ∃ task,
    (s.site name).tasks[i]? = some task ∧
      s.actOn json name (.flush name i) = .advance i task := by
  unfold Step perform flush at step
  dsimp only at step
  cases known : (s.shelves name).tasks[i]? with
  | none =>
      rw [known] at step
      cases step
  | some task => exact ⟨task, known, by simp only [actOn, known, ↓reduceIte]⟩

/-- What others do to a flush: nothing, or they make it raise. -/
theorem others_tasks (acts : Acts json s e t) (quiet : e.flushes name i = false) {task : Task}
    (known : (t.site name).tasks[i]? = some task) : (s.site name).tasks[i]? = some task ∨
      (task = Task.queued ∧ (s.site name).tasks[i]? = none) ∨ task.phase = .failed := by
  have acted := actsOn json s name e
  rw [acts.site] at known
  generalize s.actOn json name e = act at acted known
  cases acted with
  | stay _ => exact Or.inl known
  | load _ => exact Or.inl known
  | set _ => exact Or.inl known
  | insertMany _ =>
      left
      rw [← (s.site name).enterAll_frame _ |>.1]
      exact known
  | swap _ _ =>
      change ((s.site name).tasks ++ [Task.queued])[i]? = some task at known
      by_cases inside : i < (s.site name).tasks.length
      · rw [List.getElem?_append_left inside] at known
        exact Or.inl known
      · rw [List.getElem?_append_right (Nat.le_of_not_lt inside)] at known
        right; left
        refine ⟨(List.mem_singleton.mp (List.mem_of_getElem? known)), ?_⟩
        exact List.getElem?_eq_none (Nat.le_of_not_lt inside)
  | @advance j before _ =>
      have other : j ≠ i := by
        rintro rfl
        simp [Event.flushes] at quiet
      obtain ⟨after, tasks⟩ := (s.site name).advance_set j before
      change ((s.site name).advance j before).tasks[i]? = some task at known
      rw [tasks, List.getElem?_set_ne other] at known
      exact Or.inl known
  | @raise j before there =>
      replace there : (s.site name).tasks[j]? = some before := there
      change ((s.site name).tasks.set j (before.move .failed))[i]? = some task at known
      by_cases same : j = i
      · subst same
        right; right
        rw [List.getElem?_set_self (List.getElem?_eq_some_iff.mp there).1] at known
        cases known
        rfl
      · rw [List.getElem?_set_ne same] at known
        exact Or.inl known

/-- Flushes are not forgotten. -/
theorem tasks_grow (acts : Acts json s e t) (name : String) :
    (s.site name).tasks.length ≤ (t.site name).tasks.length := by
  rw [acts.site]
  by_cases swaps : s.actOn json name e = .swap
  · rw [swaps]
    show (s.site name).tasks.length ≤ ((s.site name).tasks ++ [Task.queued]).length
    rw [List.length_append]
    exact Nat.le_add_right _ _
  · rw [Site.act_length swaps]

/-- The step of a flush that has not ended. -/
theorem Timed.flush (timed : s.Timed name i count) (sound : s.Sound json)
    (step : Step json s (.flush name i) t) : t.Timed name i (count + 1) := by
  have acts := sound.acts step
  obtain ⟨task, known, acted⟩ := flush_known step
  have inside := (List.getElem?_eq_some_iff.mp known).1
  have tasks : (t.site name).tasks = ((s.site name).advance i task).tasks := by
    rw [acts.site, acted]
    rfl
  constructor
  · intro after there undone
    rw [tasks] at there
    by_cases done : task.done = true
    · rw [Site.advance_done known done, known] at there
      cases there
      rw [done] at undone
      cases undone
    · have running : task.done = false := by
        rw [← Bool.not_eq_true]
        exact done
      have paced := timed.paced task known running
      by_cases queued : task.phase = .queued
      · -- the flush reads its memtable
        have begun : ((s.site name).advance i task).tasks =
            (s.site name).tasks.set i ((s.site name).begin task) := by
          rw [Site.advance, queued]
          rfl
        rw [begun, List.getElem?_set_self inside] at there
        have none_before := paced.queued queued
        unfold Site.begin at there
        split at there
        · cases there
          cases undone
        · rename_i records txIds _
          cases there
          refine ⟨@Task.outside .sizing (by decide) _, fun same => (by cases same), fun _ => ?_⟩
          show count + 1 + (5 * records.length + 10) ≤ 5 * records.length + 11
          omega
      · obtain ⟨next, moved, nearer⟩ := Site.advance_nearer (s := s.site name) (i := i) paced.fed
          queued running
        rw [moved, List.getElem?_set_self inside] at there
        cases there
        exact paced.nearer queued nearer
  · intro missing
    have grown := tasks_grow acts name
    rw [List.getElem?_eq_none_iff] at missing
    omega

theorem Timed.step (timed : s.Timed name i count) (sound : s.Sound json)
    (step : Step json s e t) : t.Timed name i (count + [e].countP (Event.flushes name i)) := by
  cases flushes : e.flushes name i with
  | true =>
      rw [List.countP_singleton, flushes]
      rw [flushes_inv flushes] at step
      exact timed.flush sound step
  | false =>
      rw [List.countP_singleton, flushes]
      have acts := sound.acts step
      constructor
      · intro task there undone
        rcases others_tasks acts flushes there with known | ⟨rfl, missing⟩ | failed
        · exact timed.paced task known undone
        · have never := timed.unborn missing
          exact ⟨@Task.outside .queued (by decide) _, fun _ => never,
            fun begun => absurd rfl begun⟩
        · rw [Task.done, failed] at undone
          cases undone
      · intro missing
        apply timed.unborn
        have grown := tasks_grow acts name
        rw [List.getElem?_eq_none_iff] at missing ⊢
        omega

end Steps

/-- Whatever runs beside it, a flush of `n` records that has not ended has taken at most
`5 * n + 10` steps. -/
theorem flush_bounded (json : Json) (wal : Wal) {tableFiles : String → File}
    (maxMemtableSize cacheCapacity : Nat)
    (readable : ∀ name, (TableHandler.openTable (tableFiles name)).WellFormed)
    {events : List Event} {s : Store}
    (run : Run (Step json) (start wal tableFiles maxMemtableSize cacheCapacity) events s)
    {name : String} {i : Nat} {task : Task} (known : (s.shelves name).tasks[i]? = some task)
    (undone : task.done = false) :
    events.countP (Event.flushes name i) ≤ 5 * task.records.length + 10 := by
  have timed : s.Timed name i (events.countP (Event.flushes name i)) := by
    have sound := start_sound json wal maxMemtableSize cacheCapacity readable
    clear known
    induction run with
    | nil =>
        refine ⟨fun task known => (by cases known), fun _ => rfl⟩
    | snoc before last ih =>
        rw [List.countP_append]
        exact ih.step (run_sound sound before) last
  have paced := timed.paced task known undone
  by_cases queued : task.phase = .queued
  · rw [paced.queued queued]
    exact Nat.zero_le _
  · have within := paced.begun queued
    have ahead := Task.left_pos undone queued
    omega

/-- The flush of one record, before its ids are marked. -/
theorem flush_bounded_of_one : ∃ s task, Run (Step wordJson) (fresh 1 1) untilMarked s ∧
    (s.shelves "t").tasks[0]? = some task ∧ task.done = false ∧
      untilMarked.countP (Event.flushes "t" 0) ≤ 5 * task.records.length + 10 := by
  have outcome : ((fresh 1 1).play wordJson untilMarked).bind
      (fun s => (s.shelves "t").tasks[0]?.map Task.done) = some false := by decide +kernel
  obtain ⟨s, played, found⟩ := Option.bind_eq_some_iff.mp outcome
  obtain ⟨task, known, undone⟩ := Option.map_eq_some_iff.mp found
  exact ⟨s, task, play_run played, known, undone,
    flush_bounded wordJson _ 1 1 (fun _ => empty_readable) (play_run played) known undone⟩

/-- Every flush makes progress, and whoever waits for one waits for one that is there. -/
structure Alive (json : Json) (s : Store) : Prop where
  sound : s.Sound json
  timed : ∀ name i, ∃ count, s.Timed name i count
  waiting : ∀ client name i, s.clients client = .waiting name i →
    i < (s.site name).tasks.length

section Ends

variable {json : Json} {s t : Store} {e : Event} {name : String} {i client : Nat}

theorem Alive.step (alive : s.Alive json) (step : Step json s e t) : t.Alive json := by
  have acts := alive.sound.acts step
  refine ⟨alive.sound.step step, fun name i => ?_, fun client name i waits => ?_⟩
  · obtain ⟨count, timed⟩ := alive.timed name i
    exact ⟨_, timed.step alive.sound step⟩
  · apply Nat.lt_of_lt_of_le _ (tasks_grow acts name)
    have moves := step_moves step
    generalize t.clients = clients at moves waits
    cases moves with
    | none _ _ => exact alive.waiting client name i waits
    | other _ actor state _ _ _ there =>
        by_cases same : client = actor
        · subst same
          rw [Function.update_self] at waits
          exact there name i waits
        · rw [Function.update_of_ne same] at waits
          exact alive.waiting client name i waits
    | append actor other calls packed _ _ =>
        by_cases same : client = actor
        · subst same
          rw [Function.update_self] at waits
          cases waits
        · rw [Function.update_of_ne same] at waits
          exact alive.waiting client name i waits

/-- A flush can always be scheduled. -/
theorem Alive.flush (alive : s.Alive json) {task : Task}
    (known : (s.site name).tasks[i]? = some task) : ∃ t, Step json s (.flush name i) t ∧
      (t.site name).tasks = ((s.site name).advance i task).tasks ∧ t.clients = s.clients := by
  have possible : ∃ t, Step json s (.flush name i) t ∧ t.clients = s.clients := by
    show ∃ t, s.flush name i = some t ∧ t.clients = s.clients
    unfold Store.flush
    rw [show (s.shelves name).tasks[i]? = some task from known]
    dsimp only
    split
    · exact ⟨_, rfl, rfl⟩
    · exact ⟨_, rfl, rfl⟩
  obtain ⟨t, step, clients⟩ := possible
  obtain ⟨task', known', acted⟩ := flush_known step
  rw [known] at known'
  cases known'
  refine ⟨t, step, ?_, clients⟩
  rw [(alive.sound.acts step).site, acted]
  rfl

/-- The flush comes to its end, in the time that its place leaves it. -/
theorem Alive.flush_ends (alive : s.Alive json) {task : Task}
    (known : (s.site name).tasks[i]? = some task) : ∃ n t task',
      Run (Step json) s (List.replicate n (.flush name i)) t ∧ t.clients = s.clients ∧
        (t.site name).tasks[i]? = some task' ∧ task'.done = true := by
  have running (left : Nat) : ∀ (s : Store) (task : Task), s.Alive json →
      (s.site name).tasks[i]? = some task → task.phase ≠ .queued → task.left ≤ left →
      ∃ n t task', Run (Step json) s (List.replicate n (.flush name i)) t ∧
        t.clients = s.clients ∧ (t.site name).tasks[i]? = some task' ∧ task'.done = true := by
    induction left with
    | zero =>
        intro s task alive known begun within
        cases done : task.done with
        | true => exact ⟨0, s, task, Run.nil s, rfl, known, done⟩
        | false =>
            have ahead := Task.left_pos done begun
            omega
    | succ left ih =>
        intro s task alive known begun within
        cases done : task.done with
        | true => exact ⟨0, s, task, Run.nil s, rfl, known, done⟩
        | false =>
            obtain ⟨count, timed⟩ := alive.timed name i
            obtain ⟨t, step, tasks, clients⟩ := alive.flush known
            obtain ⟨next, moved, nearer⟩ :=
              Site.advance_nearer (s := s.site name) (i := i) (timed.paced task known done).fed begun
                done
            have there : (t.site name).tasks[i]? = some next := by
              rw [tasks, moved, List.getElem?_set_self (List.getElem?_eq_some_iff.mp known).1]
            have less := nearer.less
            obtain ⟨n, u, last, run, same, found, ended⟩ :=
              ih t next (alive.step step) there nearer.begun (by omega)
            exact ⟨n + 1, u, last, Run.cons step run, same.trans clients, found, ended⟩
  by_cases queued : task.phase = .queued
  · obtain ⟨t, step, tasks, clients⟩ := alive.flush known
    have there : (t.site name).tasks[i]? = some ((s.site name).begin task) := by
      rw [tasks, Site.advance, queued]
      exact List.getElem?_set_self (List.getElem?_eq_some_iff.mp known).1
    have begun : ((s.site name).begin task).phase ≠ .queued := by
      unfold Site.begin
      split
      · exact fun same => by cases same
      · exact fun same => by cases same
    obtain ⟨n, u, last, run, same, found, ended⟩ :=
      running _ t _ (alive.step step) there begun (Nat.le_refl _)
    exact ⟨n + 1, u, last, Run.cons step run, same.trans clients, found, ended⟩
  · exact running _ s task alive known queued (Nat.le_refl _)

end Ends

end Store

end CachyDb
