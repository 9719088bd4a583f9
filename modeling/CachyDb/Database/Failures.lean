import CachyDb.Database.Restarts

set_option autoImplicit false

/-! Flushes that raise, anywhere before they have marked their records. `shutdown` flushes again
what they have left in the slots. A key reads as its last write throughout, unless a memtable is
swapped over one that no flush has brought to the file. -/

namespace CachyDb

open ByteString TableHandler Transition

namespace Site

section

variable {opened : Nat} {marked : Finset Nat} {s : Site} {base : List ((Nat × Nat) × Bytes)}
  {first : AList (fun _ : String => Nat × Nat)}

/-- One more call of `flush_memtable_to_disk`. -/
def submit (s : Site) : Site := { s with tasks := s.tasks ++ [Task.queued] }

theorem submitted {task : Task} (member : task ∈ s.submit.tasks) :
    task ∈ s.tasks ∨ task = Task.queued :=
  (List.mem_append.mp member).imp id List.mem_singleton.mp

theorem Sound.submit (sound : s.Sound) : s.submit.Sound := by
  refine ⟨sound.coherent, sound.active, sound.activeIds, sound.immutable, sound.immutableIds,
    sound.empty, sound.nonempty, sound.history, fun task member => ?_⟩
  rcases submitted member with old | rfl
  · exact sound.tasks task old
  · exact Task.queued_sound _ _

theorem Orderly.submit (orderly : s.Orderly first) (ended : ∀ task ∈ s.tasks, task.done = true)
    (occupied : s.table.immutable ≠ none) : s.submit.Orderly first := by
  refine ⟨fun empty => absurd empty occupied, fun m _ => ?_, orderly.older⟩
  refine ⟨s.tasks, Task.queued, rfl, ended, ⟨?_, ?_, ?_, ?_⟩⟩
  · exact fun running => absurd running (by decide)
  · exact fun finished => absurd finished (by decide)
  · exact fun indexing => absurd indexing (by decide)
  · exact fun late => absurd late (by decide)

theorem Traced.submit (traced : s.Traced) : s.submit.Traced := by
  intro task member
  rcases submitted member with old | rfl
  · exact traced task old
  · exact List.nil_infix

theorem Filed.submit (filed : s.Filed base) : s.submit.Filed base := by
  obtain ⟨older, settled, fresh, whole, saved, swapped, covers, filing⟩ := filed.history
  refine ⟨filed.ahead, older, settled, fresh, whole, saved, swapped, covers, fun task member => ?_⟩
  rcases submitted member with old | rfl
  · exact filing task old
  · exact Task.filing_of_done (Or.inr rfl) _ _

theorem Marks.submit (marks : s.Marks opened marked)
    (ended : ∀ task ∈ s.tasks, task.done = true)
    (unmarked : ∀ e ∈ s.immutable, opened ≤ e.txId → e.txId ∉ marked) :
    s.submit.Marks opened marked := by
  refine ⟨marks.activeIds, marks.immutableIds, fun task member running => ?_, marks.active,
    Or.inr unmarked, fun task member clearing => ?_, marks.older⟩
  · rcases submitted member with old | rfl
    · exact marks.taskIds task old running
    · exact absurd running (by decide)
  · rcases submitted member with old | rfl
    · have done := ended task old
      rw [not_done clearing (by decide)] at done
      cases done
    · cases clearing

/-- A flush that is at work has not marked its records, or has nothing left to do but clear. -/
theorem Marks.unmarked (marks : s.Marks opened marked) {i : Nat} {task : Task}
    (known : s.tasks[i]? = some task) (running : task.done = false)
    (working : task.phase ≠ .clearing) : ∀ e ∈ s.immutable, opened ≤ e.txId → e.txId ∉ marked := by
  apply marks.slot.resolve_left
  intro settled
  rcases settled.still task (List.mem_of_getElem? known) with done | clearing
  · rw [running] at done
    cases done
  · exact working clearing

theorem advance_immutable {i : Nat} {task : Task} (working : task.phase ≠ .clearing) :
    (s.advance i task).immutable = s.immutable := by
  unfold advance
  split
  case h_6 clearing => exact absurd clearing working
  all_goals rfl

end

end Site

namespace Store

section

variable {json : Json} {s t : Store} {e : Event}

/-- `shutdown` calls `flush_memtable_to_disk`. -/
def submit (s : Store) (name : String) : Store :=
  s.putShelf name { s.shelves name with tasks := (s.shelves name).tasks ++ [Task.queued] }

theorem submit_site (s : Store) (name other : String) :
    (s.submit name).site other = s.site other ∨
      other = name ∧ (s.submit name).site other = (s.site other).submit := by
  by_cases same : other = name
  · subst same
    refine Or.inr ⟨rfl, ?_⟩
    simp only [site, submit, putShelf, Function.update_self, Site.submit]
  · left
    simp only [site, submit, putShelf, Function.update_of_ne same]

@[simp] theorem submit_written (s : Store) (name other : String) :
    ((s.submit name).site other).written = (s.site other).written := by
  rcases s.submit_site name other with same | ⟨_, same⟩
  · rw [same]
  · rw [same]
    rfl

/-- A flush raises before its records have been marked. -/
def RaisesEarly (s : Store) : Event → Prop
  | .raise name i =>
      match (s.shelves name).tasks[i]? with
      | some task => task.phase ≠ .clearing
      | none => True
  | _ => True

instance (s : Store) (e : Event) : Decidable (s.RaisesEarly e) := by
  unfold RaisesEarly
  split
  · split <;> infer_instance
  · infer_instance

/-- The step is no append of a `set_many`. -/
def Event.direct : Event → Bool
  | .append _ _ _ => false
  | _ => true

theorem undelayed_step (direct : e.direct = true) (step : Step json s e t)
    (before : ∀ client name w, ¬ s.Delayed client name w) :
    ∀ client name w, ¬ t.Delayed client name w := by
  intro client name w waits
  rcases delayed_before step waits with ⟨waited, _⟩ | ⟨called, stays⟩
  · exact before client name w waited
  · cases e with
    | set actor table key value =>
        have stay := stays table
        unfold calls at called
        unfold actOn at stay
        dsimp only at called stay
        split at called
        · rename_i packed packs
          rw [packs] at stay
          simp only [↓reduceIte] at stay
          cases stay
        · cases called
    | append actor table records => cases direct
    | _ => cases called

end

end Store

end CachyDb

namespace CachyDb.Database.Lifetime

open ByteString TableHandler Transition Chronicle Router

/-- A step of the processes, or the flush of a table in `shutdown`. -/
inductive Call
  | life (e : Event)
  | flushAgain (name : String)

/-- `shutdown` has waited for the flushes of the table. What is in its slot has not been flushed:
one of them has raised. -/
def flushAgain (s : Lifetime) (name : String) : Option Lifetime :=
  if (s.store.shelves name).tasks.all Task.done && (s.store.router.table name).immutable.isSome then
    some { s with store := s.store.submit name }
  else none

def call (json : Json) (s : Lifetime) : Call → Option Lifetime
  | .life e => s.perform json e
  | .flushAgain name => s.flushAgain name

def Calls (json : Json) (s : Lifetime) (c : Call) (t : Lifetime) : Prop := s.call json c = some t

/-- What is in the slot of a table no flush of which is at work has not been marked. -/
def Unflushed (s : Lifetime) : Prop :=
  ∀ name, (∀ task ∈ (s.store.site name).tasks, task.done = true) →
    ∀ e ∈ (s.store.site name).immutable, s.opened ≤ e.txId → e.txId ∉ s.log.marked

/-- What is allowed where reads last, in a run in which flushes raise before they have marked. -/
def Careful (json : Json) (s : Lifetime) : Call → Prop
  | .life (.work e) => s.Allowed json (.work e) ∧ s.store.RaisesEarly e
  | .life e => s.Allowed json e
  | .flushAgain _ => True

/-- The same without a condition on the slots and on the ends of processes. -/
def Taken (json : Json) (s : Lifetime) : Call → Prop
  | .life (.work e) => Homed json e ∧ s.store.RaisesEarly e
  | _ => True

theorem Careful.taken {json : Json} {s : Lifetime} {c : Call} (careful : s.Careful json c) :
    s.Taken json c := by
  cases c with
  | flushAgain name => trivial
  | life e =>
      cases e with
      | work e => exact ⟨careful.1.2.2, careful.2⟩
      | _ => trivial

/-- Each key reads as a write that nothing lasting is newer than, and the directory can be
opened. -/
structure Unharmed (json : Json) (s : Lifetime) : Prop where
  reads : ∀ name key, ∃ answer : Option Entry, (∀ e ∈ answer, e.key = key) ∧
    UpToDate (s.Lasting name key) s.history (answer.map fun e => (name, e)) ∧
    (s.store.router.getLocked json name key).1 = .ok (worth answer)
  opens : ∀ maxMemtableSize cacheCapacity, 0 < maxMemtableSize → 0 < cacheCapacity →
    ∃ t, s.reopen json maxMemtableSize cacheCapacity = some t

/-- What holds all along where flushes raise. -/
structure Enduring (json : Json) (s : Lifetime) : Prop where
  durable : s.Durable json
  unflushed : s.Unflushed

section Steps

variable {json : Json} {s t : Lifetime} {e : Store.Event}

theorem Shelved.submit (shelved : s.Shelved json) {name : String}
    (ended : ∀ task ∈ (s.store.site name).tasks, task.done = true)
    (occupied : (s.store.site name).table.immutable ≠ none)
    (unmarked : ∀ e ∈ (s.store.site name).immutable, s.opened ≤ e.txId → e.txId ∉ s.log.marked) :
    Shelved json { s with store := s.store.submit name } := by
  have sites {P : String → Site → Prop} (old : ∀ other, P other (s.store.site other))
      (new : P name (s.store.site name).submit) (other : String) :
      P other ((s.store.submit name).site other) := by
    rcases s.store.submit_site name other with same | ⟨rfl, same⟩
    · exact same ▸ old other
    · exact same ▸ new
  refine ⟨⟨?_, shelved.store.cache, shelved.store.pending, ?_⟩, ?_, ⟨?_, ?_⟩, ?_, ?_, ?_, ?_,
    shelved.named, ?_, shelved.recovered, ?_, ?_, ?_, shelved.readable, shelved.room⟩
  · exact sites shelved.store.sites (shelved.store.sites name).submit
  · intro other e member
    exact shelved.store.packed other e (s.store.submit_written name other ▸ member)
  · exact sites shelved.orderly ((shelved.orderly name).submit ended occupied)
  · intro other
    rw [Store.submit_written]
    exact shelved.ordered.advancing other
  · intro other e member
    exact shelved.ordered.below other e (s.store.submit_written name other ▸ member)
  · exact sites shelved.traced (shelved.traced name).submit
  · exact sites shelved.filed (shelved.filed name).submit
  · exact @sites (fun other site => ∀ record ∈ (openTable (s.files other)).contents,
      record ∈ site.table.handler.contents) shelved.holds (shelved.holds name)
  · exact sites shelved.marks ((shelved.marks name).submit ended unmarked)
  · intro other
    dsimp only
    rw [Store.submit_written]
    exact shelved.entered other
  · intro client other w waits
    dsimp only
    rw [Store.submit_written]
    exact shelved.waiting client other w waits
  · intro call member
    dsimp only
    rw [Store.submit_written]
    exact shelved.placed call member
  · intro txId member late
    obtain ⟨other, e, inside, id⟩ := shelved.marked txId member late
    exact ⟨other, e, (s.store.submit_written name other).symm ▸ inside, id⟩

theorem Durable.submit (durable : s.Durable json) {name : String}
    (ended : ∀ task ∈ (s.store.site name).tasks, task.done = true)
    (occupied : (s.store.site name).table.immutable ≠ none)
    (unmarked : ∀ e ∈ (s.store.site name).immutable, s.opened ≤ e.txId → e.txId ∉ s.log.marked) :
    Durable json { s with store := s.store.submit name } := by
  obtain ⟨journal, shelved, based, cached⟩ := durable
  refine ⟨⟨⟨journal.logging.wal, journal.logging.inOrder, journal.logging.whole⟩, journal.counter,
    journal.records, journal.written, journal.completed, journal.late, journal.genuine⟩,
    shelved.submit ended occupied unmarked, based, fun other key held known => ?_⟩
  have newest (table key : String) :
      (s.store.submit name).newest table key = s.store.newest table key := by
    rw [Store.newest, Store.submit_written, Store.newest]
  dsimp only
  rw [Store.value_congr newest]
  exact cached other key held known

/-- Only the flush that takes its records from a table marks them. -/
theorem Shelved.marks_own (shelved : s.Shelved json) (journal : s.Journal json) {name : String}
    {entry : Entry} (here : entry ∈ (s.store.site name).written) (late : s.opened ≤ entry.txId)
    (marked : entry.txId ∈ s.store.marked e) :
    ∃ i task, s.store.actOn json name e = .advance i task ∧ task.phase = .marking := by
  unfold Store.marked Store.marks at marked
  split at marked
  · rename_i other i
    split at marked
    · cases marked
    · rename_i task known
      split at marked
      · rename_i phase
        have sourced := ((shelved.store.sites other).tasks task
          (List.mem_of_getElem? known)).sourced (by rw [phase]; decide)
        obtain ⟨theirs, member, id⟩ := sourced.txIds entry.txId marked
        have there := (shelved.traced other).written (List.mem_of_getElem? known) member
        obtain ⟨rfl, _⟩ := shelved.apart journal here there late id
        exact ⟨i, task, by simp only [Store.actOn, known, ↓reduceIte], phase⟩
      · cases marked
  · cases marked

theorem Unflushed.work {store : Store} (unflushed : s.Unflushed) (shelved : s.Shelved json)
    (journal : s.Journal json) (early : s.store.RaisesEarly e)
    (step : Store.Step json s.store e store) :
    Unflushed { s with
      store := store
      log := s.store.follow json s.log e
      recent := (s.store.calls json e).reverse ++ s.recent } := by
  intro name ended entry member late
  have acts := shelved.store.acts step
  have valid := acts.valid name
  have inverse := Store.actsOn json s.store name e
  have orderly := shelved.orderly name
  obtain ⟨older, whole⟩ := (shelved.store.sites name).history
  dsimp only at ended member late ⊢
  rw [acts.site] at ended member
  rw [Store.follow_marked shelved.store step, Finset.mem_union, List.mem_toFinset, not_or]
  have quiet (here : entry ∈ (s.store.site name).immutable)
      (unmarking : ∀ i task, s.store.actOn json name e = .advance i task → task.phase ≠ .marking) :
      entry.txId ∉ s.store.marked e := by
    intro marked
    have inside : entry ∈ (s.store.site name).written := by
      rw [whole]
      exact List.mem_append_right _ (List.mem_append_left _ here)
    obtain ⟨i, task, acted, phase⟩ := shelved.marks_own journal inside late marked
    exact unmarking i task acted phase
  generalize acted : s.store.actOn json name e = act at *
  cases act with
  | stay =>
      exact ⟨unflushed name ended entry member late, quiet member fun _ _ same => by cases same⟩
  | enter entries txIds =>
      obtain ⟨tasks, immutable, _⟩ := (s.store.site name).enterAll_frame entries
      have ended' : ∀ task ∈ (s.store.site name).tasks, task.done = true := tasks ▸ ended
      have member' : entry ∈ (s.store.site name).immutable := immutable ▸ member
      exact ⟨unflushed name ended' entry member' late,
        quiet member' fun _ _ same => by cases same⟩
  | load h =>
      exact ⟨unflushed name ended entry member late, quiet member fun _ _ same => by cases same⟩
  | swap =>
      have queued := ended Task.queued (List.mem_append_right _ List.mem_cons_self)
      exact absurd queued (by decide)
  | advance i task =>
      by_cases done : task.done = true
      · rw [show (s.store.site name).act (.advance i task) = s.store.site name from
          Site.advance_done valid done] at ended member
        refine ⟨unflushed name ended entry member late, quiet member fun _ _ same phase => ?_⟩
        cases same
        rw [Site.not_done phase (by decide)] at done
        cases done
      · have running := Bool.eq_false_iff.mpr done
        by_cases clearing : task.phase = .clearing
        · simp only [Site.act, Site.advance, clearing] at member
          cases member
        · have same : ((s.store.site name).act (.advance i task)).immutable =
              (s.store.site name).immutable := Site.advance_immutable clearing
          rw [same] at member
          refine ⟨(shelved.marks name).unmarked valid running clearing entry member late,
            quiet member fun j other acted' phase => ?_⟩
          cases acted'
          -- the flush that marks has still to clear the slot
          have tasks : ((s.store.site name).act (.advance i task)).tasks =
              (s.store.site name).tasks.set i (task.move .clearing) := by
            simp only [Site.act, Site.advance, phase]
            rfl
          have inside := (List.getElem?_eq_some_iff.mp valid).1
          have moved := ended (task.move .clearing) (tasks ▸ List.mem_set inside _)
          rw [@Site.not_done _ .clearing rfl (by decide)] at moved
          cases moved
  | raise i task =>
      have working : task.phase ≠ .clearing := by
        cases inverse with
        | raise known =>
            unfold Store.RaisesEarly at early
            dsimp only at early
            rw [known] at early
            exact early
      exact ⟨(shelved.marks name).unmarked valid.1 valid.2 working entry member late,
        quiet member fun _ _ same => by cases same⟩

theorem Enduring.flushAgain (enduring : s.Enduring json) {name : String}
    (step : s.flushAgain name = some t) : t.Enduring json := by
  obtain ⟨durable, unflushed⟩ := enduring
  unfold Lifetime.flushAgain at step
  split at step
  · rename_i waited
    cases step
    rw [Bool.and_eq_true, List.all_eq_true, Option.isSome_iff_ne_none] at waited
    obtain ⟨ended, occupied⟩ := waited
    refine ⟨durable.submit ended occupied (unflushed name ended), fun other done => ?_⟩
    dsimp only at done ⊢
    rcases s.store.submit_site name other with same | ⟨rfl, same⟩
    · rw [same] at done ⊢
      exact unflushed other done
    · rw [same] at done
      exact absurd (done Task.queued (List.mem_append_right _ List.mem_cons_self)) (by decide)
  · cases step

theorem Enduring.preAllocated {fileId : Nat} (enduring : s.Enduring json)
    (step : s.preAllocate fileId = some t) : t.Enduring json := by
  obtain ⟨durable, unflushed⟩ := enduring
  have allocated := durable.journal.logging.preAllocated durable.shelved.store.cache step
  refine ⟨durable.preAllocated step, fun name => ?_⟩
  rw [allocated.alike.site, allocated.opened, allocated.marked]
  exact unflushed name

theorem Enduring.reopened {maxMemtableSize cacheCapacity : Nat} (enduring : s.Enduring json)
    (reflushed : s.Reflushed json) (reopened : Reopened json s t maxMemtableSize cacheCapacity) :
    t.Enduring json := by
  refine ⟨enduring.durable.reopened reflushed reopened, fun name _ e member => ?_⟩
  rw [(reopened.unflushed name).2.1] at member
  cases member

theorem Enduring.step {c : Call} (enduring : s.Enduring json) (step : Calls json s c t)
    (careful : s.Careful json c) (fits : t.log.Fits) : t.Enduring json := by
  cases c with
  | flushAgain name => exact enduring.flushAgain step
  | life e =>
      cases e with
      | work e =>
          obtain ⟨store, moved, rfl⟩ := Option.map_eq_some_iff.mp step
          obtain ⟨⟨free, inTurn, homed⟩, early⟩ := careful
          exact ⟨enduring.durable.work free inTurn homed moved fits,
            enduring.unflushed.work enduring.durable.shelved enduring.durable.journal early moved⟩
      | preAllocate fileId => exact enduring.preAllocated step
      | reopen limit capacity =>
          exact enduring.reopened careful (enduring.durable.journal.logging.reopened step)

theorem calls_swapped {c : Call} (step : Calls json s c t) : s.log.swapped <+: t.log.swapped := by
  cases c with
  | life e => exact perform_swapped step
  | flushAgain name =>
      unfold Calls call Lifetime.flushAgain at step
      dsimp only at step
      split at step
      · cases step
        exact List.prefix_rfl
      · cases step

theorem first_enduring (json : Json) {maxMemtableSize cacheCapacity : Nat}
    (room : 0 < cacheCapacity) : (first maxMemtableSize cacheCapacity).Enduring json :=
  ⟨first_durable json room, fun name _ e member => by cases member⟩

theorem run_enduring {maxMemtableSize cacheCapacity : Nat} (room : 0 < cacheCapacity)
    {calls : List Call} (run : Run (Guarded (Calls json) (Careful json))
      (first maxMemtableSize cacheCapacity) calls s) (fits : s.log.Fits) : s.Enduring json := by
  induction run with
  | nil => exact first_enduring json room
  | snoc _ last ih => exact (ih (fits.before (calls_swapped last.1))).step last.1 last.2 fits

theorem Durable.unharmed (durable : s.Durable json) : s.Unharmed json := by
  refine ⟨fun name key => ?_, fun _ _ => durable.journal.logging.opens json⟩
  obtain ⟨answer, own, current, read, _⟩ := durable.reads name key
  exact ⟨answer, own, current, read⟩

end Steps

/-- Wherever flushes raise, and however often the database is closed, killed and opened again. -/
theorem failed_flush_reverts_nothing (json : Json) {maxMemtableSize cacheCapacity : Nat}
    (room : 0 < cacheCapacity) {calls : List Call} {s : Lifetime}
    (run : Run (Guarded (Calls json) (Careful json)) (first maxMemtableSize cacheCapacity) calls s)
    (fits : s.log.Fits) : s.Unharmed json :=
  (run_enduring room run fits).durable.unharmed

/-- A step of one process that a decision says is careful, where nobody waits for a memtable. -/
def Spared (s : Lifetime) : Call → Prop
  | .life (.work e) => s.store.Unblocked e ∧ s.store.RaisesEarly e
  | _ => True

instance (s : Lifetime) (c : Call) : Decidable (s.Spared c) := by
  unfold Spared
  split <;> infer_instance

/-- What a single client does, no `set_many` among it, and the flushes in one process. -/
def Plainly (json : Json) : Call → Prop
  | .life (.work e) => e.direct = true ∧ Homed json e
  | .life _ => False
  | .flushAgain _ => True

section Instances

variable {json : Json} {s t : Lifetime}

theorem undelayed_call {c : Call} (plain : Plainly json c) (step : Calls json s c t)
    (before : ∀ client name w, ¬ s.store.Delayed client name w) :
    ∀ client name w, ¬ t.store.Delayed client name w := by
  cases c with
  | flushAgain name =>
      unfold Calls call Lifetime.flushAgain at step
      dsimp only at step
      split at step
      · cases step
        exact before
      · cases step
  | life e =>
      cases e with
      | work e =>
          obtain ⟨store, moved, rfl⟩ := Option.map_eq_some_iff.mp step
          exact Store.undelayed_step plain.1 moved before
      | preAllocate _ => exact plain.elim
      | reopen _ _ => exact plain.elim

theorem undelayed_run {calls : List Call} (plainly : ∀ c ∈ calls, Plainly json c)
    (before : ∀ client name w, ¬ s.store.Delayed client name w)
    (run : Run (Calls json) s calls t) : ∀ client name w, ¬ t.store.Delayed client name w := by
  induction run with
  | nil => exact before
  | snoc _ last ih =>
      exact undelayed_call (plainly _ (List.mem_append_right _ List.mem_cons_self)) last
        (ih fun c member => plainly c (List.mem_append_left _ member))

theorem careful_run {calls : List Call} (plainly : ∀ c ∈ calls, Plainly json c)
    (undelayed : ∀ client name w, ¬ s.store.Delayed client name w)
    (run : Run (Guarded (Calls json) Spared) s calls t) :
    Run (Guarded (Calls json) (Careful json)) s calls t := by
  induction run with
  | nil => exact Run.nil _
  | @snoc middle _ _ c front last ih =>
      have earlier := fun c member => plainly c (List.mem_append_left _ member)
      have there := undelayed_run earlier undelayed (front.mono fun _ _ _ taken => taken.1)
      have plain := plainly c (List.mem_append_right _ List.mem_cons_self)
      refine (ih earlier).snoc ⟨last.1, ?_⟩
      cases c with
      | flushAgain name => trivial
      | life e =>
          cases e with
          | work e =>
              have inTurn : middle.store.InTurn json e :=
                fun _ _ _ _ _ _ client w waits => absurd waits (there client _ w)
              exact ⟨⟨last.2.1, inTurn, plain.2⟩, last.2.2⟩
          | preAllocate _ => exact plain.elim
          | reopen _ _ => exact plain.elim

/-- A key of which all writes give the value reads as it, if one of them is in the log files. -/
theorem Unharmed.written {table key : String} {text : Bytes} (unharmed : s.Unharmed wordJson)
    (undelayed : ∀ client name w, ¬ s.store.Delayed client name w)
    (written : s.Written table key text) :
    ∃ value, (s.store.router.getLocked wordJson table (namespacedKey table key)).1 = .ok value ∧
      wordJson.dumps value = some text := by
  obtain ⟨answer, own, current, read⟩ := unharmed.reads table (namespacedKey table key)
  obtain ⟨values, call, member, same, at_key, logged⟩ := written
  refine ⟨_, read, ?_⟩
  cases answer with
  | none =>
      have lasting : s.Lasting table (namespacedKey table key) call :=
        ⟨same, at_key, Or.inr logged, fun client => undelayed client _ _⟩
      exact absurd lasting (current call member)
  | some e => exact values (table, e) current.mem (own e rfl)

end Instances

/-- The record is in a page when its flush raises. `shutdown` flushes it once more. -/
def raisedOnce : List Call :=
  [.life (.work (.set 0 "t" "t:a" (.str "x"))), .life (.work (.check 0)),
    .life (.work (.swap 0))] ++ List.replicate 6 (.life (.work (.flush "t" 0))) ++
  [.life (.work (.raise "t" 0)), .flushAgain "t"] ++
    List.replicate 12 (.life (.work (.flush "t" 1))) ++ [.life (.work (.writer fun _ => 0))]

theorem raisedOnce_plainly : ∀ c ∈ raisedOnce, Plainly wordJson c := by
  intro c member
  simp only [raisedOnce, List.mem_append, List.mem_cons, List.mem_replicate, List.not_mem_nil,
    or_false] at member
  rcases member with ((((rfl | rfl | rfl) | ⟨_, rfl⟩) | rfl | rfl) | ⟨_, rfl⟩) | rfl
  · exact ⟨rfl, by decide, _, rfl, by rfl⟩
  · exact ⟨rfl, trivial⟩
  · exact ⟨rfl, trivial⟩
  · exact ⟨rfl, trivial⟩
  · exact ⟨rfl, trivial⟩
  · trivial
  · exact ⟨rfl, trivial⟩
  · exact ⟨rfl, trivial⟩

theorem first_undelayed (maxMemtableSize cacheCapacity : Nat) (client : Nat) (name : String)
    (w : Entry) : ¬ (first maxMemtableSize cacheCapacity).store.Delayed client name w := by
  rintro ⟨_, _, _, at_log, _⟩
  cases at_log

/-- A flush raises behind its first insert, the next one succeeds, and another process reads the
record from the file. -/
theorem failed_flush_reverts_nothing_once : ∃ s,
    Run (Guarded (Calls wordJson) (Careful wordJson)) (first 1 1)
      (raisedOnce ++ [.life (.reopen 1 1)]) s ∧ s.Unharmed wordJson ∧ ∃ value,
      (s.store.router.getLocked wordJson "t" "t:a").1 = .ok value ∧
      wordJson.dumps value = some textX := by
  have outcome : (playIn (call wordJson) Spared (first 1 1) raisedOnce).bind (fun a =>
      (a.perform wordJson (.reopen 1 1)).map fun s =>
        decide (a.replayed = [] ∧ s.log.swapped = oneRecord ∧ s.Written "t" "a" textX)) =
      some true := by decide +kernel
  obtain ⟨a, plays, outcome⟩ := Option.bind_eq_some_iff.mp outcome
  obtain ⟨s, reopens, outcome⟩ := Option.map_eq_some_iff.mp outcome
  obtain ⟨replayed, swapped, written⟩ := of_decide_eq_true outcome
  have before := careful_run raisedOnce_plainly (first_undelayed 1 1) (playIn_run plays)
  have died := reflushed_of_unreplayed wordJson replayed
  have fits := oneRecord_fits swapped
  have run := before.snoc (e := Call.life (.reopen 1 1)) ⟨reopens, died⟩
  have unharmed := failed_flush_reverts_nothing wordJson (by decide) run fits
  have logging := (run_enduring (by decide) before
    (fits.before (perform_swapped reopens))).durable.journal.logging
  have undelayed (client : Nat) (name : String) (w : Entry) :
      ¬ s.store.Delayed client name w := by
    rintro ⟨_, _, _, at_log, _⟩
    rw [(logging.reopened reopens).idle] at at_log
    cases at_log
  exact ⟨s, run, unharmed, unharmed.written undelayed written⟩

/-- A flush raises at once. -/
def raisedFirst : List Call :=
  [.life (.work (.set 0 "t" "t:a" (.str "x"))), .life (.work (.check 0)), .life (.work (.swap 0)),
    .life (.work (.raise "t" 0))]

/-- The next write fills the memtable, which is swapped over the one that was not flushed. -/
def swappedOver : List Call :=
  [.life (.work (.set 0 "t" "t:b" (.str "y"))), .life (.work (.check 0)),
    .life (.work (.swap 0)), .life (.work (.writer fun _ => 0))]

theorem raisedFirst_plainly : ∀ c ∈ raisedFirst, Plainly wordJson c := by
  intro c member
  simp only [raisedFirst, List.mem_cons, List.not_mem_nil, or_false] at member
  rcases member with rfl | rfl | rfl | rfl
  · exact ⟨rfl, by decide, _, rfl, by rfl⟩
  · exact ⟨rfl, trivial⟩
  · exact ⟨rfl, trivial⟩
  · exact ⟨rfl, trivial⟩

theorem swappedOver_plainly : ∀ c ∈ swappedOver, Plainly wordJson c ∧ ∀ s, Taken wordJson s c := by
  intro c member
  simp only [swappedOver, List.mem_cons, List.not_mem_nil, or_false] at member
  rcases member with rfl | rfl | rfl | rfl
  · exact ⟨⟨rfl, by decide, _, rfl, by rfl⟩, fun s => ⟨⟨by decide, _, rfl, by rfl⟩, trivial⟩⟩
  · exact ⟨⟨rfl, trivial⟩, fun s => ⟨trivial, trivial⟩⟩
  · exact ⟨⟨rfl, trivial⟩, fun s => ⟨trivial, trivial⟩⟩
  · exact ⟨⟨rfl, trivial⟩, fun s => ⟨trivial, trivial⟩⟩

/-- A flush raises, and the next swap of the table drops its memtable. The key reads as `None`. -/
theorem failed_flush_lost : ∃ s, Run (Guarded (Calls wordJson) (Taken wordJson)) (first 1 1)
    (raisedFirst ++ swappedOver) s ∧ s.log.Fits ∧ ¬ s.Unharmed wordJson := by
  have outcome : (playIn (call wordJson) Spared (first 1 1) raisedFirst).bind (fun a =>
      (play (call wordJson) a swappedOver).map fun s =>
        decide ((s.store.router.getLocked wordJson "t" "t:a").1.toOption.bind wordJson.dumps =
            some nullBytes ∧ Wal.payloadBytes s.log.swapped ≤ Wal.payloadAreaSize ∧
          (∀ r ∈ s.log.swapped, Wal.validateTxId (r.1 + Wal.walCapacity) = .ok ()) ∧
          s.Written "t" "a" textX)) = some true := by decide +kernel
  obtain ⟨a, raises, outcome⟩ := Option.bind_eq_some_iff.mp outcome
  obtain ⟨s, swaps, outcome⟩ := Option.map_eq_some_iff.mp outcome
  obtain ⟨read, small, ids, written⟩ := of_decide_eq_true outcome
  have careful := careful_run raisedFirst_plainly (first_undelayed 1 1) (playIn_run raises)
  have before : Run (Guarded (Calls wordJson) (Taken wordJson)) (first 1 1) raisedFirst a :=
    careful.mono fun _ _ _ taken => ⟨taken.1, taken.2.taken⟩
  have after : Run (Guarded (Calls wordJson) (Taken wordJson)) a swappedOver s :=
    play_guarded swaps fun c member => (swappedOver_plainly c member).2
  have run := before.append after
  refine ⟨s, run, fits_of_small small ids, fun unharmed => ?_⟩
  have undelayed := undelayed_run (fun c member => (List.mem_append.mp member).elim
    (raisedFirst_plainly c) fun later => (swappedOver_plainly c later).1) (first_undelayed 1 1)
    (run.mono fun _ _ _ taken => taken.1)
  obtain ⟨value, found, text⟩ := unharmed.written undelayed written
  rw [show namespacedKey "t" "a" = "t:a" from rfl] at found
  rw [found] at read
  rw [show (Except.ok value : Except RouterError Value).toOption = some value from rfl,
    Option.bind_some, text] at read
  exact absurd read (by decide)

end CachyDb.Database.Lifetime
