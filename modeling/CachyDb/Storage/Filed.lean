import CachyDb.Storage.OnFile

set_option autoImplicit false

/-! The table file against the history of the memtables, at every step: what a restart
would find in it for a key. -/

namespace CachyDb

open ByteString TableHandler

namespace Table

/-- The newest payload of a key among these records. -/
def newestPayload (records : List ((Nat × Nat) × Bytes)) (key : String) : Option Bytes :=
  (newestIn records key).map Prod.snd

theorem newestPayload_append (front back : List ((Nat × Nat) × Bytes)) (key : String) :
    newestPayload (front ++ back) key = (newestPayload back key).or (newestPayload front key) := by
  rw [newestPayload, newestIn_append]
  cases found : newestIn back key with
  | none =>
      rw [newestPayload, found]
      rfl
  | some record =>
      rw [newestPayload, found]
      rfl

/-- The newest payload of each key is that of its newest entry, or what there was at first. -/
def Covers (base records : List ((Nat × Nat) × Bytes)) (history : List Entry) : Prop :=
  ∀ key, newestPayload records key =
    ((latest history key).map Entry.packed).or (newestPayload base key)

end Table

namespace Site

open Table

/-- The payload is the one that the immutable memtable has for its key. -/
def Swapped (s : Site) (payload : Bytes) : Prop :=
  ∃ key e, latest s.immutable key = some e ∧ e.packed = payload

/-- Each entry has been packed under its own key. -/
def Keyed (s : Site) : Prop := ∀ e ∈ s.written, payloadKey e.packed = some e.key

/-- The file has what it had at first, the memtables that were flushed before, and as much
of the immutable one as its flushes have written. -/
structure Filed (base : List ((Nat × Nat) × Bytes)) (s : Site) : Prop where
  ahead : s.table.handler.Ahead s.Swapped
  history : ∃ older settled fresh, s.written = s.active ++ (s.immutable ++ older) ∧
    s.table.handler.saved = settled ++ fresh ∧ (∀ record ∈ fresh, s.Swapped record.2) ∧
    Covers base settled older ∧
    ∀ task ∈ s.tasks, task.Filing (settled.map Prod.fst) s.table.handler

section Acts

variable {base : List ((Nat × Nat) × Bytes)} {first : AList (fun _ : String => Nat × Nat)}
  {s s' : Site}

theorem keyed_immutable {older : List Entry} (keyed : s.Keyed)
    (whole : s.written = s.active ++ (s.immutable ++ older)) {key : String} {e : Entry}
    (found : latest s.immutable key = some e) : payloadKey e.packed = some key := by
  obtain ⟨inside, same⟩ := latest_mem found
  rw [← same]
  apply keyed
  rw [whole]
  exact List.mem_append_right _ (List.mem_append_left _ inside)

/-- What the flushes of the immutable memtable have added to the file. -/
theorem newest_fresh {older : List Entry} {fresh : List ((Nat × Nat) × Bytes)} (keyed : s.Keyed)
    (whole : s.written = s.active ++ (s.immutable ++ older))
    (swapped : ∀ record ∈ fresh, s.Swapped record.2) (key : String) :
    newestPayload fresh key = none ∨
      ∃ e, latest s.immutable key = some e ∧ newestPayload fresh key = some e.packed := by
  cases found : newestIn fresh key with
  | none =>
      left
      rw [newestPayload, found]
      rfl
  | some record =>
      right
      obtain ⟨member, named⟩ := newestIn_mem found
      obtain ⟨other, e, newest, packed⟩ := swapped record member
      have own := keyed_immutable keyed whole newest
      rw [packed, named, Option.some.injEq] at own
      subst own
      refine ⟨e, newest, ?_⟩
      rw [newestPayload, found, packed]
      rfl

/-- A key in the file has its newest flushed payload, or the one of the immutable memtable. -/
theorem Filed.newest (filed : s.Filed base) (keyed : s.Keyed) :
    ∃ older, s.written = s.active ++ (s.immutable ++ older) ∧ ∀ key,
      (∃ e, latest s.immutable key = some e ∧
        newestPayload s.table.handler.saved key = some e.packed) ∨
      newestPayload s.table.handler.saved key =
        ((latest older key).map Entry.packed).or (newestPayload base key) := by
  obtain ⟨older, settled, fresh, whole, saved, swapped, covers, _⟩ := filed.history
  refine ⟨older, whole, fun key => ?_⟩
  rw [saved, newestPayload_append]
  rcases newest_fresh keyed whole swapped key with none_there | ⟨e, newest, found⟩
  · right
    rw [none_there, Option.none_or, covers key]
  · left
    exact ⟨e, newest, by rw [found, Option.some_or]⟩

/-- The places of the records that were settled are taken. -/
theorem taken_inside {h : TableHandler} {kind : Bytes → Prop} (ahead : h.Ahead kind)
    {settled fresh : List ((Nat × Nat) × Bytes)} (saved : h.saved = settled ++ fresh) :
    ∀ place ∈ settled.map Prod.fst, ∃ payload, (place, payload) ∈ h.contents := by
  intro place member
  obtain ⟨⟨_, payload⟩, inside, rfl⟩ := List.mem_map.mp member
  refine ⟨payload, ahead.coherent.behind _ _ ((mem_saved ahead.onFile).mp ?_)⟩
  rw [saved]
  exact List.mem_append_left _ inside

theorem Filing.loads {taken : List (Nat × Nat)} {h h' : TableHandler} {task : Task}
    (filing : task.Filing taken h) (loads : Loads h h') : task.Filing taken h' := by
  refine ⟨fun on => loads.totalPages.trans (filing.last on), fun running record member => ?_,
    filing.pending, filing.dirty, fun closed => loads.unsaved _ (filing.clean closed)⟩
  rcases filing.apart running record member with pending | ⟨place, apart, held, there⟩
  · exact Or.inl pending
  · refine Or.inr ⟨place, apart, loads.grows.holds _ held, there.imp ?_ id⟩
    exact loads.grows.onFile place record.2

/-- A reader loads pages, a write goes to the active memtable. -/
theorem Filed.keep (filed : s.Filed base) (added : List Entry) (tasks : s'.tasks = s.tasks)
    (active : s'.active = added ++ s.active) (immutable : s'.immutable = s.immutable)
    (written : s'.written = added ++ s.written)
    (loads : Loads s.table.handler s'.table.handler) : s'.Filed base := by
  obtain ⟨older, settled, fresh, whole, saved, swapped, covers, filing⟩ := filed.history
  have same : s'.Swapped = s.Swapped := by
    funext payload
    rw [Swapped, Swapped, immutable]
  refine ⟨same ▸ filed.ahead.loads loads, older, settled, fresh, ?_, ?_, same ▸ swapped, covers, ?_⟩
  · rw [written, active, immutable, whole, List.append_assoc]
  · rw [saved_congr loads.file, saved]
  · rw [tasks]
    exact fun task member => Filing.loads (filing task member) loads

/-- The slot is empty, so all that the file has is settled. -/
theorem Filed.swap (filed : s.Filed base) (sound : s.Sound) (orderly : s.Orderly first)
    (free : s.table.immutable = none) : s.swap.Filed base := by
  obtain ⟨older, settled, fresh, whole, saved, swapped, covers, _⟩ := filed.history
  have none_there := sound.empty free
  have nothing (payload : Bytes) : ¬ s.Swapped payload := by
    rintro ⟨key, e, found, _⟩
    rw [none_there] at found
    cases found
  have empty : fresh = [] := by
    rw [List.eq_nil_iff_forall_not_mem]
    exact fun record member => nothing _ (swapped record member)
  have all : s.table.handler.saved = settled := by
    rw [saved, empty, List.append_nil]
  refine ⟨filed.ahead.weaken fun payload held => absurd held (nothing payload), older, settled, [],
    ?_, ?_, fun _ member => (by cases member), covers, ?_⟩
  · show s.written = [] ++ (s.active ++ older)
    rw [whole, none_there]
    rfl
  · rw [List.append_nil]
    exact all
  · intro task member
    rcases List.mem_append.mp member with old | new
    · exact Task.filing_of_done (Or.inl (orderly.done free task old)) _ _
    · rw [List.mem_singleton.mp new]
      exact Task.filing_of_done (Or.inr rfl) _ _

/-- The running flush takes a step on the pages, or none. -/
theorem Filed.replace (s' : Site) (filed : s.Filed base) (orderly : s.Orderly first) {i : Nat}
    {task task' : Task} (known : s.tasks[i]? = some task) (running : task.done = false)
    (tasks : s'.tasks = s.tasks.set i task') (active : s'.active = s.active)
    (immutable : s'.immutable = s.immutable) (written : s'.written = s.written)
    (files : ∀ settled fresh, s.table.handler.saved = settled ++ fresh →
      task.Filing (settled.map Prod.fst) s.table.handler →
        Task.Files s.Swapped (settled.map Prod.fst) s.table.handler s'.table.handler task') :
    s'.Filed base := by
  obtain ⟨older, settled, fresh, whole, saved, swapped, covers, filing⟩ := filed.history
  obtain ⟨m, before, _, split, rfl, ended, _⟩ := orderly.current known running
  have moved := files settled fresh saved (filing task (List.mem_of_getElem? known))
  obtain ⟨more, grown, kinds⟩ := moved.saved
  have same : s'.Swapped = s.Swapped := by
    funext payload
    rw [Swapped, Swapped, immutable]
  refine ⟨same ▸ moved.ahead, older, settled, fresh ++ more, ?_, ?_, ?_, covers, ?_⟩
  · rw [written, active, immutable, whole]
  · rw [grown, saved, List.append_assoc]
  · intro record member
    rw [same]
    rcases List.mem_append.mp member with old | new
    · exact swapped record old
    · exact kinds record new
  · rw [tasks, split, set_last]
    intro other member
    rcases List.mem_append.mp member with old | new
    · exact Task.filing_of_done (Or.inl (ended other old)) _ _
    · rw [List.mem_singleton.mp new]
      exact moved.filing

/-- A flush that has written its last page has all its records in the file, and there they
are the newest of their keys. -/
theorem Filed.closed (filed : s.Filed base) (keyed : s.Keyed) (sound : s.Sound)
    (orderly : s.Orderly first) {i : Nat} {task : Task} (known : s.tasks[i]? = some task)
    (closed : task.phase.closed) {key : String} {e : Entry}
    (newest : latest s.immutable key = some e) :
    newestPayload s.table.handler.saved key = some e.packed := by
  obtain ⟨older, settled, fresh, whole, saved, swapped, covers, filing⟩ := filed.history
  have member := List.mem_of_getElem? known
  have task_sound := sound.tasks task member
  have place : task.phase.running ∧ ¬ task.phase.filling ∧ task.phase.filled ∧
      task.done = false := by
    unfold Task.done
    rcases closed with here | here | here | here | here
    all_goals
      rw [here]
      decide
  obtain ⟨running, still, filled, going⟩ := place
  obtain ⟨_, _, _, _, _, _, serves⟩ := orderly.current known going
  have record : (key, e.packed) ∈ task.records := by
    rw [serves.records task_sound running, newest]
    rfl
  have rest := task_sound.rest filled
  rcases (filing task member).apart running _ record with pending | ⟨spot, apart, held, there⟩
  · rw [rest] at pending
    cases pending
  · have on := there.resolve_right fun filling => still filling.1
    have inside := (mem_saved filed.ahead.onFile).mpr on
    rw [saved] at inside
    have late : (spot, e.packed) ∈ fresh := by
      refine (List.mem_append.mp inside).resolve_left fun early => ?_
      exact apart (List.mem_map_of_mem early (f := Prod.fst))
    obtain ⟨found, known_there⟩ := newestIn_isSome late (keyed_immutable keyed whole newest)
    rw [saved, newestPayload_append]
    rcases newest_fresh keyed whole swapped key with none_there | ⟨e', newest', there'⟩
    · rw [newestPayload, known_there] at none_there
      cases none_there
    · rw [newest, Option.some.injEq] at newest'
      rw [there', newest', Option.some_or]

/-- The memtable goes, all that it held is settled. -/
theorem Filed.clear (filed : s.Filed base) (keyed : s.Keyed) (sound : s.Sound)
    (orderly : s.Orderly first) {i : Nat} {task : Task} (known : s.tasks[i]? = some task)
    (clearing : task.phase = .clearing) : (s.advance i task).Filed base := by
  have closed : task.phase.closed := by
    rw [clearing]
    decide
  have complete {key : String} {e : Entry} (newest : latest s.immutable key = some e) :
      newestPayload s.table.handler.saved key = some e.packed :=
    filed.closed keyed sound orderly known closed newest
  obtain ⟨older, settled, fresh, whole, saved, swapped, covers, filing⟩ := filed.history
  obtain ⟨m, before, _, split, rfl, ended, _⟩ :=
    orderly.current known (not_done clearing (by decide))
  have clean := (filing task (List.mem_of_getElem? known)).clean closed
  simp only [Site.advance, clearing]
  refine ⟨⟨filed.ahead.coherent, filed.ahead.onFile, filed.ahead.drafts, ?_⟩,
    s.immutable ++ older, s.table.handler.saved, [], whole, (List.append_nil _).symm,
    fun _ member => (by cases member), fun key => ?_, ?_⟩
  · intro pageId page last loaded slot payload record
    exact (clean pageId page last loaded slot payload record).imp id False.elim
  · rw [latest_append]
    cases newest : latest s.immutable key with
    | some e => rw [complete newest, Option.some_or, Option.map_some, Option.some_or]
    | none =>
        rw [saved, newestPayload_append, Option.none_or, ← covers key]
        rcases newest_fresh keyed whole swapped key with none_there | ⟨e, there, _⟩
        · rw [none_there, Option.none_or]
        · rw [newest] at there
          cases there
  · intro other member
    have inside : other ∈ before ++ [task.move .finished] := by
      rw [← set_last task, ← split]
      exact member
    rcases List.mem_append.mp inside with old | new
    · exact Task.filing_of_done (Or.inl (ended other old)) _ _
    · rw [List.mem_singleton.mp new]
      exact Task.filing_of_done (Or.inl rfl) _ _

/-- A flush starts with its records still to be written. -/
theorem begin_filing {taken : List (Nat × Nat)} {h : TableHandler} (s : Site) (task : Task) :
    (s.begin task).Filing taken h := by
  unfold Site.begin Table.beginFlush
  split
  · exact Task.filing_of_done (Or.inl rfl) _ _
  · rename_i records txIds started
    have nonempty : records ≠ [] := by
      rintro rfl
      split at started
      · cases started
      · rename_i m _
        split at started
        · cases started
        · rename_i filled
          obtain ⟨empty, _⟩ := Prod.mk.inj (Option.some.inj started)
          exact filled (by rw [MemTable.size_eq, empty]; rfl)
    refine ⟨fun on => absurd (show Phase.onPage .sizing from on) (by decide),
      fun _ record member => Or.inl member, fun _ => nonempty, fun here => ?_,
      fun closed => absurd (show Phase.closed .sizing from closed) (by decide)⟩
    exact absurd (show Phase.sizing = .checking ∨ Phase.sizing = .closing from here) (by decide)

theorem Filed.advance (filed : s.Filed base) (keyed : s.Keyed) (sound : s.Sound)
    (orderly : s.Orderly first) {i : Nat} {task : Task} (known : s.tasks[i]? = some task) :
    (s.advance i task).Filed base := by
  have task_sound := sound.tasks task (List.mem_of_getElem? known)
  -- the steps on the pages
  have filled (running : task.phase.running) : ((s.putHandler (task.fill s.table.handler).1).putTask
      i (task.fill s.table.handler).2).Filed base := by
    have going := not_done rfl running.2
    obtain ⟨_, _, _, _, _, _, serves⟩ := orderly.current known going
    have fresh : ∀ record ∈ task.records, s.Swapped record.2 := by
      intro record member
      obtain ⟨e, newest, packed⟩ :=
        Option.map_eq_some_iff.mp ((serves.records task_sound running).mp member)
      exact ⟨record.1, e, newest, packed⟩
    apply Filed.replace ((s.putHandler (task.fill s.table.handler).1).putTask i _) filed orderly
      known going rfl rfl rfl rfl
    exact fun settled _ saved filing =>
      filing.fill filed.ahead task_sound (taken_inside filed.ahead saved) fresh
  -- the steps that only move the flush on
  have moved {s' : Site} (next : Phase) (here : task.phase.running ∧ ¬ task.phase.filling)
      (after : ¬ next.onPage ∧ ¬ next.ahead ∧ next ≠ .checking ∧ next ≠ .closing)
      (closed : next.closed → task.phase.closed) (tasks : s'.tasks = s.tasks.set i (task.move next))
      (active : s'.active = s.active) (immutable : s'.immutable = s.immutable)
      (written : s'.written = s.written) (handler : s'.table.handler = s.table.handler) :
      s'.Filed base := by
    apply Filed.replace s' filed orderly known (not_done rfl here.1.2) tasks active immutable written
    intro settled _ _ filing
    rw [handler]
    apply Task.Files.same filed.ahead
    apply filing.move here.1 (fun filling => absurd filling here.2)
      (fun on => absurd on after.1) (fun ahead => absurd ahead after.2.1) _ closed
    rintro (checking | closing)
    · exact absurd checking after.2.2.1
    · exact absurd closing after.2.2.2
  cases phase : task.phase with
  | queued =>
      simp only [Site.advance, phase]
      apply Filed.replace (s.putTask i _) filed orderly known (not_done phase (by decide)) rfl rfl
        rfl rfl
      exact fun _ _ _ _ => Task.Files.same filed.ahead (begin_filing s task)
  | dropping =>
      simp only [Site.advance, phase]
      rw [phase] at moved
      exact moved .indexing (by decide) (by decide) (by decide) rfl rfl rfl rfl rfl
  | indexing =>
      simp only [Site.advance, phase]
      rw [phase] at moved
      exact moved .syncing (by decide) (by decide) (by decide) rfl rfl rfl rfl rfl
  | syncing =>
      simp only [Site.advance, phase]
      rw [phase] at moved
      exact moved .marking (by decide) (by decide) (by decide) rfl rfl rfl rfl rfl
  | marking =>
      simp only [Site.advance, phase]
      rw [phase] at moved
      exact moved .clearing (by decide) (by decide) (by decide) rfl rfl rfl rfl rfl
  | clearing => exact filed.clear keyed sound orderly known phase
  | finished =>
      rw [advance_done known (by unfold Task.done; rw [phase]; rfl)]
      exact filed
  | failed =>
      rw [advance_done known (by unfold Task.done; rw [phase]; rfl)]
      exact filed
  | _ =>
      rw [phase] at filled
      simpa only [Site.advance, phase] using filled (by decide)

theorem Filed.raise (filed : s.Filed base) (orderly : s.Orderly first) {i : Nat} {task : Task}
    (known : s.tasks[i]? = some task) (running : task.done = false) :
    (s.putTask i (task.move .failed)).Filed base := by
  apply Filed.replace (s.putTask i _) filed orderly known running rfl rfl rfl rfl
  exact fun _ _ _ _ => Task.Files.failed filed.ahead

/-- Whatever the router does to the table, and wherever its flushes fail. -/
theorem Filed.act (filed : s.Filed base) (keyed : s.Keyed) (sound : s.Sound)
    (orderly : s.Orderly first) {act : Act} (valid : act.Valid s) (free : act.Unblocked s)
    (reads : ∀ h, act = .load h → Loads s.table.handler h) : (s.act act).Filed base := by
  cases act with
  | stay => exact filed
  | enter entries txIds =>
      obtain ⟨tasks, immutable, written, _, _, handler⟩ := s.enterAll_frame entries
      refine filed.keep entries.reverse tasks (s.enterAll_active entries) immutable written ?_
      show Loads s.table.handler (entries.foldl Site.enter s).table.handler
      rw [handler]
      exact Loads.refl sound.coherent
  | load h => exact filed.keep [] rfl rfl rfl rfl (reads h rfl)
  | swap => exact filed.swap sound orderly (free rfl)
  | advance i task => exact filed.advance keyed sound orderly valid
  | raise i task => exact filed.raise orderly valid.1 valid.2

end Acts

end Site

end CachyDb
