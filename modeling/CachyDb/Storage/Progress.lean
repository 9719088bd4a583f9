import CachyDb.Storage.Site

set_option autoImplicit false

/-! What a flush has done at each of its steps, whatever other flushes do to the same
pages in between. -/

namespace CachyDb

open ByteString TableHandler

namespace Phase

/-- The flush has read its records and has neither ended nor failed. -/
def running (phase : Phase) : Prop := phase ≠ .queued ∧ phase ≠ .finished ∧ phase ≠ .failed

/-- The flush holds a page that may not be written yet. -/
def filling (phase : Phase) : Prop :=
  phase = .checking ∨ phase = .saving ∨ phase = .inserting ∨ phase = .closing

/-- All records have been put into pages. -/
def filled (phase : Phase) : Prop :=
  phase = .closing ∨ phase = .dropping ∨ phase = .indexing ∨ phase = .syncing ∨
    phase = .marking ∨ phase = .clearing

/-- The table file has been synced. -/
def onDisk (phase : Phase) : Prop := phase = .marking ∨ phase = .clearing

instance (phase : Phase) : Decidable phase.running := by unfold running; infer_instance
instance (phase : Phase) : Decidable phase.filling := by unfold filling; infer_instance
instance (phase : Phase) : Decidable phase.filled := by unfold filled; infer_instance
instance (phase : Phase) : Decidable phase.onDisk := by unfold onDisk; infer_instance

end Phase

namespace Task

/-- A record is still to come, or it is in a page, and in the file as well unless the
page is the one that the flush is filling. -/
def Placed (h : TableHandler) (task : Task) (record : String × Bytes) : Prop :=
  record ∈ task.job.records ∨ ∃ place, (place, record.2) ∈ h.contents ∧
    (OnFile h.file place record.2 ∨
      task.phase.filling ∧ task.job.dirty = true ∧ place.1 = task.job.pageId)

/-- A record is still to come, or the flush has noted what to do in the index for it. -/
def Noted (task : Task) (record : String × Bytes) : Prop :=
  record ∈ task.job.records ∨
    if isDeletion record.1 record.2 then record.1 ∈ task.job.deletions
    else ∃ place, (record.1, place) ∈ task.job.updates

/-- The records and ids come from one memtable. -/
structure Sourced (task : Task) : Prop where
  records : ∀ key packed, (key, packed) ∈ task.records ↔
    (latest task.entries key).map Entry.packed = some packed
  txIds : ∀ txId ∈ task.txIds, ∃ e ∈ task.entries, e.txId = txId

structure Sound (h : TableHandler) (synced : File) (task : Task) : Prop where
  loaded : task.phase.filling → ∃ page, h.pageCache task.job.pageId = some page
  placed : task.phase.running → ∀ record ∈ task.records, task.Placed h record
  noted : task.phase.running → ∀ record ∈ task.records, task.Noted record
  updates : ∀ update ∈ task.job.updates, ∃ packed, (update.1, packed) ∈ task.records ∧
    isDeletion update.1 packed = false ∧ (update.2, packed) ∈ h.contents
  deletions : ∀ key ∈ task.job.deletions, ∃ packed, (key, packed) ∈ task.records ∧
    isDeletion key packed = true
  rest : task.phase.filled → task.job.records = []
  pending : ∀ record ∈ task.job.records, record ∈ task.records ∧ record.2 ≠ []
  onDisk : task.phase.onDisk → ∀ record ∈ task.records, ∃ place, OnFile synced place record.2
  sourced : task.phase.running → task.Sourced

theorem queued_sound (h : TableHandler) (synced : File) : queued.Sound h synced := by
  constructor
  · intro filling
    exact absurd filling (by decide)
  · intro running
    exact absurd running (by decide)
  · intro running
    exact absurd running (by decide)
  · intro update member
    cases member
  · intro key member
    cases member
  · intro _
    rfl
  · intro record member
    cases member
  · intro onDisk
    exact absurd onDisk (by decide)
  · intro running
    exact absurd running (by decide)

theorem Placed.grow {h h' : TableHandler} {task : Task} {record : String × Bytes}
    (placed : task.Placed h record) (grows : Grows h h') : task.Placed h' record := by
  rcases placed with pending | ⟨place, held, there⟩
  · exact Or.inl pending
  · refine Or.inr ⟨place, grows.holds _ held, ?_⟩
    exact there.imp (grows.onFile place record.2) id

/-- What others do to the pages leaves the work of a flush in place. -/
theorem Sound.grow {h h' : TableHandler} {synced : File} {task : Task}
    (sound : task.Sound h synced) (grows : Grows h h') : task.Sound h' synced := by
  refine ⟨fun filling => grows.loaded _ (sound.loaded filling),
    fun running record member => (sound.placed running record member).grow grows, sound.noted,
    ?_, sound.deletions, sound.rest, sound.pending, sound.onDisk, sound.sourced⟩
  intro update member
  obtain ⟨packed, inside, kept, held⟩ := sound.updates update member
  exact ⟨packed, inside, kept, grows.holds _ held⟩

/-- Outside the pages being filled, what is in a page is in the file. -/
theorem Sound.onFile {h : TableHandler} {synced : File} {task : Task} (sound : task.Sound h synced)
    (running : task.phase.running) (clean : ¬ task.phase.filling) (rest : task.job.records = [])
    {record : String × Bytes} (member : record ∈ task.records) :
    ∃ place, OnFile h.file place record.2 := by
  rcases sound.placed running record member with pending | ⟨place, _, there | ⟨filling, _⟩⟩
  · rw [rest] at pending
    cases pending
  · exact ⟨place, there⟩
  · exact absurd filling clean

/-- A sync only adds to what is on disk. -/
theorem Sound.sync {h : TableHandler} {synced : File} {task : Task}
    (sound : task.Sound h synced) : task.Sound h h.file := by
  refine ⟨sound.loaded, sound.placed, sound.noted, sound.updates, sound.deletions, sound.rest,
    sound.pending, ?_, sound.sourced⟩
  intro onDisk record member
  rcases onDisk with marking | clearing
  · apply sound.onFile _ _ (sound.rest (by rw [marking]; decide)) member
    · rw [marking]
      decide
    · rw [marking]
      decide
  · apply sound.onFile _ _ (sound.rest (by rw [clearing]; decide)) member
    · rw [clearing]
      decide
    · rw [clearing]
      decide

/-- A flush that moves on without touching a page. -/
theorem Sound.move {h : TableHandler} {synced : File} {task : Task} (sound : task.Sound h synced)
    {phase : Phase} (running : phase.running → task.phase.running)
    (filling : phase.filling → task.phase.filling)
    (clean : ¬ phase.filling → phase.running → ∀ record ∈ task.records,
      record ∈ task.job.records ∨ ∃ place, (place, record.2) ∈ h.contents ∧
        OnFile h.file place record.2)
    (rest : phase.filled → task.job.records = [])
    (onDisk : phase.onDisk → ∀ record ∈ task.records, ∃ place, OnFile synced place record.2) :
    (task.move phase).Sound h synced := by
  refine ⟨fun still => sound.loaded (filling still), ?_, fun still => sound.noted (running still),
    sound.updates, sound.deletions, rest, sound.pending, onDisk,
    fun still => ⟨(sound.sourced (running still)).records, (sound.sourced (running still)).txIds⟩⟩
  intro still record member
  by_cases fills : phase.filling
  · rcases sound.placed (running still) record member with pending | ⟨place, held, there⟩
    · exact Or.inl pending
    · refine Or.inr ⟨place, held, there.imp id ?_⟩
      exact fun dirty => ⟨fills, dirty.2⟩
  · rcases clean fills still record member with pending | ⟨place, held, there⟩
    · exact Or.inl pending
    · exact Or.inr ⟨place, held, Or.inl there⟩

/-- A flush may end anywhere. -/
theorem Sound.fail {h : TableHandler} {synced : File} {task : Task} (sound : task.Sound h synced) :
    (task.move .failed).Sound h synced := by
  apply sound.move
  · intro running
    exact absurd running (by decide)
  · intro filling
    exact absurd filling (by decide)
  · intro _ running
    exact absurd running (by decide)
  · intro filled
    exact absurd filled (by decide)
  · intro onDisk
    exact absurd onDisk (by decide)

/-- Between two pages the number of the next one may change. -/
theorem Sound.onPage {h : TableHandler} {synced : File} {task : Task} (sound : task.Sound h synced)
    (pageId : Nat) {phase : Phase} (running : task.phase.running) (clean : ¬ task.phase.filling)
    (between : ¬ phase.filling ∧ ¬ phase.filled) : (task.onPage pageId phase).Sound h synced := by
  refine ⟨fun filling => absurd filling between.1, ?_, fun _ => sound.noted running, sound.updates,
    sound.deletions, fun filled => absurd filled between.2, sound.pending, ?_,
    fun _ => ⟨(sound.sourced running).records, (sound.sourced running).txIds⟩⟩
  · intro _ record member
    rcases sound.placed running record member with pending | ⟨place, held, there | ⟨filling, _⟩⟩
    · exact Or.inl pending
    · exact Or.inr ⟨place, held, Or.inl there⟩
    · exact absurd filling clean
  · intro onDisk
    rcases onDisk with marking | clearing
    · exact absurd (by show phase.filled; rw [show phase = .marking from marking]; decide) between.2
    · exact absurd (by show phase.filled; rw [show phase = .clearing from clearing]; decide) between.2

/-- After its current page has been written everything a flush has placed is in the file. -/
theorem Sound.written {h h' : TableHandler} {synced : File} {task : Task}
    (coherent : h.Coherent) (sound : task.Sound h synced) (running : task.phase.running)
    (done : Table.writeDirty h task.job = .ok h') :
    Grows h h' ∧ ∀ record ∈ task.records, record ∈ task.job.records ∨
      ∃ place, (place, record.2) ∈ h'.contents ∧ OnFile h'.file place record.2 := by
  obtain ⟨grows, saved⟩ := coherent.writeDirty done
  refine ⟨grows, fun record member => ?_⟩
  rcases sound.placed running record member with pending | ⟨place, held, there | ⟨_, dirty, here⟩⟩
  · exact Or.inl pending
  · exact Or.inr ⟨place, grows.holds _ held, grows.onFile place record.2 there⟩
  · obtain ⟨pageId, slot⟩ := place
    obtain rfl : pageId = task.job.pageId := here
    exact Or.inr ⟨_, grows.holds _ held, saved dirty slot record.2 held⟩

/-- What a flush has read stays as it is. -/
structure Keeps (task task' : Task) : Prop where
  records : task'.records = task.records
  txIds : task'.txIds = task.txIds
  entries : task'.entries = task.entries

theorem Keeps.move (task : Task) (phase : Phase) : task.Keeps (task.move phase) := ⟨rfl, rfl, rfl⟩

theorem Keeps.onPage (task : Task) (pageId : Nat) (phase : Phase) :
    task.Keeps (task.onPage pageId phase) := ⟨rfl, rfl, rfl⟩

/-- The insertion step: the head of the remaining records goes into the current page. -/
theorem Sound.insert {h h' : TableHandler} {synced : File} {task : Task} {job : Table.FlushJob}
    (coherent : h.Coherent) (sound : task.Sound h synced) (inserting : task.phase = .inserting)
    {key : String} {packed : Bytes} {rest : List (String × Bytes)}
    (pending : task.job.records = (key, packed) :: rest)
    (done : Table.placeRecord h task.job key packed = .ok (h', job)) :
    Grows h h' ∧ Sound h' synced
      { task with phase := .checking, job := { job with records := rest } } := by
  have head := sound.pending (key, packed) (by rw [pending]; exact List.mem_cons_self)
  obtain ⟨grows, pageId, dirty, _, slot, held, index⟩ := coherent.placeRecord head.2 done
  have running : task.phase.running := by
    rw [inserting]
    decide
  have filling : task.phase.filling := by
    rw [inserting]
    decide
  have nowFilling : Phase.filling .checking := by decide
  refine ⟨grows, ?_, ?_, ?_, ?_, ?_, ?_, ?_, ?_, ?_⟩
  · intro _
    show ∃ page, h'.pageCache job.pageId = some page
    rw [pageId]
    exact grows.loaded _ (sound.loaded filling)
  · intro _ record member
    rcases sound.placed running record member with waiting | ⟨place, there, saved⟩
    · rw [pending] at waiting
      rcases List.mem_cons.mp waiting with rfl | later
      · exact Or.inr ⟨_, held, Or.inr ⟨nowFilling, dirty, pageId.symm⟩⟩
      · exact Or.inl later
    · refine Or.inr ⟨place, grows.holds _ there, saved.imp (grows.onFile place record.2) ?_⟩
      exact fun old => ⟨nowFilling, dirty, old.2.2.trans pageId.symm⟩
  · intro _ record member
    rcases sound.noted running record member with waiting | noted
    · rw [pending] at waiting
      rcases List.mem_cons.mp waiting with rfl | later
      · right
        show if isDeletion key packed then key ∈ job.deletions
          else ∃ place, (key, place) ∈ job.updates
        split at index
        · rename_i deleted
          rw [if_pos deleted, index.1]
          exact List.mem_append_right _ List.mem_cons_self
        · rename_i kept
          rw [if_neg kept, index.2]
          exact ⟨_, List.mem_append_right _ List.mem_cons_self⟩
      · exact Or.inl later
    · right
      show if isDeletion record.1 record.2 then record.1 ∈ job.deletions
        else ∃ place, (record.1, place) ∈ job.updates
      have more : (∀ key ∈ task.job.deletions, key ∈ job.deletions) ∧
          ∀ update ∈ task.job.updates, update ∈ job.updates := by
        split at index
        · rw [index.1, index.2]
          exact ⟨fun key member => List.mem_append_left _ member, fun _ => id⟩
        · rw [index.1, index.2]
          exact ⟨fun _ => id, fun update member => List.mem_append_left _ member⟩
      split at noted
      · rename_i deleted
        rw [if_pos deleted]
        exact more.1 _ noted
      · rename_i kept
        obtain ⟨place, there⟩ := noted
        rw [if_neg kept]
        exact ⟨place, more.2 _ there⟩
  · intro update member
    show ∃ packed, (update.1, packed) ∈ task.records ∧ isDeletion update.1 packed = false ∧
      (update.2, packed) ∈ h'.contents
    have old (inside : update ∈ task.job.updates) :
        ∃ packed, (update.1, packed) ∈ task.records ∧ isDeletion update.1 packed = false ∧
          (update.2, packed) ∈ h'.contents := by
      obtain ⟨packed, from_memtable, kept, there⟩ := sound.updates update inside
      exact ⟨packed, from_memtable, kept, grows.holds _ there⟩
    have member : update ∈ job.updates := member
    split at index
    · rw [index.2] at member
      exact old member
    · rename_i kept
      rw [index.2] at member
      rcases List.mem_append.mp member with before | new
      · exact old before
      · rw [List.mem_singleton.mp new]
        exact ⟨packed, head.1, by simpa using kept, held⟩
  · intro gone member
    show ∃ packed, (gone, packed) ∈ task.records ∧ isDeletion gone packed = true
    have member : gone ∈ job.deletions := member
    split at index
    · rename_i deleted
      rw [index.1] at member
      rcases List.mem_append.mp member with before | new
      · exact sound.deletions gone before
      · rw [List.mem_singleton.mp new]
        exact ⟨packed, head.1, deleted⟩
    · rw [index.1] at member
      exact sound.deletions gone member
  · intro filled
    exact absurd (show Phase.filled .checking from filled) (by decide)
  · intro record member
    exact sound.pending record (by rw [pending]; exact List.mem_cons_of_mem _ member)
  · intro onDisk
    exact absurd (show Phase.onDisk .checking from onDisk) (by decide)
  · intro _
    exact ⟨(sound.sourced running).records, (sound.sourced running).txIds⟩

/-- One step on the pages or on the file keeps what the flush has done so far, and takes
nothing from the others. -/
theorem Sound.fill {h : TableHandler} {synced : File} {task : Task} (coherent : h.Coherent)
    (sound : task.Sound h synced) :
    Grows h (task.fill h).1 ∧ (task.fill h).2.Sound (task.fill h).1 synced ∧
      task.Keeps (task.fill h).2 := by
  have same : Grows h h ∧ task.Sound h synced ∧ task.Keeps task :=
    ⟨Grows.refl coherent, sound, rfl, rfl, rfl⟩
  have failed : Grows h h ∧ (task.move .failed).Sound h synced ∧ task.Keeps (task.move .failed) :=
    ⟨Grows.refl coherent, sound.fail, Keeps.move task _⟩
  cases phase : task.phase with
  | queued => simpa only [Task.fill, phase] using same
  | sizing =>
      have running : task.phase.running := by rw [phase]; decide
      have clean : ¬ task.phase.filling := by rw [phase]; decide
      simp only [Task.fill, phase]
      split
      · refine ⟨Grows.refl coherent, sound.move (fun _ => running) ?_ ?_ ?_ ?_, Keeps.move task _⟩
        · exact fun filling => absurd filling (by decide)
        · intro _ _ record member
          rcases sound.placed running record member with pending | ⟨place, held, there | filling⟩
          · exact Or.inl pending
          · exact Or.inr ⟨place, held, there⟩
          · exact absurd filling.1 clean
        · exact fun filled => absurd filled (by decide)
        · exact fun onDisk => absurd onDisk (by decide)
      · exact ⟨Grows.refl coherent, sound.onPage _ running clean (by decide), Keeps.onPage task _ _⟩
  | allocating =>
      have running : task.phase.running := by rw [phase]; decide
      have clean : ¬ task.phase.filling := by rw [phase]; decide
      simp only [Task.fill, phase]
      cases allocated : h.allocatePage with
      | error e => exact failed
      | ok result =>
          obtain ⟨grows, _⟩ := coherent.allocatePage allocated
          exact ⟨grows, (sound.grow grows).onPage _ running clean (by decide), Keeps.onPage task _ _⟩
  | opening =>
      have running : task.phase.running := by rw [phase]; decide
      have clean : ¬ task.phase.filling := by rw [phase]; decide
      simp only [Task.fill, phase]
      cases read : h.readPage task.job.pageId with
      | error e => exact failed
      | ok result =>
          obtain ⟨grows, _, _, cached, _⟩ := coherent.readPage read
          have grown := sound.grow grows
          refine ⟨grows, ⟨fun _ => ⟨_, cached⟩, ?_, fun _ => grown.noted running, grown.updates,
            grown.deletions, fun filled => absurd (show Phase.filled .checking from filled) (by decide),
            grown.pending, fun onDisk => absurd (show Phase.onDisk .checking from onDisk) (by decide),
            fun _ => ⟨(sound.sourced running).records, (sound.sourced running).txIds⟩⟩,
            Keeps.move task _⟩
          intro _ record member
          rcases grown.placed running record member with pending | ⟨place, held, there | filling⟩
          · exact Or.inl pending
          · exact Or.inr ⟨place, held, Or.inl there⟩
          · exact absurd filling.1 clean
  | checking =>
      have running : task.phase.running := by rw [phase]; decide
      have filling : task.phase.filling := by rw [phase]; decide
      simp only [Task.fill, phase]
      cases pending : task.job.records with
      | nil =>
          refine ⟨Grows.refl coherent, sound.move (fun _ => running) (fun _ => filling) ?_
            (fun _ => pending) ?_, Keeps.move task _⟩
          · exact fun clean => absurd (by decide) clean
          · exact fun onDisk => absurd onDisk (by decide)
      | cons record rest =>
          obtain ⟨page, loaded⟩ := sound.loaded filling
          rw [loaded]
          dsimp only
          split
          · refine ⟨Grows.refl coherent, sound.move (fun _ => running) (fun _ => filling) ?_ ?_ ?_,
              Keeps.move task _⟩
            · exact fun clean => absurd (by decide) clean
            · exact fun filled => absurd filled (by decide)
            · exact fun onDisk => absurd onDisk (by decide)
          · refine ⟨Grows.refl coherent, sound.move (fun _ => running) (fun _ => filling) ?_ ?_ ?_,
              Keeps.move task _⟩
            · exact fun clean => absurd (by decide) clean
            · exact fun filled => absurd filled (by decide)
            · exact fun onDisk => absurd onDisk (by decide)
  | saving =>
      have running : task.phase.running := by rw [phase]; decide
      simp only [Task.fill, phase]
      cases written : Table.writeDirty h task.job with
      | error e => exact failed
      | ok h' =>
          obtain ⟨grows, saved⟩ := sound.written coherent running written
          refine ⟨grows, (sound.grow grows).move (fun _ => running) ?_ (fun _ _ => saved) ?_ ?_,
            Keeps.move task _⟩
          · exact fun filling => absurd filling (by decide)
          · exact fun filled => absurd filled (by decide)
          · exact fun onDisk => absurd onDisk (by decide)
  | growing =>
      have running : task.phase.running := by rw [phase]; decide
      have clean : ¬ task.phase.filling := by rw [phase]; decide
      simp only [Task.fill, phase]
      cases allocated : h.allocatePage with
      | error e => exact failed
      | ok result =>
          obtain ⟨grows, _⟩ := coherent.allocatePage allocated
          exact ⟨grows, (sound.grow grows).onPage _ running clean (by decide), Keeps.onPage task _ _⟩
  | reopening =>
      have running : task.phase.running := by rw [phase]; decide
      have clean : ¬ task.phase.filling := by rw [phase]; decide
      simp only [Task.fill, phase]
      cases read : h.readPage task.job.pageId with
      | error e => exact failed
      | ok result =>
          obtain ⟨grows, _, _, cached, _⟩ := coherent.readPage read
          have grown := sound.grow grows
          refine ⟨grows, ⟨fun _ => ⟨_, cached⟩, ?_, fun _ => grown.noted running, grown.updates,
            grown.deletions,
            fun filled => absurd (show Phase.filled .inserting from filled) (by decide),
            grown.pending,
            fun onDisk => absurd (show Phase.onDisk .inserting from onDisk) (by decide),
            fun _ => ⟨(sound.sourced running).records, (sound.sourced running).txIds⟩⟩, rfl, rfl, rfl⟩
          intro _ record member
          rcases grown.placed running record member with pending | ⟨place, held, there | filling⟩
          · exact Or.inl pending
          · exact Or.inr ⟨place, held, Or.inl there⟩
          · exact absurd filling.1 clean
  | inserting =>
      simp only [Task.fill, phase]
      cases pending : task.job.records with
      | nil => exact same
      | cons record rest =>
          obtain ⟨key, packed⟩ := record
          dsimp only
          cases done : Table.placeRecord h task.job key packed with
          | error e => exact failed
          | ok result =>
              obtain ⟨grows, sound'⟩ := sound.insert coherent phase pending done
              exact ⟨grows, sound', rfl, rfl, rfl⟩
  | closing =>
      have running : task.phase.running := by rw [phase]; decide
      have filled : task.phase.filled := by rw [phase]; decide
      simp only [Task.fill, phase]
      cases written : Table.writeDirty h task.job with
      | error e => exact failed
      | ok h' =>
          obtain ⟨grows, saved⟩ := sound.written coherent running written
          refine ⟨grows, (sound.grow grows).move (fun _ => running) ?_ (fun _ _ => saved)
            (fun _ => sound.rest filled) ?_, Keeps.move task _⟩
          · exact fun filling => absurd filling (by decide)
          · exact fun onDisk => absurd onDisk (by decide)
  | dropping => simpa only [Task.fill, phase] using same
  | indexing => simpa only [Task.fill, phase] using same
  | syncing => simpa only [Task.fill, phase] using same
  | marking => simpa only [Task.fill, phase] using same
  | clearing => simpa only [Task.fill, phase] using same
  | finished => simpa only [Task.fill, phase] using same
  | failed => simpa only [Task.fill, phase] using same

end Task

end CachyDb
