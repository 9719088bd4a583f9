import CachyDb.Storage.Progress

set_option autoImplicit false

/-! The memtables of a table against the history of what entered them, whatever the
flushes of the table do. -/

namespace CachyDb

open ByteString TableHandler

@[simp] theorem latest_nil (key : String) : latest [] key = none := rfl

@[simp] theorem latest_cons (e : Entry) (history : List Entry) (key : String) :
    latest (e :: history) key = if e.key = key then some e else latest history key := by
  unfold latest
  rw [List.find?_cons]
  by_cases same : e.key = key
  · simp only [same, decide_true, ↓reduceIte]
  · simp only [same, decide_false, ↓reduceIte]

@[simp] theorem latest_append (front back : List Entry) (key : String) :
    latest (front ++ back) key = (latest front key).or (latest back key) := by
  rw [latest, List.find?_append]
  rfl

theorem latest_mem {history : List Entry} {key : String} {e : Entry}
    (found : latest history key = some e) : e ∈ history ∧ e.key = key := by
  refine ⟨List.mem_of_find?_eq_some found, ?_⟩
  have holds := List.find?_some found
  simpa using holds

theorem latest_isSome {history : List Entry} {e : Entry} (member : e ∈ history) :
    ∃ newest, latest history e.key = some newest := by
  cases found : latest history e.key with
  | some newest => exact ⟨newest, rfl⟩
  | none =>
      have missing := List.find?_eq_none.mp found e member
      simp at missing

namespace Site

/-- The memtables hold the newest entries of their histories, the ids in their lists
belong to these, and every flush has done what its place says. -/
structure Sound (s : Site) : Prop where
  coherent : s.table.handler.Coherent
  active : ∀ key, s.table.active.lookup key = (latest s.active key).map Entry.packed
  activeIds : ∀ txId ∈ s.table.activeTxIds, ∃ e ∈ s.active, e.txId = txId
  immutable : ∀ m, s.table.immutable = some m →
    ∀ key, m.lookup key = (latest s.immutable key).map Entry.packed
  immutableIds : ∀ txId ∈ s.table.immutableTxIds.getD [], ∃ e ∈ s.immutable, e.txId = txId
  empty : s.table.immutable = none → s.immutable = []
  nonempty : ∀ e ∈ s.written, e.packed ≠ []
  history : ∃ older, s.written = s.active ++ (s.immutable ++ older)
  tasks : ∀ task ∈ s.tasks, task.Sound s.table.handler s.synced

theorem Sound.enter {s : Site} (sound : s.Sound) {e : Entry} (nonempty : e.packed ≠ []) :
    (s.enter e).Sound := by
  constructor
  · exact sound.coherent
  · intro key
    show (s.table.active.insert e.key e.packed).lookup key = (latest (e :: s.active) key).map _
    rw [MemTable.lookup_insert, latest_cons]
    by_cases same : e.key = key
    · rw [if_pos same.symm, if_pos same, Option.map_some]
    · rw [if_neg (fun back => same back.symm), if_neg same, sound.active key]
  · intro txId member
    obtain ⟨other, inside, id⟩ := sound.activeIds txId member
    exact ⟨other, List.mem_cons_of_mem _ inside, id⟩
  · exact sound.immutable
  · exact sound.immutableIds
  · exact sound.empty
  · intro other member
    rcases List.mem_cons.mp member with rfl | old
    · exact nonempty
    · exact sound.nonempty other old
  · obtain ⟨older, whole⟩ := sound.history
    exact ⟨older, by rw [Site.enter, whole]; rfl⟩
  · exact sound.tasks

theorem Sound.addTxIds {s : Site} (sound : s.Sound) {txIds : List Nat}
    (entered : ∀ txId ∈ txIds, ∃ e ∈ s.active, e.txId = txId) : (s.addTxIds txIds).Sound := by
  refine ⟨sound.coherent, sound.active, ?_, sound.immutable, sound.immutableIds, sound.empty,
    sound.nonempty, sound.history, sound.tasks⟩
  intro txId member
  rcases List.mem_append.mp member with old | new
  · exact sound.activeIds txId old
  · exact entered txId new

theorem Sound.swap {s : Site} (sound : s.Sound) : s.swap.Sound := by
  constructor
  · exact sound.coherent
  · intro key
    rfl
  · intro txId member
    cases member
  · intro m same
    obtain rfl : s.table.active = m := Option.some.inj same
    exact sound.active
  · exact sound.activeIds
  · intro none
    cases none
  · exact sound.nonempty
  · obtain ⟨older, whole⟩ := sound.history
    exact ⟨s.immutable ++ older, whole⟩
  · intro task member
    rcases List.mem_append.mp member with old | new
    · exact sound.tasks task old
    · rw [List.mem_singleton.mp new]
      exact Task.queued_sound _ _

/-- A reader loads pages. -/
theorem Sound.putHandler {s : Site} (sound : s.Sound) {h : TableHandler}
    (grows : Grows s.table.handler h) : (s.putHandler h).Sound :=
  ⟨grows.coherent, sound.active, sound.activeIds, sound.immutable, sound.immutableIds,
    sound.empty, sound.nonempty, sound.history,
    fun task member => (sound.tasks task member).grow grows⟩

theorem Sound.putTask {s : Site} (sound : s.Sound) (i : Nat) {task : Task}
    (new : task.Sound s.table.handler s.synced) : (s.putTask i task).Sound := by
  refine ⟨sound.coherent, sound.active, sound.activeIds, sound.immutable, sound.immutableIds,
    sound.empty, sound.nonempty, sound.history, ?_⟩
  intro other member
  rcases List.mem_or_eq_of_mem_set member with old | rfl
  · exact sound.tasks other old
  · exact new

/-- The records that a flush starts with are the newest entries of the immutable memtable. -/
theorem Sound.begin {s : Site} (sound : s.Sound) {task : Task}
    (old : task.Sound s.table.handler s.synced) :
    (s.begin task).Sound s.table.handler s.synced := by
  unfold Site.begin
  cases started : s.table.beginFlush with
  | none =>
      apply old.move
      · exact fun running => absurd running (by decide)
      · exact fun filling => absurd filling (by decide)
      · exact fun _ running => absurd running (by decide)
      · exact fun filled => absurd filled (by decide)
      · exact fun onDisk => absurd onDisk (by decide)
  | some batch =>
      obtain ⟨records, txIds⟩ := batch
      unfold Table.beginFlush at started
      cases slot : s.table.immutable with
      | none =>
          rw [slot] at started
          cases started
      | some m =>
          rw [slot] at started
          dsimp only at started
          split at started
          · cases started
          · cases started
            have held : ∀ key packed, (key, packed) ∈ m.entries ↔
                (latest s.immutable key).map Entry.packed = some packed := by
              intro key packed
              rw [← sound.immutable m slot key]
              exact ⟨MemTable.lookup_of_mem, MemTable.mem_of_lookup⟩
            refine ⟨?_, ?_, ?_, ?_, ?_, ?_, ?_, ?_, ?_⟩
            · exact fun filling => absurd (show Phase.filling .sizing from filling) (by decide)
            · exact fun _ record member => Or.inl member
            · exact fun _ record member => Or.inl member
            · intro update member
              cases member
            · intro key member
              cases member
            · exact fun filled => absurd (show Phase.filled .sizing from filled) (by decide)
            · intro record member
              refine ⟨member, ?_⟩
              have newest := (held record.1 record.2).mp member
              obtain ⟨e, found, packed⟩ := Option.map_eq_some_iff.mp newest
              rw [← packed]
              apply sound.nonempty
              obtain ⟨older, whole⟩ := sound.history
              rw [whole]
              exact List.mem_append_right _ (List.mem_append_left _ (latest_mem found).1)
            · exact fun onDisk => absurd (show Phase.onDisk .sizing from onDisk) (by decide)
            · exact fun _ => ⟨held, sound.immutableIds⟩

theorem Sound.endFlush {s : Site} (sound : s.Sound) :
    Sound { s with table := s.table.endFlush, immutable := [] } := by
  constructor
  · exact sound.coherent
  · exact sound.active
  · exact sound.activeIds
  · intro m cleared
    cases cleared
  · intro txId member
    cases member
  · intro _
    rfl
  · exact sound.nonempty
  · obtain ⟨older, whole⟩ := sound.history
    exact ⟨s.immutable ++ older, whole⟩
  · exact sound.tasks

theorem Sound.putIndex {s : Site} (sound : s.Sound)
    (index : AList (fun _ : String => Nat × Nat)) :
    Sound { s with table := { s.table with diskIndex := index } } :=
  ⟨sound.coherent, sound.active, sound.activeIds, sound.immutable, sound.immutableIds,
    sound.empty, sound.nonempty, sound.history, sound.tasks⟩

/-- The steps that follow the last page. -/
theorem Sound.moved {s : Site} (sound : s.Sound) {task : Task} (member : task ∈ s.tasks)
    {here next : Phase} (phase : task.phase = here)
    (place : here.running ∧ ¬ here.filling ∧ here.filled ∧ ¬ next.filling)
    (onDisk : next.onDisk → ∀ record ∈ task.records, ∃ place, OnFile s.synced place record.2) :
    (task.move next).Sound s.table.handler s.synced := by
  have old := sound.tasks task member
  rw [← phase] at place
  obtain ⟨running, clean, last, unfilled⟩ := place
  apply old.move (fun _ => running) (fun filling => absurd filling unfilled) _
    (fun _ => old.rest last) onDisk
  intro _ _ record inside
  rcases old.placed running record inside with pending | ⟨place, held, there | filling⟩
  · exact Or.inl pending
  · exact Or.inr ⟨place, held, there⟩
  · exact absurd filling.1 clean

/-- Every step of a flush keeps the site sound. -/
theorem Sound.advance {s : Site} (sound : s.Sound) {i : Nat} {task : Task}
    (known : s.tasks[i]? = some task) : (s.advance i task).Sound := by
  have member := List.mem_of_getElem? known
  have old := sound.tasks task member
  have filled : ((s.putHandler (task.fill s.table.handler).1).putTask i
      (task.fill s.table.handler).2).Sound := by
    obtain ⟨grows, new, _⟩ := old.fill sound.coherent
    exact (sound.putHandler grows).putTask i new
  cases phase : task.phase with
  | queued =>
      simp only [Site.advance, phase]
      exact sound.putTask i (sound.begin old)
  | dropping =>
      simp only [Site.advance, phase]
      apply (sound.putIndex _).putTask i
      exact sound.moved member phase (by decide) fun onDisk => absurd onDisk (by decide)
  | indexing =>
      simp only [Site.advance, phase]
      apply (sound.putIndex _).putTask i
      exact sound.moved member phase (by decide) fun onDisk => absurd onDisk (by decide)
  | syncing =>
      simp only [Site.advance, phase]
      have synced : Sound { s with synced := s.table.handler.file } :=
        ⟨sound.coherent, sound.active, sound.activeIds, sound.immutable, sound.immutableIds,
          sound.empty, sound.nonempty, sound.history,
          fun other inside => (sound.tasks other inside).sync⟩
      apply synced.putTask i
      apply synced.moved member phase (by decide)
      intro _ record inside
      apply old.onFile _ _ (old.rest (by rw [phase]; decide)) inside
      · rw [phase]
        decide
      · rw [phase]
        decide
  | marking =>
      simp only [Site.advance, phase]
      apply sound.putTask i
      exact sound.moved member phase (by decide) fun _ => old.onDisk (by rw [phase]; decide)
  | clearing =>
      simp only [Site.advance, phase]
      apply sound.endFlush.putTask i
      apply old.move
      · exact fun running => absurd running (by decide)
      · exact fun filling => absurd filling (by decide)
      · exact fun _ running => absurd running (by decide)
      · exact fun filled => absurd filled (by decide)
      · exact fun onDisk => absurd onDisk (by decide)
  | sizing => simpa only [Site.advance, phase] using filled
  | allocating => simpa only [Site.advance, phase] using filled
  | opening => simpa only [Site.advance, phase] using filled
  | checking => simpa only [Site.advance, phase] using filled
  | saving => simpa only [Site.advance, phase] using filled
  | growing => simpa only [Site.advance, phase] using filled
  | reopening => simpa only [Site.advance, phase] using filled
  | inserting => simpa only [Site.advance, phase] using filled
  | closing => simpa only [Site.advance, phase] using filled
  | finished => simpa only [Site.advance, phase] using filled
  | failed => simpa only [Site.advance, phase] using filled

theorem enterAll_active (s : Site) (entries : List Entry) :
    (entries.foldl Site.enter s).active = entries.reverse ++ s.active := by
  induction entries generalizing s with
  | nil => rfl
  | cons e rest ih =>
      rw [List.foldl_cons, ih, List.reverse_cons, List.append_assoc]
      rfl

theorem Sound.enterAll {s : Site} (sound : s.Sound) {entries : List Entry}
    (nonempty : ∀ e ∈ entries, e.packed ≠ []) : (entries.foldl Site.enter s).Sound := by
  induction entries generalizing s with
  | nil => exact sound
  | cons e rest ih =>
      apply ih (sound.enter (nonempty e List.mem_cons_self))
      exact fun other member => nonempty other (List.mem_cons_of_mem _ member)

/-- Whatever the router does to a table, the table stays sound. -/
theorem Sound.act {s : Site} (sound : s.Sound) {act : Act} (valid : act.Valid s) :
    (s.act act).Sound := by
  cases act with
  | stay => exact sound
  | enter entries txIds =>
      obtain ⟨nonempty, entered⟩ := valid
      apply (sound.enterAll nonempty).addTxIds
      intro txId member
      obtain ⟨e, inside, id⟩ := entered txId member
      refine ⟨e, ?_, id⟩
      rw [enterAll_active]
      exact List.mem_append_left _ (List.mem_reverse.mpr inside)
  | load h => exact sound.putHandler (valid sound.coherent)
  | swap => exact sound.swap
  | advance i task => exact sound.advance valid
  | raise i task =>
      exact sound.putTask i (sound.tasks task (List.mem_of_getElem? valid.1)).fail

theorem advance_written (s : Site) (i : Nat) (task : Task) :
    (s.advance i task).written = s.written := by
  unfold Site.advance
  split
  all_goals rfl

/-- Only a write adds to the history. -/
theorem act_written (s : Site) (act : Act) :
    (s.act act).written = match act with
      | .enter entries _ => entries.reverse ++ s.written
      | _ => s.written := by
  cases act with
  | enter entries txIds =>
      show (entries.foldl Site.enter s).written = entries.reverse ++ s.written
      induction entries generalizing s with
      | nil => rfl
      | cons e rest ih =>
          rw [List.foldl_cons, ih, List.reverse_cons, List.append_assoc]
          rfl
  | advance i task => exact s.advance_written i task
  | stay => rfl
  | load h => rfl
  | swap => rfl
  | raise i task => rfl

end Site

end CachyDb
