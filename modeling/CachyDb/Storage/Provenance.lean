import CachyDb.Storage.Readable
import CachyDb.Storage.Settled

set_option autoImplicit false

/-! Where the records of a table come from. In whatever order its writes, swaps and flushes
come, and wherever these fail: what is in a memtable, in a page or under the index was once
written under its key. -/

namespace CachyDb

open ByteString TableHandler

/-- The payload is a record of the key with one of these values. -/
def Made (json : Json) (wrote : String → Value → Prop) (key : String) (payload : Bytes) : Prop :=
  ∃ value, packRecord json key value = .ok payload ∧ wrote key value

namespace TableHandler

/-- All that comes into the pages is of this kind. -/
def Adds (kind : Bytes → Prop) (h h' : TableHandler) : Prop :=
  ∀ record ∈ h'.contents, record ∈ h.contents ∨ kind record.2

section

variable {kind : Bytes → Prop} {h h' : TableHandler} {job job' : Table.FlushJob}

theorem Adds.same (contents : h'.contents = h.contents) : Adds kind h h' :=
  fun _ member => Or.inl (contents ▸ member)

theorem Coherent.writeDirty_contents (coherent : h.Coherent)
    (done : Table.writeDirty h job = .ok h') : h'.contents = h.contents := by
  unfold Table.writeDirty at done
  split at done
  · cases loaded : h.pageCache job.pageId with
    | none =>
        rw [loaded] at done
        cases done
    | some page =>
        rw [loaded] at done
        have seen := view_of_cached loaded
        obtain ⟨held, seen', _, same⟩ :=
          coherent.formed.readable job.pageId (coherent.formed.loaded job.pageId page loaded)
        rw [seen, Option.some.injEq] at seen'
        subst seen'
        exact (coherent.formed.writePage_keeps (same.symm ▸ seen) done).1.contents
  · cases done
    rfl

/-- A page gets one more record. -/
theorem Coherent.placeRecord_adds (coherent : h.Coherent) {key : String} {packed : Bytes}
    (nonempty : packed ≠ []) (fresh : kind packed)
    (done : Table.placeRecord h job key packed = .ok (h', job')) : Adds kind h h' := by
  unfold Table.placeRecord at done
  cases loaded : h.pageCache job.pageId with
  | none =>
      rw [loaded] at done
      cases done
  | some page =>
      rw [loaded] at done
      dsimp only at done
      cases inserted : page.insertRecord packed with
      | error e =>
          rw [inserted] at done
          cases done
      | ok result =>
          obtain ⟨slot, page'⟩ := result
          rw [inserted] at done
          simp only [Except.ok.injEq, Prod.mk.injEq] at done
          obtain ⟨rfl, _⟩ := done
          have inside := coherent.formed.loaded job.pageId page loaded
          have seen := view_of_cached loaded
          obtain ⟨held, seen', shape, same⟩ := coherent.formed.readable job.pageId inside
          rw [seen, Option.some.injEq] at seen'
          subst seen'
          obtain ⟨shape', same', _, records⟩ := shape.records_insert nonempty inserted
          have formed' := coherent.formed.cachePage inside shape' (same'.trans same)
          rintro ⟨spot, payload⟩ member
          obtain ⟨found, seen', there⟩ := formed'.mem_contents.mp member
          by_cases here : spot.1 = job.pageId
          · rw [here, h.view_cachePage_self, Option.some.injEq] at seen'
            rw [← Page.mem_records, ← seen', records] at there
            rcases List.mem_append.mp there with old | new
            · left
              rw [coherent.formed.mem_contents]
              exact ⟨page, here ▸ seen, Page.mem_records.mp old⟩
            · rw [List.mem_singleton, Prod.mk.injEq] at new
              exact Or.inr (new.2 ▸ fresh)
          · rw [view_cachePage_ne h page' here] at seen'
            exact Or.inl (coherent.formed.mem_contents.mpr ⟨found, seen', there⟩)

end

end TableHandler

/-- A step of a flush puts at most a record of its own into a page. -/
theorem Task.fill_adds {kind : Bytes → Prop} {h : TableHandler} (coherent : h.Coherent) {task : Task}
    (pending : ∀ record ∈ task.job.records, record.2 ≠ [] ∧ kind record.2) :
    Adds kind h (task.fill h).1 := by
  have same : Adds kind h h := Adds.same rfl
  have formed := coherent.formed
  unfold fill
  cases task.phase with
  | sizing =>
      dsimp only
      split
      · exact same
      · exact same
  | allocating | growing =>
      dsimp only
      split
      · exact same
      · rename_i allocated
        exact Adds.same (formed.allocatePage_keeps allocated).1.contents
  | opening | reopening =>
      dsimp only
      split
      · exact same
      · rename_i read
        exact Adds.same (formed.readPage_keeps read).1.contents
  | checking =>
      dsimp only
      split
      · exact same
      · split
        · exact same
        · exact same
      · exact same
  | saving | closing =>
      dsimp only
      split
      · exact same
      · rename_i saved
        exact Adds.same (coherent.writeDirty_contents saved)
  | inserting =>
      dsimp only
      split
      · exact same
      · rename_i key packed rest records
        split
        · exact same
        · rename_i placed
          obtain ⟨nonempty, fresh⟩ := pending (key, packed) (records ▸ List.mem_cons_self)
          exact coherent.placeRecord_adds nonempty fresh placed
  | _ => exact same

namespace Site

/-- All that the table has under a key was written under it. -/
structure Rooted (json : Json) (wrote : String → Value → Prop) (s : Site) : Prop where
  contents : ∀ record ∈ s.table.handler.contents, ∃ key, Made json wrote key record.2
  written : ∀ e ∈ s.written, Made json wrote e.key e.packed
  records : ∀ task ∈ s.tasks, ∀ record ∈ task.records, Made json wrote record.1 record.2
  index : ∀ key place, s.table.diskIndex.lookup key = some place →
    ∃ payload, (place, payload) ∈ s.table.handler.contents ∧ Made json wrote key payload

section

variable {json : Json} {wrote : String → Value → Prop} {s : Site}

/-- A flush takes a step, and adds no more to the pages than it may. -/
theorem Rooted.moved (s' : Site) (rooted : s.Rooted json wrote) {i : Nat} {task : Task}
    (tasks : s'.tasks = s.tasks.set i task) (written : s'.written = s.written)
    (contents : ∀ record ∈ s'.table.handler.contents, record ∈ s.table.handler.contents ∨
      ∃ key, Made json wrote key record.2)
    (records : ∀ record ∈ task.records, Made json wrote record.1 record.2)
    (index : ∀ key place, s'.table.diskIndex.lookup key = some place →
      ∃ payload, (place, payload) ∈ s'.table.handler.contents ∧ Made json wrote key payload) :
    s'.Rooted json wrote := by
  refine ⟨fun record member => ?_, fun e member => rooted.written e (written ▸ member), ?_, index⟩
  · exact (contents record member).elim (rooted.contents record) id
  · intro other member
    rw [tasks] at member
    rcases List.mem_or_eq_of_mem_set member with old | new
    · exact rooted.records other old
    · rw [new]
      exact records

/-- A flush reads its records out of the immutable memtable. -/
theorem Rooted.begin (rooted : s.Rooted json wrote) (sound : s.Sound) {task : Task}
    (member : task ∈ s.tasks) :
    ∀ record ∈ (s.begin task).records, Made json wrote record.1 record.2 := by
  have source := ((sound.begin (sound.tasks task member)).sourced)
  intro record inside
  have started : (s.begin task).records = task.records ∨
      ((s.begin task).phase.running ∧ (s.begin task).entries = s.immutable) := by
    unfold Site.begin
    split
    · exact Or.inl rfl
    · exact Or.inr ⟨show Phase.running .sizing by decide, rfl⟩
  rcases started with same | ⟨running, entries⟩
  · exact rooted.records task member record (same ▸ inside)
  · obtain ⟨key, packed⟩ := record
    have newest := ((source running).records key packed).mp inside
    rw [entries] at newest
    obtain ⟨e, found, rfl⟩ := Option.map_eq_some_iff.mp newest
    obtain ⟨there, rfl⟩ := latest_mem found
    obtain ⟨older, whole⟩ := sound.history
    apply rooted.written
    rw [whole]
    exact List.mem_append_right _ (List.mem_append_left _ there)

theorem Rooted.advance (rooted : s.Rooted json wrote) (sound : s.Sound) {i : Nat} {task : Task}
    (known : s.tasks[i]? = some task) : (s.advance i task).Rooted json wrote := by
  have member := List.mem_of_getElem? known
  have records := rooted.records task member
  -- the steps that leave the pages as they are
  have moved {s' : Site} (next : Phase) (tasks : s'.tasks = s.tasks.set i (task.move next))
      (written : s'.written = s.written) (handler : s'.table.handler = s.table.handler)
      (index : ∀ key place, s'.table.diskIndex.lookup key = some place →
        ∃ payload, (place, payload) ∈ s.table.handler.contents ∧ Made json wrote key payload) :
      s'.Rooted json wrote := by
    apply rooted.moved s' tasks written _ records
    · rw [handler]
      exact index
    · rw [handler]
      exact fun _ inside => Or.inl inside
  have filled : ((s.putHandler (task.fill s.table.handler).1).putTask i
      (task.fill s.table.handler).2).Rooted json wrote := by
    obtain ⟨grows, _, keeps⟩ := (sound.tasks task member).fill sound.coherent
    refine rooted.moved _ (by rfl) (by rfl) ?_ ?_ ?_
    · refine @Task.fill_adds (fun payload => ∃ key, Made json wrote key payload) _ sound.coherent _
        fun record pending => ?_
      obtain ⟨inside, nonempty⟩ := (sound.tasks task member).pending record pending
      exact ⟨nonempty, record.1, records record inside⟩
    · exact keeps.records ▸ records
    · intro key place found
      obtain ⟨payload, held, made⟩ := rooted.index key place found
      exact ⟨payload, grows.holds _ held, made⟩
  cases phase : task.phase with
  | queued =>
      simp only [Site.advance, phase]
      exact rooted.moved _ (by rfl) (by rfl) (fun _ inside => Or.inl inside)
        (rooted.begin sound member) rooted.index
  | dropping =>
      simp only [Site.advance, phase]
      refine moved .indexing rfl rfl rfl fun key place found => rooted.index key place ?_
      dsimp only [putTask] at found
      rw [Table.lookup_drop] at found
      split at found
      · cases found
      · exact found
  | indexing =>
      simp only [Site.advance, phase]
      refine moved .syncing rfl rfl rfl fun key place found => ?_
      rcases Table.lookup_applyUpdates s.table.diskIndex task.job.updates key with
        ⟨other, update, new⟩ | ⟨_, old⟩
      · cases new.symm.trans found
        obtain ⟨packed, inside, _, held⟩ := (sound.tasks task member).updates _ update
        exact ⟨packed, held, records _ inside⟩
      · exact rooted.index key place (old.symm.trans found)
  | syncing =>
      simp only [Site.advance, phase]
      exact moved .marking rfl rfl rfl rooted.index
  | marking =>
      simp only [Site.advance, phase]
      exact moved .clearing rfl rfl rfl rooted.index
  | clearing =>
      simp only [Site.advance, phase]
      exact moved .finished rfl rfl rfl rooted.index
  | _ =>
      simp only [Site.advance, phase]
      exact filled

theorem Rooted.enterAll (rooted : s.Rooted json wrote) {entries : List Entry}
    (made : ∀ e ∈ entries, Made json wrote e.key e.packed) :
    (entries.foldl Site.enter s).Rooted json wrote := by
  obtain ⟨tasks, _, written, _, index, handler⟩ := s.enterAll_frame entries
  refine ⟨fun record member => rooted.contents record (handler ▸ member), fun e member => ?_,
    fun task member => rooted.records task (tasks ▸ member), ?_⟩
  · rw [written] at member
    rcases List.mem_append.mp member with new | old
    · exact made e (List.mem_reverse.mp new)
    · exact rooted.written e old
  · rw [index, handler]
    exact rooted.index

/-- Whatever the router does to the table. -/
theorem Rooted.act (rooted : s.Rooted json wrote) (sound : s.Sound) {act : Act}
    (valid : act.Valid s) (reads : ∀ h, act = .load h → h.contents = s.table.handler.contents)
    (enters : ∀ entries txIds, act = .enter entries txIds →
      ∀ e ∈ entries, Made json wrote e.key e.packed) : (s.act act).Rooted json wrote := by
  cases act with
  | stay => exact rooted
  | enter entries txIds =>
      obtain ⟨contents, written, records, index⟩ := rooted.enterAll (enters entries txIds rfl)
      exact ⟨contents, written, records, index⟩
  | load h =>
      have same := reads h rfl
      refine ⟨fun record member => rooted.contents record (same ▸ member), rooted.written,
        rooted.records, fun key place found => ?_⟩
      obtain ⟨payload, held, made⟩ := rooted.index key place found
      exact ⟨payload, (show _ ∈ h.contents by rw [same]; exact held), made⟩
  | swap =>
      refine ⟨rooted.contents, rooted.written, fun task member => ?_, rooted.index⟩
      rcases List.mem_append.mp member with old | new
      · exact rooted.records task old
      · rw [List.mem_singleton.mp new]
        exact fun record nothing => by cases nothing
  | advance i task => exact rooted.advance sound valid
  | raise i task =>
      have records : ∀ record ∈ (task.move .failed).records, Made json wrote record.1 record.2 :=
        rooted.records task (List.mem_of_getElem? valid.1)
      exact rooted.moved _ (by rfl) (by rfl) (fun _ inside => Or.inl inside) records rooted.index

/-- What a lookup finds was written. -/
theorem Rooted.find (rooted : s.Rooted json wrote) (sound : s.Sound) {key : String} {value : Value}
    (found : (s.table.find json key).1.answer = .ok value) :
    value = .null ∨ ∃ given, wrote key given ∧ value = json.decoded given := by
  obtain ⟨older, whole⟩ := sound.history
  have unpacks {packed : Bytes} (made : Made json wrote key packed)
      (unpacked : Table.unpackValue json packed = .ok value) :
      ∃ given, wrote key given ∧ value = json.decoded given := by
    obtain ⟨given, packs, wrote⟩ := made
    rw [Table.unpackValue, unpackRecord_decoded packs] at unpacked
    exact ⟨given, wrote, (Except.ok.inj unpacked).symm⟩
  have held {entries : List Entry} (inside : ∀ e ∈ entries, e ∈ s.written) {packed : Bytes}
      (newest : (latest entries key).map Entry.packed = some packed) :
      Made json wrote key packed := by
    obtain ⟨e, there, rfl⟩ := Option.map_eq_some_iff.mp newest
    obtain ⟨member, rfl⟩ := latest_mem there
    exact rooted.written e (inside e member)
  unfold Table.find at found
  split at found
  · rename_i packed active
    rw [MemTable.search_eq_lookup, sound.active] at active
    refine Or.inr (unpacks (held (fun e member => ?_) active) found)
    rw [whole]
    exact List.mem_append_left _ member
  · split at found
    · rename_i packed immutable
      obtain ⟨m, slot, searched⟩ := Option.bind_eq_some_iff.mp immutable
      rw [MemTable.search_eq_lookup, sound.immutable m slot] at searched
      refine Or.inr (unpacks (held (fun e member => ?_) searched) found)
      rw [whole]
      exact List.mem_append_right _ (List.mem_append_left _ member)
    · dsimp only [Table.Found.answer] at found
      cases indexed : s.table.diskIndex.lookup key with
      | none =>
          rw [Table.readFromDisk_missing indexed] at found
          exact Or.inl (Except.ok.inj found).symm
      | some place =>
          obtain ⟨payload, there, given, packs, wrote⟩ := rooted.index key place indexed
          rw [Table.readFromDisk_at sound.coherent.formed indexed there packs] at found
          exact Or.inr ⟨given, wrote, (Except.ok.inj found).symm⟩

/-- A table that is opened has under each key what the file has. -/
theorem opened_rooted {file : File} (readable : (openTable file).WellFormed)
    (made : ∀ place payload, OnFile file place payload → ∃ key, Made json wrote key payload)
    (s : Site) (table : s.table = Table.init file) (written : s.written = []) (tasks : s.tasks = []) :
    s.Rooted json wrote := by
  obtain ⟨keeps, _, index⟩ := Table.initDiskIndex_spec readable
  have contents : s.table.handler.contents = (openTable file).contents := by
    rw [table]
    exact keeps.contents
  have held (record : (Nat × Nat) × Bytes) (member : record ∈ (openTable file).contents) :
      ∃ key, Made json wrote key record.2 :=
    made record.1 record.2 ((mem_saved (h := openTable file) readable).mp member)
  refine ⟨fun record member => held record (contents ▸ member), ?_, ?_, fun key place found => ?_⟩
  · rw [written]
    exact fun e member => by cases member
  · rw [tasks]
    exact fun task member => by cases member
  · rw [table] at found
    change (Table.initDiskIndex (openTable file)).2.lookup key = some place at found
    rw [index, Table.lookup_indexOf] at found
    obtain ⟨record, newest, same⟩ := Option.bind_eq_some_iff.mp found
    obtain ⟨member, named⟩ := Table.newestIn_mem newest
    obtain ⟨other, given, packs, wrote⟩ := held record member
    rw [(Table.payloadKey_pack packs).1, Option.some.injEq] at named
    split at same
    · cases same
    · cases same
      exact ⟨record.2, contents ▸ member, given, named ▸ packs, named ▸ wrote⟩

end

end Site

end CachyDb
