import CachyDb.Wal.OnDisk

set_option autoImplicit false

/-! What each method of the WAL object does to a directory that is in order: the
file of a batch is created when it is missing, a batch that fits is added, one that
does not leaves the records alone, and marks set exactly the flags they name. -/

namespace CachyDb.Wal

open ByteString

/-- `w'` differs from `w` at most in the content of the file `fileId`, which now
exists, in the cached handle, and in a background thread for the next file. -/
structure Touches (w w' : Wal) (fileId : Nat) : Prop where
  globalTxId : w'.globalTxId = w.globalTxId
  walBuffer : w'.walBuffer = w.walBuffer
  ramCompletedTx : w'.ramCompletedTx = w.ramCompletedTx
  present : ∀ other, w'.disk.present other = (decide (other = fileId) || w.disk.present other)
  threads : ∀ target ∈ w'.preallocating, target ∈ w.preallocating ∨ target = fileId + 1

theorem Touches.exists_file {w w' : Wal} {fileId : Nat} (touches : Touches w w' fileId) :
    w'.disk.present fileId = true := by
  rw [touches.present, decide_eq_true rfl, Bool.true_or]

/-- What the writer relies on when it turns to the file `fileId`: a missing file
has no records yet, and no handle was left open under its name. -/
def Reachable (w : Wal) (flushed : List Record) (fileId : Nat) : Prop :=
  w.disk.present fileId = true ∨
    (fileRecords flushed fileId = [] ∧ ∀ handle, w.currentFile ≠ some (fileId, handle))

theorem div_mul_le (txId : Nat) : txId / walCapacity * walCapacity ≤ txId :=
  Nat.div_mul_le_self txId walCapacity

theorem next_file (txId : Nat) : (txId + walCapacity) / walCapacity = txId / walCapacity + 1 :=
  Nat.add_div_right txId (by decide)

/-- After `ensureFile` the file exists and no record has moved. -/
theorem OnDisk.ensureFile {w : Wal} {flushed : List Record} {marked : Finset Nat}
    (inv : OnDisk w flushed marked) (first : Nat) (batch : List Record)
    (valid : first + walCapacity < 2 ^ 63) (reachable : Reachable w flushed (first / walCapacity)) :
    ∃ w', Wal.ensureFile w first batch = (.ok (), w') ∧ OnDisk w' flushed marked ∧
      Touches w w' (first / walCapacity) := by
  have path := getFilePath_ok (show first < 2 ^ 63 by omega)
  have next := getFilePath_ok valid
  rw [next_file] at next
  by_cases known : w.disk.present (first / walCapacity) = true
  · refine ⟨w, ?_, inv, rfl, rfl, rfl, ?_, fun target member => Or.inl member⟩
    · simp only [Wal.ensureFile, path, known, ↓reduceIte]
    · intro other
      by_cases same : other = first / walCapacity
      · rw [same, known, Bool.or_true]
      · simp only [same, decide_false, Bool.false_or]
  · obtain ⟨unused, closed⟩ := reachable.resolve_left known
    have low := div_mul_le first
    have created := inv.preAllocate (first / walCapacity)
      (walFileHeaderSize + payloadBytes batch) unused (by omega) closed
    refine ⟨{ w with
      disk := preAllocateWal w.disk (first / walCapacity) (walFileHeaderSize + payloadBytes batch)
      preallocating := (first / walCapacity + 1) :: w.preallocating }, ?_,
      created.frame rfl rfl, rfl, rfl, rfl, preAllocateWal_present _ _ _, ?_⟩
    · simp only [Wal.ensureFile, path, known, next, Bool.false_eq_true, ↓reduceIte]
    · intro target member
      exact (List.mem_cons.mp member).symm

/-- The writer reaches the open file of its batch with every record in place. -/
theorem OnDisk.openBatchFile {w : Wal} {flushed : List Record} {marked : Finset Nat}
    (inv : OnDisk w flushed marked) (clock : Nat → Nat) (copy : Finset Nat) (batch : List Record)
    (first : Nat) (head : (batch.map Prod.fst).headD 0 = first)
    (valid : first + walCapacity < 2 ^ 63) (reachable : Reachable w flushed (first / walCapacity)) :
    ∃ opened i, opened.disk.dir.lookup (first / walCapacity) = some i ∧
      opened.currentFile = some (first / walCapacity, i) ∧
      OnDisk opened flushed marked ∧ Touches w opened (first / walCapacity) ∧
      writeBatchToDisk clock copy w batch =
        ((appendBatch clock copy batch (opened.disk.inode i)).1,
          { opened with
            disk := opened.disk.update i (appendBatch clock copy batch (opened.disk.inode i)).2 }) := by
  obtain ⟨w', ensured, inv', touches⟩ := inv.ensureFile first batch valid reachable
  obtain ⟨i, found⟩ := Option.isSome_iff_exists.mp touches.exists_file
  refine ⟨{ w' with currentFile := some (first / walCapacity, i) }, i, found, rfl,
    inv'.opened found, ?_, ?_⟩
  · exact ⟨touches.globalTxId, touches.walBuffer, touches.ramCompletedTx, touches.present,
      touches.threads⟩
  · simp only [writeBatchToDisk, head, ensured, inv'.getOpenFile found]

/-- A batch as the writer forms it: consecutive ids from `first` on, all of one file. -/
structure IsBatch (batch : List Record) (first : Nat) : Prop where
  nonempty : batch ≠ []
  ids : batch.map Prod.fst = List.range' first batch.length
  home : ∀ r ∈ batch, r.1 / walCapacity = first / walCapacity

theorem IsBatch.getElem {batch : List Record} {first : Nat} (formed : IsBatch batch first)
    (i : Nat) (inside : i < batch.length) : batch[i].1 = first + i := by
  have mapped : (batch.map Prod.fst)[i]? = some batch[i].1 := by simp [inside]
  rw [formed.ids, List.getElem?_range' inside, Option.some.injEq] at mapped
  omega

theorem IsBatch.bounds {batch : List Record} {first : Nat} (formed : IsBatch batch first)
    {r : Record} (member : r ∈ batch) : first ≤ r.1 ∧ r.1 < first + batch.length := by
  obtain ⟨i, inside, rfl⟩ := List.getElem_of_mem member
  have place := formed.getElem i inside
  omega

theorem IsBatch.head {batch : List Record} {first : Nat} (formed : IsBatch batch first) :
    (batch.map Prod.fst).headD 0 = first := by
  have positive := List.length_pos_iff.mpr formed.nonempty
  rw [formed.ids]
  cases count : batch.length with
  | zero => omega
  | succ count => rfl

/-- The last id of a batch is still one of its file. -/
theorem IsBatch.inFile {batch : List Record} {first : Nat} (formed : IsBatch batch first) :
    first % walCapacity + batch.length ≤ walCapacity := by
  have positive := List.length_pos_iff.mpr formed.nonempty
  have last := formed.getElem (batch.length - 1) (by omega)
  have home := formed.home _ (List.getElem_mem (show batch.length - 1 < batch.length by omega))
  rw [last] at home
  simp only [walCapacity] at home ⊢
  omega

/-- The records before a batch have filled its file exactly up to its first slot. -/
def Aligned (flushed : List Record) (first : Nat) : Prop :=
  (fileRecords flushed (first / walCapacity)).length = first % walCapacity

/-- A batch that fits is appended to its open file, in the slots of its ids. -/
theorem OnDisk.append_fits {w : Wal} {flushed batch : List Record} {done done' : Finset Nat}
    {first i : Nat} (inv : OnDisk w flushed done)
    (found : w.disk.dir.lookup (first / walCapacity) = some i) (formed : IsBatch batch first)
    (payloads : ∀ r ∈ batch, r.2 ≠ []) (clock : Nat → Nat) (copy : Finset Nat)
    (valid : first + walCapacity < 2 ^ 63)
    (before : ∀ r ∈ flushed, r.1 < first) (aligned : Aligned flushed first)
    (fits : payloadBytes (fileRecords flushed (first / walCapacity)) + payloadBytes batch ≤
      payloadAreaSize)
    (kept : ∀ r ∈ flushed, r.1 ∈ done' ↔ r.1 ∈ done)
    (copied : ∀ r ∈ batch, r.1 ∈ done' ↔ r.1 ∈ copy) :
    appendBatch clock copy batch (w.disk.inode i) = (.ok (), writtenFile clock copy batch
        (fileRecords flushed (first / walCapacity)).length
        (fileRecords flushed (first / walCapacity)).length
        (payloadBytes (fileRecords flushed (first / walCapacity))) (w.disk.inode i)) ∧
      OnDisk { w with disk := w.disk.update i (writtenFile clock copy batch
        (fileRecords flushed (first / walCapacity)).length
        (fileRecords flushed (first / walCapacity)).length
        (payloadBytes (fileRecords flushed (first / walCapacity))) (w.disk.inode i)) }
        (flushed ++ batch) done' := by
  have layout := inv.files _ _ (FileSystem.file_of_lookup found)
  have room := formed.inFile
  have split := Nat.div_add_mod first walCapacity
  rw [Nat.mul_comm] at split
  have small : first % walCapacity < walCapacity := Nat.mod_lt _ (by decide)
  have slot : getSlotIndex ((batch.map Prod.fst).headD 0) =
      (fileRecords flushed (first / walCapacity)).length := by
    rw [formed.head, getSlotIndex, aligned]
  have validIds : ∀ r ∈ batch, r.1 < 2 ^ 63 := by
    intro r member
    have bounds := formed.bounds member
    omega
  have accepted := layout.appendBatch_fits clock copy batch (by omega) validIds fits
  rw [slot] at accepted
  rw [Aligned] at aligned
  have keptHere : ∀ r ∈ fileRecords flushed (first / walCapacity), r.1 ∈ done' ↔ r.1 ∈ done :=
    fun r member => kept r (mem_fileRecords.mp member).1
  have extended := layout.append clock copy batch
    (fun i inside => by rw [formed.getElem i inside]; omega) (by omega) (by omega) fits
    keptHere copied
  have ascending : ((flushed ++ batch).map Prod.fst).Pairwise (· < ·) := by
    rw [List.map_append, List.pairwise_append, formed.ids]
    refine ⟨inv.ascending, List.pairwise_lt_range', ?_⟩
    intro txId member txId' member'
    obtain ⟨r, inside, rfl⟩ := List.mem_map.mp member
    have := before r inside
    have := List.mem_range'_1.mp member'
    omega
  have nonempty : ∀ r ∈ flushed ++ batch, r.2 ≠ [] := by
    intro r member
    exact (List.mem_append.mp member).elim (inv.nonempty r) (payloads r)
  refine ⟨accepted, ?_⟩
  apply inv.update found _ _ _ ascending nonempty
  · rw [fileRecords_append, fileRecords_all formed.home]
    exact extended
  · intro other different
    rw [fileRecords_append, fileRecords_none formed.home different, List.append_nil]
  · intro r member _
    exact kept r member

/-- A batch that fits in its file is added to the records, with the flags of the
copied completion set. -/
theorem OnDisk.writeBatch_fits {w : Wal} {flushed batch : List Record} {done done' : Finset Nat}
    {first : Nat} (inv : OnDisk w flushed done) (formed : IsBatch batch first)
    (payloads : ∀ r ∈ batch, r.2 ≠ [])
    (clock : Nat → Nat) (copy : Finset Nat) (valid : first + walCapacity < 2 ^ 63)
    (reachable : Reachable w flushed (first / walCapacity))
    (before : ∀ r ∈ flushed, r.1 < first) (aligned : Aligned flushed first)
    (fits : payloadBytes (fileRecords flushed (first / walCapacity)) + payloadBytes batch ≤
      payloadAreaSize)
    (kept : ∀ r ∈ flushed, r.1 ∈ done' ↔ r.1 ∈ done)
    (copied : ∀ r ∈ batch, r.1 ∈ done' ↔ r.1 ∈ copy) :
    ∃ w', writeBatchToDisk clock copy w batch = (.ok (), w') ∧
      OnDisk w' (flushed ++ batch) done' ∧ Touches w w' (first / walCapacity) ∧
      ∃ handle, w'.currentFile = some (first / walCapacity, handle) := by
  obtain ⟨opened, i, found, current, inv', touches, written⟩ :=
    inv.openBatchFile clock copy batch first formed.head valid reachable
  obtain ⟨accepted, extended⟩ := inv'.append_fits found formed payloads clock copy valid before
    aligned fits kept copied
  rw [accepted] at written
  refine ⟨_, written, extended, ?_, i, current⟩
  exact ⟨touches.globalTxId, touches.walBuffer, touches.ramCompletedTx, touches.present,
    touches.threads⟩

/-- A batch that does not fit raises and leaves every record and flag as it was. -/
theorem OnDisk.writeBatch_overflow {w : Wal} {flushed batch : List Record} {done : Finset Nat}
    {first : Nat} (inv : OnDisk w flushed done) (formed : IsBatch batch first)
    (clock : Nat → Nat) (copy : Finset Nat) (valid : first + walCapacity < 2 ^ 63)
    (reachable : Reachable w flushed (first / walCapacity))
    (overflow : payloadAreaSize <
      payloadBytes (fileRecords flushed (first / walCapacity)) + payloadBytes batch) :
    ∃ e w', writeBatchToDisk clock copy w batch = (.error e, w') ∧
      OnDisk w' flushed done ∧ Touches w w' (first / walCapacity) ∧
      ∃ handle, w'.currentFile = some (first / walCapacity, handle) := by
  obtain ⟨opened, i, found, current, inv', touches, written⟩ :=
    inv.openBatchFile clock copy batch first formed.head valid reachable
  have layout := inv'.files _ _ (FileSystem.file_of_lookup found)
  obtain ⟨e, refused⟩ := layout.appendBatch_overflow clock copy batch formed.nonempty overflow
  rw [refused] at written
  refine ⟨e, _, written, ?_, ?_, i, current⟩
  · apply inv'.update found layout _ _ inv.ascending inv.nonempty
    · intro other _
      rfl
    · intro r _ _
      rfl
  · exact ⟨touches.globalTxId, touches.walBuffer, touches.ramCompletedTx, touches.present,
      touches.threads⟩

/-- `w'` differs from `w` at most in the content of existing files and in which of
them is the open one. -/
structure KeepsNames (w w' : Wal) : Prop where
  globalTxId : w'.globalTxId = w.globalTxId
  walBuffer : w'.walBuffer = w.walBuffer
  ramCompletedTx : w'.ramCompletedTx = w.ramCompletedTx
  preallocating : w'.preallocating = w.preallocating
  dir : w'.disk.dir = w.disk.dir
  current : ∀ path handle, w'.currentFile = some (path, handle) →
    w.currentFile = some (path, handle) ∨ w.disk.present path = true

theorem KeepsNames.refl (w : Wal) : KeepsNames w w :=
  ⟨rfl, rfl, rfl, rfl, rfl, fun _ _ => Or.inl⟩

theorem KeepsNames.present {w w' : Wal} (keeps : KeepsNames w w') (fileId : Nat) :
    w'.disk.present fileId = w.disk.present fileId := by
  simp only [FileSystem.present, keeps.dir]

theorem KeepsNames.trans {w w' w'' : Wal} (first : KeepsNames w w') (second : KeepsNames w' w'') :
    KeepsNames w w'' := by
  refine ⟨by rw [second.globalTxId, first.globalTxId], by rw [second.walBuffer, first.walBuffer],
    by rw [second.ramCompletedTx, first.ramCompletedTx],
    by rw [second.preallocating, first.preallocating], by rw [second.dir, first.dir], ?_⟩
  intro path handle opened
  rcases second.current path handle opened with before | known
  · exact first.current path handle before
  · rw [first.present] at known
    exact Or.inr known

/-- Marking ids of one file sets exactly the flags of its records among them. -/
theorem OnDisk.markFile {w : Wal} {flushed : List Record} {done : Finset Nat}
    (inv : OnDisk w flushed done) (fileId : Nat) (txIds : List Nat)
    (home : ∀ txId ∈ txIds, txId / walCapacity = fileId) :
    OnDisk (Wal.markFile w fileId txIds) flushed (done ∪ txIds.toFinset) ∧
      KeepsNames w (Wal.markFile w fileId txIds) := by
  unfold Wal.markFile
  split
  · rename_i known
    obtain ⟨i, found⟩ := Option.isSome_iff_exists.mp known
    have layout := inv.files _ _ (FileSystem.file_of_lookup found)
    simp only [inv.getOpenFile found]
    refine ⟨(inv.opened found).update found (layout.markAll txIds home) (fun _ _ => rfl) ?_
      inv.ascending inv.nonempty, rfl, rfl, rfl, rfl, rfl, ?_⟩
    · intro r member other
      have unnamed : r.1 ∉ txIds := fun named => other (home r.1 named)
      simp only [Finset.mem_union, List.mem_toFinset, unnamed, or_false]
    · intro path handle opened
      cases opened
      exact Or.inr known
  · rename_i missing
    refine ⟨inv.congr ?_, KeepsNames.refl w⟩
    intro r member
    -- a missing file has only marked records, so there is nothing left to mark in it
    simp only [Finset.mem_union, List.mem_toFinset, or_iff_left_iff_imp]
    intro named
    refine (inv.kept r member).resolve_right ?_
    rw [home r.1 named]
    exact missing

theorem OnDisk.markGroups {w : Wal} {flushed : List Record} {done : Finset Nat}
    (inv : OnDisk w flushed done) (groups : List (Nat × List Nat))
    (home : ∀ group ∈ groups, ∀ txId ∈ group.2, txId / walCapacity = group.1) :
    OnDisk (groups.foldl (fun w group => Wal.markFile w group.1 group.2) w) flushed
        (done ∪ (groups.flatMap Prod.snd).toFinset) ∧
      KeepsNames w (groups.foldl (fun w group => Wal.markFile w group.1 group.2) w) := by
  induction groups generalizing w done with
  | nil => exact ⟨by simpa using inv, KeepsNames.refl w⟩
  | cons group rest ih =>
      obtain ⟨marked, keeps⟩ := inv.markFile group.1 group.2 (home group List.mem_cons_self)
      obtain ⟨later, keeps'⟩ :=
        ih marked (fun other member => home other (List.mem_cons_of_mem _ member))
      refine ⟨?_, keeps.trans keeps'⟩
      rw [List.flatMap_cons, List.toFinset_append, ← Finset.union_assoc]
      exact later

/-- The disk part of a mark sets the flags of the named records, wherever they lie. -/
theorem OnDisk.markDisk {w : Wal} {flushed : List Record} {done : Finset Nat}
    (inv : OnDisk w flushed done) (txIds : List Nat)
    (valid : ∀ r ∈ flushed, r.1 < 2 ^ 63) :
    OnDisk (Wal.markDisk w txIds) flushed (done ∪ txIds.toFinset) ∧
      KeepsNames w (Wal.markDisk w txIds) := by
  obtain ⟨marked, keeps⟩ := inv.markGroups
    (Grouping.groupBy (fun txId => txId / walCapacity)
      (txIds.filter (fun txId => (validateTxId txId).isOk)))
    (fun group member txId inside => ((Grouping.mem_groupBy member).2 txId inside).1)
  refine ⟨marked.congr ?_, keeps⟩
  intro r member
  have accepted := validateTxId_ok (valid r member)
  simp only [Finset.mem_union, List.mem_toFinset, List.mem_flatMap]
  constructor
  · rintro (old | named)
    · exact Or.inl old
    · have listed : r.1 ∈ txIds.filter (fun txId => (validateTxId txId).isOk) := by
        rw [List.mem_filter, accepted]
        exact ⟨named, rfl⟩
      exact Or.inr (Grouping.groupBy_covers _ listed)
  · rintro (old | ⟨group, inside, here⟩)
    · exact Or.inl old
    · have named := ((Grouping.mem_groupBy inside).2 r.1 here).2
      exact Or.inr (List.mem_of_mem_filter named)

end CachyDb.Wal
