import CachyDb.Wal.Operations

set_option autoImplicit false

/-! A whole flush: the buffer is cut at the file boundaries and the pieces are
written one after another, until one does not fit. -/

namespace CachyDb.Wal

open ByteString

/-- The pieces follow each other in id order, and every piece but the last ends
with the last slot of its file. -/
def Chain : Nat → List (List Record) → Prop
  | _, [] => True
  | first, batch :: rest =>
      IsBatch batch first ∧ (rest ≠ [] → (first + batch.length) % walCapacity = 0) ∧
        Chain (first + batch.length) rest

theorem ids_append {front back : List Record} {first : Nat}
    (ids : (front ++ back).map Prod.fst = List.range' first (front ++ back).length) :
    front.map Prod.fst = List.range' first front.length ∧
      back.map Prod.fst = List.range' (first + front.length) back.length := by
  rw [List.map_append, List.length_append, ← List.range'_append_1] at ids
  apply List.append_inj ids
  rw [List.length_map, List.length_range']

theorem chain_of_groups (groups : List (Nat × List Record)) (first : Nat)
    (ordered : (groups.map Prod.fst).Pairwise (· < ·))
    (own : ∀ group ∈ groups, group.2 ≠ [] ∧ ∀ r ∈ group.2, r.1 / walCapacity = group.1)
    (ids : (groups.flatMap Prod.snd).map Prod.fst =
      List.range' first (groups.flatMap Prod.snd).length) :
    Chain first (groups.map Prod.snd) := by
  induction groups generalizing first with
  | nil => trivial
  | cons group rest ih =>
      rw [List.map_cons, List.pairwise_cons] at ordered
      rw [List.flatMap_cons] at ids
      obtain ⟨here, later⟩ := ids_append ids
      obtain ⟨some_record, home⟩ := own group List.mem_cons_self
      obtain ⟨r, tail, shape⟩ := List.exists_cons_of_ne_nil some_record
      have start : r.1 = first := by
        rw [shape, List.map_cons, List.length_cons, List.range'_succ] at here
        exact (List.cons.inj here).1
      have key : first / walCapacity = group.1 := by
        rw [← start]
        exact home r (by rw [shape]; exact List.mem_cons_self)
      have formed : IsBatch group.2 first :=
        ⟨some_record, here, fun r member => by rw [home r member, key]⟩
      refine ⟨formed, ?_, ih _ ordered.2 (fun g member => own g (List.mem_cons_of_mem _ member))
        later⟩
      intro more
      -- the next group has a larger key, so its first id starts a new file
      obtain ⟨next, others, shape'⟩ :=
        List.exists_cons_of_ne_nil (show rest ≠ [] by rintro rfl; exact more rfl)
      obtain ⟨some_next, home'⟩ :=
        own next (by rw [shape']; exact List.mem_cons_of_mem _ List.mem_cons_self)
      obtain ⟨r', tail', shape''⟩ := List.exists_cons_of_ne_nil some_next
      have start' : r'.1 = first + group.2.length := by
        rw [shape', List.flatMap_cons, shape'', List.cons_append, List.map_cons,
          List.length_cons, List.range'_succ] at later
        exact (List.cons.inj later).1
      have key' : (first + group.2.length) / walCapacity = next.1 := by
        rw [← start']
        exact home' r' (by rw [shape'']; exact List.mem_cons_self)
      have larger := ordered.1 next.1 (by rw [shape']; exact List.mem_cons_self)
      have within := formed.inFile
      simp only [walCapacity] at *
      omega

/-- The first piece is the part of the buffer that belongs to its file. -/
theorem Chain.head_records {batch : List Record} {rest : List (List Record)} {first : Nat}
    (chain : Chain first (batch :: rest))
    (ids : (batch ++ rest.flatten).map Prod.fst =
      List.range' first (batch ++ rest.flatten).length) :
    fileRecords (batch ++ rest.flatten) (first / walCapacity) = batch := by
  obtain ⟨formed, boundary, _⟩ := chain
  have later : fileRecords rest.flatten (first / walCapacity) = [] := by
    rw [List.eq_nil_iff_forall_not_mem]
    intro r member
    obtain ⟨inside, home⟩ := mem_fileRecords.mp member
    have more : rest ≠ [] := by
      intro empty
      rw [empty] at inside
      cases inside
    have above := List.mem_range'_1.mp ((ids_append ids).2 ▸ List.mem_map_of_mem inside)
    have newFile := boundary more
    have positive := List.length_pos_iff.mpr formed.nonempty
    simp only [walCapacity] at *
    omega
  rw [fileRecords_append, fileRecords_all formed.home, later, List.append_nil]

theorem Chain.ids {batches : List (List Record)} {first : Nat} (chain : Chain first batches) :
    batches.flatten.map Prod.fst = List.range' first batches.flatten.length := by
  induction batches generalizing first with
  | nil => rfl
  | cons batch rest ih =>
      obtain ⟨formed, _, later⟩ := chain
      rw [List.flatten_cons, List.map_append, List.length_append, formed.ids, ih later,
        List.range'_append_1]

/-- The file batches of a buffer of consecutive ids form a chain. -/
theorem fileBatches_chain {buffer : List Record} {first : Nat}
    (ids : buffer.map Prod.fst = List.range' first buffer.length) :
    Chain first (fileBatches buffer) ∧ (fileBatches buffer).flatten = buffer := by
  have ascending : (buffer.map (fun r => r.1 / walCapacity)).Pairwise (· ≤ ·) := by
    have strict : (buffer.map Prod.fst).Pairwise (· < ·) := by
      rw [ids]
      exact List.pairwise_lt_range'
    rw [List.pairwise_map] at strict ⊢
    exact strict.imp fun below => Nat.div_le_div_right (Nat.le_of_lt below)
  obtain ⟨ordered, flat⟩ := Grouping.groupBy_ascending ascending
  have whole : (fileBatches buffer).flatten = buffer := by
    rw [fileBatches, ← List.flatMap_def]
    exact flat
  refine ⟨?_, whole⟩
  apply chain_of_groups _ _ ordered
  · intro group member
    obtain ⟨nonempty, each⟩ := Grouping.mem_groupBy member
    exact ⟨nonempty, fun r inside => (each r inside).1⟩
  · rw [flat]
    exact ids

/-- Records below a file boundary leave the file behind it empty. -/
theorem aligned_boundary {flushed : List Record} {first : Nat}
    (before : ∀ r ∈ flushed, r.1 < first) (boundary : first % walCapacity = 0) :
    Aligned flushed first := by
  have none : fileRecords flushed (first / walCapacity) = [] := by
    rw [List.eq_nil_iff_forall_not_mem]
    intro r member
    obtain ⟨inside, home⟩ := mem_fileRecords.mp member
    have below := before r inside
    simp only [walCapacity] at *
    omega
  rw [Aligned, none, boundary]
  rfl

theorem IsBatch.aligned {flushed batch : List Record} {first : Nat} (formed : IsBatch batch first)
    (before : ∀ r ∈ flushed, r.1 < first) (aligned : Aligned flushed first) :
    Aligned (flushed ++ batch) (first + batch.length) := by
  by_cases boundary : (first + batch.length) % walCapacity = 0
  · apply aligned_boundary _ boundary
    intro r member
    rcases List.mem_append.mp member with old | new
    · have := before r old
      omega
    · exact (formed.bounds new).2
  · have within := formed.inFile
    have same : (first + batch.length) / walCapacity = first / walCapacity := by
      simp only [walCapacity] at *
      omega
    rw [Aligned, same, fileRecords_append, fileRecords_all formed.home, List.length_append, aligned]
    simp only [walCapacity] at *
    omega

/-- When the newest id was lost, its file is out of step or just full. -/
theorem lost_or_aligned {flushed : List Record} {lost : List Nat} {first : Nat}
    (before : ∀ r ∈ flushed, r.1 < first) (positive : 0 < first) (newest : first - 1 ∈ lost) :
    (∃ txId ∈ lost, txId / walCapacity = first / walCapacity) ∨ Aligned flushed first := by
  by_cases sameFile : (first - 1) / walCapacity = first / walCapacity
  · exact Or.inl ⟨_, newest, sameFile⟩
  · right
    apply aligned_boundary before
    simp only [walCapacity] at *
    omega

/-- The state between two batches: every written record has its file, the cached
handle belongs to an existing file, and the next id to write is `first`. -/
structure Settled (w : Wal) (written : List Record) (marked : Finset Nat) (first : Nat) : Prop where
  disk : OnDisk w written marked
  homes : ∀ r ∈ written, w.disk.present (r.1 / walCapacity) = true
  current : ∀ path handle, w.currentFile = some (path, handle) → w.disk.present path = true
  before : ∀ r ∈ written, r.1 < first

theorem Settled.reachable {w : Wal} {written : List Record} {marked : Finset Nat} {first : Nat}
    (settled : Settled w written marked first) (fileId : Nat) : Reachable w written fileId := by
  by_cases known : w.disk.present fileId = true
  · exact Or.inl known
  · refine Or.inr ⟨?_, ?_⟩
    · rw [List.eq_nil_iff_forall_not_mem]
      intro r member
      obtain ⟨inside, home⟩ := mem_fileRecords.mp member
      exact known (by rw [← home]; exact settled.homes r inside)
    · intro handle opened
      exact known (settled.current fileId handle opened)

theorem Settled.frame {w w' : Wal} {written : List Record} {marked : Finset Nat} {first : Nat}
    (settled : Settled w written marked first) (disk : w'.disk = w.disk)
    (current : w'.currentFile = w.currentFile) : Settled w' written marked first := by
  refine ⟨settled.disk.frame disk current, ?_, ?_, settled.before⟩
  · rw [disk]
    exact settled.homes
  · rw [disk, current]
    exact settled.current

theorem Settled.later {w : Wal} {written : List Record} {marked : Finset Nat} {first first' : Nat}
    (settled : Settled w written marked first) (after : first ≤ first') :
    Settled w written marked first' :=
  ⟨settled.disk, settled.homes, settled.current,
    fun r member => Nat.lt_of_lt_of_le (settled.before r member) after⟩

/-- A new file changes no record. -/
theorem Settled.create {w : Wal} {written : List Record} {marked : Finset Nat} {first : Nat}
    (settled : Settled w written marked first) {fileId : Nat} (sizeBytes : Nat)
    (missing : ¬ w.disk.present fileId = true) (valid : fileId * walCapacity ≤ 2 ^ 63) :
    Settled { w with disk := preAllocateWal w.disk fileId sizeBytes } written marked first := by
  obtain ⟨unused, closed⟩ := (settled.reachable fileId).resolve_left missing
  have grows : ∀ other, w.disk.present other = true →
      (preAllocateWal w.disk fileId sizeBytes).present other = true := by
    intro other before
    rw [preAllocateWal_present, before, Bool.or_true]
  refine ⟨settled.disk.preAllocate fileId sizeBytes unused valid closed, ?_, ?_, settled.before⟩
  · exact fun r member => grows _ (settled.homes r member)
  · exact fun path handle opened => grows _ (settled.current path handle opened)

/-- No file holds more than its payload area. -/
theorem Settled.room {w : Wal} {written : List Record} {marked : Finset Nat} {first : Nat}
    (settled : Settled w written marked first) (fileId : Nat) :
    payloadBytes (fileRecords written fileId) ≤ payloadAreaSize := by
  by_cases known : w.disk.present fileId = true
  · obtain ⟨file, known⟩ := present_iff.mp known
    exact (settled.disk.files fileId file known).room
  · rw [((settled.reachable fileId).resolve_left known).1]
    exact Nat.zero_le _

/-- The ids on disk are in the range the id check accepts. -/
theorem Settled.valid {w : Wal} {written : List Record} {marked : Finset Nat} {first : Nat}
    (settled : Settled w written marked first) : ∀ r ∈ written, r.1 < 2 ^ 63 := by
  intro r member
  obtain ⟨file, known⟩ := present_iff.mp (settled.homes r member)
  have layout := settled.disk.files _ file known
  obtain ⟨i, inside, found⟩ := List.getElem_of_mem (mem_fileRecords.mpr ⟨member, rfl⟩)
  have slot := layout.slots i inside
  have valid := layout.valid
  rw [found] at slot
  omega

/-- `w'` is reached from `w` by writer steps: the fields under the lock are the
same, files only appear, and every new thread has a valid target. -/
structure Extends (w w' : Wal) : Prop where
  globalTxId : w'.globalTxId = w.globalTxId
  walBuffer : w'.walBuffer = w.walBuffer
  ramCompletedTx : w'.ramCompletedTx = w.ramCompletedTx
  present : ∀ fileId, w.disk.present fileId = true → w'.disk.present fileId = true
  threads : ∀ target ∈ w'.preallocating,
    target ∈ w.preallocating ∨ target * walCapacity ≤ 2 ^ 63

theorem Extends.refl (w : Wal) : Extends w w :=
  ⟨rfl, rfl, rfl, fun _ => id, fun _ => Or.inl⟩

theorem Extends.trans {w w' w'' : Wal} (first : Extends w w') (second : Extends w' w'') :
    Extends w w'' := by
  refine ⟨by rw [second.globalTxId, first.globalTxId], by rw [second.walBuffer, first.walBuffer],
    by rw [second.ramCompletedTx, first.ramCompletedTx],
    fun fileId known => second.present fileId (first.present fileId known), ?_⟩
  intro target member
  rcases second.threads target member with before | valid
  · exact first.threads target before
  · exact Or.inr valid

theorem Touches.extends {w w' : Wal} {first : Nat} (touches : Touches w w' (first / walCapacity))
    (valid : first + walCapacity < 2 ^ 63) : Extends w w' := by
  refine ⟨touches.globalTxId, touches.walBuffer, touches.ramCompletedTx, ?_, ?_⟩
  · intro fileId known
    rw [touches.present, known, Bool.or_true]
  · intro target member
    rcases touches.threads target member with before | next
    · exact Or.inl before
    · have low := div_mul_le first
      right
      rw [next, Nat.succ_mul]
      omega

/-- A batch in a settled directory either is added in whole or changes no record. -/
theorem Settled.writeBatch_fits {w : Wal} {written batch : List Record} {marked : Finset Nat}
    {first : Nat} (settled : Settled w written marked first) (formed : IsBatch batch first)
    (payloads : ∀ r ∈ batch, r.2 ≠ [])
    (clock : Nat → Nat) (copy : Finset Nat) (valid : first + walCapacity < 2 ^ 63)
    (aligned : Aligned written first) (copied : ∀ r ∈ batch, r.1 ∈ marked ↔ r.1 ∈ copy)
    (fits : payloadBytes (fileRecords written (first / walCapacity)) + payloadBytes batch ≤
      payloadAreaSize) :
    ∃ w', writeBatchToDisk clock copy w batch = (.ok (), w') ∧
      Settled w' (written ++ batch) marked (first + batch.length) ∧ Extends w w' := by
  obtain ⟨w', accepted, disk, touches, handle, current⟩ :=
    settled.disk.writeBatch_fits formed payloads clock copy valid (settled.reachable _) settled.before
      aligned fits (fun _ _ => Iff.rfl) copied
  refine ⟨w', accepted, ⟨disk, ?_, ?_, ?_⟩, touches.extends valid⟩
  · intro r member
    rcases List.mem_append.mp member with old | new
    · rw [touches.present, settled.homes r old, Bool.or_true]
    · rw [formed.home r new]
      exact touches.exists_file
  · intro path handle' opened
    rw [current] at opened
    cases opened
    exact touches.exists_file
  · intro r member
    rcases List.mem_append.mp member with old | new
    · have := settled.before r old
      omega
    · exact (formed.bounds new).2

theorem Settled.writeBatch_overflow {w : Wal} {written batch : List Record} {marked : Finset Nat}
    {first : Nat} (settled : Settled w written marked first) (formed : IsBatch batch first)
    (clock : Nat → Nat) (copy : Finset Nat) (valid : first + walCapacity < 2 ^ 63)
    (overflow : payloadAreaSize <
      payloadBytes (fileRecords written (first / walCapacity)) + payloadBytes batch) :
    ∃ e w', writeBatchToDisk clock copy w batch = (.error e, w') ∧
      Settled w' written marked first ∧ Extends w w' := by
  obtain ⟨e, w', refused, disk, touches, handle, current⟩ :=
    settled.disk.writeBatch_overflow formed clock copy valid (settled.reachable _) overflow
  refine ⟨e, w', refused, ⟨disk, ?_, ?_, settled.before⟩, touches.extends valid⟩
  · intro r member
    rw [touches.present, settled.homes r member, Bool.or_true]
  · intro path handle' opened
    rw [current] at opened
    cases opened
    exact touches.exists_file

/-- A chain of batches is written up to the first that overflows its file. -/
theorem Settled.writeBatches {w : Wal} {written : List Record} {marked : Finset Nat} {first : Nat}
    (batches : List (List Record)) (settled : Settled w written marked first)
    (chain : Chain first batches) (payloads : ∀ r ∈ batches.flatten, r.2 ≠ [])
    (clock : Nat → Nat) (copy : Finset Nat)
    (valid : ∀ r ∈ batches.flatten, r.1 + walCapacity < 2 ^ 63) (aligned : Aligned written first)
    (copied : ∀ r ∈ batches.flatten, r.1 ∈ marked ↔ r.1 ∈ copy) :
    ∃ outcome kept dropped w', Wal.writeBatches clock copy w batches = (outcome, kept, w') ∧
      batches.flatten = kept ++ dropped ∧
      Settled w' (written ++ kept) marked (first + kept.length) ∧ Extends w w' ∧
      (dropped = [] ∧ outcome = .ok () ∧ Aligned (written ++ kept) (first + kept.length) ∨
        dropped ≠ [] ∧ ∃ fileId,
          payloadAreaSize < payloadBytes (fileRecords (written ++ batches.flatten) fileId)) := by
  induction batches generalizing w written first with
  | nil =>
      refine ⟨.ok (), [], [], w, rfl, rfl, ?_, Extends.refl w, Or.inl ⟨rfl, rfl, ?_⟩⟩
      · simpa using settled
      · simpa using aligned
  | cons batch rest ih =>
      obtain ⟨formed, boundary, later⟩ := chain
      rw [List.flatten_cons] at payloads valid copied ⊢
      obtain ⟨r, tail, shape⟩ := List.exists_cons_of_ne_nil formed.nonempty
      have validFirst : first + walCapacity < 2 ^ 63 := by
        have low := (formed.bounds (show r ∈ batch by rw [shape]; exact List.mem_cons_self)).1
        have := valid r (List.mem_append_left _ (by rw [shape]; exact List.mem_cons_self))
        omega
      have copiedBatch : ∀ r ∈ batch, r.1 ∈ marked ↔ r.1 ∈ copy :=
        fun r member => copied r (List.mem_append_left _ member)
      by_cases fits : payloadBytes (fileRecords written (first / walCapacity)) +
          payloadBytes batch ≤ payloadAreaSize
      · obtain ⟨w', accepted, settled', extends'⟩ :=
          settled.writeBatch_fits formed (fun r member => payloads r (List.mem_append_left _ member))
            clock copy validFirst aligned copiedBatch fits
        obtain ⟨outcome, kept, dropped, w'', result, whole, final, reached, verdict⟩ :=
          ih settled' later (fun r member => payloads r (List.mem_append_right _ member))
            (fun r member => valid r (List.mem_append_right _ member))
            (formed.aligned settled.before aligned)
            (fun r member => copied r (List.mem_append_right _ member))
        refine ⟨outcome, batch ++ kept, dropped, w'', ?_, ?_, ?_, extends'.trans reached, ?_⟩
        · simp only [Wal.writeBatches, accepted, result]
        · rw [whole, List.append_assoc]
        · simpa only [List.append_assoc, List.length_append, Nat.add_assoc] using final
        · simpa only [List.append_assoc, List.length_append, Nat.add_assoc] using verdict
      · obtain ⟨e, w', refused, settled', extends'⟩ :=
          settled.writeBatch_overflow formed clock copy validFirst (by omega)
        refine ⟨.error e, [], batch ++ rest.flatten, w', ?_, rfl, ?_, extends', Or.inr ⟨?_, ?_⟩⟩
        · simp only [Wal.writeBatches, refused]
        · simpa using settled'
        · simp only [shape, List.cons_append, ne_eq, reduceCtorEq, not_false_eq_true]
        · refine ⟨first / walCapacity, ?_⟩
          simp only [fileRecords_append, payloadBytes_append, fileRecords_all formed.home]
          omega

theorem inBufferRange_iff {buffer : List Record} {first txId : Nat}
    (ids : buffer.map Prod.fst = List.range' first buffer.length) :
    inBufferRange buffer txId = true ↔ first ≤ txId ∧ txId < first + buffer.length := by
  cases buffer with
  | nil =>
      simp only [inBufferRange, List.head?_nil, Bool.false_eq_true, List.length_nil, Nat.add_zero,
        false_iff, not_and, Nat.not_lt]
      exact id
  | cons r rest =>
      obtain ⟨last, newest⟩ := Option.isSome_iff_exists.mp
        (show (r :: rest).getLast?.isSome from by simp)
      have place : last.1 = first + rest.length := by
        have mapped := congrArg List.getLast? ids
        rw [List.getLast?_map, newest, List.length_cons, List.getLast?_range'] at mapped
        simpa using mapped
      have start : r.1 = first := by
        rw [List.map_cons, List.length_cons, List.range'_succ] at ids
        exact (List.cons.inj ids).1
      simp only [inBufferRange, List.head?_cons, newest, start, place, Bool.and_eq_true,
        decide_eq_true_eq, List.length_cons]
      omega

theorem Settled.keeps {w w' : Wal} {written : List Record} {marked marked' : Finset Nat}
    {first : Nat} (settled : Settled w written marked first) (disk : OnDisk w' written marked')
    (keeps : KeepsNames w w') : Settled w' written marked' first := by
  refine ⟨disk, ?_, ?_, settled.before⟩
  · intro r member
    rw [keeps.present]
    exact settled.homes r member
  · intro path handle opened
    rw [keeps.present]
    exact (keeps.current path handle opened).elim (settled.current path handle) id

/-- The restored id is larger than every id on disk, and the first free slot of
the newest file is its own. -/
theorem Settled.restore {w : Wal} {written : List Record} {marked : Finset Nat} {first : Nat}
    (settled : Settled w written marked first) :
    ∃ txId, restoreGlobalTxId w.disk = .ok txId ∧ (∀ r ∈ written, r.1 < txId) ∧
      Aligned written txId := by
  have listed : ∀ r ∈ written, r.1 / walCapacity ∈ w.disk.sortedNames := fun r member =>
    FileSystem.mem_sortedNames.mpr (present_iff.mp (settled.homes r member))
  cases last : w.disk.sortedNames.getLast? with
  | none =>
      have empty : ∀ r ∈ written, r.1 < 0 := by
        intro r member
        have inside := listed r member
        rw [List.getLast?_eq_none_iff.mp last] at inside
        cases inside
      refine ⟨0, by rw [restoreGlobalTxId, last], empty, aligned_boundary empty rfl⟩
  | some newest =>
      obtain ⟨file, known⟩ := FileSystem.mem_sortedNames.mp (List.mem_of_getLast? last)
      have layout := settled.disk.files newest file known
      have length : (file.read 0 walFileHeaderSize).length = walFileHeaderSize := by
        rw [layout.header.read (packFileHeader_length _ _ _ _ rfl),
          packFileHeader_length _ _ _ _ rfl]
      have capacity := layout.capacity
      have above : ∀ r ∈ written,
          r.1 < newest * walCapacity + (fileRecords written newest).length := by
        intro r member
        have bound := FileSystem.le_of_getLast_sortedNames last (listed r member)
        by_cases here : r.1 / walCapacity = newest
        · obtain ⟨i, inside, found⟩ :=
            List.getElem_of_mem (mem_fileRecords.mpr ⟨member, here⟩)
          have slot := layout.slots i inside
          rw [found] at slot
          omega
        · simp only [walCapacity] at *
          omega
      refine ⟨newest * walCapacity + (fileRecords written newest).length, ?_, above, ?_⟩
      · simp only [restoreGlobalTxId, last, known, length, ↓reduceIte, layout.readHeader]
      · by_cases full : (fileRecords written newest).length = walCapacity
        · apply aligned_boundary above
          rw [full, ← Nat.succ_mul]
          exact Nat.mul_mod_left _ _
        · have file : (newest * walCapacity + (fileRecords written newest).length) / walCapacity =
              newest := by
            simp only [walCapacity] at *
            omega
          rw [Aligned, file]
          simp only [walCapacity] at *
          omega

end CachyDb.Wal
