import CachyDb.Wal.Counter
import CachyDb.Wal.Crash
import CachyDb.Wal.Log

set_option autoImplicit false

/-! The records of one `append_many_to_buffer` call under a crash: they reach the log
together when their ids belong to one file, and file by file otherwise. -/

namespace CachyDb.Wal

open ByteString Transition

/-- The records that a call adds to the buffer. -/
def callRecords (w : Wal) (payloads : List Bytes) : List Record :=
  (appendManyToBuffer w payloads).1.zip payloads

theorem appendMany_buffer (w : Wal) (payloads : List Bytes) :
    (appendManyToBuffer w payloads).2.walBuffer = w.walBuffer ++ callRecords w payloads := by
  induction payloads generalizing w with
  | nil => exact (List.append_nil _).symm
  | cons payload rest ih =>
      unfold callRecords appendManyToBuffer
      dsimp only
      rw [ih (appendToBuffer w payload).2, List.zip_cons_cons]
      exact (List.append_cons _ _ _).symm

namespace Log

/-- The disks that a crash can leave while the writer works on the buffer. -/
def crashDisks (clock : Nat → Nat) (s : Log) : List (FileSystem Nat) :=
  s.wal.disk :: flushTrace clock s.wal.ramCompletedTx
    { s.wal with walBuffer := [], ramCompletedTx := ∅ } (fileBatches s.wal.walBuffer)

/-- The reader yields all of these records that are not marked, or none of them. -/
def AllOrNone (disk : FileSystem Nat) (call : List Record) (marked : Finset Nat) : Prop :=
  (∀ r ∈ call, r.1 ∉ marked → r ∈ (Wal.readWal disk).records) ∨
    ∀ r ∈ call, r ∉ (Wal.readWal disk).records

/-- Two unmarked records of the call belong to different files, and the files up to the
first of them have room for what the buffer holds for them. -/
def Divided (s : Log) (call : List Record) : Prop :=
  ∃ r ∈ call, ∃ r' ∈ call, r.1 ∉ s.marked ∧ r'.1 ∉ s.marked ∧
    r.1 / walCapacity < r'.1 / walCapacity ∧
    RoomFor s.written
      (s.wal.walBuffer.filter fun other => other.1 / walCapacity ≤ r.1 / walCapacity)

/-- Where a crash may happen: as for a flush, and with no batch behind lost ids. -/
structure Sound (s : Log) : Prop where
  order : InOrder s
  valid : IdsValid s
  aligned : Aligned s.written s.next

theorem Sound.settled {s : Log} (sound : Sound s) :
    Settled { s.wal with walBuffer := [], ramCompletedTx := ∅ } s.written s.marked s.next :=
  sound.order.settled.frame rfl rfl

theorem Sound.small {s : Log} (sound : Sound s) :
    ∀ r ∈ s.wal.walBuffer, r.1 + walCapacity < 2 ^ 63 :=
  fun r member => validateTxId_iff.mp (sound.valid r member)

/-- Whatever the moment of the crash, the reader finds the first few batches. -/
theorem Sound.crash {s : Log} (sound : Sound s) (clock : Nat → Nat) {disk : FileSystem Nat}
    (member : disk ∈ crashDisks clock s) :
    ∃ finished rest, fileBatches s.wal.walBuffer = finished ++ rest ∧
      Wal.readWal disk =
        ⟨(s.written ++ finished.flatten).filter (fun r => r.1 ∉ s.marked), false⟩ ∧
      RoomFor s.written finished.flatten := by
  obtain ⟨chain, flat⟩ := fileBatches_chain sound.order.ids
  obtain ⟨finished, rest, split, readable, room⟩ := sound.settled.flushTrace _ chain
    (by rw [flat]; exact sound.order.payloads) clock s.wal.ramCompletedTx
    (by rw [flat]; exact sound.small) sound.aligned
    (by rw [flat]; exact sound.order.pending) member
  exact ⟨finished, rest, split, readable.readWal, room⟩

/-- A record of the buffer is not among the older ones. -/
theorem Sound.fresh {s : Log} (sound : Sound s) {r : Record} (member : r ∈ s.wal.walBuffer) :
    r ∉ s.written := by
  intro old
  have before := sound.order.settled.before r old
  have after := List.mem_range'_1.mp (sound.order.ids ▸ List.mem_map_of_mem member)
  omega

theorem Sound.read_iff {s : Log} (sound : Sound s) {finished : List (List Record)}
    {disk : FileSystem Nat}
    (read : Wal.readWal disk =
      ⟨(s.written ++ finished.flatten).filter (fun r => r.1 ∉ s.marked), false⟩)
    {r : Record} (member : r ∈ s.wal.walBuffer) :
    r ∈ (Wal.readWal disk).records ↔ r ∈ finished.flatten ∧ r.1 ∉ s.marked := by
  rw [read]
  simp only [List.mem_filter, List.mem_append, decide_eq_true_eq, and_congr_left_iff]
  intro _
  exact ⟨fun either => either.resolve_left (sound.fresh member), Or.inr⟩

/-- The files up to that of a finished record had room for their part of the buffer. -/
theorem Sound.roomFor_finished {s : Log} (sound : Sound s) {finished rest : List (List Record)}
    (split : fileBatches s.wal.walBuffer = finished ++ rest)
    (room : RoomFor s.written finished.flatten) {r : Record} (member : r ∈ finished.flatten) :
    RoomFor s.written
      (s.wal.walBuffer.filter fun other => other.1 / walCapacity ≤ r.1 / walCapacity) := by
  obtain ⟨chain, flat⟩ := fileBatches_chain sound.order.ids
  rw [split] at chain flat
  rw [List.flatten_append] at flat
  intro fileId some
  have same : fileRecords (s.wal.walBuffer.filter fun other =>
      other.1 / walCapacity ≤ r.1 / walCapacity) fileId = fileRecords finished.flatten fileId := by
    obtain ⟨other, inside⟩ := List.exists_mem_of_ne_nil _ some
    obtain ⟨kept, home⟩ := mem_fileRecords.mp inside
    have low := (List.mem_filter.mp kept).2
    rw [decide_eq_true_eq, home] at low
    have behind : fileRecords rest.flatten fileId = [] := by
      rw [List.eq_nil_iff_forall_not_mem]
      intro later inside
      obtain ⟨after, home'⟩ := mem_fileRecords.mp inside
      have := chain.later_files r member later after
      omega
    rw [← flat, List.filter_append, fileRecords_append]
    have gone : fileRecords (rest.flatten.filter fun other =>
        other.1 / walCapacity ≤ r.1 / walCapacity) fileId = [] := by
      rw [List.eq_nil_iff_forall_not_mem]
      intro later inside
      obtain ⟨after, home'⟩ := mem_fileRecords.mp inside
      have here := mem_fileRecords.mpr ⟨List.mem_of_mem_filter after, home'⟩
      rw [behind] at here
      cases here
    rw [gone, List.append_nil]
    unfold fileRecords
    rw [List.filter_filter]
    apply List.filter_congr
    intro other _
    by_cases home : other.1 / walCapacity = fileId
    · rw [home]
      simp only [low, decide_true, Bool.and_true]
    · simp only [home, decide_false, Bool.false_and]
  rw [fileRecords_append, same, ← fileRecords_append]
  exact room fileId (same ▸ some)

/-- Every crash leaves all or none of the records exactly when they are not divided. -/
theorem Sound.allOrNone_iff {s : Log} (sound : Sound s) (clock : Nat → Nat) {call : List Record}
    (waiting : ∀ r ∈ call, r ∈ s.wal.walBuffer) :
    (∀ disk ∈ crashDisks clock s, AllOrNone disk call s.marked) ↔ ¬ Divided s call := by
  constructor
  · rintro each ⟨r, member, r', member', unmarked, unmarked', before, room⟩
    obtain ⟨chain, flat⟩ := fileBatches_chain sound.order.ids
    obtain ⟨finished, rest, split, low, high⟩ := chain.split_at (r.1 / walCapacity)
    have inBuffer : ∀ other ∈ finished.flatten, other ∈ s.wal.walBuffer := by
      intro other inside
      rw [← flat, split, List.flatten_append]
      exact List.mem_append_left _ inside
    have part : s.wal.walBuffer.filter (fun other => other.1 / walCapacity ≤ r.1 / walCapacity) =
        finished.flatten := by
      rw [← flat, split, List.flatten_append, List.filter_append]
      have none : rest.flatten.filter
          (fun other => decide (other.1 / walCapacity ≤ r.1 / walCapacity)) = [] := by
        rw [List.filter_eq_nil_iff]
        intro other inside
        have := high other inside
        simp only [decide_eq_true_eq]
        omega
      rw [none, List.append_nil, List.filter_eq_self]
      intro other inside
      exact decide_eq_true (low other inside)
    rw [split] at chain
    obtain ⟨disk, reached, readable⟩ := sound.settled.flushTrace_reaches finished rest chain
      (fun other inside => sound.order.payloads other (inBuffer other inside)) clock
      s.wal.ramCompletedTx (fun other inside => sound.small other (inBuffer other inside))
      sound.aligned (fun other inside => sound.order.pending other (inBuffer other inside))
      (part ▸ room)
    rw [← split] at reached
    have read := readable.readWal
    have here : r ∈ (Wal.readWal disk).records := by
      rw [sound.read_iff read (waiting r member), ← part]
      exact ⟨List.mem_filter.mpr ⟨waiting r member, decide_eq_true (Nat.le_refl _)⟩, unmarked⟩
    rcases each disk reached with all | none
    · have there := (sound.read_iff read (waiting r' member')).mp (all r' member' unmarked')
      have := low r' there.1
      omega
    · exact none r member here
  · intro whole disk reached
    obtain ⟨finished, rest, split, read, room⟩ := sound.crash clock reached
    by_cases found : ∃ r ∈ call, r ∈ (Wal.readWal disk).records
    · left
      obtain ⟨r, member, here⟩ := found
      obtain ⟨inside, unmarked⟩ := (sound.read_iff read (waiting r member)).mp here
      intro r' member' unmarked'
      rw [sound.read_iff read (waiting r' member')]
      refine ⟨?_, unmarked'⟩
      by_contra outside
      apply whole
      refine ⟨r, member, r', member', unmarked, unmarked', ?_,
        sound.roomFor_finished split room inside⟩
      obtain ⟨chain, flat⟩ := fileBatches_chain sound.order.ids
      rw [split] at chain flat
      apply chain.later_files r inside
      have either := waiting r' member'
      rw [← flat, List.flatten_append] at either
      exact (List.mem_append.mp either).resolve_left outside
    · right
      intro r member here
      exact found ⟨r, member, here⟩

/-- Events between the call and the flush of its records. -/
def Event.Quiet : Event → Prop
  | .flush _ => False
  | .restart => False
  | _ => True

/-- Nothing but the buffer, the marks and new files changes before the flush. -/
theorem InOrder.quiet {s t : Log} {later : List Event} (inv : InOrder s)
    (waiting : Run (Guarded Step fun _ e => e.NonEmpty ∧ e.Quiet) s later t) :
    InOrder t ∧ ∃ back, t.wal.walBuffer = s.wal.walBuffer ++ back := by
  apply waiting.preserves (P := fun t => InOrder t ∧ ∃ back,
    t.wal.walBuffer = s.wal.walBuffer ++ back)
  · exact ⟨inv, [], (List.append_nil _).symm⟩
  · rintro u e v ⟨inv, back, buffer⟩ ⟨step, nonempty, quiet⟩
    cases step with
    | append payload =>
        refine ⟨inv.append payload nonempty, back ++ [(u.wal.globalTxId, payload)], ?_⟩
        rw [← List.append_assoc, ← buffer]
        rfl
    | appendMany payloads =>
        refine ⟨inv.appendMany payloads nonempty, back ++ callRecords u.wal payloads, ?_⟩
        rw [← List.append_assoc, ← buffer]
        exact appendMany_buffer u.wal payloads
    | flush clock => cases quiet
    | preAllocate fileId started =>
        refine ⟨inv.preAllocate fileId started, back, ?_⟩
        rw [← buffer]
        simp only [Log.preAllocate, runPreAllocation, preAllocateAsync]
        split <;> rfl
    | mark txIds passed =>
        refine ⟨inv.mark txIds passed, back, ?_⟩
        rw [inv.mark_buffer, buffer]
    | restart opened reopened => cases quiet

/-- No id was lost in the file that the next batch goes to. -/
def Unspoiled (s : Log) : Prop := ∀ txId ∈ s.lost, txId / walCapacity ≠ s.next / walCapacity

theorem InOrder.sound {s : Log} (inv : InOrder s) (valid : IdsValid s) (unspoiled : Unspoiled s) :
    Sound s := by
  refine ⟨inv, valid, inv.aligned.resolve_left ?_⟩
  rintro ⟨txId, lost, here⟩
  exact unspoiled txId lost here

/-- A crash while the records of a `set_many` are written leaves all or none of them,
unless they are divided between files. -/
theorem set_many_atomic_iff {s t : Log} {events later : List Event} {payloads : List Bytes}
    (clock : Nat → Nat) (run : Run (Guarded Step fun s e => e.NonEmpty ∧ Careful s e) start events s)
    (nonempty : ∀ payload ∈ payloads, payload ≠ [])
    (waiting : Run (Guarded Step fun _ e => e.NonEmpty ∧ e.Quiet) (s.appendMany payloads) later t)
    (valid : IdsValid t) (unspoiled : Unspoiled t) :
    (∀ disk ∈ crashDisks clock t, AllOrNone disk (callRecords s.wal payloads) t.marked) ↔
      ¬ Divided t (callRecords s.wal payloads) := by
  have before : InOrder s := run.preserves start_inOrder
    fun u e v inv step => inv.step step.1 step.2.1 step.2.2
  obtain ⟨inv, back, buffer⟩ := (before.appendMany payloads nonempty).quiet waiting
  apply (inv.sound valid unspoiled).allOrNone_iff clock
  intro r member
  rw [buffer]
  apply List.mem_append_left
  show r ∈ (appendManyToBuffer s.wal payloads).2.walBuffer
  rw [appendMany_buffer]
  exact List.mem_append_right _ member

/-- The two records of the first call of a new log. -/
theorem set_many_atomic_in_first_file :
    ¬ Divided (start.appendMany [[7], [8]]) (callRecords start.wal [[7], [8]]) ∧
      ∀ disk ∈ crashDisks (fun _ => 0) (start.appendMany [[7], [8]]),
        AllOrNone disk (callRecords start.wal [[7], [8]]) ∅ := by
  have unspoiled : Unspoiled (start.appendMany [[7], [8]]) := by
    intro txId lost
    cases lost
  have valid : IdsValid (start.appendMany [[7], [8]]) := by
    show ∀ r ∈ [((0, [7]) : Record), (1, [8])], validateTxId (r.1 + walCapacity) = .ok ()
    decide
  have together : ¬ Divided (start.appendMany [[7], [8]]) (callRecords start.wal [[7], [8]]) := by
    rintro ⟨r, member, r', member', _, _, before, _⟩
    have same : ∀ r ∈ callRecords start.wal [[7], [8]], r.1 / walCapacity = 0 := by decide
    rw [same r member, same r' member'] at before
    exact absurd before (by decide)
  exact ⟨together,
    (set_many_atomic_iff (fun _ => 0) (.nil start) (by decide) (.nil _) valid unspoiled).mpr together⟩

theorem callRecords_bytes (w : Wal) (payloads : List Bytes) :
    payloadBytes (callRecords w payloads) = (payloads.map fun payload => payload.length + 4).sum := by
  induction payloads generalizing w with
  | nil => rfl
  | cons payload rest ih =>
      have later := ih (appendToBuffer w payload).2
      simp only [callRecords, appendManyToBuffer, List.zip_cons_cons, payloadBytes_cons,
        List.map_cons, List.sum_cons] at later ⊢
      omega

theorem appendMany_wal (s : Log) (payloads : List Bytes) :
    (s.appendMany payloads).wal = (appendManyToBuffer s.wal payloads).2 := rfl

theorem callRecords_pair (w : Wal) (first second : Bytes) :
    callRecords w [first, second] = [(w.globalTxId, first), (w.globalTxId + 1, second)] := rfl

/-- A call of two records after calls that have used all ids of the first file but one. -/
theorem divided_at_boundary (older : List Bytes) (full : older.length = walCapacity - 1)
    (small : ∀ payload ∈ older, payload.length = 1) :
    ¬ ∀ disk ∈ crashDisks (fun _ => 0) ((start.appendMany older).appendMany [[2], [3]]),
      AllOrNone disk (callRecords (start.appendMany older).wal [[2], [3]])
        ((start.appendMany older).appendMany [[2], [3]]).marked := by
  have nonempty : ∀ payload ∈ older, payload ≠ [] := by
    intro payload member empty
    have length := small payload member
    rw [empty] at length
    cases length
  have inv : InOrder ((start.appendMany older).appendMany [[2], [3]]) :=
    (start_inOrder.appendMany _ nonempty).appendMany _ (by decide)
  have zero : start.wal.globalTxId = 0 := rfl
  have used : (start.appendMany older).wal.globalTxId = walCapacity - 1 := by
    rw [appendMany_wal, (appendMany_ids _ _).2, full, zero, Nat.zero_add]
  have buffer : ((start.appendMany older).appendMany [[2], [3]]).wal.walBuffer =
      callRecords start.wal older ++ callRecords (start.appendMany older).wal [[2], [3]] := by
    rw [appendMany_wal, appendMany_buffer, appendMany_wal, appendMany_buffer]
    rfl
  have call : callRecords (start.appendMany older).wal [[2], [3]] =
      [(walCapacity - 1, [2]), (walCapacity, [3])] := by
    rw [callRecords_pair, used]
    rfl
  have counter : ((start.appendMany older).appendMany [[2], [3]]).wal.globalTxId =
      walCapacity + 1 := by
    rw [appendMany_wal, (appendMany_ids _ _).2, used]
    rfl
  have valid : IdsValid ((start.appendMany older).appendMany [[2], [3]]) := by
    intro r member
    have bounds := List.mem_range'_1.mp (inv.ids ▸ List.mem_map_of_mem member)
    rw [inv.counter, counter] at bounds
    apply validateTxId_ok
    simp only [walCapacity] at *
    omega
  have unspoiled : Unspoiled ((start.appendMany older).appendMany [[2], [3]]) := by
    intro txId lost
    cases lost
  rw [(inv.sound valid unspoiled).allOrNone_iff (fun _ => 0)]
  · rw [not_not]
    refine ⟨(walCapacity - 1, [2]), by rw [call]; simp, (walCapacity, [3]), by rw [call]; simp,
      Finset.notMem_empty _, Finset.notMem_empty _, by decide, ?_⟩
    intro fileId _
    apply Nat.le_trans (payloadBytes_filter_le _ _)
    apply Nat.le_trans (payloadBytes_filter_le _ _)
    have bytes : older.map (fun payload => payload.length + 4) = List.replicate older.length 5 := by
      rw [List.eq_replicate_iff, List.length_map]
      refine ⟨rfl, ?_⟩
      intro count member
      obtain ⟨payload, inside, rfl⟩ := List.mem_map.mp member
      rw [small payload inside]
    rw [buffer, payloadBytes_append, callRecords_bytes, callRecords_bytes, bytes,
      List.sum_replicate_nat, full]
    decide
  · intro r member
    rw [buffer]
    exact List.mem_append_right _ member

/-- All ids of the first file but the last one have been used. -/
def nearlyFull : Log := start.appendMany (List.replicate (walCapacity - 1) [1])

/-- The call gets the last id of one file and the first of the next. A crash between the
two files leaves one of its records. -/
theorem set_many_torn :
    ¬ ∀ disk ∈ crashDisks (fun _ => 0) (nearlyFull.appendMany [[2], [3]]),
      AllOrNone disk (callRecords nearlyFull.wal [[2], [3]])
        (nearlyFull.appendMany [[2], [3]]).marked := by
  apply divided_at_boundary _ List.length_replicate
  intro payload member
  rw [List.eq_of_mem_replicate member]
  rfl

/-- A log whose first record was a byte too long for the payload area. The file is there,
the record is gone and its id is used. -/
def refusedWal : Wal :=
  ⟨1, [], ∅, some (0, 0), preAllocateWal FileSystem.empty 0 (walFileHeaderSize + 104857601), [1]⟩

theorem flush_refused (payload : Bytes) (length : payload.length = 104857597) :
    ((start.append payload).flush fun _ => 0).wal = refusedWal := by
  have bytes : payloadBytes [(0, payload)] = 104857601 := by simp [payloadBytes, length]
  obtain ⟨e, refused⟩ : ∃ e, layoutPayloads 0 [(0, payload)] = .error e :=
    layoutPayloads_error [(0, payload)] 0 (List.cons_ne_nil _ _) (by rw [bytes]; decide)
  have ensured : ensureFile ⟨1, [], ∅, none, FileSystem.empty, []⟩ 0 [(0, payload)] =
      (.ok (), { refusedWal with currentFile := none }) := by
    unfold ensureFile
    rw [bytes]
    rfl
  have opens : getOpenFile { refusedWal with currentFile := none } 0 = (some 0, refusedWal) := rfl
  have held : (refusedWal.disk.inode 0).Holds 0 (packFileHeader magicBytes walCapacity 0 0) :=
    File.write_holds_self _ _ _
  have header : (refusedWal.disk.inode 0).read 0 walFileHeaderSize =
      packFileHeader magicBytes walCapacity 0 0 :=
    held.read (packFileHeader_length magicBytes walCapacity 0 0 rfl)
  have checked := @checkFileHeader_pack 0 0 (by decide) (by decide)
  have batches : fileBatches [(0, payload)] = [[(0, payload)]] := rfl
  have appended :
      (start.append payload).wal = ⟨1, [(0, payload)], ∅, none, FileSystem.empty, []⟩ := rfl
  simp only [Log.flush, appended, flushBuffer, swapBuffer, writeBufferToDisk, List.cons_ne_nil,
    ↓reduceIte, takeCompleted, batches, writeBatches, writeBatchToDisk, List.map_cons,
    List.map_nil, List.headD_cons, ensured, Nat.zero_div, opens, appendBatch, header, checked,
    refused, FileSystem.update_same]

/-- Behind a refused record a call is torn inside one file, since its records lie a slot
beyond those that the header counts. -/
theorem torn_behind_refused (payload : Bytes) (length : payload.length = 104857597) :
    ∃ disk ∈ crashDisks (fun _ => 0)
        (((start.append payload).flush fun _ => 0).appendMany [[1], [2]]),
      ¬ AllOrNone disk [(1, [1]), (2, [2])] ∅ := by
  have waits : (((start.append payload).flush fun _ => 0).appendMany [[1], [2]]).wal =
      { refusedWal with globalTxId := 3, walBuffer := [(1, [1]), (2, [2])] } := by
    rw [appendMany_wal, flush_refused payload length]
    rfl
  have outcome : ((flushTrace (fun _ => 0) refusedWal.ramCompletedTx
      { refusedWal with globalTxId := 3 } [[(1, [1]), (2, [2])]]).getLast?).map
      (fun disk => (Wal.readWal disk).records) = some [(1, [1])] := by decide +kernel
  obtain ⟨disk, last, records⟩ := Option.map_eq_some_iff.mp outcome
  refine ⟨disk, ?_, ?_⟩
  · rw [crashDisks, waits]
    exact List.mem_cons_of_mem _ (List.mem_of_getLast? last)
  · rintro (all | none)
    · have second := all (2, [2]) (by decide) (Finset.notMem_empty _)
      rw [records] at second
      exact absurd second (by decide)
    · have first := none (1, [1]) (by decide)
      rw [records] at first
      exact first (by decide)

end Log

end CachyDb.Wal
