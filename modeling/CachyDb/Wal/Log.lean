import Mathlib.Data.Finset.Filter
import CachyDb.Lib.Transition
import CachyDb.Wal.Counter
import CachyDb.Wal.Flush

set_option autoImplicit false

/-! The WAL as a faithful log: runs of appends, flushes, pre-allocations, marks and
restarts, and what the reader and the restarted counter make of the files after them. -/

namespace CachyDb.Wal

open ByteString Transition

/-- The WAL together with its history: the ids handed out, the records handed to
the writer, those whose batch was written, the ids this process handed over in
vain, and the ids marked completed. -/
structure Log where
  wal : Wal
  assigned : List Nat
  swapped : List Record
  written : List Record
  lost : List Nat
  marked : Finset Nat

namespace Log

/-- A WAL over an empty directory. -/
def start : Log := ⟨⟨0, [], ∅, none, FileSystem.empty, []⟩, [], [], [], [], ∅⟩

def append (s : Log) (payload : Bytes) : Log :=
  { s with
    wal := (appendToBuffer s.wal payload).2
    assigned := s.assigned ++ [(appendToBuffer s.wal payload).1] }

def appendMany (s : Log) (payloads : List Bytes) : Log :=
  { s with
    wal := (appendManyToBuffer s.wal payloads).2
    assigned := s.assigned ++ (appendManyToBuffer s.wal payloads).1 }

/-- The writer loop logs an error of the flush and goes on. -/
def flush (s : Log) (clock : Nat → Nat) : Log :=
  let result := flushBuffer clock s.wal
  { s with
    wal := result.2.2
    swapped := s.swapped ++ s.wal.walBuffer
    written := s.written ++ result.2.1
    lost := s.lost ++ (s.wal.walBuffer.drop result.2.1.length).map Prod.fst }

def preAllocate (s : Log) (fileId : Nat) : Log := { s with wal := runPreAllocation s.wal fileId }

def mark (s : Log) (txIds : List Nat) : Log :=
  { s with
    wal := markManyJobsComplete s.wal txIds
    marked := s.marked ∪ txIds.toFinset }

/-- The opened object takes over. Threads of the old one may still be running, and
marks of ids that no file holds are forgotten. -/
def restart (s : Log) (opened : Wal) : Log :=
  { s with
    wal := { opened with preallocating := s.wal.preallocating }
    lost := []
    marked := s.marked.filter (fun txId => txId ∈ s.written.map Prod.fst) }

inductive Event
  | append (payload : Bytes)
  | appendMany (payloads : List Bytes)
  | flush (clock : Nat → Nat)
  | preAllocate (fileId : Nat)
  | mark (txIds : List Nat)
  | restart

/-- One step. Marks name ids the counter has passed; a restart loses the buffer. -/
inductive Step : Log → Event → Log → Prop
  | append (s : Log) (payload : Bytes) : Step s (.append payload) (s.append payload)
  | appendMany (s : Log) (payloads : List Bytes) :
      Step s (.appendMany payloads) (s.appendMany payloads)
  | flush (s : Log) (clock : Nat → Nat) : Step s (.flush clock) (s.flush clock)
  | preAllocate (s : Log) (fileId : Nat) (started : fileId ∈ s.wal.preallocating) :
      Step s (.preAllocate fileId) (s.preAllocate fileId)
  | mark (s : Log) (txIds : List Nat) (passed : ∀ txId ∈ txIds, txId < s.wal.globalTxId) :
      Step s (.mark txIds) (s.mark txIds)
  | restart (s : Log) (opened : Wal) (reopened : openWal s.wal.disk = .ok opened) :
      Step s .restart (s.restart opened)

/-- No empty payload is appended. -/
def Event.NonEmpty : Event → Prop
  | .append payload => payload ≠ []
  | .appendMany payloads => ∀ payload ∈ payloads, payload ≠ []
  | _ => True

/-- A restart waits for the buffer to be flushed. -/
def Drained (s : Log) : Event → Prop
  | .restart => s.wal.walBuffer = []
  | _ => True

/-- The id of the oldest record in the buffer, or the next id if it is empty. -/
def next (s : Log) : Nat := s.wal.globalTxId - s.wal.walBuffer.length

/-- Everything before `next` is settled on disk, the buffer continues from there,
and only a file in which ids were lost is out of step with it. -/
structure InOrder (s : Log) : Prop where
  settled : Settled s.wal s.written s.marked s.next
  counter : s.next + s.wal.walBuffer.length = s.wal.globalTxId
  ids : s.wal.walBuffer.map Prod.fst = List.range' s.next s.wal.walBuffer.length
  payloads : ∀ r ∈ s.wal.walBuffer, r.2 ≠ []
  lostBefore : ∀ txId ∈ s.lost, txId < s.next
  aligned : (∃ txId ∈ s.lost, txId / walCapacity = s.next / walCapacity) ∨
    Aligned s.written s.next
  pending : ∀ r ∈ s.wal.walBuffer, r.1 ∈ s.marked ↔ r.1 ∈ s.wal.ramCompletedTx
  markedBelow : ∀ txId ∈ s.marked, txId < s.wal.globalTxId
  ramBelow : ∀ txId ∈ s.wal.ramCompletedTx, txId < s.wal.globalTxId
  targets : ∀ target ∈ s.wal.preallocating, target * walCapacity ≤ 2 ^ 63

theorem start_inOrder : InOrder start := by
  refine ⟨⟨⟨List.Pairwise.nil, ?_, ?_, ?_, ?_⟩, ?_, ?_, ?_⟩, rfl, rfl, ?_, ?_, Or.inr ?_, ?_, ?_,
    ?_, ?_⟩
  · intro r member
    cases member
  · intro fileId file known
    rw [show start.wal.disk.file fileId = none from FileSystem.empty_file fileId] at known
    cases known
  · intro r member
    cases member
  · intro fileId handle i opened
    cases opened
  · intro r member
    cases member
  · intro path handle opened
    cases opened
  · intro r member
    cases member
  · intro r member
    cases member
  · intro txId member
    cases member
  · exact aligned_boundary (fun r member => by cases member) rfl
  · intro r member
    cases member
  · intro txId member
    cases member
  · intro txId member
    cases member
  · intro target member
    cases member

theorem InOrder.append {s : Log} (inv : InOrder s) (payload : Bytes) (nonempty : payload ≠ []) :
    InOrder (s.append payload) := by
  have counter := inv.counter
  have next : (s.append payload).next = s.next := by
    simp only [Log.next, Log.append, appendToBuffer, List.length_append, List.length_singleton]
    omega
  have fresh : s.wal.globalTxId ∉ s.marked ∧ s.wal.globalTxId ∉ s.wal.ramCompletedTx :=
    ⟨fun member => Nat.lt_irrefl _ (inv.markedBelow _ member),
      fun member => Nat.lt_irrefl _ (inv.ramBelow _ member)⟩
  constructor
  · rw [next]
    exact inv.settled.frame rfl rfl
  · rw [next]
    simp only [Log.append, appendToBuffer, List.length_append, List.length_singleton]
    omega
  · rw [next]
    simp only [Log.append, appendToBuffer, List.map_append, List.length_append,
      List.length_singleton, List.range'_1_concat, inv.ids, counter, List.map_cons, List.map_nil]
  · intro r member
    rcases List.mem_append.mp member with old | new
    · exact inv.payloads r old
    · rw [List.mem_singleton.mp new]
      exact nonempty
  · rw [next]
    exact inv.lostBefore
  · rw [next]
    exact inv.aligned
  · intro r member
    rcases List.mem_append.mp member with old | new
    · exact inv.pending r old
    · rw [List.mem_singleton.mp new]
      exact iff_of_false fresh.1 fresh.2
  · intro txId member
    exact Nat.lt_succ_of_lt (inv.markedBelow txId member)
  · intro txId member
    exact Nat.lt_succ_of_lt (inv.ramBelow txId member)
  · exact inv.targets

theorem appendMany_cons (s : Log) (payload : Bytes) (rest : List Bytes) :
    s.appendMany (payload :: rest) = (s.append payload).appendMany rest := by
  simp only [appendMany, append, appendManyToBuffer, List.append_assoc, List.singleton_append]

theorem InOrder.appendMany {s : Log} (inv : InOrder s) (payloads : List Bytes)
    (nonempty : ∀ payload ∈ payloads, payload ≠ []) : InOrder (s.appendMany payloads) := by
  induction payloads generalizing s with
  | nil =>
      have same : s.appendMany [] = s := by
        simp only [Log.appendMany, appendManyToBuffer, List.append_nil]
      rw [same]
      exact inv
  | cons payload rest ih =>
      rw [appendMany_cons]
      apply ih (inv.append payload (nonempty payload List.mem_cons_self))
      exact fun other member => nonempty other (List.mem_cons_of_mem _ member)

/-- The ids of the buffer, and those one file later, pass the id check. -/
def IdsValid (s : Log) : Prop :=
  ∀ r ∈ s.wal.walBuffer, validateTxId (r.1 + walCapacity) = .ok ()

/-- No batch that still fits goes to a file in which ids were lost before it. -/
def NotBehindLoss (s : Log) : Prop :=
  ∀ r ∈ s.wal.walBuffer, ∀ txId ∈ s.lost, txId / walCapacity = r.1 / walCapacity →
    payloadAreaSize < payloadBytes (fileRecords s.written (r.1 / walCapacity)) +
      payloadBytes (fileRecords s.wal.walBuffer (r.1 / walCapacity))

theorem flush_nil (s : Log) (clock : Nat → Nat) (empty : s.wal.walBuffer = []) :
    s.flush clock = s := by
  obtain ⟨⟨globalTxId, walBuffer, ram, current, disk, threads⟩, assigned, swapped, written, lost,
    marked⟩ := s
  obtain rfl : walBuffer = [] := empty
  simp only [Log.flush, flushBuffer, swapBuffer, writeBufferToDisk, ↓reduceIte, List.append_nil,
    List.drop_nil, List.map_nil]

/-- Behind lost ids the first batch of the buffer does not fit. -/
theorem InOrder.blocked {s : Log} (inv : InOrder s) (valid : IdsValid s) (behind : NotBehindLoss s)
    (spoiled : ∃ txId ∈ s.lost, txId / walCapacity = s.next / walCapacity) {batch : List Record}
    {rest : List (List Record)} (pieces : fileBatches s.wal.walBuffer = batch :: rest) :
    s.next + walCapacity < 2 ^ 63 ∧ payloadAreaSize <
      payloadBytes (fileRecords s.written (s.next / walCapacity)) + payloadBytes batch := by
  obtain ⟨chain, flat⟩ := fileBatches_chain inv.ids
  obtain ⟨txId, lost, sameFile⟩ := spoiled
  rw [pieces] at chain flat
  rw [List.flatten_cons] at flat
  have own := chain.head_records (by rw [flat]; exact inv.ids)
  have formed := chain.1
  obtain ⟨r, tail, shape⟩ := List.exists_cons_of_ne_nil formed.nonempty
  have first : r ∈ batch := by
    rw [shape]
    exact List.mem_cons_self
  have member : r ∈ s.wal.walBuffer := by
    rw [← flat]
    exact List.mem_append_left _ first
  have home := formed.home r first
  have overflow := behind r member txId lost (by rw [home, sameFile])
  rw [home, ← flat, own] at overflow
  have low := (formed.bounds first).1
  have bound := validateTxId_iff.mp (valid r member)
  exact ⟨by omega, overflow⟩

/-- The part of the buffer that was written is settled; something is dropped only
where a file overflows or ids were lost before. -/
theorem InOrder.flushBuffer {s : Log} (inv : InOrder s) (clock : Nat → Nat) (valid : IdsValid s)
    (behind : NotBehindLoss s) (nonempty : s.wal.walBuffer ≠ []) :
    ∃ outcome kept dropped w', Wal.flushBuffer clock s.wal = (outcome, kept, w') ∧
      s.wal.walBuffer = kept ++ dropped ∧
      Settled w' (s.written ++ kept) s.marked (s.next + kept.length) ∧
      Extends { s.wal with walBuffer := [], ramCompletedTx := ∅ } w' ∧
      (dropped = [] ∧ Aligned (s.written ++ kept) (s.next + kept.length) ∨
        dropped ≠ [] ∧ (s.lost ≠ [] ∨ ∃ fileId,
          payloadAreaSize < payloadBytes (fileRecords (s.written ++ s.wal.walBuffer) fileId))) := by
  have settled : Settled { s.wal with walBuffer := [], ramCompletedTx := ∅ } s.written s.marked
    s.next := inv.settled.frame rfl rfl
  obtain ⟨chain, flat⟩ := fileBatches_chain inv.ids
  have small : ∀ r ∈ s.wal.walBuffer, r.1 + walCapacity < 2 ^ 63 :=
    fun r member => validateTxId_iff.mp (valid r member)
  have started : Wal.flushBuffer clock s.wal = writeBatches clock s.wal.ramCompletedTx
      { s.wal with walBuffer := [], ramCompletedTx := ∅ } (fileBatches s.wal.walBuffer) := by
    simp only [Wal.flushBuffer, swapBuffer, writeBufferToDisk, nonempty, ↓reduceIte, takeCompleted]
  rw [started]
  rcases inv.aligned with spoiled | aligned
  · cases pieces : fileBatches s.wal.walBuffer with
    | nil =>
        rw [pieces] at flat
        exact absurd flat.symm nonempty
    | cons batch rest =>
        obtain ⟨bound, overflow⟩ := inv.blocked valid behind spoiled pieces
        rw [pieces] at chain
        obtain ⟨e, w', refused, settled', extends'⟩ :=
          settled.writeBatch_overflow chain.1 clock s.wal.ramCompletedTx bound overflow
        refine ⟨.error e, [], s.wal.walBuffer, w', ?_, rfl, ?_, extends', Or.inr ⟨nonempty, ?_⟩⟩
        · simp only [writeBatches, refused]
        · simpa using settled'
        · obtain ⟨txId, lost, _⟩ := spoiled
          exact Or.inl (List.ne_nil_of_mem lost)
  · obtain ⟨outcome, kept, dropped, w', result, whole, final, reached, verdict⟩ :=
      settled.writeBatches _ chain (by rw [flat]; exact inv.payloads) clock s.wal.ramCompletedTx
        (by rw [flat]; exact small) aligned
        (by rw [flat]; exact inv.pending)
    rw [flat] at whole verdict
    refine ⟨outcome, kept, dropped, w', result, whole, final, reached, ?_⟩
    exact verdict.imp (fun all => ⟨all.1, all.2.2⟩) (fun some => ⟨some.1, Or.inr some.2⟩)

theorem InOrder.flush {s : Log} (inv : InOrder s) (clock : Nat → Nat) (valid : IdsValid s)
    (behind : NotBehindLoss s) : InOrder (s.flush clock) := by
  by_cases empty : s.wal.walBuffer = []
  · rw [flush_nil s clock empty]
    exact inv
  · obtain ⟨outcome, kept, dropped, w', result, whole, settled, reached, verdict⟩ :=
      inv.flushBuffer clock valid behind empty
    have counter := inv.counter
    have lengths := congrArg List.length whole
    rw [List.length_append] at lengths
    have rest : s.wal.walBuffer.drop kept.length = dropped := by
      rw [whole, List.drop_left]
    have next : (s.flush clock).next = s.wal.globalTxId := by
      simp only [Log.next, Log.flush, result, reached.globalTxId, reached.walBuffer,
        List.length_nil, Nat.sub_zero]
    have buffer : (s.flush clock).wal.walBuffer = [] := by
      simp only [Log.flush, result, reached.walBuffer]
    have droppedIds : dropped.map Prod.fst = List.range' (s.next + kept.length) dropped.length := by
      have ids := inv.ids
      rw [whole] at ids
      exact (ids_append ids).2
    constructor
    · rw [next]
      simp only [Log.flush, result]
      exact settled.later (by omega)
    · rw [next, buffer]
      simp only [Log.flush, result, reached.globalTxId, List.length_nil, Nat.add_zero]
    · rw [buffer]
      rfl
    · rw [buffer]
      intro r member
      cases member
    · rw [next]
      simp only [Log.flush, result, rest]
      intro txId member
      rcases List.mem_append.mp member with old | new
      · have := inv.lostBefore txId old
        omega
      · have := List.mem_range'_1.mp (droppedIds ▸ new)
        omega
    · rw [next]
      simp only [Log.flush, result, rest]
      rcases verdict with ⟨none, aligned⟩ | ⟨some, _⟩
      · have length : s.next + kept.length = s.wal.globalTxId := by
          rw [none, List.length_nil] at lengths
          omega
        rw [length] at aligned
        exact Or.inr aligned
      · -- the newest dropped id is the last one handed out
        have positive := List.length_pos_iff.mpr some
        have newest : s.wal.globalTxId - 1 ∈ dropped.map Prod.fst := by
          rw [droppedIds, List.mem_range'_1]
          omega
        apply lost_or_aligned _ (by omega) (List.mem_append_right _ newest)
        intro r member
        have := settled.before r member
        omega
    · rw [buffer]
      intro r member
      cases member
    · simp only [Log.flush, result, reached.globalTxId]
      exact inv.markedBelow
    · simp only [Log.flush, result, reached.ramCompletedTx]
      intro txId member
      cases member
    · simp only [Log.flush, result]
      intro target member
      exact (reached.threads target member).elim (inv.targets target) id

theorem InOrder.preAllocate {s : Log} (inv : InOrder s) (fileId : Nat)
    (started : fileId ∈ s.wal.preallocating) : InOrder (s.preAllocate fileId) := by
  have erased : ∀ target ∈ s.wal.preallocating.erase fileId, target * walCapacity ≤ 2 ^ 63 :=
    fun target member => inv.targets target (List.mem_of_mem_erase member)
  by_cases known : s.wal.disk.present fileId = true
  · have same : preAllocateAsync s.wal fileId = s.wal := by
      simp only [preAllocateAsync, known, ↓reduceIte]
    have unchanged : s.preAllocate fileId =
        { s with wal := { s.wal with preallocating := s.wal.preallocating.erase fileId } } := by
      simp only [Log.preAllocate, runPreAllocation, same]
    rw [unchanged]
    exact ⟨inv.settled.frame rfl rfl, inv.counter, inv.ids, inv.payloads, inv.lostBefore,
      inv.aligned, inv.pending, inv.markedBelow, inv.ramBelow, erased⟩
  · have created : s.preAllocate fileId = { s with wal := { s.wal with
        disk := preAllocateWal s.wal.disk fileId fullSize
        preallocating := s.wal.preallocating.erase fileId } } := by
      simp only [Log.preAllocate, runPreAllocation, preAllocateAsync, known, Bool.false_eq_true,
        ↓reduceIte]
    rw [created]
    exact ⟨(inv.settled.create fullSize known (inv.targets fileId started)).frame rfl rfl,
      inv.counter, inv.ids, inv.payloads, inv.lostBefore, inv.aligned, inv.pending,
      inv.markedBelow, inv.ramBelow, erased⟩

theorem mark_nil (s : Log) : s.mark [] = s := by
  simp only [Log.mark, markManyJobsComplete, ↓reduceIte, List.toFinset_nil, Finset.union_empty]

/-- A mark goes to `ram_completed_tx` and, for ids outside the buffer, to the disk. -/
theorem InOrder.mark_disk {s : Log} (inv : InOrder s) {txIds : List Nat} (some : txIds ≠ []) :
    OnDisk (s.mark txIds).wal s.written (s.marked ∪ (markLocked s.wal txIds).1.toFinset) ∧
      KeepsNames { s.wal with ramCompletedTx := s.wal.ramCompletedTx ∪ txIds.toFinset }
        (s.mark txIds).wal := by
  have locked : OnDisk { s.wal with ramCompletedTx := s.wal.ramCompletedTx ∪ txIds.toFinset }
      s.written s.marked := inv.settled.disk.frame rfl rfl
  have done : (s.mark txIds).wal =
      markDisk { s.wal with ramCompletedTx := s.wal.ramCompletedTx ∪ txIds.toFinset }
        (markLocked s.wal txIds).1 := by
    simp only [Log.mark, markManyJobsComplete, some, ↓reduceIte, markLocked]
  rw [done]
  exact locked.markDisk _ inv.settled.valid

theorem InOrder.mark_buffer {s : Log} (inv : InOrder s) (txIds : List Nat) :
    (s.mark txIds).wal.walBuffer = s.wal.walBuffer := by
  by_cases none : txIds = []
  · rw [none, mark_nil]
  · exact (inv.mark_disk none).2.walBuffer

theorem InOrder.mark {s : Log} (inv : InOrder s) (txIds : List Nat)
    (passed : ∀ txId ∈ txIds, txId < s.wal.globalTxId) : InOrder (s.mark txIds) := by
  by_cases none : txIds = []
  · rw [none, mark_nil]
    exact inv
  · obtain ⟨disk, keeps⟩ := inv.mark_disk none
    have next : (s.mark txIds).next = s.next := by
      simp only [Log.next, keeps.globalTxId, keeps.walBuffer]
    have settled : Settled { s.wal with ramCompletedTx := s.wal.ramCompletedTx ∪ txIds.toFinset }
        s.written s.marked s.next := inv.settled.frame rfl rfl
    constructor
    · rw [next]
      refine settled.keeps (disk.congr ?_) keeps
      intro r member
      -- a written id lies before the buffer, so the mark reached the disk
      have outside : inBufferRange s.wal.walBuffer r.1 = false := by
        rw [Bool.eq_false_iff, ne_eq, inBufferRange_iff inv.ids]
        have := inv.settled.before r member
        omega
      simp only [markLocked, Finset.mem_union, List.mem_toFinset, List.mem_filter, outside,
        Bool.not_false, and_true, Log.mark]
    · rw [next, keeps.walBuffer, keeps.globalTxId]
      exact inv.counter
    · rw [next, keeps.walBuffer]
      exact inv.ids
    · rw [keeps.walBuffer]
      exact inv.payloads
    · rw [next]
      exact inv.lostBefore
    · rw [next]
      exact inv.aligned
    · rw [keeps.walBuffer, keeps.ramCompletedTx]
      intro r member
      simp only [Log.mark, Finset.mem_union, inv.pending r member]
    · rw [keeps.globalTxId]
      intro txId member
      rcases Finset.mem_union.mp member with old | new
      · exact inv.markedBelow txId old
      · exact passed txId (List.mem_toFinset.mp new)
    · rw [keeps.globalTxId, keeps.ramCompletedTx]
      intro txId member
      rcases Finset.mem_union.mp member with old | new
      · exact inv.ramBelow txId old
      · exact passed txId (List.mem_toFinset.mp new)
    · rw [keeps.preallocating]
      exact inv.targets

/-- Opening the directory again succeeds, with a counter beyond every id on disk. -/
theorem InOrder.reopen {s : Log} (inv : InOrder s) :
    ∃ txId, restoreGlobalTxId s.wal.disk = .ok txId ∧
      openWal s.wal.disk = .ok ⟨txId, [], ∅, none, s.wal.disk, []⟩ ∧
      (∀ r ∈ s.written, r.1 < txId) ∧ Aligned s.written txId := by
  obtain ⟨txId, restored, above, aligned⟩ := inv.settled.restore
  exact ⟨txId, restored, by simp only [openWal, restored], above, aligned⟩

/-- A settled directory can be opened, and the log that starts over it is in order. -/
theorem settled_reopened {w : Wal} {written : List Record} {marked : Finset Nat} {first : Nat}
    (settled : Settled w written marked first) {threads : List Nat}
    (targets : ∀ target ∈ threads, target * walCapacity ≤ 2 ^ 63) (assigned : List Nat)
    (swapped : List Record) :
    ∃ opened, openWal w.disk = .ok opened ∧ opened.preallocating = [] ∧
      InOrder ⟨{ opened with preallocating := threads }, assigned, swapped, written, [],
        marked.filter (fun txId => txId ∈ written.map Prod.fst)⟩ := by
  obtain ⟨txId, restored, above, aligned⟩ := settled.restore
  have stored : ∀ r ∈ written,
      r.1 ∈ marked.filter (fun txId => txId ∈ written.map Prod.fst) ↔ r.1 ∈ marked := by
    intro r member
    simp only [Finset.mem_filter, List.mem_map_of_mem member, and_true]
  have disk := settled.disk.congr stored
  refine ⟨⟨txId, [], ∅, none, w.disk, []⟩, by simp only [openWal, restored], rfl, ?_⟩
  constructor
  · refine ⟨⟨disk.ascending, disk.nonempty, disk.files, disk.kept, ?_⟩, settled.homes, ?_, above⟩
    · intro path handle i opened
      cases opened
    · intro path handle opened
      cases opened
  · rfl
  · rfl
  · intro r member
    cases member
  · intro lost member
    cases member
  · exact Or.inr aligned
  · intro r member
    cases member
  · intro markedId member
    obtain ⟨r, inside, rfl⟩ := List.mem_map.mp (Finset.mem_filter.mp member).2
    exact above r inside
  · intro ramId member
    cases member
  · exact targets

theorem InOrder.restart {s : Log} (inv : InOrder s) (opened : Wal)
    (reopened : openWal s.wal.disk = .ok opened) : InOrder (s.restart opened) := by
  obtain ⟨opened', result, _, again⟩ :=
    settled_reopened inv.settled inv.targets s.assigned s.swapped
  rw [result, Except.ok.injEq] at reopened
  rw [← reopened]
  exact again

/-- Where a flush may happen: the ids are in range and no batch is written behind
lost ids. -/
def Careful (s : Log) : Event → Prop
  | .flush _ => IdsValid s ∧ NotBehindLoss s
  | _ => True

theorem InOrder.step {s t : Log} {e : Event} (inv : InOrder s) (step : Step s e t)
    (nonempty : e.NonEmpty) (careful : Careful s e) : InOrder t := by
  cases step with
  | append payload => exact inv.append payload nonempty
  | appendMany payloads => exact inv.appendMany payloads nonempty
  | flush clock => exact inv.flush clock careful.1 careful.2
  | preAllocate fileId started => exact inv.preAllocate fileId started
  | mark txIds passed => exact inv.mark txIds passed
  | restart opened reopened => exact inv.restart opened reopened

theorem InOrder.readWal {s : Log} (inv : InOrder s) :
    Wal.readWal s.wal.disk = ⟨s.written.filter (fun r => r.1 ∉ s.marked), false⟩ :=
  inv.settled.disk.readWal

/-- No file overflows and no id leaves the range of the id check. -/
structure Fits (s : Log) : Prop where
  room : ∀ fileId, payloadBytes (fileRecords s.swapped fileId) ≤ payloadAreaSize
  ids : ∀ r ∈ s.swapped, validateTxId (r.1 + walCapacity) = .ok ()

/-- Nothing was lost, and the ids handed out are those of the records. -/
structure Complete (s : Log) : Prop where
  nothingLost : s.lost = []
  all : s.written = s.swapped
  assigned : s.assigned = (s.swapped ++ s.wal.walBuffer).map Prod.fst

theorem Fits.back {s t : Log} {e : Event} (step : Step s e t) (fits : Fits t) : Fits s := by
  cases step with
  | append payload => exact ⟨fits.room, fits.ids⟩
  | appendMany payloads => exact ⟨fits.room, fits.ids⟩
  | flush clock =>
      constructor
      · intro fileId
        have room := fits.room fileId
        simp only [Log.flush, fileRecords_append, payloadBytes_append] at room
        omega
      · exact fun r member => fits.ids r (List.mem_append_left _ member)
  | preAllocate fileId started => exact ⟨fits.room, fits.ids⟩
  | mark txIds passed => exact ⟨fits.room, fits.ids⟩
  | restart opened reopened => exact ⟨fits.room, fits.ids⟩

theorem Complete.append {s : Log} (complete : Complete s) (payload : Bytes) :
    Complete (s.append payload) := by
  refine ⟨complete.nothingLost, complete.all, ?_⟩
  simp only [Log.append, appendToBuffer, complete.assigned, List.map_append, List.map_cons,
    List.map_nil, List.append_assoc]

theorem Complete.appendMany {s : Log} (complete : Complete s) (payloads : List Bytes) :
    Complete (s.appendMany payloads) := by
  induction payloads generalizing s with
  | nil =>
      refine ⟨complete.nothingLost, complete.all, ?_⟩
      simp only [Log.appendMany, appendManyToBuffer, List.append_nil, complete.assigned]
  | cons payload rest ih =>
      rw [appendMany_cons]
      exact ih (complete.append payload)

theorem Complete.flush {s : Log} (inv : InOrder s) (complete : Complete s) (clock : Nat → Nat)
    (fits : Fits (s.flush clock)) :
    IdsValid s ∧ NotBehindLoss s ∧ Complete (s.flush clock) := by
  have valid : IdsValid s := fun r member => fits.ids r (List.mem_append_right _ member)
  have behind : NotBehindLoss s := by
    intro r member txId lost
    rw [complete.nothingLost] at lost
    cases lost
  refine ⟨valid, behind, ?_⟩
  by_cases empty : s.wal.walBuffer = []
  · rw [flush_nil s clock empty]
    exact complete
  · obtain ⟨outcome, kept, dropped, w', result, whole, settled, reached, verdict⟩ :=
      inv.flushBuffer clock valid behind empty
    rcases verdict with ⟨none, _⟩ | ⟨_, lost | ⟨fileId, overflow⟩⟩
    · rw [none, List.append_nil] at whole
      constructor
      · simp only [Log.flush, result, whole, List.drop_length, List.map_nil, List.append_nil,
          complete.nothingLost]
      · simp only [Log.flush, result, whole, complete.all]
      · simp only [Log.flush, result, reached.walBuffer, List.append_nil, complete.assigned]
    · exact absurd complete.nothingLost lost
    · have room := fits.room fileId
      simp only [Log.flush] at room
      rw [← complete.all] at room
      omega

theorem complete_step {s t : Log} {e : Event} (inv : InOrder s) (complete : Complete s)
    (step : Step s e t) (nonempty : e.NonEmpty) (drained : Drained s e) (fits : Fits t) :
    InOrder t ∧ Complete t := by
  cases step with
  | append payload => exact ⟨inv.append payload nonempty, complete.append payload⟩
  | appendMany payloads => exact ⟨inv.appendMany payloads nonempty, complete.appendMany payloads⟩
  | flush clock =>
      obtain ⟨valid, behind, complete'⟩ := complete.flush inv clock fits
      exact ⟨inv.flush clock valid behind, complete'⟩
  | preAllocate fileId started =>
      refine ⟨inv.preAllocate fileId started, complete.nothingLost, complete.all, ?_⟩
      have buffer : (s.preAllocate fileId).wal.walBuffer = s.wal.walBuffer := by
        simp only [Log.preAllocate, runPreAllocation, preAllocateAsync]
        split <;> rfl
      rw [buffer]
      exact complete.assigned
  | mark txIds passed =>
      refine ⟨inv.mark txIds passed, complete.nothingLost, complete.all, ?_⟩
      rw [inv.mark_buffer]
      exact complete.assigned
  | restart opened reopened =>
      obtain ⟨txId, _, result, _, _⟩ := inv.reopen
      refine ⟨inv.restart opened reopened, rfl, complete.all, ?_⟩
      rw [result, Except.ok.injEq] at reopened
      rw [← reopened]
      have assigned := complete.assigned
      rw [show s.wal.walBuffer = [] from drained] at assigned
      exact assigned

theorem complete_run {t : Log} {events : List Event}
    (run : Run (Guarded Step fun s e => e.NonEmpty ∧ Drained s e) start events t) (fits : Fits t) :
    InOrder t ∧ Complete t := by
  have always := run.preserves (P := fun s => Fits s → InOrder s ∧ Complete s)
    (fun _ => ⟨start_inOrder, rfl, rfl, rfl⟩)
    (fun s e u before step fits =>
      let ⟨inv, complete⟩ := before (fits.back step.1)
      complete_step inv complete step.1 step.2.1 step.2.2 fits)
  exact always fits

/-- The payloads that an event appends. -/
def Event.payloads : Event → List Bytes
  | .append payload => [payload]
  | .appendMany payloads => payloads
  | _ => []

/-- The records of the log are the payloads that were appended, under the ids that the calls
have returned. -/
structure Asked (s : Log) (payloads : List Bytes) : Prop where
  ids : s.assigned.length = payloads.length
  records : s.swapped ++ s.wal.walBuffer = s.assigned.zip payloads

theorem Asked.append {s : Log} {payloads : List Bytes} (asked : Asked s payloads)
    (payload : Bytes) : Asked (s.append payload) (payloads ++ [payload]) := by
  constructor
  · simp only [Log.append, List.length_append, asked.ids, List.length_singleton]
  · show s.swapped ++ (s.wal.walBuffer ++ [(s.wal.globalTxId, payload)]) =
      (s.assigned ++ [s.wal.globalTxId]).zip (payloads ++ [payload])
    rw [List.zip_append asked.ids, ← asked.records, List.append_assoc]
    rfl

theorem Asked.appendMany {s : Log} {payloads : List Bytes} (asked : Asked s payloads)
    (more : List Bytes) : Asked (s.appendMany more) (payloads ++ more) := by
  induction more generalizing s payloads with
  | nil =>
      rw [List.append_nil]
      exact ⟨by simpa [Log.appendMany, appendManyToBuffer] using asked.ids,
        by simpa [Log.appendMany, appendManyToBuffer] using asked.records⟩
  | cons payload rest ih =>
      rw [appendMany_cons, List.append_cons]
      exact ih (asked.append payload)

theorem openWal_buffer {disk : FileSystem Nat} {opened : Wal}
    (reopened : openWal disk = .ok opened) : opened.walBuffer = [] := by
  unfold openWal at reopened
  split at reopened
  · cases reopened
  · cases reopened
    rfl

theorem Asked.step {s t : Log} {e : Event} {payloads : List Bytes} (asked : Asked s payloads)
    (step : Step s e t) (drained : Drained s e) : Asked t (payloads ++ e.payloads) := by
  cases step with
  | append payload => exact asked.append payload
  | appendMany more => exact asked.appendMany more
  | flush clock =>
      show Asked _ (payloads ++ [])
      rw [List.append_nil]
      refine ⟨asked.ids, ?_⟩
      show s.swapped ++ s.wal.walBuffer ++ (flushBuffer clock s.wal).2.2.walBuffer = _
      rw [flushBuffer_empties, List.append_nil, asked.records]
      rfl
  | preAllocate fileId started =>
      have buffer : (s.preAllocate fileId).wal.walBuffer = s.wal.walBuffer := by
        simp only [Log.preAllocate, runPreAllocation, preAllocateAsync]
        split <;> rfl
      show Asked _ (payloads ++ [])
      rw [List.append_nil]
      exact ⟨asked.ids, by rw [buffer]; exact asked.records⟩
  | mark txIds passed =>
      show Asked _ (payloads ++ [])
      rw [List.append_nil]
      refine ⟨asked.ids, ?_⟩
      show s.swapped ++ (markManyJobsComplete s.wal txIds).walBuffer = _
      rw [(markMany_queue s.wal txIds).walBuffer]
      exact asked.records
  | restart opened reopened =>
      show Asked _ (payloads ++ [])
      rw [List.append_nil]
      have empty : opened.walBuffer = [] := openWal_buffer reopened
      have before := asked.records
      rw [show s.wal.walBuffer = [] from drained] at before
      refine ⟨asked.ids, ?_⟩
      show s.swapped ++ opened.walBuffer = _
      rw [empty]
      exact before

/-- In a run whose restarts lose nothing. -/
theorem run_asked {t : Log} {events : List Event}
    (run : Run (Guarded Step fun s e => e.NonEmpty ∧ Drained s e) start events t) :
    Asked t (events.flatMap Event.payloads) := by
  induction run with
  | nil => exact ⟨rfl, rfl⟩
  | snoc _ last ih =>
      rw [List.flatMap_append, List.flatMap_singleton]
      exact ih.step last.1 last.2.2

/-- In every run without overflow no id is assigned twice, the reader yields the
flushed and unmarked records in ascending order, each once, and the directory can
be opened again. -/
theorem faithful_log {t : Log} {events : List Event}
    (run : Run (Guarded Step fun s e => e.NonEmpty ∧ Drained s e) start events t) (fits : Fits t) :
    t.assigned.Nodup ∧
      Wal.readWal t.wal.disk = ⟨t.swapped.filter (fun r => r.1 ∉ t.marked), false⟩ ∧
      (t.swapped.map Prod.fst).Pairwise (· < ·) ∧
      ∃ opened, openWal t.wal.disk = .ok opened := by
  obtain ⟨inv, complete⟩ := complete_run run fits
  have records := inv.readWal
  have ascending := inv.settled.disk.ascending
  rw [complete.all] at records ascending
  refine ⟨?_, records, ascending, ?_⟩
  · rw [complete.assigned, List.map_append, inv.ids]
    refine List.nodup_append.mpr ⟨ascending.imp Nat.ne_of_lt, List.nodup_range', ?_⟩
    intro txId old txId' new
    obtain ⟨r, member, rfl⟩ := List.mem_map.mp old
    rw [← complete.all] at member
    have below := inv.settled.before r member
    have := List.mem_range'_1.mp new
    omega
  · obtain ⟨txId, _, result, _, _⟩ := inv.reopen
    exact ⟨_, result⟩

/-- Two records are appended, the first is marked while still in the buffer, and
the flush leaves the second to the reader. -/
theorem faithful_log_of_two :
    let t := (((start.append [7]).append [8]).mark [0]).flush (fun _ => 0)
    t.assigned = [0, 1] ∧ t.assigned.Nodup ∧ Wal.readWal t.wal.disk = ⟨[(1, [8])], false⟩ := by
  intro t
  have run : Run (Guarded Step fun s e => e.NonEmpty ∧ Drained s e) start
      [.append [7], .append [8], .mark [0], .flush (fun _ => 0)] t := by
    refine .cons ⟨.append _ _, ?_, trivial⟩ (.cons ⟨.append _ _, ?_, trivial⟩
      (.cons ⟨.mark _ _ ?_, trivial, trivial⟩ (.cons ⟨.flush _ _, trivial, trivial⟩ (.nil _))))
    · exact List.cons_ne_nil _ _
    · exact List.cons_ne_nil _ _
    · decide
  have swapped : t.swapped = [(0, [7]), (1, [8])] := rfl
  have fits : Fits t := by
    constructor
    · intro fileId
      rw [swapped]
      by_cases zero : fileId = 0
      · subst zero
        decide
      · have other : fileRecords [(0, [7]), (1, [8])] fileId = [] :=
          fileRecords_none (show ∀ r ∈ [(0, [7]), (1, [8])], r.1 / walCapacity = 0 by decide) zero
        rw [other]
        exact Nat.zero_le _
    · rw [swapped]
      decide
  obtain ⟨distinct, records, _, _⟩ := faithful_log run fits
  refine ⟨rfl, distinct, ?_⟩
  rw [records, swapped]
  rfl

end Log

end CachyDb.Wal
