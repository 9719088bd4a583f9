import CachyDb.Lib.Transition
import CachyDb.Wal.Flags

set_option autoImplicit false

/-! The writer thread against `mark_many_jobs_complete`: a transaction is in the live
buffer, in the writer's private copy or on disk, and a mark is routed by a test on
the live buffer alone. -/

namespace CachyDb.Wal

open ByteString Transition

/-- Between two buffers, behind the swap, or behind the copy-and-clear with the
batches that are still to be written. -/
inductive WriterState
  | idle
  | swapped (buffer : List Record)
  | writing (completedCopy : Finset Nat) (batches : List (List Record))
  deriving DecidableEq

/-- A call of `mark_many_jobs_complete` between its locked part and its disk part. -/
structure MarkJob where
  txIds : List Nat
  diskTxIds : List Nat
  deriving DecidableEq

structure Marking where
  wal : Wal
  writer : WriterState
  jobs : List MarkJob
  returned : List Nat
  written : List Record

namespace Marking

def start : Marking := ⟨⟨0, [], ∅, none, FileSystem.empty, []⟩, .idle, [], [], []⟩

/-- A call whose ids are all in the live buffer returns without a disk part. -/
def lockedPart (s : Marking) (txIds : List Nat) : Marking :=
  if txIds = [] then s
  else
    let locked := markLocked s.wal txIds
    if locked.1 = [] then { s with wal := locked.2, returned := s.returned ++ txIds }
    else { s with wal := locked.2, jobs := s.jobs ++ [⟨txIds, locked.1⟩] }

def diskPart (s : Marking) (job : MarkJob) : Marking :=
  { s with
    wal := markDisk s.wal job.diskTxIds
    jobs := s.jobs.erase job
    returned := s.returned ++ job.txIds }

def swap (s : Marking) : Marking :=
  { s with wal := (swapBuffer s.wal).2, writer := .swapped (swapBuffer s.wal).1 }

def copy (s : Marking) (buffer : List Record) : Marking :=
  { s with
    wal := (takeCompleted s.wal).2
    writer := .writing (takeCompleted s.wal).1 (fileBatches buffer) }

/-- The writer after a batch: the next one, or the top of its loop. -/
def afterBatch (completedCopy : Finset Nat) : List (List Record) → WriterState
  | [] => .idle
  | batches => .writing completedCopy batches

def writeBatch (s : Marking) (clock : Nat → Nat) (completedCopy : Finset Nat)
    (batch : List Record) (rest : List (List Record)) : Marking :=
  match writeBatchToDisk clock completedCopy s.wal batch with
  | (.ok (), w) =>
      { s with
        wal := w
        writer := afterBatch completedCopy rest
        written := s.written ++ batch }
  | (.error _, w) => { s with wal := w, writer := .idle }

inductive Event
  | append (payload : Bytes)
  | appendMany (payloads : List Bytes)
  | swap
  | copy
  | writeBatch (clock : Nat → Nat)
  | preAllocate (fileId : Nat)
  | markLocked (txIds : List Nat)
  | markDisk (job : MarkJob)

inductive Step : Marking → Event → Marking → Prop
  | append (s : Marking) (payload : Bytes) :
      Step s (.append payload) { s with wal := (appendToBuffer s.wal payload).2 }
  | appendMany (s : Marking) (payloads : List Bytes) :
      Step s (.appendMany payloads) { s with wal := (appendManyToBuffer s.wal payloads).2 }
  | swap (s : Marking) (idle : s.writer = .idle) (some : s.wal.walBuffer ≠ []) : Step s .swap s.swap
  | copy (s : Marking) (buffer : List Record) (swapped : s.writer = .swapped buffer) :
      Step s .copy (s.copy buffer)
  | writeBatch (s : Marking) (clock : Nat → Nat) (completedCopy : Finset Nat)
      (batch : List Record) (rest : List (List Record))
      (writing : s.writer = .writing completedCopy (batch :: rest)) :
      Step s (.writeBatch clock) (s.writeBatch clock completedCopy batch rest)
  | preAllocate (s : Marking) (fileId : Nat) (started : fileId ∈ s.wal.preallocating) :
      Step s (.preAllocate fileId) { s with wal := runPreAllocation s.wal fileId }
  | markLocked (s : Marking) (txIds : List Nat) : Step s (.markLocked txIds) (s.lockedPart txIds)
  | markDisk (s : Marking) (job : MarkJob) (pending : job ∈ s.jobs) :
      Step s (.markDisk job) (s.diskPart job)

/-- Every id whose call has returned and whose batch is written is completed on disk. -/
def MarksKept (s : Marking) : Prop :=
  ∀ txId ∈ s.returned, txId ∈ s.written.map Prod.fst → entryCompleted s.wal.disk txId = true

/-- The oldest id in the live buffer, or the next one. -/
def oldest (s : Marking) : Nat := s.wal.globalTxId - s.wal.walBuffer.length

/-- The oldest id that the copy-and-clear has not passed yet. -/
def uncopied (oldest : Nat) : WriterState → Nat
  | .swapped buffer => oldest - buffer.length
  | _ => oldest

/-- The ids of every call so far. -/
def named (s : Marking) : List Nat := s.returned ++ s.jobs.flatMap MarkJob.txIds

/-- The ids no disk part is still responsible for. -/
def credited (s : Marking) : List Nat :=
  s.returned ++ s.jobs.flatMap (fun job => job.txIds.filter (fun txId => txId ∉ job.diskTxIds))

/-- The private copy of the writer lies between the written records and the buffer. -/
def Private (written : List Record) (oldest : Nat) : WriterState → Prop
  | .idle => ∀ r ∈ written, r.1 < oldest
  | .swapped buffer => buffer.length ≤ oldest ∧
      buffer.map Prod.fst = List.range' (oldest - buffer.length) buffer.length ∧
      ∀ r ∈ written, r.1 < oldest - buffer.length
  | .writing _ batches => ∃ first, Chain first batches ∧
      first + batches.flatten.length ≤ oldest ∧ ∀ r ∈ written, r.1 < first

structure Inv (s : Marking) : Prop where
  attached : Attached s.wal
  counter : s.oldest + s.wal.walBuffer.length = s.wal.globalTxId
  ids : s.wal.walBuffer.map Prod.fst = List.range' s.oldest s.wal.walBuffer.length
  writer : Private s.written s.oldest s.writer
  written : ∀ r ∈ s.written, r.1 < 2 ^ 63 ∧ s.wal.disk.present (r.1 / walCapacity) = true
  inRam : ∀ txId ∈ s.named, uncopied s.oldest s.writer ≤ txId → txId ∈ s.wal.ramCompletedTx
  inCopy : ∀ txId ∈ s.credited, ∀ completedCopy batches,
    s.writer = .writing completedCopy batches → txId ∈ batches.flatten.map Prod.fst →
      txId ∈ completedCopy
  onDisk : ∀ txId ∈ s.credited, txId ∈ s.written.map Prod.fst → Flagged s.wal.disk txId

theorem credited_subset_named {s : Marking} {txId : Nat} (member : txId ∈ s.credited) :
    txId ∈ s.named := by
  rcases List.mem_append.mp member with returned | pending
  · exact List.mem_append_left _ returned
  · obtain ⟨job, inside, kept⟩ := List.mem_flatMap.mp pending
    exact List.mem_append_right _ (List.mem_flatMap.mpr ⟨job, inside, List.mem_of_mem_filter kept⟩)

/-- Written records are older than the live buffer. -/
theorem Private.written_lt {written : List Record} {oldest : Nat} {writer : WriterState}
    (shape : Private written oldest writer) : ∀ r ∈ written, r.1 < oldest := by
  intro r member
  cases writer with
  | idle => exact shape r member
  | swapped buffer =>
      have := shape.2.2 r member
      omega
  | writing completedCopy batches =>
      obtain ⟨first, _, bound, before⟩ := shape
      have := before r member
      omega

/-- So are the batches being written. -/
theorem Private.batches_lt {written : List Record} {oldest : Nat} {completedCopy : Finset Nat}
    {batches : List (List Record)} (shape : Private written oldest (.writing completedCopy batches))
    {txId : Nat} (member : txId ∈ batches.flatten.map Prod.fst) : txId < oldest := by
  obtain ⟨first, chain, bound, _⟩ := shape
  rw [chain.ids, List.mem_range'_1] at member
  omega

theorem start_inv : Inv start := by
  refine ⟨?_, rfl, rfl, ?_, ?_, ?_, ?_, ?_⟩
  · intro path handle opened
    cases opened
  · intro r member
    cases member
  · intro r member
    cases member
  · intro txId member
    cases member
  · intro txId member
    cases member
  · intro txId member
    cases member

/-- Steps of the WAL that leave buffer order, completed set and flags in place. -/
theorem Inv.keepsFlags {s : Marking} (inv : Inv s) {w : Wal} (keeps : KeepsFlags s.wal w)
    (flags : ∀ txId, Flagged s.wal.disk txId → Flagged w.disk txId) :
    Inv { s with wal := w } := by
  have oldest : Marking.oldest { s with wal := w } = s.oldest := by
    simp only [Marking.oldest, keeps.globalTxId, keeps.walBuffer]
  refine ⟨keeps.attached, ?_, ?_, ?_, ?_, ?_, inv.inCopy, ?_⟩
  · rw [oldest, keeps.walBuffer, keeps.globalTxId]
    exact inv.counter
  · rw [oldest, keeps.walBuffer]
    exact inv.ids
  · rw [oldest]
    exact inv.writer
  · intro r member
    exact ⟨(inv.written r member).1, keeps.present _ (inv.written r member).2⟩
  · rw [oldest, keeps.ramCompletedTx]
    exact inv.inRam
  · exact fun txId member written => flags txId (inv.onDisk txId member written)

theorem Inv.append {s : Marking} (inv : Inv s) (payload : Bytes) :
    Inv { s with wal := (appendToBuffer s.wal payload).2 } := by
  have counter := inv.counter
  have oldest : Marking.oldest { s with wal := (appendToBuffer s.wal payload).2 } = s.oldest := by
    simp only [Marking.oldest, appendToBuffer, List.length_append, List.length_singleton]
    omega
  refine ⟨inv.attached, ?_, ?_, ?_, inv.written, ?_, inv.inCopy, inv.onDisk⟩
  · rw [oldest]
    simp only [appendToBuffer, List.length_append, List.length_singleton]
    omega
  · rw [oldest]
    simp only [appendToBuffer, List.map_append, List.length_append, List.length_singleton,
      List.range'_1_concat, inv.ids, counter, List.map_cons, List.map_nil]
  · rw [oldest]
    exact inv.writer
  · rw [oldest]
    exact inv.inRam

theorem Inv.appendMany {s : Marking} (inv : Inv s) (payloads : List Bytes) :
    Inv { s with wal := (appendManyToBuffer s.wal payloads).2 } := by
  induction payloads generalizing s with
  | nil => exact inv
  | cons payload rest ih => exact ih (inv.append payload)

theorem Inv.swap {s : Marking} (inv : Inv s) (idle : s.writer = .idle) : Inv s.swap := by
  have counter := inv.counter
  have start : s.wal.globalTxId - s.wal.walBuffer.length = s.oldest := rfl
  have shape := inv.writer
  have inRam := inv.inRam
  rw [idle] at shape inRam
  refine ⟨inv.attached, rfl, rfl, ?_, inv.written, ?_, ?_, inv.onDisk⟩
  · show Private s.written s.wal.globalTxId (.swapped s.wal.walBuffer)
    refine ⟨by omega, ?_, ?_⟩
    · rw [start]
      exact inv.ids
    · rw [start]
      exact shape
  · exact inRam
  · intro txId member completedCopy batches writing
    cases writing

/-- The copy-and-clear, when no id of the completed set is ahead of the copy. -/
theorem Inv.copy {s : Marking} (inv : Inv s) {buffer : List Record}
    (swapped : s.writer = .swapped buffer) (behind : ∀ txId ∈ s.wal.ramCompletedTx, txId < s.oldest) :
    Inv (s.copy buffer) := by
  have shape := inv.writer
  have inRam := inv.inRam
  rw [swapped] at shape inRam
  obtain ⟨length, ids, before⟩ := shape
  obtain ⟨chain, flat⟩ := fileBatches_chain ids
  refine ⟨inv.attached, inv.counter, inv.ids, ⟨_, chain, ?_, before⟩, inv.written, ?_, ?_,
    inv.onDisk⟩
  · rw [flat]
    have oldest : (s.copy buffer).oldest = s.oldest := rfl
    omega
  · intro txId member ahead
    have known := inRam txId member (Nat.le_trans (Nat.sub_le _ _) ahead)
    exact absurd (behind txId known) (Nat.not_lt.mpr ahead)
  · intro txId member completedCopy batches writing inside
    cases writing
    rw [flat, ids, List.mem_range'_1] at inside
    exact inRam txId (credited_subset_named member) inside.1

theorem Inv.writeBatch {s : Marking} (inv : Inv s) (clock : Nat → Nat) {completedCopy : Finset Nat}
    {batch : List Record} {rest : List (List Record)}
    (writing : s.writer = .writing completedCopy (batch :: rest)) :
    Inv (s.writeBatch clock completedCopy batch rest) := by
  have shape := inv.writer
  have older := shape.written_lt
  have inRam := inv.inRam
  have inCopy : ∀ txId ∈ s.credited, txId ∈ (batch :: rest).flatten.map Prod.fst →
      txId ∈ completedCopy := fun txId member => inv.inCopy txId member completedCopy _ writing
  rw [writing] at shape inRam
  obtain ⟨first, chain, bound, before⟩ := shape
  obtain ⟨formed, _, later⟩ := chain
  obtain ⟨keeps, kept, set⟩ := writeBatchToDisk_flags inv.attached formed clock completedCopy
  have apart : ∀ txId ∈ s.written.map Prod.fst, txId ∉ batch.map Prod.fst := by
    intro txId old new
    obtain ⟨r, member, rfl⟩ := List.mem_map.mp old
    have := before r member
    rw [formed.ids, List.mem_range'_1] at new
    omega
  rw [List.flatten_cons, List.length_append] at bound
  unfold Marking.writeBatch
  cases result : writeBatchToDisk clock completedCopy s.wal batch with
  | mk outcome w =>
      rw [result] at keeps kept set
      have oldest : w.globalTxId - w.walBuffer.length = s.oldest := by
        rw [keeps.globalTxId, keeps.walBuffer]
        rfl
      have counter : s.oldest + w.walBuffer.length = w.globalTxId := by
        rw [keeps.walBuffer, keeps.globalTxId]
        exact inv.counter
      have ids : w.walBuffer.map Prod.fst = List.range' s.oldest w.walBuffer.length := by
        rw [keeps.walBuffer]
        exact inv.ids
      have present : ∀ r ∈ s.written,
          r.1 < 2 ^ 63 ∧ w.disk.present (r.1 / walCapacity) = true := fun r member =>
        ⟨(inv.written r member).1, keeps.present _ (inv.written r member).2⟩
      have flagged : ∀ txId ∈ s.credited, txId ∈ s.written.map Prod.fst → Flagged w.disk txId :=
        fun txId member old => kept txId (apart txId old) (inv.onDisk txId member old)
      cases outcome with
      | error e =>
          refine ⟨keeps.attached, ?_, ?_, ?_, present, ?_, ?_, flagged⟩
          · rw [Marking.oldest, oldest]
            exact counter
          · rw [Marking.oldest, oldest]
            exact ids
          · rw [Marking.oldest, oldest]
            exact older
          · rw [Marking.oldest, oldest, keeps.ramCompletedTx]
            exact inRam
          · intro txId member completedCopy batches writing
            cases writing
      | ok =>
          refine ⟨keeps.attached, ?_, ?_, ?_, ?_, ?_, ?_, ?_⟩
          · rw [Marking.oldest, oldest]
            exact counter
          · rw [Marking.oldest, oldest]
            exact ids
          · rw [Marking.oldest, oldest]
            have written : ∀ r ∈ s.written ++ batch, r.1 < first + batch.length := by
              intro r member
              rcases List.mem_append.mp member with old | new
              · have := before r old
                omega
              · exact (formed.bounds new).2
            cases rest with
            | nil =>
                intro r member
                have := written r member
                omega
            | cons next others => exact ⟨first + batch.length, later, by omega, written⟩
          · intro r member
            rcases List.mem_append.mp member with old | new
            · exact present r old
            · obtain ⟨valid, known, _⟩ := set rfl r new
              exact ⟨valid, known⟩
          · rw [Marking.oldest, oldest, keeps.ramCompletedTx]
            cases rest <;> exact inRam
          · intro txId member completedCopy' batches writing inside
            cases rest with
            | nil => cases writing
            | cons next others =>
                cases writing
                apply inCopy txId member
                rw [List.flatten_cons, List.map_append]
                exact List.mem_append_right _ inside
          · intro txId member written
            rw [List.map_append] at written
            rcases List.mem_append.mp written with old | new
            · exact flagged txId member old
            · have copied := inCopy txId member (by
                rw [List.flatten_cons, List.map_append]
                exact List.mem_append_left _ new)
              obtain ⟨r, inside, rfl⟩ := List.mem_map.mp new
              exact (set rfl r inside).2.2 copied

theorem Inv.preAllocate {s : Marking} (inv : Inv s) (fileId : Nat) :
    Inv { s with wal := runPreAllocation s.wal fileId } := by
  by_cases known : s.wal.disk.present fileId = true
  · have same : preAllocateAsync s.wal fileId = s.wal := by
      simp only [preAllocateAsync, known, ↓reduceIte]
    rw [runPreAllocation, same]
    exact inv.keepsFlags ⟨rfl, rfl, rfl, inv.attached, fun _ => id⟩ (fun _ => id)
  · have created : preAllocateAsync s.wal fileId =
        { s.wal with disk := preAllocateWal s.wal.disk fileId fullSize } := by
      simp only [preAllocateAsync, known, Bool.false_eq_true, ↓reduceIte]
    rw [Bool.not_eq_true] at known
    have keeps := preAllocateWal_keepsFlags inv.attached fileId fullSize known
    rw [runPreAllocation, created]
    exact inv.keepsFlags ⟨rfl, rfl, rfl, keeps.attached, keeps.present⟩
      (fun txId => preAllocateWal_flagged fileId fullSize known)

/-- The locked part puts every id into the completed set; it credits only ids of the
live buffer, which are neither written nor in the private copy. -/
theorem Inv.locked {s : Marking} (inv : Inv s) (txIds returned : List Nat) (jobs : List MarkJob)
    (names : ∀ txId ∈ returned ++ jobs.flatMap MarkJob.txIds, txId ∈ s.named ∨ txId ∈ txIds)
    (credits : ∀ txId ∈ returned ++ jobs.flatMap (fun job =>
      job.txIds.filter (fun txId => txId ∉ job.diskTxIds)), txId ∈ s.credited ∨ s.oldest ≤ txId) :
    Inv { s with
      wal := { s.wal with ramCompletedTx := s.wal.ramCompletedTx ∪ txIds.toFinset }
      returned := returned
      jobs := jobs } := by
  refine ⟨inv.attached, inv.counter, inv.ids, inv.writer, inv.written, ?_, ?_, ?_⟩
  · intro txId member ahead
    apply Finset.mem_union.mpr
    rcases names txId member with old | new
    · exact Or.inl (inv.inRam txId old ahead)
    · exact Or.inr (List.mem_toFinset.mpr new)
  · intro txId member completedCopy batches writing inside
    rcases credits txId member with old | live
    · exact inv.inCopy txId old completedCopy batches writing inside
    · have shape := inv.writer
      rw [show s.writer = .writing completedCopy batches from writing] at shape
      exact absurd (shape.batches_lt inside) (Nat.not_lt.mpr live)
  · intro txId member written
    rcases credits txId member with old | live
    · exact inv.onDisk txId old written
    · obtain ⟨r, inside, rfl⟩ := List.mem_map.mp written
      exact absurd (inv.writer.written_lt r inside) (Nat.not_lt.mpr live)

theorem Inv.lockedPart {s : Marking} (inv : Inv s) (txIds : List Nat) :
    Inv (s.lockedPart txIds) := by
  have live : ∀ txId ∈ txIds, txId ∉ (markLocked s.wal txIds).1 → s.oldest ≤ txId := by
    intro txId named kept
    have inside : inBufferRange s.wal.walBuffer txId = true := by
      by_contra outside
      apply kept
      rw [markLocked, List.mem_filter]
      exact ⟨named, by simpa using outside⟩
    exact ((inBufferRange_iff inv.ids).mp inside).1
  unfold Marking.lockedPart
  split
  · exact inv
  · dsimp only
    split
    · rename_i none
      apply inv.locked txIds
      · intro txId member
        rw [List.append_assoc] at member
        rcases List.mem_append.mp member with old | rest
        · exact Or.inl (List.mem_append_left _ old)
        · rcases List.mem_append.mp rest with new | pending
          · exact Or.inr new
          · exact Or.inl (List.mem_append_right _ pending)
      · intro txId member
        rw [List.append_assoc] at member
        rcases List.mem_append.mp member with old | rest
        · exact Or.inl (List.mem_append_left _ old)
        · rcases List.mem_append.mp rest with new | pending
          · exact Or.inr (live txId new (by rw [none]; exact List.not_mem_nil))
          · exact Or.inl (List.mem_append_right _ pending)
    · apply inv.locked txIds
      · intro txId member
        rw [List.flatMap_append, ← List.append_assoc] at member
        rcases List.mem_append.mp member with old | new
        · exact Or.inl old
        · exact Or.inr (by simpa using new)
      · intro txId member
        rw [List.flatMap_append, ← List.append_assoc] at member
        rcases List.mem_append.mp member with old | new
        · exact Or.inl old
        · rw [List.flatMap_singleton, List.mem_filter, decide_eq_true_eq] at new
          exact Or.inr (live txId new.1 new.2)

/-- The disk part, when none of its ids waits in a private batch without being in
the copied set. -/
theorem Inv.diskPart {s : Marking} (inv : Inv s) {job : MarkJob} (pending : job ∈ s.jobs)
    (settled : ∀ completedCopy batches, s.writer = .writing completedCopy batches →
      ∀ txId ∈ job.diskTxIds, txId ∈ batches.flatten.map Prod.fst → txId ∈ completedCopy) :
    Inv (s.diskPart job) := by
  obtain ⟨keeps, kept, set⟩ := markDisk_flags inv.attached job.diskTxIds
  have inv' := inv.keepsFlags keeps kept
  have names : ∀ txId ∈ (s.diskPart job).named, txId ∈ s.named := by
    intro txId member
    rcases List.mem_append.mp member with finished | rest
    · rcases List.mem_append.mp finished with old | new
      · exact List.mem_append_left _ old
      · exact List.mem_append_right _ (List.mem_flatMap.mpr ⟨job, pending, new⟩)
    · obtain ⟨other, inside, here⟩ := List.mem_flatMap.mp rest
      exact List.mem_append_right _
        (List.mem_flatMap.mpr ⟨other, List.mem_of_mem_erase inside, here⟩)
  have credits : ∀ txId ∈ (s.diskPart job).credited, txId ∈ s.credited ∨ txId ∈ job.diskTxIds := by
    intro txId member
    rcases List.mem_append.mp member with finished | rest
    · rcases List.mem_append.mp finished with old | new
      · exact Or.inl (List.mem_append_left _ old)
      · by_cases onDisk : txId ∈ job.diskTxIds
        · exact Or.inr onDisk
        · exact Or.inl (List.mem_append_right _ (List.mem_flatMap.mpr
            ⟨job, pending, List.mem_filter.mpr ⟨new, decide_eq_true onDisk⟩⟩))
    · obtain ⟨other, inside, here⟩ := List.mem_flatMap.mp rest
      exact Or.inl (List.mem_append_right _
        (List.mem_flatMap.mpr ⟨other, List.mem_of_mem_erase inside, here⟩))
  refine ⟨inv'.attached, inv'.counter, inv'.ids, inv'.writer, inv'.written, ?_, ?_, ?_⟩
  · exact fun txId member ahead => inv'.inRam txId (names txId member) ahead
  · intro txId member completedCopy batches writing inside
    rcases credits txId member with old | new
    · exact inv.inCopy txId old completedCopy batches writing inside
    · exact settled completedCopy batches writing txId new inside
  · intro txId member written
    rcases credits txId member with old | new
    · exact inv'.onDisk txId old written
    · obtain ⟨r, inside, rfl⟩ := List.mem_map.mp written
      obtain ⟨valid, known⟩ := inv.written r inside
      exact set r.1 new valid known

/-- The two windows are avoided: the copy-and-clear finds no id in the completed set
that its buffer does not reach yet, and a disk part has no id in the batches being
written that the copied set lacks. -/
def Careful (s : Marking) : Event → Prop
  | .copy => ∀ txId ∈ s.wal.ramCompletedTx, txId < s.oldest
  | .markDisk job => ∀ completedCopy batches, s.writer = .writing completedCopy batches →
      ∀ txId ∈ job.diskTxIds, txId ∈ batches.flatten.map Prod.fst → txId ∈ completedCopy
  | _ => True

theorem Inv.step {s t : Marking} {e : Event} (inv : Inv s) (step : Step s e t)
    (careful : Careful s e) : Inv t := by
  cases step with
  | append payload => exact inv.append payload
  | appendMany payloads => exact inv.appendMany payloads
  | swap idle some => exact inv.swap idle
  | copy buffer swapped => exact inv.copy swapped careful
  | writeBatch clock completedCopy batch rest writing => exact inv.writeBatch clock writing
  | preAllocate fileId started => exact inv.preAllocate fileId
  | markLocked txIds => exact inv.lockedPart txIds
  | markDisk job pending => exact inv.diskPart pending careful

theorem Inv.marksKept {s : Marking} (inv : Inv s) : MarksKept s := fun txId returned written =>
  (inv.onDisk txId (List.mem_append_left _ returned) written).entryCompleted

/-- No mark is lost in any interleaving that avoids the two windows. -/
theorem marks_kept_outside_windows {t : Marking} {events : List Event}
    (run : Run (Guarded Step Careful) start events t) : MarksKept t := by
  have inv : Inv t := run.preserves start_inv (fun s e u before step => before.step step.1 step.2)
  exact inv.marksKept

/-- A record that is marked while it is still in the buffer. -/
def markedInBuffer : Marking :=
  (({ start with wal := (appendToBuffer start.wal [1]).2 }.lockedPart [0]).swap.copy
    [(0, [1])]).writeBatch (fun _ => 0) {0} [(0, [1])] []

theorem mark_kept_from_buffer :
    MarksKept markedInBuffer ∧ entryCompleted markedInBuffer.wal.disk 0 = true := by
  have kept : MarksKept markedInBuffer := by
    apply marks_kept_outside_windows
    apply Run.cons ⟨Step.append _ [1], trivial⟩
    apply Run.cons ⟨Step.markLocked _ [0], trivial⟩
    apply Run.cons ⟨Step.swap _ rfl (by decide), trivial⟩
    apply Run.cons ⟨Step.copy _ [(0, [1])] rfl, by show ∀ txId ∈ _, _; decide⟩
    apply Run.cons ⟨Step.writeBatch _ (fun _ => 0) {0} [(0, [1])] [] rfl, trivial⟩
    exact Run.nil _
  exact ⟨kept, kept 0 (by decide +kernel) (by decide +kernel)⟩

/-- The mark of id 1 reaches the completed set between the swap and the
copy-and-clear of the buffer before it. -/
def clearedTooSoon : Marking :=
  let swapped := { start with wal := (appendToBuffer start.wal [1]).2 }.swap
  let marked := ({ swapped with wal := (appendToBuffer swapped.wal [2]).2 }).lockedPart [1]
  let first := (marked.copy [(0, [1])]).writeBatch (fun _ => 0) {1} [(0, [1])] []
  (first.swap.copy [(1, [2])]).writeBatch (fun _ => 0) ∅ [(1, [2])] []

/-- The disk part of the mark of id 0 runs before the entry of id 0 is written. -/
def overwritten : Marking :=
  let copied := { start with wal := (appendToBuffer start.wal [1]).2 }.swap.copy [(0, [1])]
  ((copied.lockedPart [0]).diskPart ⟨[0], [0]⟩).writeBatch (fun _ => 0) ∅ [(0, [1])] []

theorem marks_lost_in_windows :
    (∃ events, Run Step start events clearedTooSoon ∧ ¬ MarksKept clearedTooSoon) ∧
      ∃ events, Run Step start events overwritten ∧ ¬ MarksKept overwritten := by
  constructor
  · refine ⟨[.append [1], .swap, .append [2], .markLocked [1], .copy, .writeBatch (fun _ => 0),
      .swap, .copy, .writeBatch (fun _ => 0)], ?_, ?_⟩
    · apply Run.cons (Step.append _ _)
      apply Run.cons (Step.swap _ rfl (by decide))
      apply Run.cons (Step.append _ _)
      apply Run.cons (Step.markLocked _ _)
      apply Run.cons (Step.copy _ [(0, [1])] rfl)
      apply Run.cons (Step.writeBatch _ _ {1} [(0, [1])] [] rfl)
      apply Run.cons (Step.swap _ (by decide +kernel) (by decide +kernel))
      apply Run.cons (Step.copy _ [(1, [2])] (by decide +kernel))
      apply Run.cons (Step.writeBatch _ _ ∅ [(1, [2])] [] (by decide +kernel))
      exact Run.nil _
    · intro kept
      have completed := kept 1 (by decide +kernel) (by decide +kernel)
      revert completed
      decide +kernel
  · refine ⟨[.append [1], .swap, .copy, .markLocked [0], .markDisk ⟨[0], [0]⟩,
      .writeBatch (fun _ => 0)], ?_, ?_⟩
    · apply Run.cons (Step.append _ _)
      apply Run.cons (Step.swap _ rfl (by decide))
      apply Run.cons (Step.copy _ [(0, [1])] rfl)
      apply Run.cons (Step.markLocked _ _)
      apply Run.cons (Step.markDisk _ ⟨[0], [0]⟩ (by decide))
      apply Run.cons (Step.writeBatch _ _ ∅ [(0, [1])] [] (by decide +kernel))
      exact Run.nil _
    · intro kept
      have completed := kept 0 (by decide +kernel) (by decide +kernel)
      revert completed
      decide +kernel

end Marking

end CachyDb.Wal
