import Mathlib.Data.Finset.Filter
import CachyDb.Lib.Transition
import CachyDb.Wal.Checkpoint

set_option autoImplicit false

/-! Runs of appends, batch writes, marks and checkpoints, and when every record that
was written and not marked is still yielded after them. -/

namespace CachyDb.Wal

open ByteString Transition

/-- The writer's view during a run: the batches it still holds with its copy of the
completion set, what was written, lost and marked so far. -/
structure Upkeep where
  checkpoint : WALCheckpoint
  batches : List (List Record)
  completedCopy : Finset Nat
  written : List Record
  lost : List Nat
  marked : Finset Nat

namespace Upkeep

def wal (s : Upkeep) : Wal := s.checkpoint.wal

def withWal (s : Upkeep) (w : Wal) : Upkeep := { s with checkpoint.wal := w }

def start : Upkeep := ⟨⟨⟨0, [], ∅, none, FileSystem.empty, []⟩, []⟩, [], ∅, [], [], ∅⟩

/-- The swap together with the copy-and-clear of the completion set; an empty
buffer is left alone. -/
def swap (s : Upkeep) : Upkeep :=
  if s.wal.walBuffer = [] then s
  else
    let swapped := swapBuffer s.wal
    let taken := takeCompleted swapped.2
    { s.withWal taken.2 with
      batches := fileBatches swapped.1
      completedCopy := taken.1 }

/-- One batch is written together with the pre-allocation it starts. When it
raises, the rest of the swapped buffer is abandoned. -/
def writeBatch (s : Upkeep) (clock : Nat → Nat) : Upkeep :=
  match s.batches with
  | [] => s
  | batch :: rest =>
      match writeBatchToDisk clock s.completedCopy s.wal batch with
      | (.ok (), w) =>
          { s.withWal (runPreAllocations w) with
            batches := rest
            written := s.written ++ batch }
      | (.error _, w) =>
          { s.withWal (runPreAllocations w) with
            batches := []
            lost := s.lost ++ (batch ++ rest.flatten).map Prod.fst }

def mark (s : Upkeep) (txIds : List Nat) : Upkeep :=
  { s.withWal (markManyJobsComplete s.wal txIds) with marked := s.marked ∪ txIds.toFinset }

inductive Event
  | append (payload : Bytes)
  | appendMany (payloads : List Bytes)
  | swap
  | writeBatch (clock : Nat → Nat)
  | mark (txIds : List Nat)
  | checkpoint (activeFlushes : Nat)

inductive Step : Upkeep → Event → Upkeep → Prop
  | append (s : Upkeep) (payload : Bytes) :
      Step s (.append payload) (s.withWal (appendToBuffer s.wal payload).2)
  | appendMany (s : Upkeep) (payloads : List Bytes) :
      Step s (.appendMany payloads) (s.withWal (appendManyToBuffer s.wal payloads).2)
  | swap (s : Upkeep) (idle : s.batches = []) : Step s .swap s.swap
  | writeBatch (s : Upkeep) (clock : Nat → Nat) : Step s (.writeBatch clock) (s.writeBatch clock)
  | mark (s : Upkeep) (txIds : List Nat) (passed : ∀ txId ∈ txIds, txId < s.wal.globalTxId) :
      Step s (.mark txIds) (s.mark txIds)
  | checkpoint (s : Upkeep) (activeFlushes : Nat) :
      Step s (.checkpoint activeFlushes)
        { s with checkpoint := runCheckpoint activeFlushes s.checkpoint }

/-- Every written and unmarked record is still yielded. -/
def Kept (s : Upkeep) : Prop :=
  ∀ r ∈ s.written, r.1 ∉ s.marked → r ∈ (readWal s.wal.disk).records

/-- The oldest id that is not written or given up yet. -/
def next (s : Upkeep) : Nat :=
  s.wal.globalTxId - s.wal.walBuffer.length - s.batches.flatten.length

/-- `flagged` are the ids flagged on disk; all of them were marked. -/
structure Tended (s : Upkeep) (flagged : Finset Nat) : Prop where
  attended : Attended s.wal s.written flagged s.next
  counter : s.next + s.batches.flatten.length + s.wal.walBuffer.length = s.wal.globalTxId
  chain : Chain s.next s.batches
  ids : s.wal.walBuffer.map Prod.fst =
    List.range' (s.next + s.batches.flatten.length) s.wal.walBuffer.length
  payloads : ∀ r ∈ s.batches.flatten ++ s.wal.walBuffer, r.2 ≠ []
  lostBefore : ∀ txId ∈ s.lost, txId < s.next
  aligned : (∃ txId ∈ s.lost, txId / walCapacity = s.next / walCapacity) ∨
    Aligned s.written s.next
  flaggedMarked : ∀ r ∈ s.written, r.1 ∈ flagged → r.1 ∈ s.marked
  ramMarked : s.wal.ramCompletedTx ⊆ s.marked
  copyMarked : s.completedCopy ⊆ s.marked
  idle : s.wal.preallocating = []

theorem start_tended : Tended start ∅ := by
  refine ⟨⟨⟨List.Pairwise.nil, ?_, ?_, ?_, ?_⟩, ?_, ?_, ?_, ?_, ?_⟩, rfl, trivial, rfl, ?_, ?_,
    Or.inr ?_, ?_, Finset.Subset.refl _, Finset.Subset.refl _, rfl⟩
  · intro r member
    cases member
  · intro fileId file known
    rw [show start.wal.disk.file fileId = none from FileSystem.empty_file fileId] at known
    cases known
  · intro r member
    cases member
  · intro fileId handle i opened
    cases opened
  · intro r member
    cases member
  · intro fileId known
    rw [show start.wal.disk.present fileId = false from rfl] at known
    cases known
  · intro path handle opened
    cases opened
  · intro r member
    cases member
  · intro r member
    cases member
  · intro r member
    cases member
  · intro txId member
    cases member
  · exact aligned_boundary (fun r member => by cases member) rfl
  · intro r member
    cases member

theorem Tended.append {s : Upkeep} {flagged : Finset Nat} (tended : Tended s flagged)
    (payload : Bytes) (nonempty : payload ≠ []) :
    Tended (s.withWal (appendToBuffer s.wal payload).2) flagged := by
  have counter := tended.counter
  have next : (s.withWal (appendToBuffer s.wal payload).2).next = s.next := by
    simp only [Upkeep.next, withWal, Upkeep.wal, appendToBuffer, List.length_append,
      List.length_singleton]
    omega
  constructor
  · rw [next]
    exact tended.attended.frame rfl rfl
  · rw [next]
    simp only [withWal, Upkeep.wal, appendToBuffer, List.length_append, List.length_singleton]
    simp only [Upkeep.wal] at counter
    omega
  · rw [next]
    exact tended.chain
  · rw [next]
    have ids := tended.ids
    simp only [withWal, Upkeep.wal, appendToBuffer, List.map_append, List.length_append,
      List.length_singleton, List.range'_1_concat, List.map_cons, List.map_nil] at ids counter ⊢
    rw [ids, counter]
  · intro r member
    rw [show (s.withWal (appendToBuffer s.wal payload).2).batches.flatten ++
      (s.withWal (appendToBuffer s.wal payload).2).wal.walBuffer =
        s.batches.flatten ++ s.wal.walBuffer ++ [(s.wal.globalTxId, payload)] from
      (List.append_assoc _ _ _).symm] at member
    rcases List.mem_append.mp member with old | new
    · exact tended.payloads r old
    · rw [List.mem_singleton.mp new]
      exact nonempty
  · rw [next]
    exact tended.lostBefore
  · rw [next]
    exact tended.aligned
  · exact tended.flaggedMarked
  · exact tended.ramMarked
  · exact tended.copyMarked
  · exact tended.idle

theorem Tended.appendMany {s : Upkeep} {flagged : Finset Nat} (tended : Tended s flagged)
    (payloads : List Bytes) (nonempty : ∀ payload ∈ payloads, payload ≠ []) :
    Tended (s.withWal (appendManyToBuffer s.wal payloads).2) flagged := by
  induction payloads generalizing s with
  | nil => exact tended
  | cons payload rest ih =>
      exact ih (tended.append payload (nonempty payload List.mem_cons_self))
        (fun other member => nonempty other (List.mem_cons_of_mem _ member))

theorem Tended.swap {s : Upkeep} {flagged : Finset Nat} (tended : Tended s flagged)
    (idle : s.batches = []) : Tended s.swap flagged := by
  by_cases empty : s.wal.walBuffer = []
  · rw [Upkeep.swap, if_pos empty]
    exact tended
  · have ids := tended.ids
    have counter := tended.counter
    rw [idle, List.flatten_nil, List.length_nil, Nat.add_zero] at ids counter
    obtain ⟨chain, flat⟩ := fileBatches_chain ids
    have swapped : s.swap =
        { s.withWal { s.wal with walBuffer := [], ramCompletedTx := ∅ } with
          batches := fileBatches s.wal.walBuffer
          completedCopy := s.wal.ramCompletedTx } := by
      rw [Upkeep.swap, if_neg empty]
      rfl
    have next : s.swap.next = s.next := by
      rw [swapped]
      simp only [Upkeep.next, withWal, Upkeep.wal, List.length_nil, idle, List.flatten_nil] at *
      rw [flat]
      omega
    constructor
    · rw [next, swapped]
      exact tended.attended.frame rfl rfl
    · rw [next, swapped]
      simp only [withWal, Upkeep.wal, List.length_nil] at *
      rw [flat]
      exact counter
    · rw [next, swapped]
      exact chain
    · rw [swapped]
      rfl
    · rw [swapped]
      have payloads := tended.payloads
      rw [idle] at payloads
      simp only [withWal, Upkeep.wal, List.append_nil] at flat ⊢
      rw [flat]
      exact payloads
    · rw [next, swapped]
      exact tended.lostBefore
    · rw [next, swapped]
      exact tended.aligned
    · rw [swapped]
      exact tended.flaggedMarked
    · rw [swapped]
      exact Finset.empty_subset _
    · rw [swapped]
      exact tended.ramMarked
    · rw [swapped]
      exact tended.idle

/-- The next batch has ids in range, and does not still fit into a file in which
ids were lost before it. -/
def CarefulBatch (s : Upkeep) : Prop :=
  ∀ batch rest, s.batches = batch :: rest →
    (∀ r ∈ batch, validateTxId (r.1 + walCapacity) = .ok ()) ∧
      ∀ r ∈ batch, ∀ txId ∈ s.lost, txId / walCapacity = r.1 / walCapacity →
        payloadAreaSize < payloadBytes (fileRecords s.written (r.1 / walCapacity)) +
          payloadBytes batch

/-- The state after a batch that was written. -/
theorem Tended.written {s : Upkeep} {flagged flagged' : Finset Nat} (tended : Tended s flagged)
    {batch : List Record} {rest : List (List Record)} (head : s.batches = batch :: rest)
    {w : Wal} (attended : Attended w (s.written ++ batch) flagged' (s.next + batch.length))
    (aligned : Aligned s.written s.next) (same : SameVolatile s.wal w)
    (kept : ∀ r ∈ s.written, r.1 ∈ flagged' ↔ r.1 ∈ flagged)
    (copied : ∀ r ∈ batch, r.1 ∈ flagged' ↔ r.1 ∈ s.completedCopy) :
    Tended { s.withWal w with batches := rest, written := s.written ++ batch } flagged' := by
  have chain := tended.chain
  have counter := tended.counter
  have ids := tended.ids
  rw [head] at chain
  rw [head, List.flatten_cons, List.length_append] at counter ids
  have next : Upkeep.next { s.withWal w with batches := rest, written := s.written ++ batch } =
      s.next + batch.length := by
    simp only [Upkeep.next, withWal, Upkeep.wal, head, List.flatten_cons, List.length_append] at *
    rw [same.globalTxId, same.walBuffer]
    omega
  constructor
  · rw [next]
    exact attended
  · rw [next]
    simp only [withWal, Upkeep.wal] at *
    rw [same.globalTxId, same.walBuffer]
    omega
  · rw [next]
    exact chain.2.2
  · rw [next]
    simp only [withWal, Upkeep.wal] at *
    rw [same.walBuffer, ids, Nat.add_assoc]
  · have payloads := tended.payloads
    rw [head, List.flatten_cons, List.append_assoc] at payloads
    simp only [withWal, Upkeep.wal, same.walBuffer] at payloads ⊢
    exact fun r member => payloads r (List.mem_append_right _ member)
  · rw [next]
    intro txId member
    have := tended.lostBefore txId member
    omega
  · rw [next]
    exact Or.inr (chain.1.aligned tended.attended.before aligned)
  · intro r member inside
    rcases List.mem_append.mp member with old | new
    · exact tended.flaggedMarked r old ((kept r old).mp inside)
    · exact tended.copyMarked ((copied r new).mp inside)
  · simp only [withWal, Upkeep.wal, same.ramCompletedTx]
    exact tended.ramMarked
  · exact tended.copyMarked
  · exact same.idle

/-- The state after a batch that was rejected, with the rest of the swapped buffer. -/
theorem Tended.rejected {s : Upkeep} {flagged : Finset Nat} (tended : Tended s flagged)
    {batch : List Record} {rest : List (List Record)} (head : s.batches = batch :: rest)
    {w : Wal} (attended : Attended w s.written flagged s.next) (same : SameVolatile s.wal w) :
    Tended { s.withWal w with
      batches := []
      lost := s.lost ++ (batch ++ rest.flatten).map Prod.fst } flagged := by
  have chain := tended.chain
  have counter := tended.counter
  have ids := tended.ids
  have given := chain.ids
  rw [head] at chain given
  rw [List.flatten_cons] at given
  have positive := List.length_pos_iff.mpr chain.1.nonempty
  rw [head, List.flatten_cons] at counter ids
  have next : Upkeep.next { s.withWal w with
      batches := []
      lost := s.lost ++ (batch ++ rest.flatten).map Prod.fst } =
      s.next + (batch ++ rest.flatten).length := by
    simp only [Upkeep.next, withWal, Upkeep.wal, head, List.flatten_cons, List.length_append,
      List.flatten_nil, List.length_nil] at *
    rw [same.globalTxId, same.walBuffer]
    omega
  constructor
  · rw [next]
    exact attended.advance (Nat.le_add_right _ _)
  · rw [next]
    simp only [withWal, Upkeep.wal, List.flatten_nil, List.length_nil, Nat.add_zero] at *
    rw [same.globalTxId, same.walBuffer]
    exact counter
  · trivial
  · rw [next]
    simp only [withWal, Upkeep.wal, List.flatten_nil, List.length_nil, Nat.add_zero] at *
    rw [same.walBuffer, ids]
  · have payloads := tended.payloads
    simp only [withWal, Upkeep.wal, same.walBuffer, List.flatten_nil, List.nil_append] at payloads ⊢
    exact fun r member => payloads r (List.mem_append_right _ member)
  · rw [next]
    intro txId member
    rcases List.mem_append.mp member with old | new
    · have := tended.lostBefore txId old
      omega
    · rw [given, List.mem_range'_1] at new
      exact new.2
  · rw [next]
    apply lost_or_aligned
    · intro r member
      have := tended.attended.before r member
      omega
    · rw [List.length_append]
      omega
    · apply List.mem_append_right
      rw [given, List.mem_range'_1, List.length_append]
      omega
  · exact tended.flaggedMarked
  · simp only [withWal, Upkeep.wal, same.ramCompletedTx]
    exact tended.ramMarked
  · exact tended.copyMarked
  · exact same.idle

theorem Tended.writeBatch {s : Upkeep} {flagged : Finset Nat} (tended : Tended s flagged)
    (clock : Nat → Nat) (careful : CarefulBatch s) :
    ∃ flagged', Tended (s.writeBatch clock) flagged' := by
  cases head : s.batches with
  | nil =>
      rw [Upkeep.writeBatch, head]
      exact ⟨flagged, tended⟩
  | cons batch rest =>
      have chain := tended.chain
      rw [head] at chain
      have formed := chain.1
      obtain ⟨validIds, behind⟩ := careful batch rest head
      obtain ⟨r, tail, shape⟩ := List.exists_cons_of_ne_nil formed.nonempty
      have first : r ∈ batch := by
        rw [shape]
        exact List.mem_cons_self
      have home := formed.home r first
      have payloads : ∀ r ∈ batch, r.2 ≠ [] := by
        intro r member
        apply tended.payloads r
        rw [head, List.flatten_cons, List.append_assoc]
        exact List.mem_append_left _ member
      have valid : s.next + walCapacity < 2 ^ 63 := by
        have low := (formed.bounds first).1
        have := validateTxId_iff.mp (validIds r first)
        omega
      by_cases fits : payloadBytes (fileRecords s.written (s.next / walCapacity)) +
          payloadBytes batch ≤ payloadAreaSize
      · have aligned : Aligned s.written s.next := by
          rcases tended.aligned with ⟨txId, lost, sameFile⟩ | aligned
          · have overflow := behind r first txId lost (by rw [home, sameFile])
            rw [home] at overflow
            omega
          · exact aligned
        -- the new entries take their flags from the copied completion set
        have kept : ∀ r ∈ s.written, r.1 ∈ flagged.filter (fun txId => txId < s.next) ∪
            s.completedCopy.filter (fun txId => s.next ≤ txId) ↔ r.1 ∈ flagged := by
          intro r member
          have below := tended.attended.before r member
          simp only [Finset.mem_union, Finset.mem_filter, below, and_true, Nat.not_le.mpr below,
            and_false, or_false]
        have copied : ∀ r ∈ batch, r.1 ∈ flagged.filter (fun txId => txId < s.next) ∪
            s.completedCopy.filter (fun txId => s.next ≤ txId) ↔ r.1 ∈ s.completedCopy := by
          intro r member
          have above := (formed.bounds member).1
          simp only [Finset.mem_union, Finset.mem_filter, above, and_true, Nat.not_lt.mpr above,
            and_false, false_or]
        obtain ⟨w, accepted, attended, same⟩ := tended.attended.writeBatch_fits tended.idle formed
          payloads clock s.completedCopy valid aligned fits kept copied
        have result : s.writeBatch clock = { s.withWal (runPreAllocations w) with
            batches := rest
            written := s.written ++ batch } := by
          simp only [Upkeep.writeBatch, head, accepted]
        rw [result]
        exact ⟨_, tended.written head attended aligned same kept copied⟩
      · obtain ⟨e, w, refused, attended, same⟩ := tended.attended.writeBatch_overflow tended.idle
          formed clock s.completedCopy valid (by omega)
        have result : s.writeBatch clock = { s.withWal (runPreAllocations w) with
            batches := []
            lost := s.lost ++ (batch ++ rest.flatten).map Prod.fst } := by
          simp only [Upkeep.writeBatch, head, refused]
        rw [result]
        exact ⟨flagged, tended.rejected head attended same⟩

theorem Tended.mark {s : Upkeep} {flagged : Finset Nat} (tended : Tended s flagged)
    (txIds : List Nat) : ∃ flagged', Tended (s.mark txIds) flagged' := by
  by_cases none : txIds = []
  · subst none
    have same : s.mark [] = s := by
      simp only [Upkeep.mark, markManyJobsComplete, ↓reduceIte, List.toFinset_nil,
        Finset.union_empty]
      rfl
    rw [same]
    exact ⟨flagged, tended⟩
  · have locked : OnDisk { s.wal with ramCompletedTx := s.wal.ramCompletedTx ∪ txIds.toFinset }
        s.written flagged := tended.attended.disk.frame rfl rfl
    obtain ⟨disk, keeps⟩ := locked.markDisk (markLocked s.wal txIds).1 tended.attended.valid
    have done : (s.mark txIds).wal =
        markDisk { s.wal with ramCompletedTx := s.wal.ramCompletedTx ∪ txIds.toFinset }
          (markLocked s.wal txIds).1 := by
      simp only [Upkeep.mark, withWal, Upkeep.wal, markManyJobsComplete, none, ↓reduceIte,
        markLocked]
    rw [← done] at disk keeps
    have next : (s.mark txIds).next = s.next := by
      simp only [Upkeep.next, keeps.globalTxId, keeps.walBuffer]
      rfl
    refine ⟨flagged ∪ (markLocked s.wal txIds).1.toFinset, ?_⟩
    constructor
    · rw [next]
      have framed : Attended { s.wal with
          ramCompletedTx := s.wal.ramCompletedTx ∪ txIds.toFinset } s.written flagged s.next :=
        tended.attended.frame rfl rfl
      exact framed.keeps disk keeps
    · rw [next, keeps.walBuffer, keeps.globalTxId]
      exact tended.counter
    · rw [next]
      exact tended.chain
    · rw [next, keeps.walBuffer]
      exact tended.ids
    · rw [keeps.walBuffer]
      exact tended.payloads
    · rw [next]
      exact tended.lostBefore
    · rw [next]
      exact tended.aligned
    · intro r member inside
      apply Finset.mem_union.mpr
      rcases Finset.mem_union.mp inside with old | new
      · exact Or.inl (tended.flaggedMarked r member old)
      · exact Or.inr (List.mem_toFinset.mpr (List.mem_of_mem_filter (List.mem_toFinset.mp new)))
    · rw [keeps.ramCompletedTx]
      exact Finset.union_subset_union_left tended.ramMarked
    · exact tended.copyMarked.trans Finset.subset_union_left
    · rw [keeps.preallocating]
      exact tended.idle

theorem Tended.checkpoint {s : Upkeep} {flagged : Finset Nat} (tended : Tended s flagged)
    (activeFlushes : Nat)
    (spares : activeFlushes = 0 → ¬ Archives s.checkpoint (s.next / walCapacity)) :
    Tended { s with checkpoint := runCheckpoint activeFlushes s.checkpoint } flagged := by
  obtain ⟨attended, counter, buffer, ram, threads⟩ :=
    tended.attended.runCheckpoint activeFlushes spares
  have next : Upkeep.next { s with checkpoint := runCheckpoint activeFlushes s.checkpoint } =
      s.next := by
    simp only [Upkeep.next, Upkeep.wal, counter, buffer]
  constructor
  · rw [next]
    exact attended
  · rw [next]
    simp only [Upkeep.wal, counter, buffer]
    exact tended.counter
  · rw [next]
    exact tended.chain
  · rw [next]
    simp only [Upkeep.wal, buffer]
    exact tended.ids
  · simp only [Upkeep.wal, buffer]
    exact tended.payloads
  · rw [next]
    exact tended.lostBefore
  · rw [next]
    exact tended.aligned
  · exact tended.flaggedMarked
  · simp only [Upkeep.wal, ram]
    exact tended.ramMarked
  · exact tended.copyMarked
  · simp only [Upkeep.wal, threads]
    exact tended.idle

/-- Where the steps of a run keep the log: payloads are not empty, no batch is
written behind lost ids, and no checkpoint archives the file of the next id. -/
def Careful (s : Upkeep) : Event → Prop
  | .append payload => payload ≠ []
  | .appendMany payloads => ∀ payload ∈ payloads, payload ≠ []
  | .writeBatch _ => CarefulBatch s
  | .checkpoint activeFlushes =>
      activeFlushes = 0 → ¬ Archives s.checkpoint (s.next / walCapacity)
  | _ => True

theorem Tended.step {s t : Upkeep} {e : Event} {flagged : Finset Nat} (tended : Tended s flagged)
    (step : Step s e t) (careful : Careful s e) : ∃ flagged', Tended t flagged' := by
  cases step with
  | append payload => exact ⟨flagged, tended.append payload careful⟩
  | appendMany payloads => exact ⟨flagged, tended.appendMany payloads careful⟩
  | swap idle => exact ⟨flagged, tended.swap idle⟩
  | writeBatch clock => exact tended.writeBatch clock careful
  | mark txIds passed => exact tended.mark txIds
  | checkpoint activeFlushes => exact ⟨flagged, tended.checkpoint activeFlushes careful⟩

theorem Tended.kept {s : Upkeep} {flagged : Finset Nat} (tended : Tended s flagged) : Kept s := by
  intro r member unmarked
  rw [tended.attended.disk.readWal, List.mem_filter]
  exact ⟨member, decide_eq_true fun inside => unmarked (tended.flaggedMarked r member inside)⟩

/-- In every run of careful steps each written and unmarked record is yielded. -/
theorem kept_unless_active_archived {t : Upkeep} {events : List Event}
    (run : Run (Guarded Step Careful) start events t) : Kept t := by
  obtain ⟨flagged, tended⟩ := run.preserves (P := fun s => ∃ flagged, Tended s flagged)
    ⟨∅, start_tended⟩ (fun s e u before step =>
      let ⟨_, tended⟩ := before
      tended.step step.1 step.2)
  exact tended.kept

/-- One record in file 0, with file 1 pre-allocated behind it. -/
def oneWritten : Upkeep :=
  (start.withWal (appendToBuffer start.wal [1]).2).swap.writeBatch (fun _ => 0)

/-- A checkpoint spares the file while its record is not completed. -/
theorem kept_after_early_checkpoint :
    Kept { oneWritten with checkpoint := runCheckpoint 0 oneWritten.checkpoint } := by
  have careful : CarefulBatch (start.withWal (appendToBuffer start.wal [1]).2).swap := by
    intro batch rest head
    cases head
    refine ⟨by decide, ?_⟩
    intro r member txId lost
    cases lost
  have spared : ¬ Archives oneWritten.checkpoint (oneWritten.next / walCapacity) := by
    decide +kernel
  have first : Run (Guarded Step Careful) start [.append [1], .swap, .writeBatch (fun _ => 0)]
      oneWritten := by
    apply Run.cons ⟨Step.append _ _, List.cons_ne_nil _ _⟩
    apply Run.cons ⟨Step.swap _ rfl, trivial⟩
    apply Run.cons ⟨Step.writeBatch _ _, careful⟩
    exact Run.nil _
  exact kept_unless_active_archived (first.snoc ⟨Step.checkpoint _ 0, fun _ => spared⟩)

/-- The first record is completed while its file is sealed by the pre-allocated next
one, so the checkpoint archives the file that the second record belongs to. The
writer creates that file again and writes through the handle of the old one. -/
def activeArchived : Upkeep :=
  let completed := oneWritten.mark [0]
  let archived := { completed with checkpoint := runCheckpoint 0 completed.checkpoint }
  (archived.withWal (appendToBuffer archived.wal [2]).2).swap.writeBatch (fun _ => 0)

theorem record_lost_behind_archive : ∃ events, Run Step start events activeArchived ∧
    (1, [2]) ∈ activeArchived.written ∧ 1 ∉ activeArchived.marked ∧
    readWal activeArchived.wal.disk = ⟨[], false⟩ ∧ ¬ Kept activeArchived := by
  have written : (1, [2]) ∈ activeArchived.written := by decide +kernel
  have unmarked : 1 ∉ activeArchived.marked := by decide +kernel
  have records : readWal activeArchived.wal.disk = ⟨[], false⟩ := by decide +kernel
  refine ⟨[.append [1], .swap, .writeBatch (fun _ => 0), .mark [0], .checkpoint 0, .append [2],
    .swap, .writeBatch (fun _ => 0)], ?_, written, unmarked, records, ?_⟩
  · apply Run.cons (Step.append _ _)
    apply Run.cons (Step.swap _ rfl)
    apply Run.cons (Step.writeBatch _ _)
    apply Run.cons (Step.mark _ _ (by decide +kernel))
    apply Run.cons (Step.checkpoint _ _)
    apply Run.cons (Step.append _ _)
    apply Run.cons (Step.swap _ (by decide +kernel))
    apply Run.cons (Step.writeBatch _ _)
    exact Run.nil _
  · intro kept
    have yielded := kept (1, [2]) written unmarked
    rw [records] at yielded
    cases yielded

end Upkeep

end CachyDb.Wal
