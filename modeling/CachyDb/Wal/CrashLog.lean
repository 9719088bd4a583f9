import CachyDb.Wal.Atomicity

set_option autoImplicit false

/-! The log over any number of deaths of the process: each falls between two of the
writes of a batch, and the next process opens what it finds. -/

namespace CachyDb.Wal

open ByteString Transition

/-- The disk when the process dies after `writes` of the three writes of a batch. -/
def cutBatch (clock : Nat → Nat) (completedCopy : Finset Nat) (w : Wal) (batch : List Record)
    (writes : Nat) : Option (FileSystem Nat) :=
  let firstTxId := (batch.map Prod.fst).headD 0
  match ensureFile w firstTxId batch with
  | (.error _, _) => none
  | (.ok (), w) =>
      match getOpenFile w (firstTxId / walCapacity) with
      | (none, _) => none
      | (some handle, w) =>
          let file := w.disk.inode handle
          ((file :: appendTrace clock completedCopy batch file)[writes]?).map (w.disk.update handle)

theorem appendTrace_few (clock : Nat → Nat) (copy : Finset Nat) (batch : List Record) (file : File) :
    (appendTrace clock copy batch file).length ≤ 3 := by
  unfold appendTrace
  split
  · exact Nat.zero_le _
  · split
    · exact Nat.zero_le _
    · dsimp only
      split
      · exact Nat.le_add_left _ _
      · split <;> simp only [List.length_cons, List.length_nil] <;> omega

theorem cutBatch_few {clock : Nat → Nat} {copy : Finset Nat} {w : Wal} {batch : List Record}
    {writes : Nat} {disk : FileSystem Nat} (cut : cutBatch clock copy w batch writes = some disk) :
    writes ≤ 3 := by
  unfold cutBatch at cut
  dsimp only at cut
  split at cut
  · cases cut
  · split at cut
    · cases cut
    · obtain ⟨content, nth, _⟩ := Option.map_eq_some_iff.mp cut
      obtain ⟨inside, _⟩ := List.getElem?_eq_some_iff.mp nth
      rw [List.length_cons] at inside
      exact Nat.le_of_lt_succ (Nat.lt_of_lt_of_le inside
        (Nat.succ_le_succ (appendTrace_few _ _ _ _)))

/-- What is left of a batch after `writes` of its writes. -/
def keptBatch (batch : List Record) (writes : Nat) : List Record :=
  if writes = 3 then batch else []

/-- Until the third write the file is one in which the batch does not exist. -/
theorem Settled.cutBatch_fits {w : Wal} {written batch : List Record} {marked : Finset Nat}
    {first : Nat} (settled : Settled w written marked first) (formed : IsBatch batch first)
    (payloads : ∀ r ∈ batch, r.2 ≠ []) (clock : Nat → Nat) (copy : Finset Nat)
    (valid : first + walCapacity < 2 ^ 63) (aligned : Aligned written first)
    (copied : ∀ r ∈ batch, r.1 ∈ marked ↔ r.1 ∈ copy)
    (fits : payloadBytes (fileRecords written (first / walCapacity)) + payloadBytes batch ≤
      payloadAreaSize) {writes : Nat} (few : writes ≤ 3) :
    ∃ w', cutBatch clock copy w batch writes = some w'.disk ∧
      Settled w' (written ++ keptBatch batch writes) marked (first + batch.length) := by
  obtain ⟨w', ensured, inv, touches⟩ :=
    settled.disk.ensureFile first batch valid (settled.reachable _)
  obtain ⟨i, found⟩ := Option.isSome_iff_exists.mp touches.exists_file
  obtain ⟨paid, listed, full, trace, paidDisk, listedDisk, fullDisk⟩ :=
    (inv.opened found).appendTrace_fits found formed payloads clock copy valid settled.before aligned
      copied fits
  have known : ∀ content, ∀ r ∈ written, (w'.disk.update i content).present (r.1 / walCapacity) =
      true := by
    intro content r member
    show w'.disk.present (r.1 / walCapacity) = true
    rw [touches.present, settled.homes r member, Bool.or_true]
  have current : ∀ content path handle, some (first / walCapacity, i) = some (path, handle) →
      (w'.disk.update i content).present path = true := by
    intro content path handle opened
    cases opened
    exact touches.exists_file
  have before : ∀ r ∈ written, r.1 < first + batch.length :=
    fun r member => Nat.lt_add_right _ (settled.before r member)
  have cut : ∀ content, ((w'.disk.inode i :: [paid, listed, full])[writes]? = some content) →
      cutBatch clock copy w batch writes = some (w'.disk.update i content) := by
    intro content nth
    simp only [cutBatch, formed.head, ensured, inv.getOpenFile found, trace, nth, Option.map_some]
  have unfinished {content : File} (nth : (w'.disk.inode i :: [paid, listed, full])[writes]? =
      some content) (early : writes ≠ 3)
      (disk : OnDisk { w' with
        currentFile := some (first / walCapacity, i)
        disk := w'.disk.update i content } written marked) :
      ∃ w', cutBatch clock copy w batch writes = some w'.disk ∧
        Settled w' (written ++ keptBatch batch writes) marked (first + batch.length) := by
    refine ⟨{ w' with
      currentFile := some (first / walCapacity, i)
      disk := w'.disk.update i content }, cut content nth, ?_⟩
    rw [keptBatch, if_neg early, List.append_nil]
    exact ⟨disk, known content, current content, before⟩
  match writes, few with
  | 0, _ =>
      apply unfinished rfl (by decide)
      rw [FileSystem.update_same]
      exact inv.opened found
  | 1, _ => exact unfinished rfl (by decide) paidDisk
  | 2, _ => exact unfinished rfl (by decide) listedDisk
  | 3, _ =>
      refine ⟨{ w' with
        currentFile := some (first / walCapacity, i)
        disk := w'.disk.update i full }, cut full rfl, fullDisk, ?_, current full, ?_⟩
      · intro r member
        rcases List.mem_append.mp member with old | new
        · exact known full r old
        · rw [formed.home r new]
          exact touches.exists_file
      · intro r member
        rcases List.mem_append.mp member with old | new
        · exact before r old
        · exact (formed.bounds new).2

/-- A batch that does not fit is refused before the first write. -/
theorem Settled.cutBatch_overflow {w : Wal} {written batch : List Record} {marked : Finset Nat}
    {first : Nat} (settled : Settled w written marked first) (formed : IsBatch batch first)
    (clock : Nat → Nat) (copy : Finset Nat) (valid : first + walCapacity < 2 ^ 63)
    (overflow : payloadAreaSize <
      payloadBytes (fileRecords written (first / walCapacity)) + payloadBytes batch)
    {writes : Nat} {disk : FileSystem Nat}
    (died : cutBatch clock copy w batch writes = some disk) :
    writes = 0 ∧ ∃ w', w'.disk = disk ∧ Settled w' written marked (first + batch.length) := by
  obtain ⟨w', ensured, inv, touches⟩ :=
    settled.disk.ensureFile first batch valid (settled.reachable _)
  obtain ⟨i, found⟩ := Option.isSome_iff_exists.mp touches.exists_file
  have trace := (inv.opened found).appendTrace_overflow found formed clock copy overflow
  simp only [cutBatch, formed.head, ensured, inv.getOpenFile found] at died
  dsimp only at trace
  rw [trace] at died
  cases writes with
  | succ writes => cases died
  | zero =>
      simp only [List.getElem?_cons_zero, Option.map_some, Option.some.injEq] at died
      rw [FileSystem.update_same] at died
      refine ⟨rfl, { w' with currentFile := some (first / walCapacity, i) }, died, inv.opened found,
        ?_, ?_, ?_⟩
      · intro r member
        show w'.disk.present (r.1 / walCapacity) = true
        rw [touches.present, settled.homes r member, Bool.or_true]
      · intro path handle opened
        cases opened
        exact touches.exists_file
      · exact fun r member => Nat.lt_add_right _ (settled.before r member)

theorem Chain.front {finished rest : List (List Record)} {first : Nat}
    (chain : Chain first (finished ++ rest)) : Chain first finished := by
  induction finished generalizing first with
  | nil => trivial
  | cons batch finished ih =>
      obtain ⟨formed, boundary, later⟩ := chain
      refine ⟨formed, ?_, ih later⟩
      exact fun more => boundary (List.append_ne_nil_of_left_ne_nil more _)

theorem Chain.next {finished rest : List (List Record)} {batch : List Record} {first : Nat}
    (chain : Chain first (finished ++ batch :: rest)) :
    IsBatch batch (first + finished.flatten.length) := by
  induction finished generalizing first with
  | nil => exact chain.1
  | cons front finished ih =>
      rw [List.flatten_cons, List.length_append, ← Nat.add_assoc]
      exact ih chain.2.2

namespace Log

/-- The process dies within the flush of the buffer. The batches `finished` have been
written, which led to `w`, and of the three writes of `batch` the first `writes`. -/
structure Dies (s : Log) (clock : Nat → Nat) (finished : List (List Record)) (batch : List Record)
    (writes : Nat) (w : Wal) (disk : FileSystem Nat) : Prop where
  pieces : ∃ rest, fileBatches s.wal.walBuffer = finished ++ batch :: rest
  begun : writeBatches clock s.wal.ramCompletedTx
    { s.wal with walBuffer := [], ramCompletedTx := ∅ } finished = (.ok (), finished.flatten, w)
  cut : cutBatch clock s.wal.ramCompletedTx w batch writes = some disk

/-- The log of the process that opens the directory after a death. -/
def reborn (s : Log) (kept : List Record) (opened : Wal) : Log where
  wal := opened
  assigned := s.assigned
  swapped := s.swapped ++ s.wal.walBuffer
  written := s.written ++ kept
  lost := []
  marked := s.marked.filter (fun txId => txId ∈ (s.written ++ kept).map Prod.fst)

inductive Life
  | event (e : Event)
  | death (clock : Nat → Nat) (finished : List (List Record)) (batch : List Record) (writes : Nat)

inductive LifeStep : Log → Life → Log → Prop
  | event {s t : Log} {e : Event} (step : Step s e t) : LifeStep s (.event e) t
  | death {s : Log} {clock : Nat → Nat} {finished : List (List Record)} {batch : List Record}
      {writes : Nat} {w : Wal} {disk : FileSystem Nat} (opened : Wal)
      (died : Dies s clock finished batch writes w disk) (reopened : openWal disk = .ok opened) :
      LifeStep s (.death clock finished batch writes)
        (s.reborn (finished.flatten ++ keptBatch batch writes) opened)

/-- Flushes, those that a death cuts short included, write no batch behind lost ids. -/
def Permitted (s : Log) : Life → Prop
  | .event e => e.NonEmpty ∧ Careful s e
  | .death _ _ _ _ => IdsValid s ∧ NotBehindLoss s

/-- After the batches that have been written the directory is settled, and it is in step
with the batch that follows unless that one does not fit. -/
theorem InOrder.begun {s : Log} (inv : InOrder s) (valid : IdsValid s) (behind : NotBehindLoss s)
    {clock : Nat → Nat} {finished rest : List (List Record)} {w : Wal}
    (pieces : fileBatches s.wal.walBuffer = finished ++ rest)
    (begun : writeBatches clock s.wal.ramCompletedTx
      { s.wal with walBuffer := [], ramCompletedTx := ∅ } finished = (.ok (), finished.flatten, w)) :
    Settled w (s.written ++ finished.flatten) s.marked (s.next + finished.flatten.length) ∧
      Extends { s.wal with walBuffer := [], ramCompletedTx := ∅ } w ∧
      ∀ batch others, rest = batch :: others →
        Aligned (s.written ++ finished.flatten) (s.next + finished.flatten.length) ∨
          payloadAreaSize < payloadBytes (fileRecords (s.written ++ finished.flatten)
            ((s.next + finished.flatten.length) / walCapacity)) + payloadBytes batch := by
  obtain ⟨chain, flat⟩ := fileBatches_chain inv.ids
  have settled : Settled { s.wal with walBuffer := [], ramCompletedTx := ∅ } s.written s.marked
    s.next := inv.settled.frame rfl rfl
  have inFront : ∀ r ∈ finished.flatten, r ∈ s.wal.walBuffer := by
    intro r member
    rw [← flat, pieces, List.flatten_append]
    exact List.mem_append_left _ member
  rcases inv.aligned with spoiled | aligned
  · cases finished with
    | nil =>
        cases begun
        rw [List.flatten_nil, List.append_nil]
        refine ⟨settled, Extends.refl _, fun batch others shape => Or.inr ?_⟩
        rw [shape] at pieces
        exact (inv.blocked valid behind spoiled pieces).2
    | cons batch others =>
        obtain ⟨bound, overflow⟩ := inv.blocked valid behind spoiled pieces
        rw [pieces] at chain
        obtain ⟨e, w', refused, _⟩ :=
          settled.writeBatch_overflow chain.1 clock s.wal.ramCompletedTx bound overflow
        rw [writeBatches, refused] at begun
        cases begun
  · obtain ⟨outcome, kept, dropped, w', result, whole, final, extends', verdict⟩ :=
      settled.writeBatches finished (pieces ▸ chain).front
        (fun r member => inv.payloads r (inFront r member)) clock s.wal.ramCompletedTx
        (fun r member => validateTxId_iff.mp (valid r (inFront r member))) aligned
        (fun r member => inv.pending r (inFront r member))
    rw [begun] at result
    cases result
    refine ⟨final, extends', fun batch others shape => Or.inl ?_⟩
    rcases verdict with ⟨_, _, aligned⟩ | ⟨some, _⟩
    · exact aligned
    · have lengths := congrArg List.length whole
      have positive := List.length_pos_iff.mpr some
      rw [List.length_append] at lengths
      omega

/-- Before the batch and after the death the directory is settled. -/
theorem InOrder.dies {s : Log} (inv : InOrder s) (valid : IdsValid s) (behind : NotBehindLoss s)
    {clock : Nat → Nat} {finished : List (List Record)} {batch : List Record} {writes : Nat}
    {w : Wal} {disk : FileSystem Nat} (died : Dies s clock finished batch writes w disk) :
    writes ≤ 3 ∧ (∃ first, Settled w (s.written ++ finished.flatten) s.marked first) ∧
      ∃ w' first, w'.disk = disk ∧
        Settled w' (s.written ++ (finished.flatten ++ keptBatch batch writes)) s.marked first := by
  obtain ⟨⟨rest, pieces⟩, begun, cut⟩ := died
  obtain ⟨settled, _, either⟩ := inv.begun valid behind pieces begun
  obtain ⟨chain, flat⟩ := fileBatches_chain inv.ids
  rw [pieces] at chain
  rw [pieces, List.flatten_append, List.flatten_cons] at flat
  have formed := chain.next
  have inBatch : ∀ r ∈ batch, r ∈ s.wal.walBuffer := by
    intro r member
    rw [← flat]
    exact List.mem_append_right _ (List.mem_append_left _ member)
  have bound : s.next + finished.flatten.length + walCapacity < 2 ^ 63 := by
    obtain ⟨r, tail, shape⟩ := List.exists_cons_of_ne_nil formed.nonempty
    have first : r ∈ batch := by
      rw [shape]
      exact List.mem_cons_self
    have low := (formed.bounds first).1
    have high := validateTxId_iff.mp (valid r (inBatch r first))
    omega
  rw [← List.append_assoc]
  by_cases fits : payloadBytes (fileRecords (s.written ++ finished.flatten)
      ((s.next + finished.flatten.length) / walCapacity)) + payloadBytes batch ≤ payloadAreaSize
  · have aligned := (either batch rest rfl).resolve_right (Nat.not_lt.mpr fits)
    obtain ⟨w', cut', after⟩ := settled.cutBatch_fits formed
      (fun r member => inv.payloads r (inBatch r member)) clock s.wal.ramCompletedTx bound
      aligned (fun r member => inv.pending r (inBatch r member)) fits (cutBatch_few cut)
    rw [cut, Option.some.injEq] at cut'
    exact ⟨cutBatch_few cut, ⟨_, settled⟩, w', _, cut'.symm, after⟩
  · obtain ⟨rfl, w', same, after⟩ :=
      settled.cutBatch_overflow formed clock _ bound (by omega) cut
    have none : s.written ++ finished.flatten ++ keptBatch batch 0 =
        s.written ++ finished.flatten := List.append_nil _
    refine ⟨by decide, ⟨_, settled⟩, w',
      s.next + finished.flatten.length + batch.length, same, ?_⟩
    rw [none]
    exact after

/-- A settled directory with the kept records is one to go on from. -/
theorem settled_reborn {s : Log} {kept : List Record} {w : Wal} {first : Nat}
    (settled : Settled w (s.written ++ kept) s.marked first) :
    ∃ opened, openWal w.disk = .ok opened ∧ InOrder (s.reborn kept opened) := by
  obtain ⟨opened, result, none, fresh⟩ := @settled_reopened _ _ _ _ settled []
    (fun target member => by cases member) s.assigned (s.swapped ++ s.wal.walBuffer)
  have same : { opened with preallocating := [] } = opened := by
    rw [← none]
  rw [same] at fresh
  exact ⟨opened, result, fresh⟩

theorem InOrder.reborn {s : Log} (inv : InOrder s) (valid : IdsValid s) (behind : NotBehindLoss s)
    {clock : Nat → Nat} {finished : List (List Record)} {batch : List Record} {writes : Nat}
    {w : Wal} {disk : FileSystem Nat} (died : Dies s clock finished batch writes w disk) :
    ∃ opened, openWal disk = .ok opened ∧
      InOrder (s.reborn (finished.flatten ++ keptBatch batch writes) opened) := by
  obtain ⟨_, _, w', first, rfl, settled⟩ := inv.dies valid behind died
  exact settled_reborn settled

theorem InOrder.lifeStep {s t : Log} {life : Life} (inv : InOrder s) (step : LifeStep s life t)
    (permitted : Permitted s life) : InOrder t := by
  cases step with
  | event step => exact inv.step step permitted.1 permitted.2
  | death opened died reopened =>
      obtain ⟨opened', result, fresh⟩ := inv.reborn permitted.1 permitted.2 died
      rw [reopened, Except.ok.injEq] at result
      rw [result]
      exact fresh

/-- The reader finds every unmarked record that was written, and a flush writes all of a
buffer that its files have room for. -/
def Works (s : Log) : Prop :=
  Wal.readWal s.wal.disk = ⟨s.written.filter (fun r => r.1 ∉ s.marked), false⟩ ∧
    ∀ clock, IdsValid s → Unspoiled s → RoomFor s.written s.wal.walBuffer →
      (s.flush clock).written = s.written ++ s.wal.walBuffer

theorem InOrder.works {s : Log} (inv : InOrder s) : Works s := by
  refine ⟨inv.readWal, ?_⟩
  intro clock valid unspoiled room
  by_cases empty : s.wal.walBuffer = []
  · rw [flush_nil s clock empty, empty, List.append_nil]
  · have sound := inv.sound valid unspoiled
    obtain ⟨chain, flat⟩ := fileBatches_chain inv.ids
    obtain ⟨outcome, kept, dropped, w', result, whole, _, _, verdict⟩ :=
      sound.settled.writeBatches _ chain (by rw [flat]; exact inv.payloads) clock
        s.wal.ramCompletedTx (by rw [flat]; exact sound.small) sound.aligned
        (by rw [flat]; exact inv.pending)
    rw [flat] at whole verdict
    have done : (s.flush clock).written = s.written ++ kept := by
      simp only [Log.flush, Wal.flushBuffer, swapBuffer, writeBufferToDisk, empty, ↓reduceIte,
        takeCompleted, result]
    rcases verdict with ⟨none, _⟩ | ⟨_, fileId, overflow⟩
    · rw [done, whole, none, List.append_nil]
    · by_cases some : fileRecords s.wal.walBuffer fileId = []
      · rw [fileRecords_append, some, List.append_nil] at overflow
        exact absurd overflow (Nat.not_lt.mpr (inv.settled.room fileId))
      · exact absurd overflow (Nat.not_lt.mpr (room fileId some))

/-- A batch that a death cuts short is in the log as a whole or not at all, and the log
goes on to work, whatever deaths, flushes and marks follow. -/
theorem batch_append_atomic {s : Log} {lives : List Life}
    (run : Run (Guarded LifeStep Permitted) start lives s) (valid : IdsValid s)
    (behind : NotBehindLoss s) {clock : Nat → Nat} {finished : List (List Record)}
    {batch : List Record} {writes : Nat} {w : Wal} {disk : FileSystem Nat}
    (died : Dies s clock finished batch writes w disk) :
    (Wal.readWal disk = Wal.readWal w.disk ∨ Wal.readWal disk =
      ⟨(Wal.readWal w.disk).records ++ batch.filter (fun r => r.1 ∉ s.wal.ramCompletedTx), false⟩) ∧
    ∃ opened, openWal disk = .ok opened ∧ ∀ later t,
      Run (Guarded LifeStep Permitted)
        (s.reborn (finished.flatten ++ keptBatch batch writes) opened) later t → Works t := by
  have inv : InOrder s := run.preserves start_inOrder
    fun u life v before step => before.lifeStep step.1 step.2
  obtain ⟨few, ⟨_, before⟩, w', _, rfl, after⟩ := inv.dies valid behind died
  obtain ⟨opened, reopened, fresh⟩ := inv.reborn valid behind died
  refine ⟨?_, opened, reopened, ?_⟩
  · rw [after.disk.readWal, before.disk.readWal, ← List.append_assoc, List.filter_append]
    by_cases all : writes = 3
    · right
      obtain ⟨rest, pieces⟩ := died.pieces
      have waiting : ∀ r ∈ batch, r ∈ s.wal.walBuffer := by
        intro r member
        rw [← (fileBatches_chain inv.ids).2, pieces, List.flatten_append, List.flatten_cons]
        exact List.mem_append_right _ (List.mem_append_left _ member)
      have same : batch.filter (fun r => r.1 ∉ s.marked) =
          batch.filter (fun r => r.1 ∉ s.wal.ramCompletedTx) := by
        apply List.filter_congr
        intro r member
        exact decide_eq_decide.mpr (not_congr (inv.pending r (waiting r member)))
      rw [keptBatch, if_pos all, same]
    · left
      rw [keptBatch, if_neg all, List.filter_nil, List.append_nil]
  · intro later t rest
    apply InOrder.works
    exact rest.preserves fresh fun u life v before step => before.lifeStep step.1 step.2

/-- One record is written, and two more wait. -/
def oneOfThree : List Event := [.append [7], .flush fun _ => 0, .appendMany [[8, 9], [10]]]

theorem oneOfThree_run : ∃ s, Run (Guarded LifeStep Permitted) start (oneOfThree.map .event) s ∧
    InOrder s ∧ s.lost = [] ∧ s.written = [(0, [7])] ∧ s.marked = ∅ ∧
    s.wal.walBuffer = [(1, [8, 9]), (2, [10])] := by
  have flushed (s : Log) : (s.flush fun _ => 0).wal = (flushBuffer (fun _ => 0) s.wal).2.2 := rfl
  have pair (s : Log) : (s.appendMany [[8, 9], [10]]).wal.walBuffer =
      s.wal.walBuffer ++ [(s.wal.globalTxId, [8, 9])] ++ [(s.wal.globalTxId + 1, [10])] := rfl
  have first : (start.append [7]).wal.globalTxId = 1 := rfl
  have run : Run (Guarded Step fun s e => e.NonEmpty ∧ Drained s e) start oneOfThree
      (((start.append [7]).flush fun _ => 0).appendMany [[8, 9], [10]]) :=
    .cons ⟨.append _ _, List.cons_ne_nil _ _, trivial⟩ (.cons ⟨.flush _ _, trivial, trivial⟩
      (.cons ⟨.appendMany _ _, by simp [Event.NonEmpty], trivial⟩ (.nil _)))
  have fits : Fits (((start.append [7]).flush fun _ => 0).appendMany [[8, 9], [10]]) := by
    have swapped : (((start.append [7]).flush fun _ => 0).appendMany [[8, 9], [10]]).swapped =
        [(0, [7])] := rfl
    constructor
    · intro fileId
      rw [swapped]
      by_cases zero : fileId = 0
      · subst zero
        decide
      · rw [fileRecords_none (show ∀ r ∈ [((0, [7]) : Record)], r.1 / walCapacity = 0 by decide) zero]
        exact Nat.zero_le _
    · rw [swapped]
      decide
  obtain ⟨inv, complete⟩ := complete_run run fits
  have valid : IdsValid (start.append [7]) := by
    show ∀ r ∈ [((0, [7]) : Record)], validateTxId (r.1 + walCapacity) = .ok ()
    decide
  refine ⟨_, ?_, inv, complete.nothingLost, complete.all, rfl, ?_⟩
  · exact .cons ⟨.event (.append _ _), List.cons_ne_nil _ _, trivial⟩
      (.cons ⟨.event (.flush _ _), trivial, valid, fun _ _ _ lost => (by cases lost)⟩
        (.cons ⟨.event (.appendMany _ _), by simp [Event.NonEmpty], trivial⟩ (.nil _)))
  · rw [pair, flushed, flushBuffer_empties, flushBuffer_counter, first]
    rfl

/-- The process dies before the header of the file is written again. The record that was written
before is still read, and the next process has a log that works. -/
theorem batch_append_atomic_of_two : ∃ s w disk opened,
    Run (Guarded LifeStep Permitted) start (oneOfThree.map .event) s ∧
    Dies s (fun _ => 0) [] [(1, [8, 9]), (2, [10])] 2 w disk ∧ openWal disk = .ok opened ∧
    Works (s.reborn [] opened) ∧ (Wal.readWal disk = ⟨[(0, [7])], false⟩ ∨
      Wal.readWal disk = ⟨[(0, [7]), (1, [8, 9]), (2, [10])], false⟩) := by
  obtain ⟨s, run, inv, lost, written, marked, buffer⟩ := oneOfThree_run
  have valid : IdsValid s := by
    rw [IdsValid, buffer]
    decide
  have behind : NotBehindLoss s := by
    intro r member txId inside
    rw [lost] at inside
    cases inside
  have next : s.next = 1 := by
    have ids := inv.ids
    rw [buffer] at ids
    exact (List.cons.inj ids).1.symm
  have settled : Settled { s.wal with walBuffer := [], ramCompletedTx := ∅ } s.written s.marked
      s.next := inv.settled.frame rfl rfl
  rw [written, next] at settled
  have formed : IsBatch [(1, [8, 9]), (2, [10])] 1 := ⟨List.cons_ne_nil _ _, rfl, by decide⟩
  have aligned : Aligned [(0, [7])] 1 := by
    rw [Aligned]
    decide
  obtain ⟨w', cut, _⟩ := settled.cutBatch_fits formed (by decide) (fun _ => 0) s.wal.ramCompletedTx
    (by decide) aligned (fun r member => inv.pending r (buffer ▸ member)) (by decide)
    (show 2 ≤ 3 by decide)
  have died : Dies s (fun _ => 0) [] [(1, [8, 9]), (2, [10])] 2
      { s.wal with walBuffer := [], ramCompletedTx := ∅ } w'.disk :=
    ⟨⟨[], by rw [buffer]; rfl⟩, rfl, cut⟩
  obtain ⟨either, opened, reopened, works⟩ := batch_append_atomic run valid behind died
  have before : Wal.readWal s.wal.disk = ⟨[(0, [7])], false⟩ := by
    rw [inv.readWal, written, marked]
    rfl
  have unmarked : ([(1, [8, 9]), (2, [10])] : List Record).filter (fun r => r.1 ∉ s.wal.ramCompletedTx) =
      [(1, [8, 9]), (2, [10])] := by
    apply List.filter_eq_self.mpr
    intro r member
    have completed : r.1 ∉ s.wal.ramCompletedTx := by
      rw [← inv.pending r (buffer ▸ member), marked]
      exact Finset.notMem_empty _
    exact decide_eq_true completed
  refine ⟨s, _, w'.disk, opened, run, died, reopened, works [] _ (Run.nil _), ?_⟩
  rcases either with old | new
  · exact Or.inl (old.trans before)
  · right
    rw [new, unmarked]
    show (⟨(Wal.readWal s.wal.disk).records ++ _, false⟩ : Yielded) = _
    rw [before]
    rfl

end Log

end CachyDb.Wal
