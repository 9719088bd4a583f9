import CachyDb.Lib.Transition
import CachyDb.Wal.Counter
import CachyDb.Wal.Flush

set_option autoImplicit false

/-! Shutdown against the writer loop and late appends. The instance lock is not
reentrant, so who holds it is part of the state. -/

namespace CachyDb.Wal

open ByteString Transition

inductive Thread
  | writer
  | caller
  deriving DecidableEq

/-- The writer loop: at its test of the stop event, waiting for the flush event,
behind the swap, inside `_write_buffer_to_disk`, or gone. -/
inductive LoopState
  | top
  | waiting
  | swapped (buffer : List Record)
  | writing (completedCopy : Finset Nat) (batches : List (List Record))
  | exited

/-- The caller of `shutdown`: before the call, joining the writer, calling
`force_flush`, holding the lock before and after the test of the buffer, acquiring
it once more in `_write_buffer_to_disk`, writing there, closing the file, and
returned, with the buffer and the appended records of that moment. -/
inductive CallerState
  | before
  | joining
  | calling
  | holding
  | entering
  | writing (completedCopy : Finset Nat) (batches : List (List Record))
  | closing
  | returned (buffer appended : List Record)

structure Closing where
  wal : Wal
  lock : Option Thread
  stop : Bool
  loop : LoopState
  caller : CallerState
  appended : List Record
  written : List Record

namespace Closing

def start : Closing :=
  ⟨⟨0, [], ∅, none, FileSystem.empty, []⟩, none, false, .top, .before, [], []⟩

inductive Event
  | append (payload : Bytes)
  | appendMany (payloads : List Bytes)
  | writerTest
  | writerSwap
  | writerCopy
  | writerBatch (clock : Nat → Nat)
  | writerDone
  | callShutdown
  | join
  | acquire
  | testBuffer
  | reacquire
  | callerBatch (clock : Nat → Nat)
  | clear
  | close

/-- A section under the lock is one step, taken while the lock is free; only the
caller keeps the lock from step to step. Batch writes are taken to succeed. -/
inductive Step : Closing → Event → Closing → Prop
  | append (s : Closing) (payload : Bytes) (free : s.lock = none) :
      Step s (.append payload)
        { s with
          wal := (appendToBuffer s.wal payload).2
          appended := s.appended ++ [((appendToBuffer s.wal payload).1, payload)] }
  | appendMany (s : Closing) (payloads : List Bytes) (free : s.lock = none) :
      Step s (.appendMany payloads)
        { s with
          wal := (appendManyToBuffer s.wal payloads).2
          appended := s.appended ++ (appendManyToBuffer s.wal payloads).1.zip payloads }
  | writerTest (s : Closing) (top : s.loop = .top) :
      Step s .writerTest { s with loop := if s.stop then .exited else .waiting }
  | writerSwap (s : Closing) (waiting : s.loop = .waiting) (free : s.lock = none) :
      Step s .writerSwap
        (if s.wal.walBuffer = [] then { s with loop := .top }
        else { s with wal := (swapBuffer s.wal).2, loop := .swapped (swapBuffer s.wal).1 })
  | writerCopy (s : Closing) (buffer : List Record) (swapped : s.loop = .swapped buffer)
      (free : s.lock = none) :
      Step s .writerCopy
        { s with
          wal := (takeCompleted s.wal).2
          loop := .writing (takeCompleted s.wal).1 (fileBatches buffer) }
  | writerBatch (s : Closing) (clock : Nat → Nat) (completedCopy : Finset Nat)
      (batch : List Record) (rest : List (List Record)) (w : Wal)
      (writing : s.loop = .writing completedCopy (batch :: rest))
      (succeeds : writeBatchToDisk clock completedCopy s.wal batch = (.ok (), w)) :
      Step s (.writerBatch clock)
        { s with
          wal := w
          loop := .writing completedCopy rest
          written := s.written ++ batch }
  | writerDone (s : Closing) (completedCopy : Finset Nat)
      (writing : s.loop = .writing completedCopy []) :
      Step s .writerDone { s with loop := .top }
  | callShutdown (s : Closing) (before : s.caller = .before) :
      Step s .callShutdown { s with stop := true, caller := .joining }
  | join (s : Closing) (joining : s.caller = .joining) (exited : s.loop = .exited) :
      Step s .join { s with caller := .calling }
  | acquire (s : Closing) (calling : s.caller = .calling) (free : s.lock = none) :
      Step s .acquire { s with lock := some .caller, caller := .holding }
  | testBuffer (s : Closing) (holding : s.caller = .holding) :
      Step s .testBuffer
        { s with caller := if s.wal.walBuffer = [] then .closing else .entering }
  | reacquire (s : Closing) (entering : s.caller = .entering) (free : s.lock = none) :
      Step s .reacquire
        { s with
          wal := (takeCompleted s.wal).2
          caller := .writing (takeCompleted s.wal).1 (fileBatches s.wal.walBuffer) }
  | callerBatch (s : Closing) (clock : Nat → Nat) (completedCopy : Finset Nat)
      (batch : List Record) (rest : List (List Record)) (w : Wal)
      (writing : s.caller = .writing completedCopy (batch :: rest))
      (succeeds : writeBatchToDisk clock completedCopy s.wal batch = (.ok (), w)) :
      Step s (.callerBatch clock)
        { s with
          wal := w
          caller := .writing completedCopy rest
          written := s.written ++ batch }
  | clear (s : Closing) (completedCopy : Finset Nat)
      (writing : s.caller = .writing completedCopy []) :
      Step s .clear { s with wal := { s.wal with walBuffer := [] }, caller := .closing }
  | close (s : Closing) (closing : s.caller = .closing) :
      Step s .close
        { s with
          wal := { s.wal with currentFile := none }
          lock := none
          caller := .returned s.wal.walBuffer s.appended }

/-- The caller waits for the lock that it holds itself. -/
def SelfDeadlocked (s : Closing) : Prop := s.caller = .entering ∧ s.lock = some .caller

/-- `force_flush` never waits for its own lock, and when it returned the buffer was
empty and every record appended by then was written. -/
structure Drains (s : Closing) : Prop where
  live : ¬ SelfDeadlocked s
  drained : ∀ buffer appended, s.caller = .returned buffer appended →
    buffer = [] ∧ ∀ r ∈ appended, r ∈ s.written

/-- The records the writer thread has taken but not written. -/
def inHand : LoopState → List Record
  | .swapped buffer => buffer
  | .writing _ batches => batches.flatten
  | _ => []

/-- What each place of the caller says about the rest, when no flush re-enters. -/
def CallerFits (s : Closing) : CallerState → Prop
  | .before => True
  | .joining => True
  | .calling => s.loop = .exited
  | .holding => s.loop = .exited ∧ s.lock = some .caller ∧ s.wal.walBuffer = []
  | .closing => s.loop = .exited ∧ s.lock = some .caller ∧ s.wal.walBuffer = []
  | .entering => False
  | .writing _ _ => False
  | .returned buffer appended =>
      s.loop = .exited ∧ buffer = [] ∧ ∀ r ∈ appended, r ∈ s.written

structure Inv (s : Closing) : Prop where
  placed : ∀ r ∈ s.appended, r ∈ s.written ∨ r ∈ inHand s.loop ∨ r ∈ s.wal.walBuffer
  caller : CallerFits s s.caller

theorem start_inv : Inv start := by
  refine ⟨?_, trivial⟩
  intro r member
  cases member

theorem appendManyToBuffer_buffer (w : Wal) (payloads : List Bytes) :
    (appendManyToBuffer w payloads).2.walBuffer =
      w.walBuffer ++ (appendManyToBuffer w payloads).1.zip payloads := by
  induction payloads generalizing w with
  | nil => simp only [appendManyToBuffer, List.zip_nil_right, List.append_nil]
  | cons payload rest ih =>
      simp only [appendManyToBuffer, ih, appendToBuffer, List.append_assoc,
        List.singleton_append, List.zip_cons_cons]

/-- While the caller holds no lock, its place fits whatever the others do; a loop
that has exited stays so. -/
theorem CallerFits.frame {s t : Closing} (fits : CallerFits s s.caller) (free : s.lock = none)
    (exited : s.loop = .exited → t.loop = .exited) (written : ∀ r ∈ s.written, r ∈ t.written) :
    CallerFits t s.caller := by
  cases place : s.caller with
  | before => trivial
  | joining => trivial
  | calling =>
      rw [place] at fits
      exact exited fits
  | holding =>
      rw [place] at fits
      have held := fits.2.1
      rw [free] at held
      cases held
  | closing =>
      rw [place] at fits
      have held := fits.2.1
      rw [free] at held
      cases held
  | entering =>
      rw [place] at fits
      exact fits
  | writing completedCopy batches =>
      rw [place] at fits
      exact fits
  | returned buffer appended =>
      rw [place] at fits
      exact ⟨exited fits.1, fits.2.1, fun r member => written r (fits.2.2 r member)⟩

/-- While the writer is running, the caller has not come further than the join. -/
theorem CallerFits.running {s t : Closing} (fits : CallerFits s s.caller)
    (running : s.loop ≠ .exited) : CallerFits t s.caller := by
  cases place : s.caller with
  | before => trivial
  | joining => trivial
  | calling =>
      rw [place] at fits
      exact absurd fits running
  | holding =>
      rw [place] at fits
      exact absurd fits.1 running
  | closing =>
      rw [place] at fits
      exact absurd fits.1 running
  | entering =>
      rw [place] at fits
      exact fits
  | writing completedCopy batches =>
      rw [place] at fits
      exact fits
  | returned buffer appended =>
      rw [place] at fits
      exact absurd fits.1 running

/-- `force_flush` takes the lock while the buffer is empty. -/
def Careful (s : Closing) : Event → Prop
  | .acquire => s.wal.walBuffer = []
  | _ => True

theorem Inv.step {s t : Closing} {e : Event} (inv : Inv s) (step : Step s e t)
    (careful : Careful s e) : Inv t := by
  have placed := inv.placed
  have fits := inv.caller
  cases step with
  | append payload free =>
      refine ⟨?_, fits.frame free id (fun _ => id)⟩
      intro r member
      rcases List.mem_append.mp member with old | new
      · exact (placed r old).imp id (Or.imp id (List.mem_append_left _))
      · exact Or.inr (Or.inr (List.mem_append_right _ new))
  | appendMany payloads free =>
      refine ⟨?_, fits.frame free id (fun _ => id)⟩
      intro r member
      dsimp only
      rw [appendManyToBuffer_buffer]
      rcases List.mem_append.mp member with old | new
      · exact (placed r old).imp id (Or.imp id (List.mem_append_left _))
      · exact Or.inr (Or.inr (List.mem_append_right _ new))
  | writerTest top =>
      rw [top] at placed
      refine ⟨?_, fits.running (by rw [top]; exact nofun)⟩
      intro r member
      dsimp only
      split <;> exact placed r member
  | writerSwap waiting free =>
      rw [waiting] at placed
      split
      · exact ⟨placed, fits.running (by rw [waiting]; exact nofun)⟩
      · refine ⟨?_, fits.running (by rw [waiting]; exact nofun)⟩
        intro r member
        rcases placed r member with old | hand | buffered
        · exact Or.inl old
        · cases hand
        · exact Or.inr (Or.inl buffered)
  | writerCopy buffer swapped free =>
      rw [swapped] at placed
      refine ⟨?_, fits.running (by rw [swapped]; exact nofun)⟩
      intro r member
      refine (placed r member).imp id (Or.imp ?_ id)
      intro hand
      obtain ⟨group, inside, here⟩ := Grouping.groupBy_covers
        (fun r : Record => r.1 / walCapacity) hand
      exact List.mem_flatten.mpr ⟨group.2, List.mem_map_of_mem inside, here⟩
  | writerBatch clock completedCopy batch rest w writing succeeds =>
      have same := (writeBatch_queue clock completedCopy s.wal batch).walBuffer
      rw [succeeds] at same
      rw [writing] at placed
      refine ⟨?_, fits.running (by rw [writing]; exact nofun)⟩
      intro r member
      dsimp only
      rw [same]
      rcases placed r member with old | hand | buffered
      · exact Or.inl (List.mem_append_left _ old)
      · rcases List.mem_append.mp hand with here | later
        · exact Or.inl (List.mem_append_right _ here)
        · exact Or.inr (Or.inl later)
      · exact Or.inr (Or.inr buffered)
  | writerDone completedCopy writing =>
      rw [writing] at placed
      exact ⟨placed, fits.running (by rw [writing]; exact nofun)⟩
  | callShutdown before => exact ⟨placed, trivial⟩
  | join joining exited => exact ⟨placed, exited⟩
  | acquire calling free =>
      rw [calling] at fits
      exact ⟨placed, fits, rfl, careful⟩
  | testBuffer holding =>
      rw [holding] at fits
      obtain ⟨exited, held, empty⟩ := fits
      refine ⟨placed, ?_⟩
      simp only [empty, ↓reduceIte]
      exact ⟨exited, held, empty⟩
  | reacquire entering free =>
      rw [entering] at fits
      exact absurd fits id
  | callerBatch clock completedCopy batch rest w writing succeeds =>
      rw [writing] at fits
      exact absurd fits id
  | clear completedCopy writing =>
      rw [writing] at fits
      exact absurd fits id
  | close closing =>
      rw [closing] at fits
      obtain ⟨exited, held, empty⟩ := fits
      refine ⟨placed, exited, empty, ?_⟩
      intro r member
      rcases placed r member with old | hand | buffered
      · exact old
      · rw [exited] at hand
        cases hand
      · rw [empty] at buffered
        cases buffered

theorem Inv.drains {s : Closing} (inv : Inv s) : Drains s := by
  have fits := inv.caller
  constructor
  · rintro ⟨entering, _⟩
    rw [entering] at fits
    exact fits
  · intro buffer appended returned
    rw [returned] at fits
    exact fits.2

/-- Shutdown drains the log in every interleaving in which `force_flush` takes the
lock with an empty buffer, and deadlocks right after taking it with any other. -/
theorem drains_iff_nothing_is_left (t : Closing) (events : List Event) :
    (Run (Guarded Step Careful) start events t → Drains t) ∧
    ∀ s u v : Closing, Step s .acquire u → Step u .testBuffer v → ¬ Careful s .acquire →
      ¬ Drains v := by
  constructor
  · intro run
    have inv : Inv t := run.preserves start_inv
      (fun s e u before step => before.step step.1 step.2)
    exact inv.drains
  · intro s u v acquired tested nonempty drains
    cases acquired with
    | acquire calling free =>
        cases tested with
        | testBuffer holding =>
            have filled : s.wal.walBuffer ≠ [] := nonempty
            apply drains.live
            simp only [SelfDeadlocked, filled, ↓reduceIte, and_self]

/-- Three records are appended and written by one pass of the writer, then the log is shut down. -/
def threeWritten : List Event :=
  [.append [1], .appendMany [[2], [3]], .writerTest, .writerSwap, .writerCopy,
    .writerBatch (fun _ => 0), .writerDone, .callShutdown, .writerTest, .join, .acquire, .testBuffer,
    .close]

theorem drains_three_written : ∃ t, Run (Guarded Step Careful) start threeWritten t ∧
    t.caller = .returned [] [(0, [1]), (1, [2]), (2, [3])] ∧
      t.written = [(0, [1]), (1, [2]), (2, [3])] ∧ Drains t := by
  have succeeds : (writeBatchToDisk (fun _ => 0) ∅ ⟨3, [], ∅, none, FileSystem.empty, []⟩
      [(0, [1]), (1, [2]), (2, [3])]).1 = .ok () := by decide +kernel
  have queue := writeBatch_queue (fun _ => 0) ∅ ⟨3, [], ∅, none, FileSystem.empty, []⟩
    [(0, [1]), (1, [2]), (2, [3])]
  generalize written : writeBatchToDisk (fun _ => 0) ∅ ⟨3, [], ∅, none, FileSystem.empty, []⟩
    [(0, [1]), (1, [2]), (2, [3])] = result at succeeds queue
  obtain ⟨outcome, w⟩ := result
  obtain rfl : outcome = .ok () := succeeds
  have empty : w.walBuffer = [] := queue.walBuffer
  have run : Run (Guarded Step Careful) start threeWritten
      ⟨{ w with currentFile := none }, none, true, .exited,
        .returned w.walBuffer [(0, [1]), (1, [2]), (2, [3])], [(0, [1]), (1, [2]), (2, [3])],
        [(0, [1]), (1, [2]), (2, [3])]⟩ := by
    apply Run.cons ⟨Step.append _ _ rfl, trivial⟩
    apply Run.cons ⟨Step.appendMany _ _ rfl, trivial⟩
    apply Run.cons ⟨Step.writerTest _ rfl, trivial⟩
    apply Run.cons ⟨Step.writerSwap _ rfl rfl, trivial⟩
    apply Run.cons ⟨Step.writerCopy _ _ rfl rfl, trivial⟩
    apply Run.cons ⟨Step.writerBatch _ _ _ _ _ w rfl written, trivial⟩
    apply Run.cons ⟨Step.writerDone _ _ rfl, trivial⟩
    apply Run.cons ⟨Step.callShutdown _ rfl, trivial⟩
    apply Run.cons ⟨Step.writerTest _ rfl, trivial⟩
    apply Run.cons ⟨Step.join _ rfl rfl, trivial⟩
    apply Run.cons ⟨Step.acquire _ rfl rfl, empty⟩
    apply Run.cons ⟨Step.testBuffer _ rfl, trivial⟩
    apply Run.cons ⟨Step.close _ (if_pos empty), trivial⟩
    exact Run.nil _
  exact ⟨_, run, by rw [empty], rfl, (drains_iff_nothing_is_left _ threeWritten).1 run⟩

/-- The writer has seen the stop event and is gone when a record is appended. -/
def appendedLate : Closing :=
  ⟨⟨1, [(0, [1])], ∅, none, FileSystem.empty, []⟩, some .caller, true, .exited, .entering,
    [(0, [1])], []⟩

theorem deadlock_after_late_append :
    ∃ events, Run Step start events appendedLate ∧ SelfDeadlocked appendedLate ∧
      ¬ Drains appendedLate := by
  refine ⟨[.callShutdown, .writerTest, .append [1], .join, .acquire, .testBuffer], ?_, ⟨rfl, rfl⟩,
    fun drains => drains.live ⟨rfl, rfl⟩⟩
  apply Run.cons (Step.callShutdown _ rfl)
  apply Run.cons (Step.writerTest _ rfl)
  apply Run.cons (Step.append _ [1] rfl)
  apply Run.cons (Step.join _ rfl rfl)
  apply Run.cons (Step.acquire _ rfl rfl)
  apply Run.cons (Step.testBuffer _ rfl)
  exact Run.nil _

end Closing

end CachyDb.Wal
