import Mathlib.Data.List.Basic
import Mathlib.Logic.Function.Basic

set_option autoImplicit false

/-! The rotation of a log file. Backups are shifted as `.n.gz`, and a log whose compression
fails stays behind as `.1`. -/

namespace CachyDb.Logger

variable {Line : Type}

/-- What a `.gz` file decompresses to. -/
inductive Archive (Line : Type)
  | complete (log : List Line)
  | damaged

/-- How the compression of `.1` ends. Each `OSError` leaves `.1` behind: one of the two files
cannot be opened, the copy breaks off, or `.1` cannot be removed after the copy. -/
inductive Compression
  | succeeds
  | unopened
  | interrupted
  | unremoved
  deriving DecidableEq, Repr

structure CompressedRotatingFileHandler where
  backupCount : Nat
  delay : Bool

/-- The active log, `.1`, and the files `.n.gz`. -/
structure Directory (Line : Type) where
  base : Option (List Line)
  firstBackup : Option (List Line)
  gz : Nat → Option (Archive Line)

/-- One turn of the shift loop: `.index.gz` takes the place of the next one. -/
def shiftOne (gz : Nat → Option (Archive Line)) (index : Nat) : Nat → Option (Archive Line) :=
  match gz index with
  | none => gz
  | some source => Function.update (Function.update gz (index + 1) (some source)) index none

/-- `for index in range(count, 0, -1)`. -/
def shift (gz : Nat → Option (Archive Line)) : Nat → Nat → Option (Archive Line)
  | 0 => gz
  | index + 1 => shift (shiftOne gz (index + 1)) index

def compress (d : Directory Line) (log : List Line) : Compression → Directory Line
  | .succeeds =>
      { d with firstBackup := none, gz := Function.update d.gz 1 (some (.complete log)) }
  | .unopened => d
  | .interrupted => { d with gz := Function.update d.gz 1 (some .damaged) }
  | .unremoved => { d with gz := Function.update d.gz 1 (some (.complete log)) }

/-- A `.1` that is still there is unlinked. -/
def rotate (backupCount : Nat) (d : Directory Line) (compression : Compression) :
    Directory Line :=
  let shifted := { d with gz := shift d.gz (backupCount - 1), firstBackup := none }
  match d.base with
  | none => shifted
  | some log => compress { shifted with base := none, firstBackup := some log } log compression

def doRollover (h : CompressedRotatingFileHandler) (d : Directory Line)
    (compression : Compression) : Directory Line :=
  let rotated := if 0 < h.backupCount then rotate h.backupCount d compression else d
  if h.delay then rotated else { rotated with base := some (rotated.base.getD []) }

inductive Event (Line : Type)
  | write (line : Line)
  | rollover (compression : Compression)

/-- A write opens the active log for appending when it is not open. -/
def perform (h : CompressedRotatingFileHandler) (d : Directory Line) : Event Line → Directory Line
  | .write line => { d with base := some (d.base.getD [] ++ [line]) }
  | .rollover compression => doRollover h d compression

def play (h : CompressedRotatingFileHandler) (d : Directory Line) : List (Event Line) →
    Directory Line
  | [] => d
  | e :: rest => play h (perform h d e) rest

/-- The logs that the rollovers rotate, each with the end of its compression. -/
def rotations (h : CompressedRotatingFileHandler) (d : Directory Line) :
    List (Event Line) → List (List Line × Compression)
  | [] => []
  | .write line :: rest => rotations h (perform h d (.write line)) rest
  | .rollover compression :: rest =>
      (d.base.toList.map fun log => (log, compression)) ++
        rotations h (perform h d (.rollover compression)) rest

/-- Every rollover finds a log to rotate. -/
def Logged (h : CompressedRotatingFileHandler) (d : Directory Line) : List (Event Line) → Prop
  | [] => True
  | .write line :: rest => Logged h (perform h d (.write line)) rest
  | .rollover compression :: rest =>
      d.base.isSome ∧ Logged h (perform h d (.rollover compression)) rest

/-- There is no backup yet. A handler without `delay` has opened its log. -/
structure Fresh (h : CompressedRotatingFileHandler) (d : Directory Line) : Prop where
  firstBackup : d.firstBackup = none
  gz : ∀ n, d.gz n = none
  opened : h.delay = false → d.base.isSome

theorem shiftOne_self (gz : Nat → Option (Archive Line)) (index : Nat) :
    shiftOne gz index index = none := by
  unfold shiftOne
  cases here : gz index with
  | none => exact here
  | some source => simp

theorem shiftOne_next (gz : Nat → Option (Archive Line)) (index : Nat) :
    shiftOne gz index (index + 1) = (gz index).or (gz (index + 1)) := by
  unfold shiftOne
  cases gz index with
  | none => rfl
  | some source => simp

theorem shiftOne_other (gz : Nat → Option (Archive Line)) {index n : Nat} (self : n ≠ index)
    (next : n ≠ index + 1) : shiftOne gz index n = gz n := by
  unfold shiftOne
  cases gz index with
  | none => rfl
  | some source => simp [self, next]

/-- Only the places from 1 to one behind the last index of the loop change. -/
theorem shift_outside (gz : Nat → Option (Archive Line)) {count n : Nat}
    (outside : n = 0 ∨ count + 1 < n) : shift gz count n = gz n := by
  induction count generalizing gz with
  | zero => rfl
  | succ count ih =>
      rw [shift, ih _ (by omega), shiftOne_other _ (by omega) (by omega)]

theorem shift_first (gz : Nat → Option (Archive Line)) {count : Nat} (positive : 0 < count) :
    shift gz count 1 = none := by
  induction count generalizing gz with
  | zero => omega
  | succ count ih =>
      rw [shift]
      by_cases last : count = 0
      · subst last
        exact shiftOne_self gz 1
      · exact ih _ (by omega)

/-- The last place keeps what it has when nothing comes up to it. -/
theorem shift_last (gz : Nat → Option (Archive Line)) {count : Nat} (positive : 0 < count) :
    shift gz count (count + 1) = (gz count).or (gz (count + 1)) := by
  cases count with
  | zero => omega
  | succ count => rw [shift, shift_outside _ (by omega), shiftOne_next]

theorem shift_inner (gz : Nat → Option (Archive Line)) {count n : Nat} (above : 0 < n)
    (below : n < count) : shift gz count (n + 1) = gz n := by
  induction count generalizing gz with
  | zero => omega
  | succ count ih =>
      rw [shift]
      by_cases last : n = count
      · subst last
        rw [shift_last _ above, shiftOne_self, Option.or_none,
          shiftOne_other _ (by omega) (by omega)]
      · rw [ih _ (by omega), shiftOne_other _ (by omega) (by omega)]

/-- The archive is complete in the end. -/
def Compression.Complete (compression : Compression) : Prop :=
  compression = .succeeds ∨ compression = .unremoved

instance (compression : Compression) : Decidable compression.Complete :=
  inferInstanceAs (Decidable (_ ∨ _))

/-- What a rollover leaves as `.1`. -/
def plainLeft (rotation : List Line × Compression) : Option (List Line) :=
  if rotation.2 = .succeeds then none else some rotation.1

/-- What a rollover leaves as `.1.gz`. -/
def archiveLeft : List Line × Compression → Option (Archive Line)
  | (log, .succeeds) => some (.complete log)
  | (_, .unopened) => none
  | (_, .interrupted) => some .damaged
  | (log, .unremoved) => some (.complete log)

/-- The newest rotation comes first. The last place keeps its archive until another one is
shifted to it. -/
structure Rotated (backupCount : Nat) (d : Directory Line)
    (newest : List (List Line × Compression)) : Prop where
  firstBackup : d.firstBackup = newest.head?.bind plainLeft
  zero : d.gz 0 = none
  shifted : ∀ n, n + 1 < backupCount → d.gz (n + 1) = newest[n]?.bind archiveLeft
  last : d.gz backupCount = (newest.drop (backupCount - 1)).findSome? archiveLeft
  beyond : ∀ n, backupCount < n → d.gz n = none

theorem archiveLeft_complete {rotation : List Line × Compression} :
    archiveLeft rotation = some (.complete rotation.1) ↔ rotation.2.Complete := by
  obtain ⟨log, compression⟩ := rotation
  cases compression <;> simp [archiveLeft, Compression.Complete]

section

variable {h : CompressedRotatingFileHandler} {d : Directory Line} {backupCount : Nat}
  {newest : List (List Line × Compression)}

theorem Fresh.rotated (fresh : Fresh h d) : Rotated backupCount d [] := by
  constructor
  · simp [fresh.firstBackup]
  · exact fresh.gz 0
  · simp [fresh.gz]
  · simp [fresh.gz]
  · exact fun n _ => fresh.gz n

/-- The files that are left after the shift, before the log is compressed into `.1.gz`. -/
theorem compress_fields (d : Directory Line) {log : List Line}
    (renamed : d.firstBackup = some log) (compression : Compression) :
    (compress d log compression).firstBackup = plainLeft (log, compression) ∧
      (compress d log compression).gz 1 = (archiveLeft (log, compression)).or (d.gz 1) ∧
      ∀ n, n ≠ 1 → (compress d log compression).gz n = d.gz n := by
  cases compression <;> simp [compress, plainLeft, archiveLeft, renamed] <;>
    exact fun n other => Function.update_of_ne other _ _

/-- A rollover ages every archive by one place and puts its own in front. -/
theorem Rotated.rotate (rotated : Rotated backupCount d newest) (positive : 0 < backupCount)
    {log : List Line} (active : d.base = some log) (compression : Compression) :
    Rotated backupCount (rotate backupCount d compression) ((log, compression) :: newest) := by
  obtain ⟨firstBackup, zero, shifted, last, beyond⟩ := rotated
  have done : Logger.rotate backupCount d compression =
      compress { d with gz := shift d.gz (backupCount - 1), firstBackup := some log, base := none }
        log compression := by
    simp only [Logger.rotate, active]
  rw [done]
  obtain ⟨plain, front, others⟩ := compress_fields
    { d with gz := shift d.gz (backupCount - 1), firstBackup := some log, base := none } rfl
    compression
  dsimp only at front others
  constructor
  · simpa using plain
  · rw [others 0 (by omega), shift_outside _ (by omega), zero]
  · intro n inside
    cases n with
    | zero =>
        rw [front, shift_first _ (by omega), Option.or_none]
        rfl
    | succ n =>
        rw [others _ (by omega), shift_inner _ (by omega) (by omega), shifted n (by omega)]
        rfl
  · by_cases one : backupCount = 1
    · subst one
      rw [front, Nat.sub_self, shift, last, Nat.sub_self, List.drop_zero, List.drop_zero,
        List.findSome?_cons]
      cases archiveLeft (log, compression) <;> rfl
    · obtain ⟨n, rfl⟩ : ∃ n, backupCount = n + 2 := ⟨backupCount - 2, by omega⟩
      rw [others _ (by omega), show n + 2 - 1 = n + 1 by omega,
        shift_last _ (by omega), shifted n (by omega), last]
      rw [show n + 2 - 1 = n + 1 by omega, List.drop_succ_cons]
      cases known : newest[n]? with
      | none =>
          have short : newest.length ≤ n := List.getElem?_eq_none_iff.mp known
          simp [List.drop_eq_nil_of_le short, List.drop_eq_nil_of_le (Nat.le_succ_of_le short)]
      | some rotation =>
          obtain ⟨inside, rfl⟩ := List.getElem?_eq_some_iff.mp known
          rw [List.drop_eq_getElem_cons inside, List.findSome?_cons]
          cases left : archiveLeft newest[n] <;> simp [left]
  · intro n far
    rw [others n (by omega), shift_outside _ (by omega), beyond n far]

theorem Rotated.doRollover (rotated : Rotated h.backupCount d newest)
    (positive : 0 < h.backupCount) {log : List Line} (active : d.base = some log)
    (compression : Compression) :
    Rotated h.backupCount (doRollover h d compression) ((log, compression) :: newest) := by
  have aged := rotated.rotate positive active compression
  unfold Logger.doRollover
  simp only [positive, ↓reduceIte]
  split
  · exact aged
  · exact ⟨aged.firstBackup, aged.zero, aged.shifted, aged.last, aged.beyond⟩

/-- After any writes and rollovers the directory is what the rotations say. -/
theorem Rotated.play (rotated : Rotated h.backupCount d newest) (positive : 0 < h.backupCount)
    (opened : h.delay = false → d.base.isSome) {events : List (Event Line)}
    (logged : h.delay = true → Logged h d events) :
    Rotated h.backupCount (play h d events) ((rotations h d events).reverse ++ newest) := by
  induction events generalizing d newest with
  | nil => exact rotated
  | cons e rest ih =>
      cases e with
      | write line =>
          have written : Rotated h.backupCount (perform h d (.write line)) newest :=
            ⟨rotated.firstBackup, rotated.zero, rotated.shifted, rotated.last, rotated.beyond⟩
          exact ih written (fun _ => rfl) logged
      | rollover compression =>
          have active : d.base.isSome := by
            cases delayed : h.delay with
            | false => exact opened delayed
            | true => exact (logged delayed).1
          obtain ⟨log, active⟩ := Option.isSome_iff_exists.mp active
          have reopened : h.delay = false →
              (perform h d (.rollover compression)).base.isSome := by
            intro eager
            simp [perform, Logger.doRollover, eager]
          have after := ih (rotated.doRollover positive active compression) reopened
            fun delayed => (logged delayed).2
          have front : rotations h d (.rollover compression :: rest) =
              (log, compression) :: rotations h (perform h d (.rollover compression)) rest := by
            simp [rotations, active]
          rw [front, List.reverse_cons, List.append_assoc]
          exact after

end

/-- The backups in the directory, by their index. -/
inductive Backup (d : Directory Line) : Nat → Archive Line → Prop
  | plain (log : List Line) (here : d.firstBackup = some log) : Backup d 1 (.complete log)
  | compressed (n : Nat) (archive : Archive Line) (here : d.gz n = some archive) :
      Backup d n archive

/-- Of these logs, the newest first, as many as are to be kept are there, each under its own
index, and there is no other backup. -/
structure KeepsNewest (backupCount : Nat) (d : Directory Line) (logs : List (List Line)) :
    Prop where
  kept : ∀ n log, n < backupCount → logs[n]? = some log → Backup d (n + 1) (.complete log)
  only : ∀ n archive, Backup d n archive → ∃ i log, n = i + 1 ∧ i < backupCount ∧
    logs[i]? = some log ∧ archive = .complete log

/-- The last copy has not broken off. The rotations before it have left complete archives,
of which the oldest one may also be an older one with the same content. A single backup may
stay behind uncompressed if there never was an archive. -/
structure Undisturbed (backupCount : Nat) (newest : List (List Line × Compression)) : Prop where
  first : ∀ rotation, newest.head? = some rotation → rotation.2 ≠ .interrupted
  between : ∀ n rotation, 0 < n → n + 1 < backupCount → newest[n]? = some rotation →
    rotation.2.Complete
  oldest : ∀ rotation, newest[backupCount - 1]? = some rotation →
    (newest.drop (backupCount - 1)).findSome? archiveLeft = some (.complete rotation.1) ∨
      backupCount = 1 ∧ newest.findSome? archiveLeft = none

section

variable {d : Directory Line} {backupCount : Nat} {newest : List (List Line × Compression)}

/-- A backup behind the first one is an archive. -/
theorem Backup.archive {n : Nat} {archive : Archive Line} (backup : Backup d n archive)
    (behind : n ≠ 1) : d.gz n = some archive := by
  cases backup with
  | plain => exact absurd rfl behind
  | compressed _ _ here => exact here

/-- The archive of a rotation has moved up with the rotations since. -/
theorem Rotated.aged (rotated : Rotated backupCount d newest) {n : Nat} (inside : n < backupCount)
    {rotation : List Line × Compression} (known : newest[n]? = some rotation)
    {archive : Archive Line} (left : archiveLeft rotation = some archive) :
    d.gz (n + 1) = some archive := by
  by_cases last : n + 1 < backupCount
  · rw [rotated.shifted n last, known]
    exact left
  · obtain ⟨within, rfl⟩ := List.getElem?_eq_some_iff.mp known
    have final : backupCount = n + 1 := by omega
    rw [← final, rotated.last, final, Nat.add_sub_cancel, List.drop_eq_getElem_cons within,
      List.findSome?_cons, left]

theorem Rotated.keepsNewest (rotated : Rotated backupCount d newest) (positive : 0 < backupCount)
    (undisturbed : Undisturbed backupCount newest) :
    KeepsNewest backupCount d (newest.map Prod.fst) := by
  obtain ⟨first, between, oldest⟩ := undisturbed
  constructor
  · intro n log inside listed
    rw [List.getElem?_map] at listed
    obtain ⟨rotation, known, rfl⟩ := Option.map_eq_some_iff.mp listed
    by_cases complete : rotation.2.Complete
    · exact .compressed _ _ (rotated.aged inside known (archiveLeft_complete.mpr complete))
    · cases n with
      | zero =>
          apply Backup.plain
          rw [rotated.firstBackup, List.head?_eq_getElem?, known]
          exact if_neg fun succeeds => complete (Or.inl succeeds)
      | succ n =>
          have last : backupCount = n + 2 := by
            by_contra other
            exact complete (between (n + 1) rotation (by omega) (by omega) known)
          subst last
          apply Backup.compressed
          rw [rotated.last]
          exact (oldest rotation known).resolve_right fun one => by omega
  · intro n archive backup
    cases backup with
    | plain log here =>
        rw [rotated.firstBackup, List.head?_eq_getElem?] at here
        obtain ⟨rotation, known, left⟩ := Option.bind_eq_some_iff.mp here
        have same : rotation.1 = log := by
          unfold plainLeft at left
          split at left
          · cases left
          · exact Option.some.inj left
        exact ⟨0, log, rfl, positive, by rw [List.getElem?_map, known, ← same]; rfl, rfl⟩
    | compressed _ _ here =>
        cases n with
        | zero =>
            rw [rotated.zero] at here
            cases here
        | succ n =>
            by_cases last : n + 1 < backupCount
            · rw [rotated.shifted n last] at here
              obtain ⟨rotation, known, left⟩ := Option.bind_eq_some_iff.mp here
              have complete : rotation.2.Complete := by
                cases n with
                | zero =>
                    have safe := first rotation (by rw [List.head?_eq_getElem?, known])
                    obtain ⟨log, compression⟩ := rotation
                    cases compression <;> simp_all [archiveLeft, Compression.Complete]
                | succ n => exact between (n + 1) rotation (by omega) last known
              rw [archiveLeft_complete.mpr complete] at left
              refine ⟨n, rotation.1, rfl, by omega, ?_, (Option.some.inj left).symm⟩
              rw [List.getElem?_map, known]
              rfl
            · by_cases far : backupCount < n + 1
              · rw [rotated.beyond _ far] at here
                cases here
              · have final : backupCount = n + 1 := by omega
                subst final
                rw [rotated.last, Nat.add_sub_cancel] at here
                rw [Nat.add_sub_cancel] at oldest
                have within : n < newest.length := by
                  by_contra short
                  rw [List.drop_eq_nil_of_le (by omega)] at here
                  cases here
                have known := List.getElem?_eq_getElem within
                rcases oldest _ known with whole | ⟨one, nothing⟩
                · rw [whole] at here
                  refine ⟨n, newest[n].1, rfl, by omega, ?_, (Option.some.inj here).symm⟩
                  rw [List.getElem?_map, known]
                  rfl
                · have front : n = 0 := by omega
                  subst front
                  rw [List.drop_zero, nothing] at here
                  cases here

/-- The backups tell how the compressions ended. -/
theorem Rotated.undisturbed (rotated : Rotated backupCount d newest)
    (positive : 0 < backupCount) (keeps : KeepsNewest backupCount d (newest.map Prod.fst)) :
    Undisturbed backupCount newest := by
  obtain ⟨kept, only⟩ := keeps
  constructor
  · rintro ⟨log, compression⟩ known rfl
    rw [List.head?_eq_getElem?] at known
    have broken := rotated.aged positive known rfl
    obtain ⟨_, _, _, _, _, same⟩ := only _ _ (.compressed _ _ broken)
    cases same
  · intro n rotation behind inside known
    have backup := kept n rotation.1 (by omega) (by rw [List.getElem?_map, known]; rfl)
    have there := backup.archive (by omega)
    rw [rotated.shifted n inside, known] at there
    exact archiveLeft_complete.mp there
  · intro rotation known
    cases left : (newest.drop (backupCount - 1)).findSome? archiveLeft with
    | none =>
        right
        by_cases one : backupCount = 1
        · subst one
          exact ⟨rfl, left⟩
        · have backup := kept (backupCount - 1) rotation.1 (by omega)
            (by rw [List.getElem?_map, known]; rfl)
          have there := backup.archive (by omega)
          rw [Nat.sub_add_cancel positive, rotated.last, left] at there
          cases there
    | some archive =>
        left
        rw [← rotated.last] at left
        obtain ⟨i, log, place, _, here, same⟩ := only _ _ (.compressed _ _ left)
        have index : backupCount - 1 = i := by omega
        rw [List.getElem?_map, ← index, known] at here
        rw [same, ← Option.some.inj here]

end

/-- The rotation keeps the newest logs, as many as it is to keep, exactly when no compression
among theirs failed before the last one, and the last one did not leave half an archive: the
next rollover unlinks the `.1` that a failure has left behind. -/
theorem keeps_newest_iff (h : CompressedRotatingFileHandler) (positive : 0 < h.backupCount)
    (d : Directory Line) (fresh : Fresh h d) (events : List (Event Line))
    (logged : h.delay = true → Logged h d events) :
    KeepsNewest h.backupCount (play h d events) ((rotations h d events).reverse.map Prod.fst) ↔
      Undisturbed h.backupCount (rotations h d events).reverse := by
  have rotated := fresh.rotated.play positive fresh.opened logged
  rw [List.append_nil] at rotated
  exact ⟨rotated.undisturbed positive, rotated.keepsNewest positive⟩

/-- A log just opened, without backups. -/
def opened : Directory Nat := ⟨some [], none, fun _ => none⟩

theorem opened_fresh (backupCount : Nat) : Fresh ⟨backupCount, false⟩ opened :=
  ⟨rfl, fun _ => rfl, fun _ => rfl⟩

/-- Only the last of three compressions fails. -/
def lastFails : List (Event Nat) :=
  [.write 1, .rollover .succeeds, .write 2, .rollover .succeeds, .write 3, .rollover .unopened]

theorem keeps_newest_of_last_failure :
    KeepsNewest 2 (play ⟨2, false⟩ opened lastFails) [[3], [2], [1]] := by
  have exactly := keeps_newest_iff ⟨2, false⟩ (by decide) opened (opened_fresh 2) lastFails
    (fun delayed => by cases delayed)
  have rotated : (rotations ⟨2, false⟩ opened lastFails).reverse =
      [([3], .unopened), ([2], .succeeds), ([1], .succeeds)] := rfl
  rw [rotated] at exactly
  refine exactly.mpr ⟨?_, ?_, ?_⟩
  · simp
  · intro n rotation behind inside
    dsimp only at inside
    omega
  · simp only [Nat.add_one_sub_one, List.getElem?_cons_succ, List.getElem?_cons_zero,
      Option.some.injEq, forall_eq']
    exact Or.inl rfl

/-- The log whose compression failed is gone after the next rollover. -/
theorem failed_backup_lost :
    ¬ KeepsNewest 2
      (play ⟨2, false⟩ opened
        [.write 1, .rollover .unopened, .write 2, .rollover .succeeds])
      ((rotations ⟨2, false⟩ opened
        [.write 1, .rollover .unopened, .write 2, .rollover .succeeds]).reverse.map Prod.fst) := by
  intro keeps
  have backup := keeps.kept 1 [1] (by decide) rfl
  have there := backup.archive (by decide)
  cases there

end CachyDb.Logger
