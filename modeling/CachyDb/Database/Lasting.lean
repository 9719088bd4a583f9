import CachyDb.Database.Lifetimes
import CachyDb.Lib.Chronicle
import CachyDb.Storage.Settled

set_option autoImplicit false

/-! What the log knows of the records in the memtables and in the table files, along the steps
of one process. -/

namespace CachyDb.Database.Lifetime

open ByteString TableHandler Transition Chronicle

/-- The call was made for a table that recovery finds by the key, with a value that JSON gives
back. -/
structure Genuine (json : Json) (call : String × Entry) : Prop where
  packs : packRecord json call.2.key call.2.value = .ok call.2.packed
  faithful : json.Faithful call.2.value
  named : call.2.key ≠ ""
  home : recoveryTable call.2.key = call.1

/-- The log has the records that this process has found, all of them completed, and then those
that were handed to it. -/
structure Journal (json : Json) (s : Lifetime) : Prop where
  logging : s.Logging
  counter : s.opened ≤ s.store.router.wal.globalTxId
  records : s.log.records = s.found ++ (s.recent.map fun call => call.2.record).reverse
  written : s.found <+: s.log.written
  completed : ∀ r ∈ s.found, r.1 < s.opened ∧ r.1 ∈ s.log.marked
  late : ∀ call ∈ s.recent, s.opened ≤ call.2.txId
  genuine : ∀ call ∈ s.history, Genuine json call

/-- Where recovery finds the tables of the calls, and JSON their values. -/
def Homed (json : Json) : Store.Event → Prop
  | .set _ name key value => recoveryTable key = name ∧ json.Faithful value
  | .append _ name records => ∀ record ∈ records,
      record.1 ≠ "" ∧ recoveryTable record.1 = name ∧ json.Faithful record.2
  | _ => True

section Journals

variable {json : Json} {s t : Lifetime} {e : Store.Event}

/-- Replaying the record of a call makes its entry again. -/
theorem Genuine.recovered {call : String × Entry} (genuine : Genuine json call) :
    recoveredEntry json call.2.record = some call := by
  obtain ⟨name, txId, key, value, packed⟩ := call
  have unpacked := unpackRecord_decoded genuine.packs
  rw [genuine.faithful.decoded] at unpacked
  have home : recoveryTable key = name := genuine.home
  simp only [recoveredEntry, Entry.record, unpacked, if_neg genuine.named, home]

theorem Homed.named (homed : Homed json e) : e.Named := by
  cases e with
  | append client name records => exact fun record member => (homed record member).1
  | _ => trivial

theorem Homed.genuine (homed : Homed json e) {s t : Store} (step : Store.Step json s e t) :
    ∀ call ∈ s.calls json e, Genuine json call := by
  intro call member
  have packs := ((s.calls_ids json e).1 call member).2
  cases e with
  | set client name key value =>
      unfold Store.Step Store.perform Store.set at step
      dsimp only at step
      split at step
      · rename_i packed _ result
        split at step
        · cases step
        · rename_i named
          simp only [Store.calls, result, List.mem_singleton] at member
          rw [member]
          exact ⟨result, homed.2, fun empty => named (Or.inr empty), homed.1⟩
      · cases step
  | append client name records =>
      cases result : Router.packRecords json records with
      | ok packedRecords =>
          simp only [Store.calls, result] at member
          obtain ⟨entry, inside, rfl⟩ := List.mem_map.mp member
          obtain ⟨⟨key, both⟩, _⟩ := Store.entriesOf_mem inside
          obtain ⟨same, _⟩ := List.forall₂_zip (Router.packRecords_each result) both
          obtain ⟨named, home, faithful⟩ := homed _ (List.of_mem_zip both).1
          dsimp only at same named home faithful
          rw [← same] at named home
          exact ⟨packs, faithful, named, home⟩
      | error _ =>
          simp only [Store.calls, result] at member
          cases member
  | _ => cases member

/-- The ids of this process go up. -/
theorem Journal.sorted (journal : s.Journal json) :
    s.recent.Pairwise fun new old => old.2.txId < new.2.txId := by
  have ascending := journal.logging.inOrder.ascending journal.logging.whole
  rw [journal.records, List.map_append, ← List.map_reverse, List.map_map] at ascending
  have back := (List.pairwise_append.mp ascending).2.1
  exact List.pairwise_reverse.mp (List.pairwise_map.mp back)

/-- An id of this process belongs to one call. -/
theorem Journal.unique (journal : s.Journal json) {call other : String × Entry}
    (here : call ∈ s.recent) (there : other ∈ s.recent) (id : call.2.txId = other.2.txId) :
    call = other :=
  @eq_of_stamp _ s.recent (fun call => call.2.txId) journal.sorted call other here there id

theorem Journal.logged (journal : s.Journal json) {call : String × Entry}
    (member : call ∈ s.recent) : call.2.record ∈ s.log.records := by
  rw [journal.records]
  exact List.mem_append_right _ (List.mem_reverse.mpr
    (List.mem_map_of_mem member (f := fun call => call.2.record)))

/-- What is in the files was found there, or was handed to the log since. -/
theorem Journal.origin (journal : s.Journal json) {r : Wal.Record} (there : r ∈ s.log.written) :
    r ∈ s.found ∨ ∃ call ∈ s.recent, call.2.record = r := by
  have inside : r ∈ s.log.records := by
    rw [journal.logging.whole.all] at there
    exact List.mem_append_left _ there
  rw [journal.records] at inside
  rcases List.mem_append.mp inside with old | new
  · exact Or.inl old
  · obtain ⟨call, member, same⟩ := List.mem_map.mp (List.mem_reverse.mp new)
    exact Or.inr ⟨call, member, same⟩

theorem Journal.work {store : Store} (journal : s.Journal json) (sound : s.store.Sound json)
    (below : s.store.Below) (traced : ∀ name, (s.store.site name).Traced)
    (homed : Homed json e) (step : Store.Step json s.store e store)
    (fits : (s.store.follow json s.log e).Fits) :
    Journal json { s with
      store := store
      log := s.store.follow json s.log e
      recent := (s.store.calls json e).reverse ++ s.recent } := by
  obtain ⟨ids, records⟩ := s.store.calls_ids json e
  have wal := journal.logging.wal
  obtain ⟨inOrder, whole⟩ := Store.follow_whole sound below traced wal journal.logging.inOrder
    journal.logging.whole fits
  have acts := sound.acts step
  refine ⟨⟨Store.follow_wal sound step wal, inOrder, whole⟩,
    Nat.le_trans journal.counter acts.counter, ?_, ?_, fun r member => ?_, fun call member => ?_,
    fun call member => ?_⟩
  · rw [Store.follow_records sound step wal, journal.records, ← records homed.named,
      List.map_append, List.reverse_append, List.map_reverse, List.reverse_reverse,
      List.append_assoc]
  · exact journal.written.trans (s.store.follow_prefix json s.log e).2
  · obtain ⟨early, marked⟩ := journal.completed r member
    refine ⟨early, ?_⟩
    rw [Store.follow_marked sound step]
    exact Finset.mem_union_left _ marked
  · rcases List.mem_append.mp member with new | old
    · exact Nat.le_trans journal.counter (ids call (List.mem_reverse.mp new)).1
    · exact journal.late call old
  · rw [history, List.append_assoc] at member
    rcases List.mem_append.mp member with new | old
    · exact homed.genuine step call (List.mem_reverse.mp new)
    · exact journal.genuine call old

theorem Journal.recent_genuine (journal : s.Journal json) {call : String × Entry}
    (member : call ∈ s.recent) : Genuine json call :=
  journal.genuine call (List.mem_append_left _ member)

end Journals

/-- What the recovery of this process has put into a table, newest first. -/
def recovered (json : Json) (s : Lifetime) (name : String) : List Entry :=
  (Recovery.entriesFor json s.replayed name).reverse

/-- The tables of this process. What is in them was recovered, or handed to the log; and what
was handed to the log is in them, or waits for its turn. -/
structure Shelved (json : Json) (s : Lifetime) : Prop where
  store : s.store.Sound json
  orderly : s.store.Orderly s.files
  ordered : s.store.Ordered
  traced : ∀ name, (s.store.site name).Traced
  filed : ∀ name, (s.store.site name).Filed (openTable (s.files name)).contents
  holds : ∀ name, ∀ record ∈ (openTable (s.files name)).contents,
    record ∈ (s.store.site name).table.handler.contents
  marks : ∀ name, (s.store.site name).Marks s.opened s.log.marked
  named : s.store.Named
  entered : ∀ name, ∃ clients, (s.store.site name).written = clients ++ s.recovered json name ∧
    ∀ e ∈ clients, (name, e) ∈ s.recent
  recovered : ∀ name, ∀ e ∈ s.recovered json name,
    (name, e) ∈ s.past ∧ e.record ∈ s.found
  waiting : ∀ client name w, s.store.Delayed client name w → (name, w) ∈ s.recent ∧
    ∀ old ∈ (s.store.site name).written, old.key = w.key → old.txId < w.txId
  placed : ∀ call ∈ s.recent, call.2 ∈ (s.store.site call.1).written ∨
    ∃ client, s.store.Delayed client call.1 call.2
  marked : ∀ txId ∈ s.log.marked, s.opened ≤ txId →
    ∃ name, ∃ e ∈ (s.store.site name).written, e.txId = txId
  readable : ∀ name, (openTable (s.files name)).WellFormed
  room : 0 < s.store.router.cache.capacity

section Tables

variable {json : Json} {s t : Lifetime} {e : Store.Event}

theorem Shelved.below (shelved : s.Shelved json) : s.store.Below := shelved.ordered.below

theorem Shelved.keyed (shelved : s.Shelved json) (name : String) : (s.store.site name).Keyed :=
  fun entry member => (Table.payloadKey_pack (shelved.store.packed name entry member)).1

/-- An entry of this process in a table was handed to the log for this table. -/
theorem Shelved.recent_of (shelved : s.Shelved json) (journal : s.Journal json) {name : String}
    {entry : Entry} (member : entry ∈ (s.store.site name).written) (late : s.opened ≤ entry.txId) :
    (name, entry) ∈ s.recent := by
  obtain ⟨clients, whole, recent⟩ := shelved.entered name
  rw [whole] at member
  rcases List.mem_append.mp member with new | old
  · exact recent entry new
  · have early := (journal.completed _ (shelved.recovered name entry old).2).1
    simp only [Entry.record] at early
    omega

/-- What entered before this process is marked. -/
theorem Shelved.early (shelved : s.Shelved json) (journal : s.Journal json) {name : String}
    {entry : Entry} (member : entry ∈ (s.store.site name).written) (early : entry.txId < s.opened) :
    entry.txId ∈ s.log.marked := by
  obtain ⟨clients, whole, recent⟩ := shelved.entered name
  rw [whole] at member
  rcases List.mem_append.mp member with new | old
  · have := journal.late _ (recent entry new)
    dsimp only at this
    omega
  · exact (journal.completed _ (shelved.recovered name entry old).2).2

/-- What enters a memtable comes from the log, and nothing of its key is behind it. -/
theorem Shelved.entering (shelved : s.Shelved json) {name : String}
    {entries : List Entry} {txIds : List Nat}
    (acted : s.store.actOn json name e = .enter entries txIds) :
    ∀ new ∈ entries, (name, new) ∈ (s.store.calls json e).reverse ++ s.recent := by
  intro new member
  rcases Store.entered_from acted with called | ⟨client, _, waited⟩
  · exact List.mem_append_left _ (List.mem_reverse.mpr (called new member))
  · exact List.mem_append_right _ (shelved.waiting client name new (waited new member)).1

/-- A waiting entry is not marked. -/
theorem Shelved.waiting_unmarked (shelved : s.Shelved json) (journal : s.Journal json)
    {client : Nat} {name : String} {w : Entry} (waits : s.store.Delayed client name w) :
    w.txId ∉ s.log.marked := by
  intro marked
  obtain ⟨recent, behind⟩ := shelved.waiting client name w waits
  have late : s.opened ≤ w.txId := journal.late _ recent
  obtain ⟨other, entry, member, id⟩ := shelved.marked w.txId marked late
  have same := journal.unique (shelved.recent_of journal member (by omega)) recent id
  cases same
  exact Nat.lt_irrefl _ (behind w member rfl)

/-- Nor is what was just handed to the log. -/
theorem Shelved.entering_unmarked (shelved : s.Shelved json) (journal : s.Journal json)
    {name : String} {entries : List Entry} {txIds : List Nat}
    (acted : s.store.actOn json name e = .enter entries txIds) :
    ∀ new ∈ entries, new.txId ∉ s.log.marked := by
  intro new member
  rcases Store.entered_from acted with called | ⟨client, _, waited⟩
  · intro marked
    have fresh := ((s.store.calls_ids json e).1 _ (called new member)).1
    have below := journal.logging.inOrder.markedBelow _ marked
    rw [journal.logging.wal] at below
    dsimp only at fresh
    omega
  · exact shelved.waiting_unmarked journal (waited new member)

/-- The records of two tables, or of both memtables of one, have different ids. -/
theorem Shelved.apart (shelved : s.Shelved json) (journal : s.Journal json) {name other : String}
    {mine theirs : Entry} (here : mine ∈ (s.store.site name).written)
    (there : theirs ∈ (s.store.site other).written) (late : s.opened ≤ mine.txId)
    (id : theirs.txId = mine.txId) : name = other ∧ mine = theirs := by
  have same := journal.unique (shelved.recent_of journal here late)
    (shelved.recent_of journal there (by omega)) id.symm
  cases same
  exact ⟨rfl, rfl⟩

/-- A step keeps the marks in accord with the memtables, also the one that marks. -/
theorem Shelved.marks_step {store : Store} (shelved : s.Shelved json) (journal : s.Journal json)
    (free : s.store.Unblocked e) (homed : Homed json e) (step : Store.Step json s.store e store)
    (name : String) : (store.site name).Marks s.opened (s.store.follow json s.log e).marked := by
  have acts := shelved.store.acts step
  have sound := shelved.store.sites name
  have orderly := shelved.orderly name
  rw [Store.follow_marked shelved.store step, acts.site]
  have otherwise (quiet : ∀ i task, s.store.actOn json name e = .advance i task →
      task.phase ≠ .marking) :
      ((s.store.site name).act (s.store.actOn json name e)).Marks s.opened s.log.marked := by
    apply (shelved.marks name).act sound orderly (acts.valid name) (Store.unblocked_act free name)
      (fun h loads => (Store.load_inv shelved.store loads).file) _ quiet
    intro entries txIds acted new member late
    exact ⟨Store.entered_ids shelved.named acted new member,
      shelved.entering_unmarked journal acted new member⟩
  by_cases marking : ∃ other i task, e = .flush other i ∧
      (s.store.shelves other).tasks[i]? = some task ∧ task.phase = .marking
  · obtain ⟨other, i, task, rfl, known, phase⟩ := marking
    have marks : s.store.marked (.flush other i) = task.txIds := by
      simp only [Store.marked, Store.marks, known, if_pos phase]
    have sourced := ((shelved.store.sites other).tasks task (List.mem_of_getElem? known)).sourced
      (by rw [phase]; decide)
    rw [marks]
    by_cases same : other = name
    · subst same
      have acted : s.store.actOn json other (.flush other i) = .advance i task := by
        simp only [Store.actOn, known, ↓reduceIte]
      obtain ⟨m, before, _, _, _, _, serves⟩ :=
        orderly.current known (Site.not_done phase (by decide))
      obtain ⟨older, whole⟩ := sound.history
      rw [acted]
      apply (shelved.marks other).mark (shelved.filed other) (shelved.keyed other) sound orderly
        known phase (fun entry member early => shelved.early journal member early)
      intro mine active late listed
      obtain ⟨theirs, member, id⟩ := sourced.txIds mine.txId listed
      rw [serves.entries (by rw [phase]; decide)] at member
      have advancing := shelved.ordered.advancing other
      have here : mine ∈ (s.store.site other).written := by
        rw [whole]
        exact List.mem_append_left _ active
      have there : theirs ∈ (s.store.site other).written := by
        rw [whole]
        exact List.mem_append_right _ (List.mem_append_left _ member)
      obtain ⟨_, rfl⟩ := shelved.apart journal here there late id
      rw [Advancing, whole] at advancing
      have behind := (List.pairwise_append.mp advancing).2.2 mine active mine
        (List.mem_append_left _ member) rfl
      omega
    · have acted : s.store.actOn json name (.flush other i) = .stay := by
        simp only [Store.actOn, if_neg same]
      rw [acted]
      apply (shelved.marks name).elsewhere _ sound
      intro mine here late listed
      obtain ⟨theirs, member, id⟩ := sourced.txIds mine.txId listed
      have there := (shelved.traced other).written (List.mem_of_getElem? known) member
      exact same (shelved.apart journal here there late id).1.symm
  · have unmarked : s.store.marked e = [] := by
      unfold Store.marked Store.marks
      split
      · rename_i other i
        split
        · rfl
        · rename_i task known
          exact if_neg fun phase => marking ⟨other, i, task, rfl, known, phase⟩
      · rfl
    rw [unmarked, List.toFinset_nil, Finset.union_empty]
    apply otherwise
    intro i task acted phase
    have inverse := Store.actsOn json s.store name e
    rw [acted] at inverse
    cases inverse with
    | advance known => exact marking ⟨name, i, task, rfl, known, phase⟩

theorem Shelved.work {store : Store} (shelved : s.Shelved json) (journal : s.Journal json)
    (free : s.store.Unblocked e) (inTurn : s.store.InTurn json e) (homed : Homed json e)
    (step : Store.Step json s.store e store) :
    Shelved json { s with
      store := store
      log := s.store.follow json s.log e
      recent := (s.store.calls json e).reverse ++ s.recent } := by
  have acts := shelved.store.acts step
  have written (name : String) := Site.act_written (s.store.site name) (s.store.actOn json name e)
  have kept {name : String} {entry : Entry} (member : entry ∈ (s.store.site name).written) :
      entry ∈ (store.site name).written := by
    rw [acts.site, written]
    split
    · exact List.mem_append_right _ member
    · exact member
  have behind : s.store.NotOvertaken e := by
    unfold Store.NotOvertaken
    split
    · rename_i client
      split
      · rename_i name records packedRecords txIds at_log
        exact fun new member old inside => (shelved.waiting client name new
          ⟨records, packedRecords, txIds, at_log, member⟩).2 old inside
      · trivial
    · trivial
  refine ⟨shelved.store.step step, shelved.orderly.step shelved.store free step,
    shelved.ordered.step shelved.store behind step, fun name => ?_, fun name => ?_,
    fun name record member => ?_, shelved.marks_step journal free homed step,
    shelved.named.step step homed.named, fun name => ?_, shelved.recovered,
    fun client name w waits => ?_, fun call member => ?_, fun txId marked late => ?_,
    shelved.readable, by rw [acts.capacity]; exact shelved.room⟩
  · rw [acts.site]
    exact (shelved.traced name).act (shelved.store.sites name) (acts.valid name)
  · rw [acts.site]
    exact (shelved.filed name).act (shelved.keyed name) (shelved.store.sites name)
      (shelved.orderly name) (acts.valid name) (Store.unblocked_act free name)
      fun h loads => Store.load_inv shelved.store loads
  · rw [acts.site]
    exact Site.act_contents (shelved.store.sites name) (acts.valid name) record
      (shelved.holds name record member)
  · obtain ⟨clients, whole, recent⟩ := shelved.entered name
    rw [acts.site, written]
    cases acted : s.store.actOn json name e with
    | enter entries txIds =>
        refine ⟨entries.reverse ++ clients, by rw [whole, List.append_assoc]; rfl,
          fun new member => ?_⟩
        rcases List.mem_append.mp member with here | before
        · exact shelved.entering acted new (List.mem_reverse.mp here)
        · exact List.mem_append_right _ (recent new before)
    | _ => exact ⟨clients, whole, fun old member => List.mem_append_right _ (recent old member)⟩
  · rcases Store.delayed_before step waits with ⟨before, _⟩ | ⟨called, quiet⟩
    · obtain ⟨recent, ahead⟩ := shelved.waiting client name w before
      refine ⟨List.mem_append_right _ recent, fun old member key => ?_⟩
      rw [acts.site, written] at member
      cases acted : s.store.actOn json name e with
      | enter entries txIds =>
          rw [acted] at member
          rcases List.mem_append.mp member with here | inside
          · exact inTurn name entries txIds acted old (List.mem_reverse.mp here) client w before
              (by assumption) key.symm
          · exact ahead old inside key
      | _ =>
          rw [acted] at member
          exact ahead old member key
    · refine ⟨List.mem_append_left _ (List.mem_reverse.mpr called), fun old member _ => ?_⟩
      rw [acts.site, quiet] at member
      have fresh := ((s.store.calls_ids json e).1 _ called).1
      exact Nat.lt_of_lt_of_le (shelved.below name old member) fresh
  · rcases List.mem_append.mp member with new | old
    · rcases Store.calls_placed step (List.mem_reverse.mp new) with
        ⟨entries, txIds, acted, inside⟩ | waits
      · left
        rw [acts.site, written, acted]
        exact List.mem_append_left _ (List.mem_reverse.mpr inside)
      · exact Or.inr waits
    · rcases shelved.placed call old with there | ⟨client, waits⟩
      · exact Or.inl (kept there)
      · rcases Store.delayed_after step waits with still | ⟨entries, txIds, acted, inside⟩
        · exact Or.inr ⟨client, still⟩
        · left
          rw [acts.site, written, acted]
          exact List.mem_append_left _ (List.mem_reverse.mpr inside)
  · rw [Store.follow_marked shelved.store step] at marked
    rcases Finset.mem_union.mp marked with old | new
    · obtain ⟨name, entry, member, id⟩ := shelved.marked txId old late
      exact ⟨name, entry, kept member, id⟩
    · rw [List.mem_toFinset] at new
      unfold Store.marked at new
      split at new
      · rename_i name i
        obtain ⟨task, known, _, entry, member, id⟩ := Store.marks_entered shelved.store new
        have there := (shelved.traced name).written (List.mem_of_getElem? known) member
        exact ⟨name, entry, kept there, id⟩
      · cases new

end Tables

end CachyDb.Database.Lifetime
