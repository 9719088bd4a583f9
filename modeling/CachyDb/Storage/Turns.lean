import CachyDb.Storage.Logged
import CachyDb.Storage.Order
import CachyDb.Storage.Regular
import CachyDb.Storage.Requests

set_option autoImplicit false

/-! The writes between the log and the memtables, and runs in which the writes of a key enter
the memtables in the order in which they were logged. -/

namespace CachyDb

open ByteString Transition

def Entry.record (e : Entry) : Wal.Record := (e.txId, e.packed)

namespace Store

/-- The entries whose records a step hands to the log, oldest first. -/
def calls (json : Json) (s : Store) : Event → List (String × Entry)
  | .set _ name key value =>
      match packRecord json key value with
      | .ok packed => [(name, ⟨s.router.wal.globalTxId, key, value, packed⟩)]
      | .error _ => []
  | .append _ name records =>
      match Router.packRecords json records with
      | .ok packedRecords =>
          (entriesOf records packedRecords
            (s.router.wal.appendManyToBuffer (packedRecords.map Prod.snd)).1).map fun e => (name, e)
      | .error _ => []
  | _ => []

/-- The entry is in the log, and its call has not come to the memtable yet. -/
def Delayed (s : Store) (client : Nat) (name : String) (w : Entry) : Prop :=
  ∃ records packedRecords txIds, s.clients client = .logged name records packedRecords txIds ∧
    w ∈ entriesOf records packedRecords txIds

/-- What enters a memtable overtakes no waiting entry of its key. -/
def InTurn (json : Json) (s : Store) (e : Event) : Prop :=
  ∀ name entries txIds, s.actOn json name e = .enter entries txIds → ∀ new ∈ entries,
    ∀ client w, s.Delayed client name w → e ≠ .insertMany client → w.key = new.key →
      new.txId < w.txId

section Steps

variable {json : Json} {s t : Store} {e : Event} {client : Nat} {name : String} {w : Entry}

/-- Whoever waits has waited before, or has just been to the log. -/
theorem delayed_before (step : Step json s e t) (waits : t.Delayed client name w) :
    (s.Delayed client name w ∧ e ≠ .insertMany client) ∨
      ((name, w) ∈ s.calls json e ∧ ∀ other, s.actOn json other e = .stay) := by
  have moves := step_moves step
  obtain ⟨records, packedRecords, txIds, at_log, member⟩ := waits
  generalize t.clients = clients at moves at_log
  cases moves with
  | none _ quiet => exact Or.inl ⟨⟨records, packedRecords, txIds, at_log, member⟩, quiet client⟩
  | other _ actor state actors quiet _ _ =>
      by_cases same : client = actor
      · subst same
        rw [Function.update_self] at at_log
        exact absurd at_log (quiet _ _ _ _)
      · rw [Function.update_of_ne same] at at_log
        exact Or.inl ⟨⟨records, packedRecords, txIds, at_log, member⟩,
          fun inserts => same (actors client inserts)⟩
  | append actor other calls packed idle packs =>
      by_cases same : client = actor
      · subst same
        rw [Function.update_self] at at_log
        cases at_log
        refine Or.inr ⟨?_, fun _ => rfl⟩
        simp only [calls, packs]
        exact List.mem_map_of_mem member
      · rw [Function.update_of_ne same] at at_log
        exact Or.inl ⟨⟨records, packedRecords, txIds, at_log, member⟩, fun same => by cases same⟩

/-- Whoever waits goes on waiting, until its entries enter the memtable. -/
theorem delayed_after (step : Step json s e t) (waits : s.Delayed client name w) :
    t.Delayed client name w ∨
      ∃ entries txIds, s.actOn json name e = .enter entries txIds ∧ w ∈ entries := by
  have moves := step_moves step
  obtain ⟨records, packedRecords, txIds, at_log, member⟩ := waits
  have kept {clients : Nat → Client} (next : t.clients = clients)
      (there : clients client = .logged name records packedRecords txIds) :
      t.Delayed client name w :=
    ⟨records, packedRecords, txIds, by rw [next]; exact there, member⟩
  generalize after : t.clients = clients at moves
  cases moves with
  | none _ quiet => exact Or.inl (kept after at_log)
  | other _ actor state actors quiet before _ =>
      by_cases same : client = actor
      · subst same
        rcases before with not_logged | rfl
        · exact absurd at_log (not_logged _ _ _ _)
        · right
          refine ⟨_, if ∀ record ∈ packedRecords, record.1 ≠ "" then txIds else [], ?_, member⟩
          simp only [actOn, at_log, ↓reduceIte]
      · exact Or.inl (kept after (by rw [Function.update_of_ne same]; exact at_log))
  | append actor other calls packed idle packs =>
      by_cases same : client = actor
      · subst same
        rw [idle] at at_log
        cases at_log
      · exact Or.inl (kept after (by rw [Function.update_of_ne same]; exact at_log))

/-- What was just logged enters its memtable, or waits. -/
theorem calls_placed (step : Step json s e t) {call : String × Entry}
    (called : call ∈ s.calls json e) :
    (∃ entries txIds, s.actOn json call.1 e = .enter entries txIds ∧ call.2 ∈ entries) ∨
      ∃ client, t.Delayed client call.1 call.2 := by
  cases e with
  | set client name key value =>
      left
      cases packs : packRecord json key value with
      | ok packed =>
          simp only [calls, packs, List.mem_singleton] at called
          rw [called]
          refine ⟨[⟨s.router.wal.globalTxId, key, value, packed⟩], [s.router.wal.globalTxId], ?_,
            List.mem_singleton_self _⟩
          simp only [actOn, packs, ↓reduceIte]
      | error _ =>
          simp only [calls, packs, List.not_mem_nil] at called
  | append client name records =>
      right
      unfold Step perform append at step
      dsimp only at step
      split at step
      · rename_i packedRecords idle packs
        split at step
        · cases step
        · cases step
          simp only [calls, packs] at called
          obtain ⟨entry, inside, rfl⟩ := List.mem_map.mp called
          exact ⟨client, records, packedRecords, _, Function.update_self _ _ _, inside⟩
      · cases step
  | _ => cases called

/-- What enters a memtable was just logged, or has waited. -/
theorem entered_from {entries : List Entry} {txIds : List Nat}
    (acted : s.actOn json name e = .enter entries txIds) :
    (∀ new ∈ entries, (name, new) ∈ s.calls json e) ∨
      ∃ client, e = .insertMany client ∧ ∀ new ∈ entries, s.Delayed client name new := by
  have acts := actsOn json s name e
  rw [acted] at acts
  cases acts with
  | set packs =>
      left
      intro new member
      rw [List.mem_singleton.mp member]
      simp only [calls, packs, List.mem_singleton]
  | insertMany at_log =>
      exact Or.inr ⟨_, rfl, fun new member => ⟨_, _, _, at_log, member⟩⟩

/-- No `set_many` has an empty key. -/
def Event.Named : Event → Prop
  | .append _ _ records => ∀ record ∈ records, record.1 ≠ ""
  | _ => True

/-- Nor has one that waits. -/
def Named (s : Store) : Prop :=
  ∀ client name records packedRecords txIds,
    s.clients client = .logged name records packedRecords txIds →
      ∀ record ∈ packedRecords, record.1 ≠ ""

theorem packRecords_named {records : List (String × Value)}
    {packedRecords : List (String × Bytes)}
    (packs : Router.packRecords json records = .ok packedRecords)
    (named : ∀ record ∈ records, record.1 ≠ "") : ∀ record ∈ packedRecords, record.1 ≠ "" := by
  intro packed member
  obtain ⟨record, inside, key, _⟩ := Router.packRecords_mem packs member
  rw [key]
  exact named record inside

theorem Named.step (named : s.Named) (step : Step json s e t) (event : e.Named) : t.Named := by
  intro client name records packedRecords txIds at_log
  have moves := step_moves step
  generalize t.clients = clients at moves at_log
  cases moves with
  | none _ _ => exact named client name records packedRecords txIds at_log
  | other _ actor state _ quiet _ _ =>
      by_cases same : client = actor
      · subst same
        rw [Function.update_self] at at_log
        exact absurd at_log (quiet _ _ _ _)
      · rw [Function.update_of_ne same] at at_log
        exact named client name records packedRecords txIds at_log
  | append actor other calls packed _ packs =>
      by_cases same : client = actor
      · subst same
        rw [Function.update_self] at at_log
        cases at_log
        exact packRecords_named packs event
      · rw [Function.update_of_ne same] at at_log
        exact named client name records packedRecords txIds at_log

/-- The ids of what enters a memtable are noted for its flush. -/
theorem entered_ids (named : s.Named) {entries : List Entry}
    {txIds : List Nat} (acted : s.actOn json name e = .enter entries txIds) :
    ∀ new ∈ entries, new.txId ∈ txIds := by
  have acts := actsOn json s name e
  rw [acted] at acts
  cases acts with
  | set _ =>
      intro new member
      rw [List.mem_singleton.mp member]
      exact List.mem_cons_self
  | insertMany at_log =>
      intro new member
      rw [if_pos (named _ _ _ _ _ at_log)]
      exact (entriesOf_mem member).2

/-- Without an empty key the entries of a `set_many` are the records that it has logged. -/
theorem entriesOf_logged {records : List (String × Value)}
    {packedRecords : List (String × Bytes)} {txIds : List Nat}
    (packs : packedRecords.length = records.length) (ids : txIds.length = records.length)
    (named : ∀ record ∈ packedRecords, record.1 ≠ "") :
    (entriesOf records packedRecords txIds).map Entry.record =
      txIds.zip (packedRecords.map Prod.snd) := by
  induction records generalizing packedRecords txIds with
  | nil =>
      obtain rfl := List.length_eq_zero_iff.mp ids
      rfl
  | cons record records ih =>
      obtain ⟨⟨key, packed⟩, rest, rfl⟩ := List.exists_cons_of_length_eq_add_one packs
      obtain ⟨txId, later, rfl⟩ := List.exists_cons_of_length_eq_add_one ids
      obtain ⟨first, others⟩ := List.forall_mem_cons.mp named
      rw [Router.entriesOf_cons, if_neg first, List.map_cons,
        ih (Nat.succ.inj packs) (Nat.succ.inj ids) others, List.map_cons, List.zip_cons_cons]
      rfl

/-- The ids of the calls of a step are the next ones, in order. -/
theorem calls_ids (json : Json) (s : Store) (e : Event) :
    (∀ call ∈ s.calls json e, s.router.wal.globalTxId ≤ call.2.txId ∧
      packRecord json call.2.key call.2.value = .ok call.2.packed) ∧
    (e.Named → (s.calls json e).map (fun call => call.2.record) = s.loggedRecords json e) := by
  cases e with
  | set client name key value =>
      cases packs : packRecord json key value with
      | ok packed =>
          simp only [calls, loggedRecords, packs, List.mem_singleton, forall_eq, Nat.le_refl,
            true_and, List.map_cons, List.map_nil, Entry.record, implies_true]
      | error _ =>
          simp only [calls, loggedRecords, packs, List.not_mem_nil, false_implies, implies_true,
            List.map_nil, true_and]
  | append client name records =>
      cases packs : Router.packRecords json records with
      | ok packedRecords =>
          obtain ⟨length, _, each⟩ := packRecords_spec packs
          obtain ⟨ids, _⟩ := s.router.wal.appendMany_ids (packedRecords.map Prod.snd)
          rw [List.length_map, length] at ids
          simp only [calls, loggedRecords, packs, Wal.callRecords]
          refine ⟨fun call member => ?_, fun named => ?_⟩
          · obtain ⟨entry, inside, rfl⟩ := List.mem_map.mp member
            obtain ⟨⟨_, both⟩, id⟩ := entriesOf_mem inside
            refine ⟨?_, each _ both⟩
            rw [ids, List.mem_range'_1] at id
            exact id.1
          · rw [List.map_map]
            exact entriesOf_logged length (by rw [ids, List.length_range'])
              (packRecords_named packs named)
      | error _ =>
          simp only [calls, loggedRecords, packs, List.not_mem_nil, false_implies, implies_true,
            List.map_nil, true_and]
  | _ =>
      exact ⟨fun call member => (by cases member), fun _ => rfl⟩

/-- The entries of a `set_many` are the first ones of the records that it has logged. -/
theorem entriesOf_prefix {records : List (String × Value)}
    {packedRecords : List (String × Bytes)} {txIds : List Nat}
    (packs : packedRecords.length = records.length) (ids : txIds.length = records.length) :
    (entriesOf records packedRecords txIds).map Entry.record <+:
      txIds.zip (packedRecords.map Prod.snd) := by
  induction records generalizing packedRecords txIds with
  | nil => exact List.nil_prefix
  | cons record records ih =>
      obtain ⟨⟨key, packed⟩, rest, rfl⟩ := List.exists_cons_of_length_eq_add_one packs
      obtain ⟨txId, later, rfl⟩ := List.exists_cons_of_length_eq_add_one ids
      rw [Router.entriesOf_cons]
      split
      · exact List.nil_prefix
      · exact List.cons_prefix_cons.mpr ⟨rfl, ih (Nat.succ.inj packs) (Nat.succ.inj ids)⟩

theorem calls_prefix (json : Json) (s : Store) (e : Event) :
    (s.calls json e).map (fun call => call.2.record) <+: s.loggedRecords json e := by
  cases e with
  | set client name key value =>
      cases packs : packRecord json key value with
      | ok packed =>
          simp only [calls, loggedRecords, packs]
          exact List.prefix_rfl
      | error _ =>
          simp only [calls, packs]
          exact List.nil_prefix
  | append client name records =>
      cases packs : Router.packRecords json records with
      | ok packedRecords =>
          have length := (packRecords_spec packs).1
          obtain ⟨ids, _⟩ := s.router.wal.appendMany_ids (packedRecords.map Prod.snd)
          simp only [calls, loggedRecords, packs, Wal.callRecords, List.map_map]
          apply entriesOf_prefix length
          rw [ids, List.length_range', List.length_map, length]
      | error _ =>
          simp only [calls, packs]
          exact List.nil_prefix
  | _ => exact List.nil_prefix

/-- What a step logs has the next ids, and the counter goes on behind them. -/
theorem logged_ids (sound : s.Sound json) (step : Step json s e t) :
    (s.loggedRecords json e).map Prod.fst =
        List.range' s.router.wal.globalTxId (s.loggedRecords json e).length ∧
      t.router.wal.globalTxId = s.router.wal.globalTxId + (s.loggedRecords json e).length := by
  cases e with
  | set client name key value =>
      obtain ⟨packed, packs, wal⟩ := set_wal sound.cache step
      simp only [loggedRecords, packs]
      rw [wal]
      exact ⟨rfl, rfl⟩
  | append client name records =>
      obtain ⟨packedRecords, packs, wal⟩ := append_wal step
      obtain ⟨ids, counter⟩ := s.router.wal.appendMany_ids (packedRecords.map Prod.snd)
      simp only [loggedRecords, packs, Wal.callRecords]
      rw [wal, counter, ids, List.length_zip, List.length_range', Nat.min_self,
        List.map_fst_zip (by rw [List.length_range'])]
      exact ⟨rfl, rfl⟩
  | flush name i =>
      refine ⟨rfl, ?_⟩
      rw [flush_wal step]
      exact (Wal.markMany_queue _ _).globalTxId
  | writer clock =>
      cases step
      exact ⟨rfl, Wal.flushBuffer_counter _ _⟩
  | _ => exact ⟨rfl, by rw [quiet_wal sound step rfl]; rfl⟩

/-- What a step logs has been packed from what its client gave. -/
theorem logged_packed (ordinary : e.Ordinary json) :
    ∀ r ∈ s.loggedRecords json e, Packed json r.2 := by
  intro r member
  cases e with
  | set client name key value =>
      cases packs : packRecord json key value with
      | ok packed =>
          simp only [loggedRecords, packs, List.mem_singleton] at member
          rw [member]
          exact ⟨key, value, packs, ordinary⟩
      | error _ =>
          simp only [loggedRecords, packs, List.not_mem_nil] at member
  | append client name records =>
      cases packs : Router.packRecords json records with
      | ok packedRecords =>
          simp only [loggedRecords, packs, Wal.callRecords] at member
          obtain ⟨packed, inside, same⟩ := List.mem_map.mp (List.of_mem_zip member).2
          obtain ⟨record, given, _, result⟩ := Router.packRecords_mem packs inside
          rw [← same]
          exact ⟨record.1, record.2, result, ordinary record given⟩
      | error _ =>
          simp only [loggedRecords, packs, List.not_mem_nil] at member
  | _ => cases member

end Steps

end Store

end CachyDb
