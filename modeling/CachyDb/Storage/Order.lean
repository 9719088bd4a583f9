import Mathlib.Data.List.Sort
import CachyDb.Storage.Runs

set_option autoImplicit false

/-! The order of the log against the order in which records enter the memtables. A `set`
holds the table lock over both, a `set_many` does not. -/

namespace CachyDb

open ByteString Transition

/-- What the memtables hold for a key. -/
def Table.held (t : Table) (key : String) : Option Bytes :=
  (t.active.search key).or (t.immutable.bind fun m => m.search key)

/-- The memtable after the uncompleted records were replayed in the order of their ids. -/
def replayed (written : List Entry) (marked : Finset Nat) : MemTable String Bytes :=
  ((written.filter fun e => e.txId ∉ marked).mergeSort fun e e' => e.txId ≤ e'.txId).foldl
    (fun m e => m.insert e.key e.packed) MemTable.empty

/-- The newest entry of a key comes last in the log as well. -/
def Advancing (written : List Entry) : Prop :=
  written.Pairwise fun new old => new.key = old.key → old.txId < new.txId

/-- What the memtables hold of a key is the record with the highest id of this key, and a
replay that finds this record gives it back. -/
def Site.Agrees (s : Site) : Prop :=
  ∀ key packed, s.table.held key = some packed → ∃ e ∈ s.written, e.key = key ∧ e.packed = packed ∧
    (∀ other ∈ s.written, other.key = key → other.txId ≤ e.txId) ∧
    ∀ marked, e.txId ∉ marked → (replayed s.written marked).search key = some packed

theorem lookup_foldl (entries : List Entry) (m : MemTable String Bytes) (key : String) :
    (entries.foldl (fun m e => m.insert e.key e.packed) m).lookup key =
      ((latest entries.reverse key).map Entry.packed).or (m.lookup key) := by
  induction entries generalizing m with
  | nil => rfl
  | cons e rest ih =>
      rw [List.foldl_cons, ih, List.reverse_cons, latest_append, MemTable.lookup_insert]
      cases latest rest.reverse key with
      | some newer => rfl
      | none =>
          rw [latest_cons]
          by_cases same : e.key = key
          · rw [if_pos same.symm, if_pos same]
            rfl
          · rw [if_neg (fun back => same back.symm), if_neg same]
            rfl

/-- In a list whose ids go up the last entry of a key has the highest. -/
theorem latest_reverse_max {entries : List Entry}
    (sorted : entries.Pairwise fun e e' => e.txId ≤ e'.txId) {key : String} {last : Entry}
    (found : latest entries.reverse key = some last) :
    ∀ other ∈ entries, other.key = key → other.txId ≤ last.txId := by
  induction entries generalizing last with
  | nil => cases found
  | cons e rest ih =>
      obtain ⟨below, sorted'⟩ := List.pairwise_cons.mp sorted
      rw [List.reverse_cons, latest_append] at found
      cases later : latest rest.reverse key with
      | some newer =>
          rw [later, Option.some_or, Option.some.injEq] at found
          subst found
          intro other member same
          rcases List.mem_cons.mp member with rfl | behind
          · exact below _ (List.mem_reverse.mp (latest_mem later).1)
          · exact ih sorted' later other behind same
      | none =>
          rw [later, Option.none_or] at found
          have only : e = last := by
            rw [latest_cons] at found
            split at found
            · exact Option.some.inj found
            · cases found
          subst only
          intro other member same
          rcases List.mem_cons.mp member with rfl | behind
          · exact Nat.le_refl _
          · obtain ⟨newest, there⟩ := latest_isSome (List.mem_reverse.mpr behind)
            rw [same, later] at there
            cases there

/-- The newest entry of a key has the highest id, and no other entry of the key has it. -/
theorem Advancing.latest_max {written : List Entry} (advancing : Advancing written) {key : String}
    {newest : Entry} (found : latest written key = some newest) :
    ∀ other ∈ written, other.key = key → other = newest ∨ other.txId < newest.txId := by
  induction written with
  | nil => cases found
  | cons e rest ih =>
      obtain ⟨below, advancing'⟩ := List.pairwise_cons.mp advancing
      rw [latest_cons] at found
      intro other member same
      by_cases here : e.key = key
      · rw [if_pos here, Option.some.injEq] at found
        subst found
        rcases List.mem_cons.mp member with rfl | behind
        · exact Or.inl rfl
        · exact Or.inr (below other behind (here.trans same.symm))
      · rw [if_neg here] at found
        rcases List.mem_cons.mp member with rfl | behind
        · exact absurd same here
        · exact ih advancing' found other behind same

theorem mem_ordered {written : List Entry} {marked : Finset Nat} {e : Entry} :
    e ∈ (written.filter fun e => e.txId ∉ marked).mergeSort (fun e e' => e.txId ≤ e'.txId) ↔
      e ∈ written ∧ e.txId ∉ marked := by
  rw [List.mem_mergeSort, List.mem_filter, decide_eq_true_eq]

/-- A replay ends with the newest entry of a key, unless this one is completed. -/
theorem Advancing.replay {written : List Entry} (advancing : Advancing written) {key : String}
    {newest : Entry} (found : latest written key = some newest) {marked : Finset Nat}
    (uncompleted : newest.txId ∉ marked) :
    (replayed written marked).search key = some newest.packed := by
  obtain ⟨inside, same⟩ := latest_mem found
  have sorted : ((written.filter fun e => e.txId ∉ marked).mergeSort fun e e' =>
      e.txId ≤ e'.txId).Pairwise fun e e' => e.txId ≤ e'.txId := by
    have each := @List.pairwise_mergeSort Entry (fun e e' => decide (e.txId ≤ e'.txId))
      (fun a b c => by simpa using Nat.le_trans) (fun a b => by simpa using Nat.le_total _ _)
      (written.filter fun e => e.txId ∉ marked)
    simpa using each
  have there := mem_ordered.mpr ⟨inside, uncompleted⟩
  obtain ⟨last, held⟩ := latest_isSome (List.mem_reverse.mpr there)
  rw [same] at held
  have above := latest_reverse_max sorted held newest there same
  obtain ⟨member, sameKey⟩ := latest_mem held
  have known := (mem_ordered.mp (List.mem_reverse.mp member)).1
  have only : last = newest := by
    rcases advancing.latest_max found last known sameKey with equal | below
    · exact equal
    · omega
  rw [MemTable.search_eq_lookup, replayed, lookup_foldl, held, only]
  rfl

/-- The memtables hold the newest entries of their keys. -/
theorem Site.Sound.held {s : Site} (sound : s.Sound) {key : String} {packed : Bytes}
    (found : s.table.held key = some packed) :
    ∃ e, latest s.written key = some e ∧ e.packed = packed := by
  obtain ⟨older, whole⟩ := sound.history
  unfold Table.held at found
  rw [MemTable.search_eq_lookup, sound.active key] at found
  rw [whole, latest_append]
  cases first : latest s.active key with
  | some e =>
      rw [first] at found
      exact ⟨e, rfl, Option.some.inj found⟩
  | none =>
      rw [first, Option.map_none, Option.none_or] at found
      obtain ⟨m, slot, there⟩ := Option.bind_eq_some_iff.mp found
      rw [MemTable.search_eq_lookup, sound.immutable m slot key] at there
      obtain ⟨e, second, same⟩ := Option.map_eq_some_iff.mp there
      exact ⟨e, by rw [Option.none_or, latest_append, second, Option.some_or], same⟩

theorem Site.Sound.agrees {s : Site} (sound : s.Sound) (advancing : Advancing s.written) :
    s.Agrees := by
  intro key packed found
  obtain ⟨e, newest, rfl⟩ := sound.held found
  obtain ⟨inside, same⟩ := latest_mem newest
  refine ⟨e, inside, same, rfl, ?_, fun marked uncompleted => advancing.replay newest uncompleted⟩
  intro other member sameKey
  rcases advancing.latest_max newest other member sameKey with rfl | below
  · exact Nat.le_refl _
  · exact Nat.le_of_lt below

namespace Store

/-- No record that a `set_many` inserts was overtaken by a later one of its key between its
append to the log and its insertion. -/
def NotOvertaken (s : Store) : Event → Prop
  | .insertMany client =>
      match s.clients client with
      | .logged name records packedRecords txIds =>
          ∀ new ∈ entriesOf records packedRecords txIds, ∀ old ∈ (s.shelves name).written,
            old.key = new.key → old.txId < new.txId
      | _ => True
  | _ => True

instance (s : Store) (e : Event) : Decidable (s.NotOvertaken e) := by
  unfold NotOvertaken
  split
  · split
    · infer_instance
    · infer_instance
  · infer_instance

/-- Each table has its entries in order, and the counter is ahead of them. -/
structure Ordered (s : Store) : Prop where
  advancing : ∀ name, Advancing (s.site name).written
  below : ∀ name, ∀ e ∈ (s.site name).written, e.txId < s.router.wal.globalTxId

theorem entriesOf_increasing {records : List (String × Value)}
    {packedRecords : List (String × Bytes)} (packs : packedRecords.length = records.length)
    (first : Nat) :
    (entriesOf records packedRecords (List.range' first records.length)).Pairwise
      fun e e' => e.txId < e'.txId := by
  have ids : (((records.zip packedRecords).zip (List.range' first records.length)).map fun r =>
      (⟨r.2, r.1.2.1, r.1.1.2, r.1.2.2⟩ : Entry)).map Entry.txId =
        List.range' first records.length := by
    rw [List.map_map]
    apply List.map_snd_zip
    rw [List.length_range', List.length_zip, packs, Nat.min_self]
  have increasing : (((records.zip packedRecords).zip (List.range' first records.length)).map
      fun r => (⟨r.2, r.1.2.1, r.1.1.2, r.1.2.2⟩ : Entry)).Pairwise
        fun e e' => e.txId < e'.txId := by
    apply List.pairwise_map.mp
    rw [ids]
    exact List.pairwise_lt_range'
  exact increasing.sublist (List.takeWhile_prefix _).sublist

theorem Ordered.step {json : Json} {s t : Store} {e : Event} (ordered : s.Ordered)
    (sound : s.Sound json)    (free : s.NotOvertaken e) (step : Step json s e t) : t.Ordered := by
  have acts := sound.acts step
  have old (name : String) : ∀ e ∈ (s.site name).written, e.txId < t.router.wal.globalTxId :=
    fun e member => Nat.lt_of_lt_of_le (ordered.below name e member) acts.counter
  refine ⟨fun name => ?_, fun name => ?_⟩
  · rw [acts.site, Site.act_written]
    cases acted : s.actOn json name e with
    | enter entries txIds =>
        have rising : entries.Pairwise (fun e e' => e.txId < e'.txId) ∧
            ∀ new ∈ entries, ∀ old ∈ (s.site name).written, old.key = new.key →
              old.txId < new.txId := by
          rcases enter_inv acted with ⟨client, key, value, packed, rfl, rfl⟩ |
            ⟨client, records, packedRecords, ids, rfl, at_log, rfl⟩
          · refine ⟨List.pairwise_singleton _ _, fun new member old inside _ => ?_⟩
            rw [List.mem_singleton.mp member]
            exact ordered.below name old inside
          · obtain ⟨packing, first, range, _⟩ :=
              sound.pending client name records packedRecords ids at_log
            obtain ⟨packs, _⟩ := packRecords_spec packing
            simp only [NotOvertaken, at_log] at free
            refine ⟨?_, free⟩
            rw [range]
            exact entriesOf_increasing packs first
        apply List.pairwise_append.mpr
        refine ⟨?_, ordered.advancing name, ?_⟩
        · rw [List.pairwise_reverse]
          apply rising.1.imp
          intro e e' below _
          exact below
        · intro new member old inside same
          exact rising.2 new (List.mem_reverse.mp member) old inside same.symm
    | _ => exact ordered.advancing name
  · rw [acts.site, Site.act_written]
    cases acted : s.actOn json name e with
    | enter entries txIds =>
        intro new member
        rcases List.mem_append.mp member with here | before
        · exact (acts.entered name entries txIds acted new (List.mem_reverse.mp here)).1
        · exact old name new before
    | _ => exact old name

/-- In every run in which no insertion of a `set_many` comes after a later write of one of
its keys, the memtables agree with the log in every state. -/
theorem memory_agrees_with_log (json : Json) (wal : Wal) {tableFiles : String → File}
    (maxMemtableSize cacheCapacity : Nat)
    (readable : ∀ name, (TableHandler.openTable (tableFiles name)).WellFormed)
    {events : List Event} {s : Store}
    (run : Run (Guarded (Step json) NotOvertaken)
      (start wal tableFiles maxMemtableSize cacheCapacity) events s) (name : String) :
    (s.site name).Agrees := by
  have kept : s.Sound json ∧ s.Ordered := by
    apply run.preserves
    · refine ⟨start_sound json wal maxMemtableSize cacheCapacity readable, fun name => ?_, fun name => ?_⟩
      · exact List.Pairwise.nil
      · exact fun e member => by cases member
    · rintro u e v ⟨sound, ordered⟩ ⟨step, free⟩
      exact ⟨sound.step step, ordered.step sound free step⟩
  exact (kept.1.sites name).agrees (kept.2.advancing name)

/-- Two calls on one key, one after the other. -/
def inTurn : List Event :=
  [.append 0 "t" [("k", .str "a")], .insertMany 0, .set 1 "t" "k" (.str "b")]

/-- The same calls, the `set` between the two sections of the `set_many`. -/
def overtaken : List Event :=
  [.append 0 "t" [("k", .str "a")], .set 1 "t" "k" (.str "b"), .insertMany 0]

theorem memory_agrees_in_turn : ∃ s, Run (Guarded (Step wordJson) NotOvertaken) (fresh 2 1) inTurn s ∧
    (s.site "t").Agrees := by
  obtain ⟨s, played⟩ := Option.isSome_iff_exists.mp
    (by decide +kernel : (playIn (perform wordJson) NotOvertaken (fresh 2 1) inTurn).isSome)
  have run := playIn_run played
  exact ⟨s, run, memory_agrees_with_log wordJson _ 2 1 (fun _ => empty_readable) run "t"⟩

/-- The memtable holds the older record of the two. -/
theorem memory_differs_overtaken : ∃ s, Run (Step wordJson) (fresh 2 1) overtaken s ∧
    ¬ (s.site "t").Agrees := by
  have outcome : ((fresh 2 1).play wordJson overtaken).map (fun s =>
      ((s.site "t").table.held "k", (s.site "t").written.map fun e => (e.txId, e.key, e.packed))) =
      some (some [0, 1, 0x6B, 0x22, 0x61, 0x22],
        [(0, "k", [0, 1, 0x6B, 0x22, 0x61, 0x22]), (1, "k", [0, 1, 0x6B, 0x22, 0x62, 0x22])]) := by
    decide +kernel
  obtain ⟨s, played, result⟩ := Option.map_eq_some_iff.mp outcome
  obtain ⟨held, written⟩ := Prod.mk.inj result
  refine ⟨s, play_run played, fun agrees => ?_⟩
  obtain ⟨e, inside, _, packed, highest, _⟩ := agrees "k" _ held
  have older := List.mem_map_of_mem inside (f := fun e : Entry => (e.txId, e.key, e.packed))
  have newer : (1, "k", [0, 1, 0x6B, 0x22, 0x62, 0x22]) ∈
      (s.site "t").written.map fun e => (e.txId, e.key, e.packed) := by
    rw [written]
    exact List.mem_cons_of_mem _ List.mem_cons_self
  obtain ⟨other, member, fields⟩ := List.mem_map.mp newer
  simp only [Prod.mk.injEq] at fields
  have above := highest other member fields.2.1
  rw [written, packed] at older
  simp at older
  omega

end Store

end CachyDb
