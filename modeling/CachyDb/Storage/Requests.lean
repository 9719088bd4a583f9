import CachyDb.Storage.Runs

set_option autoImplicit false

/-! What the clients have asked for: the histories of the tables are the calls of the run. -/

namespace CachyDb

open ByteString Transition

namespace Store

/-- The entries are those of the dict, up to the first empty key. -/
theorem entriesOf_records {records : List (String × Value)} {packedRecords : List (String × Bytes)}
    {txIds : List Nat} (keys : packedRecords.map Prod.fst = records.map Prod.fst)
    (ids : txIds.length = records.length) :
    (entriesOf records packedRecords txIds).map (fun e => (e.key, e.value)) =
      records.takeWhile fun record => record.1 ≠ "" := by
  induction records generalizing packedRecords txIds with
  | nil => rfl
  | cons record records ih =>
      obtain ⟨⟨key, packed⟩, rest, rfl⟩ := List.exists_cons_of_length_eq_add_one
        (by simpa using congrArg List.length keys : packedRecords.length = records.length + 1)
      obtain ⟨txId, later, rfl⟩ := List.exists_cons_of_length_eq_add_one ids
      rw [List.map_cons, List.map_cons, List.cons.injEq] at keys
      obtain ⟨rfl, keys⟩ := keys
      rw [Router.entriesOf_cons, List.takeWhile_cons]
      by_cases unnamed : record.1 = ""
      · simp [unnamed]
      · simp [unnamed, ih keys (Nat.succ.inj ids)]

/-- The calls of a run: the `set_many` of each client that is in the log and not yet in the
memtable, and the records that were written to the memtables, newest first. -/
structure Requests where
  logged : Nat → Option (String × List (String × Value))
  written : List (String × String × Value)

def Requests.next (r : Requests) : Event → Requests
  | .set _ name key value => { r with written := (name, key, value) :: r.written }
  | .append client name records =>
      { r with logged := Function.update r.logged client (some (name, records)) }
  | .insertMany client =>
      match r.logged client with
      | some (name, records) =>
          ⟨Function.update r.logged client none,
            ((records.takeWhile fun record => record.1 ≠ "").map fun record =>
              (name, record)).reverse ++ r.written⟩
      | none => r
  | _ => r

def requests (events : List Event) : Requests := events.foldl Requests.next ⟨fun _ => none, []⟩

/-- The records for one table, newest first. -/
def Requests.records (r : Requests) (name : String) : List (String × Value) :=
  (r.written.filter fun write => write.1 = name).map Prod.snd

/-- The value that was written last for a key. -/
def Requests.last (r : Requests) (name key : String) : Value :=
  (((r.records name).find? fun record => record.1 = key).map Prod.snd).getD .null

theorem requests_snoc (events : List Event) (e : Event) :
    requests (events ++ [e]) = (requests events).next e := by
  rw [requests, List.foldl_append]
  rfl

section Steps

variable {json : Json} {s t : Store} {e : Event} {r : Requests}

/-- What a step does to the clients. -/
inductive ClientMoves (json : Json) (s : Store) : Event → (Nat → Client) → Prop
  | none (e : Event) : (∀ client, e ≠ .insertMany client) → ClientMoves json s e s.clients
  | other (e : Event) (client : Nat) (state : Client) :
      (∀ other, e = .insertMany other → other = client) →
      (∀ name records packedRecords txIds, state ≠ .logged name records packedRecords txIds) →
      ((∀ name records packedRecords txIds,
          s.clients client ≠ .logged name records packedRecords txIds) ∨
        e = .insertMany client) →
      (∀ name i, state = .waiting name i → i < (s.shelves name).tasks.length) →
      ClientMoves json s e (Function.update s.clients client state)
  | append (client : Nat) (name : String) (records : List (String × Value))
      (packedRecords : List (String × Bytes)) : s.clients client = .idle →
      Router.packRecords json records = .ok packedRecords →
      ClientMoves json s (.append client name records) (Function.update s.clients client
        (.logged name records packedRecords
          (s.router.wal.appendManyToBuffer (packedRecords.map Prod.snd)).1))

theorem afterWrite_runs (other : String) (result : Except RouterError Bool) (name : String)
    (i : Nat) : afterWrite other result ≠ .waiting name i := by
  unfold afterWrite
  split
  · exact fun same => by cases same
  · exact fun same => by cases same

theorem step_moves (step : Step json s e t) : ClientMoves json s e t.clients := by
  cases e with
  | set client name key value =>
      unfold Step perform set at step
      dsimp only at step
      split at step
      · rename_i idle _
        split at step
        · cases step
        · cases step
          refine .other _ client _ (fun _ same => by cases same) (afterWrite_quiet name _) (.inl ?_)
            fun _ _ waits => absurd waits (afterWrite_runs _ _ _ _)
          rw [idle]
          exact fun _ _ _ _ same => by cases same
      · cases step
  | append client name records =>
      unfold Step perform append at step
      dsimp only at step
      split at step
      · rename_i packedRecords idle packs
        split at step
        · cases step
        · cases step
          exact .append client name records packedRecords idle packs
      · cases step
  | insertMany client =>
      unfold Step perform insertMany at step
      dsimp only at step
      split at step
      · cases step
        exact .other _ client _ (fun other same => by cases same; rfl) (afterWrite_quiet _ _)
          (.inr rfl) fun _ _ waits => absurd waits (afterWrite_runs _ _ _ _)
      · cases step
  | check client =>
      unfold Step perform check at step
      dsimp only at step
      split at step
      · rename_i full
        have quiet : ∀ name records packedRecords txIds,
            s.clients client ≠ .logged name records packedRecords txIds := by
          rw [full]
          exact fun _ _ _ _ same => by cases same
        split at step
        · cases step
          exact .other _ client _ (fun _ same => by cases same) (fun _ _ _ _ same => by cases same)
            (.inl quiet) fun _ _ waits => by cases waits
        · rename_i newest
          split at step
          · cases step
            exact .other _ client _ (fun _ same => by cases same)
              (fun _ _ _ _ same => by cases same) (.inl quiet) fun _ _ waits => by cases waits
          · cases step
            refine .other _ client _ (fun _ same => by cases same)
              (fun _ _ _ _ same => by cases same) (.inl quiet) fun _ _ waits => ?_
            cases waits
            have some_task := List.length_pos_of_mem (List.mem_of_getLast? newest)
            omega
      · cases step
  | wake client =>
      unfold Step perform wake at step
      dsimp only at step
      split at step
      · rename_i waiting
        have quiet : ∀ name records packedRecords txIds,
            s.clients client ≠ .logged name records packedRecords txIds := by
          rw [waiting]
          exact fun _ _ _ _ same => by cases same
        split at step
        · cases step
        · split at step
          · cases step
            exact .other _ client _ (fun _ same => by cases same)
              (fun _ _ _ _ same => by cases same) (.inl quiet) fun _ _ waits => by cases waits
          · split at step
            · cases step
              exact .other _ client _ (fun _ same => by cases same)
                (fun _ _ _ _ same => by cases same) (.inl quiet) fun _ _ waits => by cases waits
            · cases step
      · cases step
  | swap client =>
      unfold Step perform swap at step
      dsimp only at step
      split at step
      · rename_i ready
        cases step
        refine .other _ client _ (fun _ same => by cases same) (fun _ _ _ _ same => by cases same)
          (.inl ?_) fun _ _ waits => by cases waits
        rw [ready]
        exact fun _ _ _ _ same => by cases same
      · cases step
  | getCached name key =>
      cases step
      exact .none _ fun _ same => by cases same
  | getLocked name key =>
      cases step
      exact .none _ fun _ same => by cases same
  | flush name i =>
      unfold Step perform flush at step
      dsimp only at step
      split at step
      · cases step
      · split at step
        · cases step
          exact .none _ fun _ same => by cases same
        · cases step
          exact .none _ fun _ same => by cases same
  | raise name i =>
      unfold Step perform raise at step
      dsimp only at step
      split at step
      · cases step
      · split at step
        · cases step
        · cases step
          exact .none _ fun _ same => by cases same
  | writer clock =>
      cases step
      exact .none _ fun _ same => by cases same

/-- The histories of the model are those of the calls. -/
structure Asked (s : Store) (r : Requests) : Prop where
  logged : ∀ client name records packedRecords txIds,
    s.clients client = .logged name records packedRecords txIds →
      r.logged client = some (name, records)
  written : ∀ name,
    (s.site name).written.map (fun entry => (entry.key, entry.value)) = r.records name

/-- Who is at the log after a step has been there before, unless the step was the call. -/
theorem logged_before (step : Step json s e t) {client : Nat} {name : String}
    {records : List (String × Value)} {packedRecords : List (String × Bytes)} {txIds : List Nat}
    (at_log : t.clients client = .logged name records packedRecords txIds) :
    e = .append client name records ∨
      (s.clients client = .logged name records packedRecords txIds ∧
        ∀ other, e = .insertMany other → client ≠ other) := by
  have moves := step_moves step
  generalize t.clients = clients at moves at_log
  cases moves with
  | none _ quiet => exact Or.inr ⟨at_log, fun other same => absurd same (quiet other)⟩
  | other _ actor state actors quiet _ _ =>
      have different : client ≠ actor := by
        rintro rfl
        rw [Function.update_self] at at_log
        exact quiet _ _ _ _ at_log
      rw [Function.update_of_ne different] at at_log
      exact Or.inr ⟨at_log, fun other same => actors other same ▸ different⟩
  | append actor other calls packed idle packs =>
      by_cases same : client = actor
      · subst same
        rw [Function.update_self] at at_log
        cases at_log
        exact Or.inl rfl
      · rw [Function.update_of_ne same] at at_log
        exact Or.inr ⟨at_log, fun _ same => by cases same⟩

theorem Asked.logged_step (asked : s.Asked r) (step : Step json s e t) {client : Nat} {name : String}
    {records : List (String × Value)} {packedRecords : List (String × Bytes)} {txIds : List Nat}
    (at_log : t.clients client = .logged name records packedRecords txIds) :
    (r.next e).logged client = some (name, records) := by
  rcases logged_before step at_log with rfl | ⟨before, inserts⟩
  · exact Function.update_self _ _ _
  · have known := asked.logged client name records packedRecords txIds before
    cases e with
    | append other otherName calls =>
        show Function.update r.logged other (some (otherName, calls)) client = some (name, records)
        have busy : client ≠ other := by
          rintro rfl
          change s.append json client otherName calls = some t at step
          unfold append at step
          rw [before] at step
          cases step
        rw [Function.update_of_ne busy]
        exact known
    | insertMany other =>
        have different := inserts other rfl
        unfold Requests.next
        dsimp only
        split
        · show Function.update r.logged other none client = some (name, records)
          rw [Function.update_of_ne different]
          exact known
        · exact known
    | _ => exact known

theorem records_cons (r : Requests) (name key other : String) (value : Value) :
    Requests.records { r with written := (other, key, value) :: r.written } name =
      if other = name then (key, value) :: r.records name else r.records name := by
  unfold Requests.records
  rw [List.filter_cons]
  split
  · rename_i same
    rw [if_pos (of_decide_eq_true same)]
    rfl
  · rename_i different
    rw [if_neg (fun same => different (decide_eq_true same))]

theorem records_append (logged : Nat → Option (String × List (String × Value)))
    (records : List (String × Value)) (written : List (String × String × Value))
    (name other : String) :
    Requests.records ⟨logged, (records.map fun record => (other, record)).reverse ++ written⟩ name =
      if other = name then records.reverse ++ Requests.records ⟨logged, written⟩ name
      else Requests.records ⟨logged, written⟩ name := by
  unfold Requests.records
  rw [List.filter_append, List.map_append, List.filter_reverse, List.filter_map]
  by_cases same : other = name
  · simp [same]
  · simp [same]

theorem Asked.written_step (asked : s.Asked r) (pending : s.Pending json) (acts : Acts json s e t)
    (step : Step json s e t) (name : String) :
    (t.site name).written.map (fun entry => (entry.key, entry.value)) = (r.next e).records name := by
  have before := asked.written name
  have still (unset : ∀ client other key value, e ≠ .set client other key value)
      (uninserted : ∀ client, e ≠ .insertMany client) :
      (t.site name).written = (s.site name).written := by
    rw [acts.site, Site.act_written]
    cases acted : s.actOn json name e with
    | enter entries txIds =>
        rcases enter_inv acted with ⟨_, _, _, _, same, _⟩ | ⟨_, _, _, _, same, _⟩
        · exact absurd same (unset _ _ _ _)
        · exact absurd same (uninserted _)
    | _ => rfl
  cases e with
  | set client other key value =>
      rw [acts.site, Site.act_written]
      change s.set json client other key value = some t at step
      unfold set at step
      split at step
      · rename_i packed _ packs
        simp only [actOn, packs]
        show _ = Requests.records { r with written := (other, key, value) :: r.written } name
        rw [records_cons]
        by_cases same : other = name
        · simp [same, before]
        · simp [same, before]
      · cases step
  | insertMany client =>
      rw [acts.site, Site.act_written]
      change s.insertMany client = some t at step
      unfold insertMany at step
      split at step
      · rename_i other records packedRecords txIds at_log
        obtain ⟨packs, first, range, _⟩ := pending client other records packedRecords txIds at_log
        have entries := @entriesOf_records records packedRecords txIds
          (Router.packRecords_keys packs) (by rw [range, List.length_range'])
        have known := asked.logged client other records packedRecords txIds at_log
        simp only [actOn, Requests.next, at_log, known]
        rw [records_append]
        by_cases same : other = name
        · simp only [same, ↓reduceIte, List.map_append, List.map_reverse, entries, before]
          rfl
        · simp only [same, ↓reduceIte, before]
          rfl
      · cases step
  | _ =>
      rw [still (fun _ _ _ _ same => by cases same) (fun _ same => by cases same)]
      exact before

end Steps

/-- The run's histories are its calls. -/
theorem run_asked {json : Json} {wal : Wal} {tableFiles : String → File}
    {maxMemtableSize cacheCapacity : Nat}
    (readable : ∀ name, (TableHandler.openTable (tableFiles name)).WellFormed)
    {events : List Event} {s : Store}
    (run : Run (Step json) (start wal tableFiles maxMemtableSize cacheCapacity) events s) :
    s.Asked (requests events) := by
  have sound := start_sound json wal maxMemtableSize cacheCapacity readable
  induction run with
  | nil => exact ⟨fun _ _ _ _ _ at_log => (by cases at_log), fun _ => rfl⟩
  | snoc before step ih =>
      have now := run_sound sound before
      rw [requests_snoc]
      exact ⟨fun _ _ _ _ _ at_log => ih.logged_step step at_log,
        ih.written_step now.pending (now.acts step) step⟩

end Store

end CachyDb
