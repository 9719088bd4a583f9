import CachyDb.Storage.Calls

set_option autoImplicit false

/-! Which tables are open: no call opens a table other than its own. -/

namespace CachyDb

open ByteString Router Transition

namespace Router

/-- No table but this one is opened. -/
def Opens (r r' : Router) (name : String) : Prop :=
  ∀ other, other ∈ r'.tables → other ∈ r.tables ∨ other = name

section

variable {r r' r'' : Router} {name : String}

theorem Opens.of_eq (same : r'.tables = r.tables) : r.Opens r' name :=
  fun _ member => Or.inl (same ▸ member)

theorem Opens.trans (first : r.Opens r' name) (second : r'.Opens r'' name) : r.Opens r'' name := by
  intro other member
  rcases second other member with before | same
  · exact first other before
  · exact Or.inr same

theorem opens_putTable (r : Router) (name : String) (t : Table) :
    r.Opens (r.putTable name t) name := by
  intro other member
  exact ((AList.mem_insert _).mp member).symm

theorem opens_getTableState (r : Router) (name : String) :
    r.Opens (r.getTableState name).2 name := by
  unfold getTableState
  split
  · exact Opens.of_eq rfl
  · exact r.opens_putTable name _

theorem opens_putCache (r : Router) (table name key : String) (value : Value) :
    r.Opens (r.putCache table key value).2 name :=
  Opens.of_eq (r.putCache_frame table key value).1

theorem getCached_tables (r : Router) (name key : String) :
    (r.getCached name key).2.tables = r.tables := by
  unfold getCached
  split
  · rfl
  · split <;> rfl

theorem opens_setLocked (r : Router) (name key : String) (value : Value) (packed : Bytes) :
    r.Opens (r.setLocked name key value packed).2 name := by
  have stored := (r.opens_getTableState name).trans
    ((Opens.of_eq rfl : (r.getTableState name).2.Opens { (r.getTableState name).2 with
      wal := ((r.getTableState name).2.wal.appendToBuffer packed).2 } name).trans
      (opens_putTable _ name (((r.getTableState name).1.insert key packed).addTxIds
        [((r.getTableState name).2.wal.appendToBuffer packed).1])))
  have cached := stored.trans (opens_putCache _ name name key value)
  unfold setLocked
  dsimp only
  split
  · rename_i raised
    rwa [raised] at cached
  · rename_i done
    rwa [done] at cached

theorem opens_insertRecords (name : String) (records : List (String × Value))
    (packedRecords : List (String × Bytes)) (r : Router) :
    r.Opens (r.insertRecords name records packedRecords).2 name := by
  fun_induction insertRecords r name records packedRecords with
  | case1 => exact Opens.of_eq rfl
  | case2 r _ value records key packed packedRecords _ state e r' put =>
      have cached := ((r.opens_getTableState name).trans
        (opens_putTable _ name (state.1.insert key packed))).trans
          (opens_putCache _ name name key value)
      rwa [put] at cached
  | case3 r _ value records key packed packedRecords _ state r' put ih =>
      have cached := ((r.opens_getTableState name).trans
        (opens_putTable _ name (state.1.insert key packed))).trans
          (opens_putCache _ name name key value)
      rw [put] at cached
      exact cached.trans ih
  | case4 => exact Opens.of_eq rfl

theorem opens_setManyLocked (r : Router) (name : String) (records : List (String × Value))
    (packedRecords : List (String × Bytes)) (txIds : List Nat) :
    r.Opens (r.setManyLocked name records packedRecords txIds).2 name := by
  have inserted := (r.opens_getTableState name).trans
    (opens_insertRecords name records packedRecords (r.getTableState name).2)
  unfold setManyLocked
  split
  · rename_i raised
    rwa [raised] at inserted
  · rename_i done
    rw [done] at inserted
    exact inserted.trans ((opens_getTableState _ name).trans (opens_putTable _ name _))

theorem opens_swapLocked (r : Router) (name : String) : r.Opens (r.swapLocked name).2 name := by
  unfold swapLocked
  dsimp only
  split
  · exact (r.opens_getTableState name).trans (opens_putTable _ name _)
  · exact r.opens_getTableState name

theorem opens_found (json : Json) (r : Router) (name key : String) :
    r.Opens ((r.getTableState name).2.putTable name ((r.getTableState name).1.find json key).2)
      name :=
  (r.opens_getTableState name).trans (opens_putTable _ name _)

theorem opens_getLocked (json : Json) (r : Router) (name key : String) :
    r.Opens (r.getLocked json name key).2 name := by
  have found := r.opens_found json name key
  have answer (value : Value) : r.Opens (getLocked.answer name key
      ((r.getTableState name).2.putTable name ((r.getTableState name).1.find json key).2)
      value).2 name := by
    have cached := found.trans (opens_putCache _ name name key value)
    unfold getLocked.answer
    split
    · rename_i raised
      rwa [raised] at cached
    · rename_i done
      rwa [done] at cached
  unfold getLocked
  dsimp only
  split
  all_goals first | exact found | exact answer _

theorem opens_getRawManifest (json : Json) (r : Router) (name key : String) :
    r.Opens (r.getRawManifest json name key).2 name := by
  have found := r.opens_found json name key
  unfold getRawManifest
  dsimp only
  split <;> exact found

end

end Router

namespace Store

def Event.Names (names : Set String) : Event → Prop
  | .set _ name _ _ => name ∈ names
  | .append _ name _ => name ∈ names
  | .getLocked name _ => name ∈ names
  | _ => True

/-- All that has been opened or is at work belongs to these tables. -/
structure Confined (names : Set String) (s : Store) : Prop where
  tables : ∀ name, name ∈ s.router.tables → name ∈ names
  tasks : ∀ name, (s.shelves name).tasks ≠ [] → name ∈ names
  clients : ∀ client name, (s.clients client).table = some name → name ∈ names

section

variable {json : Json} {codec : Codec} {decoder : Decoder} {names : Set String} {s t : Store}
  {name key : String} {value : Value} {result : Except RouterError Unit} {e : Event}

theorem start_confined (wal : Wal) (tableFiles : String → File)
    (maxMemtableSize cacheCapacity : Nat) (names : Set String) :
    (start wal tableFiles maxMemtableSize cacheCapacity).Confined names := by
  constructor
  · intro name member
    cases AList.notMem_empty name member
  · exact fun name busy => absurd rfl busy
  · intro client name busy
    cases busy

/-- A step in one of the tables. -/
theorem Confined.put (confined : s.Confined names) (inside : name ∈ names)
    (opens : s.router.Opens t.router name)
    (tasks : ∀ other, other ≠ name → (t.shelves other).tasks = (s.shelves other).tasks)
    (clients : ∀ client other, (t.clients client).table = some other →
      (s.clients client).table = some other ∨ other = name) : t.Confined names := by
  constructor
  · intro other member
    rcases opens other member with before | rfl
    · exact confined.tables other before
    · exact inside
  · intro other busy
    by_cases same : other = name
    · exact same ▸ inside
    · exact confined.tasks other (tasks other same ▸ busy)
  · intro client other busy
    rcases clients client other busy with before | rfl
    · exact confined.clients client other before
    · exact inside

theorem afterWrite_table {name other : String} {outcome : Except RouterError Bool}
    (busy : (afterWrite name outcome).table = some other) : other = name := by
  unfold afterWrite at busy
  split at busy
  · exact (Option.some.inj busy).symm
  · cases busy

/-- What happens to the clients when one of them moves on. -/
theorem putClient_table {state : Client} {client other : Nat} {found : String}
    (moves : ∀ found, state.table = some found → found = name)
    (busy : ((Function.update s.clients client state) other).table = some found) :
    (s.clients other).table = some found ∨ found = name := by
  by_cases same : other = client
  · rw [same, Function.update_self] at busy
    exact Or.inr (moves found busy)
  · rw [Function.update_of_ne same] at busy
    exact Or.inl busy

theorem putShelf_tasks (shelf : Shelf) {other : String} (different : other ≠ name) :
    ((Function.update s.shelves name shelf) other).tasks = (s.shelves other).tasks := by
  rw [Function.update_of_ne different]

theorem Confined.step (confined : s.Confined names) (named : e.Names names)
    (step : Step json s e t) : t.Confined names := by
  cases e with
  | set client name key value =>
      have done : s.set json client name key value = some t := step
      unfold set at done
      split at done
      · split at done
        · cases done
        · cases done
          exact confined.put named (s.router.opens_setLocked name key value _)
            (fun _ => putShelf_tasks _) fun _ _ => putClient_table fun _ => afterWrite_table
      · cases done
  | append client name records =>
      have done : s.append json client name records = some t := step
      unfold append at done
      split at done
      · split at done
        · cases done
        · cases done
          exact confined.put named (Opens.of_eq rfl) (fun _ _ => rfl) fun _ _ =>
            putClient_table fun _ same => (Option.some.inj same).symm
      · cases done
  | insertMany client =>
      have done : s.insertMany client = some t := step
      unfold insertMany at done
      split at done
      · rename_i name records packedRecords txIds logged
        cases done
        exact confined.put (confined.clients client name (by rw [logged]; rfl))
          (s.router.opens_setManyLocked name records packedRecords txIds)
          (fun _ => putShelf_tasks _) fun _ _ => putClient_table fun _ => afterWrite_table
      · cases done
  | check client =>
      have done : s.check client = some t := step
      unfold check at done
      split at done
      · rename_i name full
        have inside := confined.clients client name (by rw [full]; rfl)
        split at done
        · cases done
          exact confined.put inside (Opens.of_eq rfl) (fun _ _ => rfl) fun _ _ =>
            putClient_table fun _ same => (Option.some.inj same).symm
        · split at done <;> cases done <;>
            exact confined.put inside (Opens.of_eq rfl) (fun _ _ => rfl) fun _ _ =>
              putClient_table fun _ same => (Option.some.inj same).symm
      · cases done
  | wake client =>
      have done : s.wake client = some t := step
      unfold wake at done
      split at done
      · rename_i name i waits
        have inside := confined.clients client name (by rw [waits]; rfl)
        split at done
        · cases done
        · split at done
          · cases done
            exact confined.put inside (Opens.of_eq rfl) (fun _ _ => rfl) fun _ _ =>
              putClient_table fun _ same => (Option.some.inj same).symm
          · split at done
            · cases done
              exact confined.put inside (Opens.of_eq rfl) (fun _ _ => rfl) fun _ _ =>
                putClient_table fun _ same => (by cases same)
            · cases done
      · cases done
  | swap client =>
      have done : s.swap client = some t := step
      unfold swap at done
      split at done
      · rename_i name ready
        cases done
        exact confined.put (confined.clients client name (by rw [ready]; rfl))
          (s.router.opens_swapLocked name) (fun _ => putShelf_tasks _) fun _ _ =>
            putClient_table fun _ same => (by cases same)
      · cases done
  | getCached name key =>
      cases step
      exact ⟨s.router.getCached_tables name key ▸ confined.tables, confined.tasks, confined.clients⟩
  | getLocked name key =>
      cases step
      exact confined.put named (s.router.opens_getLocked json name key) (fun _ _ => rfl)
        fun _ _ busy => Or.inl busy
  | flush name i =>
      have done : s.flush name i = some t := step
      unfold flush at done
      split at done
      · cases done
      · rename_i task known
        have inside := confined.tasks name fun none => by
          rw [none] at known
          cases known
        split at done <;> cases done <;>
          exact confined.put inside (s.router.opens_putTable name _) (fun _ => putShelf_tasks _)
            fun _ _ busy => Or.inl busy
  | raise name i =>
      have done : s.raise name i = some t := step
      unfold raise at done
      split at done
      · cases done
      · rename_i task known
        have inside := confined.tasks name fun none => by
          rw [none] at known
          cases known
        split at done
        · cases done
        · cases done
          exact confined.put inside (s.router.opens_putTable name _) (fun _ => putShelf_tasks _)
            fun _ _ busy => Or.inl busy
  | writer clock =>
      cases step
      exact ⟨confined.tables, confined.tasks, confined.clients⟩

/-- A step on the caches and on one table, without any client. -/
theorem Confined.opened (confined : s.Confined names) (inside : name ∈ names) {r : Router}
    (opens : s.router.Opens r name) : ({ s with router := r } : Store).Confined names :=
  confined.put inside opens (fun _ _ => rfl) fun _ _ busy => Or.inl busy

/-- What goes on behind a write opens no other table. -/
theorem Event.names_of_behind (behind : e.Behind) : e.Names names := by
  cases e with
  | set => exact behind.elim
  | append => exact behind.elim
  | getLocked => exact behind.elim
  | _ => trivial

theorem Confined.behind {events : List Event} (confined : s.Confined names)
    (behind : Run (Guarded (SingleStep json) fun _ e => e.Behind) s events t) :
    t.Confined names :=
  behind.preserves confined fun _ _ _ before step =>
    before.step (Event.names_of_behind step.2) step.1.1

theorem Confined.waits (confined : s.Confined names) (waits : Waits json s t) :
    t.Confined names := by
  obtain ⟨events, run⟩ := waits
  exact confined.behind (run.mono fun _ _ _ step => ⟨step.1, Event.Background.behind step.2⟩)

theorem Confined.setsInternal (confined : s.Confined names) (inside : name ∈ names)
    (sets : SetsInternal json s name key value result t) : t.Confined names := by
  cases sets with
  | unnamed _ => exact confined
  | unpackable _ => exact confined
  | written _ waits step behind _ =>
      have named : Event.Names names (.set 0 name key value) := inside
      exact ((confined.waits waits).step named step.1).behind behind

theorem Confined.setsEach {records : List (String × Value)} (confined : s.Confined names)
    (inside : name ∈ names) (sets : SetsEach json name s records result t) : t.Confined names := by
  induction sets with
  | nil => exact confined
  | raised single => exact confined.setsInternal inside single
  | next single _ ih => exact ih (confined.setsInternal inside single)

theorem Confined.cleans (confined : s.Confined names) (inside : name ∈ names)
    (cleans : Cleans json s name key t) : t.Confined names := by
  cases cleans with
  | absent waits _ =>
      exact (confined.waits waits).opened inside (opens_getRawManifest json _ name key)
  | cleaned waits _ sets =>
      exact ((confined.waits waits).opened inside
        (opens_getRawManifest json _ name key)).setsEach inside sets

theorem Confined.writesLarge {text : Bytes} (confined : s.Confined names) (inside : name ∈ names)
    (writes : WritesLarge json codec s name key value text result t) : t.Confined names := by
  cases writes with
  | uncut chunked => exact confined.setsEach inside chunked
  | unlisted chunked listed => exact (confined.setsEach inside chunked).setsInternal inside listed
  | written chunked listed waits =>
      have done := (confined.setsEach inside chunked).setsInternal inside listed
      exact (done.waits waits).opened inside (opens_putCache _ name name key value)

theorem Confined.sets (confined : s.Confined names) (inside : name ∈ names)
    (sets : Sets json codec s name key value result t) : t.Confined names := by
  cases sets with
  | unnamed _ => exact confined
  | large _ _ cleans writes => exact (confined.cleans inside cleans).writesLarge inside writes
  | uncut _ _ cleans writes last =>
      exact ((confined.cleans inside cleans).writesLarge inside writes).setsInternal inside last
  | small _ _ _ cleans last => exact (confined.cleans inside cleans).setsInternal inside last
  | chunk _ _ _ last => exact confined.setsInternal inside last

theorem Confined.setsMany {records : List (String × Value)} (confined : s.Confined names)
    (inside : name ∈ names) (sets : SetsMany json s name records result t) : t.Confined names := by
  cases sets with
  | unnamed _ => exact confined
  | unpackable _ => exact confined
  | written _ _ waits appended waits' _ inserted behind _ =>
      have named : Event.Names names (.append 0 name records) := inside
      have logged := ((confined.waits waits).step named appended.1).waits waits'
      have quiet : Event.Names names (.insertMany 0) := trivial
      exact (logged.step quiet inserted.1).behind behind

theorem Confined.finds {result : Except RouterError Value} (confined : s.Confined names)
    (inside : name ∈ names) (finds : Finds json s name key result t) : t.Confined names := by
  have cached := confined.opened inside (Opens.of_eq (s.router.getCached_tables name key))
  cases finds with
  | hit _ => exact cached
  | raised _ => exact cached
  | missed _ waits => exact (cached.waits waits).opened inside (opens_getLocked json _ name key)

theorem Confined.collects {indices : List Nat} {result : Option (List Bytes)}
    (confined : s.Confined names) (inside : name ∈ names)
    (collects : Collects json decoder name key s indices result t) : t.Confined names := by
  induction collects with
  | nil => exact confined
  | raised finds => exact confined.finds inside finds
  | undecoded finds _ => exact confined.finds inside finds
  | next finds _ _ ih => exact ih (confined.finds inside finds)

theorem Confined.reads {result : Except RouterError Value} (confined : s.Confined names)
    (inside : name ∈ names) (reads : Reads json decoder s name key result t) :
    t.Confined names := by
  cases reads with
  | unnamed _ => exact confined
  | raised _ finds => exact confined.finds inside finds
  | plain _ finds _ => exact confined.finds inside finds
  | malformed _ finds _ _ => exact confined.finds inside finds
  | incomplete _ finds _ _ collects => exact (confined.finds inside finds).collects inside collects
  | broken _ finds _ _ collects _ => exact (confined.finds inside finds).collects inside collects
  | whole _ finds _ _ collects _ waits =>
      exact (((confined.finds inside finds).collects inside collects).waits waits).opened inside
        (opens_putCache _ name name key _)

/-- The table of a call. -/
def Call.table : Call → String
  | .set name _ _ => name
  | .setMany name _ => name
  | .get name _ => name

theorem Confined.calls {call : Call × Except RouterError Value} (confined : s.Confined names)
    (inside : call.1.table ∈ names) (performed : Calls json codec decoder s call t) :
    t.Confined names := by
  cases performed with
  | set sets => exact confined.sets inside sets
  | setMany _ sets => exact confined.setsMany inside sets
  | get reads => exact confined.reads inside reads

end

end Store

end CachyDb
