import CachyDb.Storage.Chunking
import CachyDb.Storage.Runs

set_option autoImplicit false

/-! `Compactor.compact_table`. It takes three values from `_get_table_state`, which returns
two, and calls `total_pages`, which is a property. -/

namespace CachyDb

open ByteString

/-- What Python raises where the objects do not fit, and what the compactor raises itself. -/
inductive CompactorFailure
  | valueError
  | typeError
  | attributeError
  | compactorError
  deriving DecidableEq, Repr

namespace Compactor

/-- A value that `_get_table_state` returns. -/
inductive Object
  | lock
  | handler (h : TableHandler)

/-- `_get_table_state` as its callers see it. -/
def tableState (r : Router) (name : String) : List Object × Router :=
  let state := r.getTableState name
  ([.lock, .handler state.1.handler], state.2)

/-- `memtable, table_lock, handler = values`. -/
def unpackThree : List Object → Except CompactorFailure (Object × Object × Object)
  | [memtable, tableLock, handler] => .ok (memtable, tableLock, handler)
  | _ => .error .valueError

def filePath : Object → Except CompactorFailure TableHandler
  | .lock => .error .attributeError
  | .handler h => .ok h

/-- `handler.total_pages()`: the number that the property gives is called. -/
def callTotalPages (_ : TableHandler) : Except CompactorFailure Nat := .error .typeError

/-- `active_records[key] = value`: a key that is there keeps its place. -/
def assign (records : List (String × Value)) (key : String) (value : Value) :
    List (String × Value) :=
  if key ∈ records.map Prod.fst then
    records.map fun record => if record.1 = key then (key, value) else record
  else records ++ [(key, value)]

/-- One slot of the scan. A record that does not unpack is skipped. -/
def scanSlot (json : Json) (page : Page) (records : List (String × Value)) (slot : Nat) :
    Except CompactorFailure (List (String × Value)) :=
  match page.getRecord slot with
  | .error _ => .error .compactorError
  | .ok none => .ok records
  | .ok (some payload) =>
      match unpackRecord json payload with
      | .error _ => .ok records
      | .ok (key, value) => .ok (assign records key value)

def scanPage (json : Json) (state : TableHandler × List (String × Value)) (pageId : Nat) :
    Except CompactorFailure (TableHandler × List (String × Value)) :=
  match state.1.readPage pageId with
  | .error _ => .error .compactorError
  | .ok (page, h) =>
      ((List.range page.slots.length).foldlM (scanSlot json page) state.2).map fun records =>
        (h, records)

/-- The newest value of each key in the pages of a table. -/
def scan (json : Json) (h : TableHandler) (totalPages : Nat) :
    Except CompactorFailure (TableHandler × List (String × Value)) :=
  (List.range totalPages).foldlM (scanPage json) (h, [])

/-- One record of the second loop, which fills pages as a flush does. -/
def rewriteRecord (json : Json) (state : TableHandler × Table.FlushJob) (record : String × Value) :
    Except CompactorFailure (TableHandler × Table.FlushJob) :=
  match packRecord json record.1 record.2 with
  | .error _ => .error .compactorError
  | .ok packed =>
      match Table.flushRecord state.1 state.2 record.1 packed with
      | .error _ => .error .compactorError
      | .ok next => .ok next

/-- The records go to a first new page of the temporary file and to the pages after it. -/
def rewrite (json : Json) (temp : TableHandler) (records : List (String × Value)) :
    Except CompactorFailure TableHandler :=
  match temp.allocatePage with
  | .error _ => .error .compactorError
  | .ok (pageId, temp) =>
      match temp.readPage pageId with
      | .error _ => .error .compactorError
      | .ok (_, temp) =>
          match records.foldlM (rewriteRecord json) (temp, ⟨[], pageId, [], [], false⟩) with
          | .error e => .error e
          | .ok (temp, job) =>
              match Table.writeDirty temp job with
              | .error _ => .error .compactorError
              | .ok temp => .ok temp

/-- What the file of a table holds. -/
def fileOf (r : Router) (name : String) : File :=
  match r.tables.lookup name with
  | some table => table.handler.file
  | none => r.tableFiles name

/-- The new file takes the place of the old one under the open handler. The index stays. -/
def replaceFile (r : Router) (name : String) (file : File) : Router :=
  let state := r.getTableState name
  { state.2.putTable name { state.1 with handler := TableHandler.openTable file } with
    cache := r.cache.clear }

/-- What follows the call of `total_pages`. -/
def compactPages (json : Json) (r : Router) (name : String) (h temp : TableHandler)
    (totalPages : Nat) : Except CompactorFailure Unit × Router :=
  if totalPages = 0 then (.ok (), r)
  else
    match scan json h totalPages with
    | .error e => (.error e, r)
    | .ok (_, records) =>
        match rewrite json temp records with
        | .error e => (.error e, r)
        | .ok temp => (.ok (), replaceFile r name temp.file)

/-- `compact_table`, which catches a `KeyError` of `_get_table_state` and nothing else there. -/
def compactTable (json : Json) (r : Router) (name : String) :
    Except CompactorFailure Unit × Router :=
  let state := tableState r name
  match unpackThree state.1 with
  | .error e => (.error e, state.2)
  | .ok (_, _, handler) =>
      match filePath handler with
      | .error e => (.error e, state.2)
      | .ok h =>
          let temp := TableHandler.openTable (fileOf state.2 (name ++ ".compact"))
          match callTotalPages h with
          | .error e => (.error e, state.2)
          | .ok totalPages => compactPages json state.2 name h temp totalPages

/-- A lookup with an empty cache. -/
def uncachedRead (json : Json) (r : Router) (name key : String) : Except RouterError Value :=
  ({ r with cache := r.cache.clear }.getLocked json name key).1

/-- The table file is opened again, with a new index. -/
def reopened (r : Router) (name : String) : Router :=
  let state := r.getTableState name
  let opened := Table.init state.1.handler.file
  state.2.putTable name { state.1 with handler := opened.handler, diskIndex := opened.diskIndex }

structure PreservesReads (json : Json) (r : Router) (name : String) : Prop where
  returns : (compactTable json r name).1 = .ok ()
  indexed : ∀ key, uncachedRead json (compactTable json r name).2 name key =
    uncachedRead json r name key
  rebuilt : ∀ key, uncachedRead json (reopened (compactTable json r name).2 name) name key =
    uncachedRead json r name key

/-- No call gets past the first line. It leaves the state as `_get_table_state` has. -/
theorem compactTable_raises (json : Json) (r : Router) (name : String) :
    compactTable json r name = (.error .valueError, (r.getTableState name).2) := rfl

/-- There is no state of the router and no table for which a compaction returns. -/
theorem compaction_never_preserves_reads (json : Json) (r : Router) (name : String) :
    (∃ e, (compactTable json r name).1 = .error e) ∧ ¬ PreservesReads json r name := by
  have raises := compactTable_raises json r name
  refine ⟨⟨.valueError, by rw [raises]⟩, fun preserves => ?_⟩
  have returns := preserves.returns
  rw [raises] at returns
  cases returns

/-- One record has been written and flushed, and its table has a page. -/
theorem compaction_fails_after_flush : ∃ s,
    (Store.fresh 1 10).play Router.manifestJson ([.set 0 "t" "k" (.str "x"), .check 0, .swap 0] ++
      List.replicate 13 (.flush "t" 0)) = some s ∧
    (s.router.table "t").handler.totalPages = 1 ∧
    (s.shelves "t").tasks.map Task.phase = [.finished] ∧
    ¬ PreservesReads Router.manifestJson s.router "t" := by
  have outcome : ((Store.fresh 1 10).play Router.manifestJson ([.set 0 "t" "k" (.str "x"), .check 0, .swap 0] ++
      List.replicate 13 (.flush "t" 0))).map (fun s =>
        ((s.router.table "t").handler.totalPages, (s.shelves "t").tasks.map Task.phase)) =
      some (1, [.finished]) := by decide +kernel
  obtain ⟨s, plays, result⟩ := Option.map_eq_some_iff.mp outcome
  rw [Prod.mk.injEq] at result
  refine ⟨s, plays, result.1, result.2, fun preserves => ?_⟩
  have returns := preserves.returns
  rw [compactTable_raises] at returns
  cases returns

end Compactor

end CachyDb
