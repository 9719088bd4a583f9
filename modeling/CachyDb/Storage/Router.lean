import Mathlib.Data.List.Forall2
import CachyDb.Cache.Lfu
import CachyDb.Index.Insertion
import CachyDb.Storage.Record
import CachyDb.Storage.TableHandler
import CachyDb.Wal.Model

set_option autoImplicit false

/-! The router: for each table two memtables, the transaction ids that go with them,
the table file and the index into it; one cache and one log for all tables. Each
section under a table's lock is one function here. -/

namespace CachyDb

open ByteString

/-- What `_get_table_state` creates for a table, the lock aside. -/
structure Table where
  active : MemTable String Bytes
  immutable : Option (MemTable String Bytes)
  activeTxIds : List Nat
  immutableTxIds : Option (List Nat)
  handler : TableHandler
  diskIndex : AList (fun _ : String => Nat × Nat)

namespace Table

/-- One record of `_init_disk_index`. -/
def indexRecord (index : AList (fun _ : String => Nat × Nat)) (place : Nat × Nat)
    (payload : Bytes) : AList (fun _ : String => Nat × Nat) :=
  if payload.length < 2 then index
  else
    let kLen := ofBE (payload.take 2)
    match decodeKey ((payload.drop 2).take kLen) with
    | none => index
    | some key =>
        if payload.drop (2 + kLen) = nullBytes then index.erase key else index.insert key place

def indexSlot (page : Page) (pageId : Nat) (index : AList (fun _ : String => Nat × Nat))
    (slot : Nat) : AList (fun _ : String => Nat × Nat) :=
  match page.getRecord slot with
  | .ok (some payload) => indexRecord index (pageId, slot) payload
  | _ => index

def indexPage (state : TableHandler × AList (fun _ : String => Nat × Nat)) (pageId : Nat) :
    TableHandler × AList (fun _ : String => Nat × Nat) :=
  match state.1.readPage pageId with
  | .error _ => state
  | .ok (page, handler) =>
      (handler, (List.range page.slots.length).foldl (indexSlot page pageId) state.2)

def initDiskIndex (handler : TableHandler) :
    TableHandler × AList (fun _ : String => Nat × Nat) :=
  (List.range handler.totalPages).foldl indexPage (handler, ∅)

/-- The state of a table that is used for the first time. -/
def init (file : File) : Table :=
  let indexed := initDiskIndex (TableHandler.openTable file)
  ⟨MemTable.empty, none, [], none, indexed.1, indexed.2⟩

/-- `_get_page_slot_record`, for a slot of the page. -/
def pageSlotRecord (json : Json) (page : Page) (slot : Nat) : Option (String × Value) :=
  match page.getRecord slot with
  | .ok (some payload) => (unpackRecord json payload).toOption
  | _ => none

/-- The backward search through the slots of one page. -/
def searchSlots (json : Json) (key : String) (page : Page) : Nat → Option Value
  | 0 => none
  | slot + 1 =>
      match pageSlotRecord json page slot with
      | some (other, value) => if other = key then some value else searchSlots json key page slot
      | none => searchSlots json key page slot

/-- The backward search through the pages of a table file. -/
def searchPages (json : Json) (key : String) : Nat → TableHandler → Option Value × TableHandler
  | 0, handler => (none, handler)
  | pageId + 1, handler =>
      match handler.readPage pageId with
      | .error _ => searchPages json key pageId handler
      | .ok (page, handler) =>
          match searchSlots json key page page.slots.length with
          | some value => (some value, handler)
          | none => searchPages json key pageId handler

/-- `_read_from_disk`. `none` is a key that is not there. -/
def readFromDisk (json : Json) (t : Table) (key : String) : Option Value × Table :=
  match t.diskIndex.lookup key with
  | none => (none, t)
  | some (pageId, slot) =>
      match t.handler.readPage pageId with
      | .error _ => fallback t.handler
      | .ok (page, handler) =>
          match pageSlotRecord json page slot with
          | some (_, value) => (some value, { t with handler := handler })
          | none => fallback handler
where
  fallback (handler : TableHandler) : Option Value × Table :=
    let result := searchPages json key handler.totalPages handler
    (result.1, { t with handler := result.2 })

/-- Where a lookup under the table lock finds a key: in one of the memtables, whose
payload may not unpack, or on disk. -/
inductive Found
  | active (value : Except RouterError Value)
  | immutable (value : Except RouterError Value)
  | disk (value : Option Value)

def unpackValue (json : Json) (packed : Bytes) : Except RouterError Value :=
  (unpackRecord json packed).map Prod.snd

/-- The order of tiers in `_get_internal` and `_get_raw_manifest`. -/
def find (json : Json) (t : Table) (key : String) : Found × Table :=
  match t.active.search key with
  | some packed => (.active (unpackValue json packed), t)
  | none =>
      match t.immutable.bind (·.search key) with
      | some packed => (.immutable (unpackValue json packed), t)
      | none =>
          let read := t.readFromDisk json key
          (.disk read.1, read.2)

/-- A record and its transaction id enter the active memtable. -/
def insert (t : Table) (key : String) (packed : Bytes) : Table :=
  { t with active := t.active.insert key packed }

def addTxIds (t : Table) (txIds : List Nat) : Table :=
  { t with activeTxIds := t.activeTxIds ++ txIds }

/-- The swap, when the active memtable has reached its limit. -/
def swap (t : Table) : Table :=
  { t with
    immutable := some t.active
    immutableTxIds := some t.activeTxIds
    active := MemTable.empty
    activeTxIds := [] }

/-- The local variables of `flush_memtable_to_disk` in its loop. -/
structure FlushJob where
  records : List (String × Bytes)
  pageId : Nat
  updates : List (String × (Nat × Nat))
  deletions : List String
  dirty : Bool

/-- The first locked section: nothing to do, or the records and ids to work on. -/
def beginFlush (t : Table) : Option (List (String × Bytes) × List Nat) :=
  match t.immutable with
  | none => none
  | some memtable =>
      if memtable.size = 0 then none
      else some (memtable.entries, t.immutableTxIds.getD [])

/-- The last page of the file, or a first one. -/
def openLastPage (h : TableHandler) : Except TableHandler.Error (Nat × TableHandler) :=
  let last := if h.totalPages = 0 then h.allocatePage else .ok (h.totalPages - 1, h)
  match last with
  | .error e => .error e
  | .ok (pageId, h) =>
      match h.readPage pageId with
      | .error e => .error e
      | .ok (_, h) => .ok (pageId, h)

/-- The current page goes to disk if records were added to it. -/
def writeDirty (h : TableHandler) (job : FlushJob) : Except TableHandler.Error TableHandler :=
  if job.dirty then
    match h.pageCache job.pageId with
    | none => .error .outOfRange
    | some page => h.writePage page
  else .ok h

/-- A new page, when the current one has no space left for the record. -/
def makeSpace (h : TableHandler) (job : FlushJob) (size : Nat) :
    Except TableHandler.Error (TableHandler × FlushJob) :=
  match h.pageCache job.pageId with
  | none => .error .outOfRange
  | some page =>
      if page.hasSpaceFor size then .ok (h, job)
      else
        match writeDirty h job with
        | .error e => .error e
        | .ok h =>
            match h.allocatePage with
            | .error e => .error e
            | .ok (pageId, h) =>
                match h.readPage pageId with
                | .error e => .error e
                | .ok (_, h) => .ok (h, { job with pageId := pageId, dirty := false })

/-- The record goes into the current page and is noted for the index. -/
def placeRecord (h : TableHandler) (job : FlushJob) (key : String) (packed : Bytes) :
    Except TableHandler.Error (TableHandler × FlushJob) :=
  match h.pageCache job.pageId with
  | none => .error .outOfRange
  | some page =>
      match page.insertRecord packed with
      | .error e => .error (.page e)
      | .ok (slot, page) =>
          .ok (h.cachePage job.pageId page,
            if isDeletion key packed then
              { job with deletions := job.deletions ++ [key], dirty := true }
            else
              { job with updates := job.updates ++ [(key, (job.pageId, slot))], dirty := true })

/-- One turn of the loop over the records. -/
def flushRecord (h : TableHandler) (job : FlushJob) (key : String) (packed : Bytes) :
    Except TableHandler.Error (TableHandler × FlushJob) :=
  match makeSpace h job packed.length with
  | .error e => .error e
  | .ok (h, job) => placeRecord h job key packed

def applyUpdates (index : AList (fun _ : String => Nat × Nat))
    (updates : List (String × (Nat × Nat))) : AList (fun _ : String => Nat × Nat) :=
  updates.foldl (fun index update => index.insert update.1 update.2) index

/-- The last locked section. -/
def endFlush (t : Table) : Table := { t with immutable := none, immutableTxIds := none }

end Table

/-- `tableFiles` is what the file of a table contains when the table is first used. -/
structure Router where
  wal : Wal
  tables : AList (fun _ : String => Table)
  tableFiles : String → File
  cache : Cache (String × String) Value
  maxMemtableSize : Nat

namespace Router

/-- `Router(wal, max_memtable_size, cache_capacity)`. -/
def init (wal : Wal) (tableFiles : String → File) (maxMemtableSize cacheCapacity : Nat) : Router :=
  ⟨wal, ∅, tableFiles, Cache.init cacheCapacity, maxMemtableSize⟩

def putTable (r : Router) (name : String) (t : Table) : Router :=
  { r with tables := r.tables.insert name t }

/-- `_get_table_state`. -/
def getTableState (r : Router) (name : String) : Table × Router :=
  match r.tables.lookup name with
  | some t => (t, r)
  | none =>
      let t := Table.init (r.tableFiles name)
      (t, r.putTable name t)

/-- `cache.put`, which raises when the cache contradicts itself. -/
def putCache (r : Router) (name key : String) (value : Value) : Except RouterError Unit × Router :=
  match r.cache.put (name, key) value with
  | none => (.error .cache, r)
  | some cache => (.ok (), { r with cache := cache })

/-- The locked section of `_set_internal`; the result is `needs_flush`. -/
def setLocked (r : Router) (name key : String) (value : Value) (packed : Bytes) :
    Except RouterError Bool × Router :=
  let state := r.getTableState name
  let appended := state.2.wal.appendToBuffer packed
  let t := (state.1.insert key packed).addTxIds [appended.1]
  let stored := { state.2 with wal := appended.2 }.putTable name t
  match stored.putCache name key value with
  | (.error e, r) => (.error e, r)
  | (.ok (), r) => (.ok (decide (t.active.size ≥ r.maxMemtableSize)), r)

/-- `_pack_record` for each record of a `set_many`, before anything else is done. -/
def packRecords (json : Json) : List (String × Value) → Except RouterError (List (String × Bytes))
  | [] => .ok []
  | (key, value) :: rest =>
      match packRecord json key value with
      | .error e => .error e
      | .ok packed =>
          match packRecords json rest with
          | .error e => .error e
          | .ok later => .ok ((key, packed) :: later)

/-- The loop of `_set_many_internal` under the table lock. An empty key raises. -/
def insertRecords (r : Router) (name : String) :
    List (String × Value) → List (String × Bytes) → Except RouterError Unit × Router
  | (_, value) :: records, (key, packed) :: packedRecords =>
      if key = "" then (.error .emptyName, r)
      else
        let state := r.getTableState name
        match (state.2.putTable name (state.1.insert key packed)).putCache name key value with
        | (.error e, r) => (.error e, r)
        | (.ok (), r) => insertRecords r name records packedRecords
  | _, _ => (.ok (), r)

/-- The locked section of `_set_many_internal`. -/
def setManyLocked (r : Router) (name : String) (records : List (String × Value))
    (packedRecords : List (String × Bytes)) (txIds : List Nat) :
    Except RouterError Bool × Router :=
  match (r.getTableState name).2.insertRecords name records packedRecords with
  | (.error e, r) => (.error e, r)
  | (.ok (), r) =>
      let state := r.getTableState name
      (.ok (decide (state.1.active.size ≥ r.maxMemtableSize)),
        state.2.putTable name (state.1.addTxIds txIds))

/-- The second locked section of a write that needs a flush: the swap, unless the
active memtable is below its limit by now. The result says whether a flush was
submitted. -/
def swapLocked (r : Router) (name : String) : Bool × Router :=
  let state := r.getTableState name
  if state.1.active.size ≥ r.maxMemtableSize then
    (true, state.2.putTable name state.1.swap)
  else (false, state.2)

/-- The first step of `_get_internal`; a cached `None` counts as a miss. -/
def getCached (r : Router) (name key : String) : Except RouterError (Option Value) × Router :=
  match r.cache.get (name, key) with
  | none => (.error .cache, r)
  | some (found, cache) =>
      let r := { r with cache := cache }
      match found with
      | some .null => (.ok none, r)
      | other => (.ok other, r)

/-- The locked section of `_get_internal`. -/
def getLocked (json : Json) (r : Router) (name key : String) : Except RouterError Value × Router :=
  let state := r.getTableState name
  let found := state.1.find json key
  let r := state.2.putTable name found.2
  match found.1 with
  | .active (.error e) => (.error e, r)
  | .active (.ok value) => answer r value
  | .immutable (.error e) => (.error e, r)
  | .immutable (.ok .null) => (.ok .null, r)
  | .immutable (.ok value) => answer r value
  | .disk none => (.ok .null, r)
  | .disk (some .null) => (.ok .null, r)
  | .disk (some value) => answer r value
where
  answer (r : Router) (value : Value) : Except RouterError Value × Router :=
    match r.putCache name key value with
    | (.error e, r) => (.error e, r)
    | (.ok (), r) => (.ok value, r)

/-- `_get_raw_manifest`. -/
def getRawManifest (json : Json) (r : Router) (name key : String) : Value × Router :=
  let state := r.getTableState name
  let found := state.1.find json key
  let r := state.2.putTable name found.2
  match found.1 with
  | .active (.ok value) => (value, r)
  | .immutable (.ok value) => (value, r)
  | .disk (some value) => (value, r)
  | _ => (.null, r)

section

variable {json : Json} {records : List (String × Value)} {packedRecords : List (String × Bytes)}

/-- Each record is packed, and stands under its own key. -/
theorem packRecords_each (packs : packRecords json records = .ok packedRecords) :
    List.Forall₂ (fun (record : String × Value) packed =>
      packed.1 = record.1 ∧ packRecord json record.1 record.2 = .ok packed.2)
      records packedRecords := by
  induction records generalizing packedRecords with
  | nil =>
      cases packs
      exact .nil
  | cons record rest ih =>
      obtain ⟨key, value⟩ := record
      unfold packRecords at packs
      cases first : packRecord json key value with
      | error e =>
          rw [first] at packs
          cases packs
      | ok packed =>
          rw [first] at packs
          cases later : packRecords json rest with
          | error e =>
              rw [later] at packs
              cases packs
          | ok more =>
              rw [later] at packs
              cases packs
              exact .cons ⟨rfl, first⟩ (ih later)

theorem packRecords_length (packs : packRecords json records = .ok packedRecords) :
    packedRecords.length = records.length :=
  (packRecords_each packs).length_eq.symm

/-- A packed record is that of a record. -/
theorem packRecords_mem (packs : packRecords json records = .ok packedRecords)
    {packed : String × Bytes} (member : packed ∈ packedRecords) :
    ∃ record ∈ records,
      packed.1 = record.1 ∧ packRecord json record.1 record.2 = .ok packed.2 := by
  have each := packRecords_each packs
  clear packs
  induction each with
  | nil => cases member
  | cons here _ ih =>
      rcases List.mem_cons.mp member with rfl | there
      · exact ⟨_, List.mem_cons_self, here⟩
      · obtain ⟨record, inside, same⟩ := ih there
        exact ⟨record, List.mem_cons_of_mem _ inside, same⟩

theorem packRecords_keys (packs : packRecords json records = .ok packedRecords) :
    packedRecords.map Prod.fst = records.map Prod.fst := by
  have each := packRecords_each packs
  clear packs
  induction each with
  | nil => rfl
  | cons here _ ih => rw [List.map_cons, List.map_cons, here.1, ih]

end

end Router

end CachyDb
