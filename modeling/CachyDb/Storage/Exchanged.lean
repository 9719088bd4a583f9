import CachyDb.Storage.Turns

set_option autoImplicit false

/-! The router over another log. Of its log it looks at nothing but the ids that it gets, so
with the same counter it does the same. -/

namespace CachyDb

open ByteString

namespace Router

/-- The same router over another log. -/
def onLog (r : Router) (wal : Wal) : Router := { r with wal := wal }

section

variable (r : Router) (wal : Wal) (name key : String)

theorem onLog_getTableState : (r.onLog wal).getTableState name =
    ((r.getTableState name).1, (r.getTableState name).2.onLog wal) := by
  unfold getTableState onLog
  dsimp only
  cases r.tables.lookup name with
  | some t => rfl
  | none => rfl

theorem onLog_table : (r.onLog wal).table name = r.table name := by
  rw [table, onLog_getTableState, table]

theorem onLog_putTable (t : Table) :
    (r.onLog wal).putTable name t = (r.putTable name t).onLog wal := rfl

theorem onLog_putCache (value : Value) : (r.onLog wal).putCache name key value =
    ((r.putCache name key value).1, (r.putCache name key value).2.onLog wal) := by
  unfold putCache onLog
  dsimp only
  cases r.cache.put (name, key) value with
  | some cache => rfl
  | none => rfl

theorem onLog_setLocked (value : Value) (packed : Bytes)
    (counter : wal.globalTxId = r.wal.globalTxId) :
    (r.onLog wal).setLocked name key value packed =
      ((r.setLocked name key value packed).1,
        (r.setLocked name key value packed).2.onLog (wal.appendToBuffer packed).2) := by
  have id : ((r.getTableState name).2.wal.appendToBuffer packed).1 =
      (wal.appendToBuffer packed).1 := by
    rw [Wal.appendToBuffer, Wal.appendToBuffer, (r.getTableState_wal name).1]
    exact counter.symm
  unfold setLocked
  rw [onLog_getTableState]
  dsimp only
  rw [id]
  have stored (t : Table) : { (r.getTableState name).2.onLog wal with
      wal := (((r.getTableState name).2.onLog wal).wal.appendToBuffer packed).2 }.putTable name t =
        ({ (r.getTableState name).2 with
          wal := ((r.getTableState name).2.wal.appendToBuffer packed).2 }.putTable name t).onLog
            (wal.appendToBuffer packed).2 := rfl
  rw [show (((r.getTableState name).2.onLog wal).wal.appendToBuffer packed).1 =
    (wal.appendToBuffer packed).1 from rfl, stored, onLog_putCache]
  dsimp only
  generalize Router.putCache _ name key value = put
  obtain ⟨result, r'⟩ := put
  cases result with
  | error e => rfl
  | ok done => rfl

theorem onLog_insertRecords (records : List (String × Value))
    (packedRecords : List (String × Bytes)) :
    (r.onLog wal).insertRecords name records packedRecords =
      ((r.insertRecords name records packedRecords).1,
        (r.insertRecords name records packedRecords).2.onLog wal) := by
  induction records generalizing r packedRecords with
  | nil => cases packedRecords <;> rfl
  | cons record rest ih =>
      cases packedRecords with
      | nil => rfl
      | cons packed more =>
          unfold insertRecords
          by_cases unnamed : packed.1 = ""
          · rw [if_pos unnamed, if_pos unnamed]
          · rw [if_neg unnamed, if_neg unnamed, onLog_getTableState]
            dsimp only
            rw [onLog_putTable, onLog_putCache]
            cases put : ((r.getTableState name).2.putTable name
              ((r.getTableState name).1.insert packed.1 packed.2)).putCache name packed.1
                record.2 with
            | mk result r' =>
                cases result with
                | error e => rfl
                | ok done => exact ih r' more

theorem onLog_setManyLocked (records : List (String × Value))
    (packedRecords : List (String × Bytes)) (txIds : List Nat) :
    (r.onLog wal).setManyLocked name records packedRecords txIds =
      ((r.setManyLocked name records packedRecords txIds).1,
        (r.setManyLocked name records packedRecords txIds).2.onLog wal) := by
  unfold setManyLocked
  rw [onLog_getTableState, onLog_insertRecords]
  dsimp only
  cases (r.getTableState name).2.insertRecords name records packedRecords with
  | mk result r' =>
      cases result with
      | error e => rfl
      | ok done =>
          dsimp only
          rw [onLog_getTableState]
          rfl

theorem onLog_swapLocked : (r.onLog wal).swapLocked name =
    ((r.swapLocked name).1, (r.swapLocked name).2.onLog wal) := by
  unfold swapLocked
  rw [onLog_getTableState]
  by_cases full : (r.getTableState name).1.active.size ≥ r.maxMemtableSize
  · have full' : (r.getTableState name).1.active.size ≥ (r.onLog wal).maxMemtableSize := full
    simp only [if_pos full, if_pos full']
    rfl
  · have room : ¬ (r.getTableState name).1.active.size ≥ (r.onLog wal).maxMemtableSize := full
    simp only [if_neg full, if_neg room]

theorem onLog_getCached : (r.onLog wal).getCached name key =
    ((r.getCached name key).1, (r.getCached name key).2.onLog wal) := by
  unfold getCached onLog
  dsimp only
  cases r.cache.get (name, key) with
  | none => rfl
  | some both =>
      obtain ⟨found, cache⟩ := both
      dsimp only
      split
      · rfl
      · rfl

theorem onLog_answer (value : Value) : getLocked.answer name key (r.onLog wal) value =
    ((getLocked.answer name key r value).1, (getLocked.answer name key r value).2.onLog wal) := by
  unfold getLocked.answer
  rw [onLog_putCache]
  cases r.putCache name key value with
  | mk result r' =>
      cases result with
      | error e => rfl
      | ok done => rfl

theorem onLog_getLocked (json : Json) : (r.onLog wal).getLocked json name key =
    ((r.getLocked json name key).1, (r.getLocked json name key).2.onLog wal) := by
  unfold getLocked
  rw [onLog_getTableState]
  dsimp only
  rw [onLog_putTable]
  split
  · rfl
  · exact onLog_answer _ wal name key _
  · rfl
  · rfl
  · exact onLog_answer _ wal name key _
  · rfl
  · rfl
  · exact onLog_answer _ wal name key _

end

end Router

namespace Store

/-- The same store over another log. -/
def onLog (s : Store) (wal : Wal) : Store := { s with router := s.router.onLog wal }

section

variable (json : Json) (s : Store) {log : Wal.Log}

theorem onLog_site (wal : Wal) (name : String) : (s.onLog wal).site name = s.site name :=
  congrArg (fun table => ({ s.shelves name with table := table } : Site))
    (s.router.onLog_table wal name)

/-- The ids of a call depend on the counter alone. -/
theorem appendMany_ids {w w' : Wal} (counter : w.globalTxId = w'.globalTxId)
    (payloads : List Bytes) :
    (w.appendManyToBuffer payloads).1 = (w'.appendManyToBuffer payloads).1 := by
  induction payloads generalizing w w' with
  | nil => rfl
  | cons payload rest ih =>
      unfold Wal.appendManyToBuffer
      dsimp only
      rw [@ih (w.appendToBuffer payload).2 (w'.appendToBuffer payload).2
        (congrArg (· + 1) counter)]
      exact congrArg (fun id => id :: _) counter

theorem onLog_set (counter : log.wal.globalTxId = s.router.wal.globalTxId) (client : Nat)
    (name key : String) (value : Value) :
    (s.onLog log.wal).set json client name key value = (s.set json client name key value).map
      fun t => t.onLog (s.follow json log (.set client name key value)).wal := by
  unfold set follow logEvent
  dsimp only [onLog]
  cases packRecord json key value with
  | error e => cases s.clients client <;> rfl
  | ok packed =>
      cases s.clients client with
      | idle =>
          dsimp only
          split
          · rfl
          · rw [s.router.onLog_setLocked log.wal name key value packed counter]
            simp only [Option.map_some, Router.onLog, counter]
            rfl
      | _ => rfl

theorem onLog_append (counter : log.wal.globalTxId = s.router.wal.globalTxId) (client : Nat)
    (name : String) (records : List (String × Value)) :
    (s.onLog log.wal).append json client name records = (s.append json client name records).map
      fun t => t.onLog (s.follow json log (.append client name records)).wal := by
  unfold append follow logEvent
  dsimp only [onLog]
  cases Router.packRecords json records with
  | error e => cases s.clients client <;> rfl
  | ok packedRecords =>
      cases s.clients client with
      | idle =>
          dsimp only
          split
          · rfl
          · dsimp only [Router.onLog, Option.map_some]
            rw [appendMany_ids counter]
            rfl
      | _ => rfl

theorem onLog_calls (counter : log.wal.globalTxId = s.router.wal.globalTxId) (e : Event) :
    (s.onLog log.wal).calls json e = s.calls json e := by
  cases e with
  | set client name key value =>
      unfold calls
      dsimp only [onLog, Router.onLog]
      rw [counter]
  | append client name records =>
      unfold calls
      dsimp only [onLog, Router.onLog]
      split
      · rw [appendMany_ids counter]
      · rfl
  | _ => rfl

theorem onLog_actOn (counter : log.wal.globalTxId = s.router.wal.globalTxId) (name : String)
    (e : Event) : (s.onLog log.wal).actOn json name e = s.actOn json name e := by
  have table (other : String) := s.router.onLog_table log.wal other
  cases e with
  | set client other key value =>
      unfold actOn
      dsimp only [onLog, Router.onLog]
      rw [counter]
  | swap client =>
      unfold actOn
      dsimp only [onLog]
      simp only [table]
      rfl
  | getLocked other key =>
      unfold actOn
      dsimp only [onLog]
      simp only [table]
  | _ => rfl

/-- A step of the store over another log that has the same counter. -/
theorem onLog_perform (counter : log.wal.globalTxId = s.router.wal.globalTxId) (e : Event) :
    (s.onLog log.wal).perform json e =
      (s.perform json e).map fun t => t.onLog (s.follow json log e).wal := by
  cases e with
  | set client name key value => exact onLog_set json s counter client name key value
  | append client name records => exact onLog_append json s counter client name records
  | insertMany client =>
      unfold perform insertMany follow logEvent
      dsimp only [onLog]
      split
      · rw [Router.onLog_setManyLocked]
        rfl
      · rfl
  | check client =>
      unfold perform check follow logEvent
      dsimp only [onLog]
      split
      · split
        · rfl
        · split
          · rfl
          · rfl
      · rfl
  | wake client =>
      unfold perform wake follow logEvent
      dsimp only [onLog]
      split
      · split
        · rfl
        · split
          · rfl
          · split
            · rfl
            · rfl
      · rfl
  | swap client =>
      have site (name : String) := s.onLog_site log.wal name
      unfold perform swap follow logEvent
      dsimp only
      simp only [site]
      simp only [onLog, Router.onLog_swapLocked]
      split
      · rfl
      · rfl
  | getCached name key =>
      unfold perform follow logEvent
      dsimp only [onLog]
      rw [Router.onLog_getCached]
      rfl
  | getLocked name key =>
      unfold perform follow logEvent
      dsimp only [onLog]
      rw [Router.onLog_getLocked]
      rfl
  | flush name i =>
      unfold perform flush follow logEvent marks
      dsimp only
      rw [onLog_site]
      dsimp only [onLog]
      cases (s.shelves name).tasks[i]? with
      | none => rfl
      | some task =>
          dsimp only
          split
          · rfl
          · rfl
  | raise name i =>
      unfold perform raise follow logEvent
      dsimp only
      rw [onLog_site]
      dsimp only [onLog]
      split
      · rfl
      · split
        · rfl
        · rfl
  | writer clock => rfl

end

end Store

end CachyDb
