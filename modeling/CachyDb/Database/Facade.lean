import Mathlib.Data.List.TakeWhile
import CachyDb.Storage.Chunking

set_option autoImplicit false

/-! The `CachyDB` object: keys get their table's name as a prefix, and recovery finds
the table of a logged record by that prefix. -/

namespace CachyDb.Database

open ByteString

def namespacedKey (table key : String) : String := table ++ ":" ++ key

def set (json : Json) (codec : Codec) (others : Surroundings) (r : Router) (table key : String)
    (value : Value) : Except RouterError Unit × Caller :=
  if table = "" ∨ key = "" then (.error .emptyName, ⟨r, []⟩)
  else Router.set json codec others r table (namespacedKey table key) value

def setMany (json : Json) (others : Surroundings) (r : Router) (table : String)
    (records : List (String × Value)) : Except RouterError Unit × Caller :=
  if table = "" ∨ records = [] then (.error .emptyName, ⟨r, []⟩)
  else
    Router.setMany json others r table
      (records.map fun record => (namespacedKey table record.1, record.2))

def delete (json : Json) (codec : Codec) (others : Surroundings) (r : Router)
    (table key : String) : Except RouterError Unit × Caller :=
  if table = "" ∨ key = "" then (.error .emptyName, ⟨r, []⟩)
  else set json codec others r table key .null

/-- The part of a key before its first `:`. -/
def recoveryTable (key : String) : String :=
  if ':' ∈ key.toList then
    let front := key.toList.takeWhile (· ≠ ':')
    if front = [] then "default" else String.ofList front
  else "default"

/-- One turn of the loop of `_recover_transactions`. What it raises is logged only. -/
def recoverRecord (json : Json) (r : Router) (record : Wal.Record) : Router :=
  match unpackRecord json record.2 with
  | .error _ => r
  | .ok (key, _) =>
      let state := r.getTableState (recoveryTable key)
      if key = "" then state.2
      else
        let inserted := state.2.putTable (recoveryTable key) (state.1.insert key record.2)
        match Wal.getFilePath record.1 with
        | .error _ => inserted
        | .ok fileId =>
            match inserted.wal.markJobComplete record.1 fileId with
            | .error _ => inserted
            | .ok wal => { inserted with wal := wal }

/-- The generator `read_wal` is read to its end first: a mark only changes an entry that
has been yielded already. -/
def recoverTransactions (json : Json) (r : Router) : Router :=
  (Wal.readWal r.wal.disk).records.foldl (recoverRecord json) r

theorem tables_putTable (r : Router) (name : String) (t : Table) :
    (r.putTable name t).tables = r.tables.insert name t := rfl

/-- A table that is created on the way is overwritten by what is put there next. -/
theorem getTableState_putTable (r : Router) (name : String) (t : Table) :
    ((r.getTableState name).2.putTable name t).tables = r.tables.insert name t := by
  unfold Router.getTableState
  cases r.tables.lookup name with
  | some _ => rfl
  | none =>
      rw [tables_putTable, tables_putTable]
      exact AList.insert_insert r.tables

theorem recoverRecord_tables {json : Json} {payload : Bytes} {key : String} {value : Value}
    (unpacked : unpackRecord json payload = .ok (key, value)) (named : key ≠ "") (r : Router)
    (txId : Nat) :
    (recoverRecord json r (txId, payload)).tables =
      r.tables.insert (recoveryTable key)
        ((r.getTableState (recoveryTable key)).1.insert key payload) := by
  rw [← getTableState_putTable]
  simp only [recoverRecord, unpacked, if_neg named]
  cases Wal.getFilePath txId with
  | error e => rfl
  | ok fileId =>
      dsimp only
      cases Wal.markJobComplete _ txId fileId with
      | error e => rfl
      | ok wal => rfl

/-- Replaying the payload puts it into the active memtable of `table` and does nothing
else to any table. -/
def ReplaysInto (json : Json) (payload : Bytes) (table : String) : Prop :=
  ∃ key, ∀ (r : Router) (txId : Nat),
    (recoverRecord json r (txId, payload)).tables =
      r.tables.insert table ((r.getTableState table).1.insert key payload)

/-- Recovery looks at the key only. -/
theorem replaysInto_iff {json : Json} {payload : Bytes} {key table : String} {value : Value}
    (unpacked : unpackRecord json payload = .ok (key, value)) (named : key ≠ "") :
    ReplaysInto json payload table ↔ recoveryTable key = table := by
  constructor
  · rintro ⟨other, replays⟩
    let fresh : Router := Router.init ⟨0, [], ∅, none, FileSystem.empty, []⟩ (fun _ => File.empty) 1 1
    have same := (recoverRecord_tables unpacked named fresh 0).symm.trans (replays fresh 0)
    have found := congrArg (AList.lookup (recoveryTable key)) same
    rw [AList.lookup_insert] at found
    by_contra different
    rw [AList.lookup_insert_ne different] at found
    cases found
  · rintro rfl
    exact ⟨key, recoverRecord_tables unpacked named⟩

theorem toList_namespacedKey (table key : String) :
    (namespacedKey table key).toList = table.toList ++ ':' :: key.toList := by
  rw [namespacedKey, String.toList_append, String.toList_append, List.append_assoc]
  rfl

theorem namespacedKey_ne_empty (table key : String) : namespacedKey table key ≠ "" := by
  intro empty
  have chars := toList_namespacedKey table key
  rw [empty] at chars
  simp at chars

theorem toList_ne_nil {table : String} (named : table ≠ "") : table.toList ≠ [] := by
  intro empty
  apply named
  rw [← String.toList_inj, empty]
  rfl

theorem takeWhile_prefix {front rest : List Char} (clear : ':' ∉ front) :
    (front ++ ':' :: rest).takeWhile (· ≠ ':') = front := by
  rw [List.takeWhile_append_of_pos]
  · simp
  · intro c member
    simp only [ne_eq, decide_not, Bool.not_eq_eq_eq_not, Bool.not_true, decide_eq_false_iff_not]
    rintro rfl
    exact clear member

/-- Recovery inverts the prefixing exactly for the tables whose name has no `:`. -/
theorem recoveryTable_namespacedKey {table : String} (named : table ≠ "") (key : String) :
    recoveryTable (namespacedKey table key) = table ↔ ':' ∉ table.toList := by
  have colon : ':' ∈ (namespacedKey table key).toList := by
    rw [toList_namespacedKey]
    simp
  rw [recoveryTable, if_pos colon]
  constructor
  · intro same contains
    dsimp only at same
    split at same
    · rw [← same] at contains
      exact absurd contains (by decide)
    · rw [← same, String.toList_ofList] at contains
      have kept := List.mem_takeWhile_imp contains
      simp at kept
  · intro clear
    have front : (namespacedKey table key).toList.takeWhile (· ≠ ':') = table.toList := by
      rw [toList_namespacedKey]
      exact takeWhile_prefix clear
    rw [front, if_neg (toList_ne_nil named), String.ofList_toList]

/-- A chunk record goes into the table `__chunk__`. -/
theorem recoveryTable_chunkKey (key : String) (i : Nat) :
    recoveryTable (Router.chunkKey key i) = "__chunk__" := by
  have chars : (Router.chunkKey key i).toList =
      "__chunk__".toList ++ ':' :: (key ++ ":" ++ toString i).toList := by
    rw [Router.chunkKey, Router.chunkPrefix, String.append_assoc, String.append_assoc,
      String.toList_append, ← String.append_assoc]
    rfl
  rw [recoveryTable, chars, if_pos (by simp), takeWhile_prefix (by decide)]
  rfl

end CachyDb.Database
