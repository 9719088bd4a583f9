import CachyDb.Database.Recovery
import CachyDb.Storage.Regular

set_option autoImplicit false

/-! The states that a database gets into: any number of clients, the replay of the log beside
them, evictions, and flushes that succeed. -/

namespace CachyDb.Database

open ByteString Router

theorem split_colon {chars : List Char} (colon : ':' ∈ chars) :
    ∃ rest, chars = chars.takeWhile (· ≠ ':') ++ ':' :: rest := by
  induction chars with
  | nil => cases colon
  | cons c rest ih =>
      by_cases here : c = ':'
      · subst here
        exact ⟨rest, by simp⟩
      · obtain ⟨behind, split⟩ := ih ((List.mem_cons.mp colon).resolve_left fun same => here same.symm)
        refine ⟨behind, ?_⟩
        rw [List.takeWhile_cons_of_pos (by simpa using here), List.cons_append, ← split]

/-- The part before the first colon decides. -/
theorem isChunkKey_iff (key : String) : isChunkKey key = true ↔
    ':' ∈ key.toList ∧ key.toList.takeWhile (· ≠ ':') = "__chunk__".toList := by
  have whole : chunkPrefix.toList = "__chunk__".toList ++ [':'] := by decide
  rw [isChunkKey, List.isPrefixOf_iff_prefix, whole]
  constructor
  · rintro ⟨rest, split⟩
    rw [← split, List.append_assoc, List.singleton_append]
    exact ⟨by simp, takeWhile_prefix (by decide)⟩
  · rintro ⟨colon, front⟩
    obtain ⟨rest, split⟩ := split_colon colon
    rw [front] at split
    exact ⟨rest, by rw [split, List.append_assoc, List.singleton_append]⟩

theorem takeWhile_behind (front back : List Char) :
    (front ++ ':' :: back).takeWhile (· ≠ ':') = front.takeWhile (· ≠ ':') := by
  induction front with
  | nil => simp
  | cons c rest ih =>
      by_cases here : c = ':'
      · simp [here]
      · rw [List.cons_append, List.takeWhile_cons_of_pos (by simpa using here),
          List.takeWhile_cons_of_pos (by simpa using here), ih]

theorem isChunkKey_namespacedKey (table key : String) :
    isChunkKey (namespacedKey table key) = Store.isChunkTable table := by
  have front : (table ++ ":").toList = table.toList ++ ':' :: [] := by
    rw [String.toList_append]
    rfl
  rw [Store.isChunkTable, Bool.eq_iff_iff, isChunkKey_iff, isChunkKey_iff, toList_namespacedKey, front,
    takeWhile_behind, takeWhile_behind]
  simp

/-- Recovery puts chunk keys into a table of their own. -/
theorem recoveryTable_of_isChunkKey {key : String} (chunk : isChunkKey key = true) :
    recoveryTable key = "__chunk__" := by
  obtain ⟨colon, front⟩ := (isChunkKey_iff key).mp chunk
  rw [recoveryTable, if_pos colon, front]
  rfl

theorem namespacedKey_injective {table key other : String}
    (same : namespacedKey table key = namespacedKey table other) : key = other := by
  have chars := congrArg String.toList same
  rw [toList_namespacedKey, toList_namespacedKey] at chars
  exact String.toList_inj.mp (List.cons.inj (List.append_cancel_left chars)).2

/-- What is replayed is what was packed. -/
theorem recoveredEntry_packs {json : Json} {record : Wal.Record} (packed : Packed json record.2)
    {name : String} {e : Entry} (entry : recoveredEntry json record = some (name, e)) :
    packRecord json e.key e.value = .ok e.packed ∧ json.Faithful e.value ∧
      name = recoveryTable e.key := by
  obtain ⟨key, value, packs, faithful⟩ := packed
  unfold recoveredEntry at entry
  rw [unpackRecord_decoded packs, faithful.decoded] at entry
  dsimp only at entry
  split at entry
  · cases entry
  · cases entry
    exact ⟨packs, faithful, rfl⟩

end CachyDb.Database

namespace CachyDb.Store

open ByteString Database Router

/-- A process on the files of earlier ones. -/
inductive Reachable (json : Json) (tableFiles : String → File) : Store → Prop
  | start (wal : Wal) {maxMemtableSize cacheCapacity : Nat} : 0 < maxMemtableSize →
      0 < cacheCapacity →
      Reachable json tableFiles (start wal tableFiles maxMemtableSize cacheCapacity)
  | turn {s t : Store} {turn : Turn} : Reachable json tableFiles s → TurnStep json s turn t →
      Reachable json tableFiles t
  | replay {s : Store} {record : Wal.Record} : Reachable json tableFiles s →
      Packed json record.2 → Reachable json tableFiles (s.recover json record)

section

variable {json : Json} {tableFiles : String → File} {s : Store}

/-- A replayed record enters a memtable, as a written one does. -/
theorem Regular.replay (regular : s.Regular json tableFiles) {record : Wal.Record}
    (packed : Packed json record.2) : (s.recover json record).Regular json tableFiles := by
  have site := s.recover_site json record
  have spec := recoverRecord_spec json s.router record
  obtain ⟨router, clients⟩ := s.recover_router json record
  have cache : (s.recover json record).router.cache = s.router.cache := by rw [router, spec.cache]
  have limit : (s.recover json record).router.maxMemtableSize = s.router.maxMemtableSize := by
    rw [router, spec.limit]
  have pending : (s.recover json record).Pending json := by
    apply regular.sound.pending.keep clients
    rw [router, spec.counter]
  cases entry : recoveredEntry json record with
  | none =>
      have table := spec.table
      simp only [entry] at site table
      have alike : Alike s (s.recover json record) := by
        refine ⟨?_, clients, ?_, ?_, limit, ?_, congrArg Cache.capacity cache⟩
        · unfold recover
          rw [entry]
        · rw [router]
          exact table
        · rw [router, spec.counter]
        · rw [cache]
          exact regular.sound.cache
      apply regular.alike alike
      intro name key held plain chunk known
      unfold cached at known
      rw [cache] at known
      exact regular.chunks name key held plain chunk known
  | some both =>
      obtain ⟨table, e⟩ := both
      obtain ⟨packs, faithful, home⟩ := recoveredEntry_packs packed entry
      have nonempty := (Recovery.recoveredEntry_packed entry).1
      simp only [entry] at site
      have tasks (name : String) :
          ((s.recover json record).site name).tasks = (s.site name).tasks := by
        rw [site]
        split <;> rfl
      constructor
      · refine ⟨fun name => ?_, ?_, pending, fun name new member => ?_⟩
        · rw [site]
          split
          · exact (regular.sound.sites name).enter nonempty
          · exact regular.sound.sites name
        · rw [cache]
          exact regular.sound.cache
        · rw [site] at member
          split at member
          · rcases List.mem_cons.mp member with rfl | before
            · exact packs
            · exact regular.sound.packed name new before
          · exact regular.sound.packed name new member
      · intro name
        rw [site]
        split
        · exact (regular.orderly name).keep [e] rfl rfl rfl rfl rfl rfl fun _ held => held
        · exact regular.orderly name
      · intro name task member
        rw [tasks] at member
        exact regular.succeeding name task member
      · intro name
        rw [site]
        split
        · exact regular.filled name
        · exact regular.filled name
      · intro name new member
        rw [site] at member
        split at member
        · rcases List.mem_cons.mp member with rfl | before
          · exact faithful
          · exact regular.faithful name new before
        · exact regular.faithful name new member
      · intro client name records packedRecords txIds logged
        rw [clients] at logged
        exact regular.pending client name records packedRecords txIds logged
      · intro name place payload there
        rw [site]
        split
        · exact regular.files name place payload there
        · exact regular.files name place payload there
      · intro name key held plain chunk known
        unfold cached at known
        rw [cache] at known
        have unchanged : (s.recover json record).newest name key = s.newest name key := by
          unfold newest
          rw [site]
          split
          · rename_i here
            -- a chunk key would have gone to the table `__chunk__`
            have other : e.key ≠ key := by
              rintro rfl
              rw [← here, home, recoveryTable_of_isChunkKey chunk] at plain
              exact absurd plain (by decide)
            show latest (e :: (s.site name).written) key = _
            rw [latest_cons, if_neg other]
          · rfl
        rw [value, unchanged]
        exact regular.chunks name key held plain chunk known
      · rw [cache]
        exact regular.room
      · rw [limit]
        exact regular.limit

theorem Reachable.regular (stocked : ∀ name, Stocked json (tableFiles name))
    (reachable : s.Reachable json tableFiles) : s.Regular json tableFiles := by
  induction reachable with
  | start wal limit room => exact (start_steady wal stocked limit room).regular
  | turn _ step ih => exact ih.turn stocked step
  | replay _ packed ih => exact ih.replay packed

theorem Reachable.turns {t : Store} (reachable : s.Reachable json tableFiles) (turns : Turns json s t) :
    t.Reachable json tableFiles := by
  obtain ⟨turns, run⟩ := turns
  induction run with
  | nil => exact reachable
  | snoc _ step ih => exact ih.turn step

end

end CachyDb.Store
