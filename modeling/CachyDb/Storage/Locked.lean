import CachyDb.Storage.Store

set_option autoImplicit false

/-! What the locked sections of the router do: to the table they are about, to the log
and to the cache. -/

namespace CachyDb

open ByteString TableHandler

namespace Table

section Readers

variable (json : Json) (key : String) {P : TableHandler → Prop}

/-- What every page read keeps, a search keeps. -/
theorem searchPages_keeps
    (reads : ∀ h pageId page h', P h → h.readPage pageId = .ok (page, h') → P h') (count : Nat)
    {h : TableHandler} (holds : P h) : P (searchPages json key count h).2 := by
  induction count generalizing h with
  | zero => exact holds
  | succ pageId ih =>
      unfold searchPages
      cases read : h.readPage pageId with
      | error e => exact ih holds
      | ok result =>
          have after := reads h pageId result.1 result.2 holds read
          dsimp only
          split
          · exact after
          · exact ih after

/-- A lookup changes no more than which pages are loaded. -/
theorem find_keeps (t : Table)
    (reads : ∀ h pageId page h', P h → h.readPage pageId = .ok (page, h') → P h')
    (holds : P t.handler) : ∃ h, (t.find json key).2 = { t with handler := h } ∧ P h := by
  have onDisk : ∃ h, (t.readFromDisk json key).2 = { t with handler := h } ∧ P h := by
    unfold readFromDisk
    cases t.diskIndex.lookup key with
    | none => exact ⟨t.handler, rfl, holds⟩
    | some place =>
        obtain ⟨pageId, slot⟩ := place
        dsimp only
        cases read : t.handler.readPage pageId with
        | error e => exact ⟨_, rfl, searchPages_keeps json key reads _ holds⟩
        | ok result =>
            have after := reads _ pageId result.1 result.2 holds read
            dsimp only
            cases pageSlotRecord json result.1 slot with
            | some record => exact ⟨_, rfl, after⟩
            | none => exact ⟨_, rfl, searchPages_keeps json key reads _ after⟩
  unfold find
  cases t.active.search key with
  | some packed => exact ⟨t.handler, rfl, holds⟩
  | none =>
      dsimp only
      cases t.immutable.bind (·.search key) with
      | some packed => exact ⟨t.handler, rfl, holds⟩
      | none => exact onDisk

theorem find_grows (t : Table) (coherent : t.handler.Coherent) :
    ∃ h, (t.find json key).2 = { t with handler := h } ∧ Grows t.handler h :=
  find_keeps json key t
    (fun _ _ _ _ grows read => grows.trans (grows.coherent.readPage read).1) (Grows.refl coherent)

end Readers

theorem indexPage_grows (state : TableHandler × AList (fun _ : String => Nat × Nat)) (pageId : Nat)
    (coherent : state.1.Coherent) : Grows state.1 (indexPage state pageId).1 := by
  unfold indexPage
  cases read : state.1.readPage pageId with
  | error e => exact Grows.refl coherent
  | ok result => exact (coherent.readPage read).1

theorem indexPages_grows (pageIds : List Nat)
    (state : TableHandler × AList (fun _ : String => Nat × Nat)) (coherent : state.1.Coherent) :
    Grows state.1 (pageIds.foldl indexPage state).1 := by
  induction pageIds generalizing state with
  | nil => exact Grows.refl coherent
  | cons pageId rest ih =>
      have first := indexPage_grows state pageId coherent
      exact first.trans (ih _ first.coherent)

/-- A table starts from a file of readable pages. -/
theorem init_coherent {file : File} (formed : (openTable file).WellFormed) :
    (Table.init file).handler.Coherent :=
  (indexPages_grows _ (openTable file, ∅) (openTable_coherent formed)).coherent

end Table

/-- The answer of `_get_internal` to what a lookup has found. -/
def Table.Found.answer : Table.Found → Except RouterError Value
  | .active value => value
  | .immutable value => value
  | .disk value => .ok (value.getD .null)

namespace Router

/-- `r'` has another table under `name`, and may differ in its cache and its log. -/
structure Puts (r r' : Router) (name : String) (t : Table) : Prop where
  table : ∀ other, r'.table other = if other = name then t else r.table other
  limit : r'.maxMemtableSize = r.maxMemtableSize

theorem getTableState_wal (r : Router) (name : String) : (r.getTableState name).2.wal = r.wal ∧
    (r.getTableState name).2.cache = r.cache ∧
    (r.getTableState name).2.maxMemtableSize = r.maxMemtableSize := by
  unfold getTableState
  cases r.tables.lookup name with
  | some t => exact ⟨rfl, rfl, rfl⟩
  | none => exact ⟨rfl, rfl, rfl⟩

theorem puts_self (r : Router) (name : String) : Puts r r name (r.table name) := by
  refine ⟨fun other => ?_, rfl⟩
  by_cases same : other = name
  · rw [if_pos same, same]
  · rw [if_neg same]

/-- The state of the table is fetched and put back changed. -/
theorem puts_putTable (r : Router) (name : String) (t : Table) (wal : Wal) :
    Puts r ({ (r.getTableState name).2 with wal := wal }.putTable name t) name t := by
  refine ⟨fun other => ?_, (r.getTableState_wal name).2.2⟩
  by_cases same : other = name
  · rw [if_pos same, same, table_putTable_self]
  · rw [if_neg same, table_putTable_ne _ _ same, ← r.table_getTableState name other]
    exact @table_congr (r.getTableState name).2 { (r.getTableState name).2 with wal := wal } rfl rfl
      other

theorem Puts.putCache {r r' : Router} {name : String} {t : Table} (puts : Puts r r' name t)
    (table key : String) (value : Value) : Puts r (r'.putCache table key value).2 name t := by
  obtain ⟨tables, files, _, limit⟩ := r'.putCache_frame table key value
  refine ⟨fun other => ?_, limit.trans puts.limit⟩
  rw [table_congr tables files, puts.table]

theorem Puts.trans {r r' r'' : Router} {name : String} {t t' : Table} (first : Puts r r' name t)
    (second : Puts r' r'' name t') : Puts r r'' name t' := by
  refine ⟨fun other => ?_, second.limit.trans first.limit⟩
  rw [second.table, first.table]
  split <;> rfl

theorem Puts.self {r r' : Router} {name : String} {t : Table} (puts : Puts r r' name t) :
    r'.table name = t := by
  rw [puts.table, if_pos rfl]

/-- What a cache holds after the writes of a table, the newest first. -/
def Caches (c c' : Cache (String × String) Value) (name : String) (entries : List Entry) : Prop :=
  ∀ other held, c'.cache.lookup other = some held →
    (other.1 = name ∧ ∃ e, latest entries other.2 = some e ∧ held = e.value) ∨
      (c.cache.lookup other = some held ∧ (other.1 = name → latest entries other.2 = none))

theorem Caches.nil (c : Cache (String × String) Value) (name : String) : Caches c c name [] :=
  fun _ _ known => Or.inr ⟨known, fun _ => rfl⟩

theorem Caches.append {c c' c'' : Cache (String × String) Value} {name : String}
    {front back : List Entry} (first : Caches c c' name back) (second : Caches c' c'' name front) :
    Caches c c'' name (front ++ back) := by
  intro other held known
  rcases second other held known with ⟨same, e, found, value⟩ | ⟨known', missing⟩
  · exact Or.inl ⟨same, e, by rw [latest_append, found, Option.some_or], value⟩
  · rcases first other held known' with ⟨same, e, found, value⟩ | ⟨known'', missing'⟩
    · exact Or.inl ⟨same, e, by rw [latest_append, missing same, Option.none_or, found], value⟩
    · refine Or.inr ⟨known'', fun same => ?_⟩
      rw [latest_append, missing same, missing' same]
      rfl

/-- `r'` has the log `wal`, and a sound cache of the same capacity. -/
structure Keeps (r r' : Router) (wal : Wal) : Prop where
  wal : r'.wal = wal
  formed : r'.cache.WellFormed
  capacity : r'.cache.capacity = r.cache.capacity

/-- The cache stays consistent, so that no `put` raises. -/
theorem putCache_ok {r : Router} (formed : r.cache.WellFormed) (name : String) (e : Entry) :
    ∃ r', r.putCache name e.key e.value = (.ok (), r') ∧ Keeps r r' r.wal ∧
      (0 < r.cache.capacity → Caches r.cache r'.cache name [e]) := by
  obtain ⟨stored, put, formed', capacity, holds⟩ := formed.put (name, e.key) e.value
  refine ⟨{ r with cache := stored }, by simp only [putCache, put], ⟨rfl, formed', capacity⟩, ?_⟩
  intro room other held known
  rcases holds other held known with ⟨rfl, same⟩ | ⟨old, missed⟩
  · exact Or.inl ⟨rfl, e, by simp, same⟩
  · refine Or.inr ⟨old, fun same => ?_⟩
    rw [latest_cons, if_neg, latest_nil]
    intro written
    have empty := missed (Prod.ext same written.symm)
    omega

/-- A table is put back and a value goes into the cache. -/
theorem putBoth (r : Router) (formed : r.cache.WellFormed) (name : String) (e : Entry)
    (t : Table) (wal : Wal) :
    ∃ r', ({ (r.getTableState name).2 with wal := wal }.putTable name t).putCache name e.key e.value =
        (.ok (), r') ∧ Puts r r' name t ∧ Keeps r r' wal ∧
      (0 < r.cache.capacity → Caches r.cache r'.cache name [e]) := by
  obtain ⟨_, cached, _⟩ := r.getTableState_wal name
  have base := r.puts_putTable name t wal
  have formed' : ({ (r.getTableState name).2 with wal := wal }.putTable name t).cache.WellFormed := by
    show (r.getTableState name).2.cache.WellFormed
    rw [cached]
    exact formed
  obtain ⟨r', put, kept, caches⟩ := putCache_ok formed' name e
  have puts := base.putCache name e.key e.value
  rw [put] at puts
  have same : ({ (r.getTableState name).2 with wal := wal }.putTable name t).cache = r.cache := cached
  have capacity := kept.capacity
  rw [same] at capacity caches
  exact ⟨r', put, puts, ⟨kept.wal, kept.formed, capacity⟩, caches⟩

/-- The table is put back, and no more than the answer is cached. -/
structure Looked (r : Router) (name key : String) (found : Table.Found × Table)
    (out : Except RouterError Value × Router) : Prop where
  answers : out.1 = found.1.answer
  puts : Puts r out.2 name found.2
  keeps : Keeps r out.2 r.wal
  caches : ∀ other held, out.2.cache.cache.lookup other = some held →
    r.cache.cache.lookup other = some held ∨ (other = (name, key) ∧ out.1 = .ok held)

/-- A lookup changes which pages are loaded. -/
theorem getLocked_spec (json : Json) {r : Router} (formed : r.cache.WellFormed)
    (name key : String) :
    Looked r name key ((r.table name).find json key) (r.getLocked json name key) := by
  obtain ⟨wal, cached, _⟩ := r.getTableState_wal name
  have puts := r.puts_putTable name ((r.table name).find json key).2 (r.getTableState name).2.wal
  have formed' : (r.getTableState name).2.cache.WellFormed := by
    rw [cached]
    exact formed
  have silent {result : Except RouterError Value}
      (answers : result = ((r.table name).find json key).1.answer) :
      Looked r name key ((r.table name).find json key)
        (result, (r.getTableState name).2.putTable name ((r.table name).find json key).2) := by
    refine ⟨answers, puts, ⟨wal, formed', by rw [← cached]; rfl⟩, fun other held known => Or.inl ?_⟩
    rw [← cached]
    exact known
  have answer {value : Value} (answers : .ok value = ((r.table name).find json key).1.answer) :
      Looked r name key ((r.table name).find json key) (getLocked.answer name key
        ((r.getTableState name).2.putTable name ((r.table name).find json key).2) value) := by
    obtain ⟨stored, put, whole, capacity, holds⟩ := formed'.put (name, key) value
    have result : ((r.getTableState name).2.putTable name ((r.table name).find json key).2).putCache
        name key value = (.ok (), { (r.getTableState name).2.putTable name
          ((r.table name).find json key).2 with cache := stored }) := by
      have stored_there : ((r.getTableState name).2.putTable name
          ((r.table name).find json key).2).cache.put (name, key) value = some stored := put
      rw [putCache, stored_there]
    have puts' : Puts r (((r.getTableState name).2.putTable name
        ((r.table name).find json key).2).putCache name key value).2 name
          ((r.table name).find json key).2 := puts.putCache name key value
    rw [result] at puts'
    rw [getLocked.answer, result]
    refine ⟨answers, puts', ⟨wal, whole, by rw [← cached]; exact capacity⟩, fun other held known => ?_⟩
    rw [← cached]
    exact (holds other held known).elim (fun new => Or.inr ⟨new.1, by rw [new.2]⟩)
      fun old => Or.inl old.1
  have same : ((r.table name).find json key).1 = ((r.getTableState name).1.find json key).1 := rfl
  unfold getLocked
  dsimp only
  split
  all_goals
    rename_i found
    rw [← same] at found
  · exact silent (by rw [found]; rfl)
  · exact answer (by rw [found]; rfl)
  · exact silent (by rw [found]; rfl)
  · exact silent (by rw [found]; rfl)
  · exact answer (by rw [found]; rfl)
  · exact silent (by rw [found]; rfl)
  · exact silent (by rw [found]; rfl)
  · exact answer (by rw [found]; rfl)

/-- The locked section of `_set_internal`. -/
theorem setLocked_spec {r : Router} (formed : r.cache.WellFormed) (name : String) (e : Entry)
    (id : e.txId = r.wal.globalTxId) :
    ∃ r', r.setLocked name e.key e.value e.packed =
        (.ok (decide (((r.table name).insert e.key e.packed).active.size ≥ r.maxMemtableSize)), r') ∧
      Puts r r' name (((r.table name).insert e.key e.packed).addTxIds [e.txId]) ∧
      Keeps r r' (r.wal.appendToBuffer e.packed).2 ∧
      (0 < r.cache.capacity → Caches r.cache r'.cache name [e]) := by
  obtain ⟨wal, _, limit⟩ := r.getTableState_wal name
  obtain ⟨r', put, puts, kept, caches⟩ := r.putBoth formed name e
    (((r.table name).insert e.key e.packed).addTxIds [r.wal.globalTxId])
    (r.wal.appendToBuffer e.packed).2
  rw [id]
  refine ⟨r', ?_, puts, kept, caches⟩
  unfold setLocked
  dsimp only
  rw [wal]
  have put' := put
  simp only [table, Wal.appendToBuffer] at put'
  simp only [Wal.appendToBuffer, put']
  rw [puts.limit]
  rfl

theorem entriesOf_cons (record : String × Value) (records : List (String × Value))
    (key : String) (packed : Bytes) (packedRecords : List (String × Bytes)) (txId : Nat)
    (txIds : List Nat) :
    Store.entriesOf (record :: records) ((key, packed) :: packedRecords) (txId :: txIds) =
      if key = "" then []
      else ⟨txId, key, record.2, packed⟩ :: Store.entriesOf records packedRecords txIds := by
  unfold Store.entriesOf
  rw [List.zip_cons_cons, List.zip_cons_cons, List.map_cons, List.takeWhile_cons]
  by_cases named : key = ""
  · simp [named]
  · simp [named]

/-- The loop of a `set_many` stops at the first empty key. -/
theorem insertRecords_spec {r : Router} (formed : r.cache.WellFormed) (name : String)
    {records : List (String × Value)} {packedRecords : List (String × Bytes)} {txIds : List Nat}
    (packs : packedRecords.length = records.length) (ids : txIds.length = records.length) :
    ∃ r', r.insertRecords name records packedRecords =
        (if ∀ record ∈ packedRecords, record.1 ≠ "" then .ok () else .error .emptyName, r') ∧
      Puts r r' name ((Store.entriesOf records packedRecords txIds).foldl
        (fun t e => t.insert e.key e.packed) (r.table name)) ∧
      Keeps r r' r.wal ∧
      (0 < r.cache.capacity →
        Caches r.cache r'.cache name (Store.entriesOf records packedRecords txIds).reverse) := by
  induction records generalizing r packedRecords txIds with
  | nil =>
      obtain rfl := List.length_eq_zero_iff.mp packs
      obtain rfl := List.length_eq_zero_iff.mp ids
      refine ⟨r, ?_, r.puts_self name, ⟨rfl, formed, rfl⟩, fun _ => Caches.nil _ _⟩
      rw [insertRecords]
      · simp
      · simp
  | cons record records ih =>
      obtain ⟨⟨key, packed⟩, rest, rfl⟩ := List.exists_cons_of_length_eq_add_one packs
      obtain ⟨txId, laterIds, rfl⟩ := List.exists_cons_of_length_eq_add_one ids
      rw [entriesOf_cons, insertRecords]
      by_cases unnamed : key = ""
      · rw [if_pos unnamed, if_pos unnamed, if_neg (by simp [unnamed])]
        exact ⟨r, rfl, r.puts_self name, ⟨rfl, formed, rfl⟩, fun _ => Caches.nil _ _⟩
      · obtain ⟨wal, _⟩ := r.getTableState_wal name
        obtain ⟨r₁, put, puts, kept, caches⟩ := r.putBoth formed name ⟨txId, key, record.2, packed⟩
          ((r.table name).insert key packed) (r.getTableState name).2.wal
        have put' : ((r.getTableState name).2.putTable name
            ((r.getTableState name).1.insert key packed)).putCache name key record.2 =
              (.ok (), r₁) := put
        obtain ⟨r', done, puts', kept', caches'⟩ := @ih r₁ kept.formed rest laterIds
          (Nat.succ.inj packs) (Nat.succ.inj ids)
        rw [if_neg unnamed, if_neg unnamed]
        dsimp only
        rw [put']
        refine ⟨r', ?_, ?_, ⟨?_, kept'.formed, kept'.capacity.trans kept.capacity⟩, ?_⟩
        · show r₁.insertRecords name records rest = _
          rw [done]
          simp only [List.forall_mem_cons, ne_eq, unnamed, not_false_eq_true, true_and]
        · have whole := puts.trans puts'
          rw [puts.self] at whole
          exact whole
        · exact kept'.wal.trans (kept.wal.trans wal)
        · intro room
          rw [List.reverse_cons]
          exact (caches room).append (caches' (by rw [kept.capacity]; exact room))

/-- The locked section of `_set_many_internal`. -/
theorem setManyLocked_spec {r : Router} (formed : r.cache.WellFormed) (name : String)
    {records : List (String × Value)} {packedRecords : List (String × Bytes)} {txIds : List Nat}
    (packs : packedRecords.length = records.length) (ids : txIds.length = records.length) :
    Puts r (r.setManyLocked name records packedRecords txIds).2 name
        (((Store.entriesOf records packedRecords txIds).foldl
          (fun t e => t.insert e.key e.packed) (r.table name)).addTxIds
            (if ∀ record ∈ packedRecords, record.1 ≠ "" then txIds else [])) ∧
      Keeps r (r.setManyLocked name records packedRecords txIds).2 r.wal ∧
      (0 < r.cache.capacity → Caches r.cache (r.setManyLocked name records packedRecords txIds).2.cache
        name (Store.entriesOf records packedRecords txIds).reverse) := by
  obtain ⟨wal, cached, limit⟩ := r.getTableState_wal name
  have formed' : (r.getTableState name).2.cache.WellFormed := by
    rw [cached]
    exact formed
  obtain ⟨r', done, puts, kept, caches⟩ := insertRecords_spec formed' name packs ids
  have capacity := kept.capacity
  rw [cached] at capacity caches
  have entered : Puts r r' name ((Store.entriesOf records packedRecords txIds).foldl
      (fun t e => t.insert e.key e.packed) (r.table name)) := by
    refine ⟨fun other => ?_, puts.limit.trans limit⟩
    rw [puts.table, r.table_getTableState, r.table_getTableState]
  unfold setManyLocked
  rw [done]
  by_cases named : ∀ record ∈ packedRecords, record.1 ≠ ""
  · rw [if_pos named, if_pos named]
    dsimp only
    obtain ⟨wal', cached', limit'⟩ := r'.getTableState_wal name
    have stored := r'.puts_putTable name ((r'.table name).addTxIds txIds) (r'.getTableState name).2.wal
    refine ⟨?_, ⟨?_, ?_, ?_⟩, ?_⟩
    · rw [← entered.self]
      exact entered.trans stored
    · exact wal'.trans (kept.wal.trans wal)
    · show (r'.getTableState name).2.cache.WellFormed
      rw [cached']
      exact kept.formed
    · show (r'.getTableState name).2.cache.capacity = r.cache.capacity
      rw [cached']
      exact capacity
    · show 0 < r.cache.capacity → Caches r.cache (r'.getTableState name).2.cache name _
      rw [cached']
      exact caches
  · rw [if_neg named, if_neg named]
    refine ⟨?_, ⟨kept.wal.trans wal, kept.formed, capacity⟩, caches⟩
    have unchanged (t : Table) : t.addTxIds [] = t := by
      rw [Table.addTxIds, List.append_nil]
    rw [unchanged]
    exact entered

theorem swapLocked_spec (r : Router) (name : String) :
    (r.swapLocked name).1 = decide ((r.table name).active.size ≥ r.maxMemtableSize) ∧
      Puts r (r.swapLocked name).2 name
        (if (r.table name).active.size ≥ r.maxMemtableSize then (r.table name).swap
          else r.table name) ∧
      (r.swapLocked name).2.wal = r.wal ∧ (r.swapLocked name).2.cache = r.cache := by
  obtain ⟨wal, cached, limit⟩ := r.getTableState_wal name
  show _ ∧ Puts r _ name (if (r.getTableState name).1.active.size ≥ r.maxMemtableSize
    then (r.getTableState name).1.swap else _) ∧ _
  unfold swapLocked
  by_cases large : (r.getTableState name).1.active.size ≥ r.maxMemtableSize
  · rw [if_pos large, if_pos large]
    refine ⟨(decide_eq_true large).symm, ?_, wal, cached⟩
    exact r.puts_putTable name _ (r.getTableState name).2.wal
  · rw [if_neg large, if_neg large]
    refine ⟨(decide_eq_false large).symm, ⟨fun other => ?_, limit⟩, wal, cached⟩
    rw [table_getTableState]
    exact (r.puts_self name).table other

end Router

end CachyDb
