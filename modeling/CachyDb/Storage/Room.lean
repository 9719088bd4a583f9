import CachyDb.Storage.Writes

set_option autoImplicit false

/-! Calls that end: a memtable with room for all the records of a call takes them, and nothing
has to wait for a flush. -/

namespace CachyDb

open ByteString Router Transition

theorem MemTable.size_insert_le {Key Value : Type} [LinearOrder Key] (memtable : MemTable Key Value)
    (key : Key) (value : Value) : (memtable.insert key value).size ≤ memtable.size + 1 := by
  rw [MemTable.size_eq, MemTable.size_eq, MemTable.entries_insert,
    SortedEntries.length_insertEntry memtable.entries_sorted]
  split <;> omega

namespace Site

theorem foldl_enter_size (entries : List Entry) (s : Site) :
    (entries.foldl Site.enter s).table.active.size ≤ s.table.active.size + entries.length := by
  induction entries generalizing s with
  | nil => simp
  | cons e entries ih =>
      have one : (s.enter e).table.active.size ≤ s.table.active.size + 1 :=
        s.table.active.size_insert_le e.key e.packed
      have rest := ih (s.enter e)
      rw [List.foldl_cons, List.length_cons]
      omega

/-- The records that a step brings into the active memtable. -/
def Act.incoming : Act → Nat
  | .enter entries _ => entries.length
  | _ => 0

theorem act_size (s : Site) (act : Act) :
    (s.act act).table.active.size ≤ s.table.active.size + act.incoming := by
  cases act with
  | stay => exact Nat.le_refl _
  | enter entries txIds => exact foldl_enter_size entries s
  | load h => exact Nat.le_refl _
  | swap => exact Nat.zero_le _
  | advance i task =>
      show (s.advance i task).table.active.size ≤ s.table.active.size
      unfold advance
      split <;> exact Nat.le_refl _
  | raise i task => exact Nat.le_refl _

end Site

namespace Router

/-- A `set_many` asks for a flush when the memtable is full behind it. -/
theorem setManyLocked_full {r : Router} {name : String} {records : List (String × Value)}
    {packedRecords : List (String × Bytes)} {txIds : List Nat}
    (full : (r.setManyLocked name records packedRecords txIds).1 = .ok true) :
    (r.setManyLocked name records packedRecords txIds).2.maxMemtableSize ≤
      ((r.setManyLocked name records packedRecords txIds).2.table name).active.size := by
  unfold setManyLocked at *
  cases inserted : (r.getTableState name).2.insertRecords name records packedRecords with
  | mk outcome r' =>
      rw [inserted] at full
      cases outcome with
      | error e => cases full
      | ok done =>
          have large : r'.maxMemtableSize ≤ (r'.table name).active.size := by
            simpa [table] using full
          rw [table_putTable_self]
          show (r'.getTableState name).2.maxMemtableSize ≤ (r'.table name).active.size
          rw [(r'.getTableState_wal name).2.2]
          exact large

end Router

namespace Store

/-- No memtable gets full by so many more records. -/
def Roomy (s : Store) (count : Nat) : Prop :=
  ∀ name, (s.site name).table.active.size + count < s.router.maxMemtableSize

section

variable {json : Json} {codec : Codec} {decoder : Decoder} {tableFiles : String → File}
  {s t : Store} {e : Event} {name key : String} {value : Value} {count more : Nat}
  {records : List (String × Value)}

theorem afterWrite_idle {result : Except RouterError Bool} (room : result ≠ .ok true) :
    afterWrite name result = .idle := by
  unfold afterWrite
  split
  · exact absurd rfl room
  · rfl

theorem Roomy.acts (roomy : s.Roomy (more + count)) (acts : Acts json s e t)
    (incoming : ∀ name, (s.actOn json name e).incoming ≤ more) : t.Roomy count := by
  intro name
  have before := roomy name
  have grown := (s.site name).act_size (s.actOn json name e)
  have bound := incoming name
  rw [acts.site, acts.limit]
  omega

theorem Roomy.alike (roomy : s.Roomy count) (alike : Alike s t) : t.Roomy count := by
  intro name
  rw [alike.site, alike.limit]
  exact roomy name

/-- A record that can be packed is written. -/
theorem Steady.setsInternal_ends (steady : s.Steady json tableFiles)
    (stocked : ∀ name, Stocked json (tableFiles name)) (roomy : s.Roomy (1 + count))
    (named : ¬ (name = "" ∨ key = "")) (faithful : json.Faithful value)
    (packed : packs json (key, value) = true) :
    ∃ t, SetsInternal json s name key value (.ok ()) t ∧ t.Steady json tableFiles ∧
      t.Roomy count := by
  obtain ⟨payload, packs⟩ := packs_iff.mp packed
  obtain ⟨r, locked, _⟩ := setLocked_spec steady.calm.sound.cache name
    ⟨s.router.wal.globalTxId, key, value, payload⟩ rfl
  dsimp only at locked
  have small : ¬ ((s.router.table name).insert key payload).active.size ≥
      s.router.maxMemtableSize := by
    have before : (s.router.table name).active.size + (1 + count) < s.router.maxMemtableSize :=
      roomy name
    have grown := (s.router.table name).active.size_insert_le key payload
    show ¬ ((s.router.table name).active.insert key payload).size ≥ _
    omega
  rw [decide_eq_false small] at locked
  obtain ⟨t, performed, idle⟩ : ∃ t, s.perform json (.set 0 name key value) = some t ∧
      t.clients 0 = .idle := by
    refine ⟨({ s with router := r }.putShelf name ((s.shelves name).enter
      ⟨s.router.wal.globalTxId, key, value, payload⟩)).putClient 0 .idle, ?_, ?_⟩
    · simp only [perform, set, steady.idle 0, packs, if_neg named, locked]
      rfl
    · simp [putClient]
  have sets := steady.calm.setsInternal_ends faithful performed idle
  have acts := steady.calm.sound.acts (steady.calm.setStep faithful performed).1
  refine ⟨t, sets, steady.passes stocked (steady.calm.setsInternal_passes sets)
    (steady.calm.setsInternal sets).1, roomy.acts acts fun other => ?_⟩
  simp only [actOn, packs]
  split <;> simp [Site.Act.incoming]

theorem Steady.setsEach_ends (steady : s.Steady json tableFiles)
    (stocked : ∀ name, Stocked json (tableFiles name)) (roomy : s.Roomy (records.length + count))
    (named : name ≠ "") (keyed : ∀ record ∈ records, record.1 ≠ "")
    (faithful : ∀ record ∈ records, json.Faithful record.2)
    (packed : ∀ record ∈ records, packs json record = true) :
    ∃ t, SetsEach json name s records (.ok ()) t ∧ t.Steady json tableFiles ∧ t.Roomy count := by
  induction records generalizing s with
  | nil => exact ⟨s, .nil s, steady, by simpa using roomy⟩
  | cons record records ih =>
      rw [List.forall_mem_cons] at keyed faithful packed
      have room : s.Roomy (1 + (records.length + count)) := by
        intro other
        have before := roomy other
        rw [List.length_cons] at before
        omega
      obtain ⟨t, sets, steady', roomy'⟩ := steady.setsInternal_ends stocked room
        (not_or.mpr ⟨named, keyed.1⟩) faithful.1 packed.1
      obtain ⟨u, later, steady'', roomy''⟩ := ih steady' roomy' keyed.2 faithful.2 packed.2
      exact ⟨u, .next sets later, steady'', roomy''⟩

theorem Roomy.lookedUp (roomy : s.Roomy count) (calm : s.Calm json tableFiles) (name key : String) :
    (s.lookedUp json name key).Roomy count := by
  have acts := calm.sound.acts (calm.locked name key).1
  have quiet : ∀ other entries txIds, s.actOn json other (.getLocked name key) ≠ .enter entries txIds :=
    actOn_quiet (fun _ _ _ _ same => by cases same) (fun _ same => by cases same)
  have room : s.Roomy (0 + count) := by simpa using roomy
  refine (room.acts acts fun other => ?_).alike (lookedUp_alike calm.sound.cache name key).1
  cases acted : s.actOn json other (.getLocked name key) with
  | enter entries txIds => exact absurd acted (quiet other entries txIds)
  | _ => exact Nat.le_refl _

theorem Steady.lookedUp (steady : s.Steady json tableFiles)
    (stocked : ∀ name, Stocked json (tableFiles name)) (name key : String) :
    (s.lookedUp json name key).Steady json tableFiles :=
  steady.passes stocked (lookedUp_passes s name key) (steady.calm.lookedUp name key).1

/-- A clean-up ends whose tombstones can be packed. -/
theorem Steady.cleans_ends (steady : s.Steady json tableFiles)
    (stocked : ∀ name, Stocked json (tableFiles name)) (named : name ≠ "")
    (roomy : s.Roomy (chunkCount (s.value json tableFiles name key) + count))
    (packed : ∀ record ∈ tombstones key (chunkCount (s.value json tableFiles name key)),
      packs json record = true) :
    ∃ t, Cleans json s name key t ∧ t.Steady json tableFiles ∧ t.Roomy count := by
  have old := steady.oldValue stocked name key
  have steady' := steady.lookedUp stocked name key
  have roomy' := roomy.lookedUp steady.calm name key
  cases counted : overflowChunks (s.value json tableFiles name key) with
  | none =>
      refine ⟨_, .absent ⟨[], Run.nil s⟩ (old ▸ counted), steady', ?_⟩
      rw [chunkCount, counted] at roomy'
      simpa using roomy'
  | some chunks =>
      rw [chunkCount, counted] at roomy' packed
      have room : (s.lookedUp json name key).Roomy ((tombstones key chunks).length + count) := by
        simpa [tombstones] using roomy'
      obtain ⟨t, sets, done⟩ := steady'.setsEach_ends stocked room named (tombstones_keyed key chunks)
        (by
          intro record member
          obtain ⟨i, _, rfl⟩ := List.mem_map.mp member
          exact json.faithful_null)
        packed
      exact ⟨t, .cleaned ⟨[], Run.nil s⟩ (old ▸ counted) sets, done⟩

/-- A large value whose chunks and manifest can be packed is written in chunks. -/
theorem Steady.setsLarge_ends (steady : s.Steady json tableFiles)
    (stocked : ∀ name, Stocked json (tableFiles name)) (named : ¬ (name = "" ∨ key = ""))
    {text : Bytes} (large : largeText json key value = some text)
    (roomy : s.Roomy (chunkCount (s.value json tableFiles name key) +
      ((largeRecords codec key text).length + count)))
    (faithful : ∀ record ∈ largeRecords codec key text, json.Faithful record.2)
    (packed : ∀ record ∈ largeRecords codec key text, packs json record = true)
    (cleared : ∀ record ∈ tombstones key (chunkCount (s.value json tableFiles name key)),
      packs json record = true) :
    ∃ t, Sets json codec s name key value (.ok ()) t ∧ t.Steady json tableFiles ∧ t.Roomy count ∧
      t.Chunked codec name key text := by
  have first := (not_or.mp named).1
  rw [largeRecords, List.forall_mem_append] at faithful packed
  obtain ⟨s₁, cleans, steady₁, roomy₁⟩ := steady.cleans_ends stocked first roomy cleared
  have room₁ : s₁.Roomy ((chunkRecords codec key (cutChunks (codec.compress text))).length +
      (1 + count)) := by
    simpa [largeRecords, Nat.add_assoc] using roomy₁
  obtain ⟨s₂, chunked, steady₂, roomy₂⟩ := steady₁.setsEach_ends stocked room₁ first
    (chunkRecords_keyed codec key _) faithful.1 packed.1
  obtain ⟨s₃, listed, steady₃, roomy₃⟩ := steady₂.setsInternal_ends stocked roomy₂ named
    (faithful.2 _ List.mem_cons_self) (packed.2 _ List.mem_cons_self)
  have writes : WritesLarge json codec s₁ name key value text _ _ :=
    .written chunked listed ⟨[], Run.nil s₃⟩
  obtain ⟨stored, alike⟩ := recalled_alike steady₃.calm.sound.cache name key value
  rw [stored] at writes
  have sets := Sets.large named large cleans writes
  have chunks := (steady₁.calm.writesLarge (largeText_plain large) writes).2.2 rfl
  exact ⟨_, sets, steady.sets stocked sets, roomy₃.alike alike, chunks.1⟩

/-- So is a small one. -/
theorem Steady.setsSmall_ends (steady : s.Steady json tableFiles)
    (stocked : ∀ name, Stocked json (tableFiles name)) (named : ¬ (name = "" ∨ key = ""))
    (plain : isChunkKey key = false) (small : largeText json key value = none)
    (roomy : s.Roomy (chunkCount (s.value json tableFiles name key) + (1 + count)))
    (faithful : json.Faithful value) (packed : packs json (key, value) = true)
    (cleared : ∀ record ∈ tombstones key (chunkCount (s.value json tableFiles name key)),
      packs json record = true) :
    ∃ t, Sets json codec s name key value (.ok ()) t ∧ t.Steady json tableFiles ∧ t.Roomy count := by
  obtain ⟨s₁, cleans, steady₁, roomy₁⟩ := steady.cleans_ends stocked (not_or.mp named).1 roomy cleared
  obtain ⟨t, last, steady', roomy'⟩ := steady₁.setsInternal_ends stocked roomy₁ named faithful packed
  exact ⟨t, .small named small plain cleans last, steady', roomy'⟩

/-- What a `set_many` packs, it writes, if all keys are there. -/
theorem Steady.setsMany_ends (steady : s.Steady json tableFiles)
    (stocked : ∀ name, Stocked json (tableFiles name)) (nonempty : ¬ (name = "" ∨ records = []))
    (distinct : (records.map Prod.fst).Nodup) (roomy : s.Roomy (records.length + count))
    (keyed : ∀ record ∈ records, record.1 ≠ "")
    (faithful : ∀ record ∈ records, json.Faithful record.2)
    (packed : ∀ record ∈ records, packs json record = true) :
    ∃ t, SetsMany json s name records (.ok ()) t ∧ t.Steady json tableFiles ∧ t.Roomy count := by
  obtain ⟨packedRecords, packs⟩ := packRecords_ok_iff.mpr fun record member =>
    packs_iff.mp (packed record member)
  let appended : Store := { s with router := { s.router with
    wal := (s.router.wal.appendManyToBuffer (packedRecords.map Prod.snd)).2 } }.putClient 0
      (.logged name records packedRecords
        (s.router.wal.appendManyToBuffer (packedRecords.map Prod.snd)).1)
  have logged : appended.clients 0 = .logged name records packedRecords
      (s.router.wal.appendManyToBuffer (packedRecords.map Prod.snd)).1 := by
    simp [appended, putClient]
  have append : s.perform json (.append 0 name records) = some appended := by
    simp only [perform, Store.append, steady.idle 0, packs, if_neg nonempty]
    rfl
  have appends := steady.calm.quietly (show Event.Alone json (.append 0 name records) from
    ⟨rfl, faithful⟩) (fun _ _ same => by cases same) (fun _ same => by cases same) append
  have calm₁ := steady.calm.step appends
  obtain ⟨t, insert, router, client⟩ : ∃ t, appended.perform json (.insertMany 0) = some t ∧
      t.router = (appended.router.setManyLocked name records packedRecords
        (s.router.wal.appendManyToBuffer (packedRecords.map Prod.snd)).1).2 ∧
      t.clients 0 = afterWrite name (appended.router.setManyLocked name records packedRecords
        (s.router.wal.appendManyToBuffer (packedRecords.map Prod.snd)).1).1 := by
    refine ⟨_, by simp only [perform, insertMany, logged]; rfl, rfl, ?_⟩
    simp [putClient]
  have inserts := calm₁.quietly (show Event.Alone json (.insertMany 0) from trivial)
    (fun _ _ same => by cases same) (fun _ same => by cases same) insert
  have acts := calm₁.sound.acts inserts.1
  have incoming (other : String) : (appended.actOn json other (.insertMany 0)).incoming ≤
      records.length := by
    simp only [actOn, logged]
    split
    · rw [Site.Act.incoming, entriesOf]
      refine (List.takeWhile_sublist _).length_le.trans ?_
      simp
    · exact Nat.zero_le _
  have room : s.Roomy (0 + (records.length + count)) := by simpa using roomy
  have roomy₁ : appended.Roomy (records.length + count) :=
    room.acts (steady.calm.sound.acts appends.1) fun _ => Nat.le_refl _
  have roomy' := roomy₁.acts acts incoming
  have idle : t.clients 0 = .idle := by
    rw [client]
    apply afterWrite_idle
    intro full
    have large := setManyLocked_full full
    have room : (t.router.table name).active.size + count < t.router.maxMemtableSize := roomy' name
    rw [router] at room
    omega
  have sets := steady.calm.setsMany_ends faithful keyed append insert idle
  obtain ⟨calm', passes, _⟩ := steady.calm.setsMany distinct sets
  exact ⟨t, sets, steady.passes stocked passes calm', roomy'⟩

end

theorem fresh_steady (json : Json) {maxMemtableSize cacheCapacity : Nat} (limit : 0 < maxMemtableSize)
    (room : 0 < cacheCapacity) :
    (fresh maxMemtableSize cacheCapacity).Steady json fun _ => File.empty :=
  start_steady _ (fun _ => empty_stocked json) limit room

theorem fresh_reachable (json : Json) {maxMemtableSize cacheCapacity : Nat}
    (limit : 0 < maxMemtableSize) (room : 0 < cacheCapacity) :
    (fresh maxMemtableSize cacheCapacity).Reachable json fun _ => File.empty :=
  .start _ limit room

theorem fresh_value (json : Json) (maxMemtableSize cacheCapacity : Nat) (name key : String) :
    (fresh maxMemtableSize cacheCapacity).value json (fun _ => File.empty) name key = .null := by
  rw [value_stored firstIndex_empty]
  rfl

set_option maxRecDepth 100000 in
theorem long_large : largeText manifestJson "k" longValue = some longText := by decide +kernel

theorem long_records : largeRecords longCodec "k" longText =
    [(chunkKey "k" 0, .str longEncoded), ("k", manifest 1 2003)] := by
  have cut : cutChunks (longCodec.compress longText) = [longCompressed] := by decide +kernel
  have size : longText.length = 2003 := by decide +kernel
  have encoded : longCodec.b64encode longCompressed = longEncoded := by decide +kernel
  rw [largeRecords, cut, size, ← encoded]
  rfl

theorem long_faithful :
    ∀ record ∈ largeRecords longCodec "k" longText, manifestJson.Faithful record.2 := by
  rw [long_records]
  simp [manifestJson_string, manifestJson_faithful]

theorem packs_of_short {json : Json} {key : String} {value : Value}
    (short : (encodeKey key).length ≤ maxKeyBytes) (faithful : json.Faithful value) :
    packs json (key, value) = true :=
  packs_iff.mpr ((Database.packRecord_ok_iff faithful).mpr short)

theorem long_packed : ∀ record ∈ largeRecords longCodec "k" longText,
    packs manifestJson record = true := by
  intro record member
  refine packs_of_short ?_ (long_faithful record member)
  rw [long_records] at member
  rcases List.mem_cons.mp member with rfl | member
  · decide
  · rw [List.mem_singleton.mp member]
    decide

/-- The large value, written on an empty router. -/
theorem sets_long : ∃ s, Sets manifestJson longCodec (fresh 100 10) "t" "k" longValue (.ok ()) s ∧
    s.Steady manifestJson (fun _ => File.empty) ∧ s.Roomy 90 ∧
    s.Chunked longCodec "t" "k" longText := by
  have steady := fresh_steady manifestJson (show 0 < 100 by decide) (show 0 < 10 by decide)
  have unset := fresh_value manifestJson 100 10 "t" "k"
  have roomy : (fresh 100 10).Roomy (chunkCount ((fresh 100 10).value manifestJson
      (fun _ => File.empty) "t" "k") + ((largeRecords longCodec "k" longText).length + 90)) := by
    rw [unset, long_records]
    intro name
    show 0 + (0 + (2 + 90)) < 100
    decide
  obtain ⟨s, sets, done⟩ := steady.setsLarge_ends (fun _ => empty_stocked _) (by decide)
    long_large roomy long_faithful long_packed (by
      rw [unset]
      intro record member
      cases member)
  exact ⟨s, sets, done⟩

end Store

end CachyDb
