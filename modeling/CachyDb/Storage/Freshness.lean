import CachyDb.Storage.Dictionary
import CachyDb.Storage.Threads

set_option autoImplicit false

/-! The cache beside threads that use one key: when no call is in progress, the cached value is
the one that the tables hold, as long as no call that another thread's write has overtaken still
puts a value into the cache. -/

namespace CachyDb

open ByteString Router Transition

namespace Dictionary

section

variable {json : Json} {decoder : Decoder} {d : Dictionary} {name key : String}

/-- The value that the chunks of the key make up. -/
def Rebuilt (json : Json) (decoder : Decoder) (d : Dictionary) (name key : String) (held : Value) :
    Prop :=
  flagged overflowFlag (d name key) = true ∧ flagged overflowFlag held = false ∧
    held = d.read json decoder name key

theorem write_nil : d.write name [] = d := by
  funext other otherKey
  simp [write]

theorem write_cons (record : String × Value) (records : List (String × Value)) :
    (d.write name [record]).write name records = d.write name (record :: records) := by
  funext other otherKey
  unfold write
  split
  · simp only [lastOf, Option.none_or]
    cases lastOf records otherKey with
    | some value => rfl
    | none => rfl
  · rfl

@[simp] theorem write_self (record : String × Value) :
    d.write name [record] name record.1 = record.2 := by
  simp [write, lastOf]

theorem write_ne {other : String} (record : String × Value) (different : record.1 ≠ other) :
    d.write name [record] name other = d name other := by
  simp [write, lastOf, different]

end

end Dictionary

namespace Program

open Dictionary

/-! ### What a call can do -/

/-- The next step writes. -/
def atWrite : Program → Bool
  | .setInternal _ _ _ => true
  | .flushing next => atWrite (next (.ok ()))
  | _ => false

/-- The next step puts a value into the cache, without the lock. -/
def atPut : Program → Bool
  | .putCache _ _ => true
  | .flushing next => atPut (next (.ok ()))
  | _ => false

section

variable (json : Json) (decoder : Decoder) (name key : String)

/-- While nobody else writes, the values that the call puts into the cache are those that the
chunks make up. -/
def Fine : Program → Dictionary → Prop
  | .ret _, _ => True
  | .rawManifest next, d => Fine (next (d name key)) d
  | .setInternal other value next, d =>
      Fine (next (.ok ())) (d.write name [(other, value)]) ∧ ∀ e, Fine (next (.error e)) d
  | .flushing next, d => Fine (next (.ok ())) d
  | .getCached other next, d =>
      (∀ held, held = d name other ∨ (other = key ∧ Rebuilt json decoder d name key held) →
        Fine (next (.ok (some held))) d) ∧ Fine (next (.ok none)) d
  | .getLocked other next, d => Fine (next (.ok (d name other))) d
  | .putCache value next, d => Rebuilt json decoder d name key value ∧ ∀ r, Fine (next r) d

/-- While nobody writes, the call will put a value into the cache. -/
def WillPut : Program → Dictionary → Prop
  | .flushing next, d => WillPut (next (.ok ())) d
  | .getCached other next, d =>
      other ≠ key ∧ WillPut (next (.ok (some (d name other)))) d ∧ WillPut (next (.ok none)) d
  | .getLocked other next, d => WillPut (next (.ok (d name other))) d
  | .putCache _ _, _ => True
  | _, _ => False

/-- What a call writes, and when: chunks, with a write to follow, and then under the key a value
that is no manifest, or a manifest with the value for the cache to follow. Who has looked the
manifest up will put together what can be. -/
def Shaped : Program → Prop
  | .ret _ => True
  | .rawManifest next => ∀ old, Shaped (next old)
  | .setInternal other value next =>
      ¬ (name = "" ∨ other = "") ∧ (∀ r, Shaped (next r)) ∧
        ((other = key ∧ (flagged overflowFlag value = false ∨ (next (.ok ())).atPut = true)) ∨
          ∃ i, other = chunkKey key i ∧ ∀ r, (next r).atWrite = true)
  | .flushing next => ∀ r, Shaped (next r)
  | .getCached other next =>
      (other = key ∨ ∃ i, other = chunkKey key i) ∧ ∀ r, Shaped (next r)
  | .getLocked other next =>
      (∀ r, Shaped (next r)) ∧ (other = key → ∀ d : Dictionary,
        flagged overflowFlag (d name key) = true → d.read json decoder name key ≠ .null →
          WillPut name key (next (.ok (d name key))) d)
  | .putCache _ next => ∀ r, Shaped (next r)

end

section

variable {json : Json} {codec : Codec} {decoder : Decoder} {d : Dictionary}
  {name key other : String} {value found : Value} {text : Bytes}

/-! ### Reads -/

theorem fine_getInternal {next : Except RouterError Value → Program}
    (each : ∀ held, held = d name other ∨ (other = key ∧ Rebuilt json decoder d name key held) →
      Fine json decoder name key (next (.ok held)) d) :
    Fine json decoder name key (getInternal other next) d :=
  ⟨each, each _ (Or.inl rfl)⟩

theorem shaped_getInternal {next : Except RouterError Value → Program}
    (own : other = key ∨ ∃ i, other = chunkKey key i)
    (each : ∀ r, Shaped json decoder name key (next r))
    (puts : other = key → ∀ d : Dictionary, flagged overflowFlag (d name key) = true →
      d.read json decoder name key ≠ .null → WillPut name key (next (.ok (d name key))) d) :
    Shaped json decoder name key (getInternal other next) := by
  refine ⟨own, fun r => ?_⟩
  match r with
  | .error e => exact each (.error e)
  | .ok (some held) => exact each (.ok held)
  | .ok none => exact ⟨each, puts⟩

/-- The loop goes through the chunks that the dictionary has. -/
theorem fine_collect {next : List Bytes → Program} {indices : List Nat} {chunks : List Bytes}
    (each : ∀ rest,
      (indices.mapM fun i => decodeChunk decoder (d name (chunkKey key i))) = some rest →
      Fine json decoder name key (next (chunks ++ rest)) d) :
    Fine json decoder name key (collect decoder key next indices chunks) d := by
  induction indices generalizing chunks with
  | nil =>
      have last := each [] rfl
      rwa [List.append_nil] at last
  | cons i rest ih =>
      refine fine_getInternal fun held found => ?_
      have same : held = d name (chunkKey key i) := by
        rcases found with same | ⟨own, _⟩
        · exact same
        · exact absurd own (Store.ne_chunkKey_self key i)
      subst same
      dsimp only
      cases decoded : decodeChunk decoder (d name (chunkKey key i)) with
      | none => trivial
      | some chunk =>
          refine ih fun later collected => ?_
          rw [List.append_assoc]
          apply each
          simp [List.mapM_cons, decoded, collected]

theorem willPut_collect {next : List Bytes → Program} {indices : List Nat}
    {chunks rest : List Bytes}
    (collected : (indices.mapM fun i => decodeChunk decoder (d name (chunkKey key i))) = some rest)
    (last : WillPut name key (next (chunks ++ rest)) d) :
    WillPut name key (collect decoder key next indices chunks) d := by
  induction indices generalizing chunks rest with
  | nil =>
      cases collected
      show WillPut name key (next chunks) d
      simpa using last
  | cons i indices ih =>
      rw [List.mapM_cons] at collected
      obtain ⟨chunk, decoded, collected⟩ := Option.bind_eq_some_iff.mp collected
      obtain ⟨later, others, same⟩ := Option.bind_eq_some_iff.mp collected
      cases same
      have goes : WillPut name key (collect decoder key next indices (chunks ++ [chunk])) d :=
        ih others (by simpa using last)
      refine ⟨Store.ne_chunkKey_self key i, ?_, ?_⟩
      · dsimp only
        rw [decoded]
        exact goes
      · rw [WillPut]
        dsimp only
        rw [decoded]
        exact goes

theorem shaped_collect {next : List Bytes → Program} {indices : List Nat} {chunks : List Bytes}
    (each : ∀ chunks, Shaped json decoder name key (next chunks)) :
    Shaped json decoder name key (collect decoder key next indices chunks) := by
  induction indices generalizing chunks with
  | nil => exact each chunks
  | cons i rest ih =>
      refine shaped_getInternal (Or.inr ⟨i, rfl⟩) (fun r => ?_)
        fun own => absurd own (Store.ne_chunkKey_self key i)
      cases r with
      | error e => trivial
      | ok held =>
          dsimp only
          cases decodeChunk decoder held with
          | none => trivial
          | some chunk => exact ih

theorem read_flagged (flag : flagged overflowFlag (d name key) = true) {count : Nat}
    (counted : overflowChunks (d name key) = some count) :
    d.read json decoder name key = Store.joined json decoder (d name key)
      ((List.range count).mapM fun i => decodeChunk decoder (d name (chunkKey key i))) := by
  rw [Dictionary.read, Store.reading, if_pos flag, counted]

theorem fine_rebuild (clear : Clear json decoder d (.get name key))
    (held : Held json decoder d name key found) :
    Fine json decoder name key (rebuild json decoder key found) d := by
  unfold rebuild
  split
  · rename_i flag
    obtain rfl := held.flagged flag
    split
    · trivial
    · rename_i count counted
      refine fine_collect fun chunks collected => ?_
      rw [List.nil_append]
      unfold finish
      split
      · trivial
      · rename_i original assembled
        have reads : original = d.read json decoder name key := by
          rw [read_flagged flag counted, collected, Store.joined, Option.bind_some, assembled]
          rfl
        refine ⟨⟨flag, reads ▸ clear flag, reads⟩, fun r => ?_⟩
        cases r <;> trivial
  · trivial

theorem willPut_rebuild (flag : flagged overflowFlag (d name key) = true)
    (reads : d.read json decoder name key ≠ .null) :
    WillPut name key (rebuild json decoder key (d name key)) d := by
  rw [rebuild, if_pos flag]
  cases counted : overflowChunks (d name key) with
  | none =>
      rw [Dictionary.read, Store.reading, if_pos flag, counted] at reads
      exact absurd rfl reads
  | some count =>
      rw [read_flagged flag counted, Store.joined] at reads
      dsimp only
      cases collected :
          (List.range count).mapM fun i => decodeChunk decoder (d name (chunkKey key i)) with
      | none =>
          rw [collected] at reads
          exact absurd rfl reads
      | some chunks =>
          rw [collected, Option.bind_some] at reads
          refine willPut_collect collected ?_
          rw [List.nil_append, finish]
          cases assembled : assemble json decoder (d name key) chunks with
          | none =>
              rw [assembled] at reads
              exact absurd rfl reads
          | some original => trivial

theorem shaped_rebuild : Shaped json decoder name key (rebuild json decoder key found) := by
  unfold rebuild
  split
  · split
    · trivial
    · refine shaped_collect fun chunks => ?_
      unfold finish
      split
      · trivial
      · intro r
        cases r <;> trivial
  · trivial

theorem fine_get (clear : Clear json decoder d (.get name key)) :
    Fine json decoder name key (get json decoder name key) d := by
  unfold get
  split
  · trivial
  · exact fine_getInternal fun held found => fine_rebuild clear (found.imp_right And.right)

theorem shaped_get : Shaped json decoder name key (get json decoder name key) := by
  unfold get
  split
  · trivial
  · refine shaped_getInternal (Or.inl rfl) (fun r => ?_) fun _ d flag reads =>
      willPut_rebuild flag reads
    cases r with
    | error e => trivial
    | ok held => exact shaped_rebuild

/-! ### Writes -/

theorem fine_writeEach {next : Except RouterError Unit → Program}
    {records : List (String × Value)}
    (written : Fine json decoder name key (next (.ok ())) (d.write name records))
    (raised : ∀ e d, Fine json decoder name key (next (.error e)) d) :
    Fine json decoder name key (writeEach next records) d := by
  induction records generalizing d with
  | nil =>
      rw [write_nil] at written
      exact written
  | cons record records ih =>
      refine ⟨ih ?_, fun e => raised e d⟩
      rw [write_cons]
      exact written

theorem fine_cleanUp {next : Program} (each : ∀ d, Fine json decoder name key next d) :
    Fine json decoder name key (cleanUp key next) d := by
  unfold cleanUp Fine
  dsimp only
  split
  · exact each d
  · exact fine_writeEach (each _) fun _ => each

theorem fine_writeLarge (inverts : decoder.Inverts codec) (loads : json.loads text = some value)
    (unflagged : flagged overflowFlag value = false) {next : Except RouterError Unit → Program}
    (each : ∀ r d, Fine json decoder name key (next r) d) :
    Fine json decoder name key (writeLarge codec key value text next) d := by
  refine fine_writeEach ⟨⟨?_, fun r => each r _⟩, fun e => each _ _⟩ fun e => each (.error e)
  generalize listed :
    (d.write name (chunkRecords codec key (cutChunks (codec.compress text)))).write
    name [(key, manifest (cutChunks (codec.compress text)).length text.length)] = d'
  have here : d' name key = manifest (cutChunks (codec.compress text)).length text.length := by
    rw [← listed]
    exact write_self (key, _)
  have chunks : ∀ (i : Nat) (chunk : Bytes), (cutChunks (codec.compress text))[i]? = some chunk →
      d' name (chunkKey key i) = .str (codec.b64encode chunk) := by
    intro i chunk there
    rw [← listed, write_ne _ (Store.ne_chunkKey_self key i).symm, write, if_pos rfl,
      lastOf_chunkRecords, there]
    rfl
  refine ⟨by rw [here]; exact (flagged_manifest _ _).1, unflagged, ?_⟩
  rw [Dictionary.read, here]
  exact (Store.reading_whole inverts chunks loads).symm

theorem fine_done (r : Except RouterError Unit) : Fine json decoder name key (done r) d := trivial

theorem fine_set (inverts : decoder.Inverts codec) (faithful : json.Faithful value)
    (unflagged : flagged overflowFlag value = false) :
    Fine json decoder name key (set json codec name key value) d := by
  have direct (d : Dictionary) : Fine json decoder name key (.setInternal key value done) d :=
    ⟨fine_done _, fun _ => fine_done _⟩
  unfold set
  split
  · trivial
  · split
    · rename_i text large
      obtain ⟨text', dumped, loads⟩ := faithful
      rw [largeText_dumps large, Option.some.injEq] at dumped
      refine fine_cleanUp fun d => fine_writeLarge inverts (dumped ▸ loads) unflagged fun r d => ?_
      cases r with
      | error e => exact direct d
      | ok _ => exact fine_done _
    · split
      · exact direct d
      · exact fine_cleanUp direct

theorem shaped_writeEach {next : Except RouterError Unit → Program}
    {records : List (String × Value)} (named : name ≠ "")
    (chunks : ∀ record ∈ records, ∃ i, record.1 = chunkKey key i)
    (each : ∀ r, Shaped json decoder name key (next r) ∧ (next r).atWrite = true) :
    Shaped json decoder name key (writeEach next records) ∧
      (writeEach next records).atWrite = true := by
  induction records with
  | nil => exact each (.ok ())
  | cons record records ih =>
      obtain ⟨i, own⟩ := chunks record List.mem_cons_self
      obtain ⟨shaped, writes⟩ := ih fun record member =>
        chunks record (List.mem_cons_of_mem _ member)
      refine ⟨⟨?_, fun r => ?_, Or.inr ⟨i, own, fun r => ?_⟩⟩, rfl⟩
      · rw [own]
        exact not_or.mpr ⟨named, chunkKey_ne_empty key i⟩
      · cases r with
        | error e => exact (each (.error e)).1
        | ok _ => exact shaped
      · cases r with
        | error e => exact (each (.error e)).2
        | ok _ => exact writes

theorem shaped_cleanUp {next : Program} (named : name ≠ "")
    (shaped : Shaped json decoder name key next) (writes : next.atWrite = true) :
    Shaped json decoder name key (cleanUp key next) := by
  intro old
  dsimp only
  split
  · exact shaped
  · refine (shaped_writeEach named ?_ fun _ => ⟨shaped, writes⟩).1
    intro record member
    obtain ⟨i, _, rfl⟩ := List.mem_map.mp member
    exact ⟨i, rfl⟩

theorem shaped_writeLarge (named : ¬ (name = "" ∨ key = ""))
    {next : Except RouterError Unit → Program} (each : ∀ r, Shaped json decoder name key (next r))
    (raised : ∀ e, (next (.error e)).atWrite = true) :
    Shaped json decoder name key (writeLarge codec key value text next) ∧
      (writeLarge codec key value text next).atWrite = true := by
  refine shaped_writeEach (not_or.mp named).1 ?_ fun r => ?_
  · intro record member
    obtain ⟨i, _, rfl⟩ := List.mem_mapIdx.mp member
    exact ⟨i, rfl⟩
  · cases r with
    | error e => exact ⟨each _, raised e⟩
    | ok _ =>
        refine ⟨⟨named, fun r => ?_, Or.inl ⟨rfl, Or.inr rfl⟩⟩, rfl⟩
        cases r with
        | error e => exact each _
        | ok _ => exact each

theorem shaped_set (unflagged : flagged overflowFlag value = false) :
    Shaped json decoder name key (set json codec name key value) := by
  unfold set
  split
  · trivial
  · rename_i named
    have direct : Shaped json decoder name key (.setInternal key value done) :=
      ⟨named, fun _ => trivial, Or.inl ⟨rfl, Or.inl unflagged⟩⟩
    have first := (not_or.mp named).1
    split
    · rename_i text _
      have written := @shaped_writeLarge json codec decoder name key value text named
      refine shaped_cleanUp first (written (fun r => ?_) fun _ => rfl).1
        (written (fun r => ?_) fun _ => rfl).2
      all_goals
        cases r
        · exact direct
        · trivial
    · split
      · exact direct
      · exact shaped_cleanUp first direct rfl

end

end Program

namespace Threads

open Dictionary Program

/-! ### The threads together -/

/-- Values that JSON gives back and that have not the flag of a manifest; no swap finds the slot
taken, and no call puts a value into the cache without the lock once another thread has written,
or under a chunk key. -/
def Allowed (json : Json) (key : String) (m : Threads) : Move → Prop
  | .call _ .get => True
  | .call _ (.set value) => json.Faithful value ∧ flagged overflowFlag value = false
  | .run thread =>
      match m.programs thread with
      | .setInternal _ value _ => json.Faithful value
      | .flushing _ => m.store.Unblocked (.swap thread)
      | .putCache _ _ => m.disturbed thread = false ∧ isChunkKey key = false
      | _ => True
  | .store _ => True

/-- Such a move, after which no flush has failed. -/
def Step (json : Json) (codec : Codec) (decoder : Decoder) (name key : String) (m : Threads)
    (move : Move) (m' : Threads) : Prop :=
  m.perform json codec decoder name key move = some m' ∧ m.Allowed json key move ∧
    m'.store.Succeeding

/-- A call that is about to write a key that can be written, or that may not put its value. -/
def Busy (m : Threads) (key : String) (thread : Nat) : Prop :=
  ((encodeKey key).length ≤ maxKeyBytes ∧ (m.programs thread).atWrite = true) ∨
    (m.disturbed thread = true ∧ (m.programs thread).atPut = true)

/-- What may be cached for the key: what its chunks make up, or what the tables hold. A manifest
is not cached for good. -/
def Cachable (json : Json) (decoder : Decoder) (name key : String) (d : Dictionary)
    (programs : Nat → Program) (held : Value) : Prop :=
  Rebuilt json decoder d name key held ∨
    (held = d name key ∧ (flagged overflowFlag (d name key) = true →
      d.read json decoder name key ≠ .null → ∃ thread, WillPut name key (programs thread) d))

/-- What holds between the moves. The chunks are cached as they are; a call that nobody has
disturbed is fine unless another one is busy; and if no call is busy, so is what is cached. -/
structure Coherent (json : Json) (decoder : Decoder) (tableFiles : String → File)
    (name key : String) (m : Threads) : Prop where
  regular : m.store.Regular json tableFiles
  chunks : ∀ i held, m.store.cached name (chunkKey key i) = some held →
    held = m.store.value json tableFiles name (chunkKey key i)
  shaped : ∀ thread, (m.programs thread).Shaped json decoder name key
  fine : ∀ thread, m.disturbed thread = true ∨ (∃ other, other ≠ thread ∧ m.Busy key other) ∨
    (m.programs thread).Fine json decoder name key (m.store.value json tableFiles)
  clear : (∃ thread, m.Busy key thread) ∨
    Clear json decoder (m.store.value json tableFiles) (.get name key)
  cached : (∃ thread, m.Busy key thread) ∨ ∀ held, m.store.cached name key = some held →
    Cachable json decoder name key (m.store.value json tableFiles) m.programs held

section

variable {json : Json} {codec : Codec} {decoder : Decoder} {tableFiles : String → File}
  {name key other : String} {m m' : Threads} {t : Store} {thread : Nat} {p : Program}
  {value : Value}

theorem Cachable.moves {d : Dictionary} {programs : Nat → Program} {held : Value}
    (cachable : Cachable json decoder name key d programs held)
    (goes : WillPut name key (programs thread) d → WillPut name key p d) :
    Cachable json decoder name key d (Function.update programs thread p) held := by
  rcases cachable with rebuilt | ⟨same, later⟩
  · exact Or.inl rebuilt
  · refine Or.inr ⟨same, fun flag reads => ?_⟩
    obtain ⟨putting, willPut⟩ := later flag reads
    refine ⟨putting, ?_⟩
    by_cases own : putting = thread
    · subst own
      rw [Function.update_self]
      exact goes willPut
    · rw [Function.update_of_ne own]
      exact willPut

/-- A move of one thread that writes nothing. -/
theorem Coherent.resume (coherent : m.Coherent json decoder tableFiles name key)
    (programs : m'.programs = Function.update m.programs thread p)
    (disturbed : ∀ other, other ≠ thread → m'.disturbed other = m.disturbed other)
    (regular : m'.store.Regular json tableFiles)
    (newest : ∀ name key, m'.store.newest name key = m.store.newest name key)
    (chunks : ∀ i held, m'.store.cached name (chunkKey key i) = some held →
      held = m.store.value json tableFiles name (chunkKey key i))
    (shaped : p.Shaped json decoder name key) (busy : m.Busy key thread → m'.Busy key thread)
    (fine : m'.disturbed thread = true ∨ (∃ other, other ≠ thread ∧ m.Busy key other) ∨
      p.Fine json decoder name key (m.store.value json tableFiles))
    (cached : (¬ ∃ other, m.Busy key other) → ∀ held, m'.store.cached name key = some held →
      Cachable json decoder name key (m.store.value json tableFiles) m'.programs held) :
    m'.Coherent json decoder tableFiles name key := by
  have others {other : Nat} (different : other ≠ thread) :
      m'.programs other = m.programs other := by
    rw [programs, Function.update_of_ne different]
  have own : m'.programs thread = p := by rw [programs, Function.update_self]
  have still_busy {other : Nat} (before : m.Busy key other) : m'.Busy key other := by
    by_cases same : other = thread
    · subst same
      exact busy before
    · unfold Busy
      rw [others same, disturbed other same]
      exact before
  have value := @Store.value_congr json tableFiles m.store m'.store newest
  constructor
  · exact regular
  · rw [value]
    exact chunks
  · intro other
    by_cases same : other = thread
    · subst same
      rw [own]
      exact shaped
    · rw [others same]
      exact coherent.shaped other
  · intro other
    rw [value]
    by_cases same : other = thread
    · subst same
      rw [own]
      exact fine.imp_right (Or.imp_left fun ⟨another, different, before⟩ =>
        ⟨another, different, still_busy before⟩)
    · rw [others same, disturbed other same]
      exact (coherent.fine other).imp_right (Or.imp_left fun ⟨another, different, before⟩ =>
        ⟨another, different, still_busy before⟩)
  · rw [value]
    exact coherent.clear.imp_left fun ⟨other, before⟩ => ⟨other, still_busy before⟩
  · rw [value]
    by_cases before : ∃ other, m.Busy key other
    · obtain ⟨other, before⟩ := before
      exact Or.inl ⟨other, still_busy before⟩
    · exact Or.inr (cached before)

/-- One after which the cache has nothing new. -/
theorem Coherent.still (coherent : m.Coherent json decoder tableFiles name key)
    (regular : t.Regular json tableFiles) (still : Store.Still m.store t)
    (shaped : p.Shaped json decoder name key)
    (busy : m.Busy key thread →
      Busy ⟨t, Function.update m.programs thread p, m.disturbed⟩ key thread)
    (fine : m.disturbed thread = true ∨ (∃ other, other ≠ thread ∧ m.Busy key other) ∨
      p.Fine json decoder name key (m.store.value json tableFiles))
    (goes : WillPut name key (m.programs thread) (m.store.value json tableFiles) →
      WillPut name key p (m.store.value json tableFiles)) :
    Coherent json decoder tableFiles name key
      ⟨t, Function.update m.programs thread p, m.disturbed⟩ := by
  refine coherent.resume rfl (fun _ _ => rfl) regular still.newest (fun i held known => ?_) shaped
    busy fine fun idle held known => ?_
  · exact coherent.chunks i held (still.cached _ _ held known)
  · have before := coherent.cached.resolve_left idle held (still.cached _ _ held known)
    exact before.moves goes

/-! ### The moves -/

theorem Coherent.call (coherent : m.Coherent json decoder tableFiles name key)
    (inverts : decoder.Inverts codec) {result : Except RouterError Value}
    (here : m.programs thread = .ret result) {request : Request}
    (allowed : m.Allowed json key (.call thread request)) :
    Coherent json decoder tableFiles name key ⟨m.store,
      Function.update m.programs thread (program json codec decoder name key request),
      Function.update m.disturbed thread false⟩ := by
  have idle : ¬ m.Busy key thread := by
    simp [Busy, here, atWrite, atPut]
  have fine : (∃ other, other ≠ thread ∧ m.Busy key other) ∨
      (program json codec decoder name key request).Fine json decoder name key
        (m.store.value json tableFiles) := by
    rcases coherent.clear with ⟨other, busy⟩ | clear
    · exact Or.inl ⟨other, fun same => idle (same ▸ busy), busy⟩
    · right
      cases request with
      | get => exact fine_get clear
      | set value => exact fine_set inverts allowed.1 allowed.2
  refine coherent.resume rfl (fun other different => Function.update_of_ne different _ _)
    coherent.regular (fun _ _ => rfl) coherent.chunks ?_ (fun busy => absurd busy idle)
    (Or.inr fine) fun quiet held known => ?_
  · cases request with
    | get => exact shaped_get
    | set value => exact shaped_set allowed.2
  · refine (coherent.cached.resolve_left quiet held known).moves fun goes => ?_
    rw [here] at goes
    exact goes.elim

theorem Coherent.peek (coherent : m.Coherent json decoder tableFiles name key)
    (stocked : ∀ name, Stocked json (tableFiles name)) {next : Value → Program}
    (here : m.programs thread = .rawManifest next) :
    Coherent json decoder tableFiles name key ⟨m.store.lookedUp json name key,
      Function.update m.programs thread (next (m.store.router.getRawManifest json name key).1),
      m.disturbed⟩ := by
  have shaped := coherent.shaped thread
  have fine := coherent.fine thread
  rw [here] at shaped fine
  rw [coherent.regular.oldValue stocked]
  refine coherent.still (coherent.regular.turn stocked
    (show Store.TurnStep json m.store (.peek name key) _ from rfl))
    (coherent.regular.sound.lookedUp name key) (shaped _) (fun busy => ?_) fine fun goes => ?_
  · simp [Busy, here, atWrite, atPut] at busy
  · rw [here] at goes
    exact goes.elim

/-- A record that cannot be packed. -/
theorem Coherent.unpacked (coherent : m.Coherent json decoder tableFiles name key)
    {next : Except RouterError Unit → Program} {e e' : RouterError}
    (here : m.programs thread = .setInternal other value next) (faithful : json.Faithful value)
    (failed : packRecord json other value = .error e) :
    Coherent json decoder tableFiles name key
      ⟨m.store, Function.update m.programs thread (next (.error e')), m.disturbed⟩ := by
  have shaped := coherent.shaped thread
  have fine := coherent.fine thread
  rw [here] at shaped fine
  obtain ⟨_, shaped, writes⟩ := shaped
  refine coherent.still coherent.regular (Store.Still.refl m.store) (shaped _) (fun busy => ?_)
    (fine.imp_right (Or.imp_right fun both => both.2 e')) fun goes => ?_
  · rcases busy with ⟨short, _⟩ | ⟨_, putting⟩
    · rcases writes with ⟨rfl, _⟩ | ⟨i, _, writes⟩
      · obtain ⟨packed, packs⟩ := (Database.packRecord_ok_iff faithful).mpr short
        rw [packs] at failed
        cases failed
      · refine Or.inl ⟨short, ?_⟩
        show (Function.update m.programs thread (next (.error e')) thread).atWrite = true
        rw [Function.update_self]
        exact writes _
    · rw [here] at putting
      cases putting
  · rw [here] at goes
    exact goes.elim

/-- A step of the store that neither writes nor looks anything up. -/
theorem quiet_step (regular : m.store.Regular json tableFiles)
    (stocked : ∀ name, Stocked json (tableFiles name)) {e : Store.Event}
    (step : Store.Step json m.store e t) (free : m.store.Unblocked e) (succeeding : t.Succeeding)
    (unset : ∀ client name key value, e ≠ .set client name key value)
    (unlogged : ∀ client name records, e ≠ .append client name records)
    (single : ∀ client, e ≠ .insertMany client) (unlooked : ∀ name key, e ≠ .getLocked name key) :
    t.Regular json tableFiles ∧ Store.Still m.store t := by
  refine ⟨regular.act stocked ⟨step, ?_, free, succeeding⟩,
    regular.sound.still regular.room step (Store.actOn_quiet unset single) unlooked⟩
  cases e with
  | set client name key value => exact absurd rfl (unset _ _ _ _)
  | append client name records => exact absurd rfl (unlogged _ _ _)
  | _ => trivial

theorem Coherent.getCached (coherent : m.Coherent json decoder tableFiles name key)
    (stocked : ∀ name, Stocked json (tableFiles name))
    {next : Except RouterError (Option Value) → Program}
    (here : m.programs thread = .getCached other next)
    (succeeding : Store.Succeeding
      { m.store with router := (m.store.router.getCached name other).2 }) :
    Coherent json decoder tableFiles name key
      ⟨{ m.store with router := (m.store.router.getCached name other).2 },
        Function.update m.programs thread (next (m.store.router.getCached name other).1),
        m.disturbed⟩ := by
  have shaped := coherent.shaped thread
  have fine := coherent.fine thread
  rw [here] at shaped fine
  obtain ⟨own, shaped⟩ := shaped
  have idle : ¬ m.Busy key thread := by
    simp [Busy, here, atWrite, atPut]
  have looked : Store.Step json m.store (.getCached name other)
      { m.store with router := (m.store.router.getCached name other).2 } := rfl
  obtain ⟨regular, still⟩ := quiet_step coherent.regular stocked looked trivial succeeding
    (fun _ _ _ _ same => by cases same) (fun _ _ _ same => by cases same)
    (fun _ same => by cases same) fun _ _ same => by cases same
  refine coherent.still regular still (shaped _) (fun busy => absurd busy idle) ?_ fun goes => ?_
  · rcases fine with disturbed | busy | ⟨found, missed⟩
    · exact Or.inl disturbed
    · exact Or.inr (Or.inl busy)
    · rcases Store.getCached_answer coherent.regular.sound.cache name other with
        answer | ⟨held, known, answer⟩
      · rw [answer]
        exact Or.inr (Or.inr missed)
      · rw [answer]
        rcases own with rfl | ⟨i, rfl⟩
        · rcases coherent.cached with ⟨another, busy⟩ | cachable
          · exact Or.inr (Or.inl ⟨another, fun same => idle (same ▸ busy), busy⟩)
          · refine Or.inr (Or.inr (found held ?_))
            exact (cachable held known).symm.imp And.left fun rebuilt => ⟨rfl, rebuilt⟩
        · exact Or.inr (Or.inr (found held (Or.inl (coherent.chunks i held known))))
  · rw [here] at goes
    obtain ⟨different, found, missed⟩ := goes
    rcases Store.getCached_answer coherent.regular.sound.cache name other with
      answer | ⟨held, known, answer⟩
    · rw [answer]
      exact missed
    · rcases own with rfl | ⟨i, rfl⟩
      · exact absurd rfl different
      · rw [answer, coherent.chunks i held known]
        exact found

theorem Coherent.getLocked (coherent : m.Coherent json decoder tableFiles name key)
    (stocked : ∀ name, Stocked json (tableFiles name))
    {next : Except RouterError Value → Program}
    (here : m.programs thread = .getLocked other next)
    (succeeding : Store.Succeeding
      { m.store with router := (m.store.router.getLocked json name other).2 }) :
    Coherent json decoder tableFiles name key
      ⟨{ m.store with router := (m.store.router.getLocked json name other).2 },
        Function.update m.programs thread (next (m.store.router.getLocked json name other).1),
        m.disturbed⟩ := by
  have shaped := coherent.shaped thread
  have fine := coherent.fine thread
  rw [here] at shaped fine
  obtain ⟨shaped, puts⟩ := shaped
  have regular := coherent.regular.act stocked
    (show Store.TurnStep json m.store (.act (.getLocked name other))
      { m.store with router := (m.store.router.getLocked json name other).2 } from
      ⟨rfl, trivial, trivial, succeeding⟩)
  have answer := coherent.regular.answer stocked name other
  have cached {otherKey : String} {held : Value} (known : Store.cached
      { m.store with router := (m.store.router.getLocked json name other).2 } name otherKey =
        some held) : m.store.cached name otherKey = some held ∨
          (otherKey = other ∧ held = m.store.value json tableFiles name otherKey) := by
    rcases coherent.regular.sound.locked_cached coherent.regular.room name other known with
      before | ⟨⟨_, rfl⟩, answered⟩
    · exact Or.inl before
    · rw [answer, Except.ok.injEq] at answered
      exact Or.inr ⟨rfl, answered.symm⟩
  rw [answer]
  refine coherent.resume rfl (fun _ _ => rfl) regular
    (coherent.regular.sound.locked_newest name other) (fun i held known => ?_) (shaped _)
    (fun busy => ?_) fine fun quiet held known => ?_
  · rcases cached known with before | ⟨_, same⟩
    · exact coherent.chunks i held before
    · exact same
  · simp [Busy, here, atWrite, atPut] at busy
  · rcases cached known with before | ⟨rfl, same⟩
    · refine (coherent.cached.resolve_left quiet held before).moves fun goes => ?_
      rw [here] at goes
      exact goes
    · refine Or.inr ⟨same, fun flag reads => ⟨thread, ?_⟩⟩
      dsimp only
      rw [Function.update_self]
      exact puts rfl _ flag reads

theorem Coherent.putCache (coherent : m.Coherent json decoder tableFiles name key)
    (stocked : ∀ name, Stocked json (tableFiles name))
    {next : Except RouterError Unit → Program} (here : m.programs thread = .putCache value next)
    (undisturbed : m.disturbed thread = false) (plain : isChunkKey key = false) :
    Coherent json decoder tableFiles name key ⟨m.store.recalled name key value,
      Function.update m.programs thread (next (m.store.router.putCache name key value).1),
      m.disturbed⟩ := by
  have shaped := coherent.shaped thread
  have fine := coherent.fine thread
  rw [here] at shaped fine
  have formed := coherent.regular.sound.cache
  obtain ⟨stored, alike⟩ := Store.recalled_alike formed name key value
  have regular := coherent.regular.turn stocked
    (show Store.TurnStep json m.store (.putCache name key value)
        (m.store.recalled name key value) from
      ⟨fun chunk => (by rw [plain] at chunk; cases chunk), rfl⟩)
  have idle : ¬ m.Busy key thread := by
    simp [Busy, here, atWrite, undisturbed]
  refine coherent.resume rfl (fun _ _ => rfl) regular alike.newest (fun i held known => ?_)
    (shaped _) (fun busy => absurd busy idle)
    (fine.imp_right (Or.imp_right fun both => both.2 _)) fun quiet held known => ?_
  · rcases Store.recalled_cached formed coherent.regular.room name key value known with
      ⟨⟨_, own⟩, _⟩ | ⟨_, before⟩
    · exact absurd own (Store.ne_chunkKey_self key i)
    · exact coherent.chunks i held before
  · rcases Store.recalled_cached formed coherent.regular.room name key value known with
      ⟨_, rfl⟩ | ⟨outside, _⟩
    · rcases fine with disturbed | ⟨another, _, busy⟩ | ⟨rebuilt, _⟩
      · rw [undisturbed] at disturbed
        cases disturbed
      · exact absurd ⟨another, busy⟩ quiet
      · exact Or.inl rebuilt
    · exact absurd ⟨rfl, rfl⟩ outside

theorem shaped_afterWrite {next : Except RouterError Unit → Program}
    (shaped : ∀ r, Shaped json decoder name key (next r)) (full : Bool) :
    Shaped json decoder name key (afterWrite next (.ok full)) := by
  cases full with
  | false => exact shaped _
  | true => exact shaped

theorem fine_afterWrite {next : Except RouterError Unit → Program} {d : Dictionary} {full : Bool} :
    Fine json decoder name key (afterWrite next (.ok full)) d ↔
      Fine json decoder name key (next (.ok ())) d := by
  cases full <;> rfl

theorem atWrite_afterWrite (next : Except RouterError Unit → Program) (full : Bool) :
    (afterWrite next (.ok full)).atWrite = (next (.ok ())).atWrite := by
  cases full <;> rfl

theorem atPut_afterWrite (next : Except RouterError Unit → Program) (full : Bool) :
    (afterWrite next (.ok full)).atPut = (next (.ok ())).atPut := by
  cases full <;> rfl

/-- A call whose next step puts a value into the cache. -/
theorem rebuilt_of_atPut {d : Dictionary} (putting : p.atPut = true)
    (fine : Fine json decoder name key p d) :
    (∃ held, Rebuilt json decoder d name key held) ∧ WillPut name key p d := by
  induction p with
  | putCache value next _ => exact ⟨⟨value, fine.1⟩, trivial⟩
  | flushing next ih => exact ih (.ok ()) putting fine
  | _ => cases putting

theorem disturb_self (disturbed : Nat → Bool) (thread : Nat) (writes : Bool) :
    disturb disturbed thread writes thread = disturbed thread := by
  simp [disturb]

theorem disturb_ne (disturbed : Nat → Bool) {thread other : Nat} (different : other ≠ thread) :
    disturb disturbed thread true other = true := by
  simp [disturb, different]

@[simp] theorem disturb_false (disturbed : Nat → Bool) (thread : Nat) :
    disturb disturbed thread false = disturbed := by
  funext other
  simp [disturb]

/-- What the tables hold after a write. -/
theorem value_assigned (assigned : Store.Assigned m.store t name other value) :
    t.value json tableFiles =
      Dictionary.write (m.store.value json tableFiles) name [(other, value)] := by
  funext otherName otherKey
  by_cases here : otherName = name ∧ otherKey = other
  · obtain ⟨rfl, rfl⟩ := here
    rw [assigned.fixed.value]
    exact (write_self (otherKey, value)).symm
  · rw [assigned.within.value here]
    unfold write
    split
    · rename_i same
      have different : other ≠ otherKey := fun own => here ⟨same, own.symm⟩
      simp [lastOf, different]
    · rfl

/-- The first locked section of a write. Every other call is disturbed. -/
theorem Coherent.wrote (coherent : m.Coherent json decoder tableFiles name key)
    (stocked : ∀ name, Stocked json (tableFiles name)) {next : Except RouterError Unit → Program}
    (here : m.programs thread = .setInternal other value next) (faithful : json.Faithful value)
    {packed : Bytes} (packs : packRecord json other value = .ok packed)
    (step : Store.Step json m.store (.set thread name other value) t)
    (succeeding : t.Succeeding) :
    Coherent json decoder tableFiles name key ⟨t, Function.update m.programs thread
      (afterWrite next (m.store.router.setLocked name other value packed).1),
      disturb m.disturbed thread true⟩ := by
  have shaped := coherent.shaped thread
  have fine := coherent.fine thread
  rw [here] at shaped fine
  obtain ⟨_, shaped, writes⟩ := shaped
  have sound := coherent.regular.sound
  have assigned := sound.assigned coherent.regular.room step packs
  have value_after := @value_assigned json tableFiles name other m t value assigned
  obtain ⟨full, locked⟩ :
      ∃ full, (m.store.router.setLocked name other value packed).1 = .ok full := by
    obtain ⟨_, locked, _⟩ := setLocked_spec sound.cache name
      ⟨m.store.router.wal.globalTxId, other, value, packed⟩ rfl
    exact ⟨_, congrArg Prod.fst locked⟩
  rw [locked]
  have short : (encodeKey key).length ≤ maxKeyBytes := by
    have fits := (Database.packRecord_ok_iff faithful).mp ⟨packed, packs⟩
    rcases writes with ⟨rfl, _⟩ | ⟨i, rfl, _⟩
    · exact fits
    · simp only [chunkKey, encodeKey_append, List.length_append] at fits
      omega
  generalize after : (⟨t, Function.update m.programs thread (afterWrite next (.ok full)),
    disturb m.disturbed thread true⟩ : Threads) = m'
  have own : m'.programs thread = afterWrite next (.ok full) := by
    rw [← after]
    exact Function.update_self _ _ _
  have others {another : Nat} (different : another ≠ thread) :
      m'.programs another = m.programs another ∧ m'.disturbed another = true := by
    rw [← after]
    exact ⟨Function.update_of_ne different _ _, disturb_ne _ different⟩
  have same_thread : m'.disturbed thread = m.disturbed thread := by
    rw [← after]
    exact disturb_self _ _ _
  have still_busy {another : Nat} (different : another ≠ thread) (busy : m.Busy key another) :
      m'.Busy key another := by
    unfold Busy
    rw [(others different).1, (others different).2]
    exact busy.imp_right fun both => ⟨rfl, both.2⟩
  have value' : m'.store.value json tableFiles =
      Dictionary.write (m.store.value json tableFiles) name [(other, value)] := by
    rw [← after]
    exact value_after
  have cached {otherKey : String} {held : Value}
      (known : m'.store.cached name otherKey = some held) :
      (otherKey = other ∧ held = value) ∨
        (otherKey ≠ other ∧ m.store.cached name otherKey = some held) := by
    rw [← after] at known
    by_cases same : otherKey = other
    · subst same
      exact Or.inl ⟨rfl, assigned.fixed.cached held known⟩
    · exact Or.inr
        ⟨same, assigned.within.cached name otherKey held (fun inside => same inside.2) known⟩
  -- what is known once the key itself has been written, unless a call is busy
  have ends : (∃ another, m'.Busy key another) ∨
      (other = key ∧ (flagged overflowFlag value = true →
        (∃ held, Rebuilt json decoder (m'.store.value json tableFiles) name key held) ∧
          WillPut name key (m'.programs thread) (m'.store.value json tableFiles))) := by
    rcases writes with ⟨own_key, last⟩ | ⟨_, _, more⟩
    · cases flag : flagged overflowFlag value with
      | false => exact Or.inr ⟨own_key, fun set => (by cases set)⟩
      | true =>
          have putting := last.resolve_left fun plain => by rw [flag] at plain; cases plain
          have at_put : (m'.programs thread).atPut = true := by
            rw [own, atPut_afterWrite]
            exact putting
          rcases fine with disturbed | ⟨another, different, busy⟩ | ⟨fine, _⟩
          · exact Or.inl ⟨thread, Or.inr ⟨same_thread.trans disturbed, at_put⟩⟩
          · exact Or.inl ⟨another, still_busy different busy⟩
          · refine Or.inr ⟨own_key, fun _ => rebuilt_of_atPut at_put ?_⟩
            rw [own, fine_afterWrite, value']
            exact fine
    · refine Or.inl ⟨thread, Or.inl ⟨short, ?_⟩⟩
      rw [own, atWrite_afterWrite]
      exact more _
  constructor
  · rw [← after]
    exact coherent.regular.act stocked ⟨step, faithful, trivial, succeeding⟩
  · intro i held known
    rw [value']
    rcases cached known with ⟨rfl, same⟩ | ⟨different, before⟩
    · rw [same]
      exact (write_self (chunkKey key i, value)).symm
    · rw [write_ne (other, value) (Ne.symm different)]
      exact coherent.chunks i held before
  · intro another
    by_cases same : another = thread
    · rw [same, own]
      exact shaped_afterWrite shaped full
    · rw [(others same).1]
      exact coherent.shaped another
  · intro another
    by_cases same : another = thread
    · rw [same, own, same_thread, fine_afterWrite, value']
      refine fine.imp_right (Or.imp (fun busy => ?_) And.left)
      obtain ⟨k, different, busy⟩ := busy
      exact ⟨k, different, still_busy different busy⟩
    · exact Or.inl (others same).2
  · refine ends.imp_right fun known flag => ?_
    obtain ⟨own_key, last⟩ := known
    subst own_key
    rw [value', write_self (other, value)] at flag
    obtain ⟨⟨held, rebuilt⟩, _⟩ := last flag
    exact rebuilt.2.2 ▸ rebuilt.2.1
  · refine ends.imp_right fun ended held known => ?_
    obtain ⟨own_key, last⟩ := ended
    subst own_key
    have same : m'.store.value json tableFiles name other = value := by
      rw [value']
      exact write_self (other, value)
    rcases cached known with ⟨_, rfl⟩ | ⟨different, _⟩
    · refine Or.inr ⟨same.symm, fun flag _ => ⟨thread, (last ?_).2⟩⟩
      rw [same] at flag
      exact flag
    · exact absurd rfl different

/-- Behind its first locked section a write assigns nothing, and no flush has raised. -/
theorem flush_inv (regular : m.store.Regular json tableFiles)
    (stocked : ∀ name, Stocked json (tableFiles name)) {next : Except RouterError Unit → Program}
    (flushed : Program.flush m.store thread next = some (t, p))
    (free : m.store.Unblocked (.swap thread)) (succeeding : t.Succeeding) :
    (t.Regular json tableFiles ∧ Store.Still m.store t) ∧
      (p = .flushing next ∨ p = next (.ok ())) := by
  have quiet {e : Store.Event} (step : Store.Step json m.store e t) (free : m.store.Unblocked e)
      (kind : e = .check thread ∨ e = .wake thread ∨ e = .swap thread) :
      t.Regular json tableFiles ∧ Store.Still m.store t := by
    apply quiet_step regular stocked step free succeeding
    all_goals
      intros
      rintro rfl
      simp at kind
  unfold Program.flush at flushed
  cases state : m.store.clients thread with
  | full table =>
      rw [state] at flushed
      obtain ⟨t, checked, same⟩ := Option.map_eq_some_iff.mp flushed
      cases same
      exact ⟨quiet (e := .check thread) checked trivial (Or.inl rfl), Or.inl rfl⟩
  | waiting table i =>
      rw [state] at flushed
      obtain ⟨t, woken, same⟩ := Option.map_eq_some_iff.mp flushed
      cases same
      refine ⟨quiet (e := .wake thread) woken trivial (Or.inr (Or.inl rfl)), Or.inl ?_⟩
      unfold Store.wake at woken
      rw [state] at woken
      dsimp only at woken
      split at woken
      · cases woken
      · rename_i task there
        split at woken
        · cases woken
          simp [Store.putClient]
        · split at woken
          · rename_i failed
            exact absurd failed (regular.succeeding table task (List.mem_of_getElem? there))
          · cases woken
  | ready table =>
      rw [state] at flushed
      obtain ⟨t, swapped, same⟩ := Option.map_eq_some_iff.mp flushed
      cases same
      exact ⟨quiet (e := .swap thread) swapped free (Or.inr (Or.inr rfl)), Or.inr rfl⟩
  | idle =>
      rw [state] at flushed
      cases flushed
  | logged table records packedRecords txIds =>
      rw [state] at flushed
      cases flushed

theorem Coherent.flush (coherent : m.Coherent json decoder tableFiles name key)
    (stocked : ∀ name, Stocked json (tableFiles name)) {next : Except RouterError Unit → Program}
    (here : m.programs thread = .flushing next)
    (flushed : Program.flush m.store thread next = some (t, p))
    (free : m.store.Unblocked (.swap thread)) (succeeding : t.Succeeding) :
    Coherent json decoder tableFiles name key
      ⟨t, Function.update m.programs thread p, m.disturbed⟩ := by
  have shaped := coherent.shaped thread
  have fine := coherent.fine thread
  rw [here] at shaped fine
  obtain ⟨⟨regular, still⟩, goes⟩ := flush_inv coherent.regular stocked flushed free succeeding
  rcases goes with rfl | rfl
  · refine coherent.still regular still shaped (fun busy => ?_) fine (fun goes => here ▸ goes)
    unfold Busy at busy ⊢
    rw [here] at busy
    simpa using busy
  · refine coherent.still regular still (shaped _) (fun busy => ?_) fine fun goes => ?_
    · unfold Busy at busy ⊢
      rw [here] at busy
      simpa [atWrite, atPut] using busy
    · rw [here] at goes
      exact goes

theorem Coherent.background (coherent : m.Coherent json decoder tableFiles name key)
    (stocked : ∀ name, Stocked json (tableFiles name)) {e : Store.Event}
    (step : Store.Step json m.store e t) (succeeding : t.Succeeding)
    (kind : (∃ table i, e = .flush table i) ∨ (∃ table i, e = .raise table i) ∨
      ∃ clock, e = .writer clock) :
    Coherent json decoder tableFiles name key { m with store := t } := by
  have quiet : t.Regular json tableFiles ∧ Store.Still m.store t := by
    have free : m.store.Unblocked e := by
      rcases kind with ⟨_, _, rfl⟩ | ⟨_, _, rfl⟩ | ⟨_, rfl⟩ <;> trivial
    apply quiet_step coherent.regular stocked step free succeeding
    all_goals
      intros
      rintro rfl
      simp at kind
  have moved := @Coherent.still json decoder tableFiles name key m t 0 _ coherent quiet.1 quiet.2
    (coherent.shaped 0) (fun busy => ?_)
    (coherent.fine 0) id
  · rw [Function.update_eq_self] at moved
    exact moved
  · unfold Busy at busy ⊢
    simpa using busy

/-- What one move keeps. -/
theorem Coherent.step {move : Move} (coherent : m.Coherent json decoder tableFiles name key)
    (stocked : ∀ name, Stocked json (tableFiles name)) (inverts : decoder.Inverts codec)
    (step : Step json codec decoder name key m move m') :
    m'.Coherent json decoder tableFiles name key := by
  obtain ⟨performed, allowed, succeeding⟩ := step
  cases move with
  | call thread request =>
      dsimp only [perform] at performed
      split at performed
      · rename_i here
        cases performed
        exact coherent.call inverts here allowed
      · cases performed
  | store e =>
      cases e with
      | flush table i =>
          obtain ⟨t, stepped, rfl⟩ := Option.map_eq_some_iff.mp performed
          exact coherent.background stocked stepped succeeding (Or.inl ⟨table, i, rfl⟩)
      | raise table i =>
          obtain ⟨t, stepped, rfl⟩ := Option.map_eq_some_iff.mp performed
          exact coherent.background stocked stepped succeeding (Or.inr (Or.inl ⟨table, i, rfl⟩))
      | writer clock =>
          cases performed
          exact coherent.background stocked (e := .writer clock) rfl succeeding
            (Or.inr (Or.inr ⟨clock, rfl⟩))
      | _ => cases performed
  | run thread =>
      obtain ⟨⟨t, p⟩, stepped, rfl⟩ := Option.map_eq_some_iff.mp performed
      dsimp only [Allowed] at allowed
      cases here : m.programs thread with
      | ret result =>
          rw [here] at stepped
          cases stepped
      | rawManifest next =>
          rw [here] at stepped
          cases stepped
          simp only [writes, disturb_false]
          exact coherent.peek stocked here
      | setInternal other value next =>
          have named := (here ▸ coherent.shaped thread : Shaped json decoder name key
            (.setInternal other value next)).1
          rw [here] at stepped allowed
          rw [Program.step, if_neg named] at stepped
          rw [writes]
          cases packs : packRecord json other value with
          | error e =>
              rw [packs] at stepped
              cases stepped
              have unpacked : Threads.writes json name (.setInternal other value next) = false := by
                simp [Threads.writes, CachyDb.packs, packs]
              rw [Threads.writes] at unpacked
              rw [unpacked, disturb_false]
              exact coherent.unpacked here allowed packs
          | ok packed =>
              rw [packs] at stepped
              obtain ⟨u, set, same⟩ := Option.map_eq_some_iff.mp stepped
              cases same
              have written : Threads.writes json name (.setInternal other value next) = true := by
                simp [Threads.writes, CachyDb.packs, packs, not_or.mp named]
              rw [Threads.writes] at written
              rw [written]
              exact coherent.wrote stocked here allowed packs set succeeding
      | flushing next =>
          rw [here] at stepped allowed
          simp only [writes, disturb_false]
          exact coherent.flush stocked here stepped allowed succeeding
      | getCached other next =>
          rw [here] at stepped
          cases stepped
          simp only [writes, disturb_false]
          exact coherent.getCached stocked here succeeding
      | getLocked other next =>
          rw [here] at stepped
          cases stepped
          simp only [writes, disturb_false]
          exact coherent.getLocked stocked here succeeding
      | putCache value next =>
          rw [here] at stepped allowed
          cases stepped
          simp only [writes, disturb_false]
          exact coherent.putCache stocked here allowed.1 allowed.2

/-! ### Runs -/

/-- The value in the memtables or on disk, past the cache. -/
def current (json : Json) (s : Store) (name key : String) : Value :=
  (s.router.getRawManifest json name key).1

/-- What is cached for the key is its value, put together from the chunks if it is in chunks; a
manifest whose chunks make up nothing stands for itself. -/
def UpToDate (json : Json) (decoder : Decoder) (name key : String) (s : Store) : Prop :=
  ∀ held, s.cached name key = some held →
    held = Dictionary.read json decoder (current json s) name key ∨
      (held = current json s name key ∧
        Dictionary.read json decoder (current json s) name key = .null)

theorem Coherent.upToDate (coherent : m.Coherent json decoder tableFiles name key)
    (stocked : ∀ name, Stocked json (tableFiles name)) (rest : m.AtRest) :
    UpToDate json decoder name key m.store := by
  have values : current json m.store = m.store.value json tableFiles := by
    funext name key
    exact coherent.regular.oldValue stocked name key
  have idle : ¬ ∃ thread, m.Busy key thread := by
    rintro ⟨thread, busy⟩
    obtain ⟨result, done⟩ := rest thread
    simp [Busy, done, atWrite, atPut] at busy
  intro held known
  rw [values]
  rcases coherent.cached.resolve_left idle held known with ⟨_, _, same⟩ | ⟨same, later⟩
  · exact Or.inl same
  · cases flag : flagged overflowFlag (m.store.value json tableFiles name key) with
    | false =>
        left
        rw [Dictionary.read, Store.reading_unflagged flag]
        exact same
    | true =>
        refine Or.inr ⟨same, ?_⟩
        by_contra reads
        obtain ⟨thread, goes⟩ := later flag reads
        obtain ⟨result, done⟩ := rest thread
        rw [done] at goes
        exact goes

theorem start_coherent (wal : Wal) (stocked : ∀ name, Stocked json (tableFiles name))
    {maxMemtableSize cacheCapacity : Nat} (limit : 0 < maxMemtableSize) (room : 0 < cacheCapacity)
    (clear : Clear json decoder (Store.original json tableFiles) (.get name key)) :
    Coherent json decoder tableFiles name key
      (start (Store.start wal tableFiles maxMemtableSize cacheCapacity)) where
  regular := (Store.start_steady wal stocked limit room).regular
  chunks _ _ known := by cases known
  shaped _ := trivial
  fine _ := Or.inr (Or.inr trivial)
  clear := Or.inr clear
  cached := Or.inr fun _ known => by cases known

/-- After every run of such moves the cache is up to date when no call is in progress. -/
theorem cache_up_to_date (json : Json) (codec : Codec) (decoder : Decoder)
    (inverts : decoder.Inverts codec) (wal : Wal) (tableFiles : String → File)
    (stocked : ∀ name, Stocked json (tableFiles name)) {maxMemtableSize cacheCapacity : Nat}
    (limit : 0 < maxMemtableSize) (room : 0 < cacheCapacity) (name key : String)
    (clear : Clear json decoder (Store.original json tableFiles) (.get name key))
    {moves : List Move} {m : Threads}
    (run : Run (Step json codec decoder name key)
      (start (Store.start wal tableFiles maxMemtableSize cacheCapacity)) moves m)
    (rest : m.AtRest) : UpToDate json decoder name key m.store := by
  have coherent : m.Coherent json decoder tableFiles name key := by
    apply run.preserves (start_coherent wal stocked limit room clear)
    exact fun _ _ _ coherent step => coherent.step stocked inverts step
  exact coherent.upToDate stocked rest

/-! ### A string, and a large value that comes late -/

def Move.mover : Move → Option Nat
  | .call thread _ => some thread
  | .run thread => some thread
  | .store _ => none

/-- A thread that does nothing has no call in progress. -/
theorem perform_others {move : Move} {bystander : Nat} (apart : move.mover ≠ some bystander)
    (performed : m.perform json codec decoder name key move = some m') :
    m'.programs bystander = m.programs bystander := by
  cases move with
  | call thread request =>
      dsimp only [perform] at performed
      split at performed
      · cases performed
        exact Function.update_of_ne (fun same => apart (congrArg some same.symm)) _ _
      · cases performed
  | run thread =>
      obtain ⟨next, _, rfl⟩ := Option.map_eq_some_iff.mp performed
      exact Function.update_of_ne (fun same => apart (congrArg some same.symm)) _ _
  | store e =>
      dsimp only [perform] at performed
      split at performed
      · obtain ⟨_, _, rfl⟩ := Option.map_eq_some_iff.mp performed
        rfl
      · obtain ⟨_, _, rfl⟩ := Option.map_eq_some_iff.mp performed
        rfl
      · obtain ⟨_, _, rfl⟩ := Option.map_eq_some_iff.mp performed
        rfl
      · cases performed

theorem play_others {moves : List Move} (bystander : Nat)
    (apart : ∀ move ∈ moves, move.mover ≠ some bystander)
    (played : play (perform json codec decoder name key) m moves = some m') :
    m'.programs bystander = m.programs bystander := by
  induction moves generalizing m with
  | nil =>
      cases played
      rfl
  | cons move rest ih =>
      obtain ⟨u, first, later⟩ := Option.bind_eq_some_iff.mp played
      rw [ih (fun other member => apart other (List.mem_cons_of_mem _ member)) later]
      exact perform_others (apart move List.mem_cons_self) first

end

def isRet : Program → Bool
  | .ret _ => true
  | _ => false

theorem isRet_iff (p : Program) : isRet p = true ↔ ∃ result, p = .ret result := by
  cases p <;> simp [isRet]

open Store (fresh longValue longText longCodec longDecoder)

/-- A step of a program as a move. -/
theorem Step.run {json : Json} {codec : Codec} {decoder : Decoder} {name key : String} {m : Threads}
    {thread : Nat} {p q : Program} {t : Store} (here : m.programs thread = p)
    (stepped : p.step json name key m.store thread = some (t, q))
    (allowed : m.Allowed json key (.run thread)) (succeeding : t.Succeeding) :
    ∃ m', Step json codec decoder name key m (.run thread) m' ∧ m'.store = t ∧
      m'.programs thread = q := by
  subst here
  have performed : m.perform json codec decoder name key (.run thread) =
      some ⟨t, Function.update m.programs thread q,
        disturb m.disturbed thread (writes json name (m.programs thread))⟩ := by
    rw [perform, stepped]
    rfl
  exact ⟨_, ⟨performed, allowed, succeeding⟩, rfl, Function.update_self _ _ _⟩

/-- A thread begins to write a string. -/
theorem Step.string {m : Threads} {thread : Nat} {text : String} {result : Except RouterError Value}
    (idle : m.programs thread = .ret result) (succeeding : m.store.Succeeding)
    (small : largeText manifestJson "k" (.str text) = none) :
    ∃ m', Step manifestJson longCodec longDecoder "t" "k" m (.call thread (.set (.str text))) m' ∧
      m'.store = m.store ∧ m'.programs thread =
        Program.cleanUp "k" (.setInternal "k" (.str text) Program.done) := by
  have program : Program.set manifestJson longCodec "t" "k" (.str text) =
      Program.cleanUp "k" (.setInternal "k" (.str text) Program.done) := by
    rw [Program.set, if_neg (by decide), small]
    rfl
  have called : m.perform manifestJson longCodec longDecoder "t" "k" (.call thread (.set (.str text))) =
      some ⟨m.store, Function.update m.programs thread
        (Program.set manifestJson longCodec "t" "k" (.str text)),
        Function.update m.disturbed thread false⟩ := by
    rw [perform, idle]
    rfl
  refine ⟨_, ⟨called, ⟨manifestJson_string text, rfl⟩, succeeding⟩, rfl, ?_⟩
  rw [← program]
  exact Function.update_self _ _ _

/-- Such a write submits no flush. -/
theorem string_succeeds {s t : Store} {thread : Nat} {text : String} {q : Program}
    (sound : s.Sound manifestJson) (succeeding : s.Succeeding)
    (packed : packs manifestJson ("k", .str text) = true)
    (stepped : (Program.setInternal "k" (.str text) Program.done).step manifestJson "t" "k" s thread =
      some (t, q)) : t.Sound manifestJson ∧ t.Succeeding := by
  obtain ⟨packed, packs⟩ := packs_iff.mp packed
  rw [Program.step, if_neg (by decide), packs] at stepped
  obtain ⟨u, set, same⟩ := Option.map_eq_some_iff.mp stepped
  cases same
  have set : Store.Step manifestJson s (.set thread "t" "k" (.str text)) t := set
  exact ⟨sound.step set, succeeding.quietly sound (fun _ _ same => by cases same)
    (fun _ _ same => by cases same) (fun _ same => by cases same) set⟩

set_option maxRecDepth 100000 in
/-- Two threads have looked the key up, then the second writes, then the first. -/
theorem strings_outcome :
    ((Program.setInternal "k" (.str "y") Program.done).step manifestJson "t" "k"
      (((fresh 100 10).lookedUp manifestJson "t" "k").lookedUp manifestJson "t" "k") 1).bind
        (fun second => ((Program.setInternal "k" (.str "x") Program.done).step manifestJson "t" "k"
          second.1 0).map fun first => (isRet first.2, isRet second.2,
            (first.1.cached "t" "k").bind manifestJson.dumps)) =
      some (true, true, some [0x22, 0x78, 0x22]) := by
  decide +kernel

/-- Two threads write one key, each between the two halves of the other. -/
theorem strings_up_to_date : ∃ m, Run (Step manifestJson longCodec longDecoder "t" "k")
      (start (fresh 100 10)) [.call 0 (.set (.str "x")), .call 1 (.set (.str "y")), .run 0, .run 1,
        .run 1, .run 0] m ∧
    (m.store.cached "t" "k").bind manifestJson.dumps = some [0x22, 0x78, 0x22] ∧
    UpToDate manifestJson longDecoder "t" "k" m.store := by
  have stocked (_ : String) : Stocked manifestJson File.empty := Store.empty_stocked manifestJson
  have regular := (Store.fresh_steady manifestJson (show 0 < 100 by decide)
    (show 0 < 10 by decide)).regular
  have looked := regular.turn stocked
    (show Store.TurnStep manifestJson (fresh 100 10) (.peek "t" "k") _ from rfl)
  have twice := looked.turn stocked (show Store.TurnStep manifestJson _ (.peek "t" "k") _ from rfl)
  obtain ⟨⟨t, second⟩, stepped₁, outcome⟩ := Option.bind_eq_some_iff.mp strings_outcome
  obtain ⟨⟨u, first⟩, stepped₀, seen⟩ := Option.map_eq_some_iff.mp outcome
  simp only [Prod.mk.injEq] at seen
  obtain ⟨ends₀, ends₁, cached⟩ := seen
  obtain ⟨sound, succeeding₁⟩ :=
    string_succeeds twice.sound twice.succeeding (by decide) stepped₁
  obtain ⟨_, succeeding₀⟩ := string_succeeds sound succeeding₁ (by decide) stepped₀
  -- both calls begin
  obtain ⟨m₁, call₀, store₁, at₁⟩ := @Step.string (start (fresh 100 10)) 0 "x" _ rfl
    regular.succeeding (by decide)
  have store₁ : m₁.store = fresh 100 10 := store₁
  have idle : m₁.programs 1 = .ret (.ok .null) := perform_others (by simp [Move.mover]) call₀.1
  obtain ⟨m₂, call₁, store₂, at₂⟩ := @Step.string m₁ 1 "y" _ idle
    (store₁ ▸ regular.succeeding) (by decide)
  have wait₂ : m₂.programs 0 = _ :=
    (perform_others (by simp [Move.mover]) call₁.1).trans at₁
  -- both look the key up
  have old : overflowChunks ((fresh 100 10).router.getRawManifest manifestJson "t" "k").1 = none := by
    rfl
  have old' : overflowChunks (((fresh 100 10).lookedUp manifestJson "t" "k").router.getRawManifest
      manifestJson "t" "k").1 = none := by
    rfl
  obtain ⟨m₃, peek₀, store₃, at₃⟩ := @Step.run manifestJson longCodec longDecoder "t" "k" m₂ 0 _ _ _
    wait₂ (by rw [store₂, store₁, Program.cleanUp, Program.step, old])
    (by rw [Allowed, wait₂]; trivial) looked.succeeding
  have wait₃ : m₃.programs 1 = _ :=
    (perform_others (by simp [Move.mover]) peek₀.1).trans at₂
  obtain ⟨m₄, peek₁, store₄, at₄⟩ := @Step.run manifestJson longCodec longDecoder "t" "k" m₃ 1 _ _ _
    wait₃ (by rw [store₃, Program.cleanUp, Program.step, old'])
    (by rw [Allowed, wait₃]; trivial) twice.succeeding
  have wait₄ : m₄.programs 0 = _ :=
    (perform_others (by simp [Move.mover]) peek₁.1).trans at₃
  -- the second writes, then the first
  obtain ⟨m₅, set₁, store₅, at₅⟩ := @Step.run manifestJson longCodec longDecoder "t" "k" m₄ 1 _ _ _
    at₄ (by rw [store₄]; exact stepped₁) (by rw [Allowed, at₄]; exact manifestJson_string "y")
    succeeding₁
  have wait₅ : m₅.programs 0 = _ :=
    (perform_others (by simp [Move.mover]) set₁.1).trans wait₄
  obtain ⟨m₆, set₀, store₆, at₆⟩ := @Step.run manifestJson longCodec longDecoder "t" "k" m₅ 0 _ _ _
    wait₅ (by rw [store₅]; exact stepped₀) (by rw [Allowed, wait₅]; exact manifestJson_string "x")
    succeeding₀
  have done₆ : m₆.programs 1 = _ := (perform_others (by simp [Move.mover]) set₀.1).trans at₅
  have run := (((((Run.nil _).snoc call₀).snoc call₁).snoc peek₀).snoc peek₁).snoc set₁ |>.snoc set₀
  refine ⟨m₆, run, store₆ ▸ cached, ?_⟩
  refine cache_up_to_date manifestJson longCodec longDecoder Store.longDecoder_inverts _ _ stocked
    (show 0 < 100 by decide) (show 0 < 10 by decide) "t" "k" (fun flag => ?_) run fun thread => ?_
  · exact absurd flag (by decide)
  · match thread with
    | 0 => exact at₆ ▸ (isRet_iff first).mp ends₀
    | 1 => exact done₆ ▸ (isRet_iff second).mp ends₁
    | thread + 2 =>
        rw [perform_others (by simp [Move.mover]) set₀.1,
          perform_others (by simp [Move.mover]) set₁.1,
          perform_others (by simp [Move.mover]) peek₁.1,
          perform_others (by simp [Move.mover]) peek₀.1,
          perform_others (by simp [Move.mover]) call₁.1,
          perform_others (by simp [Move.mover]) call₀.1]
        exact ⟨_, rfl⟩

set_option maxRecDepth 100000 in
/-- A large value whose thread puts it into the cache after another thread has written a string:
the cache has the large value, and the table the string. -/
theorem late_put_stays : ∃ m, play (perform manifestJson longCodec longDecoder "t" "k")
      (start (fresh 100 10)) [.call 0 (.set longValue), .run 0, .run 0, .run 0,
        .call 1 (.set (.str "x")), .run 1, .run 1, .run 1, .run 0] = some m ∧
    m.AtRest ∧ ¬ UpToDate manifestJson longDecoder "t" "k" m.store := by
  have outcome : (play (perform manifestJson longCodec longDecoder "t" "k") (start (fresh 100 10))
      [.call 0 (.set longValue), .run 0, .run 0, .run 0, .call 1 (.set (.str "x")), .run 1, .run 1,
        .run 1, .run 0]).map (fun m => ((isRet (m.programs 0), isRet (m.programs 1)),
          (m.store.cached "t" "k").bind manifestJson.dumps,
          flagged overflowFlag (current manifestJson m.store "t" "k"),
          manifestJson.dumps (current manifestJson m.store "t" "k"))) =
      some ((true, true), some longText, false, some [0x22, 0x78, 0x22]) := by
    decide +kernel
  obtain ⟨m, played, seen⟩ := Option.map_eq_some_iff.mp outcome
  simp only [Prod.mk.injEq] at seen
  obtain ⟨⟨first, second⟩, cached, unflagged, held⟩ := seen
  refine ⟨m, played, fun thread => ?_, fun upToDate => ?_⟩
  · match thread with
    | 0 => exact (isRet_iff _).mp first
    | 1 => exact (isRet_iff _).mp second
    | thread + 2 =>
        have others := play_others (thread + 2) (by simp [Move.mover]) played
        rw [others]
        exact ⟨_, rfl⟩
  · obtain ⟨late, known, text⟩ := Option.bind_eq_some_iff.mp cached
    have same : late = current manifestJson m.store "t" "k" := by
      rcases upToDate late known with same | ⟨same, _⟩
      · rw [Dictionary.read, Store.reading_unflagged unflagged] at same
        exact same
      · exact same
    rw [same, held] at text
    exact absurd text (by decide)

end Threads

end CachyDb
