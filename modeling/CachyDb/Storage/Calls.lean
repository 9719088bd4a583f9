import CachyDb.Storage.Room

set_option autoImplicit false

/-! Calls of `set`, `set_many` and `get`, one after the other, and what a `get` leaves in the
cache. -/

namespace CachyDb.Store

open ByteString Router Transition

/-- A call of the router; a deletion sets `None`. -/
inductive Call
  | set (name key : String) (value : Value)
  | setMany (name : String) (records : List (String × Value))
  | get (name key : String)

/-- A call with what it returns or raises: `True` from the writes. -/
inductive Calls (json : Json) (codec : Codec) (decoder : Decoder) (s : Store) :
    Call × Except RouterError Value → Store → Prop
  | set {name key : String} {value : Value} {result : Except RouterError Unit} {t : Store} :
      Sets json codec s name key value result t →
      Calls json codec decoder s (.set name key value, result.map fun _ => .bool true) t
  | setMany {name : String} {records : List (String × Value)} {result : Except RouterError Unit}
      {t : Store} : (records.map Prod.fst).Nodup → SetsMany json s name records result t →
      Calls json codec decoder s (.setMany name records, result.map fun _ => .bool true) t
  | get {name key : String} {result : Except RouterError Value} {t : Store} :
      Reads json decoder s name key result t → Calls json codec decoder s (.get name key, result) t

/-- Nothing has been written, and what is new in the cache is what was written last. -/
structure Kept (json : Json) (tableFiles : String → File) (s t : Store) : Prop where
  newest : ∀ name key, t.newest name key = s.newest name key
  cached : ∀ name key held, t.cached name key = some held →
    s.cached name key = some held ∨ held = s.value json tableFiles name key

section

variable {json : Json} {codec : Codec} {decoder : Decoder} {tableFiles : String → File}
  {s t u : Store} {name key : String}

theorem Still.kept (still : Still s t) : Kept json tableFiles s t :=
  ⟨still.newest, fun name key held known => Or.inl (still.cached name key held known)⟩

theorem Kept.trans (first : Kept json tableFiles s t) (second : Kept json tableFiles t u) :
    Kept json tableFiles s u := by
  constructor
  · intro name key
    rw [second.newest, first.newest]
  · intro name key held known
    rcases second.cached name key held known with before | same
    · exact first.cached name key held before
    · rw [value_congr first.newest] at same
      exact Or.inr same

theorem Kept.value (kept : Kept json tableFiles s t) :
    t.value json tableFiles = s.value json tableFiles := value_congr kept.newest

/-- What a lookup of the key can find. -/
def Findable (json : Json) (tableFiles : String → File) (s : Store) (name key : String)
    (found : Value) : Prop :=
  s.cached name key = some found ∨ found = s.value json tableFiles name key

theorem Steady.finds_kept (steady : s.Steady json tableFiles)
    (stocked : ∀ name, Stocked json (tableFiles name)) {result : Except RouterError Value}
    (finds : Finds json s name key result t) :
    t.Steady json tableFiles ∧ Kept json tableFiles s t ∧
      ∃ found, Findable json tableFiles s name key found ∧ result = .ok found := by
  have caches : s.Caches name key {found | Findable json tableFiles s name key found} :=
    fun _ known => Or.inl known
  obtain ⟨steady', newest, within, cached, found, findable, same⟩ :=
    steady.finds stocked caches (Or.inr rfl) finds
  refine ⟨steady', ⟨newest, fun other otherKey held known => ?_⟩, found, findable, same⟩
  by_cases here : other = name ∧ otherKey = key
  · obtain ⟨rfl, rfl⟩ := here
    exact cached held known
  · exact Or.inl (within.cached other otherKey held here known)

theorem Steady.collects_kept (steady : s.Steady json tableFiles)
    (stocked : ∀ name, Stocked json (tableFiles name)) {indices : List Nat}
    {result : Option (List Bytes)} (collects : Collects json decoder name key s indices result t) :
    t.Steady json tableFiles ∧ Kept json tableFiles s t := by
  induction collects with
  | nil s => exact ⟨steady, (Still.refl s).kept⟩
  | raised finds =>
      obtain ⟨steady', kept, _⟩ := steady.finds_kept stocked finds
      exact ⟨steady', kept⟩
  | undecoded finds _ =>
      obtain ⟨steady', kept, _⟩ := steady.finds_kept stocked finds
      exact ⟨steady', kept⟩
  | next finds _ _ ih =>
      obtain ⟨steady', kept, _⟩ := steady.finds_kept stocked finds
      obtain ⟨steady'', later⟩ := ih steady'
      exact ⟨steady'', kept.trans later⟩

theorem Steady.recalled (steady : s.Steady json tableFiles)
    (stocked : ∀ name, Stocked json (tableFiles name)) (name : String) {key : String}
    (plain : isChunkKey key = false) (value : Value) :
    (s.recalled name key value).Steady json tableFiles := by
  have step : TurnStep json s (.putCache name key value) (s.recalled name key value) := by
    refine ⟨fun chunk => ?_, rfl⟩
    rw [plain] at chunk
    cases chunk
  exact ⟨steady.regular.turn stocked step, fun client => steady.idle client⟩

/-- After a read the cache has what was written, or the value that the read has put together. -/
theorem Steady.reads_kept (steady : s.Steady json tableFiles)
    (stocked : ∀ name, Stocked json (tableFiles name))
    (straight : isChunkKey key = true → ∀ found, Findable json tableFiles s name key found →
      flagged overflowFlag found = false)
    {result : Except RouterError Value} (reads : Reads json decoder s name key result t) :
    t.Steady json tableFiles ∧ (∀ name key, t.newest name key = s.newest name key) ∧
      ∀ other otherKey held, t.cached other otherKey = some held →
        Findable json tableFiles s other otherKey held ∨
          (other = name ∧ otherKey = key ∧ result = .ok held ∧
            ∃ found, Findable json tableFiles s name key found ∧ flagged overflowFlag found = true) := by
  have simply {v : Store} (both : v.Steady json tableFiles ∧ Kept json tableFiles s v) :
      v.Steady json tableFiles ∧ (∀ name key, v.newest name key = s.newest name key) ∧
        ∀ other otherKey held, v.cached other otherKey = some held →
          Findable json tableFiles s other otherKey held ∨
            (other = name ∧ otherKey = key ∧ result = .ok held ∧ ∃ found,
              Findable json tableFiles s name key found ∧ flagged overflowFlag found = true) :=
    ⟨both.1, both.2.newest, fun other otherKey held known =>
      Or.inl (both.2.cached other otherKey held known)⟩
  have found {v : Store} {outcome : Except RouterError Value} (finds : Finds json s name key outcome v) :
      v.Steady json tableFiles ∧ Kept json tableFiles s v := by
    obtain ⟨steady', kept, _⟩ := steady.finds_kept stocked finds
    exact ⟨steady', kept⟩
  have collected {v w : Store} {outcome : Except RouterError Value} {indices : List Nat}
      {chunks : Option (List Bytes)} (finds : Finds json s name key outcome v)
      (collects : Collects json decoder name key v indices chunks w) :
      w.Steady json tableFiles ∧ Kept json tableFiles s w := by
    obtain ⟨steady₁, kept₁⟩ := found finds
    obtain ⟨steady₂, kept₂⟩ := steady₁.collects_kept stocked collects
    exact ⟨steady₂, kept₁.trans kept₂⟩
  cases reads with
  | unnamed _ => exact simply ⟨steady, (Still.refl s).kept⟩
  | raised _ finds => exact simply (found finds)
  | plain _ finds _ => exact simply (found finds)
  | malformed _ finds _ _ => exact simply (found finds)
  | incomplete _ finds _ _ collects => exact simply (collected finds collects)
  | broken _ finds _ _ collects _ => exact simply (collected finds collects)
  | @whole _ _ v value original _ _ _ finds flag _ collects _ waits =>
      obtain ⟨_, _, _, findable, same⟩ := steady.finds_kept stocked finds
      cases same
      obtain ⟨steady₂, kept₂⟩ := collected finds collects
      have steady₃ := steady₂.waits stocked waits
      have kept₃ := kept₂.trans (steady₂.calm.waits waits).2.kept
      have plain : isChunkKey key = false := by
        by_contra chunk
        rw [straight (by simpa using chunk) _ findable] at flag
        cases flag
      obtain ⟨stored, alike⟩ := recalled_alike steady₃.calm.sound.cache name key original
      refine ⟨steady₃.recalled stocked name plain original, fun other otherKey => ?_,
        fun other otherKey held known => ?_⟩
      · exact (alike.newest other otherKey).trans (kept₃.newest other otherKey)
      · rcases recalled_cached steady₃.calm.sound.cache steady₃.calm.room name key original known with
          ⟨⟨rfl, rfl⟩, rfl⟩ | ⟨_, before⟩
        · rw [stored]
          exact Or.inr ⟨rfl, rfl, rfl, value, findable, flag⟩
        · exact Or.inl (kept₃.cached other otherKey held before)

end

end CachyDb.Store
