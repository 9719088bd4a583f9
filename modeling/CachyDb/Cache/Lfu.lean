import Mathlib.Data.List.AList

set_option autoImplicit false

/-! The LFU cache: a map, the access count of each key, and for each count the keys
that have it, oldest first. A lookup that the source does without a check raises when
the key is missing. -/

namespace CachyDb

/-- `freqGroups` is a `defaultdict(OrderedDict)`: every count has a group. -/
structure Cache (Key Value : Type) [DecidableEq Key] where
  capacity : Nat
  cache : AList (fun _ : Key => Value)
  frequencies : AList (fun _ : Key => Nat)
  freqGroups : Nat → List Key
  minFreq : Nat

namespace Cache

variable {Key Value : Type} [DecidableEq Key]

def init (capacity : Nat) : Cache Key Value := ⟨capacity, ∅, ∅, fun _ => [], 0⟩

/-- `ordered[key] = None`: a key that is there keeps its place. -/
def addKey (key : Key) (ordered : List Key) : List Key :=
  if key ∈ ordered then ordered else ordered ++ [key]

def setGroup (groups : Nat → List Key) (freq : Nat) (group : List Key) : Nat → List Key :=
  fun f => if f = freq then group else groups f

/-- The key leaves the group of its count for the next one. -/
def moveUp (c : Cache Key Value) (key : Key) (freq : Nat) : Cache Key Value :=
  let removed := setGroup c.freqGroups freq ((c.freqGroups freq).erase key)
  { c with
    frequencies := c.frequencies.insert key (freq + 1)
    freqGroups := setGroup removed (freq + 1) (addKey key (removed (freq + 1)))
    minFreq := if removed freq = [] ∧ c.minFreq = freq then c.minFreq + 1 else c.minFreq }

/-- What `get` and `put` do for a key that is there. -/
def countAccess (c : Cache Key Value) (key : Key) : Option (Cache Key Value) :=
  match c.frequencies.lookup key with
  | none => none
  | some freq => if key ∈ c.freqGroups freq then some (c.moveUp key freq) else none

def get (c : Cache Key Value) (key : Key) : Option (Option Value × Cache Key Value) :=
  match c.cache.lookup key with
  | none => some (none, c)
  | some value =>
      match c.countAccess key with
      | none => none
      | some counted => some (some value, counted)

/-- The eviction of `put`: the oldest key of the least count. -/
def evict (c : Cache Key Value) : Option (Cache Key Value) :=
  match c.freqGroups c.minFreq with
  | [] => none
  | key :: rest =>
      if (c.cache.lookup key).isSome ∧ (c.frequencies.lookup key).isSome then
        some { c with
          cache := c.cache.erase key
          frequencies := c.frequencies.erase key
          freqGroups := setGroup c.freqGroups c.minFreq rest }
      else none

def put (c : Cache Key Value) (key : Key) (value : Value) : Option (Cache Key Value) :=
  if c.capacity = 0 then some c
  else if (c.cache.lookup key).isSome then
    { c with cache := c.cache.insert key value }.countAccess key
  else
    let room := if c.cache.keys.length ≥ c.capacity then c.evict else some c
    match room with
    | none => none
    | some c =>
        some { c with
          cache := c.cache.insert key value
          frequencies := c.frequencies.insert key 1
          freqGroups := setGroup c.freqGroups 1 (addKey key (c.freqGroups 1))
          minFreq := 1 }

def invalidate (c : Cache Key Value) (key : Key) : Option (Cache Key Value) :=
  if (c.cache.lookup key).isSome then
    match c.frequencies.lookup key with
    | none => none
    | some freq =>
        if key ∈ c.freqGroups freq then
          some { c with
            cache := c.cache.erase key
            frequencies := c.frequencies.erase key
            freqGroups := setGroup c.freqGroups freq ((c.freqGroups freq).erase key) }
        else none
  else some c

def clear (c : Cache Key Value) : Cache Key Value := init c.capacity

/-- Map, counts and groups describe the same keys, and the least count has a group
to evict from. -/
structure WellFormed (c : Cache Key Value) : Prop where
  counted : ∀ key, (c.cache.lookup key).isSome ↔ (c.frequencies.lookup key).isSome
  grouped : ∀ key freq, key ∈ c.freqGroups freq ↔ c.frequencies.lookup key = some freq
  distinct : ∀ freq, (c.freqGroups freq).Nodup
  least : c.cache.keys ≠ [] → c.freqGroups c.minFreq ≠ []

theorem init_wellFormed (capacity : Nat) : (init capacity : Cache Key Value).WellFormed := by
  refine ⟨fun key => Iff.rfl, ?_, fun _ => List.nodup_nil, fun some => absurd rfl some⟩
  intro key freq
  constructor
  · intro member
    cases member
  · intro found
    cases found

theorem mem_addKey {key other : Key} {ordered : List Key} :
    other ∈ addKey key ordered ↔ other = key ∨ other ∈ ordered := by
  unfold addKey
  split
  · rename_i inside
    constructor
    · exact Or.inr
    · rintro (rfl | member)
      · exact inside
      · exact member
  · rw [List.mem_append, List.mem_singleton, or_comm]

theorem nodup_addKey (key : Key) {ordered : List Key} (distinct : ordered.Nodup) :
    (addKey key ordered).Nodup := by
  unfold addKey
  split
  · exact distinct
  · rename_i outside
    rw [List.nodup_append]
    refine ⟨distinct, List.nodup_singleton key, ?_⟩
    intro left member right single
    rw [List.mem_singleton.mp single]
    rintro rfl
    exact outside member

/-- An access takes the key out of its group and puts it into the next one. -/
theorem moveUp_grouped {c : Cache Key Value} {key : Key} {freq : Nat}
    (grouped : ∀ other f, other ∈ c.freqGroups f ↔ c.frequencies.lookup other = some f)
    (distinct : ∀ f, (c.freqGroups f).Nodup) (known : c.frequencies.lookup key = some freq)
    (other : Key) (f : Nat) :
    other ∈ (c.moveUp key freq).freqGroups f ↔
      (c.moveUp key freq).frequencies.lookup other = some f := by
  simp only [moveUp, setGroup]
  by_cases same : other = key
  · subst same
    rw [AList.lookup_insert, Option.some.injEq]
    by_cases next : f = freq + 1
    · simp [next, mem_addKey]
    · by_cases here : f = freq
      · subst here
        simp [(distinct f).mem_erase_iff]
      · simp only [next, here, ↓reduceIte, grouped, known, Option.some.injEq]
        omega
  · rw [AList.lookup_insert_ne same, ← grouped]
    by_cases next : f = freq + 1
    · subst next
      simp [mem_addKey, same]
    · by_cases here : f = freq
      · subst here
        simp [List.mem_erase_of_ne same]
      · simp [next, here]

/-- An access only moves the key to the next group. -/
theorem WellFormed.countAccess {c : Cache Key Value} (formed : c.WellFormed) {key : Key}
    (present : (c.cache.lookup key).isSome) :
    ∃ counted, c.countAccess key = some counted ∧ counted.WellFormed ∧
      counted.cache = c.cache ∧ counted.capacity = c.capacity := by
  obtain ⟨freq, known⟩ := Option.isSome_iff_exists.mp ((formed.counted key).mp present)
  have inGroup : key ∈ c.freqGroups freq := (formed.grouped key freq).mpr known
  refine ⟨c.moveUp key freq, ?_, ⟨?_, ?_, ?_, ?_⟩, rfl, rfl⟩
  · simp only [Cache.countAccess, known, inGroup, ↓reduceIte]
  · intro other
    simp only [moveUp]
    by_cases same : other = key
    · subst same
      simpa using present
    · rw [AList.lookup_insert_ne same]
      exact formed.counted other
  · exact moveUp_grouped formed.grouped formed.distinct known
  · intro f
    simp only [moveUp, setGroup]
    by_cases next : f = freq + 1
    · subst next
      simpa using nodup_addKey key (formed.distinct (freq + 1))
    · by_cases here : f = freq
      · subst here
        simpa using (formed.distinct f).erase key
      · simpa [next, here] using formed.distinct f
  · intro nonempty
    have least := formed.least nonempty
    simp only [moveUp, setGroup, ↓reduceIte]
    by_cases emptied : (c.freqGroups freq).erase key = [] ∧ c.minFreq = freq
    · rw [if_pos emptied, emptied.2, if_pos rfl]
      apply List.ne_nil_of_mem
      exact mem_addKey.mpr (Or.inl rfl)
    · rw [if_neg emptied]
      by_cases next : c.minFreq = freq + 1
      · rw [if_pos next]
        apply List.ne_nil_of_mem
        exact mem_addKey.mpr (Or.inl rfl)
      · by_cases here : c.minFreq = freq
        · rw [if_neg next, if_pos here]
          exact fun none => emptied ⟨none, here⟩
        · rw [if_neg next, if_neg here]
          exact least

/-- A lookup succeeds, answers from the map, and leaves the map as it is. -/
theorem WellFormed.get {c : Cache Key Value} (formed : c.WellFormed) (key : Key) :
    ∃ counted, c.get key = some (c.cache.lookup key, counted) ∧ counted.WellFormed ∧
      counted.cache = c.cache ∧ counted.capacity = c.capacity := by
  cases known : c.cache.lookup key with
  | none => exact ⟨c, by simp only [Cache.get, known], formed, rfl, rfl⟩
  | some value =>
      have present : (c.cache.lookup key).isSome := by
        rw [known]
        rfl
      obtain ⟨counted, done, formed', same, capacity⟩ := formed.countAccess present
      exact ⟨counted, by simp only [Cache.get, known, done], formed', same, capacity⟩

/-- An eviction takes one key out. -/
theorem WellFormed.evict {c : Cache Key Value} (formed : c.WellFormed)
    (nonempty : c.cache.keys ≠ []) :
    ∃ key room, c.evict = some room ∧ room.cache = c.cache.erase key ∧
      room.capacity = c.capacity ∧
      (∀ other, (room.cache.lookup other).isSome ↔ (room.frequencies.lookup other).isSome) ∧
      (∀ other freq, other ∈ room.freqGroups freq ↔ room.frequencies.lookup other = some freq) ∧
      ∀ freq, (room.freqGroups freq).Nodup := by
  have least := formed.least nonempty
  obtain ⟨key, rest, oldest⟩ := List.exists_cons_of_ne_nil least
  have counted : c.frequencies.lookup key = some c.minFreq := by
    rw [← formed.grouped, oldest]
    exact List.mem_cons_self
  have inFrequencies : (c.frequencies.lookup key).isSome := by
    rw [counted]
    rfl
  have inCache : (c.cache.lookup key).isSome := (formed.counted key).mpr inFrequencies
  have group := formed.distinct c.minFreq
  rw [oldest, List.nodup_cons] at group
  refine ⟨key, { c with
      cache := c.cache.erase key
      frequencies := c.frequencies.erase key
      freqGroups := setGroup c.freqGroups c.minFreq rest }, ?_, rfl, rfl, ?_, ?_, ?_⟩
  · simp only [Cache.evict, oldest, inCache, inFrequencies, and_self, ↓reduceIte]
  · intro other
    by_cases same : other = key
    · subst same
      simp
    · simp only [AList.lookup_erase_ne same]
      exact formed.counted other
  · intro other freq
    simp only [setGroup]
    by_cases same : other = key
    · subst same
      rw [AList.lookup_erase]
      by_cases here : freq = c.minFreq
      · simp [here, group.1]
      · rw [if_neg here, formed.grouped, counted, Option.some.injEq]
        simp [Ne.symm here]
    · rw [AList.lookup_erase_ne same, ← formed.grouped]
      by_cases here : freq = c.minFreq
      · rw [if_pos here, here, oldest, List.mem_cons]
        simp [same]
      · rw [if_neg here]
  · intro freq
    simp only [setGroup]
    by_cases here : freq = c.minFreq
    · rw [if_pos here]
      exact group.2
    · rw [if_neg here]
      exact formed.distinct freq

/-- A new key enters with count one. -/
theorem insert_new {c : Cache Key Value} {key : Key} (value : Value)
    (absent : c.cache.lookup key = none)
    (counted : ∀ other, (c.cache.lookup other).isSome ↔ (c.frequencies.lookup other).isSome)
    (grouped : ∀ other freq, other ∈ c.freqGroups freq ↔ c.frequencies.lookup other = some freq)
    (distinct : ∀ freq, (c.freqGroups freq).Nodup) :
    WellFormed { c with
      cache := c.cache.insert key value
      frequencies := c.frequencies.insert key 1
      freqGroups := setGroup c.freqGroups 1 (addKey key (c.freqGroups 1))
      minFreq := 1 } := by
  have uncounted : c.frequencies.lookup key = none := by
    rw [← Option.not_isSome_iff_eq_none, ← counted, absent]
    exact Bool.false_ne_true
  refine ⟨?_, ?_, ?_, ?_⟩
  · intro other
    by_cases same : other = key
    · subst same
      simp
    · simp only [AList.lookup_insert_ne same]
      exact counted other
  · intro other freq
    simp only [setGroup]
    by_cases same : other = key
    · subst same
      rw [AList.lookup_insert, Option.some.injEq]
      by_cases one : freq = 1
      · simp [one, mem_addKey]
      · rw [if_neg one, grouped, uncounted]
        simp [Ne.symm one]
    · rw [AList.lookup_insert_ne same, ← grouped]
      by_cases one : freq = 1
      · rw [if_pos one, one, mem_addKey]
        simp [same]
      · rw [if_neg one]
  · intro freq
    simp only [setGroup]
    by_cases one : freq = 1
    · rw [if_pos one]
      exact nodup_addKey key (distinct 1)
    · rw [if_neg one]
      exact distinct freq
  · intro _
    simp only [setGroup, ↓reduceIte]
    exact List.ne_nil_of_mem (mem_addKey.mpr (Or.inl rfl))

/-- A stored value is there, and whatever else is there was there before. -/
theorem WellFormed.put {c : Cache Key Value} (formed : c.WellFormed) (key : Key) (value : Value) :
    ∃ stored, c.put key value = some stored ∧ stored.WellFormed ∧ stored.capacity = c.capacity ∧
      ∀ other held, stored.cache.lookup other = some held →
        (other = key ∧ held = value) ∨ (c.cache.lookup other = some held ∧
          (other = key → c.capacity = 0)) := by
  by_cases zero : c.capacity = 0
  · refine ⟨c, by rw [Cache.put, if_pos zero], formed, rfl, ?_⟩
    exact fun other held found => Or.inr ⟨found, fun _ => zero⟩
  · by_cases present : (c.cache.lookup key).isSome
    · have counted : ∀ other, ((c.cache.insert key value).lookup other).isSome ↔
          (c.frequencies.lookup other).isSome := by
        intro other
        by_cases same : other = key
        · subst same
          simpa using (formed.counted other).mp present
        · rw [AList.lookup_insert_ne same]
          exact formed.counted other
      have updated : WellFormed { c with cache := c.cache.insert key value } := by
        refine ⟨counted, formed.grouped, formed.distinct, fun _ => formed.least ?_⟩
        intro none_there
        have member : key ∈ c.cache.keys := AList.mem_keys.mp (AList.lookup_isSome.mp present)
        rw [none_there] at member
        cases member
      obtain ⟨stored, done, formed', same, capacity⟩ :=
        updated.countAccess (by simp : ((c.cache.insert key value).lookup key).isSome)
      refine ⟨stored, by rw [Cache.put, if_neg zero, if_pos present, done], formed', capacity, ?_⟩
      intro other held found
      rw [same] at found
      by_cases here : other = key
      · subst here
        rw [AList.lookup_insert, Option.some.injEq] at found
        exact Or.inl ⟨rfl, found.symm⟩
      · rw [AList.lookup_insert_ne here] at found
        exact Or.inr ⟨found, fun same => absurd same here⟩
    · have absent : c.cache.lookup key = none := Option.not_isSome_iff_eq_none.mp present
      by_cases full : c.cache.keys.length ≥ c.capacity
      · have nonempty : c.cache.keys ≠ [] := by
          apply List.ne_nil_of_length_pos
          omega
        obtain ⟨victim, room, done, cache, capacity, counted, grouped, distinct⟩ :=
          formed.evict nonempty
        have gone : room.cache.lookup key = none := by
          rw [cache]
          by_cases same : key = victim
          · rw [same, AList.lookup_erase]
          · rw [AList.lookup_erase_ne same, absent]
        refine ⟨_, by rw [Cache.put, if_neg zero, if_neg present, if_pos full, done],
          insert_new value gone counted grouped distinct, capacity, ?_⟩
        intro other held found
        by_cases here : other = key
        · subst here
          rw [AList.lookup_insert, Option.some.injEq] at found
          exact Or.inl ⟨rfl, found.symm⟩
        · rw [AList.lookup_insert_ne here, cache] at found
          by_cases same : other = victim
          · rw [same, AList.lookup_erase] at found
            cases found
          · rw [AList.lookup_erase_ne same] at found
            exact Or.inr ⟨found, fun same => absurd same here⟩
      · refine ⟨_, by rw [Cache.put, if_neg zero, if_neg present, if_neg full],
          insert_new value absent formed.counted formed.grouped formed.distinct, rfl, ?_⟩
        intro other held found
        by_cases here : other = key
        · subst here
          rw [AList.lookup_insert, Option.some.injEq] at found
          exact Or.inl ⟨rfl, found.symm⟩
        · rw [AList.lookup_insert_ne here] at found
          exact Or.inr ⟨found, fun same => absurd same here⟩

end Cache

end CachyDb
