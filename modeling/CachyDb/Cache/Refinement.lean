import CachyDb.Cache.Lfu
import CachyDb.Lib.Lfu

set_option autoImplicit false

/-! The cache against the policy that it implements. `invalidate` may leave `minFreq` behind,
but then there is room until the next new key sets it again. -/

namespace CachyDb.Cache

open Lfu Transition

variable {Key Value : Type} [DecidableEq Key]

/-- One call, with what a lookup answers. -/
def perform (c : Cache Key Value) : Op Key Value → Option (Option Value × Cache Key Value)
  | .get key => c.get key
  | .put key value => (c.put key value).map fun stored => (none, stored)
  | .invalidate key => (c.invalidate key).map fun rest => (none, rest)
  | .clear => some (none, c.clear)

/-- The dictionaries and the groups describe the same keys. -/
structure Partitioned (c : Cache Key Value) : Prop where
  counted : ∀ key, (c.cache.lookup key).isSome ↔ (c.frequencies.lookup key).isSome
  grouped : ∀ key freq, key ∈ c.freqGroups freq ↔ c.frequencies.lookup key = some freq
  distinct : ∀ freq, (c.freqGroups freq).Nodup

/-- Values, counts and the order within the groups are those of the state. -/
structure Represents (c : Cache Key Value) (s : Lfu.State Key Value) : Prop where
  value : ∀ key, c.cache.lookup key = (s.held key).map Held.value
  uses : ∀ key, c.frequencies.lookup key = (s.held key).map Held.uses
  grouped : ∀ key freq, key ∈ c.freqGroups freq ↔ c.frequencies.lookup key = some freq
  oldest : ∀ freq, (c.freqGroups freq).Pairwise s.Older
  used : ∀ key held, s.held key = some held → 1 ≤ held.uses
  recent : ∀ key held, s.held key = some held → held.touched < s.clock

/-- `minFreq` is the least count of a key, and its group has a key. -/
structure Accurate (c : Cache Key Value) : Prop where
  least : ∀ key freq, c.frequencies.lookup key = some freq → c.minFreq ≤ freq
  nonempty : c.freqGroups c.minFreq ≠ []

/-- A cache within its capacity, whose `minFreq` can be relied on when it is full. -/
structure Bounded (c : Cache Key Value) (capacity : Nat) : Prop where
  limit : c.capacity = capacity
  size : c.cache.keys.length ≤ capacity
  full : c.cache.keys.length = capacity → c.Accurate

section

variable {c : Cache Key Value} {s : Lfu.State Key Value} {key : Key} {held : Held Value}

theorem Represents.mem (rep : c.Represents s) {freq : Nat} :
    key ∈ c.freqGroups freq ↔ ∃ held, s.held key = some held ∧ held.uses = freq := by
  simp [rep.grouped, rep.uses]

theorem Represents.distinct (rep : c.Represents s) (freq : Nat) : (c.freqGroups freq).Nodup := by
  apply (rep.oldest freq).imp_of_mem
  rintro a b inside _ older rfl
  obtain ⟨held, found, _⟩ := rep.mem.mp inside
  exact Nat.lt_irrefl _ (older held held found found)

theorem Represents.partitioned (rep : c.Represents s) : c.Partitioned :=
  ⟨fun key => by simp [rep.value, rep.uses], rep.grouped, rep.distinct⟩

theorem Represents.size (rep : c.Represents s) : s.size = c.cache.keys.length := by
  have keys : {key | s.held key ≠ none} = (c.cache.keys.toFinset : Set Key) := by
    ext key
    have known : key ∈ c.cache.keys ↔ (c.cache.lookup key).isSome :=
      AList.mem_keys.symm.trans AList.lookup_isSome.symm
    simp [known, rep.value, Option.ne_none_iff_isSome]
  rw [State.size, keys, Set.ncard_coe_finset, List.toFinset_card_of_nodup c.cache.keys_nodup]

/-- Keys that are left alone keep their order. -/
theorem Represents.order (rep : c.Represents s) {t : Lfu.State Key Value} {freq : Nat}
    {group : List Key} (part : group.Sublist (c.freqGroups freq))
    (same : ∀ other ∈ group, t.held other = s.held other) : group.Pairwise t.Older := by
  apply ((rep.oldest freq).sublist part).imp_of_mem
  intro a b first second older
  unfold State.Older
  rw [same a first, same b second]
  exact older

/-- A key that is used goes to the end of the next group. -/
theorem Represents.moveUp (rep : c.Represents s) (found : s.held key = some held) (value : Value)
    {cache : AList fun _ : Key => Value}
    (stored : ∀ other, cache.lookup other = if other = key then some value else c.cache.lookup other) :
    ({ c with cache := cache }.moveUp key held.uses).Represents
      (s.assign key ⟨value, held.uses + 1, s.clock⟩) := by
  have known : c.frequencies.lookup key = some held.uses := by simp [rep.uses, found]
  have grouped := @moveUp_grouped _ _ _ { c with cache := cache } key held.uses rep.grouped
    rep.distinct known
  constructor
  · intro other
    show cache.lookup other = _
    by_cases same : other = key
    · simp [stored, same]
    · simp [stored, same, rep.value]
  · intro other
    by_cases same : other = key
    · subst same
      simp [Cache.moveUp]
    · simp [Cache.moveUp, same, rep.uses]
  · exact grouped
  · intro freq
    have others {group : List Key} (outside : key ∉ group) :
        ∀ other ∈ group, (s.assign key ⟨value, held.uses + 1, s.clock⟩).held other = s.held other := by
      intro other inside
      have different : other ≠ key := ne_of_mem_of_not_mem inside outside
      simp [different]
    have absent (f : Nat) (other : f ≠ held.uses) : key ∉ c.freqGroups f := by
      rw [rep.grouped, known, Option.some.injEq]
      omega
    simp only [Cache.moveUp, setGroup]
    by_cases next : freq = held.uses + 1
    · have outside := absent (held.uses + 1) (by omega)
      simp only [next, ↓reduceIte, Nat.succ_ne_self, addKey, outside]
      rw [List.pairwise_append]
      refine ⟨rep.order (List.Sublist.refl _) (others outside), List.pairwise_singleton _ _, ?_⟩
      intro other inside last single first second before after
      obtain rfl := List.mem_singleton.mp single
      rw [others outside other inside] at before
      rw [State.assign_self, Option.some.injEq] at after
      have earlier := rep.recent other first before
      simpa [← after] using earlier
    · by_cases here : freq = held.uses
      · simp only [here, ↓reduceIte, Nat.left_eq_add]
        apply rep.order List.erase_sublist
        apply others
        simp [(rep.distinct held.uses).mem_erase_iff]
      · simp only [next, here, ↓reduceIte]
        exact rep.order (List.Sublist.refl _) (others (absent freq here))
  · intro other new there
    by_cases same : other = key
    · subst same
      rw [State.assign_self, Option.some.injEq] at there
      simp [← there]
    · rw [State.assign_ne _ _ same] at there
      exact rep.used other new there
  · intro other new there
    by_cases same : other = key
    · subst same
      rw [State.assign_self, Option.some.injEq] at there
      simp [← there]
    · rw [State.assign_ne _ _ same] at there
      have earlier := rep.recent other new there
      simp
      omega

/-- The least count goes up with the last key that has it. -/
theorem Accurate.moveUp (accurate : c.Accurate) (rep : c.Represents s)
    (found : s.held key = some held) (cache : AList fun _ : Key => Value) :
    ({ c with cache := cache }.moveUp key held.uses).Accurate := by
  have known : c.frequencies.lookup key = some held.uses := by simp [rep.uses, found]
  have least := accurate.least key held.uses known
  constructor
  · intro other freq there
    simp only [Cache.moveUp, setGroup, ↓reduceIte] at there ⊢
    by_cases same : other = key
    · rw [same, AList.lookup_insert, Option.some.injEq] at there
      split
      · omega
      · omega
    · rw [AList.lookup_insert_ne same] at there
      have before := accurate.least other freq there
      split
      · rename_i emptied
        have gone : freq ≠ held.uses := by
          rintro rfl
          have inside := (List.mem_erase_of_ne same).mpr ((rep.grouped other held.uses).mpr there)
          rw [emptied.1] at inside
          cases inside
        omega
      · exact before
  · simp only [Cache.moveUp, setGroup, ↓reduceIte]
    split
    · rename_i emptied
      rw [if_pos (by omega)]
      exact List.ne_nil_of_mem (mem_addKey.mpr (Or.inl rfl))
    · rename_i kept
      split
      · exact List.ne_nil_of_mem (mem_addKey.mpr (Or.inl rfl))
      · split
        · rename_i here
          exact fun none => kept ⟨none, here⟩
        · exact accurate.nonempty

/-- A new key starts at the end of the first group. -/
theorem Represents.insert (rep : c.Represents s) (absent : s.held key = none) (value : Value) :
    Represents { c with
      cache := c.cache.insert key value
      frequencies := c.frequencies.insert key 1
      freqGroups := setGroup c.freqGroups 1 (addKey key (c.freqGroups 1))
      minFreq := 1 } (s.assign key ⟨value, 1, s.clock⟩) := by
  have missing : c.cache.lookup key = none := by simp [rep.value, absent]
  have formed := insert_new value missing rep.partitioned.counted rep.grouped rep.distinct
  have others {group : List Key} (outside : key ∉ group) :
      ∀ other ∈ group, (s.assign key ⟨value, 1, s.clock⟩).held other = s.held other := by
    intro other inside
    have different : other ≠ key := ne_of_mem_of_not_mem inside outside
    simp [different]
  have outside (freq : Nat) : key ∉ c.freqGroups freq := by simp [rep.mem, absent]
  constructor
  · intro other
    by_cases same : other = key
    · subst same
      simp
    · simp [same, rep.value]
  · intro other
    by_cases same : other = key
    · subst same
      simp
    · simp [same, rep.uses]
  · exact formed.grouped
  · intro freq
    simp only [setGroup]
    by_cases first : freq = 1
    · simp only [first, ↓reduceIte, addKey, outside]
      rw [List.pairwise_append]
      refine ⟨rep.order (List.Sublist.refl _) (others (outside 1)), List.pairwise_singleton _ _, ?_⟩
      intro other inside last single before after earlier later
      obtain rfl := List.mem_singleton.mp single
      rw [others (outside 1) other inside] at earlier
      rw [State.assign_self, Option.some.injEq] at later
      have touched := rep.recent other before earlier
      simpa [← later] using touched
    · simp only [first, ↓reduceIte]
      exact rep.order (List.Sublist.refl _) (others (outside freq))
  · intro other new there
    by_cases same : other = key
    · subst same
      rw [State.assign_self, Option.some.injEq] at there
      simp [← there]
    · rw [State.assign_ne _ _ same] at there
      exact rep.used other new there
  · intro other new there
    by_cases same : other = key
    · subst same
      rw [State.assign_self, Option.some.injEq] at there
      simp [← there]
    · rw [State.assign_ne _ _ same] at there
      have earlier := rep.recent other new there
      simp
      omega

/-- A key leaves its group. -/
theorem Represents.remove (rep : c.Represents s) (found : s.held key = some held) :
    Represents { c with
      cache := c.cache.erase key
      frequencies := c.frequencies.erase key
      freqGroups := setGroup c.freqGroups held.uses ((c.freqGroups held.uses).erase key) }
      (s.remove key) := by
  have known : c.frequencies.lookup key = some held.uses := by simp [rep.uses, found]
  have others {group : List Key} (outside : key ∉ group) :
      ∀ other ∈ group, (s.remove key).held other = s.held other := by
    intro other inside
    have different : other ≠ key := ne_of_mem_of_not_mem inside outside
    simp [different]
  constructor
  · intro other
    by_cases same : other = key
    · subst same
      simp
    · simp [same, rep.value]
  · intro other
    by_cases same : other = key
    · subst same
      simp
    · simp [same, rep.uses]
  · intro other freq
    simp only [setGroup]
    by_cases same : other = key
    · subst same
      by_cases here : freq = held.uses
      · simp [here, (rep.distinct held.uses).mem_erase_iff]
      · simp only [here, ↓reduceIte, rep.grouped, known, Option.some.injEq, AList.lookup_erase]
        simp [Ne.symm here]
    · by_cases here : freq = held.uses
      · simp [here, same, List.mem_erase_of_ne same, rep.grouped]
      · simp [here, same, rep.grouped]
  · intro freq
    simp only [setGroup]
    by_cases here : freq = held.uses
    · simp only [here, ↓reduceIte]
      apply rep.order List.erase_sublist
      apply others
      simp [(rep.distinct held.uses).mem_erase_iff]
    · simp only [here, ↓reduceIte]
      apply rep.order (List.Sublist.refl _)
      apply others
      rw [rep.grouped, known, Option.some.injEq]
      omega
  · intro other new there
    by_cases same : other = key
    · simp [same] at there
    · rw [State.remove_ne _ same] at there
      exact rep.used other new there
  · intro other new there
    by_cases same : other = key
    · simp [same] at there
    · rw [State.remove_ne _ same] at there
      exact rep.recent other new there

variable {capacity : Nat}

theorem Represents.present (rep : c.Represents s) (found : s.held key = some held) :
    key ∈ c.cache.keys := by
  rw [← AList.mem_keys, ← AList.lookup_isSome, rep.value, found]
  rfl

theorem Represents.missing (rep : c.Represents s) (absent : s.held key = none) :
    key ∉ c.cache.keys := by
  rw [← AList.mem_keys, ← AList.lookup_eq_none, rep.value, absent]
  rfl

/-- The count of a key that is there can be raised. -/
theorem Represents.countAccess (rep : c.Represents s) (found : s.held key = some held)
    (cache : AList fun _ : Key => Value) :
    ({ c with cache := cache } : Cache Key Value).countAccess key =
      some ({ c with cache := cache }.moveUp key held.uses) := by
  have known : c.frequencies.lookup key = some held.uses := by simp [rep.uses, found]
  have inside : key ∈ c.freqGroups held.uses := (rep.grouped key held.uses).mpr known
  simp [Cache.countAccess, known, inside]

theorem Represents.get (rep : c.Represents s) (bounded : c.Bounded capacity) (key : Key) :
    ∃ answer c' t, c.get key = some (answer, c') ∧ Step capacity s ⟨.get key, answer, none⟩ t ∧
      c'.Represents t ∧ c'.Bounded capacity := by
  cases found : s.held key with
  | none =>
      have missing : c.cache.lookup key = none := by simp [rep.value, found]
      exact ⟨none, c, s, by simp [Cache.get, missing], .miss found, rep, bounded⟩
  | some held =>
      have there : c.cache.lookup key = some held.value := by simp [rep.value, found]
      have stored : ∀ other, c.cache.lookup other =
          if other = key then some held.value else c.cache.lookup other := by
        intro other
        by_cases same : other = key
        · subst same
          simp [there]
        · simp [same]
      have moved := rep.moveUp found held.value stored
      refine ⟨_, _, _, ?_, .hit found, moved, bounded.limit, bounded.size, fun full => ?_⟩
      · have counted := rep.countAccess found c.cache
        simp only [Cache.get, there]
        rw [counted]
      · exact (bounded.full full).moveUp rep found c.cache

/-- A value for a key that is there takes the place of the old one. -/
theorem Represents.update (rep : c.Represents s) (bounded : c.Bounded capacity)
    (room : 0 < capacity) (found : s.held key = some held) (value : Value) :
    ∃ c', c.put key value = some c' ∧
      c'.Represents (s.assign key ⟨value, held.uses + 1, s.clock⟩) ∧ c'.Bounded capacity := by
  have there : (c.cache.lookup key).isSome := by simp [rep.value, found]
  have nonzero : c.capacity ≠ 0 := by
    have limit := bounded.limit
    omega
  have stored : ∀ other, (c.cache.insert key value).lookup other =
      if other = key then some value else c.cache.lookup other := by
    intro other
    by_cases same : other = key
    · subst same
      simp
    · simp [same]
  have moved := rep.moveUp found value stored
  have size : (c.cache.insert key value).keys.length = c.cache.keys.length := by
    have inside := rep.present found
    rw [AList.keys_insert, List.length_cons, List.length_erase_of_mem inside]
    have positive := List.length_pos_of_mem inside
    omega
  refine ⟨_, ?_, moved, bounded.limit, ?_, fun full => ?_⟩
  · have counted := rep.countAccess found (c.cache.insert key value)
    rw [Cache.put, if_neg nonzero, if_pos there, counted]
  · show (c.cache.insert key value).keys.length ≤ capacity
    rw [size]
    exact bounded.size
  · exact (bounded.full (size ▸ full)).moveUp rep found _

/-- The first key of the least group is the one to evict. -/
theorem Represents.evict (rep : c.Represents s) (accurate : c.Accurate) :
    ∃ victim held, s.held victim = some held ∧ s.Victim victim ∧
      c.evict = some { c with
        cache := c.cache.erase victim
        frequencies := c.frequencies.erase victim
        freqGroups := setGroup c.freqGroups held.uses ((c.freqGroups held.uses).erase victim) } := by
  obtain ⟨victim, rest, oldest⟩ := List.exists_cons_of_ne_nil accurate.nonempty
  obtain ⟨held, found, uses⟩ := rep.mem.mp (oldest ▸ List.mem_cons_self : victim ∈ c.freqGroups c.minFreq)
  have inCache : (c.cache.lookup victim).isSome := by simp [rep.value, found]
  have inFrequencies : (c.frequencies.lookup victim).isSome := by simp [rep.uses, found]
  refine ⟨victim, held, found, ⟨held, found, fun other new there different => ?_⟩, ?_⟩
  · have known : c.frequencies.lookup other = some new.uses := by simp [rep.uses, there]
    have least := accurate.least other new.uses known
    by_cases more : held.uses < new.uses
    · exact Or.inl more
    · have inside : other ∈ c.freqGroups c.minFreq :=
        rep.mem.mpr ⟨new, there, by omega⟩
      have order := rep.oldest c.minFreq
      rw [oldest] at inside order
      have later := (List.mem_cons.mp inside).resolve_left different
      exact Or.inr ⟨by omega, (List.pairwise_cons.mp order).1 other later held new found there⟩
  · simp only [Cache.evict, oldest, inCache, inFrequencies, and_self, ↓reduceIte]
    rw [uses, oldest, List.erase_cons_head]

/-- A new key takes a free place, or the place of the key that is evicted. -/
theorem Represents.store (rep : c.Represents s) (bounded : c.Bounded capacity)
    (room : 0 < capacity) (absent : s.held key = none) (value : Value) :
    ∃ evicted c' t, c.put key value = some c' ∧ Step capacity s ⟨.put key value, none, evicted⟩ t ∧
      c'.Represents t ∧ c'.Bounded capacity := by
  have missing : ¬ (c.cache.lookup key).isSome := by simp [rep.value, absent]
  have limit := bounded.limit
  have size := bounded.size
  have accurate (cache : AList fun _ : Key => Value) (frequencies : AList fun _ : Key => Nat)
      (groups : Nat → List Key) {t : Lfu.State Key Value}
      (rep' : Represents ⟨c.capacity, cache, frequencies, setGroup groups 1 (addKey key (groups 1)), 1⟩ t) :
      Accurate ⟨c.capacity, cache, frequencies, setGroup groups 1 (addKey key (groups 1)), 1⟩ := by
    constructor
    · intro other freq known
      rw [rep'.uses] at known
      obtain ⟨held, there, rfl⟩ := Option.map_eq_some_iff.mp known
      exact rep'.used other held there
    · simp only [setGroup, ↓reduceIte]
      exact List.ne_nil_of_mem (mem_addKey.mpr (Or.inl rfl))
  by_cases full : c.cache.keys.length ≥ c.capacity
  · obtain ⟨victim, held, found, least, evicts⟩ := rep.evict (bounded.full (by omega))
    have removed := rep.remove found
    have different : key ≠ victim := by
      rintro rfl
      rw [absent] at found
      cases found
    have gone : (s.remove victim).held key = none := by simp [different, absent]
    have stored := removed.insert gone value
    have erased := removed.missing gone
    refine ⟨some victim, _, _, ?_,
      .replace absent (by rw [rep.size]; omega) least, stored, limit, ?_, fun _ => accurate _ _ _ stored⟩
    · simp only [Cache.put, missing, full, evicts, ↓reduceIte]
      rw [if_neg (by omega)]
      rfl
    · have inside := rep.present found
      show ((c.cache.erase victim).insert key value).keys.length ≤ capacity
      rw [AList.keys_insert, List.length_cons, List.erase_of_not_mem erased, AList.keys_erase,
        List.length_erase_of_mem inside]
      omega
  · have stored := rep.insert absent value
    refine ⟨none, _, _, ?_, .insert absent (by rw [rep.size]; omega), stored, limit, ?_,
      fun _ => accurate _ _ _ stored⟩
    · simp only [Cache.put, missing, full, ↓reduceIte]
      rw [if_neg (by omega)]
      rfl
    · show (c.cache.insert key value).keys.length ≤ capacity
      rw [AList.keys_insert, List.length_cons, List.erase_of_not_mem (rep.missing absent)]
      omega

theorem Represents.invalidate (rep : c.Represents s) (bounded : c.Bounded capacity) (key : Key) :
    ∃ c', c.invalidate key = some c' ∧ c'.Represents (s.remove key) ∧ c'.Bounded capacity := by
  cases found : s.held key with
  | none =>
      have missing : c.cache.lookup key = none := by simp [rep.value, found]
      have same : s.remove key = s := by
        unfold State.remove
        rw [← found, Function.update_eq_self]
      rw [same]
      exact ⟨c, by simp [Cache.invalidate, missing], rep, bounded⟩
  | some held =>
      have there : (c.cache.lookup key).isSome := by simp [rep.value, found]
      have known : c.frequencies.lookup key = some held.uses := by simp [rep.uses, found]
      have inside : key ∈ c.freqGroups held.uses := (rep.grouped key held.uses).mpr known
      have size : (c.cache.erase key).keys.length < c.cache.keys.length := by
        have present := rep.present found
        have positive := List.length_pos_of_mem present
        rw [AList.keys_erase, List.length_erase_of_mem present]
        omega
      have before := bounded.size
      refine ⟨_, ?_, rep.remove found, bounded.limit, ?_, fun full => ?_⟩
      · simp [Cache.invalidate, there, known, inside]
      · show (c.cache.erase key).keys.length ≤ capacity
        omega
      · have full : (c.cache.erase key).keys.length = capacity := full
        omega

theorem init_represents (capacity clock : Nat) :
    (init capacity : Cache Key Value).Represents ⟨fun _ => none, clock⟩ := by
  constructor
  · exact fun _ => rfl
  · exact fun _ => rfl
  · intro key freq
    simp [init]
  · exact fun _ => List.Pairwise.nil
  · exact fun key held there => by cases there
  · exact fun key held there => by cases there

theorem init_bounded (room : 0 < capacity) : (init capacity : Cache Key Value).Bounded capacity := by
  refine ⟨rfl, Nat.zero_le _, fun full => ?_⟩
  have empty : (0 : Nat) = capacity := full
  omega

theorem Represents.perform (rep : c.Represents s) (bounded : c.Bounded capacity)
    (room : 0 < capacity) (op : Op Key Value) :
    ∃ answer evicted c' t, c.perform op = some (answer, c') ∧ Step capacity s ⟨op, answer, evicted⟩ t ∧
      c'.Represents t ∧ c'.Bounded capacity := by
  cases op with
  | get key =>
      obtain ⟨answer, c', t, done, step, rep', bounded'⟩ := rep.get bounded key
      exact ⟨answer, none, c', t, done, step, rep', bounded'⟩
  | put key value =>
      cases found : s.held key with
      | none =>
          obtain ⟨evicted, c', t, done, step, rep', bounded'⟩ := rep.store bounded room found value
          exact ⟨none, evicted, c', t, by simp [Cache.perform, done], step, rep', bounded'⟩
      | some held =>
          obtain ⟨c', done, rep', bounded'⟩ := rep.update bounded room found value
          exact ⟨none, none, c', _, by simp [Cache.perform, done], .update found, rep', bounded'⟩
  | invalidate key =>
      obtain ⟨c', done, rep', bounded'⟩ := rep.invalidate bounded key
      exact ⟨none, none, c', _, by simp [Cache.perform, done], .invalidate, rep', bounded'⟩
  | clear =>
      have bounded' : c.clear.Bounded capacity := by
        rw [Cache.clear, bounded.limit]
        exact init_bounded room
      exact ⟨none, none, c.clear, _, rfl, .clear, init_represents c.capacity s.clock, bounded'⟩

end

/-- A call of the cache beside a call of the policy. -/
structure Lockstep (capacity : Nat) (before : Cache Key Value × Lfu.State Key Value)
    (e : Event Key Value) (after : Cache Key Value × Lfu.State Key Value) : Prop where
  performed : before.1.perform e.op = some (e.answer, after.1)
  allowed : Step capacity before.2 e after.2
  represents : after.1.Represents after.2
  partitioned : after.1.Partitioned
  size : after.1.cache.keys.length ≤ capacity

theorem Represents.run {c : Cache Key Value} {s : Lfu.State Key Value} {capacity : Nat}
    (rep : c.Represents s) (bounded : c.Bounded capacity) (room : 0 < capacity)
    (ops : List (Op Key Value)) :
    ∃ events c' t, events.map Event.op = ops ∧ Run (Lockstep capacity) (c, s) events (c', t) ∧
      c'.Represents t := by
  induction ops generalizing c s with
  | nil => exact ⟨[], c, s, rfl, Run.nil _, rep⟩
  | cons op rest ih =>
      obtain ⟨answer, evicted, c₁, s₁, done, step, rep₁, bounded₁⟩ := rep.perform bounded room op
      obtain ⟨events, c₂, s₂, ops, run, rep₂⟩ := ih rep₁ bounded₁
      have first : Lockstep capacity (c, s) ⟨op, answer, evicted⟩ (c₁, s₁) :=
        ⟨done, step, rep₁, rep₁.partitioned, bounded₁.size⟩
      exact ⟨⟨op, answer, evicted⟩ :: events, c₂, s₂, by simp [ops], Run.cons first run, rep₂⟩

/-- No call fails. After each the dictionaries and groups agree, the size is bounded, and the
cache is one that the policy allows; what it has under a key is what was put there last. -/
theorem cache_refines_policy {capacity : Nat} (room : 1 ≤ capacity) (ops : List (Op Key Value)) :
    ∃ events c s, events.map Event.op = ops ∧
      Run (Lockstep capacity) (init capacity, State.empty) events (c, s) ∧
      ∀ key, c.cache.lookup key = lastPut events key := by
  obtain ⟨events, c, s, same, run, rep⟩ :=
    (init_represents capacity 0).run (init_bounded room) room ops
  refine ⟨events, c, s, same, run, fun key => ?_⟩
  have policy := run.map Prod.snd fun _ _ _ step => step.allowed
  rw [rep.value, held_lastPut policy]

theorem cache_refines_policy_of_two :
    ∃ events c s, events.map Event.op =
        [.put 1 10, .invalidate 1, .put 2 20, .get 2, .put 3 30, .put 4 40] ∧
      Run (Lockstep 2) ((init 2 : Cache Nat Nat), State.empty) events (c, s) ∧
      ∀ key, c.cache.lookup key = lastPut events key :=
  cache_refines_policy (by decide) _

end CachyDb.Cache
