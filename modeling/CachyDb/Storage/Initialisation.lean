import CachyDb.Lib.Transition

set_option autoImplicit false

/-! `_get_table_state` step by step. The test without the lock is on the first dictionary that
the initialisation fills, so a table is taken for initialised as soon as that is there. -/

namespace CachyDb

open Transition

/-- The dictionaries that have an entry for each table. -/
inductive Dict
  | activeMemtables
  | immutableMemtables
  | activeTxIds
  | immutableTxIds
  | locks
  | tableHandlers
  | diskIndex
  deriving DecidableEq

/-- The order of the assignments. -/
def Dict.order : List Dict :=
  [.activeMemtables, .immutableMemtables, .activeTxIds, .immutableTxIds, .locks, .tableHandlers,
    .diskIndex]

/-- Opening the table file and building its index may raise. -/
def Dict.mayRaise (d : Dict) : Bool := d = .tableHandlers || d = .diskIndex

/-- Where a call is: at the first test, before the lock, at the second test, with assignments
still to make, at the two reads (under the lock or not), or at its end. -/
inductive Access
  | called
  | waiting
  | testing
  | filling (todo : List Dict)
  | reading (locked : Bool)
  | readingHandler (locked : Bool)
  | returned
  | missed
  | broken (todo : List Dict)
  deriving DecidableEq

/-- The call holds `global_lock`. -/
def Access.locked : Access → Bool
  | .testing => true
  | .filling _ => true
  | .reading locked => locked
  | .readingHandler locked => locked
  | _ => false

/-- Some of the assignments have been made and others have not, or never will be. -/
def Access.partly : Access → Bool
  | .filling todo => todo ≠ [] && todo ≠ Dict.order
  | .broken _ => true
  | _ => false

/-- The call has found its table, and is about to read its lock or its handler. -/
def Access.reads : Access → Bool
  | .reading _ => true
  | .readingHandler _ => true
  | _ => false

structure AccessCall where
  name : String
  stage : Access

structure Initialisation where
  present : Dict → String → Bool
  holder : Option Nat
  calls : List AccessCall

namespace Initialisation

def start : Initialisation := ⟨fun _ _ => false, none, []⟩

inductive Event
  | call (name : String)
  | act (i : Nat)
  | raise (i : Nat)

def moved (s : Initialisation) (i : Nat) (call : AccessCall) (stage : Access) : Initialisation :=
  { s with calls := s.calls.set i { call with stage := stage } }

/-- A call ends, and with it the `with` statement of the lock. -/
def ended (s : Initialisation) (i : Nat) (call : AccessCall) (stage : Access) : Initialisation :=
  { s.moved i call stage with holder := if call.stage.locked then none else s.holder }

def assigned (s : Initialisation) (d : Dict) (name : String) : Initialisation :=
  { s with present := fun other key => if other = d ∧ key = name then true else s.present other key }

/-- The next step of a call. A missing entry raises `KeyError`. -/
def act (s : Initialisation) (i : Nat) (call : AccessCall) : Option Initialisation :=
  match call.stage with
  | .called =>
      if s.present .activeMemtables call.name then some (s.moved i call (.reading false))
      else some (s.moved i call .waiting)
  | .waiting =>
      if s.holder = none then some { s.moved i call .testing with holder := some i } else none
  | .testing =>
      if s.present .activeMemtables call.name then some (s.moved i call (.reading true))
      else some (s.moved i call (.filling Dict.order))
  | .filling (d :: todo) => some ((s.assigned d call.name).moved i call (.filling todo))
  | .filling [] => some (s.moved i call (.reading true))
  | .reading locked =>
      if s.present .locks call.name then some (s.moved i call (.readingHandler locked))
      else some (s.ended i call .missed)
  | .readingHandler _ =>
      if s.present .tableHandlers call.name then some (s.ended i call .returned)
      else some (s.ended i call .missed)
  | _ => none

def perform (s : Initialisation) : Event → Option Initialisation
  | .call name => some { s with calls := s.calls ++ [⟨name, .called⟩] }
  | .act i => s.calls[i]?.bind (s.act i)
  | .raise i =>
      s.calls[i]?.bind fun call =>
        match call.stage with
        | .filling (d :: todo) =>
            if d.mayRaise then some (s.ended i call (.broken (d :: todo))) else none
        | _ => none

def Step (s : Initialisation) (e : Event) (t : Initialisation) : Prop := s.perform e = some t

/-- What the fast path relies on. -/
def Consistent (s : Initialisation) : Prop :=
  ∀ name, s.present .activeMemtables name = true →
    ∀ d ∈ [Dict.immutableMemtables, .activeTxIds, .locks, .tableHandlers, .diskIndex],
      s.present d name = true

/-- The first assignments have been made, and those of `todo` have not. -/
def Filled (s : Initialisation) (name : String) (todo : List Dict) : Prop :=
  ∃ made, made ++ todo = Dict.order ∧ ∀ d, s.present d name = true ↔ d ∈ made

structure Sound (s : Initialisation) : Prop where
  lock : ∀ i call, s.calls[i]? = some call → call.stage.locked = true → s.holder = some i
  filling : ∀ call ∈ s.calls, ∀ todo, call.stage = .filling todo → s.Filled call.name todo
  broken : ∀ call ∈ s.calls, ∀ todo, call.stage = .broken todo →
    todo ≠ [] ∧ todo ≠ Dict.order ∧ s.Filled call.name todo
  once : ∀ call ∈ s.calls, ∀ other ∈ s.calls, ∀ todo rest, call.stage = .filling todo →
    other.stage = .broken rest → call.name ≠ other.name
  settled : ∀ name, (∀ d, s.present d name = false) ∨ (∀ d, s.present d name = true) ∨
    ∃ call ∈ s.calls, call.name = name ∧ call.stage.partly = true

/-- What is read belongs to a table that the first dictionary has. -/
def Known (s : Initialisation) : Prop :=
  ∀ call ∈ s.calls, call.stage.reads = true → s.present .activeMemtables call.name = true

section

variable {s t : Initialisation} {i : Nat} {call : AccessCall} {stage : Access} {d : Dict}
  {todo : List Dict}

theorem mem_set_inv {calls : List AccessCall} {other new : AccessCall}
    (member : other ∈ calls.set i new) : other ∈ calls ∨ other = new :=
  List.mem_or_eq_of_mem_set member

/-- The calls that a step leaves alone. -/
theorem mem_set_of_ne {calls : List AccessCall} {other new : AccessCall}
    (there : calls[i]? = some call) (member : other ∈ calls) (different : other ≠ call) :
    other ∈ calls.set i new := by
  obtain ⟨j, found⟩ := List.mem_iff_getElem?.mp member
  have apart : i ≠ j := by
    rintro rfl
    rw [there, Option.some.injEq] at found
    exact different found.symm
  exact List.mem_iff_getElem?.mpr ⟨j, by rw [List.getElem?_set_ne apart, found]⟩

/-- Only one call is under the lock. -/
theorem Sound.alone (sound : s.Sound) (there : s.calls[i]? = some call)
    (locked : call.stage.locked = true) {j : Nat} {other : AccessCall}
    (found : s.calls[j]? = some other) (holds : other.stage.locked = true) : j = i := by
  have mine := sound.lock i call there locked
  have other := sound.lock j other found holds
  rw [mine, Option.some.injEq] at other
  exact other.symm

theorem lock_set {holder : Option Nat} (others : ∀ j other, j ≠ i → s.calls[j]? = some other →
      other.stage.locked = true → holder = some j)
    (own : stage.locked = true → holder = some i) :
    ∀ j other, (s.calls.set i ⟨call.name, stage⟩)[j]? = some other → other.stage.locked = true →
      holder = some j := by
  intro j other found holds
  rw [List.getElem?_set] at found
  split at found
  · rename_i same
    subst same
    split at found
    · cases found
      exact own holds
    · cases found
  · rename_i apart
    exact others j other (Ne.symm apart) found holds

/-- A step of a call that assigns nothing, from a place where all or none is assigned. -/
theorem Sound.move (sound : s.Sound) (there : s.calls[i]? = some call)
    (whole : call.stage.partly = false) (quiet : ∀ todo, stage ≠ .filling todo ∧ stage ≠ .broken todo)
    {holder : Option Nat} (others : ∀ j other, j ≠ i → s.calls[j]? = some other →
      other.stage.locked = true → holder = some j)
    (own : stage.locked = true → holder = some i) :
    Sound ⟨s.present, holder, s.calls.set i ⟨call.name, stage⟩⟩ := by
  constructor
  · exact lock_set others own
  · intro other member todo fills
    rcases mem_set_inv member with before | rfl
    · exact sound.filling other before todo fills
    · exact absurd fills (quiet todo).1
  · intro other member todo broke
    rcases mem_set_inv member with before | rfl
    · exact sound.broken other before todo broke
    · exact absurd broke (quiet todo).2
  · intro first memberFirst second memberSecond todo rest fills broke
    rcases mem_set_inv memberFirst with before | rfl
    · rcases mem_set_inv memberSecond with old | rfl
      · exact sound.once first before second old todo rest fills broke
      · exact absurd broke (quiet rest).2
    · exact absurd fills (quiet todo).1
  · intro name
    rcases sound.settled name with none | all | ⟨other, member, named, partly⟩
    · exact Or.inl none
    · exact Or.inr (Or.inl all)
    · have different : other ≠ call := by
        rintro rfl
        rw [whole] at partly
        cases partly
      exact Or.inr (Or.inr ⟨other, mem_set_of_ne there member different, named, partly⟩)

/-- The holder is the same, or the lock was free, or the call gives it back. -/
theorem Sound.others (sound : s.Sound) (there : s.calls[i]? = some call) :
    ∀ j other, j ≠ i → s.calls[j]? = some other → other.stage.locked = true →
      (if call.stage.locked then none else s.holder) = some j := by
  intro j other apart found holds
  split
  · rename_i locked
    exact absurd (sound.alone there locked found holds) apart
  · exact sound.lock j other found holds

theorem Sound.stay (sound : s.Sound) (there : s.calls[i]? = some call)
    (whole : call.stage.partly = false) (quiet : ∀ todo, stage ≠ .filling todo ∧ stage ≠ .broken todo)
    (same : stage.locked = call.stage.locked) : (s.moved i call stage).Sound :=
  sound.move there whole quiet (fun j other _ found holds => sound.lock j other found holds)
    fun locked => sound.lock i call there (same ▸ locked)

theorem Sound.end_ (sound : s.Sound) (there : s.calls[i]? = some call)
    (whole : call.stage.partly = false) (quiet : ∀ todo, stage ≠ .filling todo ∧ stage ≠ .broken todo)
    (free : stage.locked = false) : (s.ended i call stage).Sound :=
  sound.move there whole quiet (sound.others there) fun locked => by
    rw [free] at locked
    cases locked

/-- An initialisation begins: nothing has been assigned for its table. -/
theorem Sound.begin (sound : s.Sound) (there : s.calls[i]? = some call)
    (tests : call.stage = .testing) (absent : s.present .activeMemtables call.name = false) :
    (s.moved i call (.filling Dict.order)).Sound := by
  have inside := List.mem_of_getElem? there
  have locked : call.stage.locked = true := by simp [tests, Access.locked]
  have none_filling : ∀ other ∈ s.calls, ∀ todo, other.stage ≠ .filling todo := by
    intro other member todo fills
    obtain ⟨j, found⟩ := List.mem_iff_getElem?.mp member
    have same := sound.alone there locked found (by simp [fills, Access.locked])
    subst same
    rw [there, Option.some.injEq] at found
    rw [← found, tests] at fills
    cases fills
  have first {made todo : List Dict} (split : made ++ todo = Dict.order) (short : todo ≠ Dict.order) :
      Dict.activeMemtables ∈ made := by
    cases made with
    | nil => exact absurd split short
    | cons d rest =>
        rw [List.cons_append, Dict.order, List.cons.injEq] at split
        simp [split.1]
  have none_broken : ∀ other ∈ s.calls, ∀ rest, other.stage = .broken rest → call.name ≠ other.name := by
    intro other member rest broke same
    obtain ⟨_, short, made, split, present⟩ := sound.broken other member rest broke
    have there := (present .activeMemtables).mpr (first split short)
    rw [← same, absent] at there
    cases there
  have nothing : ∀ d, s.present d call.name = false := by
    rcases sound.settled call.name with none | all | ⟨other, member, named, partly⟩
    · exact none
    · rw [all] at absent
      cases absent
    · cases at_stage : other.stage with
      | filling todo => exact absurd at_stage (none_filling other member todo)
      | broken rest => exact absurd named.symm (none_broken other member rest at_stage)
      | _ => simp [at_stage, Access.partly] at partly
  constructor
  · exact lock_set (fun j other _ found holds => sound.lock j other found holds)
      fun _ => sound.lock i call there locked
  · intro other member todo fills
    rcases mem_set_inv member with before | rfl
    · exact absurd fills (none_filling other before todo)
    · cases fills
      exact ⟨[], rfl, fun d => by simp [moved, nothing d]⟩
  · intro other member todo broke
    rcases mem_set_inv member with before | rfl
    · exact sound.broken other before todo broke
    · cases broke
  · intro one memberOne second memberSecond todo rest fills broke
    rcases mem_set_inv memberSecond with old | rfl
    · rcases mem_set_inv memberOne with before | rfl
      · exact sound.once one before second old todo rest fills broke
      · exact none_broken second old rest broke
    · cases broke
  · intro name
    rcases sound.settled name with none | all | ⟨other, member, named, partly⟩
    · exact Or.inl none
    · exact Or.inr (Or.inl all)
    · have different : other ≠ call := by
        rintro rfl
        simp [tests, Access.partly] at partly
      exact Or.inr (Or.inr ⟨other, mem_set_of_ne there member different, named, partly⟩)

theorem order_nodup : Dict.order.Nodup := by decide

/-- One assignment of an initialisation. -/
theorem Sound.assign (sound : s.Sound) (there : s.calls[i]? = some call)
    (fills : call.stage = .filling (d :: todo)) :
    ((s.assigned d call.name).moved i call (.filling todo)).Sound := by
  have inside := List.mem_of_getElem? there
  have locked : call.stage.locked = true := by simp [fills, Access.locked]
  obtain ⟨made, split, present⟩ := sound.filling call inside _ fills
  have only_filling : ∀ other ∈ s.calls, ∀ rest, other.stage = .filling rest → other = call := by
    intro other member rest fills
    obtain ⟨j, found⟩ := List.mem_iff_getElem?.mp member
    have same := sound.alone there locked found (by simp [fills, Access.locked])
    subst same
    rw [there, Option.some.injEq] at found
    exact found.symm
  have split' : (made ++ [d]) ++ todo = Dict.order := by simpa using split
  have present' : ∀ other, (s.assigned d call.name).present other call.name = true ↔
      other ∈ made ++ [d] := by
    intro other
    simp only [assigned, and_true, List.mem_append, List.mem_singleton]
    by_cases same : other = d
    · simp [same]
    · simp [same, present]
  have elsewhere {name : String} (other : name ≠ call.name) (e : Dict) :
      (s.assigned d call.name).present e name = s.present e name := by
    simp [assigned, other]
  constructor
  · exact lock_set (fun j other _ found holds => sound.lock j other found holds)
      fun _ => sound.lock i call there locked
  · intro other member rest fills'
    rcases mem_set_inv member with before | rfl
    · have same := only_filling other before rest fills'
      subst same
      -- the call is at its old place in the list as well
      obtain ⟨j, found⟩ := List.mem_iff_getElem?.mp member
      have found : (s.calls.set i ⟨other.name, .filling todo⟩)[j]? = some other := found
      rw [List.getElem?_set] at found
      split at found
      · split at found
        · have same := congrArg AccessCall.stage (Option.some.inj found)
          rw [fills', Access.filling.injEq] at same
          exact ⟨made ++ [d], same ▸ split', present'⟩
        · cases found
      · rename_i apart
        exact absurd (sound.alone there locked found locked).symm apart
    · cases fills'
      exact ⟨made ++ [d], split', present'⟩
  · intro other member rest broke
    rcases mem_set_inv member with before | rfl
    · obtain ⟨nonempty, short, made', split, there'⟩ := sound.broken other before rest broke
      have different := sound.once call inside other before _ rest fills broke
      refine ⟨nonempty, short, made', split, fun e => ?_⟩
      rw [← there' e]
      show (s.assigned d call.name).present e other.name = true ↔ _
      rw [elsewhere (Ne.symm different)]
    · cases broke
  · intro one memberOne second memberSecond rest rest' fills' broke
    rcases mem_set_inv memberSecond with old | rfl
    · rcases mem_set_inv memberOne with before | rfl
      · exact sound.once one before second old rest rest' fills' broke
      · exact sound.once call inside second old _ rest' fills broke
    · cases broke
  · intro name
    by_cases same : name = call.name
    · subst same
      cases todo with
      | nil =>
          refine Or.inr (Or.inl fun e => (present' e).mpr ?_)
          rw [List.append_nil] at split'
          rw [split']
          cases e <;> decide
      | cons next rest =>
          have inside' : (⟨call.name, .filling (next :: rest)⟩ : AccessCall) ∈
              s.calls.set i ⟨call.name, .filling (next :: rest)⟩ := by
            obtain ⟨below, _⟩ := List.getElem?_eq_some_iff.mp there
            exact List.mem_set below _
          refine Or.inr (Or.inr ⟨_, inside', rfl, ?_⟩)
          have short : next :: rest ≠ Dict.order := by
            intro whole
            have lengths := congrArg List.length split'
            rw [whole] at lengths
            simp at lengths
            omega
          simp [Access.partly, short]
    · rcases sound.settled name with none | all | ⟨other, member, named, partly⟩
      · refine Or.inl fun e => ?_
        show (s.assigned d call.name).present e name = false
        rw [elsewhere same, none]
      · refine Or.inr (Or.inl fun e => ?_)
        show (s.assigned d call.name).present e name = true
        rw [elsewhere same, all]
      · have different : other ≠ call := by
          rintro rfl
          exact same named.symm
        exact Or.inr (Or.inr ⟨other, mem_set_of_ne there member different, named, partly⟩)

/-- An initialisation that raises leaves its assignments behind. -/
theorem Sound.raise (sound : s.Sound) (there : s.calls[i]? = some call)
    (fills : call.stage = .filling (d :: todo)) (raises : d.mayRaise = true) :
    (s.ended i call (.broken (d :: todo))).Sound := by
  have inside := List.mem_of_getElem? there
  have locked : call.stage.locked = true := by simp [fills, Access.locked]
  have filled := sound.filling call inside _ fills
  have short : d :: todo ≠ Dict.order := by
    intro whole
    rw [Dict.order, List.cons.injEq] at whole
    rw [whole.1] at raises
    cases raises
  have only_filling : ∀ j other, s.calls[j]? = some other → ∀ rest, other.stage = .filling rest → j = i :=
    fun j other found rest fills => sound.alone there locked found (by simp [fills, Access.locked])
  constructor
  · exact lock_set (sound.others there) fun locked => by cases locked
  · intro other member rest fills'
    rcases mem_set_inv member with before | rfl
    · exact sound.filling other before rest fills'
    · cases fills'
  · intro other member rest broke
    rcases mem_set_inv member with before | rfl
    · exact sound.broken other before rest broke
    · cases broke
      exact ⟨List.cons_ne_nil _ _, short, filled⟩
  · intro one memberOne second memberSecond rest rest' fills' broke
    obtain ⟨j, found⟩ := List.mem_iff_getElem?.mp memberOne
    have found : (s.calls.set i ⟨call.name, .broken (d :: todo)⟩)[j]? = some one := found
    rw [List.getElem?_set] at found
    split at found
    · split at found
      · cases found
        cases fills'
      · cases found
    · rename_i apart
      exact absurd (only_filling j one found rest fills').symm apart
  · intro name
    by_cases same : name = call.name
    · have inside' : (⟨call.name, .broken (d :: todo)⟩ : AccessCall) ∈
          s.calls.set i ⟨call.name, .broken (d :: todo)⟩ := by
        obtain ⟨below, _⟩ := List.getElem?_eq_some_iff.mp there
        exact List.mem_set below _
      exact Or.inr (Or.inr ⟨_, inside', same.symm, rfl⟩)
    · rcases sound.settled name with none | all | ⟨other, member, named, partly⟩
      · exact Or.inl none
      · exact Or.inr (Or.inl all)
      · have different : other ≠ call := by
          rintro rfl
          exact same named.symm
        exact Or.inr (Or.inr ⟨other, mem_set_of_ne there member different, named, partly⟩)

theorem Sound.submit (sound : s.Sound) (name : String) :
    Sound { s with calls := s.calls ++ [⟨name, .called⟩] } := by
  have inv {other : AccessCall} (member : other ∈ s.calls ++ [⟨name, .called⟩]) :
      other ∈ s.calls ∨ other.stage = .called := by
    rcases List.mem_append.mp member with before | new
    · exact Or.inl before
    · rw [List.mem_singleton.mp new]
      exact Or.inr rfl
  constructor
  · intro j other found holds
    have found : (s.calls ++ [⟨name, .called⟩])[j]? = some other := found
    rw [List.getElem?_append] at found
    split at found
    · exact sound.lock j other found holds
    · have member := List.mem_of_getElem? found
      rw [List.mem_singleton.mp member] at holds
      cases holds
  · intro other member todo fills
    rcases inv member with before | called
    · exact sound.filling other before todo fills
    · simp [called] at fills
  · intro other member todo broke
    rcases inv member with before | called
    · exact sound.broken other before todo broke
    · simp [called] at broke
  · intro one memberOne second memberSecond todo rest fills broke
    rcases inv memberOne with before | called
    · rcases inv memberSecond with old | called
      · exact sound.once one before second old todo rest fills broke
      · simp [called] at broke
    · simp [called] at fills
  · intro table
    rcases sound.settled table with none | all | ⟨other, member, named, partly⟩
    · exact Or.inl none
    · exact Or.inr (Or.inl all)
    · exact Or.inr (Or.inr ⟨other, List.mem_append_left _ member, named, partly⟩)

theorem Sound.act (sound : s.Sound) (there : s.calls[i]? = some call) (done : s.act i call = some t) :
    t.Sound := by
  have inside := List.mem_of_getElem? there
  unfold Initialisation.act at done
  split at done
  case h_1 called =>
    split at done
    · cases done
      exact sound.stay there (by simp [called, Access.partly]) (fun _ => ⟨by simp, by simp⟩)
        (by simp [called, Access.locked])
    · cases done
      exact sound.stay there (by simp [called, Access.partly]) (fun _ => ⟨by simp, by simp⟩)
        (by simp [called, Access.locked])
  case h_2 waits =>
    split at done
    · rename_i free
      cases done
      apply sound.move there (by simp [waits, Access.partly]) fun _ => ⟨by simp, by simp⟩
      · intro j other _ found holds
        have taken := sound.lock j other found holds
        rw [free] at taken
        cases taken
      · exact fun _ => rfl
    · cases done
  case h_3 tests =>
    split at done
    · cases done
      exact sound.stay there (by simp [tests, Access.partly]) (fun _ => ⟨by simp, by simp⟩)
        (by simp [tests, Access.locked])
    · rename_i absent
      cases done
      exact sound.begin there tests (by simpa using absent)
  case h_4 d todo fills =>
    cases done
    exact sound.assign there fills
  case h_5 filled =>
    cases done
    exact sound.stay there (by simp [filled, Access.partly]) (fun _ => ⟨by simp, by simp⟩)
      (by simp [filled, Access.locked])
  case h_6 locked reads =>
    split at done
    · cases done
      exact sound.stay there (by simp [reads, Access.partly]) (fun _ => ⟨by simp, by simp⟩)
        (by simp [reads, Access.locked])
    · cases done
      exact sound.end_ there (by simp [reads, Access.partly]) (fun _ => ⟨by simp, by simp⟩) rfl
  case h_7 locked reads =>
    split at done
    · cases done
      exact sound.end_ there (by simp [reads, Access.partly]) (fun _ => ⟨by simp, by simp⟩) rfl
    · cases done
      exact sound.end_ there (by simp [reads, Access.partly]) (fun _ => ⟨by simp, by simp⟩) rfl
  case h_8 => cases done

theorem Sound.step (sound : s.Sound) {e : Event} (step : Step s e t) : t.Sound := by
  cases e with
  | call name =>
      cases step
      exact sound.submit name
  | act i =>
      obtain ⟨call, there, done⟩ := Option.bind_eq_some_iff.mp step
      exact sound.act there done
  | raise i =>
      obtain ⟨call, there, done⟩ := Option.bind_eq_some_iff.mp step
      split at done
      · rename_i d todo fills
        split at done
        · rename_i raises
          cases done
          exact sound.raise there fills raises
        · cases done
      · cases done

theorem start_sound : start.Sound := by
  constructor
  · exact fun i call there => by cases there
  · exact fun call member => by cases member
  · exact fun call member => by cases member
  · exact fun call member => by cases member
  · exact fun name => Or.inl fun d => rfl

/-- With some assignments made and others not, the first has been and the last has not. -/
theorem Filled.torn {name : String} (filled : s.Filled name todo) (nonempty : todo ≠ [])
    (short : todo ≠ Dict.order) :
    s.present .activeMemtables name = true ∧ s.present .diskIndex name = false := by
  obtain ⟨made, split, present⟩ := filled
  constructor
  · rw [present]
    cases made with
    | nil => exact absurd split short
    | cons d rest =>
        rw [List.cons_append, Dict.order, List.cons.injEq] at split
        simp [split.1]
  · rw [← Bool.not_eq_true, present]
    intro member
    have last : Dict.diskIndex ∈ todo := by
      have ends := congrArg List.getLast? split
      rw [List.getLast?_append, List.getLast?_eq_some_getLast nonempty, Option.some_or] at ends
      exact List.mem_of_getLast? ((List.getLast?_eq_some_getLast nonempty).trans ends)
    have distinct := order_nodup
    rw [← split, List.nodup_append] at distinct
    exact distinct.2.2 _ member _ last rfl

/-- The dictionaries disagree exactly while some table has some of its assignments only. -/
theorem Sound.consistent_iff (sound : s.Sound) :
    s.Consistent ↔ ∀ call ∈ s.calls, call.stage.partly = false := by
  constructor
  · intro consistent call member
    rw [← Bool.not_eq_true]
    intro partly
    have torn : s.present .activeMemtables call.name = true ∧
        s.present .diskIndex call.name = false := by
      cases at_stage : call.stage with
      | filling todo =>
          simp only [at_stage, Access.partly, Bool.and_eq_true, decide_eq_true_eq] at partly
          exact (sound.filling call member todo at_stage).torn partly.1 partly.2
      | broken todo =>
          obtain ⟨nonempty, short, filled⟩ := sound.broken call member todo at_stage
          exact filled.torn nonempty short
      | _ => simp [at_stage, Access.partly] at partly
    have there := consistent call.name torn.1 .diskIndex (by simp)
    rw [torn.2] at there
    cases there
  · intro whole name active d _
    rcases sound.settled name with none | all | ⟨call, member, _, partly⟩
    · rw [none] at active
      cases active
    · exact all d
    · rw [whole call member] at partly
      cases partly

/-- A step takes nothing out of the dictionaries, and a call goes on to read what it has found
or filled. -/
theorem act_spec (done : s.act i call = some t) :
    ∃ stage, t.calls = s.calls.set i ⟨call.name, stage⟩ ∧
      (∀ d name, s.present d name = true → t.present d name = true) ∧
      (stage.reads = true → call.stage.reads = true ∨ call.stage = .filling [] ∨
        s.present .activeMemtables call.name = true) := by
  unfold Initialisation.act at done
  split at done
  case h_1 =>
    split at done
    · rename_i active
      cases done
      exact ⟨_, rfl, fun _ _ there => there, fun _ => Or.inr (Or.inr active)⟩
    · cases done
      exact ⟨_, rfl, fun _ _ there => there, fun reads => by cases reads⟩
  case h_2 =>
    split at done
    · cases done
      exact ⟨_, rfl, fun _ _ there => there, fun reads => by cases reads⟩
    · cases done
  case h_3 =>
    split at done
    · rename_i active
      cases done
      exact ⟨_, rfl, fun _ _ there => there, fun _ => Or.inr (Or.inr active)⟩
    · cases done
      exact ⟨_, rfl, fun _ _ there => there, fun reads => by cases reads⟩
  case h_4 =>
    cases done
    exact ⟨_, rfl, fun d name there => by simp [moved, assigned, there], fun reads => by cases reads⟩
  case h_5 filled =>
    cases done
    exact ⟨_, rfl, fun _ _ there => there, fun _ => Or.inr (Or.inl filled)⟩
  case h_6 reads =>
    split at done
    · cases done
      exact ⟨_, rfl, fun _ _ there => there, fun _ => Or.inl (by simp [reads, Access.reads])⟩
    · cases done
      exact ⟨_, rfl, fun _ _ there => there, fun reads => by cases reads⟩
  case h_7 =>
    split at done
    · cases done
      exact ⟨_, rfl, fun _ _ there => there, fun reads => by cases reads⟩
    · cases done
      exact ⟨_, rfl, fun _ _ there => there, fun reads => by cases reads⟩
  case h_8 => cases done

theorem Known.step (known : s.Known) (sound : s.Sound) {e : Event} (step : Step s e t) : t.Known := by
  cases e with
  | call name =>
      cases step
      intro other member reads
      rcases List.mem_append.mp member with before | new
      · exact known other before reads
      · rw [List.mem_singleton.mp new] at reads
        cases reads
  | act i =>
      obtain ⟨call, there, done⟩ := Option.bind_eq_some_iff.mp step
      have inside := List.mem_of_getElem? there
      obtain ⟨stage, calls, grows, goes⟩ := act_spec done
      intro other member reads
      rw [calls] at member
      rcases mem_set_inv member with before | rfl
      · exact grows _ _ (known other before reads)
      · rcases goes reads with before | filled | active
        · exact grows _ _ (known call inside before)
        · obtain ⟨made, split, present⟩ := sound.filling call inside [] filled
          rw [List.append_nil] at split
          exact grows _ _ ((present .activeMemtables).mpr (by rw [split]; decide))
        · exact grows _ _ active
  | raise i =>
      obtain ⟨call, there, done⟩ := Option.bind_eq_some_iff.mp step
      split at done
      · split at done
        · cases done
          intro other member reads
          rcases mem_set_inv member with before | rfl
          · exact known other before reads
          · cases reads
        · cases done
      · cases done

/-- The dictionaries agree on every table, and no read of a lock or a handler fails, exactly as
long as no call is between its first and its last assignment and none has raised there. -/
theorem table_state_consistent_iff {events : List Event} (run : Run Step start events s) :
    (s.Consistent ↔ ∀ call ∈ s.calls, call.stage.partly = false) ∧
      (s.Consistent → ∀ call ∈ s.calls, call.stage.reads = true →
        s.present .locks call.name = true ∧ s.present .tableHandlers call.name = true) := by
  obtain ⟨sound, known⟩ : s.Sound ∧ s.Known := by
    apply run.preserves (P := fun s => s.Sound ∧ s.Known)
    · exact ⟨start_sound, fun _ member => by cases member⟩
    · exact fun _ _ _ before step => ⟨before.1.step step, before.2.step before.1 step⟩
  refine ⟨sound.consistent_iff, fun consistent call member reads => ?_⟩
  have active := known call member reads
  exact ⟨consistent call.name active .locks (by simp),
    consistent call.name active .tableHandlers (by simp)⟩

end

/-- Two threads have passed the first test. The second gets the lock when the first has
initialised the table, and finds it in its own test. -/
def twoAccesses : List Event :=
  [.call "t", .call "t", .act 0, .act 1] ++ List.replicate 12 (.act 0) ++ [.act 1, .act 1]

theorem table_state_consistent_of_two : ∃ s, Run Step start twoAccesses s ∧
    s.calls.map AccessCall.stage = [.returned, .reading true] ∧ s.Consistent ∧
    ∀ call ∈ s.calls, call.stage.reads = true →
      s.present .locks call.name = true ∧ s.present .tableHandlers call.name = true := by
  have outcome : (play perform start twoAccesses).map (fun s => s.calls.map AccessCall.stage) =
      some [.returned, .reading true] := by decide +kernel
  obtain ⟨s, plays, stages⟩ := Option.map_eq_some_iff.mp outcome
  obtain ⟨consistent_iff, reads⟩ := table_state_consistent_iff (play_run plays)
  have consistent : s.Consistent := consistent_iff.mpr fun call member => by
    have stage : call.stage ∈ s.calls.map AccessCall.stage := List.mem_map_of_mem member
    rw [stages] at stage
    rcases List.mem_cons.mp stage with same | same
    · rw [same]
      rfl
    · rw [List.mem_singleton.mp same]
      rfl
  exact ⟨s, play_run plays, stages, consistent, reads consistent⟩

/-- A second thread that comes after the first assignment gets a `KeyError`. After an exception
from the constructor of the handler every later access does. -/
theorem table_state_torn :
    (∃ s, Run Step start [.call "t", .act 0, .act 0, .act 0, .act 0, .call "t", .act 1, .act 1] s ∧
      ¬ s.Consistent ∧ ∃ call ∈ s.calls, call.stage = .missed) ∧
    ∃ s, Run Step start [.call "t", .act 0, .act 0, .act 0, .act 0, .act 0, .act 0, .act 0, .act 0,
        .raise 0, .call "t", .act 1, .act 1, .act 1] s ∧
      ¬ s.Consistent ∧ s.holder = none ∧ s.calls.map AccessCall.stage =
        [.broken [.tableHandlers, .diskIndex], .missed] := by
  have torn {s : Initialisation} {missing : Dict}
      (inside : missing ∈ [Dict.immutableMemtables, .activeTxIds, .locks, .tableHandlers, .diskIndex])
      (active : s.present .activeMemtables "t" = true) (absent : s.present missing "t" = false) :
      ¬ s.Consistent := by
    intro consistent
    have there := consistent "t" active missing inside
    rw [absent] at there
    cases there
  constructor
  · have outcome : (play perform start [.call "t", .act 0, .act 0, .act 0, .act 0, .call "t", .act 1,
        .act 1]).map (fun s => (s.present .activeMemtables "t", s.present .locks "t",
          s.calls.map AccessCall.stage)) =
        some (true, false, [.filling Dict.order.tail, .missed]) := by decide +kernel
    obtain ⟨s, plays, result⟩ := Option.map_eq_some_iff.mp outcome
    rw [Prod.mk.injEq, Prod.mk.injEq] at result
    obtain ⟨active, absent, stages⟩ := result
    have missed : Access.missed ∈ s.calls.map AccessCall.stage := by simp [stages]
    exact ⟨s, play_run plays, torn (by simp) active absent, List.mem_map.mp missed⟩
  · have outcome : (play perform start [.call "t", .act 0, .act 0, .act 0, .act 0, .act 0, .act 0, .act 0,
        .act 0, .raise 0, .call "t", .act 1, .act 1, .act 1]).map (fun s =>
          (s.present .activeMemtables "t", s.present .tableHandlers "t", s.holder,
            s.calls.map AccessCall.stage)) =
        some (true, false, none, [.broken [.tableHandlers, .diskIndex], .missed]) := by decide +kernel
    obtain ⟨s, plays, result⟩ := Option.map_eq_some_iff.mp outcome
    rw [Prod.mk.injEq, Prod.mk.injEq, Prod.mk.injEq] at result
    obtain ⟨active, absent, free, stages⟩ := result
    exact ⟨s, play_run plays, torn (by simp) active absent, free, stages⟩

end Initialisation

end CachyDb
