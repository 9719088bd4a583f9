import Mathlib.Data.List.AList
import Mathlib.Data.String.Basic
import CachyDb.Index.Insertion

set_option autoImplicit false

/-! The methods of `BTreeMemTable` with their checks, and the finite map that any sequence
of them builds. -/

namespace CachyDb.BTree

open SortedEntries

inductive Error
  | degree
  | emptyKey
  | index
  deriving DecidableEq, Repr

/-- `_validate_key`. -/
def validateKey (key : String) : Except Error Unit :=
  if key = "" then .error .emptyKey else .ok ()

inductive Call (Value : Type)
  | insert (key : String) (value : Value)
  | clear

/-- The key of a call passes the check. -/
def Call.Named {Value : Type} : Call Value → Prop
  | .insert key _ => key ≠ ""
  | .clear => True

namespace Tree

variable {Value : Type}

/-- `BTreeMemTable(t)`. -/
def create (t : Nat) : Except Error (Tree String Value) :=
  if t < 2 then .error .degree else .ok (init t)

def clear (tree : Tree String Value) : Tree String Value := ⟨.empty, tree.t, 0⟩

def perform (tree : Tree String Value) : Call Value → Except Error (Tree String Value)
  | .insert key value =>
      match validateKey key with
      | .error e => .error e
      | .ok () =>
          match tree.insert key value with
          | none => .error .index
          | some changed => .ok changed
  | .clear => .ok tree.clear

def performAll (tree : Tree String Value) : List (Call Value) → Except Error (Tree String Value)
  | [] => .ok tree
  | call :: rest =>
      match tree.perform call with
      | .error e => .error e
      | .ok changed => changed.performAll rest

/-- `search`, after its check. -/
def searchKey (tree : Tree String Value) (key : String) : Except Error (Option Value) :=
  (validateKey key).map fun _ => tree.search key

/-- `contains`, after its check. -/
def containsKey (tree : Tree String Value) (key : String) : Except Error Bool :=
  (validateKey key).map fun _ => tree.contains key

/-- The value at the place that `_find_node_and_index` gives. -/
def found (tree : Tree String Value) (key : String) : Option Value :=
  (findNodeAndIndex tree.root.depth tree.root key).bind fun place => place.1.values[place.2]?

end Tree

/-- What a call does to a map. -/
def Call.store {Value : Type} (map : AList (fun _ : String => Value)) :
    Call Value → AList (fun _ : String => Value)
  | .insert key value => map.insert key value
  | .clear => ∅

def mapOf {Value : Type} (calls : List (Call Value)) : AList (fun _ : String => Value) :=
  calls.foldl Call.store ∅

/-- The tree is the map, for each of its readers. -/
structure Refines {Value : Type} (tree : Tree String Value)
    (map : AList (fun _ : String => Value)) : Prop where
  listed : ∀ key value, (key, value) ∈ tree.inOrderTraversal ↔ map.lookup key = some value
  ascending : (tree.inOrderTraversal.map Prod.fst).Pairwise (· < ·)
  counted : tree.size = map.keys.length
  searched : ∀ key, key ≠ "" → tree.searchKey key = .ok (map.lookup key)
  contained : ∀ key, key ≠ "" → tree.containsKey key = .ok (decide (key ∈ map))
  agree : ∀ key, tree.found key = tree.search key

section

variable {Value : Type} {tree : Tree String Value} {map : AList (fun _ : String => Value)}

/-- The linear descent ends at the value that the bisecting one returns. -/
theorem findNodeAndIndex_value {Key : Type} [LinearOrder Key] {levels : Nat}
    {node : Node Key Value} (shape : Balanced levels node) (sorted : Sorted (inOrder levels node))
    (key : Key) : ((findNodeAndIndex levels node key).bind fun place => place.1.values[place.2]?) =
      searchNode levels node key := by
  induction levels generalizing node with
  | zero =>
      have ascending := shape.ascending sorted
      rw [findNodeAndIndex, searchNode, bisectLeft_eq_scan ascending]
      by_cases here : node.keys[scan key node.keys]? = some key
      · simp [here]
      · simp [here]
  | succ levels ih =>
      have ascending := shape.ascending sorted
      rw [findNodeAndIndex, searchNode, bisectLeft_eq_scan ascending]
      by_cases here : node.keys[scan key node.keys]? = some key
      · simp [here]
      · obtain ⟨child, there, below⟩ := shape.child_at (scan_le key node.keys)
        rw [if_neg here, if_neg here, shape.1, there]
        exact ih below (sorted_child shape sorted there)

/-- The traversal has the entries of the map. -/
def Lists (tree : Tree String Value) (map : AList (fun _ : String => Value)) : Prop :=
  tree.WellFormed ∧ ∀ key, tree.inOrderTraversal.lookup key = map.lookup key

theorem create_lists {t : Nat} (degree : 2 ≤ t) :
    ∃ tree : Tree String Value, Tree.create t = .ok tree ∧ tree.t = t ∧ Lists tree ∅ := by
  refine ⟨Tree.init t, ?_, rfl, Tree.init_wellFormed degree, fun key => rfl⟩
  rw [Tree.create, if_neg (Nat.not_lt.mpr degree)]

theorem Lists.perform (lists : Lists tree map) {call : Call Value} (named : call.Named) :
    ∃ tree', tree.perform call = .ok tree' ∧ tree'.t = tree.t ∧ Lists tree' (call.store map) := by
  obtain ⟨formed, same⟩ := lists
  cases call with
  | insert key value =>
      have checked : validateKey key = .ok () := if_neg named
      obtain ⟨tree', inserted, formed', traversal⟩ := formed.insert key value
      have degree : tree'.t = tree.t := by
        unfold Tree.insert at inserted
        grind
      refine ⟨tree', by simp only [Tree.perform, checked, inserted], degree, formed', fun other => ?_⟩
      rw [traversal, lookup_insertEntry, Call.store]
      by_cases here : other = key
      · rw [if_pos here, here, AList.lookup_insert]
      · rw [if_neg here, AList.lookup_insert_ne here, same]
  | clear => exact ⟨_, rfl, rfl, Tree.init_wellFormed formed.degree, fun _ => rfl⟩

theorem Lists.performAll (lists : Lists tree map) {calls : List (Call Value)}
    (named : ∀ call ∈ calls, call.Named) :
    ∃ tree', tree.performAll calls = .ok tree' ∧ tree'.t = tree.t ∧
      Lists tree' (calls.foldl Call.store map) := by
  induction calls generalizing tree map with
  | nil => exact ⟨tree, rfl, rfl, lists⟩
  | cons call rest ih =>
      obtain ⟨between, first, degree, lists'⟩ := lists.perform (named call List.mem_cons_self)
      obtain ⟨tree', later, degree', lists''⟩ :=
        ih lists' fun other member => named other (List.mem_cons_of_mem _ member)
      exact ⟨tree', by simp only [Tree.performAll, first, later], degree'.trans degree, lists''⟩

theorem Lists.mem (lists : Lists tree map) (key : String) (value : Value) :
    (key, value) ∈ tree.inOrderTraversal ↔ map.lookup key = some value := by
  rw [← lists.2 key]
  exact ⟨lookup_of_mem lists.1.sorted, mem_of_lookup⟩

/-- The keys of the traversal are those of the map, each once. -/
theorem Lists.counted (lists : Lists tree map) : tree.size = map.keys.length := by
  have distinct : (tree.inOrderTraversal.map Prod.fst).Nodup :=
    lists.1.sorted.imp fun below => ne_of_lt below
  have keys : ∀ key, key ∈ tree.inOrderTraversal.map Prod.fst ↔ key ∈ map.keys := by
    intro key
    rw [← AList.mem_keys, ← AList.lookup_isSome, Option.isSome_iff_exists]
    simp only [List.mem_map, Prod.exists, exists_and_right, exists_eq_right, lists.mem]
  have perm := (List.perm_ext_iff_of_nodup distinct map.nodupKeys).mpr keys
  calc tree.size = (tree.inOrderTraversal.map Prod.fst).length := by
        rw [lists.1.counted, List.length_map]
    _ = map.keys.length := perm.length_eq

theorem Lists.refines (lists : Lists tree map) : Refines tree map := by
  refine ⟨lists.mem, lists.1.sorted, lists.counted, ?_, ?_, ?_⟩
  · intro key named
    rw [Tree.searchKey, validateKey, if_neg named, lists.1.search, lists.2]
    rfl
  · intro key named
    rw [Tree.containsKey, validateKey, if_neg named, lists.1.contains, lists.2]
    simp [Except.map, ← AList.lookup_isSome, Bool.decide_eq_true]
  · intro key
    exact findNodeAndIndex_value lists.1.balanced lists.1.sorted key

end

/-- Whatever was inserted and cleared, the tree is the map that these calls build. -/
theorem memtable_refines_map {Value : Type} {t : Nat} (degree : 2 ≤ t) (calls : List (Call Value))
    (named : ∀ call ∈ calls, call.Named) :
    ∃ created tree : Tree String Value, Tree.create t = .ok created ∧
      created.performAll calls = .ok tree ∧ Refines tree (mapOf calls) := by
  obtain ⟨created, made, _, lists⟩ := @create_lists Value t degree
  obtain ⟨tree, performed, _, lists'⟩ := lists.performAll named
  exact ⟨created, tree, made, performed, lists'.refines⟩

/-- Three insertions, the first two of them cleared. -/
theorem memtable_refines_map_after_clear :
    ∃ created tree : Tree String Nat, Tree.create 2 = .ok created ∧
      created.performAll [.insert "b" 2, .insert "a" 1, .clear, .insert "a" 3] = .ok tree ∧
        Refines tree (mapOf [.insert "b" 2, .insert "a" 1, .clear, .insert "a" 3]) :=
  memtable_refines_map (by decide) _ (by simp [Call.Named])

end CachyDb.BTree
