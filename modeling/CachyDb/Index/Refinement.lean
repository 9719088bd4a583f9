import CachyDb.Index.BTree

set_option autoImplicit false

/-! A B-tree holds the map that its traversal lists: searching is looking up in that
list, and inserting is storing into it. -/

namespace CachyDb.BTree

open SortedEntries

variable {Key Value : Type}

theorem cut_at {Item : Type} (items : List Item) {i : Nat} {item : Item}
    (found : items[i]? = some item) : items = items.take i ++ item :: items.drop (i + 1) := by
  obtain ⟨inside, rfl⟩ := List.getElem?_eq_some_iff.mp found
  rw [List.getElem_cons_drop, List.take_append_drop]

theorem set_cut {Item : Type} (front : List Item) (old new : Item) (back : List Item) {i : Nat}
    (place : front.length = i) : (front ++ old :: back).set i new = front ++ new :: back := by
  rw [List.set_append_right _ _ (le_of_eq place), place, Nat.sub_self, List.set_cons_zero]

theorem insertAt_cut {Item : Type} (front back : List Item) (item : Item) {i : Nat}
    (place : front.length = i) : insertAt i item (front ++ back) = front ++ item :: back := by
  rw [insertAt, List.take_left' place, List.drop_left' place]

/-- Subtrees each followed by a separator. -/
def before {Item : Type} : List (List Item) → List Item → List Item
  | child :: children, entry :: entries => child ++ entry :: before children entries
  | _, _ => []

/-- Separators each followed by a subtree. -/
def after {Item : Type} : List Item → List (List Item) → List Item
  | entry :: entries, child :: children => entry :: (child ++ after entries children)
  | _, _ => []

theorem weave_after {Item : Type} (child : List Item) {entries : List Item}
    {children : List (List Item)} (same : children.length = entries.length) :
    weave (child :: children) entries = child ++ after entries children := by
  induction entries generalizing child children with
  | nil =>
      cases List.length_eq_zero_iff.mp same
      simp [weave, after]
  | cons entry entries ih =>
      cases children with
      | nil => cases same
      | cons next children =>
          have fewer : children.length = entries.length := by simpa using same
          rw [weave, ih next fewer, after]

theorem weave_cut {Item : Type} {front : List (List Item)} {first : List Item}
    (level : front.length = first.length) (child : List Item) {back : List (List Item)}
    {last : List Item} (same : back.length = last.length) :
    weave (front ++ child :: back) (first ++ last) =
      before front first ++ (child ++ after last back) := by
  induction first generalizing front with
  | nil =>
      cases List.length_eq_zero_iff.mp level
      exact weave_after child same
  | cons entry first ih =>
      cases front with
      | nil => cases level
      | cons head front =>
          have fewer : front.length = first.length := by simpa using level
          rw [List.cons_append, List.cons_append, weave, ih fewer, before, List.append_assoc,
            List.cons_append]

/-- As many values as keys, one child more than keys, and `levels` levels below. -/
def Balanced : Nat → Node Key Value → Prop
  | 0, node => node.leaf = true ∧ node.values.length = node.keys.length ∧ node.children = []
  | levels + 1, node => node.leaf = false ∧ node.values.length = node.keys.length ∧
      node.children.length = node.keys.length + 1 ∧ ∀ child ∈ node.children, Balanced levels child

theorem Balanced.values {levels : Nat} {node : Node Key Value} (shape : Balanced levels node) :
    node.values.length = node.keys.length := by
  cases levels with
  | zero => exact shape.2.1
  | succ levels => exact shape.2.1

theorem Balanced.depth {levels : Nat} {node : Node Key Value} (shape : Balanced levels node) :
    node.depth = levels := by
  induction levels generalizing node with
  | zero =>
      obtain ⟨leaf, keys, values, children⟩ := node
      obtain ⟨_, _, none_left⟩ := shape
      cases none_left
      rfl
  | succ levels ih =>
      obtain ⟨leaf, keys, values, children⟩ := node
      obtain ⟨_, _, count, below⟩ := shape
      cases children with
      | nil => cases count
      | cons child children => rw [Node.depth, ih (below child List.mem_cons_self)]

theorem Balanced.entries_keys {levels : Nat} {node : Node Key Value}
    (shape : Balanced levels node) : node.entries.map Prod.fst = node.keys := by
  rw [Node.entries, List.map_fst_zip]
  exact le_of_eq shape.values.symm

theorem Balanced.entries_length {levels : Nat} {node : Node Key Value}
    (shape : Balanced levels node) : node.entries.length = node.keys.length := by
  rw [← shape.entries_keys, List.length_map]

/-- A node read around one of its children. -/
theorem inOrder_cut {levels : Nat} {node child : Node Key Value}
    (shape : Balanced (levels + 1) node) {i : Nat} (found : node.children[i]? = some child) :
    inOrder (levels + 1) node =
      before ((node.children.take i).map (inOrder levels)) (node.entries.take i) ++
        (inOrder levels child ++
          after (node.entries.drop i) ((node.children.drop (i + 1)).map (inOrder levels))) := by
  have width := shape.entries_length
  obtain ⟨internal, _, count, _⟩ := shape
  have inside : i < node.children.length := (List.getElem?_eq_some_iff.mp found).1
  have children := congrArg (List.map (inOrder levels)) (cut_at node.children found)
  rw [List.map_append, List.map_cons] at children
  have first : ((node.children.take i).map (inOrder levels)).length =
      (node.entries.take i).length := by
    rw [List.length_map, List.length_take, List.length_take]
    omega
  have last : ((node.children.drop (i + 1)).map (inOrder levels)).length =
      (node.entries.drop i).length := by
    rw [List.length_map, List.length_drop, List.length_drop]
    omega
  have cut := weave_cut first (inOrder levels child) last
  rw [List.take_append_drop] at cut
  rw [inOrder, internal, children, cut]
  rfl

theorem entries_sublist {levels : Nat} {node : Node Key Value} (shape : Balanced levels node) :
    node.entries.Sublist (inOrder levels node) := by
  cases levels with
  | zero => exact List.Sublist.refl _
  | succ levels =>
      have width := shape.entries_length
      obtain ⟨internal, _, count, _⟩ := shape
      rw [inOrder, internal]
      have enough : (node.children.map (inOrder levels)).length = node.entries.length + 1 := by
        rw [List.length_map, count, width]
      generalize node.children.map (inOrder levels) = lists at enough
      generalize node.entries = entries at enough
      simp only [Bool.false_eq_true, ↓reduceIte]
      induction entries generalizing lists with
      | nil => exact List.nil_sublist _
      | cons entry entries ih =>
          cases lists with
          | nil => cases enough
          | cons list lists =>
              rw [weave]
              apply List.Sublist.trans _ (List.sublist_append_right list _)
              exact (ih lists (by simpa using enough)).cons_cons entry

/-- A key and the value at its index are an entry of the node. -/
theorem Balanced.entry_at {levels : Nat} {node : Node Key Value} (shape : Balanced levels node)
    {i : Nat} {key : Key} (found : node.keys[i]? = some key) :
    ∃ value, node.values[i]? = some value ∧ node.entries[i]? = some (key, value) := by
  obtain ⟨inside, at_i⟩ := List.getElem?_eq_some_iff.mp found
  have width := shape.values
  have valued : i < node.values.length := by omega
  refine ⟨node.values[i], List.getElem?_eq_getElem valued, ?_⟩
  rw [Node.entries, List.getElem?_zip_eq_some]
  exact ⟨found, List.getElem?_eq_getElem valued⟩

theorem Balanced.child_at {levels : Nat} {node : Node Key Value}
    (shape : Balanced (levels + 1) node) {i : Nat} (bound : i ≤ node.keys.length) :
    ∃ child, node.children[i]? = some child ∧ Balanced levels child := by
  obtain ⟨_, _, count, below⟩ := shape
  have inside : i < node.children.length := by omega
  exact ⟨node.children[i], List.getElem?_eq_getElem inside, below _ (List.getElem_mem inside)⟩

section

variable [LinearOrder Key]

theorem before_smaller {front : List (List (Key × Value))} {first : List (Key × Value)} {key : Key}
    (sorted : Sorted (before front first)) (smaller : ∀ entry ∈ first, entry.1 < key) :
    ∀ entry ∈ before front first, entry.1 < key := by
  induction first generalizing front with
  | nil =>
      intro entry member
      cases front <;> cases member
  | cons head first ih =>
      cases front with
      | nil =>
          intro entry member
          cases member
      | cons child front =>
          rw [before] at sorted ⊢
          obtain ⟨_, later, across⟩ := sorted_append.mp sorted
          have small : head.1 < key := smaller head List.mem_cons_self
          intro entry member
          rcases List.mem_append.mp member with inChild | rest
          · exact lt_trans (across entry inChild head List.mem_cons_self) small
          · rcases List.mem_cons.mp rest with rfl | inside
            · exact small
            · exact ih (sorted_cons.mp later).2
                (fun entry member => smaller entry (List.mem_cons_of_mem _ member)) entry inside

theorem after_greater {last : List (Key × Value)} {back : List (List (Key × Value))} {key : Key}
    (sorted : Sorted (after last back)) (greater : ∀ entry ∈ last, key < entry.1) :
    ∀ entry ∈ after last back, key < entry.1 := by
  cases last with
  | nil =>
      intro entry member
      cases back <;> cases member
  | cons head last =>
      cases back with
      | nil =>
          intro entry member
          cases member
      | cons child back =>
          rw [after] at sorted ⊢
          have great : key < head.1 := greater head List.mem_cons_self
          intro entry member
          rcases List.mem_cons.mp member with rfl | inside
          · exact great
          · exact lt_trans great ((sorted_cons.mp sorted).1 entry inside)

def Ascending (keys : List Key) : Prop := keys.Pairwise (· < ·)

theorem scan_le (key : Key) (keys : List Key) : scan key keys ≤ keys.length := by
  induction keys with
  | nil => exact Nat.le_refl 0
  | cons other rest ih =>
      rw [scan, List.length_cons]
      split <;> omega

theorem scan_smaller (key : Key) (keys : List Key) :
    ∀ other ∈ keys.take (scan key keys), other < key := by
  induction keys with
  | nil =>
      intro other member
      cases member
  | cons head rest ih =>
      rw [scan]
      split
      · rename_i smaller
        rw [List.take_succ_cons]
        intro other member
        rcases List.mem_cons.mp member with rfl | inside
        · exact smaller
        · exact ih other inside
      · intro other member
        cases member

theorem scan_greater {key : Key} {keys : List Key} (ascending : Ascending keys) :
    ∀ other ∈ keys.drop (scan key keys), key ≤ other := by
  induction keys with
  | nil =>
      intro other member
      cases member
  | cons head rest ih =>
      obtain ⟨below, later⟩ := List.pairwise_cons.mp ascending
      rw [scan]
      split
      · rw [List.drop_succ_cons]
        exact ih later
      · rename_i notSmaller
        intro other member
        rcases List.mem_cons.mp member with rfl | inside
        · exact not_lt.mp notSmaller
        · exact le_trans (not_lt.mp notSmaller) (le_of_lt (below other inside))

/-- Bisection and the linear scan stop at the same index. -/
theorem bisectLeft_eq_scan {keys : List Key} (ascending : Ascending keys) (key : Key) :
    bisectLeft keys key = scan key keys := by
  induction keys with
  | nil => rfl
  | cons head rest ih =>
      obtain ⟨below, later⟩ := List.pairwise_cons.mp ascending
      rw [bisectLeft, List.countP_cons, scan]
      by_cases smaller : head < key
      · rw [if_pos smaller, ← ih later, bisectLeft]
        simp [smaller]
      · rw [if_neg smaller]
        have none_smaller : rest.countP (· < key) = 0 := by
          rw [List.countP_eq_zero]
          intro other member
          have bound := lt_of_le_of_lt (not_lt.mp smaller) (below other member)
          simpa using le_of_lt bound
        simp [none_smaller, smaller]

/-- When the key is not at its index, the keys from there on are greater. -/
theorem scan_strict {key : Key} {keys : List Key} (ascending : Ascending keys)
    (missing : keys[scan key keys]? ≠ some key) :
    ∀ other ∈ keys.drop (scan key keys), key < other := by
  intro other member
  have bound := scan_greater ascending other member
  apply lt_of_le_of_ne bound
  rintro rfl
  obtain ⟨j, inside, at_j⟩ := List.getElem_of_mem member
  rw [List.getElem_drop] at at_j
  rw [List.length_drop] at inside
  cases j with
  | zero =>
      apply missing
      rw [List.getElem?_eq_getElem (by omega)]
      simpa using at_j
  | succ j =>
      have first : scan key keys < keys.length := by omega
      have ordered : keys[scan key keys] < keys[scan key keys + (j + 1)] :=
        List.pairwise_iff_getElem.mp ascending _ _ first (by omega) (by omega)
      have lower : key ≤ keys[scan key keys] := by
        apply scan_greater ascending
        rw [List.mem_drop_iff_getElem]
        exact ⟨0, by simpa using first, by simp⟩
      rw [at_j] at ordered
      exact absurd ordered (not_lt.mpr lower)

theorem absent_of_missing {key : Key} {keys : List Key} (ascending : Ascending keys)
    (missing : keys[scan key keys]? ≠ some key) : ∀ other ∈ keys, other ≠ key := by
  intro other member
  rw [← List.take_append_drop (scan key keys) keys] at member
  rcases List.mem_append.mp member with first | last
  · exact ne_of_lt (scan_smaller key keys other first)
  · exact ne_of_gt (scan_strict ascending missing other last)

theorem Balanced.ascending {levels : Nat} {node : Node Key Value} (shape : Balanced levels node)
    (sorted : Sorted (inOrder levels node)) : Ascending node.keys := by
  rw [Ascending, ← shape.entries_keys]
  exact List.Pairwise.sublist ((entries_sublist shape).map Prod.fst) sorted

/-- What a search finds in the node itself. -/
theorem Balanced.lookup_here {levels : Nat} {node : Node Key Value} (shape : Balanced levels node)
    (sorted : Sorted (inOrder levels node)) {i : Nat} {key : Key}
    (found : node.keys[i]? = some key) :
    node.values[i]? = (inOrder levels node).lookup key := by
  obtain ⟨value, valued, entry⟩ := shape.entry_at found
  have member := (entries_sublist shape).subset (List.mem_of_getElem? entry)
  rw [valued, lookup_of_mem sorted member]

/-- The separators around the child that a search goes into. -/
theorem Balanced.around {levels : Nat} {node child : Node Key Value} {key : Key}
    (shape : Balanced (levels + 1) node) (sorted : Sorted (inOrder (levels + 1) node))
    (missing : node.keys[scan key node.keys]? ≠ some key)
    (found : node.children[scan key node.keys]? = some child) :
    (∀ entry ∈ before ((node.children.take (scan key node.keys)).map (inOrder levels))
        (node.entries.take (scan key node.keys)), entry.1 < key) ∧
      ∀ entry ∈ after (node.entries.drop (scan key node.keys))
        ((node.children.drop (scan key node.keys + 1)).map (inOrder levels)), key < entry.1 := by
  have ascending := shape.ascending sorted
  have keys := shape.entries_keys
  rw [inOrder_cut shape found] at sorted
  obtain ⟨first, rest, _⟩ := sorted_append.mp sorted
  obtain ⟨_, last, _⟩ := sorted_append.mp rest
  constructor
  · apply before_smaller first
    intro entry member
    apply scan_smaller key node.keys
    have mapped := List.mem_map_of_mem (f := Prod.fst) member
    rwa [List.map_take, keys] at mapped
  · apply after_greater last
    intro entry member
    apply scan_strict ascending missing
    have mapped := List.mem_map_of_mem (f := Prod.fst) member
    rwa [List.map_drop, keys] at mapped

/-- A key that the list lacks is no key of the node. -/
theorem Balanced.missing_here {levels : Nat} {node : Node Key Value} {key : Key}
    (shape : Balanced levels node) (sorted : Sorted (inOrder levels node))
    (absent : (inOrder levels node).lookup key = none) (i : Nat) : node.keys[i]? ≠ some key := by
  intro found
  obtain ⟨value, valued, _⟩ := shape.entry_at found
  rw [shape.lookup_here sorted found, absent] at valued
  cases valued

theorem sorted_child {levels : Nat} {node child : Node Key Value}
    (shape : Balanced (levels + 1) node) (sorted : Sorted (inOrder (levels + 1) node)) {i : Nat}
    (found : node.children[i]? = some child) : Sorted (inOrder levels child) := by
  rw [inOrder_cut shape found] at sorted
  obtain ⟨_, rest, _⟩ := sorted_append.mp sorted
  exact (sorted_append.mp rest).1

/-- What is not in the node itself is looked up in the child on the way. -/
theorem Balanced.lookup_child {levels : Nat} {node child : Node Key Value} {key : Key}
    (shape : Balanced (levels + 1) node) (sorted : Sorted (inOrder (levels + 1) node))
    (missing : node.keys[scan key node.keys]? ≠ some key)
    (found : node.children[scan key node.keys]? = some child) :
    (inOrder (levels + 1) node).lookup key = (inOrder levels child).lookup key := by
  obtain ⟨smaller, greater⟩ := shape.around sorted missing found
  rw [inOrder_cut shape found, lookup_append_none fun entry member => ne_of_lt (smaller entry member),
    List.lookup_append, lookup_none (fun entry member => ne_of_gt (greater entry member)),
    Option.or_none]

theorem searchNode_eq_lookup {levels : Nat} {node : Node Key Value} (shape : Balanced levels node)
    (sorted : Sorted (inOrder levels node)) (key : Key) :
    searchNode levels node key = (inOrder levels node).lookup key := by
  induction levels generalizing node with
  | zero =>
      have ascending := shape.ascending sorted
      rw [searchNode, bisectLeft_eq_scan ascending]
      by_cases found : node.keys[scan key node.keys]? = some key
      · rw [if_pos found]
        exact shape.lookup_here sorted found
      · rw [if_neg found, lookup_none]
        intro entry member
        apply absent_of_missing ascending found
        rw [← shape.entries_keys]
        exact List.mem_map_of_mem member
  | succ levels ih =>
      have ascending := shape.ascending sorted
      rw [searchNode, bisectLeft_eq_scan ascending]
      by_cases found : node.keys[scan key node.keys]? = some key
      · rw [if_pos found]
        exact shape.lookup_here sorted found
      · obtain ⟨child, here, below⟩ := shape.child_at (scan_le key node.keys)
        rw [if_neg found, shape.1, here, shape.lookup_child sorted found here]
        exact ih below (sorted_child shape sorted here)

theorem findNodeAndIndex_isSome {levels : Nat} {node : Node Key Value}
    (shape : Balanced levels node) (sorted : Sorted (inOrder levels node)) (key : Key) :
    (findNodeAndIndex levels node key).isSome = ((inOrder levels node).lookup key).isSome := by
  rw [← searchNode_eq_lookup shape sorted]
  induction levels generalizing node with
  | zero =>
      have ascending := shape.ascending sorted
      rw [findNodeAndIndex, searchNode, bisectLeft_eq_scan ascending]
      by_cases found : node.keys[scan key node.keys]? = some key
      · obtain ⟨value, valued, _⟩ := shape.entry_at found
        rw [if_pos found, if_pos found, valued]
        rfl
      · rw [if_neg found, if_neg found]
        rfl
  | succ levels ih =>
      have ascending := shape.ascending sorted
      rw [findNodeAndIndex, searchNode, bisectLeft_eq_scan ascending]
      by_cases found : node.keys[scan key node.keys]? = some key
      · obtain ⟨value, valued, _⟩ := shape.entry_at found
        rw [if_pos found, if_pos found, valued]
        rfl
      · obtain ⟨child, here, below⟩ := shape.child_at (scan_le key node.keys)
        rw [if_neg found, if_neg found, shape.1, here]
        exact ih below (sorted_child shape sorted here)

end

end CachyDb.BTree
