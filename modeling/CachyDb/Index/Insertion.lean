import CachyDb.Index.Refinement

set_option autoImplicit false

/-! Insertion into the B-tree: an assignment in place, a split and the descent keep
the balance, and each changes the listed entries as its name says. -/

namespace CachyDb.BTree

open SortedEntries

variable {Key Value : Type}

theorem zip_set {Left Right : Type} (lefts : List Left) (rights : List Right) {i : Nat}
    {left : Left} (found : lefts[i]? = some left) (right : Right) :
    lefts.zip (rights.set i right) = (lefts.zip rights).set i (left, right) := by
  induction lefts generalizing rights i with
  | nil => cases found
  | cons head lefts ih =>
      cases rights with
      | nil => rfl
      | cons first rights =>
          cases i with
          | zero =>
              cases found
              rfl
          | succ i =>
              have later := ih rights (i := i) found
              simp only [List.set_cons_succ, List.zip_cons_cons, later]

theorem zip_insertAt {Left Right : Type} (lefts : List Left) (rights : List Right)
    (same : rights.length = lefts.length) (i : Nat) (left : Left) (right : Right) :
    (insertAt i left lefts).zip (insertAt i right rights) =
      insertAt i (left, right) (lefts.zip rights) := by
  have level : (lefts.take i).length = (rights.take i).length := by
    rw [List.length_take, List.length_take, same]
  rw [insertAt, insertAt, insertAt, List.zip_append level, List.zip_cons_cons]
  simp only [List.zip, List.take_zipWith, List.drop_zipWith]

theorem Balanced.set_value {levels : Nat} {node : Node Key Value} (shape : Balanced levels node)
    (i : Nat) (value : Value) :
    Balanced levels (.mk node.leaf node.keys (node.values.set i value) node.children) := by
  cases levels with
  | zero => exact ⟨shape.1, by simpa using shape.2.1, shape.2.2⟩
  | succ levels => exact ⟨shape.1, by simpa using shape.2.1, shape.2.2⟩

theorem Balanced.set_child {levels : Nat} {node child : Node Key Value}
    (shape : Balanced (levels + 1) node) (below : Balanced levels child) (i : Nat) :
    Balanced (levels + 1) (.mk node.leaf node.keys node.values (node.children.set i child)) := by
  obtain ⟨internal, width, count, all⟩ := shape
  refine ⟨internal, width, by simpa using count, ?_⟩
  intro other member
  rcases List.mem_or_eq_of_mem_set member with old | rfl
  · exact all other old
  · exact below

/-- A node read around one of its children, when that child is another. -/
theorem inOrder_set_child {levels : Nat} {node child other : Node Key Value}
    (shape : Balanced (levels + 1) node) {i : Nat} (found : node.children[i]? = some child)
    (below : Balanced levels other) :
    inOrder (levels + 1) (.mk node.leaf node.keys node.values (node.children.set i other)) =
      before ((node.children.take i).map (inOrder levels)) (node.entries.take i) ++
        (inOrder levels other ++
          after (node.entries.drop i) ((node.children.drop (i + 1)).map (inOrder levels))) := by
  have inside : i < node.children.length := (List.getElem?_eq_some_iff.mp found).1
  have replaced := shape.set_child below i
  have here : (Node.mk node.leaf node.keys node.values (node.children.set i other)).children[i]? =
      some other := by
    rw [Node.children_mk, List.getElem?_set_self inside]
  rw [inOrder_cut replaced here, Node.children_mk, List.take_set_of_le (Nat.le_refl i),
    List.drop_set_of_lt (Nat.lt_succ_self i)]
  rfl

/-- A node listed around one of its own entries, with any value there. -/
theorem inOrder_set_value {levels : Nat} {node : Node Key Value} (shape : Balanced levels node)
    {i : Nat} {key : Key} (found : node.keys[i]? = some key) :
    ∃ front back old, inOrder levels node = front ++ (key, old) :: back ∧ ∀ value,
      inOrder levels (.mk node.leaf node.keys (node.values.set i value) node.children) =
        front ++ (key, value) :: back := by
  obtain ⟨old, valued, entry⟩ := shape.entry_at found
  have inside : i < node.entries.length := (List.getElem?_eq_some_iff.mp entry).1
  have place : (node.entries.take i).length = i := by
    rw [List.length_take]
    omega
  have cut := cut_at node.entries entry
  have replaced : ∀ value, node.keys.zip (node.values.set i value) =
      node.entries.take i ++ (key, value) :: node.entries.drop (i + 1) := by
    intro value
    rw [zip_set node.keys node.values found value]
    show node.entries.set i (key, value) = _
    rw [cut, set_cut _ _ _ _ place, ← cut]
  cases levels with
  | zero =>
      exact ⟨node.entries.take i, node.entries.drop (i + 1), old, cut, replaced⟩
  | succ levels =>
      have width := shape.entries_length
      obtain ⟨child, here, below⟩ := shape.child_at (i := i) (by omega)
      have count := shape.2.2.1
      obtain ⟨next, following, _⟩ := shape.child_at (i := i + 1) (by omega)
      have behind : node.children.drop (i + 1) = next :: node.children.drop (i + 2) := by
        have bound := (List.getElem?_eq_some_iff.mp following)
        rw [← bound.2, List.getElem_cons_drop]
      refine ⟨before ((node.children.take i).map (inOrder levels)) (node.entries.take i) ++
          inOrder levels child,
        inOrder levels next ++ after (node.entries.drop (i + 1))
          ((node.children.drop (i + 2)).map (inOrder levels)), old, ?_, ?_⟩
      · rw [inOrder_cut shape here, behind]
        have rest : node.entries.drop i = (key, old) :: node.entries.drop (i + 1) := by
          have bound := (List.getElem?_eq_some_iff.mp entry)
          rw [← bound.2, List.getElem_cons_drop]
        rw [rest, List.map_cons, after, List.append_assoc]
      · intro value
        have cutNew := inOrder_cut (shape.set_value i value) (i := i) here
        rw [cutNew, Node.children_mk, behind]
        have entries : (Node.mk node.leaf node.keys (node.values.set i value)
            node.children).entries = node.entries.take i ++ (key, value) ::
              node.entries.drop (i + 1) := replaced value
        rw [entries, List.take_left' place, List.drop_left' place, List.map_cons, after,
          List.append_assoc]

section

variable [LinearOrder Key]

theorem insertEntry_replace {front back : List (Key × Value)} {key : Key} {old : Value}
    (sorted : Sorted (front ++ (key, old) :: back)) (value : Value) :
    insertEntry key value (front ++ (key, old) :: back) = front ++ (key, value) :: back := by
  obtain ⟨_, _, across⟩ := sorted_append.mp sorted
  rw [insertEntry_append fun entry member => across entry member (key, old) List.mem_cons_self]
  rw [insertEntry, if_neg (lt_irrefl key), if_pos rfl]

/-- Storing below a node happens in the child on the way to the key. -/
theorem insertEntry_around {levels : Nat} {node child : Node Key Value} {key : Key}
    (shape : Balanced (levels + 1) node) (sorted : Sorted (inOrder (levels + 1) node))
    (missing : node.keys[scan key node.keys]? ≠ some key)
    (found : node.children[scan key node.keys]? = some child) (value : Value) :
    insertEntry key value (inOrder (levels + 1) node) =
      before ((node.children.take (scan key node.keys)).map (inOrder levels))
        (node.entries.take (scan key node.keys)) ++
        (insertEntry key value (inOrder levels child) ++
          after (node.entries.drop (scan key node.keys))
            ((node.children.drop (scan key node.keys + 1)).map (inOrder levels))) := by
  obtain ⟨smaller, greater⟩ := shape.around sorted missing found
  rw [inOrder_cut shape found, insertEntry_append smaller, insertEntry_before greater]

theorem assignFound_spec {levels : Nat} {node : Node Key Value} (shape : Balanced levels node)
    (sorted : Sorted (inOrder levels node)) {key : Key}
    (present : ((inOrder levels node).lookup key).isSome) (value : Value) :
    Balanced levels (assignFound levels node key value) ∧
      inOrder levels (assignFound levels node key value) =
        insertEntry key value (inOrder levels node) := by
  have here : ∀ {levels : Nat} {node : Node Key Value}, Balanced levels node →
      Sorted (inOrder levels node) → node.keys[scan key node.keys]? = some key →
      Balanced levels (.mk node.leaf node.keys (node.values.set (scan key node.keys) value)
          node.children) ∧
        inOrder levels (.mk node.leaf node.keys (node.values.set (scan key node.keys) value)
          node.children) = insertEntry key value (inOrder levels node) := by
    intro levels node shape sorted found
    obtain ⟨front, back, old, listed, replaced⟩ := inOrder_set_value shape found
    refine ⟨shape.set_value _ value, ?_⟩
    rw [listed] at sorted
    rw [replaced, listed, insertEntry_replace sorted]
  induction levels generalizing node with
  | zero =>
      have ascending := shape.ascending sorted
      by_cases found : node.keys[scan key node.keys]? = some key
      · rw [assignFound, if_pos found]
        exact here shape sorted found
      · exfalso
        rw [lookup_none] at present
        · cases present
        · intro entry member
          apply absent_of_missing ascending found
          rw [← shape.entries_keys]
          exact List.mem_map_of_mem member
  | succ levels ih =>
      by_cases found : node.keys[scan key node.keys]? = some key
      · rw [assignFound, if_pos found]
        exact here shape sorted found
      · obtain ⟨child, there, below⟩ := shape.child_at (scan_le key node.keys)
        have inner := sorted_child shape sorted there
        rw [shape.lookup_child sorted found there] at present
        obtain ⟨below', listed⟩ := ih below inner present
        rw [assignFound, if_neg found, shape.1, there]
        simp only [Bool.false_eq_true, ↓reduceIte]
        have leaf := shape.1
        rw [← leaf]
        refine ⟨shape.set_child below' _, ?_⟩
        rw [inOrder_set_child shape there below', listed, insertEntry_around shape sorted found there]

end

theorem weave_split {Item : Type} {front : List (List Item)} {first : List Item}
    (level : front.length = first.length + 1) (back : List (List Item)) (entry : Item)
    (last : List Item) :
    weave (front ++ back) (first ++ entry :: last) =
      weave front first ++ entry :: weave back last := by
  induction first generalizing front with
  | nil =>
      obtain ⟨child, rfl⟩ := List.length_eq_one_iff.mp level
      rfl
  | cons head first ih =>
      cases front with
      | nil => cases level
      | cons child front =>
          have fewer : front.length = first.length + 1 := by simpa using level
          rw [List.cons_append, List.cons_append, weave, ih fewer, weave, List.append_assoc,
            List.cons_append]

/-- The median of a full node and the entries on its two sides. -/
theorem full_median {levels : Nat} {full : Node Key Value} (shape : Balanced levels full) {t : Nat}
    (degree : 2 ≤ t) (count : full.keys.length = 2 * t - 1) :
    ∃ key value, full.keys[t - 1]? = some key ∧ full.values[t - 1]? = some value ∧
      full.entries = full.entries.take (t - 1) ++ (key, value) :: full.entries.drop t := by
  have inside : t - 1 < full.keys.length := by omega
  obtain ⟨value, valued, entry⟩ := shape.entry_at (List.getElem?_eq_getElem inside)
  have cut := cut_at full.entries entry
  rw [show t - 1 + 1 = t by omega] at cut
  exact ⟨_, value, List.getElem?_eq_getElem inside, valued, cut⟩

theorem entries_halves {t : Nat} (full : Node Key Value) :
    (keptChild t full).entries = full.entries.take (t - 1) ∧
      (newChild t full).entries = full.entries.drop t := by
  simp only [Node.entries, keptChild, newChild, Node.keys_mk, Node.values_mk, List.zip,
    List.take_zipWith, List.drop_zipWith, and_self]

/-- Both halves of a full child are balanced, and with the median between them they
list what the child listed. -/
theorem halves_spec {levels : Nat} {full : Node Key Value} (shape : Balanced levels full) {t : Nat}
    (degree : 2 ≤ t) (count : full.keys.length = 2 * t - 1) :
    Balanced levels (keptChild t full) ∧ Balanced levels (newChild t full) ∧
      ∀ key value, full.keys[t - 1]? = some key → full.values[t - 1]? = some value →
        inOrder levels full = inOrder levels (keptChild t full) ++
          (key, value) :: inOrder levels (newChild t full) := by
  have width := shape.values
  obtain ⟨median, held, keyed, valued, cut⟩ := full_median shape degree count
  obtain ⟨left, right⟩ := entries_halves (t := t) full
  have lengths : (full.keys.take (t - 1)).length = t - 1 ∧ (full.values.take (t - 1)).length = t - 1 ∧
      (full.keys.drop t).length = t - 1 ∧ (full.values.drop t).length = t - 1 := by
    simp only [List.length_take, List.length_drop]
    omega
  cases levels with
  | zero =>
      obtain ⟨leaf, _, childless⟩ := shape
      refine ⟨⟨leaf, ?_, ?_⟩, ⟨leaf, ?_, ?_⟩, ?_⟩
      · show (full.values.take (t - 1)).length = (full.keys.take (t - 1)).length
        omega
      · simp only [keptChild, leaf, ↓reduceIte, Node.children_mk, childless]
      · show (full.values.drop t).length = (full.keys.drop t).length
        omega
      · simp only [newChild, leaf, ↓reduceIte, Node.children_mk]
      · intro key value hereKey hereValue
        rw [keyed, Option.some.injEq] at hereKey
        rw [valued, Option.some.injEq] at hereValue
        subst hereKey hereValue
        rw [inOrder, inOrder, inOrder, left, right, ← cut]
  | succ levels =>
      have entryCount := shape.entries_length
      obtain ⟨internal, _, children, below⟩ := shape
      have keptChildren : (keptChild t full).children = full.children.take t := by
        simp only [keptChild, internal, Bool.false_eq_true, ↓reduceIte, Node.children_mk]
      have newChildren : (newChild t full).children = full.children.drop t := by
        simp only [newChild, internal, Bool.false_eq_true, ↓reduceIte, Node.children_mk]
      refine ⟨⟨internal, ?_, ?_, ?_⟩, ⟨internal, ?_, ?_, ?_⟩, ?_⟩
      · show (full.values.take (t - 1)).length = (full.keys.take (t - 1)).length
        omega
      · show (keptChild t full).children.length = (full.keys.take (t - 1)).length + 1
        rw [keptChildren, List.length_take]
        omega
      · rw [keptChildren]
        exact fun child member => below child (List.mem_of_mem_take member)
      · show (full.values.drop t).length = (full.keys.drop t).length
        omega
      · show (newChild t full).children.length = (full.keys.drop t).length + 1
        rw [newChildren, List.length_drop]
        omega
      · rw [newChildren]
        exact fun child member => below child (List.mem_of_mem_drop member)
      · intro key value hereKey hereValue
        rw [keyed, Option.some.injEq] at hereKey
        rw [valued, Option.some.injEq] at hereValue
        subst hereKey hereValue
        have keptLeaf : (keptChild t full).leaf = false := internal
        have newLeaf : (newChild t full).leaf = false := internal
        rw [inOrder, inOrder, inOrder, internal, keptLeaf, newLeaf, left, right, keptChildren,
          newChildren]
        simp only [Bool.false_eq_true, ↓reduceIte]
        have level : ((full.children.take t).map (inOrder levels)).length =
            (full.entries.take (t - 1)).length + 1 := by
          rw [List.length_map, List.length_take, List.length_take]
          omega
        rw [← weave_split level, ← cut, ← List.map_append, List.take_append_drop]

/-- A split only moves the median up. -/
theorem splitChild_spec {levels : Nat} {parent full : Node Key Value}
    (shape : Balanced (levels + 1) parent) {i : Nat} (found : parent.children[i]? = some full)
    {t : Nat} (degree : 2 ≤ t) (count : full.keys.length = 2 * t - 1) :
    ∃ split median, splitChild t parent i = some split ∧ Balanced (levels + 1) split ∧
      inOrder (levels + 1) split = inOrder (levels + 1) parent ∧
      split.keys = insertAt i median parent.keys := by
  have inside : i < parent.children.length := (List.getElem?_eq_some_iff.mp found).1
  have below : Balanced levels full := shape.2.2.2 full (List.mem_of_getElem? found)
  have entryCount := shape.entries_length
  obtain ⟨median, held, keyed, valued, _⟩ := full_median below degree count
  obtain ⟨kept, new, halves⟩ := halves_spec below degree count
  have listed := halves median held keyed valued
  have place : (parent.children.take i).length = i := by
    rw [List.length_take]
    omega
  have keys : i ≤ parent.keys.length := by
    have children := shape.2.2.1
    omega
  have children : insertAt (i + 1) (newChild t full) (parent.children.set i (keptChild t full)) =
      parent.children.take i ++ keptChild t full :: newChild t full ::
        parent.children.drop (i + 1) := by
    have cut := cut_at parent.children found
    have moved : parent.children.set i (keptChild t full) =
        (parent.children.take i ++ [keptChild t full]) ++ parent.children.drop (i + 1) := by
      rw [cut, set_cut _ _ _ _ place, ← cut, List.append_assoc]
      rfl
    rw [moved, insertAt_cut _ _ _ (by simp [place]), List.append_assoc]
    rfl
  have result : splitChild t parent i = some (.mk parent.leaf (insertAt i median parent.keys)
      (insertAt i held parent.values) (insertAt (i + 1) (newChild t full)
        (parent.children.set i (keptChild t full)))) := by
    simp only [splitChild, found, keyed, valued]
  refine ⟨_, median, result, ?_, ?_, rfl⟩
  · refine ⟨shape.1, ?_, ?_, ?_⟩
    · have width := shape.2.1
      simp only [Node.values_mk, Node.keys_mk, insertAt, List.length_append, List.length_cons,
        List.length_take, List.length_drop]
      omega
    · have width := shape.2.2.1
      rw [Node.children_mk, children]
      simp only [Node.keys_mk, insertAt, List.length_append, List.length_cons, List.length_take,
        List.length_drop]
      omega
    · rw [Node.children_mk, children]
      intro child member
      rcases List.mem_append.mp member with first | last
      · exact shape.2.2.2 child (List.mem_of_mem_take first)
      · rcases List.mem_cons.mp last with rfl | last
        · exact kept
        · rcases List.mem_cons.mp last with rfl | last
          · exact new
          · exact shape.2.2.2 child (List.mem_of_mem_drop last)
  · have entries : (Node.mk parent.leaf (insertAt i median parent.keys)
        (insertAt i held parent.values) (insertAt (i + 1) (newChild t full)
          (parent.children.set i (keptChild t full)))).entries =
        parent.entries.take i ++ (median, held) :: parent.entries.drop i :=
      zip_insertAt _ _ shape.2.1 i median held
    have leaf := shape.1
    rw [children, leaf] at entries
    rw [inOrder_cut shape found, inOrder, Node.leaf_mk, leaf, Node.children_mk, children, entries,
      List.map_append, List.map_cons, List.map_cons]
    have level : ((parent.children.take i).map (inOrder levels)).length =
        (parent.entries.take i).length := by
      rw [List.length_map, List.length_take, List.length_take]
      have children := shape.2.2.1
      omega
    have same : (inOrder levels (newChild t full) ::
        (parent.children.drop (i + 1)).map (inOrder levels)).length =
        ((median, held) :: parent.entries.drop i).length := by
      rw [List.length_cons, List.length_map, List.length_drop, List.length_cons, List.length_drop]
      have children := shape.2.2.1
      omega
    simp only [Bool.false_eq_true, ↓reduceIte]
    rw [weave_cut level _ same, after, listed, List.append_assoc, List.cons_append]

section

variable [LinearOrder Key]

/-- In the split node the descent goes to the half the key belongs to. -/
theorem scan_insertAt (key median : Key) (keys : List Key) {i : Nat}
    (smaller : ∀ other ∈ keys.take i, other < key) (greater : ∀ other ∈ keys.drop i, key < other)
    (bound : i ≤ keys.length) :
    scan key (insertAt i median keys) = if key > median then i + 1 else i := by
  have behind : ∀ first last : List Key, (∀ other ∈ first, other < key) →
      scan key (first ++ last) = first.length + scan key last := by
    intro first last below
    induction first with
    | nil => simp
    | cons head first ih =>
        have small : key > head := below head List.mem_cons_self
        rw [List.cons_append, scan, if_pos small,
          ih fun other member => below other (List.mem_cons_of_mem _ member), List.length_cons]
        omega
  have stop : scan key (keys.drop i) = 0 := by
    cases rest : keys.drop i with
    | nil => rfl
    | cons head last =>
        have great : key < head := greater head (by rw [rest]; exact List.mem_cons_self)
        rw [scan, if_neg (not_lt.mpr (le_of_lt great))]
  rw [insertAt, behind _ _ smaller, List.length_take, Nat.min_eq_left bound, scan, stop]
  split <;> rfl

/-- After the proactive split the child on the way to the key is the one named. -/
theorem makeRoom_spec {levels : Nat} {node : Node Key Value} (shape : Balanced (levels + 1) node)
    (sorted : Sorted (inOrder (levels + 1) node)) {key : Key}
    (missing : (inOrder (levels + 1) node).lookup key = none) {t : Nat} (degree : 2 ≤ t) :
    ∃ roomy, makeRoom t node key = some (roomy, scan key roomy.keys) ∧
      Balanced (levels + 1) roomy ∧ inOrder (levels + 1) roomy = inOrder (levels + 1) node := by
  have ascending := shape.ascending sorted
  have notHere := shape.missing_here sorted missing (scan key node.keys)
  obtain ⟨child, there, _⟩ := shape.child_at (scan_le key node.keys)
  by_cases full : child.keys.length = 2 * t - 1
  · obtain ⟨split, median, result, balanced, listed, keys⟩ := splitChild_spec shape there degree full
    have bound := scan_le key node.keys
    have place := scan_insertAt key median node.keys (scan_smaller key node.keys)
      (scan_strict ascending notHere) bound
    have promoted : split.keys[scan key node.keys]? = some median := by
      rw [keys, insertAt, List.getElem?_append_right (by rw [List.length_take]; omega)]
      rw [List.length_take, Nat.min_eq_left bound, Nat.sub_self, List.getElem?_cons_zero]
    refine ⟨split, ?_, balanced, listed⟩
    rw [keys, place]
    simp only [makeRoom, bisectLeft_eq_scan ascending, there, full, ↓reduceIte, result, promoted]
  · refine ⟨node, ?_, shape, rfl⟩
    simp only [makeRoom, bisectLeft_eq_scan ascending, there, full, ↓reduceIte]

theorem insertNonFull_spec {levels : Nat} {node : Node Key Value} (shape : Balanced levels node)
    (sorted : Sorted (inOrder levels node)) {key : Key}
    (missing : (inOrder levels node).lookup key = none) {t : Nat} (degree : 2 ≤ t)
    (value : Value) :
    ∃ changed, insertNonFull t levels node key value = some changed ∧ Balanced levels changed ∧
      inOrder levels changed = insertEntry key value (inOrder levels node) := by
  induction levels generalizing node with
  | zero =>
      have ascending := shape.ascending sorted
      have notHere := shape.missing_here sorted missing (scan key node.keys)
      refine ⟨_, by rw [insertNonFull, shape.1]; rfl, ?_, ?_⟩
      · refine ⟨rfl, ?_, shape.2.2⟩
        have width := shape.2.1
        simp only [Node.values_mk, Node.keys_mk, insertAt, List.length_append, List.length_cons,
          List.length_take, List.length_drop]
        omega
      · rw [inOrder, Node.entries, Node.keys_mk, Node.values_mk, zip_insertAt _ _ shape.2.1,
          bisectLeft_eq_scan ascending]
        show insertAt _ _ node.entries = insertEntry key value node.entries
        have keys := shape.entries_keys
        have smaller : ∀ entry ∈ node.entries.take (scan key node.keys), entry.1 < key := by
          intro entry member
          apply scan_smaller key node.keys
          have mapped := List.mem_map_of_mem (f := Prod.fst) member
          rwa [List.map_take, keys] at mapped
        have greater : ∀ entry ∈ node.entries.drop (scan key node.keys), key < entry.1 := by
          intro entry member
          apply scan_strict ascending notHere
          have mapped := List.mem_map_of_mem (f := Prod.fst) member
          rwa [List.map_drop, keys] at mapped
        have stored := insertEntry_before greater value []
        rw [List.nil_append] at stored
        have cut := insertEntry_append smaller value (node.entries.drop (scan key node.keys))
        rw [List.take_append_drop, stored] at cut
        rw [cut]
        rfl
  | succ levels ih =>
      obtain ⟨roomy, room, balanced, listed⟩ := makeRoom_spec shape sorted missing degree
      rw [← listed] at sorted missing
      have notHere := balanced.missing_here sorted missing (scan key roomy.keys)
      obtain ⟨child, there, below⟩ := balanced.child_at (scan_le key roomy.keys)
      have inner := sorted_child balanced sorted there
      rw [balanced.lookup_child sorted notHere there] at missing
      obtain ⟨changed, done, below', stored⟩ := ih below inner missing
      refine ⟨_, ?_, balanced.set_child below' (scan key roomy.keys), ?_⟩
      · rw [insertNonFull, shape.1]
        simp only [Bool.false_eq_true, ↓reduceIte, room, there, done]
      · rw [inOrder_set_child balanced there below', stored, ← listed,
          insertEntry_around balanced sorted notHere there]

/-- A tree as insertions build it. -/
structure Tree.WellFormed (tree : Tree Key Value) : Prop where
  degree : 2 ≤ tree.t
  balanced : Balanced tree.root.depth tree.root
  sorted : Sorted tree.inOrderTraversal
  counted : tree.size = tree.inOrderTraversal.length

theorem Tree.init_wellFormed {t : Nat} (degree : 2 ≤ t) :
    (Tree.init t : Tree Key Value).WellFormed :=
  ⟨degree, ⟨rfl, rfl, rfl⟩, sorted_nil, rfl⟩

theorem Tree.WellFormed.search {tree : Tree Key Value} (formed : tree.WellFormed) (key : Key) :
    tree.search key = tree.inOrderTraversal.lookup key :=
  searchNode_eq_lookup formed.balanced formed.sorted key

theorem Tree.WellFormed.contains {tree : Tree Key Value} (formed : tree.WellFormed) (key : Key) :
    tree.contains key = (tree.inOrderTraversal.lookup key).isSome :=
  findNodeAndIndex_isSome formed.balanced formed.sorted key

omit [LinearOrder Key] in
/-- A new root above a full one lists the same entries. -/
theorem new_root {levels : Nat} {root : Node Key Value} (shape : Balanced levels root) :
    Balanced (levels + 1) (.mk false [] [] [root]) ∧
      inOrder (levels + 1) (.mk false [] [] [root]) = inOrder levels root := by
  refine ⟨⟨rfl, rfl, rfl, ?_⟩, rfl⟩
  intro child member
  rw [Node.children_mk, List.mem_singleton] at member
  rwa [member]

/-- Insertion stores the entry, and the tree stays well formed. -/
theorem Tree.WellFormed.insert {tree : Tree Key Value} (formed : tree.WellFormed) (key : Key)
    (value : Value) :
    ∃ tree', tree.insert key value = some tree' ∧ tree'.WellFormed ∧
      tree'.inOrderTraversal = insertEntry key value tree.inOrderTraversal := by
  have contained := formed.contains key
  obtain ⟨degree, balanced, sorted, counted⟩ := formed
  have grown := length_insertEntry sorted key value
  have stored := insertEntry_sorted sorted key value
  have ending : ∀ {levels : Nat} {root : Node Key Value} (size : Nat), Balanced levels root →
      inOrder levels root = insertEntry key value tree.inOrderTraversal →
      size = (insertEntry key value tree.inOrderTraversal).length →
      (Tree.mk root tree.t size).WellFormed ∧
        (Tree.mk root tree.t size).inOrderTraversal =
          insertEntry key value tree.inOrderTraversal := by
    intro levels root size shape listed count
    have traversal : (Tree.mk root tree.t size).inOrderTraversal =
        insertEntry key value tree.inOrderTraversal := by
      rw [← listed, Tree.inOrderTraversal, shape.depth]
    refine ⟨⟨degree, ?_, ?_, ?_⟩, traversal⟩
    · rw [shape.depth]
      exact shape
    · rw [traversal]
      exact stored
    · rw [traversal]
      exact count
  by_cases present : tree.contains key = true
  · rw [present] at contained
    rw [← contained, if_pos rfl, ← counted] at grown
    obtain ⟨balanced', listed⟩ := assignFound_spec balanced sorted contained.symm value
    obtain ⟨formed', traversal⟩ := ending tree.size balanced' listed grown.symm
    refine ⟨_, ?_, formed', traversal⟩
    simp only [Tree.insert, present, ↓reduceIte]
  · rw [Bool.not_eq_true] at present
    rw [present] at contained
    have missing : tree.inOrderTraversal.lookup key = none := by
      rw [← Option.not_isSome_iff_eq_none, ← contained]
      exact Bool.false_ne_true
    rw [missing, if_neg (by simp), ← counted] at grown
    by_cases full : tree.root.keys.length = 2 * tree.t - 1
    · obtain ⟨above, same⟩ := new_root balanced
      obtain ⟨temp, _, result, shape, listed, _⟩ := splitChild_spec above (i := 0) rfl degree full
      rw [same] at listed
      have absent : (inOrder (tree.root.depth + 1) temp).lookup key = none := by
        rw [listed]
        exact missing
      obtain ⟨root, done, balanced', inserted⟩ := insertNonFull_spec shape
        (by rw [listed]; exact sorted) absent degree value
      rw [listed] at inserted
      obtain ⟨formed', traversal⟩ := ending (tree.size + 1) balanced' inserted grown.symm
      refine ⟨_, ?_, formed', traversal⟩
      simp only [Tree.insert, present, Bool.false_eq_true, ↓reduceIte, full, result, shape.depth, done]
    · obtain ⟨root, done, balanced', inserted⟩ :=
        insertNonFull_spec balanced sorted missing degree value
      obtain ⟨formed', traversal⟩ := ending (tree.size + 1) balanced' inserted grown.symm
      refine ⟨_, ?_, formed', traversal⟩
      simp only [Tree.insert, present, Bool.false_eq_true, ↓reduceIte, full, done]

end

end CachyDb.BTree

namespace CachyDb

open BTree SortedEntries

/-- A `BTreeMemTable` as the constructor and insertions leave it. -/
structure MemTable (Key Value : Type) [LinearOrder Key] where
  tree : Tree Key Value
  formed : tree.WellFormed

namespace MemTable

variable {Key Value : Type} [LinearOrder Key]

/-- `BTreeMemTable()`, of the default minimum degree. -/
def empty : MemTable Key Value := ⟨.init 10, Tree.init_wellFormed (by decide)⟩

theorem insert_isSome (memtable : MemTable Key Value) (key : Key) (value : Value) :
    (memtable.tree.insert key value).isSome := by
  obtain ⟨tree, inserted, _⟩ := memtable.formed.insert key value
  rw [inserted]
  rfl

theorem insert_formed (memtable : MemTable Key Value) (key : Key) (value : Value) :
    ((memtable.tree.insert key value).get (memtable.insert_isSome key value)).WellFormed := by
  obtain ⟨tree, inserted, formed, _⟩ := memtable.formed.insert key value
  simpa only [inserted, Option.get_some] using formed

def insert (memtable : MemTable Key Value) (key : Key) (value : Value) : MemTable Key Value :=
  ⟨(memtable.tree.insert key value).get (memtable.insert_isSome key value),
    memtable.insert_formed key value⟩

def search (memtable : MemTable Key Value) (key : Key) : Option Value := memtable.tree.search key

def contains (memtable : MemTable Key Value) (key : Key) : Bool := memtable.tree.contains key

def size (memtable : MemTable Key Value) : Nat := memtable.tree.size

def entries (memtable : MemTable Key Value) : List (Key × Value) := memtable.tree.inOrderTraversal

/-- The map that a memtable is. -/
def lookup (memtable : MemTable Key Value) (key : Key) : Option Value :=
  memtable.entries.lookup key

@[simp] theorem search_eq_lookup (memtable : MemTable Key Value) (key : Key) :
    memtable.search key = memtable.lookup key := memtable.formed.search key

@[simp] theorem contains_eq (memtable : MemTable Key Value) (key : Key) :
    memtable.contains key = (memtable.lookup key).isSome := memtable.formed.contains key

theorem entries_sorted (memtable : MemTable Key Value) : Sorted memtable.entries :=
  memtable.formed.sorted

theorem size_eq (memtable : MemTable Key Value) : memtable.size = memtable.entries.length :=
  memtable.formed.counted

theorem entries_insert (memtable : MemTable Key Value) (key : Key) (value : Value) :
    (memtable.insert key value).entries = insertEntry key value memtable.entries := by
  obtain ⟨tree, inserted, _, traversal⟩ := memtable.formed.insert key value
  simpa only [entries, insert, inserted, Option.get_some] using traversal

@[simp] theorem lookup_empty (key : Key) : (empty : MemTable Key Value).lookup key = none := rfl

@[simp] theorem lookup_insert (memtable : MemTable Key Value) (key : Key) (value : Value)
    (other : Key) : (memtable.insert key value).lookup other =
      if other = key then some value else memtable.lookup other := by
  rw [lookup, entries_insert, lookup_insertEntry]
  rfl

theorem lookup_of_mem {memtable : MemTable Key Value} {key : Key} {value : Value}
    (member : (key, value) ∈ memtable.entries) : memtable.lookup key = some value :=
  SortedEntries.lookup_of_mem memtable.entries_sorted member

theorem mem_of_lookup {memtable : MemTable Key Value} {key : Key} {value : Value}
    (found : memtable.lookup key = some value) : (key, value) ∈ memtable.entries :=
  SortedEntries.mem_of_lookup found

theorem size_pos_of_lookup {memtable : MemTable Key Value} {key : Key} {value : Value}
    (found : memtable.lookup key = some value) : 0 < memtable.size := by
  rw [size_eq]
  exact List.length_pos_of_mem (mem_of_lookup found)

end MemTable

end CachyDb
