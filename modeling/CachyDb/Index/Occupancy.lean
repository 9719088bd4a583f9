import CachyDb.Index.Calls

set_option autoImplicit false

/-! How full the nodes of the tree are, and what this says about its height. -/

namespace CachyDb.BTree

open SortedEntries

/-- `node` is found `level` levels below `root`. -/
inductive Below {Key Value : Type} (root : Node Key Value) : Nat → Node Key Value → Prop
  | root : Below root 0 root
  | child {level : Nat} {node child : Node Key Value} :
      Below root level node → child ∈ node.children → Below root (level + 1) child

/-- A B-tree of minimum degree `t` with all leaves at depth `height`. -/
structure IsBTree {Key Value : Type} (t height : Nat) (root : Node Key Value) : Prop where
  leaves : ∀ level node, Below root level node → (node.leaf = true ↔ level = height)
  childless : ∀ level node, Below root level node → node.leaf = true → node.children = []
  values : ∀ level node, Below root level node → node.values.length = node.keys.length
  children : ∀ level node, Below root level node → node.leaf = false →
    node.children.length = node.keys.length + 1
  atMost : ∀ level node, Below root level node → node.keys.length ≤ 2 * t - 1
  atLeast : ∀ level node, Below root level node → level ≠ 0 → t - 1 ≤ node.keys.length

section

variable {Key Value : Type} {t : Nat}

/-- No node is too full, and those below this one are full enough. -/
def Occupied (t : Nat) : Nat → Node Key Value → Prop
  | 0, node => node.keys.length ≤ 2 * t - 1
  | levels + 1, node => node.keys.length ≤ 2 * t - 1 ∧
      ∀ child ∈ node.children, t - 1 ≤ child.keys.length ∧ Occupied t levels child

theorem Occupied.atMost {levels : Nat} {node : Node Key Value} (occupied : Occupied t levels node) :
    node.keys.length ≤ 2 * t - 1 := by
  cases levels with
  | zero => exact occupied
  | succ levels => exact occupied.1

/-- Both halves of a full node are just full enough. -/
theorem Occupied.halves {levels : Nat} {full : Node Key Value} (occupied : Occupied t levels full)
    (shape : Balanced levels full) (degree : 2 ≤ t) (count : full.keys.length = 2 * t - 1) :
    ((keptChild t full).keys.length = t - 1 ∧ Occupied t levels (keptChild t full)) ∧
      (newChild t full).keys.length = t - 1 ∧ Occupied t levels (newChild t full) := by
  have kept : (keptChild t full).keys.length = t - 1 := by
    simp only [keptChild, Node.keys_mk, List.length_take]
    omega
  have new : (newChild t full).keys.length = t - 1 := by
    simp only [newChild, Node.keys_mk, List.length_drop]
    omega
  cases levels with
  | zero =>
      simp only [Occupied]
      omega
  | succ levels =>
      have internal := shape.1
      have below := occupied.2
      refine ⟨⟨kept, by omega, ?_⟩, new, by omega, ?_⟩
      · simp only [keptChild, internal, Bool.false_eq_true, ↓reduceIte, Node.children_mk]
        exact fun child member => below child (List.mem_of_mem_take member)
      · simp only [newChild, internal, Bool.false_eq_true, ↓reduceIte, Node.children_mk]
        exact fun child member => below child (List.mem_of_mem_drop member)

theorem insertAt_length {Item : Type} (i : Nat) (item : Item) (items : List Item) :
    (insertAt i item items).length = items.length + 1 := by
  simp only [insertAt, List.length_append, List.length_cons, List.length_take, List.length_drop]
  omega

theorem mem_insertAt {Item : Type} {i : Nat} {item other : Item} {items : List Item}
    (member : other ∈ insertAt i item items) : other = item ∨ other ∈ items := by
  rcases List.mem_append.mp member with front | back
  · exact Or.inr (List.mem_of_mem_take front)
  · rcases List.mem_cons.mp back with rfl | back
    · exact Or.inl rfl
    · exact Or.inr (List.mem_of_mem_drop back)

/-- The parent of a split node gets one key more, and the two halves beside each other. -/
theorem splitChild_inv {parent full split : Node Key Value} {i : Nat}
    (found : parent.children[i]? = some full) (done : splitChild t parent i = some split) :
    split.keys.length = parent.keys.length + 1 ∧
      split.children = insertAt (i + 1) (newChild t full)
        (parent.children.set i (keptChild t full)) := by
  unfold splitChild at done
  rw [found] at done
  dsimp only at done
  split at done
  · cases done
    exact ⟨insertAt_length i _ _, rfl⟩
  · cases done

theorem Occupied.split {levels : Nat} {parent full split : Node Key Value} {i : Nat}
    (occupied : Occupied t (levels + 1) parent) (shape : Balanced (levels + 1) parent)
    (degree : 2 ≤ t) (room : parent.keys.length < 2 * t - 1)
    (found : parent.children[i]? = some full) (count : full.keys.length = 2 * t - 1)
    (done : splitChild t parent i = some split) : Occupied t (levels + 1) split := by
  obtain ⟨keys, children⟩ := splitChild_inv found done
  have member := List.mem_of_getElem? found
  obtain ⟨kept, new⟩ := (occupied.2 full member).2.halves (shape.2.2.2 full member) degree count
  refine ⟨by omega, ?_⟩
  rw [children]
  intro child inside
  rcases mem_insertAt inside with rfl | inside
  · exact ⟨Nat.le_of_eq new.1.symm, new.2⟩
  · rcases List.mem_or_eq_of_mem_set inside with old | rfl
    · exact occupied.2 child old
    · exact ⟨Nat.le_of_eq kept.1.symm, kept.2⟩

/-- The halves stand where the full child was and behind it. -/
theorem split_children (children : List (Node Key Value)) {i : Nat} (inside : i < children.length)
    (kept new : Node Key Value) :
    (insertAt (i + 1) new (children.set i kept))[i]? = some kept ∧
      (insertAt (i + 1) new (children.set i kept))[i + 1]? = some new := by
  have width : ((children.set i kept).take (i + 1)).length = i + 1 := by
    rw [List.length_take, List.length_set]
    omega
  constructor
  · rw [insertAt, List.getElem?_append_left (by omega), List.getElem?_take, if_pos (by omega),
      List.getElem?_set_self inside]
  · rw [insertAt, List.getElem?_append_right (by omega), width, Nat.sub_self]
    rfl

end

section

variable {Key Value : Type} [LinearOrder Key] {t : Nat}

/-- After the proactive split the child to go into has room. -/
theorem Occupied.makeRoom {levels : Nat} {node roomy child : Node Key Value} {key : Key} {i : Nat}
    (occupied : Occupied t (levels + 1) node) (shape : Balanced (levels + 1) node)
    (degree : 2 ≤ t) (room : node.keys.length < 2 * t - 1)
    (done : BTree.makeRoom t node key = some (roomy, i)) (there : roomy.children[i]? = some child) :
    Occupied t (levels + 1) roomy ∧ node.keys.length ≤ roomy.keys.length ∧
      child.keys.length < 2 * t - 1 := by
  unfold BTree.makeRoom at done
  dsimp only at done
  cases found : node.children[bisectLeft node.keys key]? with
  | none =>
      rw [found] at done
      cases done
  | some full =>
      rw [found] at done
      dsimp only at done
      have member := List.mem_of_getElem? found
      by_cases count : full.keys.length = 2 * t - 1
      · rw [if_pos count] at done
        cases split : splitChild t node (bisectLeft node.keys key) with
        | none =>
            rw [split] at done
            cases done
        | some split' =>
            rw [split] at done
            dsimp only at done
            obtain ⟨keys, children⟩ := splitChild_inv found split
            have inside := (List.getElem?_eq_some_iff.mp found).1
            obtain ⟨first, second⟩ := split_children node.children inside (keptChild t full)
              (newChild t full)
            obtain ⟨kept, new⟩ := (occupied.2 full member).2.halves (shape.2.2.2 full member) degree
              count
            have occupied' := occupied.split shape degree room found count split
            split at done
            · cases done
            · simp only [Option.some.injEq, Prod.mk.injEq] at done
              obtain ⟨rfl, rfl⟩ := done
              refine ⟨occupied', by omega, ?_⟩
              rw [children] at there
              split at there
              · rw [second, Option.some.injEq] at there
                rw [← there]
                omega
              · rw [first, Option.some.injEq] at there
                rw [← there]
                omega
      · rw [if_neg count] at done
        simp only [Option.some.injEq, Prod.mk.injEq] at done
        obtain ⟨rfl, rfl⟩ := done
        rw [found, Option.some.injEq] at there
        subst there
        have bound := (occupied.2 _ member).2.atMost
        exact ⟨occupied, Nat.le_refl _, by omega⟩

theorem Occupied.insertNonFull {levels : Nat} {node changed : Node Key Value} {key : Key}
    {value : Value} (occupied : Occupied t levels node) (shape : Balanced levels node)
    (sorted : Sorted (inOrder levels node)) (missing : (inOrder levels node).lookup key = none)
    (degree : 2 ≤ t) (room : node.keys.length < 2 * t - 1)
    (done : BTree.insertNonFull t levels node key value = some changed) :
    Occupied t levels changed ∧ node.keys.length ≤ changed.keys.length := by
  induction levels generalizing node changed with
  | zero =>
      rw [BTree.insertNonFull, shape.1] at done
      simp only [↓reduceIte, Option.some.injEq] at done
      subst done
      simp only [Occupied, Node.keys_mk, insertAt_length]
      omega
  | succ levels ih =>
      obtain ⟨roomy, made, balanced, listed⟩ := makeRoom_spec shape sorted missing degree
      obtain ⟨child, there, below⟩ := balanced.child_at (scan_le key roomy.keys)
      rw [BTree.insertNonFull, shape.1] at done
      simp only [Bool.false_eq_true, ↓reduceIte, made, there] at done
      obtain ⟨occupied', grown, space⟩ := occupied.makeRoom shape degree room made there
      obtain ⟨enough, inner⟩ := occupied'.2 child (List.mem_of_getElem? there)
      rw [← listed] at sorted missing
      have notHere := balanced.missing_here sorted missing (scan key roomy.keys)
      rw [balanced.lookup_child sorted notHere there] at missing
      cases stored : BTree.insertNonFull t levels child key value with
      | none =>
          rw [stored] at done
          cases done
      | some child' =>
          rw [stored] at done
          cases done
          obtain ⟨inner', more⟩ := ih inner below (sorted_child balanced sorted there) missing space
            stored
          refine ⟨⟨occupied'.1, ?_⟩, grown⟩
          intro other member
          rcases List.mem_or_eq_of_mem_set member with old | rfl
          · exact occupied'.2 other old
          · exact ⟨by omega, inner'⟩

/-- A new value moves no key. -/
theorem Occupied.assignFound {levels : Nat} {node : Node Key Value}
    (occupied : Occupied t levels node) (key : Key) (value : Value) :
    Occupied t levels (BTree.assignFound levels node key value) ∧
      (BTree.assignFound levels node key value).keys = node.keys := by
  induction levels generalizing node with
  | zero =>
      simp only [BTree.assignFound]
      split
      · exact ⟨occupied, rfl⟩
      · exact ⟨occupied, rfl⟩
  | succ levels ih =>
      simp only [BTree.assignFound]
      split
      · exact ⟨occupied, rfl⟩
      · split
        · exact ⟨occupied, rfl⟩
        · split
          · exact ⟨occupied, rfl⟩
          · rename_i child there
            obtain ⟨enough, inner⟩ := occupied.2 child (List.mem_of_getElem? there)
            obtain ⟨inner', keys⟩ := ih inner
            refine ⟨⟨occupied.1, ?_⟩, rfl⟩
            intro other member
            rcases List.mem_or_eq_of_mem_set member with old | rfl
            · exact occupied.2 other old
            · exact ⟨by rw [keys]; exact enough, inner'⟩

/-- The nodes are full enough, and a root with children has a key. -/
structure Tree.Shaped (tree : Tree Key Value) : Prop where
  occupied : Occupied tree.t tree.root.depth tree.root
  rooted : tree.root.depth = 0 ∨ 0 < tree.root.keys.length

omit [LinearOrder Key] in
theorem Tree.init_shaped (t : Nat) : (Tree.init t : Tree Key Value).Shaped :=
  ⟨Nat.zero_le _, Or.inl rfl⟩

theorem Tree.Shaped.insert {tree tree' : Tree Key Value} (shaped : tree.Shaped)
    (formed : tree.WellFormed) {key : Key} {value : Value}
    (done : tree.insert key value = some tree') : tree'.Shaped := by
  obtain ⟨occupied, rooted⟩ := shaped
  have contained := formed.contains key
  obtain ⟨degree, balanced, sorted, _⟩ := formed
  unfold Tree.insert at done
  by_cases present : tree.contains key = true
  · rw [if_pos present, Option.some.injEq] at done
    subst done
    obtain ⟨occupied', keys⟩ := occupied.assignFound key value
    rw [contained] at present
    have depth := (assignFound_spec balanced sorted present value).1.depth
    exact ⟨by rw [depth]; exact occupied', by rw [depth, keys]; exact rooted⟩
  · rw [if_neg present] at done
    rw [contained, Option.isSome_iff_ne_none, not_not] at present
    by_cases full : tree.root.keys.length = 2 * tree.t - 1
    · obtain ⟨above, same⟩ := new_root balanced
      obtain ⟨temp, _, result, shape, listed, _⟩ := splitChild_spec above (i := 0) rfl degree full
      rw [same] at listed
      have wide : Occupied tree.t (tree.root.depth + 1) (.mk false [] [] [tree.root]) := by
        refine ⟨Nat.zero_le _, fun child member => ?_⟩
        rw [Node.children_mk, List.mem_singleton] at member
        subst member
        exact ⟨by omega, occupied⟩
      have keys := (splitChild_inv (i := 0) rfl result).1
      have occupied' := wide.split above degree (by show 0 < 2 * tree.t - 1; omega) rfl full result
      rw [Node.keys_mk, List.length_nil] at keys
      obtain ⟨root, stored, balanced', _⟩ := insertNonFull_spec shape (by rw [listed]; exact sorted)
        (by rw [listed]; exact present) degree value
      obtain ⟨occupied'', grown⟩ := occupied'.insertNonFull shape (by rw [listed]; exact sorted)
        (by rw [listed]; exact present) degree (by omega) stored
      simp only [full, ↓reduceIte, result, shape.depth, stored, Option.some.injEq] at done
      subst done
      exact ⟨by rw [balanced'.depth]; exact occupied'', Or.inr (by dsimp only; omega)⟩
    · obtain ⟨root, stored, balanced', _⟩ := insertNonFull_spec balanced sorted present degree value
      have most := occupied.atMost
      obtain ⟨occupied', grown⟩ := occupied.insertNonFull balanced sorted present degree (by omega)
        stored
      simp only [full, ↓reduceIte, stored, Option.some.injEq] at done
      subst done
      refine ⟨by rw [balanced'.depth]; exact occupied', ?_⟩
      rw [balanced'.depth]
      exact rooted.imp id fun some_key => Nat.lt_of_lt_of_le some_key grown

end

section

variable {Key Value : Type} {t : Nat}

/-- What the levels of a root say about a node below it. -/
theorem Below.shape {root node : Node Key Value} {level levels : Nat} (below : Below root level node)
    (balanced : Balanced levels root) (occupied : Occupied t levels root) :
    ∃ rest, levels = level + rest ∧ Balanced rest node ∧ Occupied t rest node ∧
      (level ≠ 0 → t - 1 ≤ node.keys.length) := by
  induction below with
  | root => exact ⟨levels, (Nat.zero_add _).symm, balanced, occupied, fun deep => absurd rfl deep⟩
  | @child level node child _ member ih =>
      obtain ⟨rest, total, shape, filled, _⟩ := ih
      cases rest with
      | zero =>
          rw [shape.2.2] at member
          cases member
      | succ rest =>
          obtain ⟨enough, inner⟩ := filled.2 child member
          exact ⟨rest, by omega, shape.2.2.2 child member, inner, fun _ => enough⟩

theorem Balanced.leaf {levels : Nat} {node : Node Key Value} (shape : Balanced levels node) :
    node.leaf = true ↔ levels = 0 := by
  cases levels with
  | zero => simp [shape.1]
  | succ levels => simp [shape.1]

theorem Balanced.isBTree {levels : Nat} {root : Node Key Value} (balanced : Balanced levels root)
    (occupied : Occupied t levels root) : IsBTree t levels root := by
  constructor
  · intro level node below
    obtain ⟨rest, total, shape, _⟩ := below.shape balanced occupied
    rw [shape.leaf]
    omega
  · intro level node below leaf
    obtain ⟨rest, total, shape, _⟩ := below.shape balanced occupied
    rw [shape.leaf] at leaf
    subst leaf
    exact shape.2.2
  · intro level node below
    obtain ⟨rest, total, shape, _⟩ := below.shape balanced occupied
    exact shape.values
  · intro level node below internal
    obtain ⟨rest, total, shape, _⟩ := below.shape balanced occupied
    cases rest with
    | zero =>
        rw [shape.1] at internal
        cases internal
    | succ rest => exact shape.2.2.1
  · intro level node below
    obtain ⟨rest, total, _, filled, _⟩ := below.shape balanced occupied
    exact filled.atMost
  · intro level node below deep
    obtain ⟨rest, total, _, _, enough⟩ := below.shape balanced occupied
    exact enough deep

/-- Subtrees of at least `m - 1` entries, and a separator between any two. -/
theorem weave_length {Item : Type} {m : Nat} {children : List (List Item)} {entries : List Item}
    (large : ∀ child ∈ children, m ≤ child.length + 1)
    (count : children.length = entries.length + 1) :
    (entries.length + 1) * m ≤ (weave children entries).length + 1 := by
  induction entries generalizing children with
  | nil =>
      obtain ⟨child, rfl⟩ := List.length_eq_one_iff.mp count
      have bound := large child List.mem_cons_self
      simp only [weave, List.getLast_singleton, List.length_nil, Nat.zero_add, Nat.one_mul]
      exact bound
  | cons entry entries ih =>
      obtain ⟨child, rest, rfl⟩ := List.exists_cons_of_length_eq_add_one count
      have later := ih (fun other member => large other (List.mem_cons_of_mem _ member))
        (Nat.succ.inj count)
      have bound := large child List.mem_cons_self
      simp only [weave, List.length_append, List.length_cons] at later ⊢
      rw [Nat.succ_mul]
      omega

/-- A node with `n` keys and leaves `levels` below it. -/
theorem inOrder_length (degree : 2 ≤ t) {levels : Nat} {node : Node Key Value}
    (shape : Balanced levels node) (occupied : Occupied t levels node) :
    (node.keys.length + 1) * t ^ levels ≤ (inOrder levels node).length + 1 := by
  induction levels generalizing node with
  | zero =>
      rw [inOrder, shape.entries_length, Nat.pow_zero, Nat.mul_one]
  | succ levels ih =>
      have entries := shape.entries_length
      rw [inOrder, shape.1, ← entries]
      apply weave_length
      · intro subtree member
        obtain ⟨child, inside, rfl⟩ := List.mem_map.mp member
        obtain ⟨enough, inner⟩ := occupied.2 child inside
        calc t ^ (levels + 1) = t * t ^ levels := by rw [Nat.pow_succ, Nat.mul_comm]
          _ ≤ (child.keys.length + 1) * t ^ levels := Nat.mul_le_mul_right _ (by omega)
          _ ≤ (inOrder levels child).length + 1 := ih (shape.2.2.2 child inside) inner
      · rw [List.length_map, entries]
        exact shape.2.2.1

end

section

variable {Value : Type} {tree : Tree String Value}

theorem Tree.Shaped.perform (shaped : tree.Shaped) (formed : tree.WellFormed) {call : Call Value}
    {tree' : Tree String Value} (done : tree.perform call = .ok tree') : tree'.Shaped := by
  cases call with
  | insert key value =>
      simp only [Tree.perform] at done
      split at done
      · cases done
      · split at done
        · cases done
        · rename_i inserted
          cases done
          exact shaped.insert formed inserted
  | clear =>
      cases done
      exact Tree.init_shaped tree.t

theorem Tree.Shaped.performAll (shaped : tree.Shaped)
    {map : AList (fun _ : String => Value)} (lists : Lists tree map) {calls : List (Call Value)}
    (named : ∀ call ∈ calls, call.Named) {tree' : Tree String Value}
    (done : tree.performAll calls = .ok tree') : tree'.Shaped := by
  induction calls generalizing tree map with
  | nil =>
      cases done
      exact shaped
  | cons call rest ih =>
      obtain ⟨between, first, _, lists'⟩ := lists.perform (named call List.mem_cons_self)
      simp only [Tree.performAll, first] at done
      exact ih (shaped.perform lists.1 first) lists'
        (fun other member => named other (List.mem_cons_of_mem _ member)) done

/-- A tree with entries whose leaves are `height` levels down has at least `2 t ^ height - 1`. -/
theorem Tree.Shaped.height (shaped : tree.Shaped) (formed : tree.WellFormed)
    (nonempty : tree.inOrderTraversal ≠ []) : 2 * tree.t ^ tree.root.depth - 1 ≤ tree.size := by
  have bound := inOrder_length formed.degree formed.balanced shaped.occupied
  have some_key : 0 < tree.root.keys.length := by
    rcases shaped.rooted with flat | some_key
    · have balanced := formed.balanced
      have listed : tree.inOrderTraversal = tree.root.entries := by
        rw [Tree.inOrderTraversal, flat]
        rfl
      rw [← balanced.entries_length, ← listed]
      exact List.length_pos_of_ne_nil nonempty
    · exact some_key
  have least : 2 * tree.t ^ tree.root.depth ≤
      (tree.root.keys.length + 1) * tree.t ^ tree.root.depth := Nat.mul_le_mul_right _ (by omega)
  rw [formed.counted]
  show _ ≤ (inOrder tree.root.depth tree.root).length
  omega

end

/-- Whatever was inserted and cleared, the tree is a B-tree, and its height is logarithmic
in the number of its keys. -/
theorem memtable_balanced {Value : Type} {t : Nat} (degree : 2 ≤ t) (calls : List (Call Value))
    (named : ∀ call ∈ calls, call.Named) :
    ∃ created tree : Tree String Value, Tree.create t = .ok created ∧
      created.performAll calls = .ok tree ∧ ∃ height, IsBTree t height tree.root ∧
        (tree.inOrderTraversal ≠ [] → 2 * t ^ height - 1 ≤ tree.size) := by
  obtain ⟨created, made, minimum, lists⟩ := @create_lists Value t degree
  obtain ⟨tree, performed, same, lists'⟩ := lists.performAll named
  have fresh : created.Shaped := by
    rw [Tree.create, if_neg (Nat.not_lt.mpr degree)] at made
    cases made
    exact Tree.init_shaped t
  have shaped := fresh.performAll lists named performed
  rw [minimum] at same
  refine ⟨created, tree, made, performed, tree.root.depth, ?_, fun nonempty => ?_⟩
  · rw [← same]
    exact lists'.1.balanced.isBTree shaped.occupied
  · rw [← same]
    exact shaped.height lists'.1 nonempty

/-- The fourth insertion splits the root. -/
theorem memtable_balanced_of_four :
    ∃ created tree : Tree String Nat, Tree.create 2 = .ok created ∧
      created.performAll [.insert "d" 1, .insert "b" 2, .insert "a" 3, .insert "c" 4] = .ok tree ∧
        ∃ height, IsBTree 2 height tree.root ∧
          (tree.inOrderTraversal ≠ [] → 2 * 2 ^ height - 1 ≤ tree.size) :=
  memtable_balanced (by decide) _ (by simp [Call.Named])

end CachyDb.BTree
