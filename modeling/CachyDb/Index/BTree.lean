import Mathlib.Order.Fin.Basic
import CachyDb.Lib.SortedEntries

set_option autoImplicit false

/-! The B-tree of the memtable: nodes, search, in-place update and insertion with the
splits on the way down. The recursion of the source goes down one level at a time, so
the functions recurse on the number of levels below a node. An index out of range
raises in the source; no reachable tree has one. -/

namespace CachyDb.BTree

/-- `BTreeNode`. The lists are independent of each other, as in the source. -/
inductive Node (Key Value : Type)
  | mk (leaf : Bool) (keys : List Key) (values : List Value) (children : List (Node Key Value))

namespace Node

variable {Key Value : Type}

def leaf : Node Key Value → Bool
  | mk leaf _ _ _ => leaf

def keys : Node Key Value → List Key
  | mk _ keys _ _ => keys

def values : Node Key Value → List Value
  | mk _ _ values _ => values

def children : Node Key Value → List (Node Key Value)
  | mk _ _ _ children => children

@[simp] theorem leaf_mk (leaf : Bool) (keys : List Key) (values : List Value)
    (children : List (Node Key Value)) : (mk leaf keys values children).leaf = leaf := rfl

@[simp] theorem keys_mk (leaf : Bool) (keys : List Key) (values : List Value)
    (children : List (Node Key Value)) : (mk leaf keys values children).keys = keys := rfl

@[simp] theorem values_mk (leaf : Bool) (keys : List Key) (values : List Value)
    (children : List (Node Key Value)) : (mk leaf keys values children).values = values := rfl

@[simp] theorem children_mk (leaf : Bool) (keys : List Key) (values : List Value)
    (children : List (Node Key Value)) : (mk leaf keys values children).children = children := rfl

def empty : Node Key Value := mk true [] [] []

/-- The number of levels below a node, along its first children. -/
def depth : Node Key Value → Nat
  | mk _ _ _ [] => 0
  | mk _ _ _ (child :: _) => child.depth + 1

/-- The keys and values stored directly in a node. -/
def entries (node : Node Key Value) : List (Key × Value) := node.keys.zip node.values

end Node

section

variable {Key Value : Type} [LinearOrder Key]

/-- `list.insert`. -/
def insertAt {Item : Type} (i : Nat) (item : Item) (items : List Item) : List Item :=
  items.take i ++ item :: items.drop i

/-- `bisect.bisect_left` on an ascending list: how many keys are smaller. -/
def bisectLeft (keys : List Key) (key : Key) : Nat := keys.countP (· < key)

/-- The `while` loop of `_find_node_and_index`. -/
def scan (key : Key) : List Key → Nat
  | [] => 0
  | other :: rest => if key > other then scan key rest + 1 else 0

def searchNode : Nat → Node Key Value → Key → Option Value
  | 0, node, key =>
      let i := bisectLeft node.keys key
      if node.keys[i]? = some key then node.values[i]? else none
  | levels + 1, node, key =>
      let i := bisectLeft node.keys key
      if node.keys[i]? = some key then node.values[i]?
      else if node.leaf then none
      else
        match node.children[i]? with
        | none => none
        | some child => searchNode levels child key

def findNodeAndIndex : Nat → Node Key Value → Key → Option (Node Key Value × Nat)
  | 0, node, key =>
      let i := scan key node.keys
      if node.keys[i]? = some key then some (node, i) else none
  | levels + 1, node, key =>
      let i := scan key node.keys
      if node.keys[i]? = some key then some (node, i)
      else if node.leaf then none
      else
        match node.children[i]? with
        | none => none
        | some child => findNodeAndIndex levels child key

/-- What the tree becomes when `node.values[idx] = value` is done to the node that
`_find_node_and_index` returned. -/
def assignFound : Nat → Node Key Value → Key → Value → Node Key Value
  | 0, node, key, value =>
      let i := scan key node.keys
      if node.keys[i]? = some key then
        .mk node.leaf node.keys (node.values.set i value) node.children
      else node
  | levels + 1, node, key, value =>
      let i := scan key node.keys
      if node.keys[i]? = some key then
        .mk node.leaf node.keys (node.values.set i value) node.children
      else if node.leaf then node
      else
        match node.children[i]? with
        | none => node
        | some child =>
            .mk node.leaf node.keys node.values
              (node.children.set i (assignFound levels child key value))

/-- The right half of a full child. -/
def newChild (t : Nat) (full : Node Key Value) : Node Key Value :=
  .mk full.leaf (full.keys.drop t) (full.values.drop t)
    (if full.leaf then [] else full.children.drop t)

/-- What is left of a full child. -/
def keptChild (t : Nat) (full : Node Key Value) : Node Key Value :=
  .mk full.leaf (full.keys.take (t - 1)) (full.values.take (t - 1))
    (if full.leaf then full.children else full.children.take t)

def splitChild (t : Nat) (parent : Node Key Value) (i : Nat) : Option (Node Key Value) :=
  match parent.children[i]? with
  | none => none
  | some full =>
      match full.keys[t - 1]?, full.values[t - 1]? with
      | some key, some value =>
          some (.mk parent.leaf (insertAt i key parent.keys) (insertAt i value parent.values)
            (insertAt (i + 1) (newChild t full) (parent.children.set i (keptChild t full))))
      | _, _ => none

/-- A full child on the way is split first; the result names the child to go into. -/
def makeRoom (t : Nat) (node : Node Key Value) (key : Key) : Option (Node Key Value × Nat) :=
  let i := bisectLeft node.keys key
  match node.children[i]? with
  | none => none
  | some child =>
      if child.keys.length = 2 * t - 1 then
        match splitChild t node i with
        | none => none
        | some split =>
            match split.keys[i]? with
            | none => none
            | some median => some (split, if key > median then i + 1 else i)
      else some (node, i)

def insertNonFull (t : Nat) : Nat → Node Key Value → Key → Value → Option (Node Key Value)
  | levels, node, key, value =>
      if node.leaf then
        let i := bisectLeft node.keys key
        some (.mk node.leaf (insertAt i key node.keys) (insertAt i value node.values)
          node.children)
      else
        match levels with
        | 0 => none
        | levels + 1 =>
            match makeRoom t node key with
            | none => none
            | some (roomy, i) =>
                match roomy.children[i]? with
                | none => none
                | some child =>
                    match insertNonFull t levels child key value with
                    | none => none
                    | some changed =>
                        some (.mk roomy.leaf roomy.keys roomy.values (roomy.children.set i changed))

/-- The alternation of subtrees and separators in `_in_order`. -/
def weave {Item : Type} : List (List Item) → List Item → List Item
  | [], _ => []
  | child :: children, [] => (child :: children).getLast (List.cons_ne_nil _ _)
  | child :: children, entry :: entries => child ++ entry :: weave children entries

def inOrder : Nat → Node Key Value → List (Key × Value)
  | 0, node => node.entries
  | levels + 1, node =>
      if node.leaf then node.entries
      else weave (node.children.map (inOrder levels)) node.entries

end

/-- `BTreeMemTable`. -/
structure Tree (Key Value : Type) where
  root : Node Key Value
  t : Nat
  size : Nat

namespace Tree

variable {Key Value : Type} [LinearOrder Key]

def init (t : Nat) : Tree Key Value := ⟨.empty, t, 0⟩

def search (tree : Tree Key Value) (key : Key) : Option Value :=
  searchNode tree.root.depth tree.root key

def contains (tree : Tree Key Value) (key : Key) : Bool :=
  (findNodeAndIndex tree.root.depth tree.root key).isSome

def insert (tree : Tree Key Value) (key : Key) (value : Value) : Option (Tree Key Value) :=
  if tree.contains key then
    some { tree with root := assignFound tree.root.depth tree.root key value }
  else if tree.root.keys.length = 2 * tree.t - 1 then
    match splitChild tree.t (.mk false [] [] [tree.root]) 0 with
    | none => none
    | some temp =>
        match insertNonFull tree.t temp.depth temp key value with
        | none => none
        | some root => some ⟨root, tree.t, tree.size + 1⟩
  else
    match insertNonFull tree.t tree.root.depth tree.root key value with
    | none => none
    | some root => some ⟨root, tree.t, tree.size + 1⟩

def inOrderTraversal (tree : Tree Key Value) : List (Key × Value) :=
  inOrder tree.root.depth tree.root

end Tree

example : (([3, 1, 4, 2].foldlM (fun (tree : Tree (Fin 9) Nat) key => tree.insert key key)
    (Tree.init 2)).map Tree.inOrderTraversal) = some [(1, 1), (2, 2), (3, 3), (4, 4)] := by decide

end CachyDb.BTree
