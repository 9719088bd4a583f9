import Mathlib.Data.List.AList
import Mathlib.Data.List.Sort
import CachyDb.Lib.File

set_option autoImplicit false

/-! A flat directory of files. Names lead to inodes and an open handle is an
inode number, so a handle outlives the name it was opened under. -/

structure FileSystem (Name : Type) [DecidableEq Name] where
  dir : AList (fun _ : Name => Nat)
  inode : Nat → File
  fresh : Nat
  bounded : ∀ name i, dir.lookup name = some i → i < fresh
  injective : ∀ name name' i, dir.lookup name = some i → dir.lookup name' = some i → name = name'

namespace FileSystem

variable {Name : Type} [DecidableEq Name]

def empty : FileSystem Name where
  dir := ∅
  inode _ := File.empty
  fresh := 0
  bounded name i found := by simp at found
  injective name name' i found := by simp at found

/-- The content reached by name. -/
def file (fs : FileSystem Name) (name : Name) : Option File :=
  (fs.dir.lookup name).map fs.inode

/-- `exists()`. -/
def present (fs : FileSystem Name) (name : Name) : Bool := (fs.dir.lookup name).isSome

/-- Change the content behind an open handle. -/
def update (fs : FileSystem Name) (i : Nat) (content : File) : FileSystem Name where
  dir := fs.dir
  inode j := if j = i then content else fs.inode j
  fresh := fs.fresh
  bounded := fs.bounded
  injective := fs.injective

/-- Change the content reached by name, when the name exists. -/
def modify (fs : FileSystem Name) (name : Name) (change : File → File) : FileSystem Name :=
  match fs.dir.lookup name with
  | some i => fs.update i (change (fs.inode i))
  | none => fs

/-- `open("wb")`: an existing file keeps its inode and loses its content. -/
def truncate (fs : FileSystem Name) (name : Name) : FileSystem Name :=
  match found : fs.dir.lookup name with
  | some i => fs.update i File.empty
  | none =>
    { dir := fs.dir.insert name fs.fresh
      inode := fun j => if j = fs.fresh then File.empty else fs.inode j
      fresh := fs.fresh + 1
      bounded := by
        intro other i known
        by_cases same : other = name
        · subst same
          rw [AList.lookup_insert] at known
          cases known
          omega
        · rw [AList.lookup_insert_ne same] at known
          have := fs.bounded other i known
          omega
      injective := by
        intro left right i known known'
        by_cases first : left = name <;> by_cases second : right = name
        · rw [first, second]
        · subst first
          rw [AList.lookup_insert] at known
          rw [AList.lookup_insert_ne second] at known'
          cases known
          exact absurd (fs.bounded right _ known') (Nat.lt_irrefl _)
        · subst second
          rw [AList.lookup_insert] at known'
          rw [AList.lookup_insert_ne first] at known
          cases known'
          exact absurd (fs.bounded left _ known) (Nat.lt_irrefl _)
        · rw [AList.lookup_insert_ne first] at known
          rw [AList.lookup_insert_ne second] at known'
          exact fs.injective left right i known known' }

/-- `unlink()`: the name goes, an open handle keeps the content. -/
def unlink (fs : FileSystem Name) (name : Name) : FileSystem Name where
  dir := fs.dir.erase name
  inode := fs.inode
  fresh := fs.fresh
  bounded other i known := by
    by_cases same : other = name
    · subst same
      rw [AList.lookup_erase] at known
      cases known
    · rw [AList.lookup_erase_ne same] at known
      exact fs.bounded other i known
  injective left right i known known' := by
    by_cases first : left = name
    · subst first
      rw [AList.lookup_erase] at known
      cases known
    · by_cases second : right = name
      · subst second
        rw [AList.lookup_erase] at known'
        cases known'
      · rw [AList.lookup_erase_ne first] at known
        rw [AList.lookup_erase_ne second] at known'
        exact fs.injective left right i known known'

@[simp] theorem empty_file (name : Name) : (empty : FileSystem Name).file name = none := by
  simp [empty, file]

theorem file_of_lookup {fs : FileSystem Name} {name : Name} {i : Nat}
    (found : fs.dir.lookup name = some i) : fs.file name = some (fs.inode i) := by
  simp only [file, found, Option.map_some]

theorem file_eq_none {fs : FileSystem Name} {name : Name} :
    fs.file name = none ↔ fs.dir.lookup name = none := by
  simp only [file, Option.map_eq_none_iff]

theorem present_iff {fs : FileSystem Name} {name : Name} :
    fs.present name = true ↔ ∃ content, fs.file name = some content := by
  simp only [present, file, Option.isSome_iff_exists, Option.map_eq_some_iff]
  exact ⟨fun ⟨i, found⟩ => ⟨_, i, found, rfl⟩, fun ⟨_, i, found, _⟩ => ⟨i, found⟩⟩

theorem present_eq_false {fs : FileSystem Name} {name : Name} :
    fs.present name = false ↔ fs.file name = none := by
  rw [file_eq_none, present, Option.isSome_eq_false_iff, Option.isNone_iff_eq_none]

theorem mem_keys_iff {fs : FileSystem Name} {name : Name} :
    name ∈ fs.dir.keys ↔ ∃ content, fs.file name = some content := by
  rw [← AList.mem_keys, ← AList.lookup_isSome]
  exact present_iff

@[simp] theorem update_dir (fs : FileSystem Name) (i : Nat) (content : File) :
    (fs.update i content).dir = fs.dir := rfl

@[simp] theorem update_inode_self (fs : FileSystem Name) (i : Nat) (content : File) :
    (fs.update i content).inode i = content := by
  simp only [update, ↓reduceIte]

theorem update_same (fs : FileSystem Name) (i : Nat) : fs.update i (fs.inode i) = fs := by
  obtain ⟨dir, inode, fresh, bounded, injective⟩ := fs
  simp only [update]
  congr 1
  funext j
  split
  · rename_i same
    rw [same]
  · rfl

theorem update_file_self {fs : FileSystem Name} {name : Name} {i : Nat}
    (found : fs.dir.lookup name = some i) (content : File) :
    (fs.update i content).file name = some content := by
  rw [file_of_lookup (show (fs.update i content).dir.lookup name = some i from found),
    update_inode_self]

/-- Writing through a handle opened under `name` changes no other name's content. -/
theorem update_file_ne {fs : FileSystem Name} {name other : Name} {i : Nat}
    (found : fs.dir.lookup name = some i) (content : File) (different : other ≠ name) :
    (fs.update i content).file other = fs.file other := by
  cases known : fs.dir.lookup other with
  | none => simp only [file, update_dir, known, Option.map_none]
  | some j =>
      have apart : j ≠ i := by
        rintro rfl
        exact different (fs.injective other name j known found)
      simp only [file, known, Option.map_some, update, apart, ↓reduceIte]

@[simp] theorem modify_dir (fs : FileSystem Name) (name : Name) (change : File → File) :
    (fs.modify name change).dir = fs.dir := by
  unfold modify
  split <;> rfl

theorem modify_file_self {fs : FileSystem Name} {name : Name} {content : File}
    (known : fs.file name = some content) (change : File → File) :
    (fs.modify name change).file name = some (change content) := by
  unfold modify
  split
  · rename_i i found
    rw [file_of_lookup found, Option.some.injEq] at known
    rw [update_file_self found, known]
  · rename_i missing
    rw [file_eq_none.mpr missing] at known
    cases known

theorem modify_file_ne (fs : FileSystem Name) {name other : Name} (change : File → File)
    (different : other ≠ name) : (fs.modify name change).file other = fs.file other := by
  unfold modify
  split
  · rename_i i found
    exact update_file_ne found _ different
  · rfl

theorem truncate_file_self (fs : FileSystem Name) (name : Name) :
    (fs.truncate name).file name = some File.empty := by
  unfold truncate
  split
  · rename_i i found
    exact update_file_self found File.empty
  · simp [file]

theorem truncate_file_ne (fs : FileSystem Name) {name other : Name} (different : other ≠ name) :
    (fs.truncate name).file other = fs.file other := by
  unfold truncate
  split
  · rename_i i found
    exact update_file_ne found File.empty different
  · rename_i missing
    simp only [file, AList.lookup_insert_ne different]
    cases known : fs.dir.lookup other with
    | none => rfl
    | some j =>
        have apart : j ≠ fs.fresh := Nat.ne_of_lt (fs.bounded other j known)
        simp only [Option.map_some, apart, ↓reduceIte]

/-- Truncation keeps every other directory entry, so other handles stay attached. -/
theorem truncate_lookup_ne (fs : FileSystem Name) {name other : Name} (different : other ≠ name) :
    (fs.truncate name).dir.lookup other = fs.dir.lookup other := by
  unfold truncate
  split
  · rfl
  · exact AList.lookup_insert_ne different

@[simp] theorem unlink_file_self (fs : FileSystem Name) (name : Name) :
    (fs.unlink name).file name = none := by
  simp [file, unlink]

theorem unlink_file_ne (fs : FileSystem Name) {name other : Name} (different : other ≠ name) :
    (fs.unlink name).file other = fs.file other := by
  simp only [file, unlink, AList.lookup_erase_ne different]

/-- The directory listing in ascending order of the names. -/
def sortedNames [LinearOrder Name] (fs : FileSystem Name) : List Name :=
  fs.dir.keys.insertionSort (· ≤ ·)

theorem mem_sortedNames [LinearOrder Name] {fs : FileSystem Name} {name : Name} :
    name ∈ fs.sortedNames ↔ ∃ content, fs.file name = some content := by
  rw [sortedNames, List.mem_insertionSort, mem_keys_iff]

/-- Each name is listed once, and in strictly ascending order. -/
theorem sortedNames_strict [LinearOrder Name] (fs : FileSystem Name) :
    fs.sortedNames.Pairwise (· < ·) := by
  have ascending : fs.sortedNames.Pairwise (· ≤ ·) := List.pairwise_insertionSort (· ≤ ·) _
  have distinct : fs.sortedNames.Nodup :=
    (List.perm_insertionSort (· ≤ ·) _).nodup_iff.mpr fs.dir.keys_nodup
  exact (List.Pairwise.and ascending distinct).imp fun both => lt_of_le_of_ne both.1 both.2

/-- The last listed name is the greatest. -/
theorem le_of_getLast_sortedNames [LinearOrder Name] {fs : FileSystem Name} {newest name : Name}
    (last : fs.sortedNames.getLast? = some newest) (member : name ∈ fs.sortedNames) :
    name ≤ newest := by
  obtain ⟨front, shape⟩ := List.getLast?_eq_some_iff.mp last
  have ordered := sortedNames_strict fs
  rw [shape, List.pairwise_append] at ordered
  rw [shape] at member
  rcases List.mem_append.mp member with before | same
  · exact le_of_lt (ordered.2.2 name before newest (by simp))
  · rw [List.mem_singleton.mp same]

end FileSystem
