import CachyDb.Lib.FileSystem

set_option autoImplicit false

/-! Open handles of a directory whose files come and go. -/

namespace FileSystem

variable {Name : Type} [DecidableEq Name] {fs : FileSystem Name} {name other path : Name}
  {handle i : Nat}

/-- A handle opened under `path`: no other name leads to its file, even when `path` is gone. -/
structure Held (fs : FileSystem Name) (path : Name) (handle : Nat) : Prop where
  below : handle < fs.fresh
  alone : ∀ name, fs.dir.lookup name = some handle → name = path

theorem held_of_lookup (found : fs.dir.lookup path = some handle) : fs.Held path handle :=
  ⟨fs.bounded path handle found, fun name there => fs.injective name path handle there found⟩

theorem Held.update (held : fs.Held path handle) (j : Nat) (content : File) :
    (fs.update j content).Held path handle :=
  ⟨held.below, held.alone⟩

theorem modify_fresh (fs : FileSystem Name) (name : Name) (change : File → File) :
    (fs.modify name change).fresh = fs.fresh := by
  unfold modify
  split <;> rfl

theorem Held.modify (held : fs.Held path handle) (name : Name) (change : File → File) :
    (fs.modify name change).Held path handle := by
  refine ⟨?_, ?_⟩
  · rw [modify_fresh]
    exact held.below
  · rw [modify_dir]
    exact held.alone

theorem truncate_fresh (fs : FileSystem Name) (name : Name) :
    fs.fresh ≤ (fs.truncate name).fresh := by
  unfold truncate
  split
  · exact Nat.le_refl _
  · exact Nat.le_succ _

/-- A name that leads to a file goes on leading to it. -/
theorem truncate_lookup_of_some (found : fs.dir.lookup other = some i) (name : Name) :
    (fs.truncate name).dir.lookup other = some i := by
  unfold truncate
  split
  · exact found
  · rename_i missing
    have different : other ≠ name := by
      rintro rfl
      rw [found] at missing
      cases missing
    dsimp only
    rw [AList.lookup_insert_ne different]
    exact found

/-- What a name leads to was there before, or is new. -/
theorem truncate_lookup (found : (fs.truncate name).dir.lookup other = some i) :
    fs.dir.lookup other = some i ∨ i = fs.fresh := by
  unfold truncate at found
  split at found
  · exact Or.inl found
  · by_cases same : other = name
    · subst same
      dsimp only at found
      rw [AList.lookup_insert, Option.some.injEq] at found
      exact Or.inr found.symm
    · dsimp only at found
      rw [AList.lookup_insert_ne same] at found
      exact Or.inl found

theorem Held.truncate (held : fs.Held path handle) (name : Name) :
    (fs.truncate name).Held path handle := by
  refine ⟨Nat.lt_of_lt_of_le held.below (fs.truncate_fresh name), fun other found => ?_⟩
  rcases truncate_lookup found with old | new
  · exact held.alone other old
  · exact absurd new (Nat.ne_of_lt held.below)

theorem Held.unlink (held : fs.Held path handle) (name : Name) :
    (fs.unlink name).Held path handle := by
  refine ⟨held.below, fun other found => ?_⟩
  by_cases same : other = name
  · subst same
    dsimp only [FileSystem.unlink] at found
    rw [AList.lookup_erase] at found
    cases found
  · dsimp only [FileSystem.unlink] at found
    rw [AList.lookup_erase_ne same] at found
    exact held.alone other found

/-- Writing through the handle changes no file of another name. -/
theorem Held.update_file_ne (held : fs.Held path handle) (content : File) (different : other ≠ path) :
    (fs.update handle content).file other = fs.file other := by
  cases known : fs.dir.lookup other with
  | none => simp only [file, update_dir, known, Option.map_none]
  | some j =>
      have apart : j ≠ handle := by
        rintro rfl
        exact different (held.alone other known)
      simp only [file, FileSystem.update, known, Option.map_some, apart, ↓reduceIte]

/-- The file of the path is written, or the handle is not its handle. -/
theorem Held.update_file_self (found : fs.dir.lookup path = some i) (content : File) :
    (fs.update handle content).file path =
      some (if i = handle then content else fs.inode i) := by
  simp only [file, FileSystem.update, found, Option.map_some]

theorem present_of_lookup (found : fs.dir.lookup path = some i) : fs.present path = true := by
  rw [present, found]
  rfl

end FileSystem
