import CachyDb.Storage.TableHandler

set_option autoImplicit false

/-! Where the file of a table is: the path that `TableHandler` joins, and the place to which it
leads in a directory tree without links. -/

namespace CachyDb.TableHandler

/-- A path as `pathlib` keeps it: whether it is absolute, and its components. -/
structure Path where
  absolute : Bool
  components : List String
  deriving DecidableEq, Repr

namespace Path

/-- `Path(text)`: empty components and `.` vanish, `..` stays. -/
def parse (text : String) : Path :=
  ⟨text.toList.head? = some '/',
    ((text.toList.splitOn '/').map String.ofList).filter fun part => part ≠ "" ∧ part ≠ "."⟩

/-- `path / other`: an absolute path replaces what stands before it. -/
def join (path other : Path) : Path :=
  if other.absolute then other else ⟨path.absolute, path.components ++ other.components⟩

/-- The way from a directory down one component. -/
def descend (place : List String) (part : String) : List String :=
  if part = ".." then place.dropLast else place ++ [part]

/-- Where a path leads from the working directory. -/
def resolve (cwd : List String) (path : Path) : List String :=
  path.components.foldl descend (if path.absolute then [] else cwd)

end Path

def tablesDir : Path := ⟨false, ["data", "tables"]⟩

/-- `self.file_path`. -/
def filePath (tableName : String) : Path := tablesDir.join (Path.parse (tableName ++ ".cachy"))

def place (cwd : List String) (tableName : String) : List String := (filePath tableName).resolve cwd

/-- Two files at different places, neither of which is taken for a directory of the other. -/
def Apart (cwd : List String) (tableName other : String) : Prop :=
  ¬ place cwd tableName <+: place cwd other ∧ ¬ place cwd other <+: place cwd tableName

instance (cwd : List String) (tableName other : String) : Decidable (Apart cwd tableName other) :=
  inferInstanceAs (Decidable (_ ∧ _))

variable {cwd : List String} {tableName other : String}

theorem Apart.symm (apart : Apart cwd tableName other) : Apart cwd other tableName :=
  ⟨apart.2, apart.1⟩

theorem Apart.place_ne (apart : Apart cwd tableName other) :
    place cwd tableName ≠ place cwd other := by
  intro same
  exact apart.1 (same ▸ List.prefix_rfl)

/-- A text that ends so is no component of its own kind. -/
theorem suffixed_ne (text other : String) (short : other.toList.length < 6) :
    text ++ ".cachy" ≠ other := by
  intro same
  have length := congrArg (fun s : String => s.toList.length) same
  have suffix : ".cachy".toList.length = 6 := by decide
  simp only [String.toList_append, List.length_append, suffix] at length
  omega

/-- A name without `/` is one component. -/
theorem place_plain (plain : '/' ∉ tableName.toList) :
    place cwd tableName = cwd ++ ["data", "tables", tableName ++ ".cachy"] := by
  have slashless : '/' ∉ (tableName ++ ".cachy").toList := by
    rw [String.toList_append, List.mem_append]
    exact fun member => member.elim plain (by decide)
  have relative : (Path.parse (tableName ++ ".cachy")).absolute = false := by
    refine decide_eq_false fun first => slashless ?_
    exact List.mem_of_mem_head? (by rw [first]; rfl)
  have single : (Path.parse (tableName ++ ".cachy")).components = [tableName ++ ".cachy"] := by
    have whole : (tableName ++ ".cachy").toList.splitOn '/' = [(tableName ++ ".cachy").toList] := by
      refine List.splitOnP_eq_singleton fun char member => ?_
      simpa using fun same : char = '/' => slashless (same ▸ member)
    rw [Path.parse, whole, List.map_singleton, String.ofList_toList]
    exact List.filter_eq_self.mpr (by
      simp [suffixed_ne tableName "" (by decide), suffixed_ne tableName "." (by decide)])
  have deeper : tableName ++ ".cachy" ≠ ".." := suffixed_ne tableName ".." (by decide)
  simp [place, filePath, tablesDir, Path.join, relative, single, Path.resolve, Path.descend, deeper]

/-- Names without `/` have files apart. -/
theorem apart_of_plain (plain : '/' ∉ tableName.toList) (plain' : '/' ∉ other.toList)
    (different : tableName ≠ other) : Apart cwd tableName other := by
  have lengths {first second : String} (plain : '/' ∉ first.toList) (plain' : '/' ∉ second.toList)
      (inside : place cwd first <+: place cwd second) : first = second := by
    have same := inside.eq_of_length (by simp [place_plain plain, place_plain plain'])
    simpa [place_plain plain, place_plain plain'] using same
  exact ⟨fun inside => different (lengths plain plain' inside),
    fun inside => different (lengths plain' plain inside).symm⟩

/-- `./` leads nowhere else. -/
example : filePath "./t" = filePath "t" := by decide +kernel

end CachyDb.TableHandler
