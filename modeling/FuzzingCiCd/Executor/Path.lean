import FuzzingCiCd.Foundation.Paths

/-!
# Paths of a Unix file system

`java.nio.file.Path` as the list of its names. The empty path, which Java gives one empty name, has
none here: it is the relative path without names, and `getFileName` says what Java says of it.

The services keep everything below a root that they make absolute and normalize once; `Directory`
is such a root.
-/

namespace FuzzingCiCd.Executor

/-- A path of a Unix file system. -/
structure Path where
  isAbsolute : Bool
  names : List String
  deriving DecidableEq

/-- A name of a path, as `normalize` takes it. -/
def Path.normalizeName (absolute : Bool) (names : List String) (name : String) : List String :=
  if name = "." then names
  else if name = ".." then
    match names.getLast? with
    | some last => if last = ".." then names ++ [name] else names.dropLast
    | none => if absolute then names else [name]
  else names ++ [name]

def Path.normalize (path : Path) : Path where
  isAbsolute := path.isAbsolute
  names := path.names.foldl (Path.normalizeName path.isAbsolute) []

/-- `toString`. -/
def Path.text (path : Path) : List Char :=
  (if path.isAbsolute then ['/'] else []) ++ List.intercalate ['/'] (path.names.map String.toList)

theorem normalizeName_eq (absolute : Bool) :
    Path.normalizeName absolute = Paths.normalizeName "." ".." absolute := by
  funext names name
  rw [Path.normalizeName, Paths.normalizeName]
  rcases names.getLast? with _ | last <;> rfl

namespace Path

/-- `Path.of`, which throws `InvalidPathException` at a null character. -/
def of (text : List Char) : Option Path :=
  if '\x00' ∈ text then none
  else some ⟨text.head? = some '/', (Paths.segments '/' text).map String.ofList⟩

def resolve (path other : Path) : Path :=
  if other.isAbsolute then other else ⟨path.isAbsolute, path.names ++ other.names⟩

/-- Only the empty path starts with the empty path. -/
def startsWith (path other : Path) : Bool :=
  path.isAbsolute = other.isAbsolute &&
    if !other.isAbsolute && other.names.isEmpty then path.names.isEmpty
    else other.names.isPrefixOf path.names

/-- The last name. The empty path has one, and the root has none. -/
def getFileName (path : Path) : Option String :=
  match path.names.getLast? with
  | some name => some name
  | none => if path.isAbsolute then none else some ""

def getNameCount (path : Path) : ℕ :=
  if path.names.isEmpty then if path.isAbsolute then 0 else 1 else path.names.length

/-- `getName(0)`, of a path that has a name. -/
def firstName (path : Path) : String := path.names.headD ""

/-- A relative path that normalizing has left with a parent in front. -/
def startsWithParentTraversal (path : Path) : Bool :=
  0 < path.getNameCount && path.firstName = ".."

/-- The path is below the directory and not the directory itself. -/
def StrictlyInside (path directory : Path) : Prop :=
  path.isAbsolute = directory.isAbsolute ∧
    ∃ name names, path.names = directory.names ++ name :: names

end Path

/-- An absolute and normalized path, as a service keeps its root. -/
structure Directory where
  names : List String
  plain : Paths.Plain "." ".." names

namespace Directory

def path (directory : Directory) : Path := ⟨true, directory.names⟩

/-- `toAbsolutePath().normalize()`, in a working directory. -/
def ofPath (working : Directory) (path : Path) : Directory where
  names := (working.path.resolve path).normalize.names
  plain := by
    have habsolute : (working.path.resolve path).isAbsolute = true := by
      rw [Path.resolve]
      by_cases h : path.isAbsolute = true
      · rw [if_pos h, h]
      · rw [if_neg h]
        rfl
    rw [Path.normalize, habsolute]
    rw [normalizeName_eq]
    exact Paths.normalize_absolute_plain (show ".." ≠ "." by decide) _

end Directory

/-! ## Normalized paths -/

section Normalize

variable {path : Path} {directory : Directory} {d : ℕ}

theorem Path.normalize_names (path : Path) :
    path.normalize.names = Paths.normalize "." ".." path.isAbsolute path.names := by
  rw [Path.normalize, normalizeName_eq, Paths.normalize]

theorem Path.normalize_isAbsolute (path : Path) : path.normalize.isAbsolute = path.isAbsolute := rfl

/-- How far below its start a path ends. -/
def Path.depth (path : Path) : Option ℕ := Paths.depth "." ".." 0 path.names

theorem Directory.ofPath_names (working : Directory) {names : List String}
    (h : Paths.Plain "." ".." names) :
    (Directory.ofPath working ⟨false, names⟩).names = working.names ++ names := by
  change ((working.path.resolve ⟨false, names⟩).normalize).names = _
  rw [Path.normalize_names]
  exact Paths.normalize_plain (working.plain.append h)

theorem Path.depth_map_ofList (absolute : Bool) (segments : List (List Char)) :
    Path.depth ⟨absolute, segments.map String.ofList⟩ =
      Paths.depth ['.'] ['.', '.'] 0 segments := by
  have hname : ∀ (cs : List Char) (name : List Char),
      String.ofList name = String.ofList cs ↔ name = cs := fun cs name ↦ String.ofList_inj
  exact Paths.depth_map (hname ['.']) (hname ['.', '.']) 0 segments

theorem Path.depth_of {text : List Char} (h : Path.of text = some path) :
    path.isAbsolute = decide (text.head? = some '/') ∧
      path.depth = Paths.depth ['.'] ['.', '.'] 0 (Paths.segments '/' text) := by
  rw [Path.of] at h
  split at h
  · cases h
  obtain rfl := Option.some.inj h
  exact ⟨rfl, Path.depth_map_ofList _ _⟩

/-- A relative path climbs above its start exactly when its normal form starts with the parent. -/
theorem Path.startsWithParentTraversal_normalize (hrelative : path.isAbsolute = false) :
    path.normalize.startsWithParentTraversal = true ↔ path.depth = none := by
  rw [Path.depth, ← Paths.head?_normalize (by decide), ← hrelative, ← Path.normalize_names,
    Path.startsWithParentTraversal, Path.firstName, Path.getNameCount]
  rcases path.normalize.names with _ | ⟨name, names⟩
  · simp
  · simp

theorem Path.startsWith_parent_normalize (hrelative : path.isAbsolute = false) :
    path.normalize.startsWith ⟨false, [".."]⟩ = true ↔ path.depth = none := by
  rw [Path.depth, ← Paths.head?_normalize (by decide), ← hrelative, ← Path.normalize_names,
    Path.startsWith, Path.normalize_isAbsolute, hrelative]
  rcases path.normalize.names with _ | ⟨name, names⟩
  · simp
  · simp only [List.head?_cons, Option.some.injEq, List.isPrefixOf, Bool.and_true, beq_iff_eq,
      List.isEmpty_cons, Bool.and_false, Bool.false_eq_true, if_false, decide_true,
      Bool.true_and]
    exact ⟨Eq.symm, Eq.symm⟩

/-- A relative path that does not climb ends below a directory by as many names as its depth. -/
theorem Path.resolve_normalize (hrelative : path.isAbsolute = false) (h : path.depth = some d)
    (directory : Directory) :
    path.normalize.names.length = d ∧
      directory.path.resolve path.normalize =
        ⟨true, directory.names ++ path.normalize.names⟩ ∧
      (directory.path.resolve path.normalize).normalize =
        ⟨true, directory.names ++ path.normalize.names⟩ := by
  obtain ⟨hplain, hlength, -⟩ := Paths.normalize_of_depth (by decide) h
  rw [← hrelative, ← Path.normalize_names] at hplain hlength
  have hresolve : directory.path.resolve path.normalize =
      ⟨true, directory.names ++ path.normalize.names⟩ := by
    rw [Path.resolve, Path.normalize_isAbsolute, hrelative]
    rfl
  refine ⟨hlength, hresolve, ?_⟩
  rw [hresolve, Path.normalize, normalizeName_eq]
  exact congrArg (Path.mk true) (Paths.normalize_plain (directory.plain.append hplain))

theorem Path.strictlyInside_append {names : List String} :
    StrictlyInside ⟨true, directory.names ++ names⟩ directory.path ↔ names ≠ [] := by
  constructor
  · rintro ⟨-, name, rest, hnames⟩ rfl
    rw [Directory.path, List.append_cancel_left_eq] at hnames
    cases hnames
  · intro h
    obtain ⟨name, rest, rfl⟩ := List.exists_cons_of_ne_nil h
    exact ⟨rfl, name, rest, rfl⟩

theorem Path.not_strictlyInside_self (directory : Directory) :
    ¬directory.path.StrictlyInside directory.path := by
  have h := @Path.strictlyInside_append directory []
  rw [List.append_nil] at h
  exact fun hinside ↦ h.mp hinside rfl

theorem Path.startsWith_append {names : List String} :
    startsWith ⟨true, directory.names ++ names⟩ directory.path = true := by
  simp [startsWith, Directory.path]

end Normalize

end FuzzingCiCd.Executor
