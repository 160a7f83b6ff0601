import FuzzingCiCd.Executor.DeploymentParameters
import FuzzingCiCd.Executor.Path

/-!
# Relative paths of job parameters

Two services take a path relative to a root of their own: the destination of a file-copy deployment
and the place of an input artifact of a script. The parameters normalize the path and reject what is
absolute or climbs above the root; the runner resolves it against the root and checks again.

Both mean to reject the root itself, by comparing the normalized path with `"."` and asking whether
it has a file name. The normal form of a path whose names cancel is the empty path, whose text is
`""` and which does have a file name, so these paths are accepted and resolve to the root.

## Main results

* `strictlyInside_resolve_iff`: where an accepted path leads.
* `acceptedPath_inside_iff`: an accepted path names something below the root exactly when it has
  more names of files than parents.
-/

namespace FuzzingCiCd.Executor

open Transition

/-- Why a path is refused: a typed exception, or the `InvalidPathException` of `Path.of`. -/
inductive PathRejection
  | job (exception : ExecutorJobException)
  | invalidPath
  deriving DecidableEq

/-- The value of the first of the keys that the map contains. -/
def firstValue (params : JsonMap) : List String → Json
  | [] => .null
  | key :: keys =>
    if params.any fun field ↦ field.1 = key then Json.property params key
    else firstValue params keys

/-! ## File-copy deployments -/

namespace FileCopyDeploymentParameters

def TARGET_KEY : String := "target"

def DESTINATION_PATH_KEY : String := "destination_path"

def target (params : JsonMap) : Except PathRejection JsonMap :=
  match Json.property params TARGET_KEY with
  | .obj rawTarget => .ok rawTarget
  | _ => .error (.job (.validation "target должен быть объектом с destination_path"))

def path (value : Json) : Except PathRejection Path :=
  match value with
  | .str text =>
    match Path.of text.toList with
    | some path => .ok path
    | none => .error .invalidPath
  | _ => .error (.job (.validation (DESTINATION_PATH_KEY ++ " должен быть строкой")))

def normalizeDestinationPath (path : Path) : Except PathRejection Path :=
  let normalizedPath := path.normalize
  if normalizedPath.isAbsolute || normalizedPath.startsWithParentTraversal then
    .error (.job (.validation
      "target.destination_path должен быть относительным путем внутри deploy target root"))
  else if normalizedPath.getFileName = none || normalizedPath.text = ['.'] then
    .error (.job (.validation "target.destination_path должен указывать на файл назначения"))
  else .ok normalizedPath

/-- The value that `from` reads the destination from. -/
def destinationValue (target : JsonMap) : Json :=
  firstValue target [DESTINATION_PATH_KEY, "destinationPath"]

/-- The component `destinationPath` of the record made from the parameters. -/
def destinationPath (params : JsonMap) : Except PathRejection Path := do
  let target ← target params
  let path ← path (destinationValue target)
  normalizeDestinationPath path

end FileCopyDeploymentParameters

/-- `FileCopyDeploymentRunner.resolveDestination`. -/
def FileCopyDeploymentRunner.resolveDestination (targetRoot : Directory)
    (relativeDestinationPath : Path) : Except ExecutorJobException Path :=
  let resolvedPath := (targetRoot.path.resolve relativeDestinationPath).normalize
  if !resolvedPath.startsWith targetRoot.path then
    .error (.validation "target.destination_path выходит за пределы deploy target root")
  else .ok resolvedPath

/-! ## Scripts -/

/-- An input of a script: where it is stored and where the script finds it. -/
structure ScriptInputArtifact where
  uri : String
  path : Path
  deriving DecidableEq

namespace ScriptParameters

/-- The characters of which `Character.isLetter` holds are a table of Unicode. -/
def isWindowsAbsolutePath (isLetter : Char → Bool) (path : Path) : Bool :=
  match path.text.map fun ch ↦ if ch = '\\' then '/' else ch with
  | drive :: colon :: slash :: _ => isLetter drive && colon = ':' && slash = '/'
  | _ => false

def normalizeRelativePath (isLetter : Char → Bool) (path : Path) (key : String) :
    Except PathRejection Path :=
  let normalizedPath := path.normalize
  if normalizedPath.isAbsolute || normalizedPath.startsWithParentTraversal ||
      isWindowsAbsolutePath isLetter normalizedPath then
    .error (.job (.validation (key ++ " должен быть относительным путем внутри workspace")))
  else .ok normalizedPath

/-- `StringUtils.defaultIfBlank(value, ".")`. -/
def pathText (value : String) : String := if JavaText.isBlank value then "." else value

def path (value key : String) : Except PathRejection Path :=
  match Path.of (pathText value).toList with
  | some path => .ok path
  | none => .error (.job (.validation (key ++ " должен быть корректным путем внутри workspace")))

def requireString (value : Json) (key : String) : Except PathRejection String :=
  match value with
  | .str value => .ok value
  | _ => .error (.job (.validation (key ++ " должен быть строкой")))

def requireStorageUri (value key : String) : Except PathRejection String :=
  if JavaText.isBlank value then
    .error (.job (.validation (key ++ " должен быть непустым storage:// URI")))
  else if !"storage://".toList.isPrefixOf value.toList then
    .error (.job (.validation (key ++ " должен использовать схему storage://")))
  else .ok value

/-- The value that `inputArtifact` reads the path from. -/
def pathValue (rawArtifact : JsonMap) : Json :=
  firstValue rawArtifact ["path", "destination_path", "destinationPath"]

def inputArtifact (isLetter : Char → Bool) (value : Json) :
    Except PathRejection ScriptInputArtifact :=
  match value with
  | .obj rawArtifact => do
    let rawUri ← requireString (firstValue rawArtifact ["uri", "artifact_uri", "artifactUri"])
      "input_artifacts.uri"
    let uri ← requireStorageUri rawUri "input_artifacts.uri"
    let rawPath ← requireString (pathValue rawArtifact) "input_artifacts.path"
    let path ← path rawPath "input_artifacts.path"
    let relativePath ← normalizeRelativePath isLetter path "input_artifacts.path"
    if relativePath.text = ['.'] || relativePath.getFileName = none then
      .error (.job (.validation "input_artifacts.path должен указывать на файл внутри workspace"))
    else .ok ⟨uri, relativePath⟩
  | _ => .error (.job (.validation "input_artifacts должен содержать только объекты"))

end ScriptParameters

namespace ScriptWorkspacePreparer

def ensureInside (root path : Path) (label : String) : Except ExecutorJobException Unit :=
  if !path.startsWith root then
    .error (.create .securityError (some "script.workspace.escape")
      (some (label ++ " выходит за пределы workspace")) (some (.ofList path.text))
      [("path", .str (.ofList path.text))] .failed)
  else .ok ()

def SCRIPT_WORK_DIR : String := "script"

/-- The root of the script, below that of the workspace. -/
def scriptRoot (workspaceRoot : Directory) : Directory :=
  .ofPath workspaceRoot ⟨false, [SCRIPT_WORK_DIR]⟩

/-- Where `downloadInputs` puts an artifact. -/
def inputTarget (root : Directory) (artifact : ScriptInputArtifact) :
    Except ExecutorJobException Path := do
  let targetPath := (root.path.resolve artifact.path).normalize
  ensureInside root.path targetPath "input_artifacts.path"
  return targetPath

end ScriptWorkspacePreparer

/-! ## Where an accepted path leads

Both kinds of parameters normalize the path and refuse one that is absolute or climbs above its
start. What they accept stays below the root, or is the root itself: names and parents may
cancel. Which of the two is counted on the path as it was given. -/

/-- The path has more names of files than parents. -/
def Path.Descends (path : Path) : Prop :=
  path.names.count ".." < path.names.countP fun name ↦ name ≠ "." ∧ name ≠ ".."

instance (path : Path) : Decidable path.Descends :=
  inferInstanceAs (Decidable (_ < _))

/-- A text that is a path with more names of files than parents. -/
def NamesDescendant (text : String) : Prop :=
  ∃ path, Path.of text.toList = some path ∧ path.Descends

section Accepted

variable {path normalized : Path}

/-- What both kinds of parameters accept: the normal form of a path that stays below its start. -/
structure AcceptedFrom (path normalized : Path) : Prop where
  relative : path.isAbsolute = false
  depth : path.depth ≠ none
  normal : normalized = path.normalize

/-- **Where an accepted path leads.** The root and the path are appended, and the result is the root
itself exactly when the names of the path cancel. -/
theorem strictlyInside_resolve_iff (h : AcceptedFrom path normalized) (root : Directory) :
    (root.path.resolve normalized).normalize.startsWith root.path = true ∧
      ((root.path.resolve normalized).normalize.StrictlyInside root.path ↔ path.Descends) := by
  obtain ⟨d, hd⟩ := Option.ne_none_iff_exists'.mp h.depth
  obtain ⟨hlength, -, hresolve⟩ := Path.resolve_normalize h.relative hd root
  have hcount := Paths.depth_eq_some (by decide) hd
  rw [h.normal, hresolve]
  refine ⟨Path.startsWith_append, ?_⟩
  rw [Path.strictlyInside_append, ← List.length_pos_iff, hlength, Path.Descends]
  omega

theorem acceptedFrom_of_not_traversal (hrelative : path.normalize.isAbsolute = false)
    (htraversal : path.normalize.startsWithParentTraversal = false) :
    AcceptedFrom path path.normalize := by
  rw [Path.normalize_isAbsolute] at hrelative
  refine ⟨hrelative, fun hdepth ↦ ?_, rfl⟩
  rw [(Path.startsWithParentTraversal_normalize hrelative).mpr hdepth] at htraversal
  cases htraversal

theorem normalizeDestinationPath_ok
    (h : FileCopyDeploymentParameters.normalizeDestinationPath path = .ok normalized) :
    AcceptedFrom path normalized := by
  rw [FileCopyDeploymentParameters.normalizeDestinationPath] at h
  split at h
  · cases h
  split at h
  · cases h
  · rename_i hrejected _
    obtain rfl := Except.ok.inj h
    rw [Bool.or_eq_true, not_or, Bool.not_eq_true, Bool.not_eq_true] at hrejected
    exact acceptedFrom_of_not_traversal hrejected.1 hrejected.2

theorem normalizeRelativePath_ok {isLetter : Char → Bool} {key : String}
    (h : ScriptParameters.normalizeRelativePath isLetter path key = .ok normalized) :
    AcceptedFrom path normalized := by
  rw [ScriptParameters.normalizeRelativePath] at h
  split at h
  · cases h
  · rename_i hrejected
    obtain rfl := Except.ok.inj h
    rw [Bool.or_eq_true, not_or, Bool.or_eq_true, not_or, Bool.not_eq_true,
      Bool.not_eq_true] at hrejected
    exact acceptedFrom_of_not_traversal hrejected.1.1 hrejected.1.2

end Accepted

section Inputs

variable {params target rawArtifact : JsonMap} {text : String} {normalized : Path}
  {isLetter : Char → Bool} {artifact : ScriptInputArtifact}

theorem destinationPath_ok
    (htarget : Json.property params FileCopyDeploymentParameters.TARGET_KEY = .obj target)
    (htext : FileCopyDeploymentParameters.destinationValue target = .str text)
    (h : FileCopyDeploymentParameters.destinationPath params = .ok normalized) :
    ∃ path, Path.of text.toList = some path ∧ AcceptedFrom path normalized := by
  rw [FileCopyDeploymentParameters.destinationPath, FileCopyDeploymentParameters.target,
    htarget] at h
  rw [ok_bind, htext, FileCopyDeploymentParameters.path] at h
  rcases hpath : Path.of text.toList with _ | path
  · rw [hpath] at h
    cases h
  · rw [hpath] at h
    dsimp only at h
    rw [ok_bind] at h
    exact ⟨path, rfl, normalizeDestinationPath_ok h⟩

theorem inputArtifact_ok (htext : ScriptParameters.pathValue rawArtifact = .str text)
    (h : ScriptParameters.inputArtifact isLetter (.obj rawArtifact) = .ok artifact) :
    ∃ path, Path.of (ScriptParameters.pathText text).toList = some path ∧
      AcceptedFrom path artifact.path := by
  rw [ScriptParameters.inputArtifact] at h
  obtain ⟨rawUri, -, h⟩ := bind_eq_ok.mp h
  obtain ⟨uri, -, h⟩ := bind_eq_ok.mp h
  rw [htext, ScriptParameters.requireString, ok_bind] at h
  obtain ⟨path, hpath, h⟩ := bind_eq_ok.mp h
  obtain ⟨relativePath, hrelative, h⟩ := bind_eq_ok.mp h
  split at h
  · cases h
  obtain rfl := Except.ok.inj h
  rw [ScriptParameters.path] at hpath
  split at hpath
  · rename_i found hfound
    obtain rfl := Except.ok.inj hpath
    exact ⟨found, hfound, normalizeRelativePath_ok hrelative⟩
  · cases hpath

end Inputs

/-- A path that is accepted for a destination, or for the place of an input artifact, is resolved
to a place below the root. -/
def LeadsBelow (resolved : Except ExecutorJobException Path) (root : Directory) : Prop :=
  ∃ path, resolved = .ok path ∧ path.StrictlyInside root.path

/-- **An accepted path names something below the root** exactly when it has more names of files than
parents, for destinations of file-copy deployments and for input artifacts of scripts. A blank path
of an input artifact stands for `"."`. -/
theorem acceptedPath_inside_iff (targetRoot workspaceRoot : Directory) :
    (∀ params target text normalized,
      Json.property params FileCopyDeploymentParameters.TARGET_KEY = .obj target →
      FileCopyDeploymentParameters.destinationValue target = .str text →
      FileCopyDeploymentParameters.destinationPath params = .ok normalized →
        (LeadsBelow (FileCopyDeploymentRunner.resolveDestination targetRoot normalized) targetRoot ↔
          NamesDescendant text)) ∧
    ∀ isLetter rawArtifact text artifact,
      ScriptParameters.pathValue rawArtifact = .str text →
      ScriptParameters.inputArtifact isLetter (.obj rawArtifact) = .ok artifact →
        (LeadsBelow (ScriptWorkspacePreparer.inputTarget
            (ScriptWorkspacePreparer.scriptRoot workspaceRoot) artifact)
          (ScriptWorkspacePreparer.scriptRoot workspaceRoot) ↔
        JavaText.isBlank text = false ∧ NamesDescendant text) := by
  refine ⟨fun params target text normalized htarget htext haccepted ↦ ?_,
    fun isLetter rawArtifact text artifact htext haccepted ↦ ?_⟩
  · obtain ⟨path, hpath, hfrom⟩ := destinationPath_ok htarget htext haccepted
    obtain ⟨hstarts, hinside⟩ := strictlyInside_resolve_iff hfrom targetRoot
    have hresolved : FileCopyDeploymentRunner.resolveDestination targetRoot normalized =
        .ok (targetRoot.path.resolve normalized).normalize := by
      rw [FileCopyDeploymentRunner.resolveDestination, hstarts]
      rfl
    rw [LeadsBelow, hresolved, NamesDescendant, hpath]
    simp only [Except.ok.injEq, Option.some.injEq, exists_eq_left']
    exact hinside
  · obtain ⟨path, hpath, hfrom⟩ := inputArtifact_ok htext haccepted
    obtain ⟨hstarts, hinside⟩ :=
      strictlyInside_resolve_iff hfrom (ScriptWorkspacePreparer.scriptRoot workspaceRoot)
    have hresolved : ScriptWorkspacePreparer.inputTarget
        (ScriptWorkspacePreparer.scriptRoot workspaceRoot) artifact =
        .ok ((ScriptWorkspacePreparer.scriptRoot workspaceRoot).path.resolve
          artifact.path).normalize := by
      rw [ScriptWorkspacePreparer.inputTarget, ScriptWorkspacePreparer.ensureInside, hstarts]
      rfl
    rw [LeadsBelow, hresolved]
    simp only [Except.ok.injEq, exists_eq_left']
    rw [hinside]
    rcases hblank : JavaText.isBlank text with _ | _
    · rw [ScriptParameters.pathText, hblank] at hpath
      rw [NamesDescendant, show text.toList = _ from rfl]
      simp only [Bool.false_eq_true, if_false] at hpath
      rw [hpath]
      simp
    · -- the path of a blank text has no name of a file at all
      rw [ScriptParameters.pathText, hblank, if_pos rfl] at hpath
      obtain rfl := Option.some.inj (hpath.symm.trans (show Path.of ".".toList =
        some ⟨false, ["."]⟩ by decide))
      exact iff_of_false (by decide) fun h ↦ by cases h.1

/-! ### Examples -/

/-- The target of a deployment, and the workspace of a script. -/
def smallRoot : Directory := ⟨["srv"], by decide⟩

def destinationParams (text : String) : JsonMap :=
  [("target", .obj [("destination_path", .str text)])]

def inputAt (text : String) : JsonMap :=
  [("uri", .str "storage://inputs/data.txt"), ("path", .str text)]

/-- Names that cancel are accepted, and lead to the root. -/
theorem acceptedPath_root :
    FileCopyDeploymentParameters.destinationPath (destinationParams "app/..") =
        .ok ⟨false, []⟩ ∧
      FileCopyDeploymentRunner.resolveDestination smallRoot ⟨false, []⟩ = .ok smallRoot.path ∧
      ScriptParameters.inputArtifact Char.isAlpha (.obj (inputAt ".")) =
        .ok ⟨"storage://inputs/data.txt", ⟨false, []⟩⟩ ∧
      ScriptWorkspacePreparer.inputTarget (ScriptWorkspacePreparer.scriptRoot smallRoot)
          ⟨"storage://inputs/data.txt", ⟨false, []⟩⟩ =
        .ok (ScriptWorkspacePreparer.scriptRoot smallRoot).path ∧
      ∀ root : Directory, ¬root.path.StrictlyInside root.path := by
  exact ⟨by decide, by decide, by decide, by decide, Path.not_strictlyInside_self⟩

theorem acceptedPath_inside_small :
    LeadsBelow (FileCopyDeploymentRunner.resolveDestination smallRoot
        ⟨false, ["apps", "app.jar"]⟩) smallRoot ∧
      LeadsBelow (ScriptWorkspacePreparer.inputTarget
          (ScriptWorkspacePreparer.scriptRoot smallRoot)
          ⟨"storage://inputs/data.txt", ⟨false, ["inputs"]⟩⟩)
        (ScriptWorkspacePreparer.scriptRoot smallRoot) := by
  obtain ⟨hcopy, hscript⟩ := acceptedPath_inside_iff smallRoot smallRoot
  exact ⟨(hcopy (destinationParams "apps/./app.jar")
      [("destination_path", .str "apps/./app.jar")] "apps/./app.jar" _ (by decide) (by decide)
      (by decide)).mpr ⟨⟨false, ["apps", ".", "app.jar"]⟩, by decide, by decide⟩,
    (hscript Char.isAlpha (inputAt "inputs/x/..") "inputs/x/.." _ (by decide) (by decide)).mpr
      ⟨by decide, ⟨false, ["inputs", "x", ".."]⟩, by decide, by decide⟩⟩

end FuzzingCiCd.Executor
