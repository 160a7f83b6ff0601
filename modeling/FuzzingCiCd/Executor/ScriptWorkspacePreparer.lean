import FuzzingCiCd.Executor.LocalFilesystemStorageBackend
import FuzzingCiCd.Executor.RelativePaths
import FuzzingCiCd.Foundation.Exec

/-!
# The workspace of a script

A script job names its script, as a text or as an artifact of the storage, and input artifacts with
paths of their own. `ScriptWorkspacePreparer.prepare` makes the directories, writes the script to
`.script/script.sh` and then downloads the inputs in the order of the list. A download replaces the
file it finds at its target.

What the preparer does to files is a list of writes, and the last write to a path stays.

## Main results

* `prepare_written`: the files after a preparation hold the written contents.
* `prepared_asAsked`: which preparations leave the script and every input as they were asked for.
-/

namespace FuzzingCiCd.Executor

open Contracts

/-! ## Parameters -/

/-- `StringUtils.isBlank`. -/
def ScriptParameters.isBlank (value : Option String) : Bool := value.all JavaText.isBlank

/-- The parameters of a script job. Exactly one of the script and its artifact is given. -/
structure ScriptParameters where
  script : Option String
  scriptArtifactUri : Option String
  workingDirectory : Path
  environment : List (String × String)
  inputArtifacts : List ScriptInputArtifact
  expectedOutputPatterns : List String
  effectiveNetworkPolicy : String
  single : ScriptParameters.isBlank script ≠ ScriptParameters.isBlank scriptArtifactUri
  deriving DecidableEq

namespace ScriptParameters

def TEMPLATE_PATH : String := "script/bash"

def SCRIPT_TYPE_KEY : String := "script_type"

def SCRIPT_KEY : String := "script"

def SCRIPT_ARTIFACT_URI_KEY : String := "script_artifact_uri"

def INPUT_ARTIFACTS_KEY : String := "input_artifacts"

def ENVIRONMENT_KEY : String := "environment"

def WORKING_DIRECTORY_KEY : String := "working_directory"

def EXPECTED_OUTPUTS_KEY : String := "expected_outputs"

def DEFAULT_NETWORK_POLICY : String := "none"

/-- `ExecutorJobException.validation`, thrown. -/
def invalid {α : Type} (message : String) : Except PathRejection α :=
  .error (.job (.validation message))

/-- The canonical constructor. -/
def create (isLetter : Char → Bool) (script scriptArtifactUri : Option String)
    (workingDirectory : Option Path) (environment : Option (List (String × String)))
    (inputArtifacts : Option (List ScriptInputArtifact))
    (expectedOutputPatterns : Option (List String)) (effectiveNetworkPolicy : Option String) :
    Except PathRejection ScriptParameters :=
  if single : isBlank script = isBlank scriptArtifactUri then
    invalid "Нужно задать ровно один параметр: script или script_artifact_uri"
  else do
    let _ ←
      if isBlank scriptArtifactUri then .ok ""
      else requireStorageUri (scriptArtifactUri.getD "") SCRIPT_ARTIFACT_URI_KEY
    let workingDirectory ← normalizeRelativePath isLetter
      (workingDirectory.getD ⟨false, ["."]⟩) WORKING_DIRECTORY_KEY
    let networkPolicy :=
      if isBlank effectiveNetworkPolicy then DEFAULT_NETWORK_POLICY
      else effectiveNetworkPolicy.getD DEFAULT_NETWORK_POLICY
    return {
      script
      scriptArtifactUri
      workingDirectory
      environment := environment.getD []
      inputArtifacts := inputArtifacts.getD []
      expectedOutputPatterns := expectedOutputPatterns.getD []
      effectiveNetworkPolicy := .ofList (JavaText.trim networkPolicy.toList)
      single }

def validateRouting (job : JobMessage) : Except PathRejection Unit :=
  if job.jobType ≠ some .script then
    invalid "Script-сервис принимает только jobType=script"
  else if job.templatePath ≠ some TEMPLATE_PATH then
    invalid "Script-сервис MVP поддерживает только templatePath=script/bash"
  else .ok ()

def validateScriptType (job : JobMessage) : Except PathRejection Unit :=
  match firstValue job.params [SCRIPT_TYPE_KEY, "scriptType"] with
  | .null => .ok ()
  | rawScriptType => do
    let scriptType ← requireString rawScriptType SCRIPT_TYPE_KEY
    if scriptType ≠ "bash" then
      invalid "script_type должен быть bash для templatePath=script/bash"
    else .ok ()

def optionalString (value : Json) (key : String) : Except PathRejection (Option String) :=
  match value with
  | .null => .ok none
  | value => (requireString value key).map some

def workingDirectoryOf (isLetter : Char → Bool) (value : Json) : Except PathRejection Path := do
  let rawPath ← match value with
    | .null => .ok "."
    | value => requireString value WORKING_DIRECTORY_KEY
  let path ← path rawPath WORKING_DIRECTORY_KEY
  normalizeRelativePath isLetter path WORKING_DIRECTORY_KEY

def environmentOf (value : Json) : Except PathRejection (List (String × String)) :=
  match value with
  | .null => .ok []
  | .obj rawEnvironment => rawEnvironment.mapM fun (name, rawValue) ↦
    if JavaText.isBlank name then
      invalid "Имя переменной environment не может быть пустым"
    else (requireString rawValue ENVIRONMENT_KEY).map fun value ↦ (name, value)
  | _ => invalid "environment должен быть объектом со строковыми значениями"

def inputArtifactsOf (isLetter : Char → Bool) (value : Json) :
    Except PathRejection (List ScriptInputArtifact) :=
  match value with
  | .null => .ok []
  | .arr rawArtifacts => rawArtifacts.mapM (inputArtifact isLetter)
  | _ => invalid "input_artifacts должен быть массивом объектов"

def expectedOutputPatternsOf (value : Json) : Except PathRejection (List String) :=
  match value with
  | .null => .ok []
  | .arr rawPatterns => rawPatterns.mapM fun rawPattern ↦ do
    let pattern ← requireString rawPattern EXPECTED_OUTPUTS_KEY
    if JavaText.isBlank pattern then
      invalid "expected_outputs не должен содержать пустые glob-паттерны"
    else .ok pattern
  | _ => invalid "expected_outputs должен быть массивом строк"

def effectiveNetworkPolicyOf (sandboxPolicy : Option SandboxPolicy) : String :=
  match sandboxPolicy with
  | none => DEFAULT_NETWORK_POLICY
  | some policy =>
    if isBlank policy.networkPolicy then DEFAULT_NETWORK_POLICY
    else .ofList (JavaText.trim (policy.networkPolicy.getD "").toList)

/-- `from`. -/
def fromJob (isLetter : Char → Bool) (job : JobMessage) :
    Except PathRejection ScriptParameters := do
  validateRouting job
  validateScriptType job
  let script ← optionalString (firstValue job.params [SCRIPT_KEY]) SCRIPT_KEY
  let scriptArtifactUri ← optionalString
    (firstValue job.params [SCRIPT_ARTIFACT_URI_KEY, "scriptArtifactUri"]) SCRIPT_ARTIFACT_URI_KEY
  let workingDirectory ← workingDirectoryOf isLetter
    (firstValue job.params [WORKING_DIRECTORY_KEY, "workingDirectory"])
  let environment ← environmentOf (firstValue job.params [ENVIRONMENT_KEY])
  let inputArtifacts ← inputArtifactsOf isLetter
    (firstValue job.params [INPUT_ARTIFACTS_KEY, "inputArtifacts"])
  let expectedOutputPatterns ← expectedOutputPatternsOf
    (firstValue job.params [EXPECTED_OUTPUTS_KEY, "expectedOutputs"])
  create isLetter script scriptArtifactUri (some workingDirectory) (some environment)
    (some inputArtifacts) (some expectedOutputPatterns)
    (some (effectiveNetworkPolicyOf job.sandboxPolicy))

end ScriptParameters

/-! ## Downloads -/

/-- The client of a storage below a local root. Relative paths start from the current directory, and
`literal` says which authorities with an IPv6 address the parser of identifiers takes. -/
structure LocalStorageClient where
  root : Directory
  currentDirectory : Directory
  literal : List Char → Bool

/-- `getParent`, of an absolute path. -/
def Path.getParent (path : Path) : Option Path :=
  if path.names.isEmpty then none else some ⟨path.isAbsolute, path.names.dropLast⟩

/-- `Files.createDirectories`, which throws `failure` where a file stands in the way. -/
def createDirectories {ε : Type} (failure : ε) (path : Path) : Exec StoredFiles ε Unit :=
  fun files ↦
    if files.blocked path.names then (.error failure, files)
    else (.ok (), files.createDirectories path.names)

/-- The directories above a path, which may have none. -/
def createParent {ε : Type} (failure : Path → ε) (path : Path) : Exec StoredFiles ε Unit :=
  match path.getParent with
  | none => pure ()
  | some parent => createDirectories (failure parent) parent

namespace LocalStorageClient

variable (client : LocalStorageClient)

/-- The `IOException` of one of the steps. -/
def downloadFailure : StorageException :=
  .storageClient "Не удалось скачать артефакт из local storage"

/-- Where the storage keeps an artifact. -/
def sourcePath (uri : String) : Except StorageException Path := do
  let namespacePath ← StorageUris.namespacePath client.literal (some uri.toList)
  resolve client.root namespacePath

/-- `Files.isRegularFile`, with the content of the file. -/
def regularFile (uri : String) (sourcePath : Path) :
    Exec StoredFiles StorageException (List UInt8) :=
  fun files ↦
    match files.content sourcePath.names with
    | some content => (.ok content, files)
    | none => (.error (.storageClient ("Артефакт не найден в local storage: " ++ uri)), files)

/-- `Files.copy` with `REPLACE_EXISTING`: a file or an empty directory is replaced. -/
def copyReplacing (sourcePath targetPath : Path) (content : List UInt8) :
    Exec StoredFiles StorageException Unit := fun files ↦
  if sourcePath.names = targetPath.names then (.ok (), files)
  else if files.find targetPath.names = some .directory ∧ files.occupied targetPath.names then
    (.error downloadFailure, files)
  else (.ok (), files.replace targetPath.names (.file content))

def download (uri : String) (targetPath : Path) : Exec StoredFiles StorageException Path :=
  if JavaText.isBlank uri then Exec.throw (.illegalArgument "Storage URI должен быть непустым")
  else do
    let sourcePath ← Exec.ofExcept (client.sourcePath uri)
    let content ← regularFile uri sourcePath
    let targetPath := (Directory.ofPath client.currentDirectory targetPath).path
    createParent (fun _ ↦ downloadFailure) targetPath
    copyReplacing sourcePath targetPath content
    return targetPath

end LocalStorageClient

/-! ## The preparer -/

/-- The paths of a prepared workspace. They are kept under its root. -/
structure ScriptWorkspace where
  root : Path
  workingDirectory : Path
  scriptPath : Path
  inputs : List ScriptInputArtifact
  deriving DecidableEq

/-- The class and the message of an `IOException`. -/
structure IOFailure where
  className : String
  message : Option String
  deriving DecidableEq

/-- What ends the preparation early: an `IOException`, which it catches, or an exception for the
job. -/
inductive PreparationFailure
  | io (exception : IOFailure)
  | job (exception : ExecutorJobException)
  deriving DecidableEq

/-- The preparer, with what the file system says of a step that fails at a path. -/
structure ScriptWorkspacePreparer where
  storageClient : LocalStorageClient
  ioFailure : Path → IOFailure

/-- `getClass().getName()`. -/
def StorageException.className : StorageException → String
  | .illegalArgument _ => "java.lang.IllegalArgumentException"
  | .storageClient _ => "ru.diplom.cicd.executor.core.storage.StorageClientException"
  | .checksumMismatch _ => "ru.diplom.cicd.storage.backend.StorageChecksumMismatchException"
  | .nullPointer => "java.lang.NullPointerException"

def StorageException.getMessage : StorageException → Option String
  | .illegalArgument message => some message
  | .storageClient message => some message
  | .checksumMismatch message => some message
  | .nullPointer => none

namespace ScriptWorkspacePreparer

def SCRIPT_FILE_NAME : String := "script.sh"

def scriptPath (root : Directory) : Path :=
  ((root.path.resolve ⟨false, [".script"]⟩).resolve ⟨false, [SCRIPT_FILE_NAME]⟩).normalize

/-- The octets of a text in UTF-8. -/
def utf8 (text : String) : List UInt8 := text.toUTF8.toList

def storageDownloadException (cause : StorageException) : ExecutorJobException :=
  .create .infrastructureError (some "script.storage.download-failed")
    (some "Не удалось скачать artifact для script job") cause.getMessage
    [("exceptionClass", .str cause.className)] .failed

def workspaceException (exception : IOFailure) : ExecutorJobException :=
  .create .infrastructureError (some "script.workspace.prepare")
    (some "Не удалось подготовить workspace для script job") exception.message
    [("exceptionClass", .str exception.className)] .failed

/-- The `catch` branch of `prepare`. -/
def PreparationFailure.thrown : PreparationFailure → ExecutorJobException
  | .io exception => workspaceException exception
  | .job exception => exception

section Prepare

variable (preparer : ScriptWorkspacePreparer)

def failure (path : Path) : PreparationFailure := .io (preparer.ioFailure path)

/-- `Files.writeString`. -/
def writeString (path : Path) (text : String) : Exec StoredFiles PreparationFailure Unit :=
  fun files ↦
    if files.find path.names = some .directory ∨
        files.find path.names.dropLast ≠ some .directory then
      (.error (preparer.failure path), files)
    else (.ok (), files.replace path.names (.file (utf8 text)))

def download (uri : String) (targetPath : Path) : Exec StoredFiles PreparationFailure Unit :=
  fun files ↦
    match preparer.storageClient.download uri targetPath files with
    | (.ok _, files) => (.ok (), files)
    | (.error cause, files) => (.error (.job (storageDownloadException cause)), files)

def prepareScript (parameters : ScriptParameters) (scriptPath : Path) :
    Exec StoredFiles PreparationFailure Unit :=
  match parameters.script with
  | some script => preparer.writeString scriptPath script
  | none => preparer.download (parameters.scriptArtifactUri.getD "") scriptPath

def downloadInputs (root : Directory) :
    List ScriptInputArtifact → Exec StoredFiles PreparationFailure (List ScriptInputArtifact)
  | [] => pure []
  | artifact :: artifacts => do
    let targetPath ← Exec.ofExcept ((inputTarget root artifact).mapError .job)
    createParent preparer.failure targetPath
    preparer.download artifact.uri targetPath
    let downloaded ← downloadInputs root artifacts
    return artifact :: downloaded

def prepare (parameters : ScriptParameters) (workspaceRoot : Directory) :
    Exec StoredFiles ExecutorJobException ScriptWorkspace := do
  let root := scriptRoot workspaceRoot
  Exec.ofExcept (ensureInside workspaceRoot.path root.path "script workspace")
  let workingDirectory := (root.path.resolve parameters.workingDirectory).normalize
  Exec.ofExcept (ensureInside root.path workingDirectory "working_directory")
  let scriptPath := scriptPath root
  Exec.ofExcept (ensureInside root.path scriptPath "script path")
  Exec.mapError PreparationFailure.thrown do
    createDirectories (preparer.failure workingDirectory) workingDirectory
    createParent preparer.failure scriptPath
    preparer.prepareScript parameters scriptPath
    let inputs ← preparer.downloadInputs root parameters.inputArtifacts
    return ⟨root.path, workingDirectory, scriptPath, inputs⟩

end Prepare

/-! ## What is asked for -/

/-- Where the workspace keeps an input. -/
def inputPath (root : Directory) (artifact : ScriptInputArtifact) : Path :=
  (root.path.resolve artifact.path).normalize

end ScriptWorkspacePreparer

namespace LocalStorageClient

/-- What the storage holds under an identifier. -/
def stored (client : LocalStorageClient) (files : StoredFiles) (uri : String) :
    Option (List UInt8) :=
  match client.sourcePath uri with
  | .ok sourcePath => files.content sourcePath.names
  | .error _ => none

/-- The artifact of the identifier is not kept at the path. -/
def Spares (client : LocalStorageClient) (path : Path) (uri : String) : Prop :=
  ∀ sourcePath, client.sourcePath uri = .ok sourcePath → sourcePath.names ≠ path.names

end LocalStorageClient

namespace ScriptWorkspacePreparer

section Asked

variable (client : LocalStorageClient) (files : StoredFiles) (parameters : ScriptParameters)
  (root : Directory)

/-- The script that the job is to run: the text, or the artifact if the text is blank. -/
def givenScript : Option (List UInt8) :=
  if ScriptParameters.isBlank parameters.script then
    parameters.scriptArtifactUri.bind (client.stored files)
  else parameters.script.map utf8

/-- What the preparer writes for the script: the text, if there is one, blank or not. -/
def preparedScript : Option (List UInt8) :=
  match parameters.script with
  | some script => some (utf8 script)
  | none => client.stored files (parameters.scriptArtifactUri.getD "")

/-- After the preparation the files hold what was asked for. -/
structure AsAsked (workspace : ScriptWorkspace) (files' : StoredFiles) : Prop where
  script : ∃ content, givenScript client files parameters = some content ∧
    files'.content workspace.scriptPath.names = some content
  inputs : ∀ artifact ∈ parameters.inputArtifacts, ∃ content,
    client.stored files artifact.uri = some content ∧
      files'.content (workspace.root.resolve artifact.path).normalize.names = some content

/-- No artifact is kept where the preparation writes before it reads the artifact. -/
structure ReadsStored : Prop where
  script : ∀ artifact ∈ parameters.inputArtifacts, client.Spares (scriptPath root) artifact.uri
  inputs : parameters.inputArtifacts.Pairwise fun earlier later ↦
    client.Spares (inputPath root earlier) later.uri

/-- What is asked for at one path is the same. -/
structure Agreed : Prop where
  inputs : ∀ artifact ∈ parameters.inputArtifacts, ∀ other ∈ parameters.inputArtifacts,
    inputPath root artifact = inputPath root other →
      client.stored files artifact.uri = client.stored files other.uri
  script : ∀ artifact ∈ parameters.inputArtifacts, inputPath root artifact = scriptPath root →
    client.stored files artifact.uri = givenScript client files parameters
  given : ∀ script ∈ parameters.script, JavaText.isBlank script = true →
    givenScript client files parameters = some (utf8 script) ∨
      ∃ artifact ∈ parameters.inputArtifacts, inputPath root artifact = scriptPath root

end Asked

/-! ## What a preparation writes

The content of the files is followed through the calls in their order. Directories have no
content, so making them changes none, and a download writes one file with what the storage holds
at the time. That is what it held in the beginning as long as no earlier file was written to its
place. -/

section Written

variable {client : LocalStorageClient} {preparer : ScriptWorkspacePreparer}
  {files files' base : StoredFiles} {path : Path} {root directory : Directory} {uri : String}

theorem createDirectories_content {ε : Type} {failure : ε}
    (h : createDirectories failure path files = (.ok (), files')) :
    files'.content = files.content := by
  rw [createDirectories] at h
  split at h
  · cases h
  · obtain ⟨-, rfl⟩ := Prod.mk.inj h
    exact FileTree.content_createDirectories _ _

theorem createParent_content {ε : Type} {failure : Path → ε}
    (h : createParent failure path files = (.ok (), files')) :
    files'.content = files.content := by
  rw [createParent] at h
  rcases hparent : path.getParent with _ | parent
  · rw [hparent] at h
    obtain ⟨-, rfl⟩ := Prod.mk.inj h
    rfl
  · rw [hparent] at h
    exact createDirectories_content h

theorem copyReplacing_content {sourcePath targetPath : Path} {content : List UInt8}
    (hsource : files.content sourcePath.names = some content)
    (h : LocalStorageClient.copyReplacing sourcePath targetPath content files = (.ok (), files')) :
    files'.content = Function.update files.content targetPath.names (some content) := by
  rw [LocalStorageClient.copyReplacing] at h
  split at h
  · -- the file is copied onto itself
    rename_i hsame
    obtain ⟨-, rfl⟩ := Prod.mk.inj h
    rw [← hsource, hsame, Function.update_eq_self]
  · split at h
    · cases h
    · obtain ⟨-, rfl⟩ := Prod.mk.inj h
      exact FileTree.content_replace _ _ _

theorem ofPath_path (working directory : Directory) :
    (Directory.ofPath working directory.path).names = directory.names := by
  change ((working.path.resolve directory.path).normalize).names = _
  rw [Path.normalize_names]
  exact Paths.normalize_plain directory.plain

theorem inputPath_eq (root : Directory) (artifact : ScriptInputArtifact) :
    inputPath root artifact = (Directory.ofPath root artifact.path).path := by
  have habsolute : (root.path.resolve artifact.path).isAbsolute = true := by
    rw [Path.resolve]
    split
    · rename_i h
      exact h
    · rfl
  exact congrArg (Path.mk · (root.path.resolve artifact.path).normalize.names) habsolute

theorem scriptPath_eq (root : Directory) : scriptPath root =
    (Directory.ofPath root ⟨false, [".script", SCRIPT_FILE_NAME]⟩).path := by
  rw [scriptPath, Directory.path, Directory.ofPath]
  simp only [Path.resolve, Directory.path, Bool.false_eq_true, if_false, List.append_assoc]
  rfl

theorem client_download_content {found : Path}
    (h : client.download uri directory.path files = (.ok found, files')) :
    ∃ content, client.stored files uri = some content ∧
      files'.content = Function.update files.content directory.names (some content) := by
  rw [LocalStorageClient.download] at h
  split at h
  · cases h
  obtain ⟨sourcePath, files₁, hsource, h⟩ := Exec.bind_eq_ok.mp h
  obtain ⟨hfound, rfl⟩ := Prod.mk.inj hsource
  obtain ⟨content, files₂, hread, h⟩ := Exec.bind_eq_ok.mp h
  obtain ⟨⟨⟩, files₃, hparent, h⟩ := Exec.bind_eq_ok.mp h
  obtain ⟨⟨⟩, files₄, hcopy, h⟩ := Exec.bind_eq_ok.mp h
  obtain ⟨-, rfl⟩ := Prod.mk.inj h
  rw [LocalStorageClient.regularFile] at hread
  split at hread
  · rename_i held hheld
    obtain ⟨hcontent, rfl⟩ := Prod.mk.inj hread
    obtain rfl := Except.ok.inj hcontent
    have hsame := createParent_content hparent
    refine ⟨held, ?_, ?_⟩
    · rw [LocalStorageClient.stored, hfound]
      exact hheld
    · rw [copyReplacing_content (by rw [hsame, hheld]) hcopy, hsame]
      exact congrArg (fun names ↦ Function.update files.content names (some held))
        (ofPath_path _ _)
  · cases hread

theorem download_content
    (h : preparer.download uri directory.path files = (.ok (), files')) :
    ∃ content, preparer.storageClient.stored files uri = some content ∧
      files'.content = Function.update files.content directory.names (some content) := by
  rw [download] at h
  split at h
  · rename_i found after hdownload
    obtain ⟨-, rfl⟩ := Prod.mk.inj h
    exact client_download_content hdownload
  · cases h

theorem stored_congr (h : files'.content = files.content) (uri : String) :
    client.stored files' uri = client.stored files uri := by
  rw [LocalStorageClient.stored, LocalStorageClient.stored, h]

/-- What the storage holds under an identifier stays while other paths are written. -/
theorem stored_of_spares {content : List UInt8} (hspares : client.Spares path uri)
    (h : files'.content = Function.update files.content path.names (some content)) :
    client.stored files' uri = client.stored files uri := by
  rw [LocalStorageClient.stored, LocalStorageClient.stored]
  rcases hsource : client.sourcePath uri with exception | sourcePath
  · rfl
  · dsimp only
    rw [h, Function.update_of_ne (hspares sourcePath hsource)]

theorem inputTarget_eq_ok {artifact : ScriptInputArtifact}
    (h : inputTarget root artifact = .ok path) : path = inputPath root artifact := by
  obtain ⟨⟨⟩, -, h⟩ := Transition.bind_eq_ok.mp h
  exact (Except.ok.inj h).symm

/-- **The loop over the inputs** writes what the storage held before it, input by input. -/
theorem downloadInputs_written {inputs done : List ScriptInputArtifact}
    (hreads : inputs.Pairwise fun earlier later ↦
      preparer.storageClient.Spares (inputPath root earlier) later.uri)
    (h : preparer.downloadInputs root inputs files = (.ok done, files')) :
    done = inputs ∧ ∃ writes : List (List String × List UInt8),
      (inputs.map fun artifact ↦
        ((inputPath root artifact).names, preparer.storageClient.stored files artifact.uri)) =
          writes.map (fun write ↦ (write.1, some write.2)) ∧
        files'.content = FileTree.written writes files.content := by
  induction inputs generalizing files done with
  | nil =>
    obtain ⟨hdone, rfl⟩ := Prod.mk.inj h
    exact ⟨(Except.ok.inj hdone).symm, [], rfl, rfl⟩
  | cons artifact inputs ih =>
    obtain ⟨hfirst, hrest⟩ := List.pairwise_cons.mp hreads
    rw [downloadInputs] at h
    obtain ⟨targetPath, files₁, htarget, h⟩ := Exec.bind_eq_ok.mp h
    obtain ⟨⟨⟩, files₂, hparent, h⟩ := Exec.bind_eq_ok.mp h
    obtain ⟨⟨⟩, files₃, hdownload, h⟩ := Exec.bind_eq_ok.mp h
    obtain ⟨others, files₄, hothers, h⟩ := Exec.bind_eq_ok.mp h
    obtain ⟨hdone, rfl⟩ := Prod.mk.inj h
    obtain ⟨hplace, rfl⟩ := Prod.mk.inj htarget
    obtain rfl : targetPath = inputPath root artifact := by
      rcases hinside : inputTarget root artifact with exception | path
      · rw [hinside] at hplace
        cases hplace
      · rw [hinside] at hplace
        obtain rfl := Except.ok.inj hplace
        exact inputTarget_eq_ok hinside
    have hsame := createParent_content hparent
    rw [inputPath_eq] at hdownload
    obtain ⟨content, hstored, hwritten⟩ := download_content hdownload
    rw [hsame] at hwritten
    obtain ⟨rfl, writes, hwrites, hcontent⟩ := ih hrest hothers
    refine ⟨(Except.ok.inj hdone).symm, ((inputPath root artifact).names, content) :: writes,
      ?_, ?_⟩
    · rw [List.map_cons, List.map_cons, ← hwrites, ← hstored, stored_congr hsame,
        List.cons.injEq]
      refine ⟨rfl, List.map_congr_left fun other hother ↦ ?_⟩
      -- the later inputs are read from the storage as it was: this download spares them
      have hspares := hfirst other hother
      rw [inputPath_eq] at hspares
      rw [stored_of_spares hspares hwritten]
    · rw [hcontent, FileTree.written_cons, hwritten, inputPath_eq]
      rfl

variable {parameters : ScriptParameters} {workspaceRoot : Directory} {workspace : ScriptWorkspace}

theorem writeString_content {text : String}
    (h : preparer.writeString path text files = (.ok (), files')) :
    files'.content = Function.update files.content path.names (some (utf8 text)) := by
  rw [writeString] at h
  split at h
  · cases h
  · obtain ⟨-, rfl⟩ := Prod.mk.inj h
    exact FileTree.content_replace _ _ _

theorem prepareScript_content
    (h : preparer.prepareScript parameters directory.path files = (.ok (), files')) :
    ∃ content, preparedScript preparer.storageClient files parameters = some content ∧
      files'.content = Function.update files.content directory.names (some content) := by
  rw [prepareScript] at h
  rw [preparedScript]
  rcases hscript : parameters.script with _ | script
  · rw [hscript] at h
    exact download_content h
  · rw [hscript] at h
    exact ⟨utf8 script, rfl, writeString_content h⟩

/-- **A preparation that returns** has written the script and then the inputs, each with what the
storage held before. -/
theorem prepare_written
    (hreads : ReadsStored preparer.storageClient parameters (scriptRoot workspaceRoot))
    (h : preparer.prepare parameters workspaceRoot files = (.ok workspace, files')) :
    workspace.root = (scriptRoot workspaceRoot).path ∧
      workspace.scriptPath = scriptPath (scriptRoot workspaceRoot) ∧
      workspace.inputs = parameters.inputArtifacts ∧
      ∃ script, preparedScript preparer.storageClient files parameters = some script ∧
        ∃ writes : List (List String × List UInt8),
          (parameters.inputArtifacts.map fun artifact ↦
            ((inputPath (scriptRoot workspaceRoot) artifact).names,
              preparer.storageClient.stored files artifact.uri)) =
            writes.map (fun write ↦ (write.1, some write.2)) ∧
          files'.content = FileTree.written
            (((scriptPath (scriptRoot workspaceRoot)).names, script) :: writes) files.content := by
  rw [prepare] at h
  obtain ⟨⟨⟩, files₁, hroot, h⟩ := Exec.bind_eq_ok.mp h
  obtain ⟨-, rfl⟩ := Prod.mk.inj hroot
  obtain ⟨⟨⟩, files₂, hworking, h⟩ := Exec.bind_eq_ok.mp h
  obtain ⟨-, rfl⟩ := Prod.mk.inj hworking
  obtain ⟨⟨⟩, files₃, hplace, h⟩ := Exec.bind_eq_ok.mp h
  obtain ⟨-, rfl⟩ := Prod.mk.inj hplace
  rw [Exec.mapError_eq_ok] at h
  obtain ⟨⟨⟩, files₁, hdirectories, h⟩ := Exec.bind_eq_ok.mp h
  obtain ⟨⟨⟩, files₂, hparent, h⟩ := Exec.bind_eq_ok.mp h
  obtain ⟨⟨⟩, files₃, hscript, h⟩ := Exec.bind_eq_ok.mp h
  obtain ⟨inputs, files₄, hinputs, h⟩ := Exec.bind_eq_ok.mp h
  obtain ⟨hworkspace, rfl⟩ := Prod.mk.inj h
  obtain rfl := Except.ok.inj hworkspace
  -- the directories that are made hold no content
  have hsame : files₂.content = files.content :=
    (createParent_content hparent).trans (createDirectories_content hdirectories)
  rw [scriptPath_eq] at hscript
  obtain ⟨script, hprepared, hwritten⟩ := prepareScript_content hscript
  obtain ⟨rfl, writes, hwrites, hcontent⟩ := downloadInputs_written hreads.inputs hinputs
  rw [hsame] at hwritten
  refine ⟨rfl, rfl, rfl, script, ?_, writes, ?_, ?_⟩
  · rw [← hprepared, preparedScript, preparedScript]
    rcases parameters.script with _ | text
    · exact (stored_congr hsame _).symm
    · rfl
  · rw [← hwrites]
    refine List.map_congr_left fun artifact hartifact ↦ ?_
    have hspares := hreads.script artifact hartifact
    rw [scriptPath_eq] at hspares
    rw [stored_of_spares hspares hwritten]
  · rw [hcontent, FileTree.written_cons, hwritten, scriptPath_eq]
    rfl

end Written

/-! ## When the workspace is as asked for

The files are written one after the other, the script first. A file has in the end what was
written to its path last, so each is as it was asked for unless another one is asked for at the
same path. -/

section Asked

variable {client : LocalStorageClient} {files : StoredFiles} {parameters : ScriptParameters}

theorem names_of_startsWith {path : Path} {directory : Directory}
    (h : path.startsWith directory.path = true) : directory.names <+: path.names := by
  rw [Path.startsWith, Bool.and_eq_true] at h
  exact List.isPrefixOf_iff_prefix.mp h.2

theorem root_of_sourcePath {uri : String} {sourcePath : Path}
    (h : client.sourcePath uri = .ok sourcePath) : client.root.names <+: sourcePath.names := by
  obtain ⟨namespacePath, -, h⟩ := Transition.bind_eq_ok.mp h
  rw [LocalStorageClient.resolve] at h
  obtain ⟨path, -, h⟩ := Transition.bind_eq_ok.mp h
  dsimp only at h
  split at h
  · cases h
  · rename_i hinside
    obtain rfl := Except.ok.inj h
    rw [Bool.not_eq_true', Bool.not_eq_false] at hinside
    exact names_of_startsWith hinside

/-- A storage and a workspace that are apart, as every configuration has them. -/
theorem readsStored_of_apart {workspaceRoot : Directory}
    (hinside : ∀ artifact ∈ parameters.inputArtifacts,
      (inputPath (scriptRoot workspaceRoot) artifact).startsWith
        (scriptRoot workspaceRoot).path = true)
    (habove : ¬client.root.names <+: workspaceRoot.names)
    (hbelow : ¬workspaceRoot.names <+: client.root.names) :
    ReadsStored client parameters (scriptRoot workspaceRoot) := by
  have hroot : workspaceRoot.names <+: (scriptRoot workspaceRoot).names := by
    rw [scriptRoot, Directory.ofPath_names _ (by decide)]
    exact List.prefix_append _ _
  have hspares : ∀ path uri, path.startsWith (scriptRoot workspaceRoot).path = true →
      client.Spares path uri := by
    intro path uri hpath sourcePath hsource heq
    have hsame := root_of_sourcePath hsource
    rw [heq] at hsame
    have hworkspace := hroot.trans (names_of_startsWith hpath)
    rcases List.prefix_or_prefix_of_prefix hsame hworkspace with h | h
    · exact habove h
    · exact hbelow h
  refine ⟨fun artifact _ ↦ hspares _ _ ?_, ?_⟩
  · have hplain : Paths.Plain "." ".." [".script", SCRIPT_FILE_NAME] := by decide
    rw [scriptPath_eq, Directory.path, Directory.ofPath_names _ hplain]
    exact Path.startsWith_append
  · exact List.pairwise_of_forall_mem_list fun earlier hmem later _ ↦
      hspares _ _ (hinside earlier hmem)

/-- What is written for the script is what was given, unless a blank text stands beside an
artifact. -/
theorem preparedScript_eq_given_iff :
    preparedScript client files parameters = givenScript client files parameters ↔
      ∀ script ∈ parameters.script, JavaText.isBlank script = true →
        givenScript client files parameters = some (utf8 script) := by
  have hsingle := parameters.single
  rw [preparedScript]
  rcases hscript : parameters.script with _ | script
  · -- there is no text, so the identifier of the artifact is not blank
    refine iff_of_true ?_ nofun
    rw [hscript] at hsingle
    rw [givenScript, hscript]
    rcases huri : parameters.scriptArtifactUri with _ | uri
    · rw [huri] at hsingle
      exact absurd rfl hsingle
    · rfl
  · simp only [Option.mem_def, Option.some.injEq, forall_eq']
    rcases hblank : JavaText.isBlank script with _ | _
    · refine iff_of_true ?_ nofun
      rw [givenScript, hscript, ScriptParameters.isBlank, Option.all_some, hblank]
      rfl
    · exact ⟨fun h _ ↦ h.symm, fun h ↦ (h rfl).symm⟩

theorem path_eq_of_names {directory directory' : Directory}
    (h : directory.path.names = directory'.path.names) : directory.path = directory'.path :=
  congrArg (Path.mk true) h

theorem exists_input_written {root : Directory} {inputs : List ScriptInputArtifact}
    {writes : List (List String × List UInt8)} (contents : List String → Option (List UInt8))
    (hwrites : (inputs.map fun artifact ↦
      ((inputPath root artifact).names, client.stored files artifact.uri)) =
        writes.map fun write ↦ (write.1, some write.2))
    {artifact : ScriptInputArtifact} (h : artifact ∈ inputs) :
    ∃ other ∈ inputs, inputPath root other = inputPath root artifact ∧ ∃ content,
      client.stored files other.uri = some content ∧
        FileTree.written writes contents (inputPath root artifact).names = some content := by
  have hmem : ((inputPath root artifact).names, client.stored files artifact.uri) ∈
      writes.map fun write ↦ (write.1, some write.2) := by
    rw [← hwrites]
    exact List.mem_map_of_mem h
  obtain ⟨write, hwrite, heq⟩ := List.mem_map.mp hmem
  obtain ⟨last, hlast, hplace, hheld⟩ := FileTree.exists_written contents
    ⟨write, hwrite, (Prod.mk.inj heq).1⟩
  have hother : (last.1, some last.2) ∈ inputs.map fun artifact ↦
      ((inputPath root artifact).names, client.stored files artifact.uri) := by
    rw [hwrites]
    exact List.mem_map_of_mem hlast
  obtain ⟨other, hin, heq⟩ := List.mem_map.mp hother
  obtain ⟨hnames, hstored⟩ := Prod.mk.inj heq
  refine ⟨other, hin, ?_, last.2, hstored, hheld⟩
  have hsame := hnames.trans hplace
  rw [inputPath_eq, inputPath_eq] at hsame ⊢
  exact path_eq_of_names hsame

theorem script_written {root : Directory} {inputs : List ScriptInputArtifact}
    {writes : List (List String × List UInt8)} (contents : List String → Option (List UInt8))
    (hwrites : (inputs.map fun artifact ↦
      ((inputPath root artifact).names, client.stored files artifact.uri)) =
        writes.map fun write ↦ (write.1, some write.2))
    (h : ¬∃ artifact ∈ inputs, inputPath root artifact = scriptPath root) (script : List UInt8) :
    FileTree.written (((scriptPath root).names, script) :: writes) contents
      (scriptPath root).names = some script := by
  rw [FileTree.written_cons, FileTree.written_of_not_mem, Function.update_self]
  intro write hwrite heq
  have hmem : (write.1, some write.2) ∈ inputs.map fun artifact ↦
      ((inputPath root artifact).names, client.stored files artifact.uri) := by
    rw [hwrites]
    exact List.mem_map_of_mem hwrite
  obtain ⟨artifact, hin, hwritten⟩ := List.mem_map.mp hmem
  have hsame := (Prod.mk.inj hwritten).1.trans heq
  refine h ⟨artifact, hin, ?_⟩
  rw [inputPath_eq, scriptPath_eq] at hsame ⊢
  exact path_eq_of_names hsame

/-- **Which workspaces are as asked for.** A preparation that returns leaves the script and every
input as they were asked for exactly when nothing else is asked for at the same path. -/
theorem prepared_asAsked (preparer : ScriptWorkspacePreparer) (parameters : ScriptParameters)
    (workspaceRoot : Directory) {files files' : StoredFiles} {workspace : ScriptWorkspace}
    (h : preparer.prepare parameters workspaceRoot files = (.ok workspace, files'))
    (hreads : ReadsStored preparer.storageClient parameters (scriptRoot workspaceRoot)) :
    AsAsked preparer.storageClient files parameters workspace files' ↔
      Agreed preparer.storageClient files parameters (scriptRoot workspaceRoot) := by
  obtain ⟨hroot, hplace, -, script, hprepared, writes, hwrites, hcontent⟩ :=
    prepare_written hreads h
  constructor
  · intro hasked
    -- two contents at one path are what the files hold there
    have hinput : ∀ artifact ∈ parameters.inputArtifacts,
        preparer.storageClient.stored files artifact.uri =
          files'.content (inputPath (scriptRoot workspaceRoot) artifact).names := by
      intro artifact hmem
      obtain ⟨content, hstored, hheld⟩ := hasked.inputs artifact hmem
      rw [hroot] at hheld
      exact hstored.trans hheld.symm
    have hscript : givenScript preparer.storageClient files parameters =
        files'.content (scriptPath (scriptRoot workspaceRoot)).names := by
      obtain ⟨content, hgiven, hheld⟩ := hasked.script
      rw [hplace] at hheld
      exact hgiven.trans hheld.symm
    refine ⟨fun artifact hmem other hother hsame ↦ ?_, fun artifact hmem hsame ↦ ?_,
      fun text htext hblank ↦ ?_⟩
    · rw [hinput artifact hmem, hinput other hother, hsame]
    · rw [hinput artifact hmem, hscript, hsame]
    · by_cases hover : ∃ artifact ∈ parameters.inputArtifacts,
          inputPath (scriptRoot workspaceRoot) artifact = scriptPath (scriptRoot workspaceRoot)
      · exact Or.inr hover
      · left
        have hstays := script_written files.content hwrites hover script
        rw [hscript, hcontent, hstays, ← hprepared, preparedScript, htext]
  · intro hagreed
    constructor
    · rw [hplace, hcontent]
      by_cases hover : ∃ artifact ∈ parameters.inputArtifacts,
          inputPath (scriptRoot workspaceRoot) artifact = scriptPath (scriptRoot workspaceRoot)
      · obtain ⟨artifact, hmem, hsame⟩ := hover
        obtain ⟨other, hother, hplaces, content, hstored, hheld⟩ :=
          exists_input_written _ hwrites hmem
        refine ⟨content, ?_, ?_⟩
        · rw [← hagreed.script other hother (hplaces.trans hsame), hstored]
        · rw [← hsame]
          exact hheld
      · refine ⟨script, ?_, script_written _ hwrites hover script⟩
        rw [← hprepared, eq_comm, preparedScript_eq_given_iff]
        exact fun text htext hblank ↦ (hagreed.given text htext hblank).resolve_right hover
    · intro artifact hmem
      obtain ⟨other, hother, hsame, content, hstored, hheld⟩ :=
        exists_input_written _ hwrites hmem
      refine ⟨content, ?_, ?_⟩
      · rw [hagreed.inputs artifact hmem other hother hsame.symm, hstored]
      · rw [hroot, hcontent]
        exact hheld

end Asked

/-! ### Examples -/

namespace Small

def preparer : ScriptWorkspacePreparer where
  storageClient := ⟨LocalFilesystemStorageBackend.storageRoot, ⟨[], by decide⟩, fun _ ↦ false⟩
  ioFailure := fun path ↦ ⟨"java.nio.file.FileSystemException", some (.ofList path.text)⟩

/-- A storage with one artifact. -/
def files : StoredFiles := [(["storage", "data.txt"], .file [0x31])]

/-- A job that lists a directory, with an input. -/
def job (path : String) : JobMessage where
  schemaVersion := 1
  messageId := some 1
  correlationId := none
  pipelineRunId := some 3
  pipelineId := some 4
  stageId := some 5
  jobId := some 6
  jobExecutionId := some 2
  jobType := some .script
  templatePath := some ScriptParameters.TEMPLATE_PATH
  attempt := 1
  maxAttempts := 1
  timeoutSeconds := 60
  resourceLimits := .empty
  workspacePolicy := none
  sandboxPolicy := none
  inputs := []
  params := [("script", .str "ls"),
    ("input_artifacts", .arr [.obj [("uri", .str "storage://data.txt"), ("path", .str path)]])]
  secrets := []
  createdAt := none

/-- The parameters that are read from the job. -/
def parameters (path : Path) : ScriptParameters where
  script := some "ls"
  scriptArtifactUri := none
  workingDirectory := ⟨false, []⟩
  environment := []
  inputArtifacts := [⟨"storage://data.txt", path⟩]
  expectedOutputPatterns := []
  effectiveNetworkPolicy := "none"
  single := by decide

def workspace (parameters : ScriptParameters) : ScriptWorkspace where
  root := ⟨true, ["srv", "script"]⟩
  workingDirectory := ⟨true, ["srv", "script"]⟩
  scriptPath := ⟨true, ["srv", "script", ".script", "script.sh"]⟩
  inputs := parameters.inputArtifacts

theorem readsStored {path : Path} (h : (inputPath (scriptRoot smallRoot)
      ⟨"storage://data.txt", path⟩).startsWith (scriptRoot smallRoot).path = true) :
    ReadsStored preparer.storageClient (parameters path) (scriptRoot smallRoot) := by
  refine readsStored_of_apart (fun artifact hmem ↦ ?_) (by decide) (by decide)
  rw [List.mem_singleton.mp hmem]
  exact h

end Small

theorem prepared_asAsked_small :
    AsAsked Small.preparer.storageClient Small.files (Small.parameters ⟨false, ["inputs", "list"]⟩)
      (Small.workspace (Small.parameters ⟨false, ["inputs", "list"]⟩))
      (Small.preparer.prepare (Small.parameters ⟨false, ["inputs", "list"]⟩) smallRoot
        Small.files).2 := by
  have hok : (Small.preparer.prepare (Small.parameters ⟨false, ["inputs", "list"]⟩) smallRoot
      Small.files).1 = .ok (Small.workspace (Small.parameters ⟨false, ["inputs", "list"]⟩)) := by
    decide +kernel
  refine (prepared_asAsked Small.preparer (Small.parameters ⟨false, ["inputs", "list"]⟩) smallRoot
    (Prod.ext hok rfl) (Small.readsStored (by decide))).mpr ⟨?_, ?_, ?_⟩
  · intro artifact hmem other hother _
    rw [List.mem_singleton.mp hmem, List.mem_singleton.mp hother]
  · intro artifact hmem hsame
    rw [List.mem_singleton.mp hmem] at hsame
    exact absurd hsame (by decide)
  · intro script hscript hblank
    rw [← Option.some.inj hscript] at hblank
    exact absurd hblank (by decide)

/-- An input takes the place of the script. -/
theorem not_asAsked : ¬∀ (isLetter : Char → Bool) (job : JobMessage) (parameters : ScriptParameters)
    (preparer : ScriptWorkspacePreparer) (workspaceRoot : Directory) (files files' : StoredFiles)
    (workspace : ScriptWorkspace), ScriptParameters.fromJob isLetter job = .ok parameters →
      preparer.prepare parameters workspaceRoot files = (.ok workspace, files') →
      ReadsStored preparer.storageClient parameters (scriptRoot workspaceRoot) →
        AsAsked preparer.storageClient files parameters workspace files' := by
  intro h
  have hok : (Small.preparer.prepare (Small.parameters ⟨false, [".script", "script.sh"]⟩) smallRoot
      Small.files).1 =
        .ok (Small.workspace (Small.parameters ⟨false, [".script", "script.sh"]⟩)) := by
    decide +kernel
  obtain ⟨content, hgiven, hheld⟩ := (h Char.isAlpha (Small.job ".script/script.sh") _
    Small.preparer smallRoot Small.files _ _ (by decide +kernel) (Prod.ext hok rfl)
    (Small.readsStored (by decide))).script
  exact absurd (hgiven.trans hheld.symm) (by decide +kernel)

end ScriptWorkspacePreparer

end FuzzingCiCd.Executor
