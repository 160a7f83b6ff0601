import FuzzingCiCd.Executor.Path
import FuzzingCiCd.Executor.ProcessOutput
import FuzzingCiCd.Executor.SandboxPolicyValidator
import FuzzingCiCd.Foundation.Exec
import FuzzingCiCd.Foundation.Transition
import FuzzingCiCd.Foundation.Utf8

/-!
# Source snapshots of a build

`BuildSourceSnapshotPreparer` lists a downloaded archive twice, once for the names and once for the
types of its entries, checks every line it has captured, and extracts the archive. What it checks
are lines, and what is extracted are entries. There are two ways for an entry to go unchecked: its
line lies beyond the limit of the captured output, or the printed name is not the name, since `tar`
escapes with backslashes, which the check reads as slashes.

`tar` itself is not part of the repository. Of its listings it is assumed that they have one line
per entry in the order of the archive, that a name printed without a backslash is printed as it is,
and that a line of the long listing starts with the letter of the type.

## Main results

* `validateArchiveEntry_inside`: a line that passes and is the name of an entry keeps it inside.
* `extractsOnlyInside_iff`: which archives are extracted although an entry is not fit for it.
-/

namespace FuzzingCiCd.Executor

open Contracts Transition

/-! ## Archives and their listings -/

inductive TarEntryType
  | regular | directory | symbolicLink | hardLink | characterDevice | blockDevice | fifo
  | contiguous | unknown
  deriving DecidableEq

/-- The letter at the start of a line of the long listing. -/
def TarEntryType.letter : TarEntryType → UInt8
  | .regular => 0x2D
  | .directory => 0x64
  | .symbolicLink => 0x6C
  | .hardLink => 0x68
  | .characterDevice => 0x63
  | .blockDevice => 0x62
  | .fifo => 0x70
  | .contiguous => 0x43
  | .unknown => 0x3F

/-- An entry of an archive: its name in octets and its type. -/
structure TarEntry where
  name : List UInt8
  type : TarEntryType
  deriving DecidableEq

/-- How `tar` prints entries: a name in the short listing, and what follows the letter in the long
one. A line break inside a name is escaped. -/
structure TarListing where
  nameLine : TarEntry → List UInt8
  details : TarEntry → List UInt8
  nameLine_line : ∀ entry, 0x0A ∉ nameLine entry ∧ 0x0D ∉ nameLine entry
  details_line : ∀ entry, 0x0A ∉ details entry ∧ 0x0D ∉ details entry
  verbatim : ∀ entry, 0x5C ∉ nameLine entry → nameLine entry = entry.name

def TarListing.typeLine (tar : TarListing) (entry : TarEntry) : List UInt8 :=
  entry.type.letter :: tar.details entry

/-- A listing, one line per entry. -/
def listing (line : TarEntry → List UInt8) (archive : List TarEntry) : List UInt8 :=
  archive.flatMap fun entry ↦ line entry ++ [0x0A]

/-! ## The preparer

The preparer starts `tar` three times, twice to list the archive and once to extract it. The file
system, the storage and `tar` are a parameter, `SnapshotHost`, of which only the promise is used
that a successful listing prints the lines of the archive, as far as they are captured. -/

inductive SnapshotFailure
  | job (errorType : ErrorType) (code message : String)
  /-- `IllegalArgumentException` of the request. -/
  | illegalArgument (message : String)
  /-- `InvalidPathException` of `Path.of`. -/
  | invalidPath
  deriving DecidableEq

def SnapshotFailure.validation (message : String) : SnapshotFailure :=
  .job .validationError "executor.job.validation" message

/-- Runs of the preparer, with the commands that have been started. -/
abbrev Prepare : Type → Type := Exec (List (List String)) SnapshotFailure

namespace BuildSourceSnapshotPreparer

variable (root : Directory)

def snapshotWorkDir : Directory := .ofPath root ⟨false, [".build-source"]⟩

def archivePath : Directory := .ofPath (snapshotWorkDir root) ⟨false, ["source-snapshot.tar.gz"]⟩

def sourceRoot : Directory := .ofPath root ⟨false, ["source"]⟩

def listNamesCommand : List String := ["tar", "-tzf", .ofList (archivePath root).path.text]

def listTypesCommand : List String := ["tar", "-tvzf", .ofList (archivePath root).path.text]

def extractCommand : List String :=
  ["tar", "-xzf", .ofList (archivePath root).path.text, "-C",
    .ofList (sourceRoot root).path.text]

def ensureInsideWorkspace (path : Path) : Except SnapshotFailure Unit :=
  if !path.startsWith root.path then
    .error (.validation "source snapshot path выходит за пределы workspace")
  else .ok ()

end BuildSourceSnapshotPreparer

open BuildSourceSnapshotPreparer in
/-- Everything outside the preparer: the file system, the storage and the child processes. A process
that ends by itself and with success has written the listing to its stdout. -/
structure SnapshotHost (tar : TarListing) (archive : List TarEntry) (root : Directory) where
  prepareDirectories : Except String Unit
  download : Except String Unit
  /-- `ProcessRunner.run`, which throws a `ProcessRunnerException`. -/
  run : List String → Except String ProcessExecutionResult
  /-- The symbolic links below the extracted tree, with their targets. -/
  symbolicLinks : Except String (List (Directory × Except String Path))
  lists_names : ∀ result, run (listNamesCommand root) = .ok result → result.exitCode = 0 →
    result.timedOut = false → ∃ written, written .stdout = listing tar.nameLine archive ∧
      RunnerResult .defaults written result
  lists_types : ∀ result, run (listTypesCommand root) = .ok result → result.exitCode = 0 →
    result.timedOut = false → ∃ written, written .stdout = listing tar.typeLine archive ∧
      RunnerResult .defaults written result

namespace BuildSourceSnapshotPreparer

/-- `entry` with the separators of Windows turned round. -/
def unixEntry (rawEntry : List Char) : List Char :=
  (JavaText.trim rawEntry).map fun ch ↦ if ch = '\\' then '/' else ch

def validateArchiveEntry (rawEntry : List Char) : Except SnapshotFailure Unit :=
  let entry := unixEntry rawEntry
  if entry.all JavaText.isWhitespace then .ok ()
  else
    match Path.of entry with
    | none => .error .invalidPath
    | some path =>
      let entryPath := path.normalize
      if entryPath.isAbsolute || entry.head? = some '/' || entryPath.text = ['.', '.'] ||
          entryPath.startsWith ⟨false, [".."]⟩ then
        .error (.validation ("source snapshot содержит путь за пределы workspace: " ++
          .ofList rawEntry))
      else .ok ()

def validateArchiveEntryType (rawLine : List Char) : Except SnapshotFailure Unit :=
  let line := JavaText.trim rawLine
  if line.all JavaText.isWhitespace then .ok ()
  else
    let type := line.headD ' '
    if type ≠ '-' ∧ type ≠ 'd' then
      .error (.validation ("source snapshot содержит неподдерживаемый тип tar entry: " ++
        .ofList rawLine))
    else .ok ()

section Run

variable {tar : TarListing} {archive : List TarEntry} {root : Directory}
  (host : SnapshotHost tar archive root) (timeoutSeconds : ℤ)

def runTar (command : List String) (errorCode : String) : Prepare ProcessExecutionResult :=
  if timeoutSeconds ≤ 0 then
    Exec.throw (.illegalArgument "Timeout процесса должен быть положительным")
  else do
    Exec.modify (· ++ [command])
    Exec.ofExcept ((host.run command).mapError fun _ ↦
      .job .infrastructureError errorCode "Не удалось запустить tar через process runner")

/-- A run of `tar` that has to end by itself and with success. -/
def requireSuccess (result : ProcessExecutionResult) (timeoutCode message : String) :
    Except SnapshotFailure Unit :=
  if result.timedOut then
    .error (.job .timeout timeoutCode "Подготовка source snapshot превысила timeout job")
  else if result.exitCode ≠ 0 then
    .error (.job .validationError "build.snapshot.invalid-archive" message)
  else .ok ()

def validateArchiveEntryTypes : Prepare Unit := do
  let result ← runTar host timeoutSeconds (listTypesCommand root) "build.snapshot.tar-list"
  Exec.ofExcept (requireSuccess result "build.snapshot.tar-list.timeout"
    "tar не смог прочитать metadata source snapshot")
  Exec.ofExcept ((JavaText.lines (result.stdoutText Utf8.decode)).forM validateArchiveEntryType)

def validateArchiveEntries : Prepare Unit := do
  let result ← runTar host timeoutSeconds (listNamesCommand root) "build.snapshot.tar-list"
  Exec.ofExcept (requireSuccess result "build.snapshot.tar-list.timeout"
    "tar не смог прочитать source snapshot")
  let stdout := result.stdoutText Utf8.decode
  Exec.ofExcept (if stdout.all JavaText.isWhitespace then
    .error (.validation "source snapshot не содержит файлов для сборки") else .ok ())
  Exec.ofExcept ((JavaText.lines stdout).forM validateArchiveEntry)
  validateArchiveEntryTypes host timeoutSeconds

def extractArchive : Prepare Unit := do
  let result ← runTar host timeoutSeconds (extractCommand root) "build.snapshot.extract"
  Exec.ofExcept (requireSuccess result "build.snapshot.extract.timeout"
    "tar не смог распаковать source snapshot")

def validateSymlink (root symlink : Directory) (target : Except String Path) :
    Except SnapshotFailure Unit := do
  let target ← target.mapError fun _ ↦
    .job .infrastructureError "build.snapshot.symlink-validation"
      "Не удалось прочитать symlink из source snapshot"
  let resolvedTarget :=
    if target.isAbsolute then target.normalize
    else ((Path.mk true symlink.names.dropLast).resolve target).normalize
  if !resolvedTarget.startsWith (sourceRoot root).path then
    let relative := Path.mk false (symlink.names.drop (sourceRoot root).names.length)
    .error (.validation ("source snapshot содержит symlink за пределы workspace: " ++
      .ofList relative.text))
  else .ok ()

def validateExtractedSymlinks : Except SnapshotFailure Unit := do
  let links ← host.symbolicLinks.mapError fun _ ↦
    .job .infrastructureError "build.snapshot.symlink-validation"
      "Не удалось проверить распакованный source snapshot"
  links.forM fun link ↦ validateSymlink root link.1 link.2

/-- What `prepare` does before it extracts the archive. -/
def checkSnapshot : Prepare Unit := do
  Exec.ofExcept (ensureInsideWorkspace root (archivePath root).path)
  Exec.ofExcept (ensureInsideWorkspace root (sourceRoot root).path)
  Exec.ofExcept (host.prepareDirectories.mapError fun _ ↦
    .job .infrastructureError "build.snapshot.workspace"
      "Не удалось подготовить workspace для source snapshot")
  Exec.ofExcept (host.download.mapError fun _ ↦
    .job .infrastructureError "build.snapshot.download-failed"
      "Не удалось скачать source snapshot из внутреннего хранилища")
  validateArchiveEntries host timeoutSeconds

/-- `prepare`, up to the record it returns. -/
def prepare : Prepare Unit := do
  checkSnapshot host timeoutSeconds
  extractArchive host timeoutSeconds
  Exec.ofExcept (validateExtractedSymlinks host)

/-- The preparer goes on to extract the archive. -/
def Extracts : Prop := extractCommand root ∈ (prepare host timeoutSeconds []).2

end Run

/-! ## When the archive is extracted

The call to extract is made exactly if the two listings succeed and the text that was captured of
each passes line by line. The log of started commands is what is looked at, since extracting may
fail for reasons of its own afterwards. -/

/-- What a listing shows of the archive: as much as is captured of it. -/
def capturedText (line : TarEntry → List UInt8) (archive : List TarEntry) : List Char :=
  Utf8.decode
    ((listing line archive).take ProcessExecutionRequest.DEFAULT_MAX_OUTPUT_BYTES_PER_STREAM)

def Succeeds (run : Except String ProcessExecutionResult) : Prop :=
  ∃ result, run = .ok result ∧ result.timedOut = false ∧ result.exitCode = 0

/-- The archive can be downloaded and `tar` can list it. -/
structure Readable {tar : TarListing} {archive : List TarEntry} {root : Directory}
    (host : SnapshotHost tar archive root) (timeoutSeconds : ℤ) : Prop where
  timeout : 0 < timeoutSeconds
  directories : host.prepareDirectories = .ok ()
  download : host.download = .ok ()
  names : Succeeds (host.run (listNamesCommand root))
  types : Succeeds (host.run (listTypesCommand root))

/-- Something of what has been captured is refused: there is nothing in it, or a line does not
pass. -/
def Refused (tar : TarListing) (archive : List TarEntry) : Prop :=
  (capturedText tar.nameLine archive).all JavaText.isWhitespace = true ∨
    (∃ line ∈ JavaText.lines (capturedText tar.nameLine archive),
      validateArchiveEntry line ≠ .ok ()) ∨
    ∃ line ∈ JavaText.lines (capturedText tar.typeLine archive),
      validateArchiveEntryType line ≠ .ok ()

section Extraction

variable {tar : TarListing} {archive : List TarEntry} {root : Directory}
  {host : SnapshotHost tar archive root} {timeoutSeconds : ℤ} {log log' : List (List String)}

theorem mapError_eq_ok {α ε ε' : Type} {f : ε → ε'} {x : Except ε α} {a : α} :
    x.mapError f = .ok a ↔ x = .ok a := by
  rcases x with e | b
  · simp
  · simp

theorem exists_unit {p : Unit → Prop} : (∃ u, p u) ↔ p () :=
  ⟨fun ⟨_, h⟩ ↦ h, fun h ↦ ⟨(), h⟩⟩

theorem ofExcept_eq_ok {α : Type} {x : Except SnapshotFailure α} {a : α} :
    (Exec.ofExcept x : Prepare α) log = (.ok a, log') ↔ x = .ok a ∧ log' = log := by
  rw [Exec.ofExcept_apply, Prod.mk.injEq, eq_comm (a := log)]

theorem runTar_eq_ok {command : List String} {code : String} {result : ProcessExecutionResult} :
    runTar host timeoutSeconds command code log = (.ok result, log') ↔
      0 < timeoutSeconds ∧ host.run command = .ok result ∧ log' = log ++ [command] := by
  rw [runTar]
  by_cases h : timeoutSeconds ≤ 0
  · rw [if_pos h]
    refine iff_of_false (fun heq ↦ by cases heq) fun hrun ↦ ?_
    omega
  · rw [if_neg h, Exec.bind_of_ok (Exec.modify_apply _ log), ofExcept_eq_ok, mapError_eq_ok]
    exact ⟨fun hrun ↦ ⟨by omega, hrun⟩, fun hrun ↦ hrun.2⟩

theorem requireSuccess_eq_ok {result : ProcessExecutionResult} {code message : String} :
    requireSuccess result code message = .ok () ↔
      result.timedOut = false ∧ result.exitCode = 0 := by
  rw [requireSuccess]
  cases result.timedOut with
  | true => simp
  | false => simp

theorem appends_runTar {command : List String} {code : String} (h : command ≠ extractCommand root) :
    Exec.Appends id (· ≠ extractCommand root) (runTar host timeoutSeconds command code) := by
  intro log
  rw [runTar]
  split
  · exact ⟨[], (List.append_nil _).symm, by simp⟩
  · exact ⟨[command], rfl, by simpa using h⟩

theorem appends_ofExcept {α : Type} (x : Except SnapshotFailure α) :
    Exec.Appends id (· ≠ extractCommand root) (Exec.ofExcept x : Prepare α) :=
  (Exec.leaves_ofExcept x).appends

theorem appends_checkSnapshot :
    Exec.Appends id (· ≠ extractCommand root) (checkSnapshot host timeoutSeconds) := by
  have hnames : listNamesCommand root ≠ extractCommand root := by
    simp [listNamesCommand, extractCommand]
  have htypes : listTypesCommand root ≠ extractCommand root := by
    simp [listTypesCommand, extractCommand]
  have hvalidateTypes : Exec.Appends id (· ≠ extractCommand root)
      (validateArchiveEntryTypes host timeoutSeconds) :=
    (appends_runTar htypes).bind fun _ ↦ (appends_ofExcept _).bind fun _ ↦ appends_ofExcept _
  have hvalidate : Exec.Appends id (· ≠ extractCommand root)
      (validateArchiveEntries host timeoutSeconds) :=
    (appends_runTar hnames).bind fun _ ↦ (appends_ofExcept _).bind fun _ ↦
      (appends_ofExcept _).bind fun _ ↦ (appends_ofExcept _).bind fun _ ↦ hvalidateTypes
  exact (appends_ofExcept _).bind fun _ ↦ (appends_ofExcept _).bind fun _ ↦
    (appends_ofExcept _).bind fun _ ↦ (appends_ofExcept _).bind fun _ ↦ hvalidate

/-- What a listing that succeeds shows is what has been captured of it. -/
theorem stdoutText_names {result : ProcessExecutionResult}
    (hrun : host.run (listNamesCommand root) = .ok result) (hexit : result.exitCode = 0)
    (htime : result.timedOut = false) :
    result.stdoutText Utf8.decode = capturedText tar.nameLine archive := by
  obtain ⟨written, hwritten, hresult⟩ := host.lists_names result hrun hexit htime
  rw [capturedText, ← hwritten]
  exact hresult.text_eq (fun _ ↦ rfl) .stdout Utf8.decode

theorem stdoutText_types {result : ProcessExecutionResult}
    (hrun : host.run (listTypesCommand root) = .ok result) (hexit : result.exitCode = 0)
    (htime : result.timedOut = false) :
    result.stdoutText Utf8.decode = capturedText tar.typeLine archive := by
  obtain ⟨written, hwritten, hresult⟩ := host.lists_types result hrun hexit htime
  rw [capturedText, ← hwritten]
  exact hresult.text_eq (fun _ ↦ rfl) .stdout Utf8.decode

theorem validateArchiveEntryTypes_iff :
    (∃ after, validateArchiveEntryTypes host timeoutSeconds log = (.ok (), after)) ↔
      0 < timeoutSeconds ∧ Succeeds (host.run (listTypesCommand root)) ∧
        ∀ line ∈ JavaText.lines (capturedText tar.typeLine archive),
          validateArchiveEntryType line = .ok () := by
  simp only [validateArchiveEntryTypes, Exec.bind_eq_ok, exists_unit, ofExcept_eq_ok, runTar_eq_ok,
    requireSuccess_eq_ok, forM_eq_ok]
  constructor
  · rintro ⟨after, result, _, ⟨htime, hrun, -⟩, _, ⟨⟨hended, hexit⟩, -⟩, hlines, -⟩
    rw [stdoutText_types hrun hexit hended] at hlines
    exact ⟨htime, ⟨result, hrun, hended, hexit⟩, hlines⟩
  · rintro ⟨htime, ⟨result, hrun, hended, hexit⟩, hlines⟩
    rw [← stdoutText_types hrun hexit hended] at hlines
    exact ⟨_, result, _, ⟨htime, hrun, rfl⟩, _, ⟨⟨hended, hexit⟩, rfl⟩, hlines, rfl⟩

theorem validateArchiveEntries_iff :
    (∃ after, validateArchiveEntries host timeoutSeconds log = (.ok (), after)) ↔
      0 < timeoutSeconds ∧ Succeeds (host.run (listNamesCommand root)) ∧
        Succeeds (host.run (listTypesCommand root)) ∧ ¬Refused tar archive := by
  have hrefused : ¬Refused tar archive ↔
      (capturedText tar.nameLine archive).all JavaText.isWhitespace = false ∧
        (∀ line ∈ JavaText.lines (capturedText tar.nameLine archive),
          validateArchiveEntry line = .ok ()) ∧
        ∀ line ∈ JavaText.lines (capturedText tar.typeLine archive),
          validateArchiveEntryType line = .ok () := by
    simp only [Refused, not_or, not_exists, not_and, not_not, Bool.not_eq_true]
  have hblank : ∀ text : List Char, (if text.all JavaText.isWhitespace then
      .error (.validation "source snapshot не содержит файлов для сборки") else .ok () :
      Except SnapshotFailure Unit) = .ok () ↔ text.all JavaText.isWhitespace = false := by
    intro text
    cases text.all JavaText.isWhitespace <;> simp
  simp only [validateArchiveEntries, Exec.bind_eq_ok, exists_unit, ofExcept_eq_ok, runTar_eq_ok,
    requireSuccess_eq_ok, forM_eq_ok, hblank, hrefused]
  constructor
  · rintro ⟨after, result, _, ⟨htime, hrun, -⟩, _, ⟨⟨hended, hexit⟩, -⟩, _, ⟨hsome, -⟩, _,
      ⟨hlines, -⟩, htypes⟩
    obtain ⟨-, hsucceeds, htypes⟩ := validateArchiveEntryTypes_iff.mp ⟨after, htypes⟩
    rw [stdoutText_names hrun hexit hended] at hsome hlines
    exact ⟨htime, ⟨result, hrun, hended, hexit⟩, hsucceeds, hsome, hlines, htypes⟩
  · rintro ⟨htime, ⟨result, hrun, hended, hexit⟩, hsucceeds, hsome, hlines, htypes⟩
    obtain ⟨after, hafter⟩ := validateArchiveEntryTypes_iff.mpr ⟨htime, hsucceeds, htypes⟩
    rw [← stdoutText_names hrun hexit hended] at hsome hlines
    exact ⟨after, result, _, ⟨htime, hrun, rfl⟩, _, ⟨⟨hended, hexit⟩, rfl⟩, _, ⟨hsome, rfl⟩, _,
      ⟨hlines, rfl⟩, hafter⟩

/-- The places of the preparer are below the workspace. -/
theorem ensureInsideWorkspace_eq_ok (root : Directory) :
    ensureInsideWorkspace root (archivePath root).path = .ok () ∧
      ensureInsideWorkspace root (sourceRoot root).path = .ok () := by
  have harchive : (archivePath root).path =
      ⟨true, root.names ++ [".build-source", "source-snapshot.tar.gz"]⟩ := by
    rw [Directory.path, archivePath, Directory.ofPath_names _ (by decide), snapshotWorkDir,
      Directory.ofPath_names _ (by decide), List.append_assoc]
    rfl
  have hsource : (sourceRoot root).path = ⟨true, root.names ++ ["source"]⟩ := by
    rw [Directory.path, sourceRoot, Directory.ofPath_names _ (by decide)]
  rw [ensureInsideWorkspace, ensureInsideWorkspace, harchive, hsource, Path.startsWith_append,
    Path.startsWith_append]
  exact ⟨rfl, rfl⟩

theorem checkSnapshot_iff :
    (∃ after, checkSnapshot host timeoutSeconds log = (.ok (), after)) ↔
      Readable host timeoutSeconds ∧ ¬Refused tar archive := by
  obtain ⟨harchive, hsource⟩ := ensureInsideWorkspace_eq_ok root
  simp only [checkSnapshot, Exec.bind_eq_ok, exists_unit, ofExcept_eq_ok, mapError_eq_ok, harchive,
    hsource, true_and, exists_eq_left]
  constructor
  · rintro ⟨after, _, ⟨hdirectories, -⟩, _, ⟨hdownload, -⟩, hvalidate⟩
    obtain ⟨htime, hnames, htypes, hrefused⟩ := validateArchiveEntries_iff.mp ⟨after, hvalidate⟩
    exact ⟨⟨htime, hdirectories, hdownload, hnames, htypes⟩, hrefused⟩
  · rintro ⟨⟨htime, hdirectories, hdownload, hnames, htypes⟩, hrefused⟩
    obtain ⟨after, hafter⟩ :=
      validateArchiveEntries_iff.mpr ⟨htime, hnames, htypes, hrefused⟩
    exact ⟨after, _, ⟨hdirectories, rfl⟩, _, ⟨hdownload, rfl⟩, hafter⟩

theorem started_bind {α β : Type} (x : Prepare α) (f : α → Except SnapshotFailure β)
    (log : List (List String)) : ((x >>= fun a ↦ Exec.ofExcept (f a)) log).2 = (x log).2 := by
  have hleaves : ∀ a, Exec.Leaves id (Exec.ofExcept (f a) : Prepare β) := fun a ↦
    Exec.leaves_ofExcept (f a)
  exact Exec.part_bind hleaves x log

/-- **When the preparer extracts.** It goes on to extract the archive exactly when everything
before succeeds and nothing of what has been captured is refused. -/
theorem extracts_iff :
    Extracts host timeoutSeconds ↔ Readable host timeoutSeconds ∧ ¬Refused tar archive := by
  obtain ⟨events, hevents, hnot⟩ :=
    @appends_checkSnapshot tar archive root host timeoutSeconds []
  rw [← @checkSnapshot_iff tar archive root host timeoutSeconds [], Extracts, prepare]
  rcases hcheck : checkSnapshot host timeoutSeconds [] with ⟨failure | ⟨⟩, after⟩
  · rw [hcheck] at hevents
    rw [Exec.bind_of_error hcheck]
    refine iff_of_false (fun hmem ↦ ?_) fun hok ↦ ?_
    · rw [show after = [] ++ events from hevents] at hmem
      exact hnot _ hmem rfl
    · obtain ⟨_, heq⟩ := hok
      cases (Prod.mk.inj heq).1
  · refine iff_of_true ?_ ⟨after, rfl⟩
    have htime : 0 < timeoutSeconds := (checkSnapshot_iff.mp ⟨after, hcheck⟩).1.timeout
    have hrun :
        (runTar host timeoutSeconds (extractCommand root) "build.snapshot.extract" after).2 =
          after ++ [extractCommand root] := by
      rw [runTar, if_neg (by omega)]
      rfl
    rw [Exec.bind_of_ok hcheck, started_bind, extractArchive, started_bind, hrun]
    exact List.mem_append_right _ (List.mem_singleton_self _)

end Extraction

/-! ## Lines of a listing -/

section Lines

variable {line : TarEntry → List UInt8} {before after : List TarEntry} {entry : TarEntry}
  {octets : List UInt8} {limit : ℕ}

theorem listing_append (line : TarEntry → List UInt8) (before after : List TarEntry) :
    listing line (before ++ after) = listing line before ++ listing line after :=
  List.flatMap_append ..

theorem listing_cons (line : TarEntry → List UInt8) (entry : TarEntry) (after : List TarEntry) :
    listing line (entry :: after) = line entry ++ 0x0A :: listing line after := by
  rw [listing, List.flatMap_cons, List.append_assoc]
  rfl

theorem decode_no_break (h : 0x0A ∉ octets ∧ 0x0D ∉ octets) :
    ∀ ch ∈ Utf8.decode octets, ch ≠ '\n' ∧ ch ≠ '\r' := by
  have hfeed : '\n' ∉ Utf8.decode octets := @Utf8.not_mem_decode 0x0A octets (by decide) h.1
  have hreturn : '\r' ∉ Utf8.decode octets := @Utf8.not_mem_decode 0x0D octets (by decide) h.2
  exact fun ch hch ↦ ⟨fun heq ↦ hfeed (heq ▸ hch), fun heq ↦ hreturn (heq ▸ hch)⟩

theorem lines_listing (hline : ∀ entry, 0x0A ∉ line entry ∧ 0x0D ∉ line entry)
    (before : List TarEntry) (octets : List UInt8) :
    JavaText.lines (Utf8.decode (listing line before ++ octets)) =
      (before.map fun entry ↦ Utf8.decode (line entry)) ++
        JavaText.lines (Utf8.decode octets) := by
  induction before with
  | nil => rfl
  | cons entry before ih =>
    have hfirst : Utf8.decode (listing line (entry :: before) ++ octets) =
        Utf8.decode (line entry) ++ '\n' :: Utf8.decode (listing line before ++ octets) := by
      rw [listing_cons, List.append_assoc, List.cons_append]
      exact @Utf8.decode_ascii 0x0A (by decide) (line entry) (listing line before ++ octets)
    rw [hfirst, JavaText.lines, JavaText.linesFrom_break (decode_no_break (hline entry)),
      List.map_cons, List.cons_append, ← ih]
    rfl

/-- The first octets of the listing, from where the line of an entry starts. -/
theorem take_listing (h : (listing line before).length ≤ limit) (entry : TarEntry)
    (after : List TarEntry) :
    (listing line (before ++ entry :: after)).take limit = listing line before ++
      (line entry ++ 0x0A :: listing line after).take (limit - (listing line before).length) := by
  rw [listing_append, listing_cons, List.take_append, List.take_of_length_le h]

/-- **A line within the limit is shown whole.** -/
theorem mem_lines_of_shown (hline : ∀ entry, 0x0A ∉ line entry ∧ 0x0D ∉ line entry)
    (hlength : (listing line before).length + (line entry).length ≤ limit)
    (hsome : line entry ≠ []) (after : List TarEntry) :
    Utf8.decode (line entry) ∈ JavaText.lines
      (Utf8.decode ((listing line (before ++ entry :: after)).take limit)) := by
  rw [take_listing (by omega), lines_listing hline]
  refine List.mem_append_right _ ?_
  rw [List.take_append, List.take_of_length_le (by omega)]
  generalize hrest : limit - (listing line before).length - (line entry).length = rest
  have hnobreak := decode_no_break (hline entry)
  rcases rest with _ | rest
  · -- the captured text ends with the line
    have hne : Utf8.decode (line entry) ≠ [] := fun hnil ↦
      hsome ((@Utf8.decode_eq_iff (line entry) [] (by simp)).mp hnil)
    rw [List.take_zero, List.append_nil, JavaText.lines,
      JavaText.linesFrom_of_no_break hnobreak (by rwa [List.nil_append])]
    exact List.mem_singleton_self _
  · have hbreak : Utf8.decode (line entry ++ 0x0A :: (listing line after).take rest) =
        Utf8.decode (line entry) ++ '\n' :: Utf8.decode ((listing line after).take rest) :=
      @Utf8.decode_ascii 0x0A (by decide) _ _
    rw [List.take_succ_cons, hbreak, JavaText.lines, JavaText.linesFrom_break hnobreak]
    exact List.mem_cons_self

/-- A line that starts within the limit is shown from its first letter. -/
theorem exists_line_of_started (hline : ∀ entry, 0x0A ∉ line entry ∧ 0x0D ∉ line entry)
    (hlength : (listing line before).length < limit) {letter : UInt8} {rest : List UInt8}
    (hstart : line entry = letter :: rest) (hascii : letter.toNat < 128) (after : List TarEntry) :
    ∃ shown, Char.ofNat letter.toNat :: shown ∈ JavaText.lines
      (Utf8.decode ((listing line (before ++ entry :: after)).take limit)) := by
  obtain ⟨n, hn⟩ : ∃ n, limit - (listing line before).length = n + 1 :=
    ⟨limit - (listing line before).length - 1, by omega⟩
  rw [take_listing hlength.le, lines_listing hline, hn, hstart, List.cons_append,
    List.take_succ_cons]
  have hfirst : Utf8.decode (letter :: (rest ++ 0x0A :: listing line after).take n) =
      Char.ofNat letter.toNat :: Utf8.decode ((rest ++ 0x0A :: listing line after).take n) :=
    Utf8.decode_ascii hascii [] _
  have hletter : letter ≠ 0x0A ∧ letter ≠ 0x0D := by
    obtain ⟨hfeed, hreturn⟩ := hline entry
    rw [hstart] at hfeed hreturn
    exact ⟨fun h ↦ hfeed (h ▸ List.mem_cons_self), fun h ↦ hreturn (h ▸ List.mem_cons_self)⟩
  have hnobreak : Char.ofNat letter.toNat ≠ '\n' ∧ Char.ofNat letter.toNat ≠ '\r' := by
    constructor
    · intro h
      have hcode := congrArg Char.toNat h
      rw [Utf8.toNat_ofOctet] at hcode
      exact hletter.1 (UInt8.toNat_inj.mp hcode)
    · intro h
      have hcode := congrArg Char.toNat h
      rw [Utf8.toNat_ofOctet] at hcode
      exact hletter.2 (UInt8.toNat_inj.mp hcode)
  rw [hfirst, JavaText.lines, JavaText.linesFrom_cons hnobreak.1 hnobreak.2]
  obtain ⟨shown, hshown⟩ := @JavaText.exists_mem_linesFrom
    ([] ++ [Char.ofNat letter.toNat]) (by simp)
    (Utf8.decode ((rest ++ 0x0A :: listing line after).take n))
  exact ⟨shown, List.mem_append_right _ hshown⟩

end Lines

/-! ## What a line that passes says -/

section Entries

variable {rawEntry rawLine octets : List UInt8} {text : List Char}

theorem segments_decode (octets : List UInt8) :
    Paths.segments '/' (Utf8.decode octets) = (Paths.segments 0x2F octets).map Utf8.decode := by
  have hsplit : (Utf8.decode octets).splitOn '/' = (octets.splitOn 0x2F).map Utf8.decode :=
    @Utf8.splitOn_decode 0x2F (by decide) octets
  have hnil : ∀ part : List UInt8, Utf8.decode part = [] ↔ part = [] := fun part ↦
    @Utf8.decode_eq_iff part [] (by simp)
  rw [Paths.segments, hsplit, List.filter_map, Paths.segments]
  congr 1
  refine List.filter_congr fun part _ ↦ ?_
  simp [hnil]

theorem depth_decode (octets : List UInt8) :
    Paths.depth ['.'] ['.', '.'] 0 (Paths.segments '/' (Utf8.decode octets)) =
      Paths.depth [0x2E] [0x2E, 0x2E] 0 (Paths.segments 0x2F octets) := by
  rw [segments_decode]
  have hdot : ∀ octet ∈ ([0x2E] : List UInt8), octet.toNat < 128 :=
    List.forall_mem_singleton.mpr (by decide)
  have hparent : ∀ octet ∈ ([0x2E, 0x2E] : List UInt8), octet.toNat < 128 :=
    List.forall_mem_cons.mpr ⟨by decide, hdot⟩
  exact Paths.depth_map (fun _ ↦ Utf8.decode_eq_iff hdot)
    (fun _ ↦ Utf8.decode_eq_iff hparent) 0 _

theorem head?_decode (h : octets.head? = some 0x2F) :
    (Utf8.decode octets).head? = some '/' := by
  obtain ⟨rest, rfl⟩ := List.head?_eq_some_iff.mp h
  have hfirst : Utf8.decode (0x2F :: rest) = '/' :: Utf8.decode rest :=
    @Utf8.decode_ascii 0x2F (by decide) [] rest
  rw [hfirst]
  rfl

theorem not_separator {cs : List Char} (h : ∀ ch ∈ cs, ch.toNat ≤ 32) :
    '/' ∉ cs ∧ ∀ ch ∈ cs, ch ∉ ['.'] ∧ ch ∉ ['.', '.'] := by
  refine ⟨fun hmem ↦ absurd (h '/' hmem) (by decide), fun ch hch ↦ ?_⟩
  have hdot : ch ≠ '.' := fun heq ↦ absurd (h ch hch) (by rw [heq]; decide)
  simp [hdot]

/-- **A line that passes** and holds no backslash is a path that stays below its start. Trimming it
can only have made the check stricter. -/
theorem validateArchiveEntry_inside (h : validateArchiveEntry text = .ok ())
    (hslash : '\\' ∉ text) :
    text.head? ≠ some '/' ∧
      ∃ d, Paths.depth ['.'] ['.', '.'] 0 (Paths.segments '/' text) = some d := by
  obtain ⟨lead, trail, hsplit, hlead, htrail⟩ := JavaText.trim_spec text
  have hmem : ∀ ch ∈ JavaText.trim text, ch ∈ text := fun ch hch ↦ by
    rw [hsplit]
    exact List.mem_append_right _ (List.mem_append_left _ hch)
  have hunix : unixEntry text = JavaText.trim text := by
    refine (List.map_congr_left fun ch hch ↦ ?_).trans (List.map_id _)
    have hother : ch ≠ '\\' := fun heq ↦ hslash (heq ▸ hmem ch hch)
    exact if_neg hother
  have hne : (['.', '.'] : List Char) ≠ ['.'] := by decide
  rw [validateArchiveEntry, hunix] at h
  dsimp only at h
  split at h
  · -- only white space: there is no separator and no dot anywhere
    rename_i hblank
    have hmarks : ∀ ch ∈ text, ch ≠ '/' ∧ ch ≠ '.' := by
      intro ch hch
      rw [hsplit, List.mem_append, List.mem_append] at hch
      rcases hch with hch | hch | hch
      · exact ⟨fun heq ↦ absurd (hlead ch hch) (by rw [heq]; decide),
          fun heq ↦ absurd (hlead ch hch) (by rw [heq]; decide)⟩
      · have hwhite := List.all_eq_true.mp hblank ch hch
        exact ⟨fun heq ↦ absurd hwhite (by rw [heq]; decide),
          fun heq ↦ absurd hwhite (by rw [heq]; decide)⟩
      · exact ⟨fun heq ↦ absurd (htrail ch hch) (by rw [heq]; decide),
          fun heq ↦ absurd (htrail ch hch) (by rw [heq]; decide)⟩
    refine ⟨fun hhead ↦ (hmarks '/' (List.mem_of_mem_head? hhead)).1 rfl, ?_⟩
    exact @Paths.depth_segments_append _ _ '/' [] text _ _ hne (fun hin ↦ (hmarks '/' hin).1 rfl)
      (fun ch hch ↦ by simp [(hmarks ch hch).2]) 0 0 rfl
  · rcases hpath : Path.of (JavaText.trim text) with _ | path
    · rw [hpath] at h
      cases h
    · rw [hpath] at h
      dsimp only at h
      split at h
      · cases h
      rename_i hrefused
      simp only [Bool.or_eq_true, not_or, Bool.not_eq_true, decide_eq_true_eq] at hrefused
      obtain ⟨⟨⟨hrelative, hhead⟩, -⟩, hstart⟩ := hrefused
      rw [Path.normalize_isAbsolute] at hrelative
      have hdepth : path.depth ≠ none := fun hnone ↦ by
        rw [(Path.startsWith_parent_normalize hrelative).mpr hnone] at hstart
        cases hstart
      rw [(Path.depth_of hpath).2] at hdepth
      obtain ⟨d, hd⟩ := Option.ne_none_iff_exists'.mp hdepth
      obtain ⟨htrailSep, htrailMark⟩ := not_separator htrail
      obtain ⟨hleadSep, hleadMark⟩ := not_separator hlead
      obtain ⟨e, he⟩ := Paths.depth_segments_append hne htrailSep htrailMark hd
      obtain ⟨f, hf⟩ := Paths.depth_segments_prepend hne hleadSep hleadMark he
      rw [← hsplit] at hf
      refine ⟨fun hslashed ↦ ?_, f, hf⟩
      rw [hsplit] at hslashed
      rcases lead with _ | ⟨first, lead⟩
      · rcases htrim : JavaText.trim text with _ | ⟨first, rest⟩
        · rw [htrim, List.nil_append, List.nil_append] at hslashed
          exact htrailSep (List.mem_of_mem_head? hslashed)
        · rw [htrim] at hslashed hhead
          exact hhead hslashed
      · exact hleadSep (List.mem_of_mem_head? hslashed)

/-- A line of the long listing that passes starts with the letter of a file or a directory. -/
theorem validateArchiveEntryType_ok {ch : Char} {rest : List Char} (hblank : 32 < ch.toNat)
    (hwhite : JavaText.isWhitespace ch = false)
    (h : validateArchiveEntryType (ch :: rest) = .ok ()) : ch = '-' ∨ ch = 'd' := by
  have hhead := @JavaText.head?_trim_cons ch rest hblank
  obtain ⟨tail, htail⟩ := List.head?_eq_some_iff.mp hhead
  rw [validateArchiveEntryType, htail] at h
  dsimp only at h
  rw [if_neg (by simp [hwhite]), List.headD_cons] at h
  by_contra hother
  rw [not_or] at hother
  rw [if_pos hother] at h
  cases h

end Entries

/-! ## What is extracted

The names of files are octets, and so are the names of the directory that `tar` extracts into. -/

/-- The octets of a name. -/
def nameOctets (name : String) : List UInt8 := name.toUTF8.data.toList

/-- The directory that the archive is extracted into. -/
def targetNames (root : Directory) : List (List UInt8) :=
  (sourceRoot root).names.map nameOctets

end BuildSourceSnapshotPreparer

open BuildSourceSnapshotPreparer

/-- The normal form of the path of an entry, from the root of the file system. -/
def TarEntry.normalizedPath (target : List (List UInt8)) (entry : TarEntry) :
    List (List UInt8) :=
  Paths.normalize [0x2E] [0x2E, 0x2E] true
    (if entry.name.head? = some 0x2F then Paths.segments 0x2F entry.name
      else target ++ Paths.segments 0x2F entry.name)

/-- The path of the entry stays inside the target directory. -/
def TarEntry.Inside (target : List (List UInt8)) (entry : TarEntry) : Prop :=
  target <+: entry.normalizedPath target

instance (target : List (List UInt8)) (entry : TarEntry) : Decidable (entry.Inside target) :=
  inferInstanceAs (Decidable (_ <+: _))

/-- The entry is a regular file or a directory. -/
def TarEntry.Plain (entry : TarEntry) : Prop :=
  entry.type = .regular ∨ entry.type = .directory

namespace BuildSourceSnapshotPreparer

/-- The listing does not show the name of the entry after `before`: its line does not end within
what is captured, or the printed name is escaped. -/
def HiddenName (tar : TarListing) (before : List TarEntry) (entry : TarEntry) : Prop :=
  ProcessExecutionRequest.DEFAULT_MAX_OUTPUT_BYTES_PER_STREAM <
      (listing tar.nameLine before).length + (tar.nameLine entry).length ∨
    0x5C ∈ tar.nameLine entry

/-- The listing does not show the type of the entry after `before`. -/
def HiddenType (tar : TarListing) (before : List TarEntry) : Prop :=
  ProcessExecutionRequest.DEFAULT_MAX_OUTPUT_BYTES_PER_STREAM ≤
    (listing tar.typeLine before).length

section Coverage

variable {tar : TarListing} {archive before after : List TarEntry} {root : Directory}
  {entry : TarEntry}

theorem nameOctets_injective : Function.Injective nameOctets := by
  intro a b h
  refine String.toByteArray_inj.mp ?_
  have hdata : a.toUTF8.data = b.toUTF8.data := Array.toList_inj.mp h
  exact ByteArray.ext hdata

theorem targetNames_plain (root : Directory) :
    Paths.Plain [0x2E] [0x2E, 0x2E] (targetNames root) := by
  intro octets hoctets
  obtain ⟨name, hname, rfl⟩ := List.mem_map.mp hoctets
  obtain ⟨hdot, hparent⟩ := (sourceRoot root).plain name hname
  have hdotOctets : nameOctets "." = [0x2E] := by decide
  have hparentOctets : nameOctets ".." = [0x2E, 0x2E] := by decide
  rw [← hparentOctets, ← hdotOctets]
  exact ⟨fun h ↦ hdot (nameOctets_injective h), fun h ↦ hparent (nameOctets_injective h)⟩

/-- A path that stays below its start stays inside the directory it is resolved against. -/
theorem inside_of_depth {d : ℕ} (hrelative : entry.name.head? ≠ some 0x2F)
    (h : Paths.depth [0x2E] [0x2E, 0x2E] 0 (Paths.segments 0x2F entry.name) = some d)
    (root : Directory) : entry.Inside (targetNames root) := by
  obtain ⟨-, -, hbase⟩ := Paths.normalize_of_depth (by decide) h
  rw [TarEntry.Inside, TarEntry.normalizedPath, if_neg hrelative,
    hbase _ (targetNames_plain root)]
  exact List.prefix_append _ _

/-- **A name that is shown** has been checked. -/
theorem inside_of_shown (hrefused : ¬Refused tar archive)
    (harchive : archive = before ++ entry :: after)
    (hshown : ¬HiddenName tar before entry) : entry.Inside (targetNames root) := by
  rw [HiddenName, not_or, Nat.not_lt] at hshown
  obtain ⟨hlength, hslash⟩ := hshown
  have hname := tar.verbatim entry hslash
  by_cases hempty : tar.nameLine entry = []
  · rw [hname] at hempty
    refine inside_of_depth (by simp [hempty]) (d := 0) ?_ root
    rw [hempty]
    rfl
  · have hmem := mem_lines_of_shown tar.nameLine_line hlength hempty after
    rw [← harchive] at hmem
    rw [Refused, not_or, not_or, not_exists] at hrefused
    have hok : validateArchiveEntry (Utf8.decode (tar.nameLine entry)) = .ok () := by
      by_contra hbad
      exact hrefused.2.1 _ ⟨hmem, hbad⟩
    have hbackslash : '\\' ∉ Utf8.decode (tar.nameLine entry) :=
      @Utf8.not_mem_decode 0x5C _ (by decide) hslash
    obtain ⟨hhead, d, hd⟩ := validateArchiveEntry_inside hok hbackslash
    rw [depth_decode, hname] at hd
    rw [hname] at hhead
    exact inside_of_depth (fun habsolute ↦ hhead (head?_decode habsolute)) hd root

/-- **A type that is shown** has been checked. -/
theorem plain_of_shown (hrefused : ¬Refused tar archive)
    (harchive : archive = before ++ entry :: after)
    (hshown : ¬HiddenType tar before) : entry.Plain := by
  rw [HiddenType, Nat.not_le] at hshown
  have hletter : entry.type.letter.toNat < 128 ∧ 32 < entry.type.letter.toNat ∧
      entry.type.letter ≠ 0x0A ∧ entry.type.letter ≠ 0x0D ∧
      JavaText.isWhitespace (Char.ofNat entry.type.letter.toNat) = false ∧
      (Char.ofNat entry.type.letter.toNat = '-' ∨ Char.ofNat entry.type.letter.toNat = 'd' →
        entry.Plain) := by
    rw [TarEntry.Plain]
    cases entry.type <;> decide
  obtain ⟨hascii, hblank, hfeed, hreturn, hwhite, hplain⟩ := hletter
  have hline : ∀ other, 0x0A ∉ tar.typeLine other ∧ 0x0D ∉ tar.typeLine other := by
    intro other
    have hother : other.type.letter ≠ 0x0A ∧ other.type.letter ≠ 0x0D := by
      cases other.type <;> decide
    obtain ⟨hdetails, hdetails'⟩ := tar.details_line other
    exact ⟨fun h ↦ (List.mem_cons.mp h).elim (fun heq ↦ hother.1 heq.symm) hdetails,
      fun h ↦ (List.mem_cons.mp h).elim (fun heq ↦ hother.2 heq.symm) hdetails'⟩
  obtain ⟨shown, hmem⟩ := exists_line_of_started hline hshown
    (show tar.typeLine entry = _ :: _ from rfl) hascii after
  rw [← harchive] at hmem
  rw [Refused, not_or, not_or] at hrefused
  have hok : validateArchiveEntryType (Char.ofNat entry.type.letter.toNat :: shown) = .ok () := by
    by_contra hbad
    exact hrefused.2.2 ⟨_, hmem, hbad⟩
  exact hplain (validateArchiveEntryType_ok (by rwa [Utf8.toNat_ofOctet]) hwhite hok)

/-- **Validation covers what is extracted** exactly when everything that the captured listings do
not show is fit to be extracted, unless the archive is not extracted at all: because something
before fails, or because something of what has been captured is refused. -/
theorem extractsOnlyInside_iff (tar : TarListing) (archive : List TarEntry) (root : Directory)
    (host : SnapshotHost tar archive root) (timeoutSeconds : ℤ) :
    (Extracts host timeoutSeconds →
        ∀ entry ∈ archive, entry.Plain ∧ entry.Inside (targetNames root)) ↔
      (Readable host timeoutSeconds → ¬Refused tar archive →
        ∀ before entry after, archive = before ++ entry :: after →
          (HiddenType tar before → entry.Plain) ∧
          (HiddenName tar before entry → entry.Inside (targetNames root))) := by
  rw [extracts_iff]
  constructor
  · intro h hreadable hrefused before entry after harchive
    obtain ⟨hplain, hinside⟩ := h ⟨hreadable, hrefused⟩ entry (by rw [harchive]; simp)
    exact ⟨fun _ ↦ hplain, fun _ ↦ hinside⟩
  · rintro h ⟨hreadable, hrefused⟩ entry hentry
    obtain ⟨before, after, harchive⟩ := List.append_of_mem hentry
    obtain ⟨hplain, hinside⟩ := h hreadable hrefused before entry after harchive
    refine ⟨?_, ?_⟩
    · by_cases hhidden : HiddenType tar before
      · exact hplain hhidden
      · exact plain_of_shown hrefused harchive hhidden
    · by_cases hhidden : HiddenName tar before entry
      · exact hinside hhidden
      · exact inside_of_shown hrefused harchive hhidden

end Coverage

/-! ### Archives that are extracted unchecked

The checks read the text that `tar` prints, and only the part of it that is captured. An archive
with a name as long as the limit hides all that follows, and a `tar` that escapes backslashes
prints the name `a\b/../../x` with a component that the check takes for two plain ones. -/

/-- On some host everything succeeds. -/
theorem exists_readable (tar : TarListing) (archive : List TarEntry) (root : Directory) :
    ∃ host : SnapshotHost tar archive root, Readable host 60 := by
  obtain ⟨names, hnames, hnamesExit, hnamesEnd⟩ := @exists_runnerResult .defaults (fun _ ↦ rfl)
    fun stream ↦ if stream = .stdout then listing tar.nameLine archive else []
  obtain ⟨types, htypes, htypesExit, htypesEnd⟩ := @exists_runnerResult .defaults (fun _ ↦ rfl)
    fun stream ↦ if stream = .stdout then listing tar.typeLine archive else []
  have hne : listTypesCommand root ≠ listNamesCommand root := by
    simp [listTypesCommand, listNamesCommand]
  let run : List String → Except String ProcessExecutionResult := fun command ↦
    if command = listNamesCommand root then .ok names else .ok types
  have hrunNames : run (listNamesCommand root) = .ok names := if_pos rfl
  have hrunTypes : run (listTypesCommand root) = .ok types := if_neg hne
  refine ⟨⟨.ok (), .ok (), run, .ok [], ?_, ?_⟩, by decide, rfl, rfl,
    ⟨names, hrunNames, hnamesEnd, hnamesExit⟩, ⟨types, hrunTypes, htypesEnd, htypesExit⟩⟩
  · intro result hresult _ _
    rw [hrunNames] at hresult
    obtain rfl := Except.ok.inj hresult
    exact ⟨_, if_pos rfl, hnames⟩
  · intro result hresult _ _
    rw [hrunTypes] at hresult
    obtain rfl := Except.ok.inj hresult
    exact ⟨_, if_pos rfl, htypes⟩

/-- Line breaks and backslashes are escaped with a backslash. -/
def escapeOctet (octet : UInt8) : List UInt8 :=
  if octet = 0x0A then [0x5C, 0x6E]
  else if octet = 0x0D then [0x5C, 0x72]
  else if octet = 0x5C then [0x5C, 0x5C]
  else [octet]

theorem escapeOctet_of_ne {octet : UInt8} (hfeed : octet ≠ 0x0A) (hreturn : octet ≠ 0x0D)
    (hslash : octet ≠ 0x5C) : escapeOctet octet = [octet] := by
  rw [escapeOctet, if_neg hfeed, if_neg hreturn, if_neg hslash]

theorem flatMap_escapeOctet {octets : List UInt8}
    (h : ∀ octet ∈ octets, escapeOctet octet = [octet]) :
    octets.flatMap escapeOctet = octets := by
  induction octets with
  | nil => rfl
  | cons octet octets ih =>
    rw [List.flatMap_cons, h octet List.mem_cons_self,
      ih fun other hother ↦ h other (List.mem_cons_of_mem _ hother)]
    rfl

theorem escaped_line (octets : List UInt8) :
    0x0A ∉ octets.flatMap escapeOctet ∧ 0x0D ∉ octets.flatMap escapeOctet := by
  have houtput : ∀ octet, 0x0A ∉ escapeOctet octet ∧ 0x0D ∉ escapeOctet octet := by
    intro octet
    rw [escapeOctet]
    split
    · decide
    split
    · decide
    split
    · decide
    · rename_i hfeed hreturn _
      exact ⟨fun h ↦ hfeed (List.mem_singleton.mp h).symm,
        fun h ↦ hreturn (List.mem_singleton.mp h).symm⟩
  constructor
  · intro h
    obtain ⟨octet, -, hoctet⟩ := List.mem_flatMap.mp h
    exact (houtput octet).1 hoctet
  · intro h
    obtain ⟨octet, -, hoctet⟩ := List.mem_flatMap.mp h
    exact (houtput octet).2 hoctet

/-- A `tar` that escapes names, and prints nothing but the name after the letter. -/
def escapingTar : TarListing where
  nameLine entry := entry.name.flatMap escapeOctet
  details entry := entry.name.flatMap escapeOctet
  nameLine_line entry := escaped_line entry.name
  details_line entry := escaped_line entry.name
  verbatim := by
    refine fun entry h ↦ flatMap_escapeOctet fun octet hoctet ↦ ?_
    have hout : 0x5C ∉ escapeOctet octet := fun hin ↦ h (List.mem_flatMap.mpr ⟨octet, hoctet, hin⟩)
    rw [escapeOctet] at hout
    split at hout
    · exact absurd hout (by decide)
    split at hout
    · exact absurd hout (by decide)
    split at hout
    · exact absurd hout (by decide)
    · rename_i hfeed hreturn hslash
      exact escapeOctet_of_ne hfeed hreturn hslash

def smallWorkspace : Directory := ⟨["ws"], by decide⟩

/-- A name that fills what is captured, and after it a symbolic link above the target. -/
def longArchive : List TarEntry :=
  [⟨List.replicate ProcessExecutionRequest.DEFAULT_MAX_OUTPUT_BYTES_PER_STREAM 0x61, .regular⟩,
    ⟨[0x2E, 0x2E, 0x2F, 0x78], .symbolicLink⟩]

/-- A regular file with the name `a\b/../../x`. -/
def escapedArchive : List TarEntry :=
  [⟨[0x61, 0x5C, 0x62, 0x2F, 0x2E, 0x2E, 0x2F, 0x2E, 0x2E, 0x2F, 0x78], .regular⟩]

theorem validateArchiveEntry_letters (n : ℕ) :
    validateArchiveEntry (List.replicate (n + 1) 'a') = .ok () := by
  have hletters : ∀ ch ∈ List.replicate (n + 1) 'a', ch = 'a' := fun ch h ↦
    List.eq_of_mem_replicate h
  generalize htext : List.replicate (n + 1) 'a' = text at hletters ⊢
  have hmem : 'a' ∈ text := by
    rw [← htext]
    exact List.mem_cons_self
  have htrim : JavaText.trim text = text := JavaText.trim_eq_self fun ch hch ↦ by
    rw [hletters ch hch]
    decide
  have hunix : unixEntry text = text := by
    rw [unixEntry, htrim]
    refine (List.map_congr_left fun ch hch ↦ ?_).trans (List.map_id _)
    rw [hletters ch hch]
    rfl
  have hslash : '/' ∉ text := fun h ↦ absurd (hletters '/' h) (by decide)
  have hnull : '\x00' ∉ text := fun h ↦ absurd (hletters '\x00' h) (by decide)
  have hhead : text.head? ≠ some '/' := fun h ↦ hslash (List.mem_of_mem_head? h)
  have hpath : Path.of text = some ⟨false, [.ofList text]⟩ := by
    rw [Path.of, if_neg hnull, Paths.segments_of_not_mem hslash,
      if_neg (List.ne_nil_of_mem hmem), decide_eq_false hhead]
    rfl
  have hdots : text ≠ ['.'] ∧ text ≠ ['.', '.'] := by
    constructor
    · rintro rfl
      exact absurd hmem (by decide)
    · rintro rfl
      exact absurd hmem (by decide)
  have hnormal : (Path.mk false [.ofList text]).normalize = ⟨false, [.ofList text]⟩ := by
    refine congrArg (Path.mk false) ?_
    refine (Path.normalize_names ⟨false, [.ofList text]⟩).trans
      (Paths.normalize_plain (Paths.plain_singleton ?_ ?_))
    · exact fun h ↦ hdots.1 (String.ofList_inj.mp h)
    · exact fun h ↦ hdots.2 (String.ofList_inj.mp h)
  have hwhite : text.all JavaText.isWhitespace = false :=
    List.all_eq_false.mpr ⟨'a', hmem, by decide⟩
  have hname : ".." ≠ String.ofList text := fun h ↦ hdots.2 (String.ofList_inj.mp h.symm)
  have htextNe : (Path.mk false [.ofList text]).text ≠ ['.', '.'] := by
    simpa [Path.text] using hdots.2
  rw [validateArchiveEntry, hunix]
  dsimp only
  rw [hwhite, hpath]
  dsimp only
  rw [hnormal]
  rw [if_neg (by simp), if_neg]
  simp [hhead, htextNe, Path.startsWith, List.isPrefixOf, hname]

theorem validateArchiveEntryType_regular (rest : List Char) :
    validateArchiveEntryType ('-' :: rest) = .ok () := by
  obtain ⟨tail, htail⟩ := List.head?_eq_some_iff.mp
    (@JavaText.head?_trim_cons '-' rest (by decide))
  rw [validateArchiveEntryType, htail]
  dsimp only
  rw [if_neg (by simp [show JavaText.isWhitespace '-' = false by decide]), List.headD_cons,
    if_neg (by decide)]

theorem lines_of_no_break {text : List Char} (h : ∀ ch ∈ text, ch ≠ '\n' ∧ ch ≠ '\r')
    (hsome : text ≠ []) : JavaText.lines text = [text] :=
  JavaText.linesFrom_of_no_break h (by rwa [List.nil_append])

theorem decode_letters (n : ℕ) :
    Utf8.decode (List.replicate n 0x61) = List.replicate n 'a' := by
  rw [Utf8.decode_eq_map (fun octet h ↦ by rw [List.eq_of_mem_replicate h]; decide),
    List.map_replicate]
  rfl

theorem not_refused_longArchive : ¬Refused escapingTar longArchive := by
  obtain ⟨n, hn⟩ : ∃ n, ProcessExecutionRequest.DEFAULT_MAX_OUTPUT_BYTES_PER_STREAM = n + 1 :=
    ⟨1048575, rfl⟩
  have hescape : (List.replicate (n + 1) (0x61 : UInt8)).flatMap escapeOctet =
      List.replicate (n + 1) 0x61 :=
    flatMap_escapeOctet fun octet h ↦ by rw [List.eq_of_mem_replicate h]; decide
  have hnames : capturedText escapingTar.nameLine longArchive = List.replicate (n + 1) 'a' := by
    rw [capturedText, longArchive, listing_cons, hn]
    dsimp only [escapingTar]
    rw [hescape, List.take_left' List.length_replicate, decode_letters]
  have htypes : capturedText escapingTar.typeLine longArchive = '-' :: List.replicate n 'a' := by
    rw [capturedText, longArchive, listing_cons, hn]
    dsimp only [escapingTar, TarListing.typeLine, TarEntryType.letter]
    rw [hescape, List.cons_append, List.take_succ_cons, List.replicate_succ', List.append_assoc,
      List.take_left' List.length_replicate, ← decode_letters]
    exact @Utf8.decode_ascii 0x2D (by decide) [] _
  have hletter : ∀ k, ∀ ch ∈ List.replicate k 'a', ch ≠ '\n' ∧ ch ≠ '\r' := fun k ch h ↦ by
    rw [List.eq_of_mem_replicate h]
    decide
  rw [Refused, hnames, htypes, lines_of_no_break (hletter (n + 1)) (by simp),
    lines_of_no_break (List.forall_mem_cons.mpr ⟨by decide, hletter n⟩) (by simp)]
  rintro (h | ⟨line, hline, h⟩ | ⟨line, hline, h⟩)
  · have hfirst := List.all_eq_true.mp h 'a' (by simp)
    exact absurd hfirst (by decide)
  · rw [List.mem_singleton.mp hline] at h
    exact h (validateArchiveEntry_letters n)
  · rw [List.mem_singleton.mp hline] at h
    exact h (validateArchiveEntryType_regular _)

theorem not_refused_escapedArchive : ¬Refused escapingTar escapedArchive := by
  have hnames : capturedText escapingTar.nameLine escapedArchive = "a\\\\b/../../x\n".toList := by
    decide +kernel
  have htypes : capturedText escapingTar.typeLine escapedArchive = "-a\\\\b/../../x\n".toList := by
    decide +kernel
  rw [Refused, hnames, htypes]
  rintro (h | ⟨line, hline, h⟩ | ⟨line, hline, h⟩)
  · exact absurd h (by decide)
  · have hlines : JavaText.lines "a\\\\b/../../x\n".toList = ["a\\\\b/../../x".toList] := by decide
    rw [hlines, List.mem_singleton] at hline
    rw [hline] at h
    exact h (by decide)
  · have hlines : JavaText.lines "-a\\\\b/../../x\n".toList = ["-a\\\\b/../../x".toList] := by
      decide
    rw [hlines, List.mem_singleton] at hline
    rw [hline] at h
    exact h (by decide)

/-- **Unchecked entries are extracted.** One archive has a symbolic link beyond the captured part of
its listings; the other has a regular file whose name, as it is printed, seems to stay inside. -/
theorem extracts_unchecked :
    (∃ host : SnapshotHost escapingTar longArchive smallWorkspace, Extracts host 60 ∧
      ∃ entry ∈ longArchive, ¬entry.Plain ∧ ¬entry.Inside (targetNames smallWorkspace)) ∧
    ∃ host : SnapshotHost escapingTar escapedArchive smallWorkspace, Extracts host 60 ∧
      ∃ entry ∈ escapedArchive, ¬entry.Inside (targetNames smallWorkspace) := by
  have hlink : ¬TarEntry.Plain ⟨[0x2E, 0x2E, 0x2F, 0x78], .symbolicLink⟩ ∧
      ¬TarEntry.Inside (targetNames smallWorkspace) ⟨[0x2E, 0x2E, 0x2F, 0x78], .symbolicLink⟩ := by
    constructor
    · rintro (h | h) <;> cases h
    · decide +kernel
  have hescaped : ¬TarEntry.Inside (targetNames smallWorkspace)
      ⟨[0x61, 0x5C, 0x62, 0x2F, 0x2E, 0x2E, 0x2F, 0x2E, 0x2E, 0x2F, 0x78], .regular⟩ := by
    decide +kernel
  constructor
  · obtain ⟨host, hreadable⟩ := exists_readable escapingTar longArchive smallWorkspace
    exact ⟨host, extracts_iff.mpr ⟨hreadable, not_refused_longArchive⟩, _,
      List.mem_cons_of_mem _ (List.mem_singleton_self _), hlink⟩
  · obtain ⟨host, hreadable⟩ := exists_readable escapingTar escapedArchive smallWorkspace
    exact ⟨host, extracts_iff.mpr ⟨hreadable, not_refused_escapedArchive⟩, _,
      List.mem_singleton_self _, hescaped⟩

end BuildSourceSnapshotPreparer

end FuzzingCiCd.Executor
