import FuzzingCiCd.Executor.JobHandler
import FuzzingCiCd.Executor.ProcessOutput
import FuzzingCiCd.Executor.ScriptWorkspacePreparer
import FuzzingCiCd.Executor.SshBashDeployment
import FuzzingCiCd.Foundation.Transcripts

/-!
# A deployment, process by process

`SshBashDeploymentRunner.deploy` as a program that asks its surroundings: the clock, the storage,
the file system and the process runner. Nothing is assumed about what they answer.

The processes of a deployment carry out a plan: the backup, the copy, the configured commands and
the health check, of which the parameters may leave out some. In every run the processes that are
started are a front of the plan, none is started after one that failed, and the deployment succeeds
exactly when all of the plan was carried out (`deploy_launches`).

Every process gets the time that is left for the job, read off the clock right before it is started
(`timeout_of_launch`). The clock is a 64-bit counter with an arbitrary origin and may overflow.
-/

namespace FuzzingCiCd.Executor.SshBashDeploymentRunner

open Contracts Program Steps

/-! ## Requests -/

inductive Request
  /-- `System.nanoTime()` -/
  | nanoTime
  | download (uri : List Char) (targetPath : Path)
  /-- `Files.size` -/
  | size (path : Path)
  /-- `StorageChecksums.sha256` -/
  | sha256 (path : Path)
  /-- `processRunner.run`, with a timeout in nanoseconds -/
  | run (command : List String) (timeout : Int64) (maxOutputBytesPerStream : ℕ)

/-- What the process runner returns or throws. -/
inductive RunAnswer
  | returned (result : ProcessExecutionResult)
  | processRunnerException (exception : IOFailure)
  | illegalArgumentException (exception : IOFailure)

/-- The storage and the file system answer or throw what the runner catches. -/
abbrev Request.Answer : Request → Type
  | .nanoTime => Int64
  | .download .. => Except IOFailure Path
  | .size _ => Except IOFailure Int64
  | .sha256 _ => Except IOFailure String
  | .run .. => RunAnswer

abbrev Deployment (α : Type) : Type := ExceptT Thrown (Program Request Request.Answer) α

abbrev Event : Type := (request : Request) × request.Answer

/-! ## Errors -/

section Errors

-- `abbreviate` counts UTF-16 code units
variable (abbreviate : List Char → String)

def errorDetails (result : ProcessExecutionResult) : String :=
  let stderr := JavaText.trim (result.stderrText Utf8.decode)
  let stdout := JavaText.trim (result.stdoutText Utf8.decode)
  let details := if JavaText.isBlank (.ofList stderr) then stdout else stderr
  abbreviate <|
    if JavaText.isBlank (.ofList details) && (result.truncated .stdout || result.truncated .stderr)
    then "stdout/stderr ssh/scp был усечен".toList else details

def infrastructureError (message : String) (exception : IOFailure) : Thrown :=
  .job (.create .infrastructureError (some "deploy.ssh-bash.infrastructure") (some message)
    exception.message [("exceptionClass", .str exception.className)] .failed)

def processRunnerError (exception : IOFailure) : Thrown :=
  .job (.create .infrastructureError (some "deploy.ssh-bash.process-runner")
    (some "Не удалось запустить ssh/scp через process runner") exception.message
    [("exceptionClass", .str exception.className)] .failed)

def illegalArgumentError (exception : IOFailure) : Thrown :=
  .job (.create .validationError (some "deploy.ssh-bash.command")
    (some "Некорректная команда ssh/scp") exception.message
    [("exceptionClass", .str exception.className)] .failed)

/-- No time is left. -/
def deadlineError : Thrown :=
  .job (.create .timeout (some "deploy.ssh-bash.timeout")
    (some "SSH Bash deployment превысил timeout job") none [] .timeout)

/-- `timeout.toSeconds()`, of a timeout that is positive. -/
def timedOutError (code : String) (timeout : Int64) (result : ProcessExecutionResult) : Thrown :=
  .job (.create .timeout (some (code ++ ".timeout"))
    (some "SSH Bash deployment превысил timeout job") (some (errorDetails abbreviate result))
    [("timeoutSecondsRemaining", .num (.int (timeout.toInt / 1000000000)))] .timeout)

def exitError (code message : String) (failureType : ErrorType) (result : ProcessExecutionResult) :
    Thrown :=
  .job (.create failureType (some code) (some message) (some (errorDetails abbreviate result))
    [("exitCode", .num (.int result.exitCode))] .failed)

def healthcheckTimedOutError (parameters : SshBashDeploymentParameters)
    (result : ProcessExecutionResult) : Thrown :=
  .job (.create .timeout (some "deploy.healthcheck.timeout")
    (some "Deploy healthcheck превысил timeout job") (some (errorDetails abbreviate result))
    [("destinationPath", .str (.ofList parameters.destinationPath.text))] .timeout)

def healthcheckFailedError (parameters : SshBashDeploymentParameters)
    (result : ProcessExecutionResult) : Thrown :=
  .job (.create .infrastructureError (some "deploy.healthcheck.failed")
    (some "Deploy healthcheck не подтвердил наличие artifact на SSH target")
    (some (errorDetails abbreviate result))
    [("targetHost", .str (parameters.target.host.getD "")),
      ("destinationPath", .str (.ofList parameters.destinationPath.text)),
      ("exitCode", .num (.int result.exitCode))] .failed)

end Errors

/-! ## The runner

The runner is a program over requests: reading the clock, running a process, and the calls of the
storage. `run` turns the exceptions of the process runner into those of a job, and `runChecked` a
timeout and a bad exit code. -/

/-- What the check of a deployment found, for the report. -/
structure DeploymentHealthcheckResult where
  enabled : Bool
  type : String
  status : String
  passed : Bool
  durationMs : ℤ
  details : String

def DeploymentHealthcheckResult.skipped (type : String) : DeploymentHealthcheckResult :=
  ⟨false, type, "SKIPPED", true, 0, "Healthcheck отключен в параметрах job"⟩

def DeploymentHealthcheckResult.success (type : String) (durationMs : ℤ) (details : String) :
    DeploymentHealthcheckResult :=
  ⟨true, type, "SUCCESS", true, durationMs, details⟩

/-- A deployment that went through: the results of its stages in their order. -/
structure SshBashDeploymentResult where
  parameters : SshBashDeploymentParameters
  downloadedArtifact : Path
  artifactBytes : Int64
  artifactChecksum : String
  copyResult : ProcessExecutionResult
  backupResult : Option ProcessExecutionResult
  commandResults : List ProcessExecutionResult
  healthcheck : DeploymentHealthcheckResult

section Runner

variable (abbreviate : List Char → String) (literal : List Char → Bool)
  (parameters : SshBashDeploymentParameters)

def scpExecutable : String := "scp"

def scpBase (target : SshBashTarget) : List String :=
  [scpExecutable, "-P", .ofList (JavaText.longText target.port), "-o", "BatchMode=yes"]

def copyCommand (sourcePath : Path) : List String :=
  scpBase parameters.target ++
    [.ofList sourcePath.text,
      remoteLogin parameters.target ++ ":" ++ .ofList parameters.destinationPath.text]

def MAX_OUTPUT_BYTES_PER_STREAM : ℕ := 64 * 1024

def nanoTime : Deployment Int64 := attempt Request.nanoTime

/-- The exceptions that `run` catches. -/
def RunAnswer.outcome : RunAnswer → Except Thrown ProcessExecutionResult
  | .returned result => .ok result
  | .processRunnerException exception => .error (processRunnerError exception)
  | .illegalArgumentException exception => .error (illegalArgumentError exception)

def run (command : List String) (timeout : Int64) : Deployment ProcessExecutionResult := do
  let answer : RunAnswer ← attempt (Request.run command timeout MAX_OUTPUT_BYTES_PER_STREAM)
  settle answer.outcome

def remainingTimeout (deadlineNanos : Int64) : Deployment Int64 := do
  let now  ← nanoTime
  let remainingNanos := deadlineNanos - now
  if remainingNanos < 1 then throw deadlineError else pure remainingNanos

def runChecked (command : List String) (code message : String) (failureType : ErrorType)
    (deadlineNanos : Int64) : Deployment ProcessExecutionResult := do
  let timeout ← remainingTimeout deadlineNanos
  let result ← run command timeout
  if result.timedOut then throw (timedOutError abbreviate code timeout result)
  else if result.exitCode ≠ 0 then throw (exitError abbreviate code message failureType result)
  else pure result

/-- The duration is cut to milliseconds towards zero. -/
def healthcheck (deadlineNanos : Int64) : Deployment DeploymentHealthcheckResult := do
  if !parameters.healthcheck.enabled then pure (.skipped "ssh_file_exists")
  else
    let startedAt  ← nanoTime
    let timeout ← remainingTimeout deadlineNanos
    let result ← run (healthcheckCommand parameters) timeout
    if result.timedOut then throw (healthcheckTimedOutError abbreviate parameters result)
    else if result.exitCode ≠ 0 then throw (healthcheckFailedError abbreviate parameters result)
    else
      let finishedAt  ← nanoTime
      pure (.success "ssh_file_exists" ((finishedAt - startedAt).toInt.tdiv 1000000)
        "SSH target подтвердил наличие artifact")

/-- An exception that the runner does not catch. -/
def uncaught (exception : StorageException) : Thrown :=
  .failure (.exception exception.className exception.getMessage)

def sourceFileName (artifactUri : List Char) : Except Thrown String := do
  let namespacePath ← (StorageUris.namespacePath literal (some artifactUri)).mapError uncaught
  let path ← (StorageUris.pathOf namespacePath).mapError uncaught
  match path.getFileName with
  | none => .error (.job (.validation "artifact_uri должен указывать на файл артефакта"))
  | some fileName => .ok fileName

/-- `Duration.ofSeconds(seconds).toNanos()` -/
def toNanos (seconds : Int64) : Except Thrown Int64 :=
  let nanos := seconds.toInt * 1000000000
  if Int64.minValue.toInt ≤ nanos ∧ nanos ≤ Int64.maxValue.toInt then .ok (.ofInt nanos)
  else .error (.failure (.exception "java.lang.ArithmeticException" (some "long overflow")))

def download (artifactUri : List Char) (targetPath : Path) : Deployment Path := do
  let answer : Except IOFailure Path ← attempt (Request.download artifactUri targetPath)
  settle <| answer.mapError
    (infrastructureError "SSH Bash deployment не смог скачать artifact из storage")

def size (path : Path) : Deployment Int64 := do
  let answer : Except IOFailure Int64 ← attempt (Request.size path)
  settle <| answer.mapError
    (infrastructureError "SSH Bash deployment не смог определить размер artifact")

def checksum (path : Path) : Deployment String := do
  let answer : Except IOFailure String ← attempt (Request.sha256 path)
  settle <| answer.mapError
    (infrastructureError "SSH Bash deployment не смог посчитать SHA-256 artifact")

def downloadedArtifact (workspaceRoot : Directory) (fileName : String) : Path :=
  (workspaceRoot.path.resolve ⟨false, ["deploy-artifact"]⟩).resolve ⟨false, [fileName]⟩

/-- The copy of what is in place, if it is asked for. -/
def backup (deadlineNanos : Int64) : Deployment (Option ProcessExecutionResult) :=
  if parameters.backupExisting then
    some <$> runChecked abbreviate (backupCommand parameters) "deploy.ssh-bash.backup"
      "SSH Bash deployment не смог подготовить backup existing artifact" .infrastructureError
      deadlineNanos
  else pure none

/-- `deploy`, from the downloaded artifact on. -/
def deployDownloaded (deadlineNanos : Int64) (downloadedPath : Path) (artifactBytes : Int64)
    (artifactChecksum : String) : Deployment SshBashDeploymentResult := do
  let backupResult ← backup abbreviate parameters deadlineNanos
  let copyResult ← runChecked abbreviate (copyCommand parameters downloadedPath)
    "deploy.ssh-bash.copy" "SSH Bash deployment не смог скопировать artifact через scp"
    .infrastructureError deadlineNanos
  let commandResults ← parameters.commands.mapM fun command ↦
    runChecked abbreviate (bashCommand parameters command) "deploy.ssh-bash.command"
      "SSH Bash deployment команда завершилась с ошибкой" .userCodeError deadlineNanos
  let healthcheck ← healthcheck abbreviate parameters deadlineNanos
  pure {
    parameters := parameters
    downloadedArtifact := downloadedPath
    artifactBytes := artifactBytes
    artifactChecksum := artifactChecksum
    copyResult := copyResult
    backupResult := backupResult
    commandResults := commandResults
    healthcheck := healthcheck }

/-- The artifact of the parameters stands beside them. -/
def deploy (job : JobMessage) (workspaceRoot : Directory) (artifactUri : List Char) :
    Deployment SshBashDeploymentResult := do
  let start ← nanoTime
  let timeoutNanos ← settle (toNanos job.timeoutSeconds)
  let deadlineNanos := start + timeoutNanos
  let fileName ← settle (sourceFileName literal artifactUri)
  let downloadedPath ← download artifactUri (downloadedArtifact workspaceRoot fileName)
  let artifactBytes ← size downloadedPath
  let artifactChecksum ← checksum downloadedPath
  deployDownloaded abbreviate parameters deadlineNanos downloadedPath artifactBytes artifactChecksum

end Runner

/-! ## The plan

Of a deployment only the started processes are seen. Its stages are given in the order in which
the parameters ask for them, each with the arguments of its process and with the errors for a
timeout and a bad end, and the code is shown to conduct this plan: it starts the processes of the
stages in turn, stops at the first that does badly, or where the time is up, and reports its
error. -/

/-- A step of a deployment. -/
inductive Stage
  | backup
  | copy (sourcePath : Path)
  | command (line : String)
  | healthcheck

/-- A process that has been started: its arguments, its timeout and what became of it. -/
structure Launch where
  command : List String
  timeout : Int64
  answer : RunAnswer

/-- The launch among the events. -/
def launch? : Event → Option Launch
  | ⟨.run command timeout _, answer⟩ => some ⟨command, timeout, answer⟩
  | _ => none

def launches (t : List Event) : List Launch := t.filterMap launch?

section Plan

variable (abbreviate : List Char → String) (literal : List Char → Bool)
  (parameters : SshBashDeploymentParameters)

def Stage.argv : Stage → List String
  | .backup => backupCommand parameters
  | .copy sourcePath => copyCommand parameters sourcePath
  | .command line => bashCommand parameters line
  | .healthcheck => healthcheckCommand parameters

/-- What a deployment has to do once its artifact is downloaded. -/
def plan (sourcePath : Path) : List Stage :=
  (if parameters.backupExisting then [.backup] else []) ++ .copy sourcePath ::
    (parameters.commands.map .command ++
      if parameters.healthcheck.enabled then [.healthcheck] else [])

/-- The errors of a stage whose process has timed out, or has ended badly. -/
def Stage.errors (timeout : Int64) (result : ProcessExecutionResult) : Stage → Thrown × Thrown
  | .backup =>
    (timedOutError abbreviate "deploy.ssh-bash.backup" timeout result,
      exitError abbreviate "deploy.ssh-bash.backup"
        "SSH Bash deployment не смог подготовить backup existing artifact" .infrastructureError
        result)
  | .copy _ =>
    (timedOutError abbreviate "deploy.ssh-bash.copy" timeout result,
      exitError abbreviate "deploy.ssh-bash.copy"
        "SSH Bash deployment не смог скопировать artifact через scp" .infrastructureError result)
  | .command _ =>
    (timedOutError abbreviate "deploy.ssh-bash.command" timeout result,
      exitError abbreviate "deploy.ssh-bash.command"
        "SSH Bash deployment команда завершилась с ошибкой" .userCodeError result)
  | .healthcheck =>
    (healthcheckTimedOutError abbreviate parameters result,
      healthcheckFailedError abbreviate parameters result)

/-- The error that a stage ends with, if its process did not do well. -/
def Stage.failure (stage : Stage) (launch : Launch) : Option Thrown :=
  match launch.answer.outcome with
  | .error e => some e
  | .ok result =>
    if result.timedOut then some (stage.errors abbreviate parameters launch.timeout result).1
    else if result.exitCode ≠ 0 then
      some (stage.errors abbreviate parameters launch.timeout result).2
    else none

/-- The stages are what is seen of a deployment, and between them its time may be up. -/
def protocol : Protocol Request Request.Answer Stage Launch Thrown where
  observe := launch?
  Fits stage launch := launch.command = stage.argv parameters
  failure := Stage.failure abbreviate parameters
  Idle e := e = deadlineError

variable {abbreviate literal parameters} {stage : Stage} {command : List String} {timeout : Int64}

theorem failure_returned (result : ProcessExecutionResult) :
    stage.failure abbreviate parameters ⟨command, timeout, .returned result⟩ =
      if result.timedOut then some (stage.errors abbreviate parameters timeout result).1
      else if result.exitCode ≠ 0 then some (stage.errors abbreviate parameters timeout result).2
      else none := rfl

theorem transcript_nanoTime_iff {t : List Event} {result : Except Thrown Int64} :
    Transcript nanoTime.run t result ↔ ∃ now, t = [⟨.nanoTime, now⟩] ∧ .ok now = result :=
  transcript_attempt_iff

theorem conducts_nanoTime : (protocol abbreviate parameters).Conducts nanoTime [] :=
  Protocol.conducts_attempt fun _ ↦ rfl

theorem transcript_remainingTimeout_iff {deadlineNanos : Int64} {t : List Event}
    {result : Except Thrown Int64} : Transcript (remainingTimeout deadlineNanos).run t result ↔
      ∃ now, t = [⟨.nanoTime, now⟩] ∧
        (deadlineNanos - now < 1 ∧ result = .error deadlineError ∨
          ¬deadlineNanos - now < 1 ∧ result = .ok (deadlineNanos - now)) := by
  rw [remainingTimeout, transcript_bind_cases]
  constructor
  · rintro (⟨e, -, hnow⟩ | ⟨t₁, t₂, now, rfl, hnow, hrest⟩)
    · obtain ⟨now, -, hresult⟩ := transcript_nanoTime_iff.mp hnow
      cases hresult
    obtain ⟨now', rfl, hresult⟩ := transcript_nanoTime_iff.mp hnow
    obtain rfl : now = now' := (Except.ok.inj hresult).symm
    by_cases htime : deadlineNanos - now < 1
    · rw [if_pos htime] at hrest
      obtain ⟨rfl, rfl⟩ := transcript_throw_iff.mp hrest
      exact ⟨now, rfl, .inl ⟨htime, rfl⟩⟩
    · rw [if_neg htime] at hrest
      obtain ⟨rfl, rfl⟩ := transcript_pure_iff.mp hrest
      exact ⟨now, rfl, .inr ⟨htime, rfl⟩⟩
  · rintro ⟨now, rfl, hleft⟩
    refine .inr ⟨_, [], now, rfl, transcript_nanoTime_iff.mpr ⟨now, rfl, rfl⟩, ?_⟩
    rcases hleft with ⟨htime, rfl⟩ | ⟨htime, rfl⟩
    · rw [if_pos htime]
      exact transcript_throw_iff.mpr ⟨rfl, rfl⟩
    · rw [if_neg htime]
      exact transcript_pure_iff.mpr ⟨rfl, rfl⟩

theorem quiet_remainingTimeout (deadlineNanos : Int64) :
    (protocol abbreviate parameters).Quiet (remainingTimeout deadlineNanos) := by
  intro t result h
  obtain ⟨now, rfl, ⟨-, rfl⟩ | ⟨-, rfl⟩⟩ := transcript_remainingTimeout_iff.mp h
  · exact ⟨rfl, fun e he ↦ (Except.error.inj he).symm⟩
  · exact ⟨rfl, fun e he ↦ by cases he⟩

theorem transcript_run_iff {t : List Event}
    {result : Except Thrown ProcessExecutionResult} :
    Transcript (run command timeout).run t result ↔ ∃ answer : RunAnswer,
      t = [⟨.run command timeout MAX_OUTPUT_BYTES_PER_STREAM, answer⟩] ∧
        answer.outcome = result := transcript_attempt_settle_iff

theorem conducts_run {α : Type} {f : ProcessExecutionResult → Deployment α}
    (hargv : stage.argv parameters = command)
    (hbad : ∀ result e, stage.failure abbreviate parameters ⟨command, timeout, .returned result⟩ =
      some e → f result = throw e)
    (hgood : ∀ result, stage.failure abbreviate parameters ⟨command, timeout, .returned result⟩ =
      none → (protocol abbreviate parameters).Conducts (f result) []) :
    (protocol abbreviate parameters).Conducts (run command timeout >>= f) [stage] := by
  -- a process whose judgement is an error ends the plan
  have hfailed (answer : RunAnswer) (e : Thrown)
      (he : stage.failure abbreviate parameters ⟨command, timeout, answer⟩ = some e) :
      (protocol abbreviate parameters).Follows [stage]
        [⟨.run command timeout MAX_OUTPUT_BYTES_PER_STREAM, answer⟩] (some e) :=
    ⟨[(stage, ⟨command, timeout, answer⟩)], rfl, List.forall_mem_singleton.mpr hargv.symm,
      .failed he⟩
  intro t result h
  rcases transcript_bind_cases.mp h with ⟨e, rfl, hrun⟩ | ⟨t₁, t₂, out, rfl, hrun, hrest⟩
  · obtain ⟨answer, rfl, hanswer⟩ := transcript_run_iff.mp hrun
    exact hfailed answer e (by rw [Stage.failure, hanswer])
  obtain ⟨answer, rfl, hanswer⟩ := transcript_run_iff.mp hrun
  have hreturned : stage.failure abbreviate parameters ⟨command, timeout, answer⟩ =
      stage.failure abbreviate parameters ⟨command, timeout, .returned out⟩ := by
    rw [Stage.failure, Stage.failure, hanswer]
    rfl
  rcases hjudged : stage.failure abbreviate parameters ⟨command, timeout, .returned out⟩ with _ | e
  · obtain ⟨taken, hseen, hfits, hcarried⟩ := hgood out hjudged _ _ hrest
    refine ⟨(stage, ⟨command, timeout, answer⟩) :: taken, ?_, ?_, ?_⟩
    · rw [Protocol.seen_append, hseen]
      rfl
    · exact List.forall_mem_cons.mpr ⟨hargv.symm, hfits⟩
    · exact .step (hreturned.trans hjudged) hcarried
  · rw [hbad out e hjudged] at hrest
    obtain ⟨rfl, rfl⟩ := transcript_throw_iff.mp hrest
    exact hfailed answer e (hreturned.trans hjudged)

theorem conducts_runChecked (stage : Stage) {code message : String} {failureType : ErrorType}
    (hargv : stage.argv parameters = command)
    (herrors : ∀ timeout out, stage.errors abbreviate parameters timeout out =
      (timedOutError abbreviate code timeout out,
        exitError abbreviate code message failureType out)) (deadlineNanos : Int64) :
    (protocol abbreviate parameters).Conducts
      (runChecked abbreviate command code message failureType deadlineNanos) [stage] := by
  refine (quiet_remainingTimeout deadlineNanos).bind fun timeout ↦ ?_
  refine conducts_run hargv (fun out e he ↦ ?_) fun out hout ↦ ?_
  · rw [failure_returned, herrors] at he
    split_ifs at he ⊢
    · exact congrArg throw (Option.some.inj he)
    · exact congrArg throw (Option.some.inj he)
  · rw [failure_returned] at hout
    split_ifs at hout ⊢
    exact Protocol.conducts_pure out

theorem conducts_healthcheck (deadlineNanos : Int64) : (protocol abbreviate parameters).Conducts
    (healthcheck abbreviate parameters deadlineNanos)
    (if parameters.healthcheck.enabled then [.healthcheck] else []) := by
  rw [healthcheck]
  by_cases henabled : parameters.healthcheck.enabled = true
  swap
  · rw [if_neg henabled, if_pos (by rw [Bool.not_eq_true'] ; simpa using henabled)]
    exact Protocol.conducts_pure _
  rw [if_pos henabled, if_neg (by simp [henabled])]
  refine conducts_nanoTime.quiet.bind fun startedAt ↦ ?_
  refine (quiet_remainingTimeout deadlineNanos).bind fun timeout ↦ ?_
  refine conducts_run rfl (fun out e he ↦ ?_) fun out hout ↦ ?_
  · rw [failure_returned] at he
    split_ifs at he ⊢
    · exact congrArg throw (Option.some.inj he)
    · exact congrArg throw (Option.some.inj he)
  · rw [failure_returned] at hout
    split_ifs at hout ⊢
    exact conducts_nanoTime.bind fun finishedAt ↦ Protocol.conducts_pure _

theorem conducts_backup (deadlineNanos : Int64) : (protocol abbreviate parameters).Conducts
    (backup abbreviate parameters deadlineNanos)
    (if parameters.backupExisting then [.backup] else []) := by
  rw [backup]
  by_cases hexisting : parameters.backupExisting = true
  · rw [if_pos hexisting, if_pos hexisting]
    refine Protocol.Conducts.map ?_ some
    exact conducts_runChecked .backup rfl (fun _ _ ↦ rfl) deadlineNanos
  · rw [if_neg hexisting, if_neg hexisting]
    exact Protocol.conducts_pure none

theorem conducts_deployDownloaded (deadlineNanos : Int64) (downloadedPath : Path)
    (artifactBytes : Int64) (artifactChecksum : String) :
    (protocol abbreviate parameters).Conducts
      (deployDownloaded abbreviate parameters deadlineNanos downloadedPath artifactBytes
        artifactChecksum) (plan parameters downloadedPath) := by
  refine (conducts_backup deadlineNanos).bind fun backupResult ↦ ?_
  refine (conducts_runChecked (.copy downloadedPath) rfl
    (fun _ _ ↦ rfl) deadlineNanos).bind fun copyResult ↦ ?_
  refine (Protocol.conducts_mapM Stage.command (fun command ↦ ?_) _).bind
    fun commandResults ↦ ?_
  · exact conducts_runChecked (.command command) rfl (fun _ _ ↦ rfl) deadlineNanos
  · rw [← List.append_nil (if parameters.healthcheck.enabled = true then _ else _)]
    exact (conducts_healthcheck deadlineNanos).bind fun _ ↦ Protocol.conducts_pure _

/-! ## Deployments -/

/-- A program that starts no process. -/
def Silent {α : Type} (p : Deployment α) : Prop :=
  ∀ t result, Transcript p.run t result → launches t = []

theorem silent_settle {α : Type} (x : Except Thrown α) : Silent (settle x) := by
  intro t result h
  rw [(transcript_settle_iff.mp h).1]
  rfl

theorem silent_nanoTime : Silent nanoTime := by
  intro t result h
  obtain ⟨now, rfl, -⟩ := transcript_nanoTime_iff.mp h
  rfl

theorem silent_remainingTimeout (deadlineNanos : Int64) :
    Silent (remainingTimeout deadlineNanos) := by
  intro t result h
  obtain ⟨now, rfl, -⟩ := transcript_remainingTimeout_iff.mp h
  rfl

theorem transcript_download_iff {artifactUri : List Char} {targetPath : Path} {t : List Event}
    {result : Except Thrown Path} : Transcript (download artifactUri targetPath).run t result ↔
      ∃ answer, t = [⟨.download artifactUri targetPath, answer⟩] ∧
        answer.mapError (infrastructureError
          "SSH Bash deployment не смог скачать artifact из storage") = result :=
  transcript_attempt_settle_iff

theorem silent_download (artifactUri : List Char) (targetPath : Path) :
    Silent (download artifactUri targetPath) := by
  intro t result h
  obtain ⟨answer, rfl, -⟩ := transcript_download_iff.mp h
  rfl

theorem silent_size (path : Path) : Silent (size path) := by
  intro t result h
  obtain ⟨answer, rfl, -⟩ := transcript_attempt_settle_iff.mp h
  rfl

theorem silent_checksum (path : Path) : Silent (checksum path) := by
  intro t result h
  obtain ⟨answer, rfl, -⟩ := transcript_attempt_settle_iff.mp h
  rfl

/-- A silent program comes first, and the other one decides what is started. -/
theorem Silent.bind_cases {α β : Type} {p : Deployment α} {f : α → Deployment β} {t : List Event}
    {result : Except Thrown β} (hp : Silent p) (h : Transcript (p >>= f).run t result) :
    (launches t = [] ∧ ∃ e, result = .error e) ∨ ∃ t₁ t₂ a, t = t₁ ++ t₂ ∧
      launches t = launches t₂ ∧ Transcript p.run t₁ (.ok a) ∧ Transcript (f a).run t₂ result := by
  rcases transcript_bind_cases.mp h with ⟨e, rfl, hfirst⟩ | ⟨t₁, t₂, a, rfl, hfirst, hrest⟩
  · exact .inl ⟨hp _ _ hfirst, e, rfl⟩
  · refine .inr ⟨t₁, t₂, a, rfl, ?_, hfirst, hrest⟩
    rw [launches, List.filterMap_append]
    exact congrArg (· ++ launches t₂) (hp _ _ hfirst)

/-- A deployment fails before its first process, or has downloaded its artifact. -/
theorem deploy_cases {job : JobMessage} {workspaceRoot : Directory} {artifactUri : List Char}
    {t : List Event} {result : Except Thrown SshBashDeploymentResult}
    (h : Transcript (deploy abbreviate literal parameters job workspaceRoot artifactUri).run t
      result) :
    (launches t = [] ∧ ∃ e, result = .error e) ∨
      ∃ deadlineNanos targetPath sourcePath bytes digest t', launches t = launches t' ∧
        (⟨.download artifactUri targetPath, .ok sourcePath⟩ : Event) ∈ t ∧
        Transcript (deployDownloaded abbreviate parameters deadlineNanos sourcePath bytes
          digest).run t' result := by
  rcases silent_nanoTime.bind_cases h with herror | ⟨t₁, u₁, start, ht₁, h₁, -, hrest₁⟩
  · exact .inl herror
  rcases (silent_settle _).bind_cases hrest₁ with
    ⟨h₂, herror⟩ | ⟨t₂, u₂, nanos, ht₂, h₂, -, hrest₂⟩
  · exact .inl ⟨h₁.trans h₂, herror⟩
  rcases (silent_settle _).bind_cases hrest₂ with
    ⟨h₃, herror⟩ | ⟨t₃, u₃, fileName, ht₃, h₃, -, hrest₃⟩
  · exact .inl ⟨h₁.trans (h₂.trans h₃), herror⟩
  rw [h₁, h₂, h₃]
  rcases (silent_download _ _).bind_cases hrest₃ with
    hfailed | ⟨t₄, u₄, sourcePath, ht₄, h₄, hdownload, hrest₄⟩
  · exact .inl hfailed
  rcases (silent_size _).bind_cases hrest₄ with
    ⟨h₅, herror⟩ | ⟨t₅, u₅, bytes, ht₅, h₅, -, hrest₅⟩
  · exact .inl ⟨h₄.trans h₅, herror⟩
  rcases (silent_checksum _).bind_cases hrest₅ with
    ⟨h₆, herror⟩ | ⟨t₆, u₆, digest, ht₆, h₆, -, hrest₆⟩
  · exact .inl ⟨h₄.trans (h₅.trans h₆), herror⟩
  obtain ⟨answer, rfl, hanswer⟩ := transcript_download_iff.mp hdownload
  refine .inr ⟨start + nanos, downloadedArtifact workspaceRoot fileName, sourcePath, bytes, digest,
    u₆, h₄.trans (h₅.trans h₆), ?_, hrest₆⟩
  cases answer with
  | error e => cases hanswer
  | ok path =>
    obtain rfl := Except.ok.inj hanswer
    rw [ht₁, ht₂, ht₃, ht₄]
    simp only [List.mem_append, List.mem_singleton, true_or, or_true]

end Plan

/-! ### An example -/

namespace Small

def parameters : SshBashDeploymentParameters where
  target := ⟨some "app.example", 22, some "deploy", none⟩
  destinationPath := ⟨true, ["srv", "app.jar"]⟩
  backupExisting := false
  commands := ["restart"]
  healthcheck := ⟨false⟩

def sourcePath : Path := ⟨true, ["srv", "deploy-artifact", "app.jar"]⟩

/-- The copy ends with an error. -/
def refused : ProcessExecutionResult := .construct 1 false false [] ∅

def job : JobMessage := { ScriptWorkspacePreparer.Small.job "" with jobType := some .deploy }

/-- The time that is left after two nanoseconds. -/
def timeout : Int64 := 59999999998

def setUp : List Event :=
  [⟨.nanoTime, 5⟩, ⟨.download "storage://app.jar".toList
      (downloadedArtifact smallRoot "app.jar"), .ok sourcePath⟩,
    ⟨.size sourcePath, .ok 1⟩, ⟨.sha256 sourcePath, .ok "00"⟩, ⟨.nanoTime, 7⟩]

def copied : Event :=
  ⟨.run (copyCommand parameters sourcePath) timeout MAX_OUTPUT_BYTES_PER_STREAM, .returned refused⟩

def refusal : Thrown :=
  exitError String.ofList "deploy.ssh-bash.copy"
    "SSH Bash deployment не смог скопировать artifact через scp" .infrastructureError refused

theorem transcript_copied : Transcript (runChecked String.ofList (copyCommand parameters sourcePath)
    "deploy.ssh-bash.copy" "SSH Bash deployment не смог скопировать artifact через scp"
    .infrastructureError (5 + 60000000000)).run [⟨.nanoTime, 7⟩, copied] (.error refusal) := by
  rw [runChecked]
  refine transcript_bind_cases.mpr (.inr ⟨[⟨.nanoTime, 7⟩], [copied], timeout, rfl, ?_, ?_⟩)
  · have hleft : timeout = 5 + 60000000000 - 7 := by decide
    exact transcript_remainingTimeout_iff.mpr
      ⟨7, rfl, .inr ⟨by decide, congrArg Except.ok hleft⟩⟩
  refine transcript_bind_cases.mpr (.inr ⟨[copied], [], refused, rfl,
    transcript_run_iff.mpr ⟨.returned refused, rfl, rfl⟩, ?_⟩)
  rw [if_neg (by decide), if_pos (by decide)]
  exact transcript_throw_iff.mpr ⟨rfl, rfl⟩

theorem transcript_refused : Transcript (deploy String.ofList (fun _ ↦ false) parameters job
    smallRoot "storage://app.jar".toList).run (setUp ++ [copied]) (.error refusal) := by
  have hnanos : toNanos job.timeoutSeconds = .ok 60000000000 := by decide
  have hname : sourceFileName (fun _ ↦ false) "storage://app.jar".toList = .ok "app.jar" := by
    decide +kernel
  rw [deploy]
  refine transcript_bind_cases.mpr (.inr ⟨[⟨.nanoTime, 5⟩], _, 5, rfl,
    transcript_nanoTime_iff.mpr ⟨5, rfl, rfl⟩, ?_⟩)
  refine transcript_bind_cases.mpr (.inr ⟨[], _, 60000000000, rfl,
    transcript_settle_iff.mpr ⟨rfl, hnanos⟩, ?_⟩)
  refine transcript_bind_cases.mpr (.inr ⟨[], _, "app.jar", rfl,
    transcript_settle_iff.mpr ⟨rfl, hname⟩, ?_⟩)
  refine transcript_bind_cases.mpr (.inr ⟨[_], _, sourcePath, rfl,
    transcript_download_iff.mpr ⟨.ok sourcePath, rfl, rfl⟩, ?_⟩)
  refine transcript_bind_cases.mpr (.inr ⟨[_], _, 1, rfl,
    transcript_attempt_settle_iff.mpr ⟨.ok 1, rfl, rfl⟩, ?_⟩)
  refine transcript_bind_cases.mpr (.inr ⟨[_], _, "00", rfl,
    transcript_attempt_settle_iff.mpr ⟨.ok "00", rfl, rfl⟩, ?_⟩)
  rw [deployDownloaded]
  refine transcript_bind_cases.mpr (.inr ⟨[], _, none, rfl,
    transcript_pure_iff.mpr ⟨rfl, rfl⟩, ?_⟩)
  exact transcript_bind_cases.mpr (.inl ⟨refusal, rfl, transcript_copied⟩)

end Small

section Deployments

variable {abbreviate : List Char → String} {literal : List Char → Bool}
  {parameters : SshBashDeploymentParameters} {command : List String}

/-- **Deployments.** The processes of a deployment are a front of its plan, none is started after
one that has failed, and the deployment succeeds exactly when all of the plan was carried out. Its
error is that of the last process, unless no time was left for the next one. -/
theorem deploy_launches {job : JobMessage} {workspaceRoot : Directory} {artifactUri : List Char}
    {t : List Event} {result : Except Thrown SshBashDeploymentResult}
    (h : Transcript (deploy abbreviate literal parameters job workspaceRoot artifactUri).run t
      result) :
    (launches t = [] ∧ ∃ e, result = .error e) ∨
      ∃ targetPath sourcePath, ∃ taken : List (Stage × Launch),
        (⟨.download artifactUri targetPath, .ok sourcePath⟩ : Event) ∈ t ∧
        launches t = taken.map Prod.snd ∧
        (∀ x ∈ taken, x.2.command = x.1.argv parameters) ∧
        taken.map Prod.fst <+: plan parameters sourcePath ∧
        (∀ x ∈ taken.dropLast, x.1.failure abbreviate parameters x.2 = none) ∧
        ((∃ r, result = .ok r) ↔ taken.map Prod.fst = plan parameters sourcePath ∧
          ∀ x ∈ taken, x.1.failure abbreviate parameters x.2 = none) ∧
        ∀ e, result = .error e →
          (∃ x, taken.getLast? = some x ∧ x.1.failure abbreviate parameters x.2 = some e) ∨
            e = deadlineError ∧ ∀ x ∈ taken, x.1.failure abbreviate parameters x.2 = none := by
  rcases deploy_cases h with herror | ⟨deadlineNanos, targetPath, sourcePath, bytes, digest, t',
    hlaunches, hdownload, hrest⟩
  · exact .inl herror
  obtain ⟨taken, hseen, hfits, hcarried⟩ :=
    conducts_deployDownloaded deadlineNanos sourcePath bytes digest t' result hrest
  refine .inr ⟨targetPath, sourcePath, taken, hdownload, hlaunches.trans hseen, hfits,
    hcarried.isPrefix, hcarried.of_mem_dropLast, ?_, ?_⟩
  · refine Iff.trans ?_ hcarried.eq_none_iff
    cases result with
    | ok r => exact iff_of_true ⟨r, rfl⟩ rfl
    | error e => exact iff_of_false (fun ⟨r, hr⟩ ↦ by cases hr) (Option.some_ne_none e)
  · rintro e rfl
    exact hcarried.of_some

theorem deploy_launches_refused : ∃ taken : List (Stage × Launch),
    launches (Small.setUp ++ [Small.copied]) = taken.map Prod.snd ∧
      taken.map Prod.fst <+: plan Small.parameters Small.sourcePath := by
  rcases deploy_launches Small.transcript_refused with
    ⟨hnone, -⟩ | ⟨targetPath, sourcePath, taken, hdownload, hlaunches, -, hfront, -⟩
  · cases hnone
  · have hpath : targetPath = downloadedArtifact smallRoot "app.jar" ∧
        sourcePath = Small.sourcePath := by
      simpa [Small.setUp, Small.copied] using hdownload
    exact ⟨taken, hlaunches, hpath.2 ▸ hfront⟩

/-! ## Timeouts

Between the reading of the clock and the start of the process that follows there is no other
call. `Justified` carries this through the program. The deadline may overflow: only differences
of clock readings count, and they are right as long as the elapsed time fits. -/

/-- A process gets the time that is left on the clock right before it. -/
def Timed (deadlineNanos : Int64) (pre : List Event) (event : Event) : Prop :=
  ∀ launch, launch? event = some launch → ∃ pre' now, pre = pre' ++ [⟨.nanoTime, now⟩] ∧
    launch.timeout = deadlineNanos - now ∧ ¬launch.timeout < 1

theorem Timed.append {deadlineNanos : Int64} (front pre : List Event) (event : Event)
    (h : Timed deadlineNanos pre event) : Timed deadlineNanos (front ++ pre) event := by
  intro launch hlaunch
  obtain ⟨pre', now, rfl, htimeout⟩ := h launch hlaunch
  exact ⟨front ++ pre', now, (List.append_assoc _ _ _).symm, htimeout⟩

theorem Silent.justified {α : Type} {p : Deployment α} (hp : Silent p) (deadlineNanos : Int64) :
    Justified (Timed deadlineNanos) p := by
  intro pre event post result h launch hlaunch
  have hnone := hp _ _ h
  rw [launches, List.filterMap_append, List.filterMap_cons_some hlaunch] at hnone
  simp at hnone

/-- The clock is read, the process is started, and something else follows. -/
theorem justified_run {α : Type} {deadlineNanos : Int64}
    {f : Int64 → ProcessExecutionResult → Deployment α}
    (hf : ∀ timeout out, Justified (Timed deadlineNanos) (f timeout out)) :
    Justified (Timed deadlineNanos)
      (remainingTimeout deadlineNanos >>= fun timeout ↦ run command timeout >>= f timeout) := by
  intro pre event post result h
  rcases transcript_bind_cases.mp h with ⟨e, -, hfirst⟩ | ⟨t₁, t₂, timeout, ht, hfirst, hrest⟩
  · exact (silent_remainingTimeout deadlineNanos).justified deadlineNanos _ _ _ _ hfirst
  obtain ⟨now, rfl, ⟨-, hresult⟩ | ⟨htime, hresult⟩⟩ := transcript_remainingTimeout_iff.mp hfirst
  · cases hresult
  obtain rfl := Except.ok.inj hresult
  -- after the clock comes the process, and then what `f` does
  obtain ⟨answer, t₃, rfl, hafter⟩ : ∃ answer t₃,
      t₂ = ⟨.run command (deadlineNanos - now) MAX_OUTPUT_BYTES_PER_STREAM, answer⟩ :: t₃ ∧
        ∀ pre event post, t₃ = pre ++ event :: post → Timed deadlineNanos pre event := by
    rcases transcript_bind_cases.mp hrest with ⟨e, -, hrun⟩ | ⟨u₁, u₂, out, rfl, hrun, hgo⟩
    · obtain ⟨answer, rfl, -⟩ := transcript_run_iff.mp hrun
      exact ⟨answer, [], rfl, fun pre event post hnil ↦ absurd hnil (by simp)⟩
    · obtain ⟨answer, rfl, -⟩ := transcript_run_iff.mp hrun
      exact ⟨answer, u₂, rfl, fun pre event post hu ↦ hf _ out pre event post result (hu ▸ hgo)⟩
  rcases pre with _ | ⟨x, _ | ⟨y, pre⟩⟩
  · obtain ⟨rfl, -⟩ := List.cons.inj ht
    exact fun launch hlaunch ↦ by cases hlaunch
  · obtain ⟨rfl, htail⟩ := List.cons.inj ht
    obtain ⟨rfl, -⟩ := List.cons.inj htail
    rintro launch hlaunch
    obtain rfl := Option.some.inj hlaunch
    exact ⟨[], now, rfl, rfl, htime⟩
  · obtain ⟨rfl, htail⟩ := List.cons.inj ht
    obtain ⟨rfl, hrest'⟩ := List.cons.inj htail
    exact Timed.append [_, _] pre event (hafter pre event post hrest'.symm)

theorem justified_runChecked {code message : String} {failureType : ErrorType}
    (deadlineNanos : Int64) : Justified (Timed deadlineNanos)
      (runChecked abbreviate command code message failureType deadlineNanos) := by
  refine justified_run fun timeout out ↦ ?_
  split_ifs
  · exact justified_settle _
  · exact justified_settle _
  · exact justified_settle _

theorem justified_healthcheck (deadlineNanos : Int64) :
    Justified (Timed deadlineNanos) (healthcheck abbreviate parameters deadlineNanos) := by
  rw [healthcheck]
  split_ifs
  · exact justified_settle _
  refine (silent_nanoTime.justified deadlineNanos).bind Timed.append fun startedAt ↦ ?_
  refine justified_run fun timeout out ↦ ?_
  split_ifs
  · exact justified_settle _
  · exact justified_settle _
  · exact (silent_nanoTime.justified deadlineNanos).bind Timed.append fun _ ↦ justified_settle _

theorem justified_deployDownloaded (deadlineNanos : Int64) (downloadedPath : Path)
    (artifactBytes : Int64) (artifactChecksum : String) : Justified (Timed deadlineNanos)
      (deployDownloaded abbreviate parameters deadlineNanos downloadedPath artifactBytes
        artifactChecksum) := by
  have hbackup : Justified (Timed deadlineNanos) (backup abbreviate parameters deadlineNanos) := by
    rw [backup]
    split_ifs
    · rw [map_eq_pure_bind]
      exact (justified_runChecked deadlineNanos).bind Timed.append fun _ ↦ justified_settle _
    · exact justified_settle _
  refine hbackup.bind Timed.append fun backupResult ↦ ?_
  refine (justified_runChecked deadlineNanos).bind Timed.append fun copyResult ↦ ?_
  refine (justified_mapM Timed.append (fun command ↦ ?_) _).bind Timed.append
    fun commandResults ↦ ?_
  · exact justified_runChecked deadlineNanos
  · exact (justified_healthcheck deadlineNanos).bind Timed.append fun _ ↦ justified_settle _

theorem toNanos_ok {seconds nanos : Int64} (h : toNanos seconds = .ok nanos) :
    nanos.toInt = seconds.toInt * 1000000000 := by
  rw [toNanos] at h
  split_ifs at h with hrange
  obtain rfl := Except.ok.inj h
  have hmin : Int64.minValue.toInt = -2 ^ 63 := rfl
  have hmax : Int64.maxValue.toInt = 2 ^ 63 - 1 := rfl
  exact Int64.toInt_ofInt_of_le (by omega) (by omega)

/-- The origin of the clock does not matter, and neither does an overflow of the deadline. -/
theorem toInt_remaining {start nanos now : Int64} (hnanos : 0 ≤ nanos.toInt)
    (helapsed : 0 ≤ (now - start).toInt) :
    (start + nanos - now).toInt = nanos.toInt - (now - start).toInt := by
  have hassoc : start + nanos - now = nanos - (now - start) := by grind
  have hnanosLt := nanos.toInt_lt
  have helapsedLt := (now - start).toInt_lt
  rw [hassoc, Int64.toInt_sub]
  exact Int.bmod_eq_of_le (by omega) (by omega)

/-- **Timeouts.** Right before a process is started the clock is read, and the process gets the time
that is then left for the job. -/
theorem timeout_of_launch {job : JobMessage} {workspaceRoot : Directory} {artifactUri : List Char}
    {pre post : List Event} {event : Event} {launch : Launch}
    {result : Except Thrown SshBashDeploymentResult} (hseconds : 0 ≤ job.timeoutSeconds.toInt)
    (h : Transcript (deploy abbreviate literal parameters job workspaceRoot artifactUri).run
      (pre ++ event :: post) result) (hlaunch : launch? event = some launch) :
    ∃ start now between, pre = ⟨.nanoTime, start⟩ :: (between ++ [⟨.nanoTime, now⟩]) ∧
      1 ≤ launch.timeout.toInt ∧ (0 ≤ (now - start).toInt → launch.timeout.toInt =
        job.timeoutSeconds.toInt * 1000000000 - (now - start).toInt) := by
  rcases transcript_bind_cases.mp h with ⟨e, -, hnow⟩ | ⟨t₁, t₂, start, ht, hnow, hrest⟩
  · obtain ⟨now, -, hresult⟩ := transcript_nanoTime_iff.mp hnow
    cases hresult
  obtain ⟨start', rfl, hstart⟩ := transcript_nanoTime_iff.mp hnow
  obtain rfl : start = start' := (Except.ok.inj hstart).symm
  rcases pre with _ | ⟨x, pre⟩
  · obtain ⟨rfl, -⟩ := List.cons.inj ht
    cases hlaunch
  obtain ⟨rfl, htail⟩ := List.cons.inj ht
  have htail' : pre ++ event :: post = t₂ := htail
  subst htail'
  rcases transcript_bind_cases.mp hrest with ⟨e, -, hsettle⟩ | ⟨t₃, t₄, nanos, ht', hsettle, hgo⟩
  · exact absurd (transcript_settle_iff.mp hsettle).1 (by simp)
  obtain ⟨rfl, hnanos⟩ := transcript_settle_iff.mp hsettle
  rw [List.nil_append] at ht'
  rw [← ht'] at hgo
  have hjustified : Justified (Timed (start + nanos)) (do
      let fileName ← settle (sourceFileName literal artifactUri)
      let downloadedPath ← download artifactUri (downloadedArtifact workspaceRoot fileName)
      let artifactBytes ← size downloadedPath
      let artifactChecksum ← checksum downloadedPath
      deployDownloaded abbreviate parameters (start + nanos) downloadedPath artifactBytes
        artifactChecksum) := by
    refine (justified_settle _).bind Timed.append fun fileName ↦ ?_
    refine ((silent_download _ _).justified _).bind Timed.append fun downloadedPath ↦ ?_
    refine ((silent_size _).justified _).bind Timed.append fun artifactBytes ↦ ?_
    refine ((silent_checksum _).justified _).bind Timed.append fun artifactChecksum ↦ ?_
    exact justified_deployDownloaded _ _ _ _
  obtain ⟨between, now, rfl, htimeout, hleft⟩ := hjustified pre event post result hgo launch hlaunch
  refine ⟨start, now, between, rfl, ?_, fun helapsed ↦ ?_⟩
  · rw [Int64.lt_iff_toInt_lt] at hleft
    exact not_lt.mp hleft
  · have hvalue := toNanos_ok hnanos
    rw [htimeout, toInt_remaining (by omega) helapsed, hvalue]

theorem timeout_of_launch_refused : ∃ start now between,
    Small.setUp = ⟨.nanoTime, start⟩ :: (between ++ [⟨.nanoTime, now⟩]) ∧
      1 ≤ Small.timeout.toInt ∧ (0 ≤ (now - start).toInt → Small.timeout.toInt =
        Small.job.timeoutSeconds.toInt * 1000000000 - (now - start).toInt) :=
  timeout_of_launch (by decide) Small.transcript_refused
    (show launch? Small.copied = some ⟨copyCommand Small.parameters Small.sourcePath,
      Small.timeout, .returned Small.refused⟩ from rfl)

end Deployments

end FuzzingCiCd.Executor.SshBashDeploymentRunner
