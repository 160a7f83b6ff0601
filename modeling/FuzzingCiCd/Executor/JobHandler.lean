import FuzzingCiCd.Executor.SandboxPolicyValidator
import FuzzingCiCd.Foundation.Exec

/-!
# The job handler

`ExecutorJobHandler.handle`: one job message from its validation to its terminal event. The guard,
the workspace manager, the two publishers, the metrics and the job itself are an `Environment`,
which says for each of their calls whether it returns or what it throws. Each place that builds an
event is reached at most once in a call, so the random message id and the elapsed time are given
for each place.

The state that the method carries through `try`, `catch` and `finally` is `Progress`. It also
records what the outside sees: the events the publisher accepted and whether the code of the job
was called.
-/

namespace FuzzingCiCd.Executor

open Contracts

/-! ## Collaborators

Everything that the handler calls is a field of `Environment`, as a function of the state of the
call where the answer may depend on it. The places where events are built are told apart by
`Site`, because each event has a random message id of its own. -/

/-- What a collaborator of the handler throws. -/
inductive Failure where
  | idempotency (message : Option String)
  | exception (className : String) (message : Option String)
  /-- An `Error`, which nothing catches. -/
  | error
  deriving DecidableEq

/-- What the code of a job throws. -/
inductive Thrown where
  | job (exception : ExecutorJobException)
  | failure (failure : Failure)
  deriving DecidableEq

inductive IdempotencyDecisionType where
  | started | duplicateRunning | duplicateCompleted
  deriving DecidableEq

def IdempotencyDecisionType.name : IdempotencyDecisionType → String
  | .started => "STARTED"
  | .duplicateRunning => "DUPLICATE_RUNNING"
  | .duplicateCompleted => "DUPLICATE_COMPLETED"

/-- The answer of the guard to a request for a job, with what it knows of an earlier run. -/
structure IdempotencyDecision where
  type : IdempotencyDecisionType
  previousStatus : Option ExecutionStatus
  summary : Option String
  updatedAt : Option Instant
  metadata : JsonMap
  deriving DecidableEq

def IdempotencyDecision.shouldExecute (decision : IdempotencyDecision) : Bool :=
  decision.type = .started

/-- A result; a `null` status was replaced by `SUCCESS` on construction. -/
structure ExecutorJobResult where
  status : ExecutionStatus
  summary : Option String
  artifacts : List ArtifactDescriptor
  metrics : JsonMap
  logs : Option String
  error : Option ExecutorError
  additionalData : JsonMap
  deriving DecidableEq

/-- A place where an event is built. -/
inductive Site where
  | skipped | running | logs | artifacts | finished | failed
  deriving DecidableEq

/-- What surrounds one call of the handler. -/
structure Environment where
  workerId : String
  messageId : Site → UUID
  /-- Random identifiers do not collide. -/
  messageId_injective : Function.Injective messageId
  /-- The milliseconds since the start of the call. -/
  elapsed : Site → Int64
  instantText : Instant → String
  redact : String → String
  acquire : JobMessage → Except Failure IdempotencyDecision
  createWorkspace : JobMessage → Except Failure Unit
  execute : JobMessage → Except Thrown (Option ExecutorJobResult)
  publish : ExecutorEventMessage → Except Failure Unit
  publishLog : ExecutorEventMessage → Except Failure Unit
  /-- `metrics.jobFinished`. -/
  jobFinished : ExecutorEventMessage → Except Failure Unit
  /-- `idempotencyClaim.complete`. -/
  complete : ExecutorEventMessage → Except Failure Unit
  cleanup : Bool → Except Failure Unit
  /-- `idempotencyClaim.close`. -/
  close : Except Failure Unit

/-- A number for each place. -/
def Site.number : Site → ℕ
  | .skipped => 0
  | .running => 1
  | .logs => 2
  | .artifacts => 3
  | .finished => 4
  | .failed => 5

theorem Site.number_injective : Function.Injective Site.number := by
  intro a b h
  cases a <;> cases b <;> first | rfl | exact absurd h (by decide)

/-- Surroundings in which every collaborator does its part, around the given code of the job. -/
def Environment.smooth (execute : JobMessage → Except Thrown (Option ExecutorJobResult)) :
    Environment where
  workerId := "executor-worker"
  messageId := Site.number
  messageId_injective := Site.number_injective
  elapsed _ := 0
  instantText _ := ""
  redact text := text
  acquire _ := .ok ⟨.started, none, none, none, []⟩
  createWorkspace _ := .ok ()
  execute := execute
  publish _ := .ok ()
  publishLog _ := .ok ()
  jobFinished _ := .ok ()
  complete _ := .ok ()
  cleanup _ := .ok ()
  close := .ok ()

/-- How far a call of the handler has come, as its local variables tell the `finally` block. -/
structure Progress where
  published : List ExecutorEventMessage
  executed : Bool
  claimed : Bool
  workspace : Bool
  cleanupStatus : ExecutionStatus

/-- The start of a call. -/
def Progress.initial : Progress where
  published := []
  executed := false
  claimed := false
  workspace := false
  cleanupStatus := .failed

/-- A step of the handler. -/
abbrev Step (α : Type) := Exec Progress Thrown α

namespace ExecutorJobHandler

/-! ## Validation -/

def validate (job : JobMessage) : Except ExecutorJobException Unit :=
  if job.schemaVersion ≠ 1 then
    .error (.validation ("Неподдерживаемая версия job message: " ++
      toString job.schemaVersion.toInt))
  else if job.jobExecutionId = none then
    .error (.validation "Не задан обязательный jobExecutionId")
  else if job.jobType = none then .error (.validation "Не задан обязательный jobType")
  else if (job.templatePath.map JavaText.isBlank).getD true then
    .error (.validation "Не задан обязательный templatePath")
  else if job.attempt.toInt < 1 then
    .error (.validation "Номер попытки job должен быть положительным")
  else if job.timeoutSeconds.toInt < 1 then
    .error (.validation "Timeout job должен быть положительным")
  else SandboxPolicyValidator.validate job.sandboxPolicy

/-! ## Events -/

section Events

variable (env : Environment) (job : JobMessage)

/-- `event`: the fields of the job with those of the event. -/
def event (site : Site) (eventType : EventType) (status : ExecutionStatus)
    (durationMs : Option Int64) (artifacts : List ArtifactDescriptor) (metrics : JsonMap)
    (summary : Option String) (error : Option ExecutorError) (logs : Option String)
    (additionalData : JsonMap) : ExecutorEventMessage where
  schemaVersion := job.schemaVersion
  messageId := env.messageId site
  correlationId := job.correlationId
  pipelineRunId := job.pipelineRunId
  pipelineId := job.pipelineId
  stageId := job.stageId
  jobId := job.jobId
  jobExecutionId := job.jobExecutionId
  jobType := job.jobType
  templatePath := job.templatePath
  eventType := eventType
  status := status
  attempt := job.attempt
  workerId := env.workerId
  durationMs := durationMs
  artifacts := artifacts
  metrics := metrics
  summary := summary
  error := error
  logs := logs
  additionalData := additionalData

def duplicateMetadata (decision : IdempotencyDecision) : JsonMap :=
  let metadata : JsonMap :=
    [("idempotentDuplicate", .bool true), ("decisionType", .str decision.type.name)]
  let metadata := match decision.previousStatus with
    | none => metadata
    | some status => Json.put metadata "previousStatus" (.str status.wireValue)
  let metadata := match decision.updatedAt with
    | none => metadata
    | some updatedAt => Json.put metadata "updatedAt" (.str (env.instantText updatedAt))
  decision.metadata.foldl (fun metadata entry ↦ Json.put metadata entry.1 entry.2) metadata

def skippedDuplicateEvent (decision : IdempotencyDecision) : ExecutorEventMessage :=
  event env job .skipped .jobSkipped .skipped (some (env.elapsed .skipped)) [] []
    decision.summary none none (duplicateMetadata env decision)

def runningEvent : ExecutorEventMessage :=
  event env job .running .jobRunning .running none [] []
    (some "Job принят executor-ом и запущен") none none []

/-- `countLines`: the pieces between line breaks. -/
def countLines (text : String) : ℕ :=
  if text.isEmpty then 0 else JavaText.lineBreaks text.toList + 1

/-- The event that `publishLogs` hands to the log publisher. -/
def logEvent (logs : String) : ExecutorEventMessage :=
  let redactedLogs := env.redact logs
  event env job .logs .jobLog .running (some (env.elapsed .logs)) []
    [("lines", .num (.int (countLines redactedLogs))),
     ("bytes", .num (.int redactedLogs.utf8ByteSize))]
    (some "Логи job опубликованы") none (some redactedLogs) [("logOnly", .bool true)]

def artifactsEvent (result : ExecutorJobResult) : ExecutorEventMessage :=
  event env job .artifacts .jobArtifact .running (some (env.elapsed .artifacts)) result.artifacts
    result.metrics (some "Артефакты job опубликованы") none none result.additionalData

def finishedEvent (result : ExecutorJobResult) : ExecutorEventMessage :=
  event env job .finished .jobFinished result.status (some (env.elapsed .finished))
    result.artifacts result.metrics result.summary result.error none result.additionalData

def failedEvent (exception : ExecutorJobException) : ExecutorEventMessage :=
  event env job .failed .jobFinished exception.status (some (env.elapsed .failed)) [] []
    exception.message
    (some
      { type := some exception.errorType
        code := some exception.code
        message := exception.message
        details := exception.details
        metadata := exception.metadata })
    none []

end Events

/-! ## Handling

The method in its own order, one definition for each part: the body of the `try`, the `catch`
branches and the `finally` block. What the collaborators answer is a function of what has
happened so far, so nothing is assumed of them. -/

section Handling

variable (env : Environment) (job : JobMessage)

/-- A call of a collaborator. -/
def call {α : Type} (outcome : Except Failure α) : Step α :=
  Exec.ofExcept (outcome.mapError Thrown.failure)

def publishEvent (message : ExecutorEventMessage) : Step Unit := do
  call (env.publish message)
  Exec.modify fun progress ↦ { progress with published := progress.published ++ [message] }

/-- What `requireResult` throws for a missing result. -/
def emptyResult : ExecutorJobException :=
  .create .unknown (some "executor.job.empty-result") (some "Executor вернул пустой результат job")
    none [] .failed

/-- The code of the job, with `requireResult`. -/
def execute : Step ExecutorJobResult := do
  Exec.modify fun progress ↦ { progress with executed := true }
  let result ← Exec.ofExcept (env.execute job)
  match result with
  | none => Exec.throw (.job emptyResult)
  | some result => return result

def publishLogs (result : ExecutorJobResult) : Step Unit :=
  match result.logs with
  | none => return ()
  | some logs =>
    if JavaText.isBlank logs then return ()
    else call (env.publishLog (logEvent env job logs))

def publishArtifacts (result : ExecutorJobResult) : Step Unit :=
  if result.artifacts.isEmpty then return ()
  else publishEvent env (artifactsEvent env job result)

/-- A call that is made only in some states. -/
def callIf (test : Progress → Bool) (outcome : Progress → Except Failure Unit) : Step Unit := do
  let progress ← Exec.get
  if test progress then call (outcome progress) else return ()

def completeIdempotencyClaim (message : ExecutorEventMessage) : Step Unit :=
  callIf Progress.claimed fun _ ↦ env.complete message

def setCleanupStatus (status : ExecutionStatus) : Step Unit :=
  Exec.modify fun progress ↦ { progress with cleanupStatus := status }

/-- What the `catch` branches have in common: the failure is published and counted. -/
def publishFailure (exception : ExecutorJobException) : Step ExecutorEventMessage := do
  publishEvent env (failedEvent env job exception)
  call (env.jobFinished (failedEvent env job exception))
  return failedEvent env job exception

/-- The body of the `try` for a job that the guard knows already. -/
def skipDuplicate (decision : IdempotencyDecision) : Step ExecutorEventMessage := do
  publishEvent env (skippedDuplicateEvent env job decision)
  call (env.jobFinished (skippedDuplicateEvent env job decision))
  setCleanupStatus .skipped
  return skippedDuplicateEvent env job decision

/-- The part of the body between the event `JOB_RUNNING` and the terminal one. -/
def serve : Step ExecutorJobResult := do
  let result ← execute env job
  publishLogs env job result
  publishArtifacts env job result
  return result

/-- The end of the body. -/
def conclude (result : ExecutorJobResult) : Step ExecutorEventMessage := do
  publishEvent env (finishedEvent env job result)
  call (env.jobFinished (finishedEvent env job result))
  completeIdempotencyClaim env (finishedEvent env job result)
  setCleanupStatus result.status
  return finishedEvent env job result

/-- The body of the `try`. -/
def body : Step ExecutorEventMessage := do
  Exec.ofExcept ((validate job).mapError Thrown.job)
  let decision ← call (env.acquire job)
  Exec.modify fun progress ↦ { progress with claimed := true }
  if !decision.shouldExecute then skipDuplicate env job decision
  else
    call (env.createWorkspace job)
    Exec.modify fun progress ↦ { progress with workspace := true }
    publishEvent env (runningEvent env job)
    let result ← serve env job
    conclude env job result

/-- The exception that reports a failing idempotency guard. -/
def idempotencyFailure (message : Option String) : ExecutorJobException :=
  .create .infrastructureError (some "executor.job.idempotency")
    (some "Executor не смог проверить idempotency marker job") message
    [("exceptionClass",
      .str "ru.diplom.cicd.executor.core.idempotency.IdempotencyException")] .failed

/-- The exception that reports any other exception. -/
def unexpectedFailure (className : String) (message : Option String) : ExecutorJobException :=
  .create .unknown (some "executor.job.unexpected")
    (some "Executor завершил job с непредвиденной ошибкой") message
    [("exceptionClass", .str className)] .failed

/-- The `catch` branches. -/
def handleThrown : Thrown → Step ExecutorEventMessage
  | .job exception =>
    if job.jobExecutionId = none then Exec.throw (.job exception)
    else do
      let failedEvent ← publishFailure env job exception
      completeIdempotencyClaim env failedEvent
      setCleanupStatus exception.status
      return failedEvent
  | .failure (.idempotency message) => do
    let failedEvent ← publishFailure env job (idempotencyFailure message)
    setCleanupStatus .failed
    return failedEvent
  | .failure (.exception className message) => do
    let failedEvent ← publishFailure env job (unexpectedFailure className message)
    completeIdempotencyClaim env failedEvent
    return failedEvent
  | .failure .error => Exec.throw (.failure .error)

def shouldPreserveAsFailure (status : ExecutionStatus) : Bool :=
  status ≠ .success && status ≠ .skipped

/-- The `finally` block. -/
def release : Step Unit := do
  callIf Progress.workspace fun progress ↦
    env.cleanup (shouldPreserveAsFailure progress.cleanupStatus)
  callIf Progress.claimed fun _ ↦ env.close

/-- `handle`. -/
def handle : Step ExecutorEventMessage :=
  Exec.ensure (Exec.recover (body env job) (handleThrown env job)) (release env)

end Handling

end ExecutorJobHandler

end FuzzingCiCd.Executor
