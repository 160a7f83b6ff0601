import FuzzingCiCd.Master.Graph
import FuzzingCiCd.Master.Reducer
import FuzzingCiCd.Master.Sanitizer

/-!
# Runs

`PipelineRunService`: creating a run, dispatching its ready jobs, canceling and retrying it, and
the two halves of a deployment approval that touch an execution. Each method is a function from
the database to the new one, or to the exception that rolls the transaction back.

Permission checks, audit records and server-sent events read and write nothing that these methods
depend on and are left out.
-/

namespace FuzzingCiCd.Master

/-! ## Messages -/

/-- `KafkaTopicResolver.resolveJobTopic`. -/
def resolveJobTopic (c : Catalog) (jobType : JobType) : Except ServiceException String :=
  let topic := (c.jobTopics.find? fun entry ↦ entry.1 = jobType.value).map Prod.snd
  match topic with
  | none => .error (.illegalArgument ("No Kafka topic configured for job type: " ++ jobType.value))
  | some topic =>
    if JavaText.isBlank topic then
      .error (.illegalArgument ("No Kafka topic configured for job type: " ++ jobType.value))
    else .ok topic

namespace JobMessageFactory

/-- `toMap`: a masked document as a map. Only an object converts, and `null` to no map. -/
def toMap (value : Json) : Except ServiceException (Option JsonMap) :=
  match SensitiveDataSanitizer.redact value with
  | .null => .ok none
  | .obj fields => .ok (some fields)
  | _ => .error (.illegalArgument "Cannot deserialize value of type `java.util.LinkedHashMap`")

/-- `build`. The stored sandbox policy is passed where the record has its workspace policy. -/
def build (now : Instant) (messageId : UUID) (run : PipelineRunEntity) (job : JobEntity)
    (execution : JobExecutionEntity) (pipelineId stageId : UUID) (templatePath : Option String) :
    Except ServiceException JobMessage := do
  let params ← toMap job.params
  let resourceLimits ← toMap job.resourceLimits
  let workspacePolicy ← toMap job.sandboxPolicy
  return {
    schemaVersion := 1
    messageId := messageId
    correlationId := run.correlationId
    pipelineRunId := run.id
    pipelineId := pipelineId
    stageId := stageId
    jobId := job.id
    jobExecutionId := execution.id
    jobType := job.jobType.value
    templatePath := templatePath.getD (job.jobType.value ++ "/unknown-template")
    attempt := execution.attempt
    maxAttempts := job.maxAttempts
    timeoutSeconds := job.timeoutSeconds
    resourceLimits := resourceLimits
    workspacePolicy := workspacePolicy
    inputs := []
    params := params
    secrets := [("refs", .arr [])]
    createdAt := now }

end JobMessageFactory

/-- The row that `OutboxService.enqueue` builds. -/
def newOutboxEvent (now : Instant) (id : UUID) (aggregateType : String) (aggregateId : UUID)
    (eventType topic : String) (messageKey : UUID) (payload : OutboxPayload) :
    OutboxEventEntity where
  id := id
  aggregateType := aggregateType
  aggregateId := aggregateId
  eventType := eventType
  schemaVersion := 1
  topic := topic
  messageKey := messageKey
  payload := payload
  headers := .obj []
  status := "pending"
  attempts := 0
  createdAt := now

/-- `OutboxService.enqueue`. -/
def outboxEnqueue (now : Instant) (aggregateType : String) (aggregateId : UUID)
    (eventType topic : String) (messageKey : UUID) (payload : OutboxPayload) (db : Db) : Db :=
  (db.drawIds 1).saveOutboxEvent
    (newOutboxEvent now db.nextId aggregateType aggregateId eventType topic messageKey payload)

namespace PipelineRunService

/-! ## Creating executions -/

def readEnvironmentName (params : Json) : Option String :=
  match params.get? "environment" with
  | none => none
  | some .null => none
  | some node =>
    let value := Decoder.asText node
    if JavaText.isBlank value || JavaText.equalsIgnoreCase "null" value then none else some value

def resolveApprovalEnvironment (c : Catalog) (job : JobEntity) :
    Option DeploymentEnvironmentEntity :=
  if job.jobType ≠ .deploy then none else
  match readEnvironmentName job.params with
  | none => none
  | some envName =>
    match c.findEnvironment envName with
    | none => none
    | some environment =>
      let isProtected := environment.config.pathAsBoolean "protected" ||
        environment.config.pathAsBoolean "requires_approval"
      if isProtected then some environment else none

def enqueueExecution (c : Catalog) (now : Instant) (run : PipelineRunEntity) (job : JobEntity)
    (execution : JobExecutionEntity) (db : Db) : Except ServiceException Db := do
  let custom := job.jobType.value ++ "/custom"
  let templatePath := match job.jobTemplateId with
    | none => custom
    | some templateId => ((c.findTemplate templateId).map JobTemplateEntity.path).getD custom
  let message ← JobMessageFactory.build now db.nextId run job execution run.pipelineId job.stageId
    (some templatePath)
  let topic ← resolveJobTopic c job.jobType
  return outboxEnqueue now "job_execution" execution.id "job.dispatch" topic execution.id
    (.job message) (db.drawIds 1)

/-- The row that `createDeploymentApproval` builds. -/
def newApproval (now : Instant) (id : UUID) (run : PipelineRunEntity)
    (execution : JobExecutionEntity) (environmentId : UUID) : DeploymentApprovalEntity where
  id := id
  pipelineRunId := run.id
  jobExecutionId := execution.id
  environmentId := environmentId
  requestedBy := run.startedBy
  approvedBy := none
  status := .pending
  createdAt := now
  decidedAt := none

def createDeploymentApproval (now : Instant) (run : PipelineRunEntity)
    (execution : JobExecutionEntity) (environmentId : UUID) (db : Db) : Db :=
  (db.drawIds 1).saveApproval (newApproval now db.nextId run execution environmentId)

/-- The row that `createExecution` starts from. -/
def newExecution (now : Instant) (id : UUID) (run : PipelineRunEntity) (job : JobEntity)
    (attempt : ℕ) : JobExecutionEntity where
  id := id
  pipelineRunId := run.id
  jobId := job.id
  attempt := attempt
  status := .queued
  workerId := none
  startedAt := none
  finishedAt := none
  durationMs := none
  result := .obj []
  metrics := .obj []
  errorType := none
  errorCode := none
  errorMessage := none
  errorRetryable := none
  artifactManifest := .arr []
  createdAt := now
  updatedAt := now

def createExecution (c : Catalog) (now : Instant) (run : PipelineRunEntity) (job : JobEntity)
    (attempt : ℕ) (db : Db) : Except ServiceException (JobExecutionEntity × Db) := do
  let execution := newExecution now db.nextId run job attempt
  let db := (db.drawIds 1).saveExecution execution
  match resolveApprovalEnvironment c job with
  | some approvalEnvironment =>
    let execution := execution.setStatus .waitingApproval now
    let db := db.saveExecution execution
    return (execution, createDeploymentApproval now run execution approvalEnvironment.id db)
  | none =>
    let db ← enqueueExecution c now run job execution db
    return (execution, db)

/-! ## Dispatching -/

/-- One more than the greatest attempt of a job. -/
def nextAttempt (executions : List JobExecutionEntity) (jobId : UUID) : ℕ :=
  ((executions.filter fun execution ↦ execution.jobId = jobId).map
    JobExecutionEntity.attempt).foldl max 0 + 1

/-- The loop of `dispatchReadyJobs`. -/
def createReady (c : Catalog) (now : Instant) (run : PipelineRunEntity) :
    List JobEntity → List JobExecutionEntity → Db →
      Except ServiceException (List JobExecutionEntity × Db)
  | [], _, db => .ok ([], db)
  | readyJob :: readyJobs, mutableExecutions, db => do
    let attempt := nextAttempt mutableExecutions readyJob.id
    let (execution, db) ← createExecution c now run readyJob attempt db
    let (created, db) ← createReady c now run readyJobs (mutableExecutions ++ [execution]) db
    return (execution :: created, db)

def dispatchReadyJobs (c : Catalog) (now : Instant) (run : PipelineRunEntity)
    (existingExecutions : List JobExecutionEntity) (db : Db) :
    Except ServiceException (List JobExecutionEntity × Db) := do
  let readyJobs ← c.resolveReadyJobs run.pipelineId existingExecutions
  createReady c now run readyJobs existingExecutions db

def recomputeRunStatus (now : Instant) (runId : UUID) (db : Db) : Except ServiceException Db := do
  let run ← orNotFound "run_not_found" "Pipeline run not found" (db.findRun runId)
  let status := reduceRunStatus (db.findByPipelineRunId runId)
  return db.saveRun { run with
    status := status
    finishedAt := if status.isFinalStatus then some now else run.finishedAt }

/-! ## Creating a run -/

/-- The body of a request for a run. -/
structure CreatePipelineRunRequest where
  triggerType : Option String
  triggerPayload : Option Json
  deriving DecidableEq

def toObjectNode (node : Json) : Json :=
  match node with
  | .null => .obj []
  | .obj fields => .obj fields
  | value => .obj [("value", value)]

/-- The status a run gets from the executions it starts with. -/
def statusOfCreated (created : List JobExecutionEntity) : PipelineRunStatus :=
  if created.any fun execution ↦ execution.status = .waitingApproval then .waitingApproval
  else .running

/-- The row that `createRunInternal` starts from. -/
def newRun (now : Instant) (id correlationId pipelineId : UUID)
    (request : Option CreatePipelineRunRequest) (startedBy : Option UUID) :
    PipelineRunEntity where
  id := id
  pipelineId := pipelineId
  status := .queued
  correlationId := correlationId
  startedBy := startedBy
  triggeredByType := (request.bind CreatePipelineRunRequest.triggerType).getD "user"
  triggerPayload := match request.bind CreatePipelineRunRequest.triggerPayload with
    | none => .obj []
    | some triggerPayload => toObjectNode (SensitiveDataSanitizer.redact triggerPayload)
  startedAt := now
  finishedAt := none

def createRunInternal (c : Catalog) (now : Instant) (pipelineId : UUID)
    (request : Option CreatePipelineRunRequest) (startedBy : Option UUID) (db : Db) :
    Except ServiceException Db := do
  let pipeline ← orNotFound "pipeline_not_found" "Pipeline not found or inactive"
    (c.findActivePipeline pipelineId)
  let run := newRun now db.nextId (db.nextId + 1) pipeline.id request startedBy
  let (created, db) ← dispatchReadyJobs c now run [] ((db.drawIds 2).saveRun run)
  if created.isEmpty then
    return db.saveRun { run with status := .success, finishedAt := some now }
  else return db.saveRun { run with status := statusOfCreated created }

def createRun (c : Catalog) (ctx : CallContext) (pipelineId : UUID)
    (request : Option CreatePipelineRunRequest) (db : Db) : Except ServiceException Db :=
  createRunInternal c ctx.now pipelineId request ctx.userId db

def createRunBySystem (c : Catalog) (ctx : CallContext) (pipelineId : UUID)
    (triggerType : Option String) (payload : Option Json) (db : Db) : Except ServiceException Db :=
  createRunInternal c ctx.now pipelineId (some ⟨triggerType, payload⟩) none db

/-! ## Canceling -/

/-- What canceling does to one execution, alike for a run and for a single execution. -/
def requestCancellation (c : Catalog) (ctx : CallContext) (run : PipelineRunEntity) (db : Db)
    (execution : JobExecutionEntity) : Db :=
  let db := db.saveExecution (execution.setStatus .canceling ctx.now)
  let cancel : CancellationRequestEntity := {
    id := db.nextId
    pipelineRunId := run.id
    jobExecutionId := execution.id
    requestedBy := ctx.userId
    reason := "user_requested"
    status := "requested"
    gracePeriodSeconds := 30
    requestedAt := ctx.now }
  let command : CancelCommand := {
    schemaVersion := 1
    messageId := db.nextId + 1
    correlationId := run.correlationId
    pipelineRunId := run.id
    jobExecutionId := execution.id
    reason := "user_requested"
    requestedBy := ctx.userId
    gracePeriodSeconds := 30
    requestedAt := ctx.now }
  outboxEnqueue ctx.now "job_execution" execution.id "job.cancel" c.cancelTopic execution.id
    (.cancel command) ((db.drawIds 2).saveCancellation cancel)

def cancelRun (c : Catalog) (ctx : CallContext) (runId : UUID) (db : Db) :
    Except ServiceException Db := do
  let run ← orNotFound "run_not_found" "Pipeline run not found" (db.findRun runId)
  let run := { run with status := .canceling }
  let db := db.saveRun run
  let active := (db.findByPipelineRunId runId).filter fun execution ↦ execution.status.isActive
  return active.foldl (requestCancellation c ctx run) db

/-! ## Retrying -/

/-- `RetryPolicyService.canRetry`. -/
def canRetry (execution : JobExecutionEntity) (job : JobEntity) : Bool :=
  if execution.attempt ≥ job.maxAttempts then false
  else if execution.errorRetryable = some true then true
  else ErrorType.fromValue execution.errorType = some .infrastructureError

def isRetryCandidate (execution : JobExecutionEntity) (job : JobEntity) : Bool :=
  let status := execution.status
  if !(status = .failed || status = .timeout || status = .canceled || status = .skipped) then false
  else if execution.attempt ≥ job.maxAttempts then false
  else if status = .failed || status = .timeout then canRetry execution job
  else true

/-- The loop of `retryRun`. -/
def retryLatest (c : Catalog) (now : Instant) (run : PipelineRunEntity) :
    List JobExecutionEntity → Db → Except ServiceException (List JobExecutionEntity × Db)
  | [], db => .ok ([], db)
  | latest :: rest, db => do
    let job ← orNotFound "job_not_found" "Job not found" (c.findJob latest.jobId)
    if !isRetryCandidate latest job then retryLatest c now run rest db
    else do
      let db := db.saveExecution (latest.setStatus .retrying now)
      let (execution, db) ← createExecution c now run job (latest.attempt + 1) db
      let (retried, db) ← retryLatest c now run rest db
      return (execution :: retried, db)

def retryRun (c : Catalog) (ctx : CallContext) (runId : UUID) (db : Db) :
    Except ServiceException Db := do
  let run ← orNotFound "run_not_found" "Pipeline run not found" (db.findRun runId)
  let latestByJob := Latest.latestEntries JobExecutionEntity.jobId JobExecutionEntity.attempt
    (db.findByPipelineRunId runId)
  let (retried, db) ← retryLatest c ctx.now run latestByJob db
  if retried.isEmpty then return db
  else return db.saveRun { run with status := statusOfCreated retried, finishedAt := none }

def retryExecution (c : Catalog) (ctx : CallContext) (executionId : UUID) (db : Db) :
    Except ServiceException Db := do
  let latest ← orNotFound "execution_not_found" "Job execution not found"
    (db.findExecution executionId)
  let run ← orNotFound "run_not_found" "Pipeline run not found" (db.findRun latest.pipelineRunId)
  let job ← orNotFound "job_not_found" "Job not found" (c.findJob latest.jobId)
  if !isRetryCandidate latest job then
    .error (.api .badRequest "retry_not_allowed" "Execution status is not retryable")
  else do
    -- the row itself is among those of its run and job, so the maximum is never missing
    let attempt := nextAttempt (db.findByPipelineRunId run.id) job.id
    let db := db.saveExecution (latest.setStatus .retrying ctx.now)
    let (retried, db) ← createExecution c ctx.now run job attempt db
    return db.saveRun { run with status := statusOfCreated [retried], finishedAt := none }

/-! ## Approvals -/

def enqueueApprovedExecution (c : Catalog) (now : Instant) (approvalId : UUID) (db : Db) :
    Except ServiceException Db := do
  let approval ← orNotFound "approval_not_found" "Approval not found" (db.findApproval approvalId)
  if approval.status ≠ .approved then return db
  else do
    let execution ← orNotFound "execution_not_found" "Job execution not found"
      (db.findExecution approval.jobExecutionId)
    if execution.status ≠ .waitingApproval then return db
    else do
      let run ← orNotFound "run_not_found" "Pipeline run not found"
        (db.findRun execution.pipelineRunId)
      let job ← orNotFound "job_not_found" "Job not found" (c.findJob execution.jobId)
      let execution := execution.setStatus .queued now
      let db ← enqueueExecution c now run job execution (db.saveExecution execution)
      return db.saveRun { run with status := .running, finishedAt := none }

def rejectApprovalExecution (now : Instant) (approvalId : UUID) (db : Db) :
    Except ServiceException Db := do
  let approval ← orNotFound "approval_not_found" "Approval not found" (db.findApproval approvalId)
  let execution ← orNotFound "execution_not_found" "Job execution not found"
    (db.findExecution approval.jobExecutionId)
  if execution.status ≠ .waitingApproval then return db
  else do
    let db := db.saveExecution (execution.finish .skipped now)
    recomputeRunStatus now execution.pipelineRunId db

end PipelineRunService

end FuzzingCiCd.Master
