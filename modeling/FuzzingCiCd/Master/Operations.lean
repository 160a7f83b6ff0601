import FuzzingCiCd.Foundation.Transition
import FuzzingCiCd.Master.EventService

/-!
# The operations of the master

The remaining services that change executions, and all operations together as one transactional
step function. A *history* is a list of calls; a database is reachable when some history leads to
it from the empty one. Operations run one at a time.
-/

namespace FuzzingCiCd.Master

/-! ## Single executions -/

/-- `JobExecutionService.cancel`. -/
def JobExecutionService.cancel (c : Catalog) (ctx : CallContext) (executionId : UUID) (db : Db) :
    Except ServiceException Db := do
  let execution ← orNotFound "execution_not_found" "Job execution not found"
    (db.findExecution executionId)
  let run ← orNotFound "run_not_found" "Pipeline run not found" (db.findRun execution.pipelineRunId)
  if execution.status = .success || execution.status = .failed || execution.status = .timeout ||
      execution.status = .canceled || execution.status = .skipped then return db
  else return PipelineRunService.requestCancellation c ctx run db execution

/-! ## Approvals -/

namespace DeploymentApprovalService

/-- The decision that `approve` and `reject` record before they act on it. -/
def decide (status : ApprovalStatus) (ctx : CallContext) (approvalId : UUID) (db : Db) :
    Except ServiceException Db := do
  let approval ← orNotFound "approval_not_found" "Approval not found" (db.findApproval approvalId)
  if approval.status ≠ .pending then
    .error (.api .badRequest "approval_not_pending" "Approval is already decided")
  else return db.saveApproval { approval with
    status := status
    approvedBy := ctx.userId
    decidedAt := some ctx.now }

def approve (c : Catalog) (ctx : CallContext) (approvalId : UUID) (db : Db) :
    Except ServiceException Db := do
  let db ← decide .approved ctx approvalId db
  PipelineRunService.enqueueApprovedExecution c ctx.now approvalId db

def reject (ctx : CallContext) (approvalId : UUID) (db : Db) : Except ServiceException Db := do
  let db ← decide .rejected ctx approvalId db
  PipelineRunService.rejectApprovalExecution ctx.now approvalId db

end DeploymentApprovalService

/-! ## Timeouts -/

namespace TimeoutWatchdog

/-- Whether a running execution is past the duration recorded with it, in whole seconds. -/
def isExpired (now : Instant) (execution : JobExecutionEntity) : Bool :=
  match execution.startedAt, execution.durationMs with
  | some startedAt, some durationMs =>
    let elapsed := (now - startedAt) / 1000000
    elapsed > durationMs.toInt.tdiv 1000
  | _, _ => false

def checkTimeouts (now : Instant) (db : Db) : Db :=
  let running := db.executions.filter fun execution ↦ execution.status = .running
  running.foldl (fun db execution ↦
    if isExpired now execution then db.saveExecution (execution.finish .timeout now) else db) db

end TimeoutWatchdog

/-! ## Histories -/

inductive Operation where
  | createRun (pipelineId : UUID) (request : Option PipelineRunService.CreatePipelineRunRequest)
  | createRunBySystem (pipelineId : UUID) (triggerType : Option String) (payload : Option Json)
  | executorEvent (delivery : ExecutorEventService.Delivery) (message : ExecutorEventMessage)
  | cancelRun (runId : UUID)
  | cancelExecution (executionId : UUID)
  | retryRun (runId : UUID)
  | retryExecution (executionId : UUID)
  | approve (approvalId : UUID)
  | reject (approvalId : UUID)
  | checkTimeouts
  deriving DecidableEq

/-- An operation with what the call finds outside of the database. -/
structure Call where
  context : CallContext
  operation : Operation
  deriving DecidableEq

/-- One operation as a transaction. -/
def step (c : Catalog) (call : Call) (db : Db) : Except ServiceException Db :=
  let ctx := call.context
  match call.operation with
  | .createRun pipelineId request => PipelineRunService.createRun c ctx pipelineId request db
  | .createRunBySystem pipelineId triggerType payload =>
    PipelineRunService.createRunBySystem c ctx pipelineId triggerType payload db
  | .executorEvent delivery message => ExecutorEventService.handle c ctx.now delivery message db
  | .cancelRun runId => PipelineRunService.cancelRun c ctx runId db
  | .cancelExecution executionId => JobExecutionService.cancel c ctx executionId db
  | .retryRun runId => PipelineRunService.retryRun c ctx runId db
  | .retryExecution executionId => PipelineRunService.retryExecution c ctx executionId db
  | .approve approvalId => DeploymentApprovalService.approve c ctx approvalId db
  | .reject approvalId => DeploymentApprovalService.reject ctx approvalId db
  | .checkTimeouts => .ok (TimeoutWatchdog.checkTimeouts ctx.now db)

/-- The database at the end of a history. -/
abbrev history (c : Catalog) (calls : List Call) : Db :=
  Transition.replay (step c) Db.empty calls

/-- Some history leads to the database. -/
def Reachable (c : Catalog) (db : Db) : Prop := ∃ calls, db = history c calls

/-! ## Small pipelines

Counterexamples run on pipelines with one stage and one or two jobs, driven by calls at time zero
and by events that only say what they must. -/

namespace Small

/-- A build job that may be attempted three times. -/
def job (id position : ℕ) : JobEntity where
  id := id
  stageId := 1
  jobTemplateId := none
  position := position
  jobType := .build
  params := .null
  condition := .onSuccess
  timeoutSeconds := 60
  maxAttempts := 3
  resourceLimits := .null
  sandboxPolicy := .null

/-- A deployment to the protected environment. -/
def deployment (id position : ℕ) : JobEntity :=
  { job id position with jobType := .deploy, params := .obj [("environment", .str "production")] }

/-- The pipeline with these jobs in one parallel stage. -/
def pipeline (jobs : List JobEntity) (dependencies : List JobDependencyEntity)
    (hkeyed : Table.Keyed JobEntity.id jobs) (hpos : ∀ job ∈ jobs, 0 < job.maxAttempts) :
    Catalog where
  pipelines := [⟨0, true⟩]
  stages := [⟨1, 0, 0, .parallel⟩]
  jobs := jobs
  dependencies := dependencies
  templates := []
  environments := [⟨4, "production", .obj [("protected", .bool true)]⟩]
  jobTopics := [("build", "jobs.build"), ("deploy", "jobs.deploy")]
  cancelTopic := "jobs.cancel"
  jobs_keyed := hkeyed
  stages_keyed := by decide
  maxAttempts_pos := hpos

/-- One job. -/
def solo : Catalog := pipeline [job 2 0] [] (by decide) (by decide)

/-- Two independent jobs. -/
def twins : Catalog := pipeline [job 2 0, job 3 1] [] (by decide) (by decide)

/-- A job and its successor. -/
def chain (condition : DependencyCondition) : Catalog :=
  pipeline [job 2 0, job 3 1] [⟨3, 2, condition⟩] (by decide) (by decide)

/-- A deployment that needs an approval and a job that always follows it. -/
def guarded : Catalog :=
  pipeline [deployment 2 0, job 3 1] [⟨3, 2, .always⟩] (by decide) (by decide)

def call (operation : Operation) : Call := ⟨⟨0, none⟩, operation⟩

/-- The type of the event that reports a status. -/
def eventType (status : ExecutorStatus) : ExecutorEventType :=
  if status.toJobExecutionStatus.isFinalStatus then .jobFinished else .jobRunning

/-- The event that reports a status of an execution. -/
def message (messageId executionId : UUID) (status : ExecutorStatus) : ExecutorEventMessage where
  schemaVersion := 1
  messageId := some messageId
  correlationId := none
  pipelineRunId := none
  pipelineId := none
  stageId := none
  jobId := none
  jobExecutionId := some executionId
  jobType := none
  templatePath := none
  eventType := some (eventType status).name
  status := some status.name
  attempt := 1
  workerId := none
  startedAt := some 0
  finishedAt := none
  durationMs := some 0
  artifacts := none
  metrics := none
  summary := none
  error := none
  logs := none
  additionalData := none

/-- The event that reports an infrastructure error, which may be retried. -/
def failure (messageId executionId : UUID) : ExecutorEventMessage :=
  { message messageId executionId .failed with
    error := some
      { code := none
        type := some ErrorType.infrastructureError.value
        retryable := none
        message := none
        details := none } }

/-- A delivery by the consumer of results. -/
def results : ExecutorEventService.Delivery :=
  ⟨"kafka-results-consumer", "jobs.results", none, "kafka", none⟩

/-- The delivery of an event by the consumer of results. -/
def deliver (message : ExecutorEventMessage) : Call :=
  call (.executorEvent ⟨"kafka-results-consumer", "jobs.results", none, "kafka", none⟩ message)

end Small

end FuzzingCiCd.Master
