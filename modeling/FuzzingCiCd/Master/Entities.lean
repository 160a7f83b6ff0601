import FuzzingCiCd.Foundation.Table
import FuzzingCiCd.Master.Contract
import FuzzingCiCd.Master.Status
import Mathlib.Data.List.Sort

/-!
# The master's data

What the master stores. Two parts are kept apart because they change at different times: the
*catalog* of pipeline definitions and configuration, which stays fixed while runs execute, and the
*database* of runs, executions and messages, which every operation changes.

The constraints of the schema that the orchestration rests on are fields of `Catalog`, so a
catalog with duplicate job ids or a job that allows no attempt cannot be built.

## Identifiers

`UUID.randomUUID()` is the database's next unused number. It is kept with the rows, so that an
operation that fails gives its identifiers back with everything else it did.
-/

namespace FuzzingCiCd.Master

/-! ## Definitions -/

/-- A row of `pipeline`. -/
structure PipelineEntity where
  id : UUID
  isActive : Bool
  deriving DecidableEq

/-- A row of `stage`. Stages run in the order of their positions. -/
structure StageEntity where
  id : UUID
  pipelineId : UUID
  position : ℕ
  runPolicy : StageRunPolicy
  deriving DecidableEq

/-- A row of `job`. Its condition is stored, and the builder of the graph does not read it. -/
structure JobEntity where
  id : UUID
  stageId : UUID
  jobTemplateId : Option UUID
  position : ℕ
  jobType : JobType
  params : Json
  condition : DependencyCondition
  timeoutSeconds : ℕ
  maxAttempts : ℕ
  resourceLimits : Json
  sandboxPolicy : Json
  deriving DecidableEq

/-- A row of `job_dependency`: the first job waits for the second. -/
structure JobDependencyEntity where
  jobId : UUID
  dependsOnJobId : UUID
  condition : DependencyCondition
  deriving DecidableEq

/-- A row of `job_template`. -/
structure JobTemplateEntity where
  id : UUID
  path : String
  deriving DecidableEq

/-- A row of `deployment_environment`. The configuration says whether a deployment needs an
approval. -/
structure DeploymentEnvironmentEntity where
  id : UUID
  name : String
  config : Json
  deriving DecidableEq

/-- The definitions that runs are created from, and the topics messages go to. -/
structure Catalog where
  pipelines : List PipelineEntity
  stages : List StageEntity
  jobs : List JobEntity
  dependencies : List JobDependencyEntity
  templates : List JobTemplateEntity
  environments : List DeploymentEnvironmentEntity
  /-- The configured topic of each job type. -/
  jobTopics : List (String × String)
  cancelTopic : String
  /-- Job ids are a primary key. -/
  jobs_keyed : Table.Keyed JobEntity.id jobs
  /-- Stage ids are a primary key. -/
  stages_keyed : Table.Keyed StageEntity.id stages
  /-- Every job may be attempted. -/
  maxAttempts_pos : ∀ job ∈ jobs, 0 < job.maxAttempts

namespace Catalog

variable (c : Catalog)

/-- `jobRepository.findById`. -/
def findJob (id : UUID) : Option JobEntity := Table.findById JobEntity.id id c.jobs

/-- `pipelineRepository.findByIdAndIsActive(id, true)`. -/
def findActivePipeline (id : UUID) : Option PipelineEntity :=
  c.pipelines.find? fun pipeline ↦ pipeline.id = id && pipeline.isActive

/-- `jobTemplateRepository.findById`. -/
def findTemplate (id : UUID) : Option JobTemplateEntity :=
  Table.findById JobTemplateEntity.id id c.templates

/-- `deploymentEnvironmentRepository.findByName`. -/
def findEnvironment (name : String) : Option DeploymentEnvironmentEntity :=
  Table.findById DeploymentEnvironmentEntity.name name c.environments

/-- `stageRepository.findByPipelineIdOrderByPositionAsc`. -/
def stagesOf (pipelineId : UUID) : List StageEntity :=
  (c.stages.filter fun stage ↦ stage.pipelineId = pipelineId).insertionSort
    fun a b ↦ a.position ≤ b.position

/-- `jobRepository.findByStageIdInOrderByPositionAsc`. -/
def jobsOfStages (stageIds : List UUID) : List JobEntity :=
  (c.jobs.filter fun job ↦ stageIds.contains job.stageId).insertionSort
    fun a b ↦ a.position ≤ b.position

/-- `jobDependencyRepository.findByJobIdIn`. -/
def dependenciesOf (jobIds : List UUID) : List JobDependencyEntity :=
  c.dependencies.filter fun dependency ↦ jobIds.contains dependency.jobId

variable {c}

theorem findJob_eq_some {id : UUID} {job : JobEntity} :
    c.findJob id = some job ↔ job ∈ c.jobs ∧ job.id = id :=
  Table.findById_eq_some c.jobs_keyed

end Catalog

/-! ## Rows

The entities have the columns that the services read or write. References are plain identifiers,
as in the tables, and an identifier is a number: `nextId` is the next random one. -/

/-- A row of `pipeline_run`. The status is stored and not computed from the executions. -/
structure PipelineRunEntity where
  id : UUID
  pipelineId : UUID
  status : PipelineRunStatus
  correlationId : UUID
  startedBy : Option UUID
  triggeredByType : String
  triggerPayload : Json
  startedAt : Instant
  finishedAt : Option Instant
  deriving DecidableEq

/-- A row of `job_execution`: one attempt of a job in a run. -/
structure JobExecutionEntity where
  id : UUID
  pipelineRunId : UUID
  jobId : UUID
  attempt : ℕ
  status : JobExecutionStatus
  workerId : Option String
  startedAt : Option Instant
  finishedAt : Option Instant
  durationMs : Option Int64
  result : Json
  metrics : Json
  errorType : Option String
  errorCode : Option String
  errorMessage : Option String
  errorRetryable : Option Bool
  artifactManifest : Json
  createdAt : Instant
  updatedAt : Instant
  deriving DecidableEq

namespace JobExecutionEntity

/-- `setStatus` and `setUpdatedAt`, which the services call together. -/
def setStatus (e : JobExecutionEntity) (status : JobExecutionStatus) (now : Instant) :
    JobExecutionEntity :=
  { e with status := status, updatedAt := now }

/-- `setStatus` of an execution that ends, with its end. -/
def finish (e : JobExecutionEntity) (status : JobExecutionStatus) (now : Instant) :
    JobExecutionEntity :=
  { e with status := status, finishedAt := some now, updatedAt := now }

end JobExecutionEntity

inductive ApprovalStatus where
  | pending | approved | rejected | expired | canceled
  deriving DecidableEq

/-- A row of `deployment_approval`. It is pending until somebody decides it. -/
structure DeploymentApprovalEntity where
  id : UUID
  pipelineRunId : UUID
  jobExecutionId : UUID
  environmentId : UUID
  requestedBy : Option UUID
  approvedBy : Option UUID
  status : ApprovalStatus
  createdAt : Instant
  decidedAt : Option Instant
  deriving DecidableEq

/-- A row of `cancellation_request`. -/
structure CancellationRequestEntity where
  id : UUID
  pipelineRunId : UUID
  jobExecutionId : UUID
  requestedBy : Option UUID
  reason : String
  status : String
  gracePeriodSeconds : ℕ
  requestedAt : Instant
  deriving DecidableEq

/-- The record an outbox row carries as JSON. -/
inductive OutboxPayload where
  | job (message : JobMessage)
  | cancel (command : CancelCommand)
  deriving DecidableEq

/-- A row of `outbox_event`: a message that is still to be sent, or has been. -/
structure OutboxEventEntity where
  id : UUID
  aggregateType : String
  aggregateId : UUID
  eventType : String
  schemaVersion : ℕ
  topic : String
  /-- The key is the text of this id. -/
  messageKey : UUID
  payload : OutboxPayload
  headers : Json
  status : String
  attempts : ℕ
  createdAt : Instant
  deriving DecidableEq

/-- A row of `inbox_event`. Every consumed event leaves one. -/
structure InboxEventEntity where
  id : UUID
  messageId : Option UUID
  consumerName : String
  topic : String
  messageKey : Option String
  jobExecutionId : Option UUID
  eventSource : String
  sourceDocumentId : Option String
  eventType : Option String
  schemaVersion : Int32
  processedAt : Instant
  status : String
  deriving DecidableEq

/-- A row of `artifact`. What the columns must not lack is said by the schema, not by the entity. -/
structure ArtifactEntity where
  id : UUID
  pipelineRunId : Option UUID
  jobExecutionId : Option UUID
  artifactType : Option String
  name : Option String
  uri : Option String
  sizeBytes : Option Int64
  sha256 : Option String
  metadata : Json
  retentionPolicy : String
  status : String
  checksumVerified : Bool
  createdAt : Instant
  deriving DecidableEq

/-- The rows that operations change. -/
structure Db where
  runs : List PipelineRunEntity
  executions : List JobExecutionEntity
  approvals : List DeploymentApprovalEntity
  cancellations : List CancellationRequestEntity
  outbox : List OutboxEventEntity
  inbox : List InboxEventEntity
  artifacts : List ArtifactEntity
  /-- The next random identifier. -/
  nextId : UUID
  deriving DecidableEq

namespace Db

/-- A database without rows. -/
def empty : Db where
  runs := []
  executions := []
  approvals := []
  cancellations := []
  outbox := []
  inbox := []
  artifacts := []
  nextId := 0

variable (db : Db)

/-- The database after `n` random identifiers were drawn. -/
def drawIds (n : ℕ) : Db := { db with nextId := db.nextId + n }

def findRun (id : UUID) : Option PipelineRunEntity :=
  Table.findById PipelineRunEntity.id id db.runs

def findExecution (id : UUID) : Option JobExecutionEntity :=
  Table.findById JobExecutionEntity.id id db.executions

def findApproval (id : UUID) : Option DeploymentApprovalEntity :=
  Table.findById DeploymentApprovalEntity.id id db.approvals

/-- `jobExecutionRepository.findByPipelineRunId`. -/
def findByPipelineRunId (runId : UUID) : List JobExecutionEntity :=
  db.executions.filter fun execution ↦ execution.pipelineRunId = runId

def saveRun (run : PipelineRunEntity) : Db :=
  { db with runs := Table.save PipelineRunEntity.id db.runs run }

def saveExecution (execution : JobExecutionEntity) : Db :=
  { db with executions := Table.save JobExecutionEntity.id db.executions execution }

def saveApproval (approval : DeploymentApprovalEntity) : Db :=
  { db with approvals := Table.save DeploymentApprovalEntity.id db.approvals approval }

def saveCancellation (cancel : CancellationRequestEntity) : Db :=
  { db with cancellations := Table.save CancellationRequestEntity.id db.cancellations cancel }

def saveOutboxEvent (event : OutboxEventEntity) : Db :=
  { db with outbox := Table.save OutboxEventEntity.id db.outbox event }

def saveInboxEvent (event : InboxEventEntity) : Db :=
  { db with inbox := Table.save InboxEventEntity.id db.inbox event }

def saveArtifact (artifact : ArtifactEntity) : Db :=
  { db with artifacts := Table.save ArtifactEntity.id db.artifacts artifact }

end Db

/-! ## Calls -/

/-- What a call brings along besides its arguments. -/
structure CallContext where
  now : Instant
  userId : Option UUID
  deriving DecidableEq

inductive HttpStatus where
  | badRequest | notFound
  deriving DecidableEq

/-- What a service throws. Any of them rolls the transaction back. -/
inductive ServiceException where
  | api (status : HttpStatus) (code message : String)
  | illegalArgument (message : String)
  deriving DecidableEq

/-- `findById(id).orElseThrow(..)` of the services. -/
def orNotFound {α : Type} (code message : String) : Option α → Except ServiceException α
  | none => .error (.api .notFound code message)
  | some a => .ok a

theorem orNotFound_eq_ok {α : Type} {code message : String} {o : Option α} {a : α} :
    orNotFound code message o = .ok a ↔ o = some a := by
  cases o with
  | none => simp [orNotFound]
  | some b => simp [orNotFound]

end FuzzingCiCd.Master
