import FuzzingCiCd.Master.RunService

/-!
# Executor events

`ExecutorEventService.handle`: one event of an executor, deduplicated by the inbox, applied to its
execution and, when it ends the execution, followed by the dispatch of the jobs that became ready
and by a new status of the run.

Dead letters are only logged and storage objects are read by nothing here; both are left out.
-/

namespace FuzzingCiCd.Master

/-! ## Inbox -/

namespace InboxDeduplicationService

def isDuplicate (consumerName eventSource : String) (sourceDocumentId : Option String)
    (messageId : Option UUID) (db : Db) : Bool :=
  (messageId.isSome && db.inbox.any fun event ↦
    event.messageId = messageId && event.consumerName = consumerName) ||
  (sourceDocumentId.isSome && db.inbox.any fun event ↦
    event.eventSource = eventSource && event.sourceDocumentId = sourceDocumentId &&
      event.consumerName = consumerName)

def registerProcessed (now : Instant) (consumerName topic : String) (messageKey : Option String)
    (eventSource : String) (sourceDocumentId : Option String) (message : ExecutorEventMessage)
    (db : Db) : Db :=
  (db.drawIds 1).saveInboxEvent {
    id := db.nextId
    messageId := message.messageId
    consumerName := consumerName
    topic := topic
    messageKey := messageKey
    jobExecutionId := message.jobExecutionId
    eventSource := eventSource
    sourceDocumentId := sourceDocumentId
    eventType := message.eventType
    schemaVersion := message.schemaVersion
    processedAt := now
    status := "processed" }

end InboxDeduplicationService

/-! ## Artifacts -/

namespace ArtifactService

def registerOne (now : Instant) (pipelineRunId jobExecutionId : Option UUID) (db : Db)
    (descriptor : ArtifactDescriptor) : Db :=
  let metadata : Json := .obj (descriptor.metadata.getD [])
  match descriptor.artifactId with
  | none => (db.drawIds 1).saveArtifact (artifact metadata db.nextId)
  | some id => db.saveArtifact (artifact metadata id)
where
  artifact (metadata : Json) (id : UUID) : ArtifactEntity := {
    id := id
    pipelineRunId := pipelineRunId
    jobExecutionId := jobExecutionId
    artifactType := descriptor.type
    name := descriptor.name
    uri := descriptor.uri
    sizeBytes := descriptor.sizeBytes
    sha256 := descriptor.sha256
    metadata := metadata
    retentionPolicy := "default"
    status := "available"
    checksumVerified := false
    createdAt := now }

def register (now : Instant) (pipelineRunId jobExecutionId : Option UUID)
    (artifacts : Option (List ArtifactDescriptor)) (db : Db) : Db :=
  (artifacts.getD []).foldl (registerOne now pipelineRunId jobExecutionId) db

end ArtifactService

/-! ## Handling -/

namespace ExecutorEventService

/-- What a delivery brings along besides the message. -/
structure Delivery where
  consumerName : String
  topic : String
  messageKey : Option String
  eventSource : String
  sourceDocumentId : Option String
  deriving DecidableEq

def mapStatus (status : Option String) : Option JobExecutionStatus :=
  (ExecutorStatus.fromValue status).map ExecutorStatus.toJobExecutionStatus

/-- The execution after the event, before it is stored: the status where the transition is
allowed, and every field the message carries whether or not it is. -/
def applyEvent (now : Instant) (message : ExecutorEventMessage) (statusChanged : Bool)
    (target : Option JobExecutionStatus) (execution : JobExecutionEntity) :
    JobExecutionEntity :=
  { execution with
    status := if statusChanged then target.getD execution.status else execution.status
    workerId := message.workerId <|> execution.workerId
    startedAt := message.startedAt <|> execution.startedAt
    finishedAt := message.finishedAt <|> execution.finishedAt
    durationMs := message.durationMs <|> execution.durationMs
    metrics := (message.metrics.map Json.obj).getD execution.metrics
    errorType := match message.error with
      | none => execution.errorType
      | some error => error.type
    errorCode := match message.error with
      | none => execution.errorCode
      | some error => error.code
    errorMessage := match message.error with
      | none => execution.errorMessage
      | some error => error.message
    errorRetryable := match message.error with
      | none => execution.errorRetryable
      | some error => error.retryable
    updatedAt := now }

/-- Whether the event sets the status. An event that repeats the current status does. -/
def changesStatus (current : JobExecutionStatus) : Option JobExecutionStatus → Bool
  | none => false
  | some target => canTransition current target

/-- Whether the event sets a final status. -/
def endsExecution (message : ExecutorEventMessage) (execution : JobExecutionEntity) : Bool :=
  let target := mapStatus message.status
  changesStatus execution.status target && (target.map JobExecutionStatus.isFinalStatus).getD false

/-- The database with the event applied to its execution, its artifacts registered and its message
marked as processed. -/
def store (now : Instant) (delivery : Delivery) (message : ExecutorEventMessage)
    (execution : JobExecutionEntity) (db : Db) : Db :=
  let target := mapStatus message.status
  let statusChanged := changesStatus execution.status target
  let db := db.saveExecution (applyEvent now message statusChanged target execution)
  let db := ArtifactService.register now message.pipelineRunId message.jobExecutionId
    message.artifacts db
  InboxDeduplicationService.registerProcessed now delivery.consumerName delivery.topic
    delivery.messageKey delivery.eventSource delivery.sourceDocumentId message db

/-- What follows an event that set a final status. -/
def continueRun (c : Catalog) (now : Instant) (runId : UUID) (db : Db) :
    Except ServiceException Db :=
  match db.findRun runId with
  | none => .ok db
  | some run => do
    let (_, db) ← PipelineRunService.dispatchReadyJobs c now run (db.findByPipelineRunId run.id) db
    PipelineRunService.recomputeRunStatus now run.id db

def handle (c : Catalog) (now : Instant) (delivery : Delivery) (message : ExecutorEventMessage)
    (db : Db) : Except ServiceException Db :=
  let registerProcessed := InboxDeduplicationService.registerProcessed now delivery.consumerName
    delivery.topic delivery.messageKey delivery.eventSource delivery.sourceDocumentId message
  if InboxDeduplicationService.isDuplicate delivery.consumerName delivery.eventSource
      delivery.sourceDocumentId message.messageId db then .ok db
  else match ExecutorEventType.fromValue message.eventType with
  | none => .ok (registerProcessed db)
  | some _ =>
    match message.jobExecutionId with
    | none => .error (.illegalArgument "The given id must not be null")
    | some jobExecutionId =>
      match db.findExecution jobExecutionId with
      | none => .ok (registerProcessed db)
      | some execution =>
        let db := store now delivery message execution db
        if endsExecution message execution then continueRun c now execution.pipelineRunId db
        else .ok db

end ExecutorEventService

end FuzzingCiCd.Master
