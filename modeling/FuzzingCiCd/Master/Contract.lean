import FuzzingCiCd.Contracts.Messages

/-!
# The master's side of the messages

The records of the master's `contract` package: what it writes to the job and cancel topics and
what it reads from executors. They were written independently of the executor contract and agree
with it only where the property names and kinds happen to be the same.
-/

namespace FuzzingCiCd.Master

/-! ## Written by the master -/

/-- The request for an execution as the master sends it. -/
structure JobMessage where
  schemaVersion : ℕ
  messageId : UUID
  correlationId : UUID
  pipelineRunId : UUID
  pipelineId : UUID
  stageId : UUID
  jobId : UUID
  jobExecutionId : UUID
  jobType : String
  templatePath : String
  attempt : ℕ
  maxAttempts : ℕ
  timeoutSeconds : ℕ
  resourceLimits : Option JsonMap
  workspacePolicy : Option JsonMap
  inputs : JsonMap
  params : Option JsonMap
  secrets : JsonMap
  createdAt : Instant
  deriving DecidableEq

/-- The request to stop an execution. -/
structure CancelCommand where
  schemaVersion : ℕ
  messageId : UUID
  correlationId : UUID
  pipelineRunId : UUID
  jobExecutionId : UUID
  reason : String
  /-- The user, or `none` for the text `unknown`. -/
  requestedBy : Option UUID
  gracePeriodSeconds : ℕ
  requestedAt : Instant
  deriving DecidableEq

section Encoding

variable (uuid : TextCodec UUID) (instant : TextCodec Instant)

/-- A Java `int` of a message. -/
def intJson (n : ℕ) : Json := .num (.int n)

def JobMessage.toJson (m : JobMessage) : Json :=
  .obj
    [("schemaVersion", intJson m.schemaVersion),
     ("messageId", .str (uuid.format m.messageId)),
     ("correlationId", .str (uuid.format m.correlationId)),
     ("pipelineRunId", .str (uuid.format m.pipelineRunId)),
     ("pipelineId", .str (uuid.format m.pipelineId)),
     ("stageId", .str (uuid.format m.stageId)),
     ("jobId", .str (uuid.format m.jobId)),
     ("jobExecutionId", .str (uuid.format m.jobExecutionId)),
     ("jobType", .str m.jobType),
     ("templatePath", .str m.templatePath),
     ("attempt", intJson m.attempt),
     ("maxAttempts", intJson m.maxAttempts),
     ("timeoutSeconds", intJson m.timeoutSeconds),
     ("resourceLimits", Json.ofOption .obj m.resourceLimits),
     ("workspacePolicy", Json.ofOption .obj m.workspacePolicy),
     ("inputs", .obj m.inputs),
     ("params", Json.ofOption .obj m.params),
     ("secrets", .obj m.secrets),
     ("createdAt", .str (instant.format m.createdAt))]

end Encoding

/-! ## Read by the master -/

/-- An artifact of an event as the master reads it. The names of the type and of the checksum differ
from those that the executors write. -/
structure ArtifactDescriptor where
  artifactId : Option UUID
  type : Option String
  name : Option String
  uri : Option String
  sizeBytes : Option Int64
  sha256 : Option String
  metadata : Option JsonMap
  deriving DecidableEq

/-- The error of an event as the master reads it. Its details are an object here. -/
structure ExecutorError where
  code : Option String
  type : Option String
  retryable : Option Bool
  message : Option String
  details : Option JsonMap
  deriving DecidableEq

/-- An event as the master reads it. Every part may be absent, and numbers that are absent are
zero. -/
structure ExecutorEventMessage where
  schemaVersion : Int32
  messageId : Option UUID
  correlationId : Option UUID
  pipelineRunId : Option UUID
  pipelineId : Option UUID
  stageId : Option UUID
  jobId : Option UUID
  jobExecutionId : Option UUID
  jobType : Option String
  templatePath : Option String
  eventType : Option String
  status : Option String
  attempt : Int32
  workerId : Option String
  startedAt : Option Instant
  finishedAt : Option Instant
  durationMs : Option Int64
  artifacts : Option (List ArtifactDescriptor)
  metrics : Option JsonMap
  summary : Option String
  error : Option ExecutorError
  logs : Option String
  additionalData : Option JsonMap
  deriving DecidableEq

section Decoding

open Decoder

variable (uuid : TextCodec UUID) (instant : TextCodec Instant)

def ArtifactDescriptor.decode (j : Json) : Except MismatchedInput ArtifactDescriptor := do
  let fields ← map j
  let artifactId ← nullable (text uuid) (Json.property fields "artifactId")
  let type ← nullable string (Json.property fields "type")
  let name ← nullable string (Json.property fields "name")
  let uri ← nullable string (Json.property fields "uri")
  let sizeBytes ← boxedInt64 (Json.property fields "sizeBytes")
  let sha256 ← nullable string (Json.property fields "sha256")
  let metadata ← nullable map (Json.property fields "metadata")
  return { artifactId, type, name, uri, sizeBytes, sha256, metadata }

def ExecutorError.decode (j : Json) : Except MismatchedInput ExecutorError := do
  let fields ← map j
  let code ← nullable string (Json.property fields "code")
  let type ← nullable string (Json.property fields "type")
  let retryable ← boolean (Json.property fields "retryable")
  let message ← nullable string (Json.property fields "message")
  let details ← nullable map (Json.property fields "details")
  return { code, type, retryable, message, details }

def ExecutorEventMessage.decode (j : Json) : Except MismatchedInput ExecutorEventMessage := do
  let fields ← map j
  let schemaVersion ← int32 (Json.property fields "schemaVersion")
  let messageId ← nullable (text uuid) (Json.property fields "messageId")
  let correlationId ← nullable (text uuid) (Json.property fields "correlationId")
  let pipelineRunId ← nullable (text uuid) (Json.property fields "pipelineRunId")
  let pipelineId ← nullable (text uuid) (Json.property fields "pipelineId")
  let stageId ← nullable (text uuid) (Json.property fields "stageId")
  let jobId ← nullable (text uuid) (Json.property fields "jobId")
  let jobExecutionId ← nullable (text uuid) (Json.property fields "jobExecutionId")
  let jobType ← nullable string (Json.property fields "jobType")
  let templatePath ← nullable string (Json.property fields "templatePath")
  let eventType ← nullable string (Json.property fields "eventType")
  let status ← nullable string (Json.property fields "status")
  let attempt ← int32 (Json.property fields "attempt")
  let workerId ← nullable string (Json.property fields "workerId")
  let startedAt ← nullable (text instant) (Json.property fields "startedAt")
  let finishedAt ← nullable (text instant) (Json.property fields "finishedAt")
  let durationMs ← boxedInt64 (Json.property fields "durationMs")
  let artifacts ← nullable (list (ArtifactDescriptor.decode uuid))
    (Json.property fields "artifacts")
  let metrics ← nullable map (Json.property fields "metrics")
  let summary ← nullable string (Json.property fields "summary")
  let error ← nullable ExecutorError.decode (Json.property fields "error")
  let logs ← nullable string (Json.property fields "logs")
  let additionalData ← nullable map (Json.property fields "additionalData")
  return { schemaVersion, messageId, correlationId, pipelineRunId, pipelineId, stageId, jobId,
           jobExecutionId, jobType, templatePath, eventType, status, attempt, workerId, startedAt,
           finishedAt, durationMs, artifacts, metrics, summary, error, logs, additionalData }

end Decoding

end FuzzingCiCd.Master
