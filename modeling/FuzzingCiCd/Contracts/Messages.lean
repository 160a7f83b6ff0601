import FuzzingCiCd.Foundation.Json

/-!
# The executor contract

The records of `cicd-contracts`: what an executor receives from Kafka and what it publishes, with
the JSON names of their components. A component that the record normalizes on construction is
stored normalized, so a `null` list or map is the empty one.

`UUID` values are opaque to the services; they are compared, copied and written as text. A random
one never collides with another, which a natural number models and a 128-bit word would not.
Timestamps count microseconds of the epoch.

## Representation

An enumeration of the contract is an inductive type, with the text that Jackson writes for it. What
a record takes over as it is stays optional here, since a JSON text can always leave it out; what
its compact constructor fills in is not. `ExecutorEventMessage.toJson` and `JobMessage.decode` are
the two directions that the executor uses.
-/

namespace FuzzingCiCd

abbrev UUID := ℕ

abbrev Instant := ℤ

namespace Contracts

/-! ## Enumerations -/

inductive EventType where
  | jobAccepted | jobRunning | jobProgress | jobArtifact | jobLog | jobFinished | jobSkipped
  | jobCanceled | jobHeartbeat
  deriving DecidableEq

def EventType.wireValue : EventType → String
  | .jobAccepted => "JOB_ACCEPTED"
  | .jobRunning => "JOB_RUNNING"
  | .jobProgress => "JOB_PROGRESS"
  | .jobArtifact => "JOB_ARTIFACT"
  | .jobLog => "JOB_LOG"
  | .jobFinished => "JOB_FINISHED"
  | .jobSkipped => "JOB_SKIPPED"
  | .jobCanceled => "JOB_CANCELED"
  | .jobHeartbeat => "JOB_HEARTBEAT"

inductive ExecutionStatus where
  | queued | running | success | failed | timeout | canceling | canceled | retrying | skipped
  | waitingApproval
  deriving DecidableEq

def ExecutionStatus.wireValue : ExecutionStatus → String
  | .queued => "QUEUED"
  | .running => "RUNNING"
  | .success => "SUCCESS"
  | .failed => "FAILED"
  | .timeout => "TIMEOUT"
  | .canceling => "CANCELING"
  | .canceled => "CANCELED"
  | .retrying => "RETRYING"
  | .skipped => "SKIPPED"
  | .waitingApproval => "WAITING_APPROVAL"

inductive ErrorType where
  | validationError | userCodeError | infrastructureError | timeout | canceled | securityError
  | fuzzingCrashFound | cancelFailed | unknown
  deriving DecidableEq

def ErrorType.wireValue : ErrorType → String
  | .validationError => "validation_error"
  | .userCodeError => "user_code_error"
  | .infrastructureError => "infrastructure_error"
  | .timeout => "timeout"
  | .canceled => "canceled"
  | .securityError => "security_error"
  | .fuzzingCrashFound => "fuzzing_crash_found"
  | .cancelFailed => "cancel_failed"
  | .unknown => "unknown"

inductive JobType where
  | vcs | storage | build | fuzzing | deploy | script
  deriving DecidableEq

namespace JobType

def values : List JobType := [.vcs, .storage, .build, .fuzzing, .deploy, .script]

def wireValue : JobType → String
  | .vcs => "vcs"
  | .storage => "storage"
  | .build => "build"
  | .fuzzing => "fuzzing"
  | .deploy => "deploy"
  | .script => "script"

def fromWireValue (wireValue : String) : Option JobType :=
  values.find? fun value ↦ value.wireValue = wireValue

end JobType

/-! ## Events -/

/-- An artifact that an executor announces: where it is stored, what kind it is and its checksum. -/
structure ArtifactDescriptor where
  artifactId : Option UUID
  artifactType : Option String
  name : Option String
  uri : Option String
  contentType : Option String
  sizeBytes : Option Int64
  checksumSha256 : Option String
  metadata : JsonMap
  deriving DecidableEq

/-- What went wrong in a job, as it is sent to the master. -/
structure ExecutorError where
  type : Option ErrorType
  code : Option String
  message : Option String
  details : Option String
  metadata : JsonMap
  deriving DecidableEq

/-- An event of a job. The executor publishes it, and the master reads it from the index. -/
structure ExecutorEventMessage where
  schemaVersion : Int32
  messageId : UUID
  correlationId : Option UUID
  pipelineRunId : Option UUID
  pipelineId : Option UUID
  stageId : Option UUID
  jobId : Option UUID
  jobExecutionId : Option UUID
  jobType : Option JobType
  templatePath : Option String
  eventType : EventType
  status : ExecutionStatus
  attempt : Int32
  workerId : String
  durationMs : Option Int64
  artifacts : List ArtifactDescriptor
  metrics : JsonMap
  summary : Option String
  error : Option ExecutorError
  logs : Option String
  additionalData : JsonMap
  deriving DecidableEq

/-! ## Jobs -/

/-- The limits that the tools of a job run under. -/
structure ResourceLimits where
  cpuMillis : Option Int32
  memoryBytes : Option Int64
  diskBytes : Option Int64
  maxProcesses : Option Int32
  additionalLimits : JsonMap
  deriving DecidableEq

def ResourceLimits.empty : ResourceLimits where
  cpuMillis := none
  memoryBytes := none
  diskBytes := none
  maxProcesses := none
  additionalLimits := []

/-- When the workspace of a job is deleted. The text is the one of the message and need not be a
policy that the manager of the workspaces knows. -/
structure WorkspacePolicy where
  cleanup : Option String
  preserveOnFailure : Bool
  deriving DecidableEq

/-- What a job asks of its sandbox. A field that is absent asks for nothing, and the lists may hold
empty elements. -/
structure SandboxPolicy where
  privileged : Option Bool
  hostNetwork : Option Bool
  runAsNonRoot : Option Bool
  allowPrivilegeEscalation : Option Bool
  readOnlyRootFilesystem : Option Bool
  capabilitiesAdd : List (Option String)
  capabilitiesDrop : List (Option String)
  seccompProfileType : Option String
  networkPolicy : Option String
  egressAllowlist : List (Option String)
  hostPaths : List (Option String)
  dockerSocketMount : Option Bool
  additionalData : JsonMap
  deriving DecidableEq

/-- The request for an execution as the executor reads it. The reader makes up for what is missing,
so the parts that may be absent here have to be checked. -/
structure JobMessage where
  schemaVersion : Int32
  messageId : Option UUID
  correlationId : Option UUID
  pipelineRunId : Option UUID
  pipelineId : Option UUID
  stageId : Option UUID
  jobId : Option UUID
  jobExecutionId : Option UUID
  jobType : Option JobType
  templatePath : Option String
  attempt : Int32
  maxAttempts : Int32
  timeoutSeconds : Int64
  resourceLimits : ResourceLimits
  workspacePolicy : Option WorkspacePolicy
  sandboxPolicy : Option SandboxPolicy
  inputs : JsonMap
  params : JsonMap
  secrets : JsonMap
  createdAt : Option Instant
  deriving DecidableEq

/-! ## Encoding events -/

section Encoding

variable (uuid : TextCodec UUID)

/-- A nullable identifier. -/
def uuidJson : Option UUID → Json := Json.ofOption fun u ↦ .str (uuid.format u)

/-- A nullable text. -/
def textJson : Option String → Json := Json.ofOption .str

/-- A nullable `Long`. -/
def longJson : Option Int64 → Json := Json.ofOption fun n ↦ .num (.int n.toInt)

def ArtifactDescriptor.toJson (a : ArtifactDescriptor) : Json :=
  .obj
    [("artifactId", uuidJson uuid a.artifactId),
     ("artifactType", textJson a.artifactType),
     ("name", textJson a.name),
     ("uri", textJson a.uri),
     ("contentType", textJson a.contentType),
     ("sizeBytes", longJson a.sizeBytes),
     ("checksumSha256", textJson a.checksumSha256),
     ("metadata", .obj a.metadata)]

def ExecutorError.toJson (e : ExecutorError) : Json :=
  .obj
    [("type", Json.ofOption (fun t ↦ .str t.wireValue) e.type),
     ("code", textJson e.code),
     ("message", textJson e.message),
     ("details", textJson e.details),
     ("metadata", .obj e.metadata)]

def ExecutorEventMessage.toJson (m : ExecutorEventMessage) : Json :=
  .obj
    [("schemaVersion", .num (.int m.schemaVersion.toInt)),
     ("messageId", .str (uuid.format m.messageId)),
     ("correlationId", uuidJson uuid m.correlationId),
     ("pipelineRunId", uuidJson uuid m.pipelineRunId),
     ("pipelineId", uuidJson uuid m.pipelineId),
     ("stageId", uuidJson uuid m.stageId),
     ("jobId", uuidJson uuid m.jobId),
     ("jobExecutionId", uuidJson uuid m.jobExecutionId),
     ("jobType", Json.ofOption (fun t ↦ .str t.wireValue) m.jobType),
     ("templatePath", textJson m.templatePath),
     ("eventType", .str m.eventType.wireValue),
     ("status", .str m.status.wireValue),
     ("attempt", .num (.int m.attempt.toInt)),
     ("workerId", .str m.workerId),
     ("durationMs", longJson m.durationMs),
     ("artifacts", .arr (m.artifacts.map (ArtifactDescriptor.toJson uuid))),
     ("metrics", .obj m.metrics),
     ("summary", textJson m.summary),
     ("error", Json.ofOption ExecutorError.toJson m.error),
     ("logs", textJson m.logs),
     ("additionalData", .obj m.additionalData)]

end Encoding

/-! ## Decoding jobs -/

section Decoding

open Decoder

variable (uuid : TextCodec UUID) (instant : TextCodec Instant)

/-- A nullable list: `null` is normalized to the empty one. -/
def decodeTexts (j : Json) : Except MismatchedInput (List (Option String)) :=
  (nullable (list (nullable string)) j).map fun o ↦ o.getD []

/-- A nullable map: `null` is normalized to the empty one. -/
def decodeMap (j : Json) : Except MismatchedInput JsonMap :=
  (nullable map j).map fun o ↦ o.getD []

def ResourceLimits.decode (j : Json) : Except MismatchedInput ResourceLimits := do
  let fields ← map j
  let cpuMillis ← boxedInt32 (Json.property fields "cpuMillis")
  let memoryBytes ← boxedInt64 (Json.property fields "memoryBytes")
  let diskBytes ← boxedInt64 (Json.property fields "diskBytes")
  let maxProcesses ← boxedInt32 (Json.property fields "maxProcesses")
  let additionalLimits ← decodeMap (Json.property fields "additionalLimits")
  return { cpuMillis, memoryBytes, diskBytes, maxProcesses, additionalLimits }

def WorkspacePolicy.decode (j : Json) : Except MismatchedInput WorkspacePolicy := do
  let fields ← map j
  let cleanup ← nullable string (Json.property fields "cleanup")
  let preserveOnFailure ← primitiveBoolean (Json.property fields "preserveOnFailure")
  return { cleanup, preserveOnFailure }

def SandboxPolicy.decode (j : Json) : Except MismatchedInput SandboxPolicy := do
  let fields ← map j
  let privileged ← boolean (Json.property fields "privileged")
  let hostNetwork ← boolean (Json.property fields "hostNetwork")
  let runAsNonRoot ← boolean (Json.property fields "runAsNonRoot")
  let allowPrivilegeEscalation ← boolean (Json.property fields "allowPrivilegeEscalation")
  let readOnlyRootFilesystem ← boolean (Json.property fields "readOnlyRootFilesystem")
  let capabilitiesAdd ← decodeTexts (Json.property fields "capabilitiesAdd")
  let capabilitiesDrop ← decodeTexts (Json.property fields "capabilitiesDrop")
  let seccompProfileType ← nullable string (Json.property fields "seccompProfileType")
  let networkPolicy ← nullable string (Json.property fields "networkPolicy")
  let egressAllowlist ← decodeTexts (Json.property fields "egressAllowlist")
  let hostPaths ← decodeTexts (Json.property fields "hostPaths")
  let dockerSocketMount ← boolean (Json.property fields "dockerSocketMount")
  let additionalData ← decodeMap (Json.property fields "additionalData")
  return { privileged, hostNetwork, runAsNonRoot, allowPrivilegeEscalation,
           readOnlyRootFilesystem, capabilitiesAdd, capabilitiesDrop, seccompProfileType,
           networkPolicy, egressAllowlist, hostPaths, dockerSocketMount, additionalData }

def JobMessage.decode (j : Json) : Except MismatchedInput JobMessage := do
  let fields ← map j
  let schemaVersion ← int32 (Json.property fields "schemaVersion")
  let messageId ← nullable (text uuid) (Json.property fields "messageId")
  let correlationId ← nullable (text uuid) (Json.property fields "correlationId")
  let pipelineRunId ← nullable (text uuid) (Json.property fields "pipelineRunId")
  let pipelineId ← nullable (text uuid) (Json.property fields "pipelineId")
  let stageId ← nullable (text uuid) (Json.property fields "stageId")
  let jobId ← nullable (text uuid) (Json.property fields "jobId")
  let jobExecutionId ← nullable (text uuid) (Json.property fields "jobExecutionId")
  let jobType ← nullable (enum JobType.fromWireValue) (Json.property fields "jobType")
  let templatePath ← nullable string (Json.property fields "templatePath")
  let attempt ← int32 (Json.property fields "attempt")
  let maxAttempts ← int32 (Json.property fields "maxAttempts")
  let timeoutSeconds ← int64 (Json.property fields "timeoutSeconds")
  let resourceLimits ← nullable ResourceLimits.decode (Json.property fields "resourceLimits")
  let workspacePolicy ← nullable WorkspacePolicy.decode (Json.property fields "workspacePolicy")
  let sandboxPolicy ← nullable SandboxPolicy.decode (Json.property fields "sandboxPolicy")
  let inputs ← decodeMap (Json.property fields "inputs")
  let params ← decodeMap (Json.property fields "params")
  let secrets ← decodeMap (Json.property fields "secrets")
  let createdAt ← nullable (text instant) (Json.property fields "createdAt")
  return { schemaVersion, messageId, correlationId, pipelineRunId, pipelineId, stageId, jobId,
           jobExecutionId, jobType, templatePath, attempt, maxAttempts, timeoutSeconds,
           resourceLimits := resourceLimits.getD ResourceLimits.empty, workspacePolicy,
           sandboxPolicy, inputs, params, secrets, createdAt }

end Decoding

/-- The first attempt of a build. -/
def Small.job : JobMessage where
  schemaVersion := 1
  messageId := some 1
  correlationId := none
  pipelineRunId := some 3
  pipelineId := some 4
  stageId := some 5
  jobId := some 6
  jobExecutionId := some 2
  jobType := some .build
  templatePath := some "build/custom"
  attempt := 1
  maxAttempts := 3
  timeoutSeconds := 60
  resourceLimits := .empty
  workspacePolicy := none
  sandboxPolicy := none
  inputs := []
  params := []
  secrets := []
  createdAt := none

end Contracts

end FuzzingCiCd
