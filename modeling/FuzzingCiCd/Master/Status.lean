import FuzzingCiCd.Foundation.Text

/-!
# Statuses and the job state machine

The enumerations of the master service and the transition table of `JobStateMachine`. Columns
that the schema restricts to the values of an enumeration hold the enumeration; the texts of
events are arbitrary and go through the `fromValue` functions.
-/

namespace FuzzingCiCd.Master

/-! ## Executions and runs -/

inductive JobExecutionStatus where
  | queued | running | waitingApproval | success | failed | timeout | canceling | canceled
  | retrying | skipped
  deriving DecidableEq, Repr

namespace JobExecutionStatus

def isFinalStatus (s : JobExecutionStatus) : Bool :=
  s = success || s = failed || s = timeout || s = canceled || s = skipped

/-- The statuses in which an execution is somebody's current work. A row in `retrying` is a
superseded attempt. -/
def isActive (s : JobExecutionStatus) : Bool :=
  s = queued || s = waitingApproval || s = running || s = canceling

/-- A status is final, active or that of a superseded attempt. -/
theorem final_or_active (s : JobExecutionStatus) :
    s.isFinalStatus = true ∨ s.isActive = true ∨ s = retrying := by
  cases s <;> decide

theorem not_active_of_final {s : JobExecutionStatus} (h : s.isFinalStatus = true) :
    s.isActive = false := by
  cases s <;> first | rfl | exact absurd h (by decide)

end JobExecutionStatus

inductive PipelineRunStatus where
  | queued | running | waitingApproval | success | failed | canceling | canceled | timeout
  deriving DecidableEq, Repr

def PipelineRunStatus.isFinalStatus (s : PipelineRunStatus) : Bool :=
  s = success || s = failed || s = canceled || s = timeout

/-! ## Texts of events -/

/-- The normalization shared by the `fromValue` functions of event texts. -/
def normalizeName (raw : String) : List Char :=
  let underscore (from_ ch : Char) : Char := if ch = from_ then '_' else ch
  JavaText.toUpperCase
    (((JavaText.trim raw.toList).map (underscore '-')).map (underscore ' '))

inductive ExecutorStatus where
  | queued | running | success | failed | timeout | canceling | canceled | retrying | skipped
  | waitingApproval
  deriving DecidableEq

namespace ExecutorStatus

def values : List ExecutorStatus :=
  [.queued, .running, .success, .failed, .timeout, .canceling, .canceled, .retrying, .skipped,
   .waitingApproval]

def name : ExecutorStatus → String
  | .queued => "QUEUED"
  | .running => "RUNNING"
  | .success => "SUCCESS"
  | .failed => "FAILED"
  | .timeout => "TIMEOUT"
  | .canceling => "CANCELING"
  | .canceled => "CANCELED"
  | .retrying => "RETRYING"
  | .skipped => "SKIPPED"
  | .waitingApproval => "WAITING_APPROVAL"

def fromValue : Option String → Option ExecutorStatus
  | none => none
  | some rawStatus =>
    if JavaText.isBlank rawStatus then none
    else values.find? fun status ↦ status.name.toList = normalizeName rawStatus

def toJobExecutionStatus : ExecutorStatus → JobExecutionStatus
  | .queued => .queued
  | .running => .running
  | .success => .success
  | .failed => .failed
  | .timeout => .timeout
  | .canceling => .canceling
  | .canceled => .canceled
  | .retrying => .retrying
  | .skipped => .skipped
  | .waitingApproval => .waitingApproval

/-- A status is read back from its own name. -/
theorem fromValue_name (s : ExecutorStatus) : fromValue (some s.name) = some s := by
  cases s <;> decide

end ExecutorStatus

inductive ExecutorEventType where
  | jobAccepted | jobRunning | jobProgress | jobArtifact | jobLog | jobFinished | jobSkipped
  | jobCanceled | jobHeartbeat
  deriving DecidableEq

namespace ExecutorEventType

def values : List ExecutorEventType :=
  [.jobAccepted, .jobRunning, .jobProgress, .jobArtifact, .jobLog, .jobFinished, .jobSkipped,
   .jobCanceled, .jobHeartbeat]

def name : ExecutorEventType → String
  | .jobAccepted => "JOB_ACCEPTED"
  | .jobRunning => "JOB_RUNNING"
  | .jobProgress => "JOB_PROGRESS"
  | .jobArtifact => "JOB_ARTIFACT"
  | .jobLog => "JOB_LOG"
  | .jobFinished => "JOB_FINISHED"
  | .jobSkipped => "JOB_SKIPPED"
  | .jobCanceled => "JOB_CANCELED"
  | .jobHeartbeat => "JOB_HEARTBEAT"

def fromValue : Option String → Option ExecutorEventType
  | none => none
  | some rawEventType =>
    if JavaText.isBlank rawEventType then none
    else values.find? fun eventType ↦ eventType.name.toList = normalizeName rawEventType

/-- An event type is read back from its own name. -/
theorem fromValue_name (t : ExecutorEventType) : fromValue (some t.name) = some t := by
  cases t <;> decide

end ExecutorEventType

inductive ErrorType where
  | validationError | userCodeError | infrastructureError | timeout | canceled | securityError
  | fuzzingCrashFound | cancelFailed | unknown
  deriving DecidableEq

namespace ErrorType

def values : List ErrorType :=
  [.validationError, .userCodeError, .infrastructureError, .timeout, .canceled, .securityError,
   .fuzzingCrashFound, .cancelFailed, .unknown]

def value : ErrorType → String
  | .validationError => "validation_error"
  | .userCodeError => "user_code_error"
  | .infrastructureError => "infrastructure_error"
  | .timeout => "timeout"
  | .canceled => "canceled"
  | .securityError => "security_error"
  | .fuzzingCrashFound => "fuzzing_crash_found"
  | .cancelFailed => "cancel_failed"
  | .unknown => "unknown"

def fromValue : Option String → Option ErrorType
  | none => none
  | some value =>
    if JavaText.isBlank value then none
    else values.find? fun type ↦ JavaText.equalsIgnoreCase type.value value

end ErrorType

/-! ## Definitions of jobs and stages -/

inductive JobType where
  | vcs | storage | build | fuzzing | deploy | script
  deriving DecidableEq

def JobType.value : JobType → String
  | .vcs => "vcs"
  | .storage => "storage"
  | .build => "build"
  | .fuzzing => "fuzzing"
  | .deploy => "deploy"
  | .script => "script"

inductive DependencyCondition where
  | onSuccess | onFailure | always
  deriving DecidableEq

inductive StageRunPolicy where
  | sequential | parallel
  deriving DecidableEq

/-! ## The state machine -/

/-- `JobStateMachine.canTransition`. -/
def canTransition (source target : JobExecutionStatus) : Bool :=
  if source = target then true
  else if source.isFinalStatus then false
  else match source with
    | .queued =>
      target = .running || target = .waitingApproval || target = .skipped || target = .canceling
    | .waitingApproval => target = .queued || target = .skipped || target = .failed
    | .running =>
      target = .success || target = .failed || target = .timeout || target = .canceling ||
        target = .canceled
    | .canceling => target = .canceled || target = .failed
    | .retrying => target = .queued
    | _ => false

namespace JobExecutionStatus

theorem canTransition_self (s : JobExecutionStatus) : canTransition s s = true := by
  cases s <;> rfl

/-- Nothing leaves a final status. -/
theorem eq_of_canTransition_of_final {s t : JobExecutionStatus} (hs : s.isFinalStatus = true)
    (h : canTransition s t = true) : t = s := by
  by_cases hst : s = t
  · exact hst.symm
  · simp [canTransition, hst, hs] at h

/-- Only a superseded attempt stays one, and it can only be requeued. -/
theorem canTransition_retrying {t : JobExecutionStatus} (h : canTransition retrying t = true) :
    t = retrying ∨ t = queued := by
  cases t <;> first | exact Or.inl rfl | exact Or.inr rfl | exact absurd h (by decide)

end JobExecutionStatus

end FuzzingCiCd.Master
