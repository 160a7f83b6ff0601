import FuzzingCiCd.Master.EventRefinement

/-!
# Triggers

`TriggerService`: an event that a trigger receives is looked up among the events that were received
before, by its keys or by the hash of its payload. A new one is recorded and starts a run of the
pipeline of the trigger; a known one is answered with the run that it has started.

The table `trigger_event` and the column `trigger_id` of the runs are kept beside the database of
the runs, and trigger events draw identifiers of their own. What triggers do to the runs is a
history of the master's own operations. Permission checks and audit records read and write nothing
that matters here and are left out; triggers are created and never changed, so they are part of the
surroundings.
-/

namespace FuzzingCiCd.Master

/-! ## Rows -/

/-- A row of `trigger`. -/
structure TriggerEntity where
  id : UUID
  pipelineId : UUID
  triggerType : String
  config : Json
  isActive : Bool
  deriving DecidableEq

/-- A row of `trigger_event`. The keys of its uniques may be absent. -/
structure TriggerEventEntity where
  id : UUID
  triggerId : UUID
  pipelineId : UUID
  pipelineRunId : Option UUID
  eventSource : String
  externalEventId : Option String
  idempotencyKey : Option String
  ref : Option String
  commitHash : Option String
  payloadHash : Option String
  payload : Json
  status : String
  errorMessage : Option String
  receivedAt : Instant
  processedAt : Option Instant
  deriving DecidableEq

/-- The surroundings of the service, with the library functions that make texts of values. -/
structure TriggerCatalog extends Catalog where
  triggers : List TriggerEntity
  uuid : TextCodec UUID
  /-- `ISO_OFFSET_DATE_TIME` in UTC. -/
  offsetDateTime : TextCodec Instant
  /-- The SHA-256 of a payload as Jackson writes it, in hexadecimal digits. -/
  sha256 : Json → String
  triggers_keyed : Table.Keyed TriggerEntity.id triggers

/-- The database with the tables of the triggers. -/
structure TriggerDb where
  db : Db
  triggerEvents : List TriggerEventEntity
  /-- The runs with the triggers in their column `trigger_id`. -/
  runTriggers : List (UUID × UUID)
  /-- The next random identifier of a trigger event. -/
  nextEventId : UUID
  deriving DecidableEq

/-- `trigger_event` has no two rows with the same event source and the same key. -/
structure TriggerEventSchema (events : List TriggerEventEntity) : Prop where
  trigger_event_external_uq :
    Table.Unique (fun e ↦ e.externalEventId.map fun id ↦ (e.eventSource, id)) events
  trigger_event_idempotency_uq :
    Table.Unique (fun e ↦ e.idempotencyKey.map fun key ↦ (e.eventSource, key)) events
  trigger_event_payload_hash_uq :
    Table.Unique (fun e ↦ e.payloadHash.map fun hash ↦ (e.eventSource, hash)) events

instance (events : List TriggerEventEntity) : Decidable (TriggerEventSchema events) :=
  decidable_of_iff (_ ∧ _ ∧ _) ⟨fun ⟨h₁, h₂, h₃⟩ ↦ ⟨h₁, h₂, h₃⟩, fun ⟨h₁, h₂, h₃⟩ ↦ ⟨h₁, h₂, h₃⟩⟩

/-- Why a call to the service fails. The transaction is rolled back. -/
inductive TriggerFailure where
  | thrown (exception : ServiceException)
  /-- An `ApiException` with status `CONFLICT`. -/
  | conflict (code message : String)
  /-- A constraint of `trigger_event` is violated. -/
  | violated
  deriving DecidableEq

namespace TriggerDb

/-- A database without rows. -/
def empty : TriggerDb where
  db := .empty
  triggerEvents := []
  runTriggers := []
  nextEventId := 0

/-- `triggerEventRepository.save`. -/
def saveTriggerEvent (event : TriggerEventEntity) (s : TriggerDb) :
    Except TriggerFailure TriggerDb :=
  let triggerEvents := Table.save TriggerEventEntity.id s.triggerEvents event
  if TriggerEventSchema triggerEvents then .ok { s with triggerEvents := triggerEvents }
  else .error .violated

/-- An operation of the master. -/
def master (c : Catalog) (call : Call) (s : TriggerDb) : Except TriggerFailure TriggerDb :=
  match step c call s.db with
  | .ok db => .ok { s with db := db }
  | .error exception => .error (.thrown exception)

end TriggerDb

/-! ## Duplicates -/

namespace TriggerService

/-- A text that is null or blank. -/
def missing (text : Option String) : Bool := text.all JavaText.isBlank

section Lookup

variable (eventSource : String) (events : List TriggerEventEntity)

/-- The lookups of the repository, by the event source and one more column. -/
def findByEventSourceAnd (column : TriggerEventEntity → Option String) (value : Option String) :
    Option TriggerEventEntity :=
  events.find? fun event ↦ event.eventSource = eventSource && column event = value

def findByEventSourceAndExternalEventId : Option String → Option TriggerEventEntity :=
  findByEventSourceAnd eventSource events TriggerEventEntity.externalEventId

def findByEventSourceAndIdempotencyKey : Option String → Option TriggerEventEntity :=
  findByEventSourceAnd eventSource events TriggerEventEntity.idempotencyKey

def findByEventSourceAndPayloadHash : Option String → Option TriggerEventEntity :=
  findByEventSourceAnd eventSource events TriggerEventEntity.payloadHash

def findDuplicate (externalEventId idempotencyKey payloadHash : Option String) :
    Option TriggerEventEntity :=
  (if missing externalEventId then none
    else findByEventSourceAndExternalEventId eventSource events externalEventId) <|>
  (if missing idempotencyKey then none
    else findByEventSourceAndIdempotencyKey eventSource events idempotencyKey) <|>
  (if missing payloadHash then none
    else findByEventSourceAndPayloadHash eventSource events payloadHash)

end Lookup

def shouldUsePayloadHash (externalEventId idempotencyKey : Option String) : Bool :=
  missing externalEventId && missing idempotencyKey

def buildPayloadHash (sha256 : Json → String) : Option Json → Option String
  | none => none
  | some .null => none
  | some payload => some (sha256 payload)

/-! ## Events -/

/-- `toObjectNode` of the redacted payload. -/
def payloadNode (payload : Option Json) : Json :=
  PipelineRunService.toObjectNode (SensitiveDataSanitizer.redact (payload.getD .null))

section Service

variable (c : TriggerCatalog) (ctx : CallContext)

/-- `createRunBySystem` or `createRun`, and the run that it returns. -/
def startRun (pipelineId : UUID) (payloadNode : Json) (systemInitiated : Bool) (s : TriggerDb) :
    Except TriggerFailure (PipelineRunEntity × TriggerDb) := do
  let runId := s.db.nextId
  let s ← s.master c.toCatalog ⟨ctx,
    if systemInitiated then .createRunBySystem pipelineId (some "trigger") (some payloadNode)
    else .createRun pipelineId (some ⟨some "trigger", some payloadNode⟩)⟩
  match s.db.findRun runId with
  | none => .error (.thrown (.api .notFound "run_not_found" "Pipeline run not found"))
  | some run => .ok (run, s)

/-- The failure that the source records when it catches an exception is rolled back with the rest
when the exception is thrown on. -/
def processEvent (trigger : TriggerEntity) (eventSource : String)
    (externalEventId idempotencyKey ref commitHash : Option String) (payload : Option Json)
    (systemInitiated : Bool) (s : TriggerDb) :
    Except TriggerFailure (PipelineRunEntity × TriggerDb) :=
  let payloadHash := if shouldUsePayloadHash externalEventId idempotencyKey then
    buildPayloadHash c.sha256 payload else none
  match findDuplicate eventSource s.triggerEvents externalEventId idempotencyKey payloadHash with
  | some duplicate =>
    match duplicate.pipelineRunId.bind s.db.findRun with
    | none => .error (.conflict "duplicate_trigger_event" "Trigger event already processed")
    | some existingRun => .ok (existingRun, s)
  | none => do
    let event : TriggerEventEntity := {
      id := s.nextEventId
      triggerId := trigger.id
      pipelineId := trigger.pipelineId
      pipelineRunId := none
      eventSource := eventSource
      externalEventId := externalEventId
      idempotencyKey := idempotencyKey
      ref := ref
      commitHash := commitHash
      payloadHash := payloadHash
      payload := payloadNode payload
      status := "received"
      errorMessage := none
      receivedAt := ctx.now
      processedAt := none }
    let s ← { s with nextEventId := s.nextEventId + 1 }.saveTriggerEvent event
    let (run, s) ← startRun c ctx trigger.pipelineId (payloadNode payload) systemInitiated s
    let s := { s with runTriggers := s.runTriggers ++ [(run.id, trigger.id)] }
    let s ← s.saveTriggerEvent { event with
      status := "accepted"
      pipelineRunId := some run.id
      processedAt := some ctx.now }
    return (run, s)

/-! ## Calls -/

def findTrigger (triggerId : UUID) : Except TriggerFailure TriggerEntity :=
  match Table.findById TriggerEntity.id triggerId c.triggers with
  | none => .error (.thrown (.api .notFound "trigger_not_found" "Trigger not found"))
  | some trigger => .ok trigger

def requireActiveTrigger (trigger : TriggerEntity) : Except TriggerFailure Unit :=
  if trigger.isActive then .ok ()
  else .error (.thrown (.api .badRequest "trigger_inactive" "Trigger is inactive"))

/-- The body of a request to fire a trigger. -/
structure TriggerFireRequest where
  externalEventId : Option String
  idempotencyKey : Option String
  payload : Option Json
  deriving DecidableEq

def fire (triggerId : UUID) (request : Option TriggerFireRequest) (s : TriggerDb) :
    Except TriggerFailure (PipelineRunEntity × TriggerDb) := do
  let trigger ← findTrigger c triggerId
  requireActiveTrigger trigger
  processEvent c ctx trigger "api" (request.bind TriggerFireRequest.externalEventId)
    (request.bind TriggerFireRequest.idempotencyKey) none none
    (request.bind TriggerFireRequest.payload) false s

/-- The body of a webhook. It names a trigger or a pipeline. -/
structure WebhookTriggerRequest where
  triggerId : Option UUID
  pipelineId : Option UUID
  eventSource : Option String
  externalEventId : Option String
  idempotencyKey : Option String
  ref : Option String
  commitHash : Option String
  payload : Option Json
  deriving DecidableEq

def resolveWebhookTrigger (request : WebhookTriggerRequest) :
    Except TriggerFailure TriggerEntity :=
  match request.triggerId with
  | some triggerId => do
    let trigger ← findTrigger c triggerId
    if !JavaText.equalsIgnoreCase "vcs_push" trigger.triggerType &&
        !JavaText.equalsIgnoreCase "api" trigger.triggerType then
      .error (.thrown (.api .badRequest "trigger_type_invalid"
        "Trigger type does not support webhook events"))
    else return trigger
  | none =>
    match request.pipelineId with
    | none => .error (.thrown (.api .badRequest "pipeline_id_required"
        "pipelineId or triggerId is required"))
    | some pipelineId =>
      match c.triggers.find? fun trigger ↦ trigger.pipelineId = pipelineId && trigger.isActive &&
          JavaText.equalsIgnoreCase "vcs_push" trigger.triggerType with
      | none => .error (.thrown (.api .notFound "trigger_not_found"
          "Active webhook trigger not found"))
      | some trigger => .ok trigger

def ingestWebhook (request : WebhookTriggerRequest) (s : TriggerDb) :
    Except TriggerFailure (PipelineRunEntity × TriggerDb) := do
  let trigger ← resolveWebhookTrigger c request
  requireActiveTrigger trigger
  processEvent c ctx trigger (request.eventSource.getD "vcs_webhook") request.externalEventId
    request.idempotencyKey request.ref request.commitHash request.payload true s

/-! ## Schedules -/

/-- `canConvertToInt` and `intValue` of a number that is positive. -/
def positiveInt (node : Json) : Option ℤ :=
  match node with
  | .num number =>
    let value := Decoder.truncate number
    let fits := match number with
      | .int n => -2147483648 ≤ n && n ≤ 2147483647
      | .dec unscaled scale =>
        -2147483648 * 10 ^ scale ≤ unscaled && unscaled ≤ 2147483647 * 10 ^ scale
    if fits && 0 < value then some value else none
  | _ => none

def readPositiveInt (config : Json) (snakeCaseField camelCaseField : String) (fallback : ℤ) : ℤ :=
  (((config.get? snakeCaseField).bind positiveInt) <|>
    ((config.get? camelCaseField).bind positiveInt)).getD fallback

def ACTIVE_RUN_STATUSES : List PipelineRunStatus :=
    [.queued, .running, .waitingApproval, .canceling]

/-- `countByPipelineIdAndTriggerIdAndStatusIn` of the active statuses. -/
def activeRuns (trigger : TriggerEntity) (s : TriggerDb) : ℕ :=
  (s.db.runs.filter fun run ↦ run.pipelineId = trigger.pipelineId &&
    s.runTriggers.contains (run.id, trigger.id) && ACTIVE_RUN_STATUSES.contains run.status).length

def hasScheduleCapacity (trigger : TriggerEntity) (s : TriggerDb) : Bool :=
  let maxParallelRuns := readPositiveInt trigger.config "max_parallel_runs" "maxParallelRuns" 1
  if maxParallelRuns ≤ 0 then true else activeRuns trigger s < maxParallelRuns

def recordIgnoredScheduleEvent (trigger : TriggerEntity) (plannedKey : Option String)
    (payload : Option Json) (s : TriggerDb) : Except TriggerFailure TriggerDb :=
  let payloadHash := if shouldUsePayloadHash plannedKey plannedKey then
    buildPayloadHash c.sha256 (some (payloadNode payload)) else none
  if (findDuplicate "schedule" s.triggerEvents plannedKey plannedKey payloadHash).isSome then .ok s
  else { s with nextEventId := s.nextEventId + 1 }.saveTriggerEvent {
    id := s.nextEventId
    triggerId := trigger.id
    pipelineId := trigger.pipelineId
    pipelineRunId := none
    eventSource := "schedule"
    externalEventId := plannedKey
    idempotencyKey := plannedKey
    ref := none
    commitHash := none
    payloadHash := payloadHash
    payload := payloadNode payload
    status := "ignored"
    errorMessage := some "max_parallel_runs_exceeded"
    receivedAt := ctx.now
    processedAt := some ctx.now }

/-- The key of a time at which a trigger is due. -/
def dueKey (trigger : TriggerEntity) (time : Instant) : String :=
  c.uuid.format trigger.id ++ ":" ++ c.offsetDateTime.format time

/-- The key that a scheduled event is recorded under. -/
def plannedKey (trigger : TriggerEntity) (externalEventId : Option String) : Option String :=
  if missing externalEventId then some (dueKey c trigger ctx.now) else externalEventId

/-- `fireScheduled` with a key. A call that is ignored returns no run. -/
def fireScheduled (trigger : TriggerEntity) (externalEventId : Option String)
    (payload : Option Json) (s : TriggerDb) :
    Except TriggerFailure (Option PipelineRunEntity × TriggerDb) :=
  if !trigger.isActive then .ok (none, s)
  else
    let plannedKey := plannedKey c ctx trigger externalEventId
    if !hasScheduleCapacity trigger s then do
      let s ← recordIgnoredScheduleEvent c ctx trigger plannedKey payload s
      return (none, s)
    else do
      let (run, s) ← processEvent c ctx trigger "schedule" plannedKey plannedKey none none payload
        true s
      return (some run, s)

/-- `fireScheduled` with the time that was planned. -/
def fireScheduledAt (trigger : TriggerEntity) (plannedFireTime : Instant) (payload : Option Json)
    (s : TriggerDb) : Except TriggerFailure (Option PipelineRunEntity × TriggerDb) :=
  fireScheduled c ctx trigger (some (dueKey c trigger plannedFireTime)) payload s

end Service

end TriggerService

/-! ## Histories -/

inductive TriggerOperation where
  | fire (triggerId : UUID) (request : Option TriggerService.TriggerFireRequest)
  | ingestWebhook (request : TriggerService.WebhookTriggerRequest)
  /-- The scheduler passes a row of the table. -/
  | fireScheduled (triggerId : UUID) (externalEventId : Option String) (payload : Option Json)
  | fireScheduledAt (triggerId : UUID) (plannedFireTime : Instant) (payload : Option Json)
  | master (operation : Operation)
  deriving DecidableEq

/-- An operation on triggers, or one of the others, in its context. -/
structure TriggerCall where
  context : CallContext
  operation : TriggerOperation
  deriving DecidableEq

/-- One call as a transaction, with the run that it returns. -/
def respond (c : TriggerCatalog) (call : TriggerCall) (s : TriggerDb) :
    Except TriggerFailure (Option PipelineRunEntity × TriggerDb) :=
  let ctx := call.context
  match call.operation with
  | .fire triggerId request => do
    let (run, s) ← TriggerService.fire c ctx triggerId request s
    return (some run, s)
  | .ingestWebhook request => do
    let (run, s) ← TriggerService.ingestWebhook c ctx request s
    return (some run, s)
  | .fireScheduled triggerId externalEventId payload => do
    let trigger ← TriggerService.findTrigger c triggerId
    TriggerService.fireScheduled c ctx trigger externalEventId payload s
  | .fireScheduledAt triggerId plannedFireTime payload => do
    let trigger ← TriggerService.findTrigger c triggerId
    TriggerService.fireScheduledAt c ctx trigger plannedFireTime payload s
  | .master operation => do
    let s ← s.master c.toCatalog ⟨ctx, operation⟩
    return (none, s)

def triggerStep (c : TriggerCatalog) (call : TriggerCall) (s : TriggerDb) :
    Except TriggerFailure TriggerDb := do
  let (_, s) ← respond c call s
  return s

/-- The database at the end of a history of calls. -/
abbrev triggerHistory (c : TriggerCatalog) (calls : List TriggerCall) : TriggerDb :=
  Transition.replay (triggerStep c) TriggerDb.empty calls

end FuzzingCiCd.Master
