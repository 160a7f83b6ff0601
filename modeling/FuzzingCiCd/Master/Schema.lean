import FuzzingCiCd.Master.Delivery
import FuzzingCiCd.Master.Idempotence

/-!
# Constraints of the schema

`Schema` collects the constraints that `V0001__schema.sql` puts on the three tables an executor
event is written to: keys, references, columns that must not be null, checks and uniques. The
names of the fields are those of the constraints.

`transaction` is the handler of executor events on a database with these constraints. A statement
that violates one fails, and with it everything the event did.

## Main results

* `storeStatements_iff`: when the statements of a stored event succeed, and what they write.
* `schema_foldl_registerOne`: artifacts that are storable violate nothing together.
-/

namespace FuzzingCiCd.Master

open Transition PipelineRunService

/-! ## Constraints -/

/-- `job_execution_error_type_check`. -/
def ERROR_TYPES : List String :=
  ["validation_error", "user_code_error", "infrastructure_error", "timeout", "canceled",
   "security_error", "fuzzing_crash_found", "cancel_failed", "unknown"]

/-- `artifact_type_check`. -/
def ARTIFACT_TYPES : List String :=
  ["source_snapshot", "build_artifact", "fuzzing_report", "crash_case", "hang_case",
    "corpus", "log",
   "deployment_manifest", "script_output", "release_package", "other"]

/-- `inbox_event_source_check`. -/
def EVENT_SOURCES : List String := ["kafka", "opensearch", "api", "system"]

/-- A row of `job_execution`. -/
structure JobExecutionEntity.Valid (c : Catalog) (runs : List PipelineRunEntity)
    (e : JobExecutionEntity) : Prop where
  pipeline_run_id_fk : Table.References PipelineRunEntity.id runs (some e.pipelineRunId)
  job_id_fk : Table.References JobEntity.id c.jobs (some e.jobId)
  attempt_positive : 0 < e.attempt
  error_type_check : ∀ type ∈ e.errorType, type ∈ ERROR_TYPES

/-- A row of `inbox_event`. -/
structure InboxEventEntity.Valid (executions : List JobExecutionEntity)
    (event : InboxEventEntity) : Prop where
  job_execution_id_fk : Table.References JobExecutionEntity.id executions event.jobExecutionId
  event_type_not_null : event.eventType ≠ none
  source_check : event.eventSource ∈ EVENT_SOURCES
  identity_check : event.messageId ≠ none ∨ event.sourceDocumentId ≠ none
  schema_version_positive : 0 < event.schemaVersion.toInt

/-- A row of `artifact`. -/
structure ArtifactEntity.Valid (runs : List PipelineRunEntity)
    (executions : List JobExecutionEntity) (artifact : ArtifactEntity) : Prop where
  pipeline_run_id_fk : Table.References PipelineRunEntity.id runs artifact.pipelineRunId
  job_execution_id_fk : Table.References JobExecutionEntity.id executions artifact.jobExecutionId
  artifact_type_not_null : artifact.artifactType ≠ none
  type_check : ∀ type ∈ artifact.artifactType, type ∈ ARTIFACT_TYPES
  name_not_null : artifact.name ≠ none
  uri_not_null : artifact.uri ≠ none
  size_non_negative : ∀ size ∈ artifact.sizeBytes, 0 ≤ size.toInt

/-- The database meets its constraints. -/
structure Schema (c : Catalog) (db : Db) : Prop where
  job_execution_pk : Table.Keyed JobExecutionEntity.id db.executions
  unique_job_execution_attempt :
    (db.executions.map fun e ↦ (e.pipelineRunId, e.jobId, e.attempt)).Nodup
  job_execution : ∀ e ∈ db.executions, e.Valid c db.runs
  inbox_event_pk : Table.Keyed InboxEventEntity.id db.inbox
  inbox_event_message_consumer_uq : Table.Unique
    (fun event ↦ event.messageId.map fun id ↦ (id, event.consumerName)) db.inbox
  inbox_event_source_document_consumer_uq : Table.Unique
    (fun event ↦ event.sourceDocumentId.map fun document ↦
      (event.eventSource, document, event.consumerName)) db.inbox
  inbox_event : ∀ event ∈ db.inbox, event.Valid db.executions
  artifact_pk : Table.Keyed ArtifactEntity.id db.artifacts
  artifact : ∀ artifact ∈ db.artifacts, artifact.Valid db.runs db.executions

section Decidability

variable (c : Catalog) (runs : List PipelineRunEntity) (executions : List JobExecutionEntity)

instance (e : JobExecutionEntity) : Decidable (e.Valid c runs) :=
  decidable_of_iff (Table.References PipelineRunEntity.id runs (some e.pipelineRunId) ∧
      Table.References JobEntity.id c.jobs (some e.jobId) ∧ 0 < e.attempt ∧
      ∀ type ∈ e.errorType, type ∈ ERROR_TYPES)
    ⟨fun ⟨h₁, h₂, h₃, h₄⟩ ↦ ⟨h₁, h₂, h₃, h₄⟩, fun ⟨h₁, h₂, h₃, h₄⟩ ↦ ⟨h₁, h₂, h₃, h₄⟩⟩

instance (event : InboxEventEntity) : Decidable (event.Valid executions) :=
  decidable_of_iff (Table.References JobExecutionEntity.id executions event.jobExecutionId ∧
      event.eventType ≠ none ∧ event.eventSource ∈ EVENT_SOURCES ∧
      (event.messageId ≠ none ∨ event.sourceDocumentId ≠ none) ∧ 0 < event.schemaVersion.toInt)
    ⟨fun ⟨h₁, h₂, h₃, h₄, h₅⟩ ↦ ⟨h₁, h₂, h₃, h₄, h₅⟩,
      fun ⟨h₁, h₂, h₃, h₄, h₅⟩ ↦ ⟨h₁, h₂, h₃, h₄, h₅⟩⟩

instance (artifact : ArtifactEntity) : Decidable (artifact.Valid runs executions) :=
  decidable_of_iff (Table.References PipelineRunEntity.id runs artifact.pipelineRunId ∧
      Table.References JobExecutionEntity.id executions artifact.jobExecutionId ∧
      artifact.artifactType ≠ none ∧ (∀ type ∈ artifact.artifactType, type ∈ ARTIFACT_TYPES) ∧
      artifact.name ≠ none ∧ artifact.uri ≠ none ∧
      artifact.sizeBytes.all (fun size ↦ 0 ≤ size.toInt) = true)
    ⟨fun ⟨h₁, h₂, h₃, h₄, h₅, h₆, h₇⟩ ↦
        ⟨h₁, h₂, h₃, h₄, h₅, h₆, fun size hsize ↦
          of_decide_eq_true ((Option.all_eq_true _ _).mp h₇ size hsize)⟩,
      fun ⟨h₁, h₂, h₃, h₄, h₅, h₆, h₇⟩ ↦
        ⟨h₁, h₂, h₃, h₄, h₅, h₆, (Option.all_eq_true _ _).mpr fun size hsize ↦
          decide_eq_true (h₇ size hsize)⟩⟩

instance (db : Db) : Decidable (Schema c db) :=
  decidable_of_iff (Table.Keyed JobExecutionEntity.id db.executions ∧
      (db.executions.map fun e ↦ (e.pipelineRunId, e.jobId, e.attempt)).Nodup ∧
      (∀ e ∈ db.executions, e.Valid c db.runs) ∧ Table.Keyed InboxEventEntity.id db.inbox ∧
      Table.Unique (fun event : InboxEventEntity ↦
        event.messageId.map fun id ↦ (id, event.consumerName)) db.inbox ∧
      Table.Unique (fun event : InboxEventEntity ↦ event.sourceDocumentId.map fun document ↦
        (event.eventSource, document, event.consumerName)) db.inbox ∧
      (∀ event ∈ db.inbox, event.Valid db.executions) ∧
      Table.Keyed ArtifactEntity.id db.artifacts ∧
      ∀ artifact ∈ db.artifacts, artifact.Valid db.runs db.executions)
    ⟨fun ⟨h₁, h₂, h₃, h₄, h₅, h₆, h₇, h₈, h₉⟩ ↦ ⟨h₁, h₂, h₃, h₄, h₅, h₆, h₇, h₈, h₉⟩,
      fun ⟨h₁, h₂, h₃, h₄, h₅, h₆, h₇, h₈, h₉⟩ ↦ ⟨h₁, h₂, h₃, h₄, h₅, h₆, h₇, h₈, h₉⟩⟩

end Decidability

theorem schema_empty (c : Catalog) : Schema c Db.empty := by
  constructor <;> simp [Db.empty, Table.Keyed, Table.Unique]

/-! ## Statements -/

/-- Why a transaction does not commit. -/
inductive Failure where
  | thrown (exception : ServiceException)
  | violated
  deriving DecidableEq

/-- A statement, which fails when a constraint is violated after it. -/
def statement (c : Catalog) (write : Db → Db) (db : Db) : Except Failure Db :=
  if Schema c (write db) then .ok (write db) else .error .violated

theorem statement_eq_ok {c : Catalog} {write : Db → Db} {db db' : Db} :
    statement c write db = .ok db' ↔ Schema c db' ∧ write db = db' := by
  rw [statement]
  by_cases h : Schema c (write db)
  · rw [if_pos h, Except.ok.injEq]
    refine ⟨fun heq ↦ ⟨heq ▸ h, heq⟩, fun heq ↦ heq.2⟩
  · rw [if_neg h]
    refine iff_of_false nofun ?_
    rintro ⟨hschema, rfl⟩
    exact h hschema

namespace ExecutorEventService

/-- The statements of `store`, one after the other. -/
def storeStatements (c : Catalog) (now : Instant) (delivery : Delivery)
    (message : ExecutorEventMessage) (execution : JobExecutionEntity) (db : Db) :
    Except Failure Db := do
  let target := mapStatus message.status
  let statusChanged := changesStatus execution.status target
  let db ← statement c
    (fun db ↦ db.saveExecution (applyEvent now message statusChanged target execution)) db
  let db ← (message.artifacts.getD []).foldlM (fun db descriptor ↦ statement c (fun db ↦
    ArtifactService.registerOne now message.pipelineRunId message.jobExecutionId db descriptor) db)
    db
  statement c (InboxDeduplicationService.registerProcessed now delivery.consumerName
    delivery.topic delivery.messageKey delivery.eventSource delivery.sourceDocumentId message) db

theorem schema_of_storeStatements {c : Catalog} {now : Instant} {delivery : Delivery}
    {message : ExecutorEventMessage} {execution : JobExecutionEntity} {db db' : Db}
    (h : storeStatements c now delivery message execution db = .ok db') : Schema c db' := by
  obtain ⟨db₁, -, h⟩ := bind_eq_ok.mp h
  obtain ⟨db₂, -, h⟩ := bind_eq_ok.mp h
  exact (statement_eq_ok.mp h).1

/-- `handle` on a database with constraints. -/
def transaction (c : Catalog) (now : Instant) (delivery : Delivery)
    (message : ExecutorEventMessage) (db : Db) : Except Failure Db :=
  let registerProcessed := statement c (InboxDeduplicationService.registerProcessed now
    delivery.consumerName delivery.topic delivery.messageKey delivery.eventSource
    delivery.sourceDocumentId message)
  if InboxDeduplicationService.isDuplicate delivery.consumerName delivery.eventSource
      delivery.sourceDocumentId message.messageId db then .ok db
  else match ExecutorEventType.fromValue message.eventType with
  | none => registerProcessed db
  | some _ =>
    match message.jobExecutionId with
    | none => .error (.thrown (.illegalArgument "The given id must not be null"))
    | some jobExecutionId =>
      match db.findExecution jobExecutionId with
      | none => registerProcessed db
      | some execution => do
        let db ← storeStatements c now delivery message execution db
        if endsExecution message execution then
          match continueRun c now execution.pipelineRunId db with
          | .error exception => .error (.thrown exception)
          | .ok db => statement c id db
        else return db

end ExecutorEventService

/-! ## The statements of an event

What each statement asks of the event, in a database that meets its constraints. -/

section Statements

variable {c : Catalog} {db db' : Db} {now : Instant} {delivery : ExecutorEventService.Delivery}
  {message : ExecutorEventMessage}

/-- Rows of executions are changed in place; only their error types can violate anything. -/
theorem schema_mapExecutions_iff (h : Schema c db) {u : JobExecutionEntity → JobExecutionEntity}
    (hu : Keeps u) : Schema c (db.mapExecutions u) ↔
      ∀ e ∈ db.executions, ∀ type ∈ (u e).errorType, type ∈ ERROR_TYPES := by
  constructor
  · exact fun hschema e he ↦ (hschema.job_execution (u e) (List.mem_map_of_mem he)).error_type_check
  · intro herror
    have hreferences := fun value : Option UUID ↦
      Table.references_map hu.id value (l := db.executions)
    refine ⟨(Table.keyed_map hu.id).mpr h.job_execution_pk, ?_, ?_, h.inbox_event_pk,
      h.inbox_event_message_consumer_uq, h.inbox_event_source_document_consumer_uq, ?_,
      h.artifact_pk, ?_⟩
    · have hsame : (db.executions.map u).map (fun e ↦ (e.pipelineRunId, e.jobId, e.attempt)) =
          db.executions.map fun e ↦ (e.pipelineRunId, e.jobId, e.attempt) := by
        rw [List.map_map]
        refine List.map_congr_left fun e _ ↦ ?_
        rw [Function.comp_apply, hu.pipelineRunId, hu.jobId, hu.attempt]
      exact hsame ▸ h.unique_job_execution_attempt
    · intro e' he'
      obtain ⟨e, he, rfl⟩ := List.mem_map.mp he'
      obtain ⟨hrun, hjob, hattempt, -⟩ := h.job_execution e he
      exact ⟨by rwa [hu.pipelineRunId], by rwa [hu.jobId], by rwa [hu.attempt], herror e he⟩
    · intro event hevent
      obtain ⟨hexecution, htype, hsource, hidentity, hversion⟩ := h.inbox_event event hevent
      exact ⟨(hreferences _).mpr hexecution, htype, hsource, hidentity, hversion⟩
    · intro artifact hartifact
      obtain ⟨hrun, hexecution, htype, hcheck, hname, huri, hsize⟩ := h.artifact artifact hartifact
      exact ⟨hrun, (hreferences _).mpr hexecution, htype, hcheck, hname, huri, hsize⟩

/-- The error type an event brings is one of the known ones. -/
def KnownError (message : ExecutorEventMessage) : Prop :=
  ∀ error ∈ message.error, ∀ type ∈ error.type, type ∈ ERROR_TYPES

theorem schema_applyTo_iff (h : Schema c db) (now : Instant) (message : ExecutorEventMessage)
    {e : JobExecutionEntity} (he : e ∈ db.executions) :
    Schema c (db.mapExecutions (ExecutorEventService.applyTo now message e)) ↔
      KnownError message := by
  rw [schema_mapExecutions_iff h (ExecutorEventService.keeps_applyTo now message e)]
  have hself : (ExecutorEventService.applyTo now message e e).errorType =
      message.error.elim e.errorType ExecutorError.type := by
    rw [ExecutorEventService.applyTo, if_pos rfl]
    rcases herror : message.error with _ | error
    · simp only [ExecutorEventService.applyEvent, herror, Option.elim_none]
    · simp only [ExecutorEventService.applyEvent, herror, Option.elim_some]
  constructor
  · intro hall error herror
    have hrow := hall e he
    rw [hself, Option.mem_def.mp herror] at hrow
    exact hrow
  · intro hknown x hx
    by_cases hid : x.id = e.id
    · cases herror : message.error with
      | none =>
        have hkeep : (ExecutorEventService.applyTo now message e x).errorType = x.errorType := by
          simp only [ExecutorEventService.applyTo, if_pos hid, ExecutorEventService.applyEvent,
            herror]
        rw [hkeep]
        exact (h.job_execution x hx).error_type_check
      | some error =>
        have hset : (ExecutorEventService.applyTo now message e x).errorType = error.type := by
          simp only [ExecutorEventService.applyTo, if_pos hid, ExecutorEventService.applyEvent,
            herror]
        rw [hset]
        exact hknown error herror
    · rw [ExecutorEventService.applyTo, if_neg hid]
      exact (h.job_execution x hx).error_type_check

/-- An artifact that can be stored for a run. -/
structure Storable (runs : List PipelineRunEntity) (pipelineRunId : Option UUID)
    (descriptor : ArtifactDescriptor) : Prop where
  run : Table.References PipelineRunEntity.id runs pipelineRunId
  type : ∃ type ∈ ARTIFACT_TYPES, descriptor.type = some type
  name : descriptor.name ≠ none
  uri : descriptor.uri ≠ none
  size : ∀ size ∈ descriptor.sizeBytes, 0 ≤ size.toInt

theorem valid_artifact_iff {runs : List PipelineRunEntity} {executions : List JobExecutionEntity}
    {pipelineRunId jobExecutionId : Option UUID} {descriptor : ArtifactDescriptor}
    (hexecution : Table.References JobExecutionEntity.id executions jobExecutionId)
    (metadata : Json) (id : UUID) :
    (ArtifactService.registerOne.artifact now pipelineRunId jobExecutionId descriptor metadata
      id).Valid runs executions ↔ Storable runs pipelineRunId descriptor := by
  constructor
  · rintro ⟨hrun, -, htype, hcheck, hname, huri, hsize⟩
    obtain ⟨type, htype⟩ := Option.ne_none_iff_exists'.mp htype
    exact ⟨hrun, ⟨type, hcheck type htype, htype⟩, hname, huri, hsize⟩
  · rintro ⟨hrun, ⟨type, htype, hsome⟩, hname, huri, hsize⟩
    refine ⟨hrun, hexecution, ?_, ?_, hname, huri, hsize⟩
    · exact Option.ne_none_iff_exists'.mpr ⟨type, hsome⟩
    · intro type' htype'
      obtain rfl := Option.some.inj (hsome.symm.trans htype')
      exact htype

theorem schema_saveArtifact_iff (h : Schema c db) {artifact : ArtifactEntity} (n : ℕ) :
    Schema c ((db.drawIds n).saveArtifact artifact) ↔ artifact.Valid db.runs db.executions := by
  constructor
  · exact fun hschema ↦ hschema.artifact artifact (Table.mem_save_self _ _)
  · intro hvalid
    refine ⟨h.job_execution_pk, h.unique_job_execution_attempt, h.job_execution, h.inbox_event_pk,
      h.inbox_event_message_consumer_uq, h.inbox_event_source_document_consumer_uq, h.inbox_event,
      h.artifact_pk.save artifact, fun row hrow ↦ ?_⟩
    rcases Table.mem_save hrow with hold | rfl
    · exact h.artifact row hold
    · exact hvalid

theorem schema_registerOne_iff (h : Schema c db) (now : Instant)
    {pipelineRunId jobExecutionId : Option UUID} {descriptor : ArtifactDescriptor}
    (hexecution : Table.References JobExecutionEntity.id db.executions jobExecutionId) :
    Schema c (ArtifactService.registerOne now pipelineRunId jobExecutionId db descriptor) ↔
      Storable db.runs pipelineRunId descriptor := by
  rw [ArtifactService.registerOne]
  cases descriptor.artifactId with
  | none => exact (schema_saveArtifact_iff h 1).trans (valid_artifact_iff hexecution _ _)
  | some id => exact (schema_saveArtifact_iff h 0).trans (valid_artifact_iff hexecution _ _)

theorem schema_foldl_registerOne {descriptors : List ArtifactDescriptor}
    {pipelineRunId jobExecutionId : Option UUID} (h : Schema c db) (now : Instant)
    (hexecution : Table.References JobExecutionEntity.id db.executions jobExecutionId)
    (hall : ∀ descriptor ∈ descriptors, Storable db.runs pipelineRunId descriptor) :
    Schema c (descriptors.foldl (ArtifactService.registerOne now pipelineRunId jobExecutionId)
      db) := by
  induction descriptors generalizing db with
  | nil => exact h
  | cons descriptor descriptors ih =>
    obtain ⟨artifacts, n, hframe⟩ :=
      ArtifactService.registerOne_frame now pipelineRunId jobExecutionId db descriptor
    rw [List.forall_mem_cons] at hall
    have hfirst := (schema_registerOne_iff h now hexecution).mpr hall.1
    rw [List.foldl_cons]
    rw [hframe] at hfirst ⊢
    exact ih hfirst hexecution hall.2

/-- The artifacts of an event are stored when each of them is storable. -/
theorem foldlM_registerOne_iff {descriptors : List ArtifactDescriptor}
    {pipelineRunId jobExecutionId : Option UUID} (h : Schema c db)
    (hexecution : Table.References JobExecutionEntity.id db.executions jobExecutionId) :
    descriptors.foldlM (fun db descriptor ↦ statement c (fun db ↦
        ArtifactService.registerOne now pipelineRunId jobExecutionId db descriptor) db) db =
      .ok db' ↔
      (∀ descriptor ∈ descriptors, Storable db.runs pipelineRunId descriptor) ∧
        descriptors.foldl (ArtifactService.registerOne now pipelineRunId jobExecutionId) db =
          db' := by
  induction descriptors generalizing db with
  | nil =>
    rw [List.foldlM_nil, List.foldl_nil]
    exact ⟨fun heq ↦ ⟨by simp, Except.ok.inj heq⟩, fun hnil ↦ congrArg Except.ok hnil.2⟩
  | cons descriptor descriptors ih =>
    obtain ⟨artifacts, n, hframe⟩ :=
      ArtifactService.registerOne_frame now pipelineRunId jobExecutionId db descriptor
    have hfirst : Schema c (ArtifactService.registerOne now pipelineRunId jobExecutionId db
        descriptor) ↔ Storable db.runs pipelineRunId descriptor :=
      schema_registerOne_iff h now hexecution
    rw [List.foldlM_cons, List.foldl_cons, bind_eq_ok, List.forall_mem_cons, ← hfirst, and_assoc]
    simp only [statement_eq_ok, hframe]
    constructor
    · rintro ⟨_, ⟨hschema, rfl⟩, hrest⟩
      exact ⟨hschema, (ih hschema hexecution).mp hrest⟩
    · rintro ⟨hschema, hrest⟩
      exact ⟨_, ⟨hschema, rfl⟩, (ih hschema hexecution).mpr hrest⟩

/-- A message that can be registered as processed. -/
structure Registrable (executions : List JobExecutionEntity)
    (delivery : ExecutorEventService.Delivery) (message : ExecutorEventMessage) : Prop where
  job_execution : Table.References JobExecutionEntity.id executions message.jobExecutionId
  event_type : message.eventType ≠ none
  source : delivery.eventSource ∈ EVENT_SOURCES
  identity : message.messageId ≠ none ∨ delivery.sourceDocumentId ≠ none
  schema_version : 0 < message.schemaVersion.toInt

theorem isDuplicate_eq_false {consumerName eventSource : String} {sourceDocumentId : Option String}
    {messageId : Option UUID} : InboxDeduplicationService.isDuplicate consumerName eventSource
      sourceDocumentId messageId db = false ↔
    (∀ id ∈ messageId, ∀ event ∈ db.inbox, event.messageId = some id →
      event.consumerName ≠ consumerName) ∧
    ∀ document ∈ sourceDocumentId, ∀ event ∈ db.inbox, event.sourceDocumentId = some document →
      event.eventSource = eventSource → event.consumerName ≠ consumerName := by
  rw [InboxDeduplicationService.isDuplicate, Bool.or_eq_false_iff, Bool.and_eq_false_iff,
    Bool.and_eq_false_iff, List.any_eq_false, List.any_eq_false]
  refine and_congr ?_ ?_
  · cases messageId with
    | none => simp
    | some id => simp
  · cases sourceDocumentId with
    | none => simp
    | some document =>
      simp only [Option.isSome_some, Bool.true_eq_false, false_or, Bool.and_eq_true,
        decide_eq_true_eq, Option.mem_some_iff, forall_eq']
      exact forall₂_congr fun event _ ↦ by tauto

theorem schema_registerProcessed_iff (h : Schema c db) (now : Instant) (hfresh : InboxFresh db)
    (hnew : InboxDeduplicationService.isDuplicate delivery.consumerName delivery.eventSource
      delivery.sourceDocumentId message.messageId db = false) :
    Schema c (InboxDeduplicationService.registerProcessed now delivery.consumerName
      delivery.topic delivery.messageKey delivery.eventSource delivery.sourceDocumentId
        message db) ↔
      Registrable db.executions delivery message := by
  constructor
  · intro hschema
    obtain ⟨hexecution, htype, hsource, hidentity, hversion⟩ :=
      hschema.inbox_event _ (Table.mem_save_self _ _)
    exact ⟨hexecution, htype, hsource, hidentity, hversion⟩
  · rintro ⟨hexecution, htype, hsource, hidentity, hversion⟩
    obtain ⟨hmessage, hdocument⟩ := isDuplicate_eq_false.mp hnew
    rw [InboxDeduplicationService.registerProcessed, Db.saveInboxEvent, Table.save_fresh]
    · refine ⟨h.job_execution_pk, h.unique_job_execution_attempt, h.job_execution, ?_, ?_, ?_, ?_,
        h.artifact_pk, h.artifact⟩
      · refine Table.keyed_append.mpr ⟨h.inbox_event_pk, by simp [Table.Keyed], ?_⟩
        intro event hevent event' hevent'
        rw [List.mem_singleton.mp hevent']
        exact (hfresh event hevent).ne
      · refine h.inbox_event_message_consumer_uq.append ?_
        rintro _ hkey event hevent hsame
        obtain ⟨id, hid, rfl⟩ := Option.map_eq_some_iff.mp hkey
        obtain ⟨id', hid', heq⟩ := Option.map_eq_some_iff.mp hsame
        obtain ⟨rfl, hconsumer⟩ := Prod.mk.inj heq
        exact hmessage id' hid event hevent hid' hconsumer
      · refine h.inbox_event_source_document_consumer_uq.append ?_
        rintro _ hkey event hevent hsame
        obtain ⟨document, hid, rfl⟩ := Option.map_eq_some_iff.mp hkey
        obtain ⟨document', hid', heq⟩ := Option.map_eq_some_iff.mp hsame
        obtain ⟨hsource', hpair⟩ := Prod.mk.inj heq
        obtain ⟨rfl, hconsumer⟩ := Prod.mk.inj hpair
        exact hdocument document' hid event hevent hid' hsource' hconsumer
      · intro event hevent
        rcases List.mem_append.mp hevent with hold | hlast
        · exact h.inbox_event event hold
        · rw [List.mem_singleton.mp hlast]
          exact ⟨hexecution, htype, hsource, hidentity, hversion⟩
    · exact fun event hevent ↦ (hfresh event hevent).ne

theorem saveExecution_applyEvent (hs : Sound db) (now : Instant) (message : ExecutorEventMessage)
    {e : JobExecutionEntity} (he : e ∈ db.executions) :
    db.saveExecution (ExecutorEventService.applyEvent now message
      (ExecutorEventService.changesStatus e.status (ExecutorEventService.mapStatus message.status))
      (ExecutorEventService.mapStatus message.status) e) =
      db.mapExecutions (ExecutorEventService.applyTo now message e) :=
  saveExecution_update hs he (f := ExecutorEventService.applyEvent now message
    (ExecutorEventService.changesStatus e.status (ExecutorEventService.mapStatus message.status))
    (ExecutorEventService.mapStatus message.status)) rfl

/-- What an event of an execution has to bring to be stored. -/
structure Writable (db : Db) (delivery : ExecutorEventService.Delivery)
    (message : ExecutorEventMessage) : Prop where
  error : KnownError message
  artifacts : ∀ descriptor ∈ message.artifacts.getD [],
    Storable db.runs message.pipelineRunId descriptor
  registrable : Registrable db.executions delivery message

section Stored

variable {e : JobExecutionEntity}

theorem references_applyTo (now : Instant) (he : e ∈ db.executions)
    (hid : message.jobExecutionId = some e.id) :
    Table.References JobExecutionEntity.id
      (db.mapExecutions (ExecutorEventService.applyTo now message e)).executions
      message.jobExecutionId := by
  have hkeeps := ExecutorEventService.keeps_applyTo now message e
  refine (Table.references_map hkeeps.id _).mpr fun id hmem ↦ ⟨e, he, ?_⟩
  exact Option.some.inj (hid.symm.trans hmem)

/-- After the other statements a message is registered when it is registrable. -/
theorem schema_store_iff (hs : Sound db) (hfresh : InboxFresh db)
    (hnew : InboxDeduplicationService.isDuplicate delivery.consumerName delivery.eventSource
      delivery.sourceDocumentId message.messageId db = false)
    (he : e ∈ db.executions)
    (hschema : Schema c (ArtifactService.register now message.pipelineRunId message.jobExecutionId
      message.artifacts (db.mapExecutions (ExecutorEventService.applyTo now message e)))) :
    Schema c (ExecutorEventService.store now delivery message e db) ↔
      Registrable db.executions delivery message := by
  obtain ⟨rows, n, hregister⟩ := ArtifactService.register_frame now message.pipelineRunId
    message.jobExecutionId message.artifacts
    (db.mapExecutions (ExecutorEventService.applyTo now message e))
  have hkeeps := ExecutorEventService.keeps_applyTo now message e
  rw [hregister] at hschema
  rw [ExecutorEventService.store, saveExecution_applyEvent hs now message he, hregister,
    schema_registerProcessed_iff hschema now _ hnew]
  · constructor
    · rintro ⟨hreference, htype, hsource, hidentity, hversion⟩
      exact ⟨(Table.references_map hkeeps.id _).mp hreference, htype, hsource, hidentity, hversion⟩
    · rintro ⟨hreference, htype, hsource, hidentity, hversion⟩
      exact ⟨(Table.references_map hkeeps.id _).mpr hreference, htype, hsource, hidentity, hversion⟩
  · exact fun event hevent ↦ (hfresh event hevent).trans_le (Nat.le_add_right _ n)

/-- **Storing.** The statements of a stored event succeed when it is writable, and they write what
`store` writes. -/
theorem storeStatements_iff (h : Schema c db) (hs : Sound db) (now : Instant)
    (hfresh : InboxFresh db)
    (hnew : InboxDeduplicationService.isDuplicate delivery.consumerName delivery.eventSource
      delivery.sourceDocumentId message.messageId db = false)
    (he : e ∈ db.executions) (hid : message.jobExecutionId = some e.id) :
    ExecutorEventService.storeStatements c now delivery message e db = .ok db' ↔
      Writable db delivery message ∧
        ExecutorEventService.store now delivery message e db = db' := by
  have hexecution := references_applyTo now he hid
  have hstore : InboxDeduplicationService.registerProcessed now delivery.consumerName
      delivery.topic delivery.messageKey delivery.eventSource delivery.sourceDocumentId message
      (ArtifactService.register now message.pipelineRunId message.jobExecutionId message.artifacts
        (db.mapExecutions (ExecutorEventService.applyTo now message e))) =
      ExecutorEventService.store now delivery message e db := by
    rw [ExecutorEventService.store, saveExecution_applyEvent hs now message he]
  rw [ExecutorEventService.storeStatements, bind_eq_ok]
  constructor
  · rintro ⟨db₁, hone, hok⟩
    obtain ⟨hschema₁, rfl⟩ := statement_eq_ok.mp hone
    rw [saveExecution_applyEvent hs now message he] at hschema₁ hok
    obtain ⟨db₂, htwo, hthree⟩ := bind_eq_ok.mp hok
    obtain ⟨hstorable, rfl⟩ := (foldlM_registerOne_iff hschema₁ hexecution).mp htwo
    obtain ⟨hschema₃, rfl⟩ := statement_eq_ok.mp hthree
    have hschema₂ := schema_foldl_registerOne hschema₁ now hexecution hstorable
    refine ⟨⟨(schema_applyTo_iff h now message he).mp hschema₁, hstorable, ?_⟩, hstore.symm⟩
    exact (schema_store_iff hs hfresh hnew he hschema₂).mp (hstore ▸ hschema₃)
  · rintro ⟨⟨hknown, hstorable, hregistrable⟩, rfl⟩
    have hschema₁ := (schema_applyTo_iff h now message he).mpr hknown
    have hschema₂ := schema_foldl_registerOne hschema₁ now hexecution hstorable
    have hschema₃ := (schema_store_iff hs hfresh hnew he hschema₂).mpr hregistrable
    refine ⟨_, statement_eq_ok.mpr ⟨?_, saveExecution_applyEvent hs now message he⟩, ?_⟩
    · exact hschema₁
    · refine bind_eq_ok.mpr ⟨_, (foldlM_registerOne_iff hschema₁ hexecution).mpr
        ⟨hstorable, rfl⟩, ?_⟩
      exact statement_eq_ok.mpr ⟨hschema₃, hstore⟩

end Stored

end Statements

end FuzzingCiCd.Master
