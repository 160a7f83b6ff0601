import FuzzingCiCd.Master.Contract
import Mathlib.Data.List.Forall2

/-!
# Events on the wire

An executor writes its event with the property names of one record hierarchy and the master reads
it with those of another. `received` is what the master reads: everything under a common name
survives, the type and the checksum of an artifact are written under names that the master does
not know, and the details of an error are a text where the master wants an object, so that an event
with details cannot be read at all.
-/

namespace FuzzingCiCd.Integration

open Decoder

/-! ## What the master reads

The executor's record is written with its own property names and read with those of the master's.
Each pair of names that differ loses a field, and a field of another type makes the whole event
unreadable; `received` is computed field by field from both. -/

/-- The artifact as the master reads it. -/
def receivedArtifact (a : Contracts.ArtifactDescriptor) : Master.ArtifactDescriptor where
  artifactId := a.artifactId
  type := none
  name := a.name
  uri := a.uri
  sizeBytes := a.sizeBytes
  sha256 := none
  metadata := some a.metadata

/-- The error as the master reads it when it has no details. -/
def receivedError (e : Contracts.ExecutorError) : Master.ExecutorError where
  code := e.code
  type := e.type.map Contracts.ErrorType.wireValue
  retryable := none
  message := e.message
  details := none

/-- The event as the master reads it when its error has no details. -/
def received (m : Contracts.ExecutorEventMessage) : Master.ExecutorEventMessage where
  schemaVersion := m.schemaVersion
  messageId := some m.messageId
  correlationId := m.correlationId
  pipelineRunId := m.pipelineRunId
  pipelineId := m.pipelineId
  stageId := m.stageId
  jobId := m.jobId
  jobExecutionId := m.jobExecutionId
  jobType := m.jobType.map Contracts.JobType.wireValue
  templatePath := m.templatePath
  eventType := some m.eventType.wireValue
  status := some m.status.wireValue
  attempt := m.attempt
  workerId := some m.workerId
  startedAt := none
  finishedAt := none
  durationMs := m.durationMs
  artifacts := some (m.artifacts.map receivedArtifact)
  metrics := some m.metrics
  summary := m.summary
  error := m.error.map receivedError
  logs := m.logs
  additionalData := some m.additionalData

section Decoding

variable (uuid : TextCodec UUID) (instant : TextCodec Instant)

theorem nullable_uuidJson (o : Option UUID) :
    nullable (text uuid) (Contracts.uuidJson uuid o) = .ok o :=
  nullable_ofOption (text_format uuid) (fun _ ↦ by simp) o

theorem nullable_textJson (o : Option String) :
    nullable string (Contracts.textJson o) = .ok o :=
  nullable_ofOption string_str (fun _ ↦ by simp) o

theorem nullable_wireJson {α : Type} (wireValue : α → String) (o : Option α) :
    nullable string (Json.ofOption (fun a ↦ .str (wireValue a)) o) = .ok (o.map wireValue) := by
  cases o with
  | none => rfl
  | some a => rfl

theorem nullable_map_obj (fields : JsonMap) : nullable map (.obj fields) = .ok (some fields) := rfl

theorem decode_artifact (a : Contracts.ArtifactDescriptor) :
    Master.ArtifactDescriptor.decode uuid (a.toJson uuid) = .ok (receivedArtifact a) := by
  have hsize : boxedInt64 (Contracts.longJson a.sizeBytes) = .ok a.sizeBytes :=
    boxedInt64_ofOption a.sizeBytes
  simp [Master.ArtifactDescriptor.decode, Contracts.ArtifactDescriptor.toJson,
    Json.property_cons_ne, nullable_uuidJson, nullable_textJson, hsize, nullable_map_obj,
    receivedArtifact, bind, Except.bind, pure, Except.pure]

/-- The details of an error are a text and bind to an object only when they are absent. -/
theorem nullable_map_textJson (o : Option String) : nullable map (Contracts.textJson o) =
    if o = none then .ok none else .error (.expected "object") := by
  cases o with
  | none => rfl
  | some d => rfl

theorem decode_error (e : Contracts.ExecutorError) : Master.ExecutorError.decode e.toJson =
    if e.details = none then .ok (receivedError e) else .error (.expected "object") := by
  have hfields : Master.ExecutorError.decode e.toJson =
      (if e.details = none then .ok none else .error (.expected "object") :
        Except MismatchedInput (Option JsonMap)).map fun details ↦
          { receivedError e with details := details } := by
    simp [Master.ExecutorError.decode, Contracts.ExecutorError.toJson, Json.property_cons_ne,
      nullable_wireJson, nullable_textJson, nullable_map_textJson, boolean, receivedError, bind,
      Except.bind, Except.map, pure, Except.pure]
  rw [hfields]
  by_cases hd : e.details = none
  · rw [if_pos hd, if_pos hd]
    rfl
  · rw [if_neg hd, if_neg hd]
    rfl

/-- An event can be read as long as its error has no details. -/
def Readable (m : Contracts.ExecutorEventMessage) : Prop :=
  ∀ e ∈ m.error, e.details = none

instance (m : Contracts.ExecutorEventMessage) : Decidable (Readable m) :=
  inferInstanceAs (Decidable (∀ e ∈ m.error, e.details = none))

theorem decode_errorJson (m : Contracts.ExecutorEventMessage) :
    nullable Master.ExecutorError.decode (Json.ofOption Contracts.ExecutorError.toJson m.error) =
      if Readable m then .ok (m.error.map receivedError) else .error (.expected "object") := by
  cases he : m.error with
  | none => simp [Readable, he]
  | some e =>
    rw [Json.ofOption_some, nullable_of_ne _ (by simp [Contracts.ExecutorError.toJson]),
      decode_error]
    by_cases hd : e.details = none
    · simp [Readable, he, hd, Except.map]
    · simp [Readable, he, hd, Except.map]

theorem decode_artifacts (as : List Contracts.ArtifactDescriptor) :
    nullable (list (Master.ArtifactDescriptor.decode uuid))
      (.arr (as.map (Contracts.ArtifactDescriptor.toJson uuid))) =
      .ok (some (as.map receivedArtifact)) := by
  rw [nullable_of_ne _ (by simp), list, items_map (decode_artifact uuid)]
  rfl

/-- **What the master reads** of an event that an executor wrote. -/
theorem decode_toJson (m : Contracts.ExecutorEventMessage) :
    Master.ExecutorEventMessage.decode uuid instant (m.toJson uuid) =
      if Readable m then .ok (received m) else .error (.expected "object") := by
  have hduration : boxedInt64 (Contracts.longJson m.durationMs) = .ok m.durationMs :=
    boxedInt64_ofOption m.durationMs
  have hfields : Master.ExecutorEventMessage.decode uuid instant (m.toJson uuid) =
      (if Readable m then .ok (m.error.map receivedError) else .error (.expected "object") :
        Except MismatchedInput (Option Master.ExecutorError)).map fun error ↦
          { received m with error := error } := by
    rw [← decode_errorJson]
    simp [Master.ExecutorEventMessage.decode, Contracts.ExecutorEventMessage.toJson,
      Json.property_cons_ne, nullable_uuidJson, nullable_textJson, nullable_wireJson, hduration,
      decode_artifacts, nullable_map_obj, received, bind, Except.bind, Except.map, pure,
      Except.pure]
  rw [hfields]
  by_cases hr : Readable m
  · rw [if_pos hr, if_pos hr]
    rfl
  · rw [if_neg hr, if_neg hr]
    rfl

end Decoding

/-! ## What survives

Two artifacts agree if nothing was lost of the one under a name that only the executor knows, and
two events if their artifacts do; with the condition for being readable this is the exact one. -/

/-- The artifact arrives with its identity, type, name, location, size and checksum. -/
def SameArtifact (a : Contracts.ArtifactDescriptor) (a' : Master.ArtifactDescriptor) : Prop :=
  a'.artifactId = a.artifactId ∧ a'.type = a.artifactType ∧ a'.name = a.name ∧ a'.uri = a.uri ∧
    a'.sizeBytes = a.sizeBytes ∧ a'.sha256 = a.checksumSha256

/-- The error arrives with its type, code and message. -/
def SameError (e : Contracts.ExecutorError) (e' : Master.ExecutorError) : Prop :=
  e'.type = e.type.map Contracts.ErrorType.wireValue ∧ e'.code = e.code ∧ e'.message = e.message

/-- The event arrives: identifiers, type, status, error and artifacts in order. -/
structure SameEvent (m : Contracts.ExecutorEventMessage) (m' : Master.ExecutorEventMessage) :
    Prop where
  messageId : m'.messageId = some m.messageId
  jobExecutionId : m'.jobExecutionId = m.jobExecutionId
  pipelineRunId : m'.pipelineRunId = m.pipelineRunId
  eventType : m'.eventType = some m.eventType.wireValue
  status : m'.status = some m.status.wireValue
  error : Option.Rel SameError m.error m'.error
  artifacts : ∃ as, m'.artifacts = some as ∧ List.Forall₂ SameArtifact m.artifacts as

theorem sameArtifact_received_iff {a : Contracts.ArtifactDescriptor} :
    SameArtifact a (receivedArtifact a) ↔ a.artifactType = none ∧ a.checksumSha256 = none := by
  simp [SameArtifact, receivedArtifact, eq_comm]

theorem sameEvent_received_iff {m : Contracts.ExecutorEventMessage} :
    SameEvent m (received m) ↔
      ∀ a ∈ m.artifacts, a.artifactType = none ∧ a.checksumSha256 = none := by
  have hartifacts : List.Forall₂ SameArtifact m.artifacts (m.artifacts.map receivedArtifact) ↔
      ∀ a ∈ m.artifacts, a.artifactType = none ∧ a.checksumSha256 = none := by
    rw [List.forall₂_map_right_iff, List.forall₂_same]
    exact forall₂_congr fun a _ ↦ sameArtifact_received_iff
  rw [← hartifacts]
  constructor
  · intro h
    obtain ⟨as, has, hrel⟩ := h.artifacts
    obtain rfl := Option.some.inj has
    exact hrel
  · intro h
    refine ⟨rfl, rfl, rfl, rfl, rfl, ?_, ⟨_, rfl, h⟩⟩
    rw [received]
    cases m.error with
    | none => exact Option.Rel.none
    | some e => exact Option.Rel.some ⟨rfl, rfl, rfl⟩

/-- **The event contract on the wire.** An event survives exactly when its error has no details
and its artifacts have neither a type nor a checksum. -/
theorem event_survives_iff (uuid : TextCodec UUID) (instant : TextCodec Instant)
    (m : Contracts.ExecutorEventMessage) :
    (∃ m', Master.ExecutorEventMessage.decode uuid instant (m.toJson uuid) = .ok m' ∧
      SameEvent m m') ↔
      (∀ e, m.error = some e → e.details = none) ∧
        ∀ a ∈ m.artifacts, a.artifactType = none ∧ a.checksumSha256 = none := by
  have hreadable : Readable m ↔ ∀ e, m.error = some e → e.details = none := by
    simp [Readable]
  rw [decode_toJson, ← hreadable, ← sameEvent_received_iff]
  by_cases hr : Readable m
  · simp [hr]
  · simp [hr]

/-- The event of a job that produced one binary and failed without details. -/
def eventWithBinary : Contracts.ExecutorEventMessage where
  schemaVersion := 1
  messageId := 1
  correlationId := none
  pipelineRunId := some 2
  pipelineId := none
  stageId := none
  jobId := none
  jobExecutionId := some 3
  jobType := some .build
  templatePath := some "build/make"
  eventType := .jobFinished
  status := .success
  attempt := 1
  workerId := "executor-worker"
  durationMs := some 5
  artifacts :=
    [{ artifactId := some 4
       artifactType := some "binary"
       name := some "app"
       uri := some "s3://artifacts/app"
       contentType := none
       sizeBytes := some 1024
       checksumSha256 := some "9f86d081"
       metadata := [] }]
  metrics := []
  summary := none
  error := none
  logs := none
  additionalData := []

/-- The event of a job that ended with an unexpected exception, whose message is in the details. -/
def eventWithDetails : Contracts.ExecutorEventMessage :=
  { eventWithBinary with
    status := .failed
    artifacts := []
    error := some
      { type := some .unknown
        code := some "executor.job.unexpected"
        message := some "unexpected"
        details := some "connection refused"
        metadata := [] } }

/-- Identifiers written in strokes. -/
def strokes : TextCodec UUID := .strokes (fun n ↦ n) some fun _ ↦ rfl

/-- Instants written in strokes. -/
def instantStrokes : TextCodec Instant := .intStrokes

/-- One event arrives without the type and the checksum of its artifact, the other not at all. -/
theorem events_lost :
    ¬ (∀ (uuid : TextCodec UUID) (instant : TextCodec Instant) (m : Contracts.ExecutorEventMessage),
      ∃ m', Master.ExecutorEventMessage.decode uuid instant (m.toJson uuid) = .ok m' ∧
        SameEvent m m') ∧
    ¬ SameEvent eventWithBinary (received eventWithBinary) := by
  constructor
  · intro h
    obtain ⟨m', hm', -⟩ := h strokes instantStrokes eventWithDetails
    rw [decode_toJson, if_neg (by decide)] at hm'
    exact absurd hm' (by simp)
  · rw [sameEvent_received_iff]
    decide

end FuzzingCiCd.Integration
