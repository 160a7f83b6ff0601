import FuzzingCiCd.Master.Operations
import FuzzingCiCd.Master.PipelineService

/-!
# The parameters of a job message

`createJob` accepts a document when nothing in it is a secret, and `JobMessageFactory.build` masks
what it has accepted. The first looks at the values under sensitive keys, the second does not:
`null`, a blank text or an empty array under such a key is accepted and then replaced by the mask.
`params_unchanged_iff` says that nothing else is.
-/

namespace FuzzingCiCd.Master

open Transition SensitiveDataSanitizer

namespace JobMessageFactory

/-- The document that a message has for a map. -/
def document : Option JsonMap → Json
  | none => .null
  | some fields => .obj fields

theorem document_of_toMap {value : Json} {fields : Option JsonMap} (h : toMap value = .ok fields) :
    document fields = redact value := by
  rw [toMap] at h
  split at h
  case h_1 hnull =>
    obtain rfl := Except.ok.inj h
    exact hnull.symm
  case h_2 hobj =>
    obtain rfl := Except.ok.inj h
    exact hobj.symm
  case h_3 => cases h

theorem params_of_build {now : Instant} {messageId pipelineId stageId : UUID}
    {run : PipelineRunEntity} {job : JobEntity} {execution : JobExecutionEntity}
    {templatePath : Option String} {message : JobMessage}
    (h : build now messageId run job execution pipelineId stageId templatePath = .ok message) :
    document message.params = redact job.params := by
  rw [build] at h
  obtain ⟨params, hparams, h⟩ := bind_eq_ok.mp h
  obtain ⟨resourceLimits, -, h⟩ := bind_eq_ok.mp h
  obtain ⟨workspacePolicy, -, h⟩ := bind_eq_ok.mp h
  obtain rfl := Except.ok.inj h
  exact document_of_toMap hparams

end JobMessageFactory

/-- **Parameters.** The parameters of a job that was accepted reach the message unchanged exactly
when they do not name a secret. -/
theorem params_unchanged_iff {c c' : Catalog} {stageId : UUID} {request : CreateJobRequest}
    {job : JobEntity} (hcreated : PipelineService.createJob stageId request c = .ok (job, c'))
    {now : Instant} {messageId pipelineId stageId' : UUID} {run : PipelineRunEntity}
    {execution : JobExecutionEntity} {templatePath : Option String} {message : JobMessage}
    (hbuilt : JobMessageFactory.build now messageId run job execution pipelineId stageId'
      templatePath = .ok message) :
    JobMessageFactory.document message.params = job.params ↔ namesSecret job.params = false := by
  obtain ⟨-, hsecrets, hparams, -⟩ := PipelineService.createJob_ok hcreated
  rw [← hparams] at hsecrets
  rw [JobMessageFactory.params_of_build hbuilt, redact_eq_self_iff hsecrets]

namespace Small

/-- A request with these parameters. -/
def requestWith (params : Json) : CreateJobRequest where
  jobTemplateId := none
  position := 7
  jobType := "build"
  params := some params
  condition := none
  timeoutSeconds := none
  maxAttempts := none
  resourceLimits := none
  sandboxPolicy := none

/-- The job that is stored for it. -/
def jobWith (params : Json) : JobEntity where
  id := 3
  stageId := 1
  jobTemplateId := none
  position := 7
  jobType := .build
  params := params
  condition := .onSuccess
  timeoutSeconds := 3600
  maxAttempts := 1
  resourceLimits := .obj []
  sandboxPolicy := .obj []

def startedRun : PipelineRunEntity :=
  PipelineRunService.newRun 0 0 1 0 none none

/-- The message for the first attempt of a job. -/
def messageFor (job : JobEntity) : Except ServiceException JobMessage :=
  JobMessageFactory.build 0 5 startedRun job
    (PipelineRunService.newExecution 0 4 startedRun job 1) 0 1 none

/-- A token that is given by a reference. -/
def referencedToken : Json := .obj [("tokenRef", .str "ci/registry")]

/-- A token that is left out. -/
def noToken : Json := .obj [("token", .null)]

end Small

/-- A reference reaches the executor. -/
theorem params_unchanged_reference :
    ∃ c' message, PipelineService.createJob 1 (Small.requestWith Small.referencedToken) Small.solo =
        .ok (Small.jobWith Small.referencedToken, c') ∧
      Small.messageFor (Small.jobWith Small.referencedToken) = .ok message ∧
      JobMessageFactory.document message.params = Small.referencedToken := by
  obtain ⟨c', hcreated⟩ : ∃ c', PipelineService.createJob 1
      (Small.requestWith Small.referencedToken) Small.solo =
        .ok (Small.jobWith Small.referencedToken, c') := ⟨_, rfl⟩
  obtain ⟨message, hbuilt⟩ : ∃ message,
      Small.messageFor (Small.jobWith Small.referencedToken) = .ok message := ⟨_, rfl⟩
  refine ⟨c', message, hcreated, hbuilt, (params_unchanged_iff hcreated hbuilt).mpr ?_⟩
  decide +kernel

/-- A token that is left out reaches the executor as the mask. -/
theorem params_changed : ∃ c' message,
    PipelineService.createJob 1 (Small.requestWith Small.noToken) Small.solo =
        .ok (Small.jobWith Small.noToken, c') ∧
      Small.messageFor (Small.jobWith Small.noToken) = .ok message ∧
      JobMessageFactory.document message.params ≠ Small.noToken :=
  ⟨_, _, rfl, rfl, by decide +kernel⟩

end FuzzingCiCd.Master
