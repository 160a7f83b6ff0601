import FuzzingCiCd.Executor.Reports
import FuzzingCiCd.Integration.EventWire
import FuzzingCiCd.Master.Operations

/-!
# The sandbox policy on its way to the executor

`JobMessageFactory` passes the sandbox policy of a job where the record of the master has its
workspace policy, and that record has no sandbox policy at all. The executor therefore decodes
every message without a sandbox policy, which its validator accepts, so a dangerous policy stops a
job only where the executor refuses the message for another reason.

## Main results

* `decode_built`: what the executor reads of a message that the factory has built.
* `sandboxPolicy_enforced_iff`: for which jobs a rejected policy keeps the code from being called.
-/

namespace FuzzingCiCd.Integration

open Decoder Transition Master

/-! ## What the executor reads -/

/-- The job as the executor reads it. -/
def receivedJob (m : JobMessage) (jobType : Option Contracts.JobType) (attempt maxAttempts : Int32)
    (timeoutSeconds : Int64) (resourceLimits : Option Contracts.ResourceLimits)
    (workspacePolicy : Option Contracts.WorkspacePolicy) : Contracts.JobMessage where
  schemaVersion := 1
  messageId := some m.messageId
  correlationId := some m.correlationId
  pipelineRunId := some m.pipelineRunId
  pipelineId := some m.pipelineId
  stageId := some m.stageId
  jobId := some m.jobId
  jobExecutionId := some m.jobExecutionId
  jobType := jobType
  templatePath := some m.templatePath
  attempt := attempt
  maxAttempts := maxAttempts
  timeoutSeconds := timeoutSeconds
  resourceLimits := resourceLimits.getD .empty
  workspacePolicy := workspacePolicy
  sandboxPolicy := none
  inputs := m.inputs
  params := m.params.getD []
  secrets := m.secrets
  createdAt := some m.createdAt

section Decoding

variable (uuid : TextCodec UUID) (instant : TextCodec Instant)

theorem decodeMap_ofOption (o : Option JsonMap) :
    Contracts.decodeMap (Json.ofOption .obj o) = .ok (o.getD []) := by
  cases o with
  | none => rfl
  | some fields => rfl

theorem decodeMap_obj (fields : JsonMap) : Contracts.decodeMap (.obj fields) = .ok fields := rfl

theorem decode_job (m : JobMessage) (hversion : m.schemaVersion = 1) :
    Contracts.JobMessage.decode uuid instant (m.toJson uuid instant) = (do
      let jobType ← nullable (enum Contracts.JobType.fromWireValue) (.str m.jobType)
      let attempt ← int32 (intJson m.attempt)
      let maxAttempts ← int32 (intJson m.maxAttempts)
      let timeoutSeconds ← int64 (intJson m.timeoutSeconds)
      let resourceLimits ← nullable Contracts.ResourceLimits.decode
        (Json.ofOption .obj m.resourceLimits)
      let workspacePolicy ← nullable Contracts.WorkspacePolicy.decode
        (Json.ofOption .obj m.workspacePolicy)
      return receivedJob m jobType attempt maxAttempts timeoutSeconds resourceLimits
        workspacePolicy) := by
  have hone : int32 (intJson 1) = .ok 1 := int32_toInt 1
  rw [Contracts.JobMessage.decode, JobMessage.toJson, map_obj, hversion]
  rw [ok_bind]
  simp only [Json.property_cons_self, Json.property_cons_ne, ne_eq, String.reduceEq,
    not_false_eq_true, Json.property_nil, hone, nullable_format, nullable_str, nullable_null,
    decodeMap_ofOption, decodeMap_obj, ok_bind]
  rfl

end Decoding

/-! ## What the factory builds

The master writes the sandbox policy of a job under the name of the workspace policy. What the
executor reads is therefore a workspace policy, of which it may or may not make sense, and a
message without a sandbox policy; the condition on a stored policy is only that it can be read as
that. -/

section Built

variable {now : Instant} {id : UUID} {run : PipelineRunEntity} {job : JobEntity}
  {execution : JobExecutionEntity} {pipelineId stageId : UUID} {templatePath : Option String}
  {m : JobMessage}

theorem ofOption_toMap {value : Json} {fields : Option JsonMap}
    (h : JobMessageFactory.toMap value = .ok fields) :
    Json.ofOption .obj fields = SensitiveDataSanitizer.redact value := by
  rw [JobMessageFactory.toMap] at h
  split at h
  · obtain rfl := Except.ok.inj h
    rename_i hredact
    rw [hredact, Json.ofOption_none]
  · obtain rfl := Except.ok.inj h
    rename_i hredact
    rw [hredact, Json.ofOption_some]
  · cases h

/-- The template path of a message. -/
def pathOf (job : JobEntity) (templatePath : Option String) : String :=
  templatePath.getD (job.jobType.value ++ "/unknown-template")

/-- The executor can read the message. The sandbox policy arrives in the place of the workspace
policy. -/
structure ReadableJob (job : JobEntity) (execution : JobExecutionEntity) : Prop where
  attempt : execution.attempt < 2 ^ 31
  maxAttempts : job.maxAttempts < 2 ^ 31
  timeoutSeconds : job.timeoutSeconds < 2 ^ 63
  resourceLimits : ∃ limits, nullable Contracts.ResourceLimits.decode
    (SensitiveDataSanitizer.redact job.resourceLimits) = .ok limits
  workspacePolicy : ∃ policy, nullable Contracts.WorkspacePolicy.decode
    (SensitiveDataSanitizer.redact job.sandboxPolicy) = .ok policy

/-- The executor reads the message and finds nothing wrong with it apart from its sandbox
policy. -/
structure RunnableJob (job : JobEntity) (execution : JobExecutionEntity)
    (templatePath : Option String) : Prop extends ReadableJob job execution where
  path : JavaText.isBlank (pathOf job templatePath) = false
  attempt_pos : 0 < execution.attempt
  timeoutSeconds_pos : 0 < job.timeoutSeconds

theorem nullable_enum_value (t : JobType) : ∃ jobType,
    nullable (enum Contracts.JobType.fromWireValue) (.str t.value) = .ok (some jobType) := by
  cases t
  · exact ⟨.vcs, by decide⟩
  · exact ⟨.storage, by decide⟩
  · exact ⟨.build, by decide⟩
  · exact ⟨.fuzzing, by decide⟩
  · exact ⟨.deploy, by decide⟩
  · exact ⟨.script, by decide⟩

theorem decode_built (uuid : TextCodec UUID) (instant : TextCodec Instant)
    (hbuild : JobMessageFactory.build now id run job execution pipelineId stageId templatePath =
      .ok m) :
    ∃ jobType, ∀ jm, Contracts.JobMessage.decode uuid instant (m.toJson uuid instant) = .ok jm ↔
      (execution.attempt < 2 ^ 31 ∧ job.maxAttempts < 2 ^ 31 ∧ job.timeoutSeconds < 2 ^ 63) ∧
      ∃ limits policy, nullable Contracts.ResourceLimits.decode
          (SensitiveDataSanitizer.redact job.resourceLimits) = .ok limits ∧
        nullable Contracts.WorkspacePolicy.decode
          (SensitiveDataSanitizer.redact job.sandboxPolicy) = .ok policy ∧
        jm = receivedJob m (some jobType) (Int32.ofInt execution.attempt)
          (Int32.ofInt job.maxAttempts) (Int64.ofInt job.timeoutSeconds) limits policy := by
  rw [JobMessageFactory.build, bind_eq_ok] at hbuild
  obtain ⟨params, hparams, hbuild⟩ := hbuild
  obtain ⟨limits, hlimits, hbuild⟩ := bind_eq_ok.mp hbuild
  obtain ⟨policy, hpolicy, hbuild⟩ := bind_eq_ok.mp hbuild
  obtain rfl := Except.ok.inj hbuild
  obtain ⟨jobType, htype⟩ := nullable_enum_value job.jobType
  refine ⟨jobType, fun jm ↦ ?_⟩
  rw [decode_job uuid instant _ rfl]
  simp only [htype, ok_bind, intJson, int32_nat, int64_nat, ofOption_toMap hlimits,
    ofOption_toMap hpolicy, ite_bind_eq_ok]
  simp only [bind_eq_ok, pure, Except.pure, Except.ok.injEq, and_assoc, exists_and_left,
    eq_comm (b := jm)]

theorem exists_decode_iff (uuid : TextCodec UUID) (instant : TextCodec Instant)
    (hbuild : JobMessageFactory.build now id run job execution pipelineId stageId templatePath =
      .ok m) :
    (∃ jm, Contracts.JobMessage.decode uuid instant (m.toJson uuid instant) = .ok jm) ↔
      ReadableJob job execution := by
  obtain ⟨jobType, hdecode⟩ := decode_built uuid instant hbuild
  simp only [hdecode]
  constructor
  · rintro ⟨jm, ⟨ha, hm, ht⟩, limits, policy, hlimits, hpolicy, -⟩
    exact ⟨ha, hm, ht, ⟨limits, hlimits⟩, ⟨policy, hpolicy⟩⟩
  · rintro ⟨ha, hm, ht, ⟨limits, hlimits⟩, ⟨policy, hpolicy⟩⟩
    exact ⟨_, ⟨ha, hm, ht⟩, limits, policy, hlimits, hpolicy, rfl⟩

/-- The validator of the handler sees no sandbox policy. -/
theorem validate_received {jobType : Contracts.JobType} {limits : Option Contracts.ResourceLimits}
    {policy : Option Contracts.WorkspacePolicy} (ha : execution.attempt < 2 ^ 31)
    (ht : job.timeoutSeconds < 2 ^ 63) :
    Executor.ExecutorJobHandler.validate (receivedJob m (some jobType)
      (Int32.ofInt execution.attempt) (Int32.ofInt job.maxAttempts)
      (Int64.ofInt job.timeoutSeconds) limits policy) = .ok () ↔
      JavaText.isBlank m.templatePath = false ∧ 0 < execution.attempt ∧
        0 < job.timeoutSeconds := by
  have hattempt : (Int32.ofInt execution.attempt).toInt = execution.attempt :=
    Int32.toInt_ofInt_of_le (by omega) (by omega)
  have htimeout : (Int64.ofInt job.timeoutSeconds).toInt = job.timeoutSeconds :=
    Int64.toInt_ofInt_of_le (by omega) (by omega)
  simp only [Executor.ExecutorJobHandler.validate, receivedJob, hattempt, htimeout,
    Executor.SandboxPolicyValidator.validate]
  by_cases hpath : JavaText.isBlank m.templatePath = true
  · simp [hpath]
  · by_cases hpos : execution.attempt = 0
    · simp [hpath, hpos]
    · by_cases hwait : job.timeoutSeconds = 0
      · have : ¬ (execution.attempt : ℤ) < 1 := by omega
        simp [hpath, this, hwait]
      · have h₁ : ¬ (execution.attempt : ℤ) < 1 := by omega
        have h₂ : ¬ (job.timeoutSeconds : ℤ) < 1 := by omega
        simp [hpath, h₁, h₂]
        omega

theorem templatePath_built
    (hbuild : JobMessageFactory.build now id run job execution pipelineId stageId templatePath =
      .ok m) : m.templatePath = pathOf job templatePath := by
  rw [JobMessageFactory.build, bind_eq_ok] at hbuild
  obtain ⟨_, _, hbuild⟩ := hbuild
  obtain ⟨_, _, hbuild⟩ := bind_eq_ok.mp hbuild
  obtain ⟨_, _, hbuild⟩ := bind_eq_ok.mp hbuild
  obtain rfl := Except.ok.inj hbuild
  rfl

/-- The code of a job runs for some executor exactly when the message is runnable, whatever its
stored sandbox policy. -/
theorem exists_executed_iff (uuid : TextCodec UUID) (instant : TextCodec Instant)
    (hbuild : JobMessageFactory.build now id run job execution pipelineId stageId templatePath =
      .ok m) :
    (∃ jm env, Contracts.JobMessage.decode uuid instant (m.toJson uuid instant) = .ok jm ∧
      (Executor.ExecutorJobHandler.handle env jm .initial).2.executed = true) ↔
      RunnableJob job execution templatePath := by
  obtain ⟨jobType, hdecode⟩ := decode_built uuid instant hbuild
  simp only [exists_and_left (α := Executor.Environment)]
  simp only [Executor.ExecutorJobHandler.exists_executed_iff, hdecode]
  constructor
  · rintro ⟨jm, ⟨⟨ha, hm, ht⟩, limits, policy, hlimits, hpolicy, rfl⟩, hvalid⟩
    rw [validate_received ha ht, templatePath_built hbuild] at hvalid
    exact ⟨⟨ha, hm, ht, ⟨limits, hlimits⟩, ⟨policy, hpolicy⟩⟩, hvalid.1, hvalid.2.1, hvalid.2.2⟩
  · rintro ⟨⟨ha, hm, ht, ⟨limits, hlimits⟩, ⟨policy, hpolicy⟩⟩, hpath, hattempt, htimeout⟩
    refine ⟨_, ⟨⟨ha, hm, ht⟩, limits, policy, hlimits, hpolicy, rfl⟩, ?_⟩
    rw [validate_received ha ht, templatePath_built hbuild]
    exact ⟨hpath, hattempt, htimeout⟩

/-- Every message arrives without a sandbox policy. -/
theorem sandboxPolicy_received (uuid : TextCodec UUID) (instant : TextCodec Instant)
    (hbuild : JobMessageFactory.build now id run job execution pipelineId stageId templatePath =
      .ok m) {jm : Contracts.JobMessage}
    (h : Contracts.JobMessage.decode uuid instant (m.toJson uuid instant) = .ok jm) :
    jm.sandboxPolicy = none := by
  obtain ⟨jobType, hdecode⟩ := decode_built uuid instant hbuild
  obtain ⟨-, limits, policy, -, -, rfl⟩ := (hdecode jm).mp h
  rfl

/-! ## Enforcement -/

/-- The validator of the executor rejects the stored policy. -/
def Rejected (stored : Json) : Prop :=
  ∃ policy exception, Contracts.SandboxPolicy.decode stored = .ok policy ∧
    Executor.SandboxPolicyValidator.validate (some policy) = .error exception

/-- **The stored sandbox policy.** A rejected policy keeps the code of the job from being called
exactly when the executor cannot run the message anyway, and only an absent policy arrives as it
was stored. -/
theorem sandboxPolicy_enforced_iff (uuid : TextCodec UUID) (instant : TextCodec Instant)
    (hbuild : JobMessageFactory.build now id run job execution pipelineId stageId templatePath =
      .ok m) :
    ((Rejected job.sandboxPolicy →
      ∀ jm, Contracts.JobMessage.decode uuid instant (m.toJson uuid instant) = .ok jm →
        ∀ env, (Executor.ExecutorJobHandler.handle env jm .initial).2.executed = false) ↔
      ¬ Rejected job.sandboxPolicy ∨ ¬ RunnableJob job execution templatePath) ∧
    ∀ jm, Contracts.JobMessage.decode uuid instant (m.toJson uuid instant) = .ok jm →
      (nullable Contracts.SandboxPolicy.decode job.sandboxPolicy = .ok jm.sandboxPolicy ↔
        job.sandboxPolicy = .null) := by
  constructor
  · rw [← exists_executed_iff uuid instant hbuild, imp_iff_not_or]
    refine or_congr_right ?_
    push Not
    refine forall_congr' fun jm ↦ ⟨fun h env hjm ↦ ?_, fun h hjm env ↦ ?_⟩
    · rw [h hjm env]
      exact Bool.false_ne_true
    · exact Bool.eq_false_of_not_eq_true (h env hjm)
  · intro jm h
    rw [sandboxPolicy_received uuid instant hbuild h]
    constructor
    · intro hnone
      by_contra hne
      rw [nullable_of_ne _ hne] at hnone
      cases hpolicy : Contracts.SandboxPolicy.decode job.sandboxPolicy with
      | error e =>
        rw [hpolicy] at hnone
        cases hnone
      | ok policy =>
        rw [hpolicy] at hnone
        cases hnone
    · intro hnull
      rw [hnull, nullable_null]

end Built

/-- A build job that asks for a privileged container. -/
def privilegedJob : JobEntity :=
  { Small.job 2 0 with sandboxPolicy := .obj [("privileged", .bool true)] }

/-- The first execution of a job in the run of a fresh database. -/
def firstRun : PipelineRunEntity := PipelineRunService.newRun 0 3 4 0 none none

def firstExecution (job : JobEntity) : JobExecutionEntity :=
  PipelineRunService.newExecution 0 5 firstRun job 1

theorem sandboxPolicy_enforced_iff_privileged : ∃ m,
    JobMessageFactory.build 0 6 firstRun privilegedJob (firstExecution privilegedJob) 0 1
      (some "build/custom") = .ok m ∧
    ∀ (uuid : TextCodec UUID) (instant : TextCodec Instant),
      ((Rejected privilegedJob.sandboxPolicy →
        ∀ jm, Contracts.JobMessage.decode uuid instant (m.toJson uuid instant) = .ok jm →
          ∀ env, (Executor.ExecutorJobHandler.handle env jm .initial).2.executed = false) ↔
        ¬ Rejected privilegedJob.sandboxPolicy ∨
          ¬ RunnableJob privilegedJob (firstExecution privilegedJob) (some "build/custom")) ∧
      ∀ jm, Contracts.JobMessage.decode uuid instant (m.toJson uuid instant) = .ok jm →
        (nullable Contracts.SandboxPolicy.decode privilegedJob.sandboxPolicy =
          .ok jm.sandboxPolicy ↔ privilegedJob.sandboxPolicy = .null) :=
  ⟨_, rfl, fun uuid instant ↦ sandboxPolicy_enforced_iff uuid instant rfl⟩

/-- The validator rejects the policy, yet the code of the job is called. -/
theorem privileged_job_executed : Rejected privilegedJob.sandboxPolicy ∧ ∃ m,
    JobMessageFactory.build 0 6 firstRun privilegedJob (firstExecution privilegedJob) 0 1
      (some "build/custom") = .ok m ∧
    ∀ (uuid : TextCodec UUID) (instant : TextCodec Instant), ∃ jm env,
      Contracts.JobMessage.decode uuid instant (m.toJson uuid instant) = .ok jm ∧
        (Executor.ExecutorJobHandler.handle env jm .initial).2.executed = true := by
  have hbuild : JobMessageFactory.build 0 6 firstRun privilegedJob (firstExecution privilegedJob)
      0 1 (some "build/custom") = .ok _ := rfl
  refine ⟨⟨_, _, rfl, rfl⟩, _, hbuild, fun uuid instant ↦ ?_⟩
  refine (exists_executed_iff uuid instant hbuild).mpr ?_
  exact ⟨⟨by decide, by decide, by decide, ⟨_, rfl⟩, ⟨_, rfl⟩⟩, by decide, by decide, by decide⟩

end FuzzingCiCd.Integration
