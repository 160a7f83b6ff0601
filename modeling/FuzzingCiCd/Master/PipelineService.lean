import FuzzingCiCd.Foundation.Transition
import FuzzingCiCd.Master.Graph
import FuzzingCiCd.Master.Sanitizer

/-!
# Building pipelines

`PipelineService` creates pipelines, stages, jobs and explicit dependencies one at a time. Its
methods check little; what else a catalog can rely on comes from the constraints of the tables,
which are named here as in `V0001__schema.sql`.

A call leads from a catalog to the next one. The identifiers that `UUID.randomUUID()` draws are
those that no row has.

The name and the description of a row, its script and the flags that nothing reads are left out.

## Main results

* `Linked`: what the references of a catalog lead to, an invariant of the calls.
* `linked_replay`: it holds of every catalog that calls lead to.
-/

namespace FuzzingCiCd.Master

open Transition

/-! ## Statements -/

/-- What a call throws. -/
inductive PipelineException where
  | api (status : HttpStatus) (code message : String)
      (details : Option SensitiveDataSanitizer.InlineSecretDetails)
  /-- A statement violates the constraint. -/
  | dataIntegrity (constraint : String)
  deriving DecidableEq

/-- A key that no row has. -/
def unusedKey (keys : List UUID) : UUID := keys.foldr max 0 + 1

theorem lt_unusedKey {keys : List UUID} {key : UUID} (h : key ∈ keys) : key < unusedKey keys := by
  induction keys with
  | nil => exact absurd h List.not_mem_nil
  | cons first keys ih =>
    rw [unusedKey, List.foldr_cons]
    rcases List.mem_cons.mp h with rfl | h
    · exact Nat.lt_succ_of_le (le_max_left _ _)
    · exact (ih h).trans_le (Nat.succ_le_succ (le_max_right _ _))

/-- A constraint on a statement. -/
def check (constraint : String) (holds : Bool) : Except PipelineException Unit :=
  if holds then .ok () else .error (.dataIntegrity constraint)

/-- A constraint that admits the values of an enumeration. -/
def checkIn {α : Type} (constraint : String) (value : Option α) : Except PipelineException α :=
  match value with
  | some value => .ok value
  | none => .error (.dataIntegrity constraint)

/-- `job_type_check`. -/
def JobType.ofValue (value : String) : Option JobType :=
  [.vcs, .storage, .build, .fuzzing, .deploy, .script].find? fun jobType ↦ jobType.value = value

/-- `job_condition_check` and `job_dependency_condition_check`. -/
def DependencyCondition.ofValue (value : String) : Option DependencyCondition :=
  match value with
  | "on_success" => some .onSuccess
  | "on_failure" => some .onFailure
  | "always" => some .always
  | _ => none

/-- `stage_run_policy_check`. -/
def StageRunPolicy.ofValue (value : String) : Option StageRunPolicy :=
  match value with
  | "sequential" => some .sequential
  | "parallel" => some .parallel
  | _ => none

namespace Catalog

/-- A catalog without definitions. -/
def initial (templates : List JobTemplateEntity) (environments : List DeploymentEnvironmentEntity)
    (jobTopics : List (String × String)) (cancelTopic : String) : Catalog where
  pipelines := []
  stages := []
  jobs := []
  dependencies := []
  templates := templates
  environments := environments
  jobTopics := jobTopics
  cancelTopic := cancelTopic
  jobs_keyed := List.nodup_nil
  stages_keyed := List.nodup_nil
  maxAttempts_pos := by simp

/-- `stageRepository.findById`. -/
def findStage (c : Catalog) (id : UUID) : Option StageEntity :=
  Table.findById StageEntity.id id c.stages

/-- A stage is inserted under an unused key. -/
def insertStage (c : Catalog) (pipelineId : UUID) (position : ℕ) (runPolicy : StageRunPolicy) :
    StageEntity × Catalog :=
  let stage : StageEntity := {
    id := unusedKey (c.stages.map StageEntity.id)
    pipelineId := pipelineId
    position := position
    runPolicy := runPolicy }
  (stage, { c with
    stages := c.stages ++ [stage]
    stages_keyed := Table.keyed_append.mpr ⟨c.stages_keyed, List.nodup_singleton _,
      fun x hx y hy ↦ by
        rw [List.mem_singleton.mp hy]
        exact (lt_unusedKey (List.mem_map_of_mem hx)).ne⟩ })

/-- A job is inserted under an unused key. -/
def insertJob (c : Catalog) (job : JobEntity) (hpos : 0 < job.maxAttempts) :
    JobEntity × Catalog :=
  let job := { job with id := unusedKey (c.jobs.map JobEntity.id) }
  (job, { c with
    jobs := c.jobs ++ [job]
    jobs_keyed := Table.keyed_append.mpr ⟨c.jobs_keyed, List.nodup_singleton _,
      fun x hx y hy ↦ by
        rw [List.mem_singleton.mp hy]
        exact (lt_unusedKey (List.mem_map_of_mem hx)).ne⟩
    maxAttempts_pos := List.forall_mem_append.mpr ⟨c.maxAttempts_pos, by simpa using hpos⟩ })

end Catalog

/-! ## Calls -/

/-- The body of a request for a stage. -/
structure CreateStageRequest where
  position : ℤ
  runPolicy : Option String
  deriving DecidableEq

/-- The body of a request for a job. What is absent gets a default. -/
structure CreateJobRequest where
  jobTemplateId : Option UUID
  position : ℤ
  jobType : String
  params : Option Json
  condition : Option String
  timeoutSeconds : Option ℤ
  maxAttempts : Option ℤ
  resourceLimits : Option Json
  sandboxPolicy : Option Json
  deriving DecidableEq

/-- The body of a request for an edge. -/
structure CreateDependencyRequest where
  dependsOnJobId : UUID
  condition : Option String
  deriving DecidableEq

namespace PipelineService

def notFound {α : Type} (code message : String) : Option α → Except PipelineException α
  | none => .error (.api .notFound code message none)
  | some a => .ok a

theorem notFound_eq_ok {α : Type} {code message : String} {o : Option α} {a : α} :
    notFound code message o = .ok a ↔ o = some a := by
  cases o with
  | none => simp [notFound]
  | some b => simp [notFound]

def create (c : Catalog) : Except PipelineException (PipelineEntity × Catalog) :=
  let pipeline : PipelineEntity := ⟨unusedKey (c.pipelines.map PipelineEntity.id), true⟩
  .ok (pipeline, { c with pipelines := c.pipelines ++ [pipeline] })

/-- `update` and, with `some false`, `deactivate`. -/
def update (id : UUID) (isActive : Option Bool) (c : Catalog) :
    Except PipelineException Catalog := do
  let pipeline ← notFound "pipeline_not_found" "Pipeline not found"
    (Table.findById PipelineEntity.id id c.pipelines)
  return { c with
    pipelines := Table.save PipelineEntity.id c.pipelines
      { pipeline with isActive := isActive.getD pipeline.isActive } }

def createStage (pipelineId : UUID) (request : CreateStageRequest) (c : Catalog) :
    Except PipelineException (StageEntity × Catalog) := do
  let _ ← notFound "pipeline_not_found" "Pipeline not found"
    (Table.findById PipelineEntity.id pipelineId c.pipelines)
  check "stage_position_positive" (0 < request.position)
  let runPolicy ← checkIn "stage_run_policy_check"
    (StageRunPolicy.ofValue (request.runPolicy.getD "sequential"))
  check "unique_pipeline_stage_position" (c.stages.all fun stage ↦
    !(stage.pipelineId = pipelineId && stage.position = request.position.toNat))
  return c.insertStage pipelineId request.position.toNat runPolicy

/-- The check that the parameters have no secrets in them. -/
def requireNoInlineSecrets (params : Json) : Except PipelineException Unit :=
  match SensitiveDataSanitizer.requireNoInlineSecrets params "params" with
  | .ok () => .ok ()
  | .error details => .error (.api .badRequest "inline_secret_not_allowed"
      "Inline secret values are not allowed. Use secret refs." (some details))

def createJob (stageId : UUID) (request : CreateJobRequest) (c : Catalog) :
    Except PipelineException (JobEntity × Catalog) := do
  let _ ← notFound "stage_not_found" "Stage not found" (c.findStage stageId)
  let params := request.params.getD (.obj [])
  requireNoInlineSecrets params
  check "job_template_id_fk" (request.jobTemplateId.all fun id ↦ (c.findTemplate id).isSome)
  check "job_position_positive" (0 < request.position)
  let jobType ← checkIn "job_type_check" (JobType.ofValue request.jobType)
  let condition ← checkIn "job_condition_check"
    (DependencyCondition.ofValue (request.condition.getD "on_success"))
  let timeoutSeconds := request.timeoutSeconds.getD 3600
  check "job_timeout_positive" (0 < timeoutSeconds)
  check "unique_stage_job_position" (c.jobs.all fun job ↦
    !(job.stageId = stageId && job.position = request.position.toNat))
  let maxAttempts := (request.maxAttempts.getD 1).toNat
  if hpos : 0 < maxAttempts then
    return c.insertJob {
      id := 0
      stageId := stageId
      jobTemplateId := request.jobTemplateId
      position := request.position.toNat
      jobType := jobType
      params := params
      condition := condition
      timeoutSeconds := timeoutSeconds.toNat
      maxAttempts := maxAttempts
      resourceLimits := request.resourceLimits.getD (.obj [])
      sandboxPolicy := request.sandboxPolicy.getD (.obj []) } hpos
  else .error (.dataIntegrity "job_max_attempts_positive")

/-- The dependency may be on any job there is, of this pipeline or of another one. -/
def addDependency (jobId : UUID) (request : CreateDependencyRequest) (c : Catalog) :
    Except PipelineException (JobDependencyEntity × Catalog) := do
  let job ← notFound "job_not_found" "Job not found" (c.findJob jobId)
  let _ ← notFound "stage_not_found" "Stage not found" (c.findStage job.stageId)
  if (c.findJob request.dependsOnJobId).isNone then
    .error (.api .badRequest "dependency_not_found" "Depends-on job does not exist" none)
  else do
    let condition ← checkIn "job_dependency_condition_check"
      (DependencyCondition.ofValue (request.condition.getD "on_success"))
    check "job_dependency_no_self_check" (jobId ≠ request.dependsOnJobId)
    check "job_dependency_uq" (c.dependencies.all fun dependency ↦
      !(dependency.jobId = jobId && dependency.dependsOnJobId = request.dependsOnJobId))
    let dependency : JobDependencyEntity := ⟨jobId, request.dependsOnJobId, condition⟩
    return (dependency, { c with dependencies := c.dependencies ++ [dependency] })

/-! ## What the calls do -/

theorem createJob_ok {stageId : UUID} {request : CreateJobRequest} {c c' : Catalog}
    {job : JobEntity} (h : createJob stageId request c = .ok (job, c')) :
    (∃ stage ∈ c.stages, stage.id = stageId) ∧
      SensitiveDataSanitizer.collectInlineSecrets "$" (request.params.getD (.obj [])) = [] ∧
      job.params = request.params.getD (.obj []) ∧ job.stageId = stageId ∧
      (∀ x ∈ c.jobs, x.id < job.id) ∧
      c'.stages = c.stages ∧ c'.jobs = c.jobs ++ [job] ∧ c'.dependencies = c.dependencies := by
  rw [createJob] at h
  obtain ⟨stage, hstage, h⟩ := bind_eq_ok.mp h
  dsimp only at h
  obtain ⟨⟨⟩, hsecrets, h⟩ := bind_eq_ok.mp h
  obtain ⟨-, -, h⟩ := bind_eq_ok.mp h
  obtain ⟨-, -, h⟩ := bind_eq_ok.mp h
  obtain ⟨jobType, -, h⟩ := bind_eq_ok.mp h
  obtain ⟨condition, -, h⟩ := bind_eq_ok.mp h
  obtain ⟨-, -, h⟩ := bind_eq_ok.mp h
  obtain ⟨-, -, h⟩ := bind_eq_ok.mp h
  split at h
  case isFalse => cases h
  case isTrue hpos =>
    obtain ⟨rfl, rfl⟩ := Prod.mk.inj (Except.ok.inj h)
    obtain ⟨hmem, hid⟩ := Table.findById_some (notFound_eq_ok.mp hstage)
    refine ⟨⟨stage, hmem, hid⟩, ?_, rfl, rfl, fun x hx ↦ ?_, rfl, rfl, rfl⟩
    · rw [requireNoInlineSecrets] at hsecrets
      split at hsecrets
      case h_1 hok => exact SensitiveDataSanitizer.collectInlineSecrets_of_ok hok
      case h_2 => cases hsecrets
    · exact lt_unusedKey (List.mem_map_of_mem hx)

theorem addDependency_ok {jobId : UUID} {request : CreateDependencyRequest} {c c' : Catalog}
    {dependency : JobDependencyEntity} (h : addDependency jobId request c = .ok (dependency, c')) :
    (∃ job ∈ c.jobs, job.id = dependency.jobId) ∧
      (∃ job ∈ c.jobs, job.id = dependency.dependsOnJobId) ∧
      c'.stages = c.stages ∧ c'.jobs = c.jobs ∧
      c'.dependencies = c.dependencies ++ [dependency] := by
  rw [addDependency] at h
  obtain ⟨job, hjob, h⟩ := bind_eq_ok.mp h
  obtain ⟨stage, -, h⟩ := bind_eq_ok.mp h
  split at h
  case isTrue => cases h
  case isFalse hsome =>
    obtain ⟨condition, -, h⟩ := bind_eq_ok.mp h
    obtain ⟨-, -, h⟩ := bind_eq_ok.mp h
    obtain ⟨-, -, h⟩ := bind_eq_ok.mp h
    obtain ⟨rfl, rfl⟩ := Prod.mk.inj (Except.ok.inj h)
    obtain ⟨target, htarget⟩ := Option.ne_none_iff_exists'.mp fun hnone ↦
      hsome (Option.isNone_iff_eq_none.mpr hnone)
    exact ⟨⟨job, Catalog.findJob_eq_some.mp (notFound_eq_ok.mp hjob)⟩,
      ⟨target, Catalog.findJob_eq_some.mp htarget⟩, rfl, rfl, rfl⟩

theorem createStage_ok {pipelineId : UUID} {request : CreateStageRequest} {c c' : Catalog}
    {stage : StageEntity} (h : createStage pipelineId request c = .ok (stage, c')) :
    c'.stages = c.stages ++ [stage] ∧ c'.jobs = c.jobs ∧ c'.dependencies = c.dependencies := by
  rw [createStage] at h
  obtain ⟨pipeline, -, h⟩ := bind_eq_ok.mp h
  obtain ⟨-, -, h⟩ := bind_eq_ok.mp h
  obtain ⟨runPolicy, -, h⟩ := bind_eq_ok.mp h
  obtain ⟨-, -, h⟩ := bind_eq_ok.mp h
  obtain ⟨rfl, rfl⟩ := Prod.mk.inj (Except.ok.inj h)
  exact ⟨rfl, rfl, rfl⟩

theorem update_ok {id : UUID} {isActive : Option Bool} {c c' : Catalog}
    (h : update id isActive c = .ok c') :
    c'.stages = c.stages ∧ c'.jobs = c.jobs ∧ c'.dependencies = c.dependencies := by
  rw [update] at h
  obtain ⟨pipeline, -, h⟩ := bind_eq_ok.mp h
  obtain rfl := Except.ok.inj h
  exact ⟨rfl, rfl, rfl⟩

end PipelineService

/-! ## Catalogs that calls lead to -/

inductive PipelineCall where
  | create
  | update (id : UUID) (isActive : Option Bool)
  | createStage (pipelineId : UUID) (request : CreateStageRequest)
  | createJob (stageId : UUID) (request : CreateJobRequest)
  | addDependency (jobId : UUID) (request : CreateDependencyRequest)
  deriving DecidableEq

/-- One call as a transaction. -/
def pipelineStep (call : PipelineCall) (c : Catalog) : Except PipelineException Catalog :=
  match call with
  | .create => (PipelineService.create c).map Prod.snd
  | .update id isActive => PipelineService.update id isActive c
  | .createStage pipelineId request =>
    (PipelineService.createStage pipelineId request c).map Prod.snd
  | .createJob stageId request => (PipelineService.createJob stageId request c).map Prod.snd
  | .addDependency jobId request =>
    (PipelineService.addDependency jobId request c).map Prod.snd

/-- What the foreign keys say: the ends of a dependency are jobs, of whatever pipelines, and the
stage of a job is one. -/
structure Linked (c : Catalog) : Prop where
  stage_id_fk : ∀ job ∈ c.jobs, ∃ stage ∈ c.stages, stage.id = job.stageId
  job_id_fk : ∀ d ∈ c.dependencies, ∃ job ∈ c.jobs, job.id = d.jobId
  depends_on_job_id_fk : ∀ d ∈ c.dependencies, ∃ job ∈ c.jobs, job.id = d.dependsOnJobId

theorem map_snd_eq_ok {ε α β : Type} {x : Except ε (α × β)} {b : β} :
    x.map Prod.snd = .ok b ↔ ∃ a, x = .ok (a, b) := by
  cases x with
  | error e => exact iff_of_false nofun nofun
  | ok ab =>
    obtain ⟨a, b'⟩ := ab
    constructor
    · intro h
      obtain rfl : b' = b := Except.ok.inj h
      exact ⟨a, rfl⟩
    · rintro ⟨a', h⟩
      exact congrArg Except.ok (Prod.mk.inj (Except.ok.inj h)).2

theorem Linked.append {c c' : Catalog} (h : Linked c) {stages : List StageEntity}
    {jobs : List JobEntity} {dependencies : List JobDependencyEntity}
    (hstages : c'.stages = c.stages ++ stages) (hjobs : c'.jobs = c.jobs ++ jobs)
    (hdependencies : c'.dependencies = c.dependencies ++ dependencies)
    (hstage : ∀ job ∈ jobs, ∃ stage ∈ c.stages, stage.id = job.stageId)
    (hends : ∀ d ∈ dependencies, (∃ job ∈ c.jobs, job.id = d.jobId) ∧
      ∃ job ∈ c.jobs, job.id = d.dependsOnJobId) : Linked c' := by
  have hmore : ∀ {id : UUID}, (∃ job ∈ c.jobs, job.id = id) → ∃ job ∈ c'.jobs, job.id = id := by
    rintro id ⟨job, hjob, hid⟩
    exact ⟨job, hjobs ▸ List.mem_append_left _ hjob, hid⟩
  refine ⟨fun job hjob ↦ ?_, fun d hd ↦ hmore ?_, fun d hd ↦ hmore ?_⟩
  · rw [hjobs] at hjob
    obtain ⟨stage, hmem, hid⟩ := (List.mem_append.mp hjob).elim (h.stage_id_fk job) (hstage job)
    exact ⟨stage, hstages ▸ List.mem_append_left _ hmem, hid⟩
  · rw [hdependencies] at hd
    exact (List.mem_append.mp hd).elim (h.job_id_fk d) fun hd ↦ (hends d hd).1
  · rw [hdependencies] at hd
    exact (List.mem_append.mp hd).elim (h.depends_on_job_id_fk d) fun hd ↦ (hends d hd).2

theorem Linked.step {c c' : Catalog} {call : PipelineCall} (h : Linked c)
    (hstep : pipelineStep call c = .ok c') : Linked c' := by
  cases call with
  | create =>
    obtain ⟨pipeline, hcreated⟩ := map_snd_eq_ok.mp (by rwa [pipelineStep] at hstep)
    obtain ⟨-, rfl⟩ := Prod.mk.inj (Except.ok.inj hcreated)
    exact ⟨h.stage_id_fk, h.job_id_fk, h.depends_on_job_id_fk⟩
  | update id isActive =>
    obtain ⟨hstages, hjobs, hdependencies⟩ := PipelineService.update_ok hstep
    exact h.append (hstages.trans (List.append_nil _).symm) (hjobs.trans (List.append_nil _).symm)
      (hdependencies.trans (List.append_nil _).symm) (by simp) (by simp)
  | createStage pipelineId request =>
    obtain ⟨stage, hcreated⟩ := map_snd_eq_ok.mp (by rwa [pipelineStep] at hstep)
    obtain ⟨hstages, hjobs, hdependencies⟩ := PipelineService.createStage_ok hcreated
    exact h.append hstages (hjobs.trans (List.append_nil _).symm)
      (hdependencies.trans (List.append_nil _).symm) (by simp) (by simp)
  | createJob stageId request =>
    obtain ⟨job, hcreated⟩ := map_snd_eq_ok.mp (by rwa [pipelineStep] at hstep)
    obtain ⟨hstage, -, -, hid, -, hstages, hjobs, hdependencies⟩ :=
      PipelineService.createJob_ok hcreated
    refine h.append (hstages.trans (List.append_nil _).symm) hjobs
      (hdependencies.trans (List.append_nil _).symm) ?_ (by simp)
    rw [List.forall_mem_singleton, hid]
    exact hstage
  | addDependency jobId request =>
    obtain ⟨dependency, hcreated⟩ := map_snd_eq_ok.mp (by rwa [pipelineStep] at hstep)
    obtain ⟨hjob, htarget, hstages, hjobs, hdependencies⟩ :=
      PipelineService.addDependency_ok hcreated
    refine h.append (hstages.trans (List.append_nil _).symm)
      (hjobs.trans (List.append_nil _).symm) hdependencies (by simp) ?_
    rw [List.forall_mem_singleton]
    exact ⟨hjob, htarget⟩

/-- **Linked catalogs.** Whatever calls are made, references lead to rows of the catalog. -/
theorem linked_replay {c : Catalog} (h : Linked c) (calls : List PipelineCall) :
    Linked (replay pipelineStep c calls) :=
  replay_invariant' (fun _ _ _ h hstep ↦ h.step hstep) calls h

end FuzzingCiCd.Master
