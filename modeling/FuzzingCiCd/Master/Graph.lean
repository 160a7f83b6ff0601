import FuzzingCiCd.Foundation.Latest
import FuzzingCiCd.Master.Entities

/-!
# The execution graph and the ready jobs

From the stages, jobs and explicit dependencies of a pipeline the builder makes a graph whose
edges say which job waits for which other one and under what condition. A job is *ready* when it
has no execution yet and every incoming edge is satisfied by the latest attempt of its upstream
job.

## Order

The source collects jobs and ready ids in hash maps and sorts the result by position. Where
positions coincide the order is that of the hash map; here it is the order of the definitions.
Only the order of creation depends on it.
-/

namespace FuzzingCiCd.Master

/-! ## Building -/

/-- An edge of the graph, as the job at its end sees it. -/
structure DependencyEdge where
  dependsOnJobId : UUID
  condition : DependencyCondition
  deriving DecidableEq

/-- The jobs of a pipeline and, each with the job it belongs to, their incoming edges. -/
structure ExecutionGraph where
  jobs : List JobEntity
  edges : List (UUID × DependencyEdge)
  deriving DecidableEq

/-- `dependencies().getOrDefault(jobId, List.of())`. -/
def ExecutionGraph.dependencies (graph : ExecutionGraph) (jobId : UUID) : List DependencyEdge :=
  (graph.edges.filter fun entry ↦ entry.1 = jobId).map Prod.snd

namespace ExecutionGraphBuilder

/-- The jobs of one stage by position. -/
def stageJobs (jobs : List JobEntity) (stageId : UUID) : List JobEntity :=
  (jobs.filter fun job ↦ job.stageId = stageId).insertionSort fun a b ↦ a.position ≤ b.position

/-- The implicit edges of a stage: to the previous job of a sequential stage and to every job of
the previous stage. A job with an explicit dependency gets none. -/
def stageEdges (hasExplicit : UUID → Bool) (runPolicy : StageRunPolicy)
    (previousStageJobs : List JobEntity) : Option JobEntity → List JobEntity →
      List (UUID × DependencyEdge)
  | _, [] => []
  | prev, job :: rest =>
    let sequential : List DependencyEdge :=
      match runPolicy, prev with
      | .sequential, some prev => [⟨prev.id, .onSuccess⟩]
      | _, _ => []
    let added := if hasExplicit job.id then [] else
      sequential ++ previousStageJobs.map fun previousStageJob ↦ ⟨previousStageJob.id, .onSuccess⟩
    added.map (fun edge ↦ (job.id, edge)) ++
      stageEdges hasExplicit runPolicy previousStageJobs (some job) rest

/-- The implicit edges of all stages in order. -/
def implicitEdges (hasExplicit : UUID → Bool) (jobs : List JobEntity) :
    List JobEntity → List StageEntity → List (UUID × DependencyEdge)
  | _, [] => []
  | previousStageJobs, stage :: orderedStages =>
    stageEdges hasExplicit stage.runPolicy previousStageJobs none (stageJobs jobs stage.id) ++
      implicitEdges hasExplicit jobs (stageJobs jobs stage.id) orderedStages

/-- `ExecutionGraphBuilder.build`. -/
def build (stages : List StageEntity) (jobs : List JobEntity)
    (explicitDependencies : List JobDependencyEntity) : ExecutionGraph :=
  let explicit := explicitDependencies.map fun dependency ↦
    (dependency.jobId, ⟨dependency.dependsOnJobId, dependency.condition⟩)
  let hasExplicit (jobId : UUID) : Bool :=
    explicitDependencies.any fun dependency ↦ dependency.jobId = jobId
  let orderedStages := stages.insertionSort fun a b ↦ a.position ≤ b.position
  { jobs := jobs, edges := explicit ++ implicitEdges hasExplicit jobs [] orderedStages }

end ExecutionGraphBuilder

/-! ## Validating -/

namespace ExecutionGraphValidator

/-- How a depth-first search stops early. -/
inductive Stop where
  | cycle | outOfFuel
  deriving DecidableEq

/-- `hasCycle`: the search from `current` stops at a cycle or returns the visited jobs. The set
`visiting` is back to what it was whenever the source returns `false`, so it is only passed
down. -/
def hasCycle (graph : ExecutionGraph) : ℕ → List UUID → List UUID → UUID → Except Stop (List UUID)
  | 0, _, _, _ => .error .outOfFuel
  | fuel + 1, visiting, visited, current =>
    if visited.contains current then .ok visited
    else if visiting.contains current then .error .cycle
    else do
      let visited ← (graph.dependencies current).foldlM (fun visited dep ↦
        hasCycle graph fuel (current :: visiting) visited dep.dependsOnJobId) visited
      return current :: visited

/-- Every job on the search path is a job of the graph or the target of an edge. -/
def searchFuel (graph : ExecutionGraph) : ℕ := graph.jobs.length + graph.edges.length + 1

def validate (graph : ExecutionGraph) : Except ServiceException Unit :=
  graph.jobs.forM fun job ↦
    match hasCycle graph (searchFuel graph) [] [] job.id with
    | .ok _ => .ok ()
    | .error _ => .error (.api .badRequest "graph_cycle_detected"
        "Pipeline graph has cyclic dependencies")

end ExecutionGraphValidator

/-! ## Resolving -/

/-- The status of the latest attempt of a job. -/
def latestStatus (executions : List JobExecutionEntity) (jobId : UUID) :
    Option JobExecutionStatus :=
  (Latest.latest JobExecutionEntity.jobId JobExecutionEntity.attempt jobId executions).map
    JobExecutionEntity.status

namespace ReadyJobResolver

def conditionSatisfied (condition : DependencyCondition) (upstream : JobExecutionStatus) : Bool :=
  match condition with
  | .onSuccess => upstream = .success
  | .onFailure => upstream = .failed || upstream = .timeout
  | .always => upstream.isFinalStatus

/-- Whether the latest status of the upstream job satisfies an edge. -/
def edgeSatisfied (statuses : UUID → Option JobExecutionStatus) (edge : DependencyEdge) : Bool :=
  match statuses edge.dependsOnJobId with
  | none => false
  | some upstream =>
    if !upstream.isFinalStatus then false else conditionSatisfied edge.condition upstream

def dependenciesSatisfied (edges : List DependencyEdge)
    (statuses : UUID → Option JobExecutionStatus) : Bool :=
  edges.all (edgeSatisfied statuses)

def resolveReadyJobs (graph : ExecutionGraph) (latestStatuses : UUID → Option JobExecutionStatus)
    (alreadyScheduledJobs : List UUID) : List UUID :=
  (graph.jobs.map JobEntity.id).filter fun jobId ↦
    !alreadyScheduledJobs.contains jobId &&
      dependenciesSatisfied (graph.dependencies jobId) latestStatuses

theorem edgeSatisfied_iff {statuses : UUID → Option JobExecutionStatus} {edge : DependencyEdge} :
    edgeSatisfied statuses edge = true ↔ ∃ upstream, statuses edge.dependsOnJobId = some upstream ∧
      upstream.isFinalStatus = true ∧ conditionSatisfied edge.condition upstream = true := by
  rw [edgeSatisfied]
  cases statuses edge.dependsOnJobId with
  | none => simp
  | some upstream => simp

end ReadyJobResolver

namespace Catalog

variable (c : Catalog)

/-- The jobs of a pipeline by position. -/
def jobsOf (pipelineId : UUID) : List JobEntity :=
  c.jobsOfStages ((c.stagesOf pipelineId).map StageEntity.id)

/-- The graph of a pipeline. -/
def graphOf (pipelineId : UUID) : ExecutionGraph :=
  ExecutionGraphBuilder.build (c.stagesOf pipelineId) (c.jobsOf pipelineId)
    (c.dependenciesOf ((c.jobsOf pipelineId).map JobEntity.id))

/-- The ready jobs by position. -/
def readyJobs (pipelineId : UUID) (executions : List JobExecutionEntity) : List JobEntity :=
  let graph := c.graphOf pipelineId
  let readyJobIds := ReadyJobResolver.resolveReadyJobs graph (latestStatus executions)
    (executions.map JobExecutionEntity.jobId)
  (readyJobIds.filterMap fun id ↦ Table.findById JobEntity.id id graph.jobs).insertionSort
    fun a b ↦ a.position ≤ b.position

/-- `PipelineOrchestrator.resolveReadyJobs`. -/
def resolveReadyJobs (pipelineId : UUID) (executions : List JobExecutionEntity) :
    Except ServiceException (List JobEntity) := do
  ExecutionGraphValidator.validate (c.graphOf pipelineId)
  return c.readyJobs pipelineId executions

variable {c}

theorem resolveReadyJobs_eq_ok {pipelineId : UUID} {executions : List JobExecutionEntity}
    {ready : List JobEntity} :
    c.resolveReadyJobs pipelineId executions = .ok ready ↔
      ExecutionGraphValidator.validate (c.graphOf pipelineId) = .ok () ∧
        ready = c.readyJobs pipelineId executions := by
  rw [resolveReadyJobs]
  rcases ExecutionGraphValidator.validate (c.graphOf pipelineId) with e | ⟨⟨⟩⟩
  · simp [bind, Except.bind]
  · simp [bind, Except.bind, pure, Except.pure, eq_comm]

theorem mem_of_mem_jobsOf {pipelineId : UUID} {job : JobEntity} (h : job ∈ c.jobsOf pipelineId) :
    job ∈ c.jobs := by
  rw [jobsOf, jobsOfStages, List.mem_insertionSort] at h
  exact (List.mem_filter.mp h).1

theorem keyed_jobsOf (pipelineId : UUID) : Table.Keyed JobEntity.id (c.jobsOf pipelineId) := by
  have hperm := List.perm_insertionSort (fun a b : JobEntity ↦ a.position ≤ b.position)
    (c.jobs.filter fun job ↦ ((c.stagesOf pipelineId).map StageEntity.id).contains job.stageId)
  exact (hperm.map JobEntity.id).nodup_iff.mpr (c.jobs_keyed.filter _)

/-- **Readiness.** A ready job is one without executions whose incoming edges are all
satisfied. -/
theorem mem_readyJobs {pipelineId : UUID} {executions : List JobExecutionEntity}
    {job : JobEntity} :
    job ∈ c.readyJobs pipelineId executions ↔ job ∈ c.jobsOf pipelineId ∧
      (∀ e ∈ executions, e.jobId ≠ job.id) ∧
      ∀ edge ∈ (c.graphOf pipelineId).dependencies job.id,
        ReadyJobResolver.edgeSatisfied (latestStatus executions) edge = true := by
  have hjobs : (c.graphOf pipelineId).jobs = c.jobsOf pipelineId := rfl
  rw [readyJobs, List.mem_insertionSort, List.mem_filterMap, hjobs]
  constructor
  · rintro ⟨id, hid, hfind⟩
    obtain ⟨hmem, rfl⟩ := Table.findById_some hfind
    rw [ReadyJobResolver.resolveReadyJobs, List.mem_filter] at hid
    exact ⟨hmem, by simpa [ReadyJobResolver.dependenciesSatisfied] using hid.2⟩
  · rintro ⟨hmem, hnew, hedges⟩
    refine ⟨job.id, ?_, (Table.findById_eq_some (keyed_jobsOf pipelineId)).mpr ⟨hmem, rfl⟩⟩
    rw [ReadyJobResolver.resolveReadyJobs, List.mem_filter, hjobs]
    refine ⟨List.mem_map_of_mem hmem, ?_⟩
    simpa [ReadyJobResolver.dependenciesSatisfied] using ⟨hnew, hedges⟩

theorem keyed_readyJobs (pipelineId : UUID) (executions : List JobExecutionEntity) :
    Table.Keyed JobEntity.id (c.readyJobs pipelineId executions) := by
  have hperm := List.perm_insertionSort (fun a b : JobEntity ↦ a.position ≤ b.position)
    ((ReadyJobResolver.resolveReadyJobs (c.graphOf pipelineId) (latestStatus executions)
      (executions.map JobExecutionEntity.jobId)).filterMap
        fun id ↦ Table.findById JobEntity.id id (c.graphOf pipelineId).jobs)
  refine (hperm.map JobEntity.id).nodup_iff.mpr ?_
  have hids : ∀ ids : List UUID, ids.Nodup → ((ids.filterMap fun id ↦
      Table.findById JobEntity.id id (c.graphOf pipelineId).jobs).map JobEntity.id).Nodup := by
    intro ids hnodup
    refine List.Nodup.map_on ?_ (hnodup.filterMap ?_)
    · intro a ha b hb hab
      obtain ⟨i, -, hi⟩ := List.mem_filterMap.mp ha
      obtain ⟨j, -, hj⟩ := List.mem_filterMap.mp hb
      exact (keyed_jobsOf pipelineId).eq (Table.findById_some hi).1 (Table.findById_some hj).1 hab
    · intro i j job hi hj
      rw [← (Table.findById_some hi).2, ← (Table.findById_some hj).2]
  exact hids _ (List.Nodup.filter _ (keyed_jobsOf pipelineId))

end Catalog

end FuzzingCiCd.Master
