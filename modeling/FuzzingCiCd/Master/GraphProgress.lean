import FuzzingCiCd.Master.GraphValidation
import FuzzingCiCd.Master.PipelineService
import FuzzingCiCd.Master.StageOrder

/-!
# Progress

A run should not stop with jobs left that could still run. In a valid graph every chain of jobs that
wait for each other ends, and it ends with a job that is ready, provided that the chain stays within
the pipeline. Implicit edges do; an explicit dependency may be on a job of any pipeline, and such a
job never has an execution in this run.

`progress_iff` gives the exact condition. That a dependency leads out of the pipeline stops some run
whenever failures are not asked for: run the jobs one after another, and the job with the dependency
is never reached.

## Main results

* `exists_ready`: a chain of jobs that wait for each other ends with a ready one.
* `GraphRun.execute`: a ready job can be executed with success.
* `progress_iff`: the exact condition on a validated graph.
-/

namespace FuzzingCiCd.Master

open DepthFirst ExecutionGraphBuilder PipelineRunService ReadyJobResolver Transition

/-! ## Edges -/

namespace ExecutionGraphBuilder

/-- Explicit dependencies only take implicit edges away. -/
theorem stageEdges_subset (hasExplicit : UUID → Bool) (runPolicy : StageRunPolicy)
    (previousStageJobs : List JobEntity) (prev : Option JobEntity) (jobs : List JobEntity) :
    stageEdges hasExplicit runPolicy previousStageJobs prev jobs ⊆
      stageEdges (fun _ ↦ false) runPolicy previousStageJobs prev jobs := by
  induction jobs generalizing prev with
  | nil => exact List.Subset.refl _
  | cons job rest ih =>
    rw [stageEdges_cons]
    intro entry hentry
    rw [List.mem_append]
    by_cases hexplicit : hasExplicit job.id = true
    · have hrest : entry ∈ stageEdges hasExplicit runPolicy previousStageJobs (some job) rest := by
        cases runPolicy with
        | parallel => simpa [stageEdges, hexplicit] using hentry
        | sequential =>
          cases prev with
          | none => simpa [stageEdges, hexplicit] using hentry
          | some prev => simpa [stageEdges, hexplicit] using hentry
      exact Or.inr (ih (some job) hrest)
    · have hboth : entry ∈ (targets runPolicy previousStageJobs prev).map (fun target ↦
            (job.id, (⟨target.id, .onSuccess⟩ : DependencyEdge))) ∨
          entry ∈ stageEdges hasExplicit runPolicy previousStageJobs (some job) rest := by
        cases runPolicy with
        | parallel => simpa [stageEdges, targets, hexplicit] using hentry
        | sequential =>
          cases prev with
          | none => simpa [stageEdges, targets, hexplicit] using hentry
          | some prev => simpa [stageEdges, targets, hexplicit, or_assoc] using hentry
      exact hboth.imp_right fun h ↦ ih (some job) h

theorem implicitEdges_subset (hasExplicit : UUID → Bool) (jobs previousStageJobs : List JobEntity)
    (stages : List StageEntity) : implicitEdges hasExplicit jobs previousStageJobs stages ⊆
      implicitEdges (fun _ ↦ false) jobs previousStageJobs stages := by
  induction stages generalizing previousStageJobs with
  | nil => exact List.Subset.refl _
  | cons stage rest ih =>
    rw [implicitEdges, implicitEdges]
    exact List.append_subset.mpr
      ⟨List.Subset.trans (stageEdges_subset _ _ _ _ _) (List.subset_append_left _ _),
        List.Subset.trans (ih _) (List.subset_append_right _ _)⟩

/-- An implicit edge asks for the success of a job of the pipeline. -/
theorem of_mem_implicitEdges {hasExplicit : UUID → Bool} {jobs : List JobEntity}
    {stages : List StageEntity} {jobId : UUID} {edge : DependencyEdge}
    (h : (jobId, edge) ∈ implicitEdges hasExplicit jobs [] stages) :
    edge.condition = .onSuccess ∧ ∃ job ∈ jobs, job.id = edge.dependsOnJobId := by
  obtain ⟨before, stage, after, -, hentry⟩ :=
    mem_implicitEdges.mp (implicitEdges_subset hasExplicit jobs [] stages h)
  obtain ⟨earlier, job, later, hjobs, -, target, htarget, rfl⟩ := mem_stageEdges.mp hentry
  refine ⟨rfl, target, ?_, rfl⟩
  rw [targets, List.mem_append, previousJob, Option.or_none] at htarget
  rcases htarget with hprevious | hbefore
  · have hearlier : target ∈ earlier := by
      split at hprevious
      · exact List.mem_of_getLast? (Option.mem_toList.mp hprevious)
      · exact absurd hprevious List.not_mem_nil
    refine (@mem_stageJobs _ _ stage.id).mp ?_ |>.1
    rw [hjobs]
    exact List.mem_append_left _ hearlier
  · rw [previousJobs] at hbefore
    split at hbefore
    · exact absurd hbefore List.not_mem_nil
    · exact (mem_stageJobs.mp hbefore).1

end ExecutionGraphBuilder

namespace Catalog

variable (c : Catalog) (pipelineId : UUID)

/-- The job is one of the pipeline. -/
def Owns (jobId : UUID) : Prop := ∃ job ∈ c.jobsOf pipelineId, job.id = jobId

/-- The explicit dependencies of the pipeline stay within it. -/
def Closed : Prop :=
  ∀ d ∈ c.dependencies, c.Owns pipelineId d.jobId → c.Owns pipelineId d.dependsOnJobId

/-- Some job of the pipeline waits for the failure of another one. -/
def AwaitsFailure : Prop :=
  ∃ d ∈ c.dependencies, c.Owns pipelineId d.jobId ∧ d.condition = .onFailure

/-- Some job of the pipeline waits for nothing. -/
def HasRoot : Prop :=
  ∃ job ∈ c.jobsOf pipelineId, (c.graphOf pipelineId).dependencies job.id = []

variable {c pipelineId}

instance (jobId : UUID) : Decidable (c.Owns pipelineId jobId) :=
  inferInstanceAs (Decidable (∃ job ∈ c.jobsOf pipelineId, job.id = jobId))

instance : Decidable (c.Closed pipelineId) :=
  inferInstanceAs (Decidable (∀ d ∈ c.dependencies,
    c.Owns pipelineId d.jobId → c.Owns pipelineId d.dependsOnJobId))

theorem mem_dependencies_of_explicit {d : JobDependencyEntity} (hd : d ∈ c.dependencies)
    (hown : c.Owns pipelineId d.jobId) :
    ⟨d.dependsOnJobId, d.condition⟩ ∈ (c.graphOf pipelineId).dependencies d.jobId := by
  refine List.mem_map.mpr ⟨(d.jobId, _), List.mem_filter.mpr ⟨List.mem_append_left _ ?_,
    decide_eq_true rfl⟩, rfl⟩
  refine List.mem_map.mpr ⟨d, List.mem_filter.mpr ⟨hd, ?_⟩, rfl⟩
  obtain ⟨job, hjob, hid⟩ := hown
  rw [List.contains_iff_mem]
  exact List.mem_map.mpr ⟨job, hjob, hid⟩

theorem explicit_or_implicit {jobId : UUID} {edge : DependencyEdge}
    (h : edge ∈ (c.graphOf pipelineId).dependencies jobId) :
    (∃ d ∈ c.dependencies, c.Owns pipelineId d.jobId ∧ d.dependsOnJobId = edge.dependsOnJobId ∧
        d.condition = edge.condition) ∨
      edge.condition = .onSuccess ∧ c.Owns pipelineId edge.dependsOnJobId := by
  obtain ⟨⟨id, edge'⟩, hentry, rfl⟩ := List.mem_map.mp h
  rcases List.mem_append.mp (List.mem_filter.mp hentry).1 with hexplicit | himplicit
  · obtain ⟨d, hd, heq⟩ := List.mem_map.mp hexplicit
    obtain ⟨-, rfl⟩ := Prod.mk.inj heq
    obtain ⟨hmem, hown⟩ := List.mem_filter.mp hd
    exact Or.inl ⟨d, hmem, List.mem_map.mp (List.contains_iff_mem.mp hown), rfl, rfl⟩
  · exact Or.inr (of_mem_implicitEdges himplicit)

/-- Where failures are not asked for, every edge asks for success or for any end. -/
theorem condition_ne_onFailure (hfailure : ¬ c.AwaitsFailure pipelineId) {jobId : UUID}
    {edge : DependencyEdge} (h : edge ∈ (c.graphOf pipelineId).dependencies jobId) :
    edge.condition ≠ .onFailure := by
  intro hcondition
  rcases explicit_or_implicit h with ⟨d, hd, hown, -, heq⟩ | ⟨hsuccess, -⟩
  · exact hfailure ⟨d, hd, hown, heq.trans hcondition⟩
  · rw [hcondition] at hsuccess
    cases hsuccess

theorem Closed.owns_upstream (hclosed : c.Closed pipelineId) {jobId : UUID} {edge : DependencyEdge}
    (h : edge ∈ (c.graphOf pipelineId).dependencies jobId) :
    c.Owns pipelineId edge.dependsOnJobId := by
  rcases explicit_or_implicit h with ⟨d, hd, hown, heq, -⟩ | ⟨-, hown⟩
  · rw [← heq]
    exact hclosed d hd hown
  · exact hown

end Catalog

/-! ## The property -/

/-- The executions of a run of the pipeline. -/
def RunRows (c : Catalog) (pipelineId : UUID) (rows : List JobExecutionEntity) : Prop :=
  ∀ e ∈ rows, c.Owns pipelineId e.jobId

/-- A run of the pipeline does not stop early. -/
structure MakesProgress (c : Catalog) (pipelineId : UUID) : Prop where
  /-- A new run has something to start with. -/
  start : c.jobsOf pipelineId ≠ [] → c.readyJobs pipelineId [] ≠ []
  /-- While everything succeeds and no job waits for a failure, there is a ready job until all jobs
  have an execution. -/
  goes_on : (∀ job ∈ c.jobsOf pipelineId, ∀ edge ∈ (c.graphOf pipelineId).dependencies job.id,
      edge.condition ≠ .onFailure) →
    ∀ rows, RunRows c pipelineId rows →
      (∀ jobId status, latestStatus rows jobId = some status → status = .success) →
      (∃ job ∈ c.jobsOf pipelineId, ∀ e ∈ rows, e.jobId ≠ job.id) →
        c.readyJobs pipelineId rows ≠ []
  /-- No run is created that is successful without having run anything. -/
  created : c.jobsOf pipelineId ≠ [] → ∀ ctx request db db', Reachable c db →
    step c ⟨ctx, .createRun pipelineId request⟩ db = .ok db' →
      ∀ r v, db.view r = none → db'.view r = some v → ¬ (v.run.status = .success ∧ v.rows = [])

section Progress

variable {c : Catalog} {pipelineId : UUID}

/-- What the resolver names. -/
theorem readyJobs_ne_nil {rows : List JobExecutionEntity} : c.readyJobs pipelineId rows ≠ [] ↔
    ∃ job ∈ c.jobsOf pipelineId, (∀ e ∈ rows, e.jobId ≠ job.id) ∧
      ∀ edge ∈ (c.graphOf pipelineId).dependencies job.id,
        edgeSatisfied (latestStatus rows) edge = true := by
  constructor
  · intro h
    obtain ⟨job, hjob⟩ := List.exists_mem_of_ne_nil _ h
    exact ⟨job, Catalog.mem_readyJobs.mp hjob⟩
  · rintro ⟨job, hjob⟩
    exact List.ne_nil_of_mem (Catalog.mem_readyJobs.mpr hjob)

/-- A run that starts without executions is successful at once, and no other one is. -/
theorem created_of_start (hstart : c.jobsOf pipelineId ≠ [] → c.readyJobs pipelineId [] ≠ [])
    (hjobs : c.jobsOf pipelineId ≠ []) {ctx : CallContext}
    {request : Option CreatePipelineRunRequest} {db db' : Db} (hdb : Reachable c db)
    (hstep : step c ⟨ctx, .createRun pipelineId request⟩ db = .ok db') {r : UUID} {v : RunView}
    (hnone : db.view r = none) (hv : db'.view r = some v) :
    ¬ (v.run.status = .success ∧ v.rows = []) := by
  rintro ⟨-, hrows⟩
  obtain ⟨hnew, hcreates⟩ := (step_refines hdb.sound hstep).new r v hnone hv
  have hcreated := hnew.rows
  rw [hrows, List.forall₂_nil_right_iff] at hcreated
  rw [← (show pipelineId = v.run.pipelineId from hcreates)] at hcreated
  exact hstart hjobs hcreated

/-! ## Closed pipelines -/

/-- **Progress.** Where the edges from jobs with executions are satisfied, a chain of waiting jobs
leads to a ready one. -/
theorem exists_ready (hclosed : c.Closed pipelineId)
    (hvalid : ExecutionGraphValidator.validate (c.graphOf pipelineId) = .ok ())
    {rows : List JobExecutionEntity}
    (hpasses : ∀ job ∈ c.jobsOf pipelineId,
      ∀ edge ∈ (c.graphOf pipelineId).dependencies job.id,
        (∃ e ∈ rows, e.jobId = edge.dependsOnJobId) →
          edgeSatisfied (latestStatus rows) edge = true)
    {job : JobEntity} (hjob : job ∈ c.jobsOf pipelineId) (hnew : ∀ e ∈ rows, e.jobId ≠ job.id) :
    c.readyJobs pipelineId rows ≠ [] := by
  have hacc : ∀ jobId, Acc (Function.swap (Succ (c.graphOf pipelineId).upstream)) jobId →
      ∀ job ∈ c.jobsOf pipelineId, job.id = jobId → (∀ e ∈ rows, e.jobId ≠ job.id) →
        c.readyJobs pipelineId rows ≠ [] := by
    intro jobId h
    induction h with
    | intro jobId hacc ih =>
      rintro job hjob rfl hnew
      by_cases hwaits : ∃ edge ∈ (c.graphOf pipelineId).dependencies job.id,
          ∀ e ∈ rows, e.jobId ≠ edge.dependsOnJobId
      · -- the chain goes on with a job that has no execution either
        obtain ⟨edge, hedge, hupstream⟩ := hwaits
        obtain ⟨next, hnext, hid⟩ := hclosed.owns_upstream hedge
        refine ih edge.dependsOnJobId ?_ next hnext hid fun e he ↦ hid ▸ hupstream e he
        exact ExecutionGraph.mem_upstream.mpr ⟨edge, hedge, rfl⟩
      · refine readyJobs_ne_nil.mpr ⟨job, hjob, hnew, fun edge hedge ↦
        hpasses job hjob edge hedge ?_⟩
        by_contra hnone
        exact hwaits ⟨edge, hedge, fun e he heq ↦ hnone ⟨e, he, heq⟩⟩
  exact hacc job.id (ExecutionGraphValidator.acc_of_validate hvalid hjob) job hjob rfl hnew

/-- An edge that does not ask for failure is satisfied by success. -/
theorem satisfied_of_success {rows : List JobExecutionEntity} {edge : DependencyEdge}
    (hcondition : edge.condition ≠ .onFailure)
    (hsuccess : latestStatus rows edge.dependsOnJobId = some .success) :
    edgeSatisfied (latestStatus rows) edge = true := by
  refine edgeSatisfied_iff.mpr ⟨.success, hsuccess, rfl, ?_⟩
  cases h : edge.condition with
  | onSuccess => rfl
  | onFailure => exact absurd h hcondition
  | always => rfl

theorem Catalog.Closed.progress (hclosed : c.Closed pipelineId)
    (hvalid : ExecutionGraphValidator.validate (c.graphOf pipelineId) = .ok ()) :
    MakesProgress c pipelineId := by
  have hstart : c.jobsOf pipelineId ≠ [] → c.readyJobs pipelineId [] ≠ [] := by
    intro hjobs
    obtain ⟨job, hjob⟩ := List.exists_mem_of_ne_nil _ hjobs
    exact exists_ready hclosed hvalid (by simp) hjob (by simp)
  refine ⟨hstart, fun hconditions rows hrows hsuccess ⟨job, hjob, hnew⟩ ↦ ?_, ?_⟩
  · refine exists_ready hclosed hvalid (fun job hjob edge hedge hexecuted ↦ ?_) hjob hnew
    obtain ⟨e, he, heq⟩ := hexecuted
    obtain ⟨latest, hlatest⟩ :=
      Latest.exists_latest JobExecutionEntity.jobId JobExecutionEntity.attempt he
    have hstatus : latestStatus rows edge.dependsOnJobId = some latest.status := by
      rw [latestStatus, ← heq, hlatest, Option.map_some]
    refine satisfied_of_success (hconditions job hjob edge hedge) ?_
    rw [hstatus, hsuccess _ _ hstatus]
  · exact fun hjobs _ _ _ _ hdb hstep _ _ hnone hv ↦
      created_of_start hstart hjobs hdb hstep hnone hv

/-! ## A run in which everything succeeds -/

theorem GraphRun.owns {rows : List JobExecutionEntity}
    (h : GraphRun (c.graphOf pipelineId) rows) : RunRows c pipelineId rows := by
  induction h with
  | start => simp [RunRows]
  | @step rows rows' u created hrun hstep ih =>
    rw [hstep.rows_eq]
    refine List.forall_mem_append.mpr ⟨List.forall_mem_map.mpr fun e he ↦ ?_, fun e he ↦ ?_⟩
    · rw [hstep.keeps.jobId]
      exact ih e he
    · exact (ExecutionGraph.mem_ready.mp (hstep.ready e he)).1

/-- A queued execution succeeds. -/
private def succeed (e : JobExecutionEntity) : JobExecutionEntity :=
  if e.status = .queued then { e with status := .success } else e

private theorem keeps_succeed : Keeps succeed := by
  have hboth : ∀ e, (succeed e).id = e.id ∧ (succeed e).pipelineRunId = e.pipelineRunId ∧
      (succeed e).jobId = e.jobId ∧ (succeed e).attempt = e.attempt := by
    intro e
    rw [succeed]
    split
    · exact ⟨rfl, rfl, rfl, rfl⟩
    · exact ⟨rfl, rfl, rfl, rfl⟩
  exact ⟨fun e ↦ (hboth e).1, fun e ↦ (hboth e).2.1, fun e ↦ (hboth e).2.2.1,
    fun e ↦ (hboth e).2.2.2⟩

/-- A ready job is executed with success. -/
theorem GraphRun.execute {rows : List JobExecutionEntity}
    (h : GraphRun (c.graphOf pipelineId) rows) (hsuccess : ∀ e ∈ rows, e.status = .success)
    {jobId : UUID} (hready : jobId ∈ (c.graphOf pipelineId).ready rows) :
    ∃ rows', GraphRun (c.graphOf pipelineId) rows' ∧ (∀ e ∈ rows', e.status = .success) ∧
      rows'.length = rows.length + 1 := by
  obtain ⟨⟨job, hjob, rfl⟩, -⟩ := ExecutionGraph.mem_ready.mp hready
  let e := newExecution 0 0 (newRun 0 0 0 pipelineId none none) job 1
  have hdispatch : GraphStep (c.graphOf pipelineId) rows (rows ++ [e]) (fun x ↦ x) [e] := by
    refine ⟨by rw [List.map_id'], keeps_id, fun _ _ _ ↦ rfl, ?_, ?_, List.nodup_singleton _⟩
    · rw [List.map_id', List.forall_mem_singleton]
      exact hready
    · rw [List.forall_mem_singleton]
      rfl
  have hend : GraphStep (c.graphOf pipelineId) (rows ++ [e]) ((rows ++ [e]).map succeed)
      succeed [] := by
    refine ⟨(List.append_nil _).symm, keeps_succeed, fun x _ hfinal ↦ ?_, by simp, by simp,
      List.nodup_nil⟩
    rw [succeed, if_neg]
    rintro hqueued
    rw [hqueued] at hfinal
    exact absurd hfinal (by decide)
  refine ⟨_, (h.step hdispatch).step hend, ?_, by simp⟩
  refine List.forall_mem_map.mpr (List.forall_mem_append.mpr ⟨fun x hx ↦ ?_, ?_⟩)
  · rw [succeed, if_neg (by rw [hsuccess x hx]; decide), hsuccess x hx]
  · rw [List.forall_mem_singleton]
    rfl

/-- If progress is made, runs in which everything succeeds go on to any length. -/
theorem exists_successful
    (hgoes : ∀ rows, RunRows c pipelineId rows →
      (∀ jobId status, latestStatus rows jobId = some status → status = .success) →
      (∃ job ∈ c.jobsOf pipelineId, ∀ e ∈ rows, e.jobId ≠ job.id) →
        c.readyJobs pipelineId rows ≠ []) (n : ℕ) (hn : n ≤ (c.jobsOf pipelineId).length) :
    ∃ rows, GraphRun (c.graphOf pipelineId) rows ∧ (∀ e ∈ rows, e.status = .success) ∧
      rows.length = n := by
  induction n with
  | zero => exact ⟨[], .start, by simp, rfl⟩
  | succ n ih =>
    obtain ⟨rows, hrun, hsuccess, hlength⟩ := ih (by omega)
    -- there are more jobs than executions
    have hmissing : ∃ job ∈ c.jobsOf pipelineId, ∀ e ∈ rows, e.jobId ≠ job.id := by
      by_contra hnone
      push Not at hnone
      have hsub : (c.jobsOf pipelineId).map JobEntity.id ⊆ rows.map JobExecutionEntity.jobId := by
        intro id hid
        obtain ⟨job, hjob, rfl⟩ := List.mem_map.mp hid
        obtain ⟨e, he, heq⟩ := hnone job hjob
        exact List.mem_map.mpr ⟨e, he, heq⟩
      have hle := ((Catalog.keyed_jobsOf pipelineId).subperm hsub).length_le
      rw [List.length_map, List.length_map] at hle
      omega
    have hlatest : ∀ jobId status, latestStatus rows jobId = some status → status = .success := by
      intro jobId status h
      obtain ⟨e, he, -, rfl⟩ := (latestStatus_eq_some hrun.founded.distinct).mp h
      exact hsuccess e he
    obtain ⟨job, hjob, hnew, hedges⟩ :=
      readyJobs_ne_nil.mp (hgoes rows hrun.owns hlatest hmissing)
    obtain ⟨rows', hrun', hsuccess', hlength'⟩ := hrun.execute hsuccess
      (ExecutionGraph.mem_ready.mpr ⟨⟨job, hjob, rfl⟩, hnew, hedges⟩)
    exact ⟨rows', hrun', hsuccess', by rw [hlength', hlength]⟩

/-- When every job of a run has succeeded, its dependencies have too, and are therefore jobs of the
pipeline. -/
theorem MakesProgress.closed (h : MakesProgress c pipelineId)
    (hfailure : ¬ c.AwaitsFailure pipelineId) :
    c.Closed pipelineId := by
  obtain ⟨rows, hrun, hsuccess, hlength⟩ := exists_successful
    (h.goes_on fun job _ edge hedge ↦ Catalog.condition_ne_onFailure hfailure hedge) _ le_rfl
  intro d hd hown
  have hsub : rows.map JobExecutionEntity.jobId ⊆ (c.jobsOf pipelineId).map JobEntity.id := by
    intro id hid
    obtain ⟨e, he, rfl⟩ := List.mem_map.mp hid
    exact List.mem_map.mpr (hrun.owns e he)
  have hperm := (hrun.founded.distinct.subperm hsub).perm_of_length_le (by
    rw [List.length_map, List.length_map, hlength])
  obtain ⟨e, he, heq⟩ := List.mem_map.mp (hperm.mem_iff.mpr (List.mem_map.mpr hown))
  have hedge := Catalog.mem_dependencies_of_explicit hd hown
  rw [← heq] at hedge
  obtain ⟨status, hstatus, -⟩ := edgeSatisfied_iff.mp (hrun.founded.satisfied e he _ hedge)
  obtain ⟨x, hx, hjob, -⟩ := (latestStatus_eq_some hrun.founded.distinct).mp hstatus
  have howned := hrun.owns x hx
  rw [hjob] at howned
  exact howned

/-! ## The exact condition -/

theorem MakesProgress.hasRoot (h : MakesProgress c pipelineId) (hjobs : c.jobsOf pipelineId ≠ []) :
    c.HasRoot pipelineId := by
  obtain ⟨job, hjob, -, hedges⟩ := readyJobs_ne_nil.mp (h.start hjobs)
  refine ⟨job, hjob, List.eq_nil_iff_forall_not_mem.mpr fun edge hedge ↦ ?_⟩
  obtain ⟨status, hstatus, -⟩ := edgeSatisfied_iff.mp (hedges edge hedge)
  exact absurd hstatus (by simp [latestStatus, Latest.latest, Latest.descending])

/-- A pipeline that has a root and waits for a failure somewhere keeps the promise too, since the
second part of it does not apply. -/
theorem progress_of_root (hroot : c.HasRoot pipelineId) (hfailure : c.AwaitsFailure pipelineId) :
    MakesProgress c pipelineId := by
  have hstart : c.jobsOf pipelineId ≠ [] → c.readyJobs pipelineId [] ≠ [] := by
    obtain ⟨job, hjob, hnone⟩ := hroot
    exact fun _ ↦ readyJobs_ne_nil.mpr ⟨job, hjob, by simp, by simp [hnone]⟩
  refine ⟨hstart, fun hconditions ↦ ?_, fun hjobs _ _ _ _ hdb hstep _ _ hnone hv ↦
    created_of_start hstart hjobs hdb hstep hnone hv⟩
  obtain ⟨d, hd, hown, hcondition⟩ := hfailure
  have hedge := Catalog.mem_dependencies_of_explicit hd hown
  obtain ⟨job, hjob, hid⟩ := hown
  rw [← hid] at hedge
  exact absurd hcondition (hconditions job hjob _ hedge)

/-- **Progress of a valid graph.** No run of a pipeline stops early exactly when its explicit
dependencies stay within it, or some of them waits for a failure and some job waits for nothing. -/
theorem progress_iff (hvalid : ExecutionGraphValidator.validate (c.graphOf pipelineId) = .ok ()) :
    MakesProgress c pipelineId ↔
      c.Closed pipelineId ∨ (c.HasRoot pipelineId ∧ c.AwaitsFailure pipelineId) := by
  constructor
  · intro h
    by_cases hfailure : c.AwaitsFailure pipelineId
    · by_cases hjobs : c.jobsOf pipelineId = []
      · refine Or.inl fun d _ hown ↦ ?_
        obtain ⟨job, hjob, -⟩ := hown
        rw [hjobs] at hjob
        exact absurd hjob List.not_mem_nil
      · exact Or.inr ⟨h.hasRoot hjobs, hfailure⟩
    · exact Or.inl (h.closed hfailure)
  · rintro (hclosed | ⟨hroot, hfailure⟩)
    · exact hclosed.progress hvalid
    · exact progress_of_root hroot hfailure

end Progress

/-! ## Two pipelines -/

namespace Small

def jobRequest : CreateJobRequest where
  jobTemplateId := none
  position := 1
  jobType := "build"
  params := none
  condition := none
  timeoutSeconds := none
  maxAttempts := none
  resourceLimits := none
  sandboxPolicy := none

/-- The catalog after some calls. -/
def built (calls : List PipelineCall) : Catalog :=
  replay pipelineStep (Catalog.initial [] [] [("build", "jobs.build")] "jobs.cancel") calls

/-- Two pipelines of one job each. -/
def twoPipelines : List PipelineCall :=
  [.create, .create, .createStage 1 ⟨1, none⟩, .createStage 2 ⟨1, none⟩, .createJob 1 jobRequest,
    .createJob 2 jobRequest]

/-- A second job of the first pipeline depends on the first one. -/
def connected : List PipelineCall :=
  twoPipelines ++ [.createJob 1 { jobRequest with position := 2 }, .addDependency 3 ⟨1, none⟩]

/-- The job of the second pipeline depends on that of the first one. -/
def intertwined : List PipelineCall := twoPipelines ++ [.addDependency 2 ⟨1, none⟩]

end Small

theorem progress_connected : MakesProgress (Small.built Small.connected) 1 :=
  (progress_iff (by decide +kernel)).mpr (Or.inl (by decide +kernel))

/-- A run of the second pipeline has nothing to start with. -/
theorem not_progress_intertwined :
    ExecutionGraphValidator.validate ((Small.built Small.intertwined).graphOf 2) = .ok () ∧
      ¬ MakesProgress (Small.built Small.intertwined) 2 := by
  refine ⟨by decide +kernel, fun h ↦ ?_⟩
  exact absurd (h.start (by decide +kernel)) (by decide +kernel)

end FuzzingCiCd.Master
