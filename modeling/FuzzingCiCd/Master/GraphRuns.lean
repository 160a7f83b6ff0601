import FuzzingCiCd.Master.Attempts
import Mathlib.Data.List.Induction

/-!
# Runs of a graph

The executions of a run as the resolver sees them: statuses change until they are final, and jobs
that are ready get an execution. `graphRun_history` says that this is what the operations of the
master do to a run when none of them is a retry.

In such a run a job has at most one execution, and whatever made it ready stays that way. An
execution is therefore founded on the edges into its job for as long as the run lasts.

## Main results

* `GraphRun.founded`: executions stay founded on the edges into their jobs.
* `graphRun_history`: the operations of the master make runs of the graph.
-/

namespace FuzzingCiCd.Master

open PipelineRunService ReadyJobResolver Transition

/-- The ready jobs after these executions. -/
def ExecutionGraph.ready (graph : ExecutionGraph) (rows : List JobExecutionEntity) : List UUID :=
  resolveReadyJobs graph (latestStatus rows) (rows.map JobExecutionEntity.jobId)

/-- Executions that are not final change their status, and ready jobs are dispatched. -/
structure GraphStep (graph : ExecutionGraph) (rows rows' : List JobExecutionEntity)
    (u : JobExecutionEntity → JobExecutionEntity) (created : List JobExecutionEntity) : Prop where
  rows_eq : rows' = rows.map u ++ created
  keeps : Keeps u
  final : ∀ e ∈ rows, e.status.isFinalStatus = true → (u e).status = e.status
  ready : ∀ e ∈ created, e.jobId ∈ graph.ready (rows.map u)
  active : ∀ e ∈ created, e.status.isActive = true
  distinct : (created.map JobExecutionEntity.jobId).Nodup

/-- The executions of a run in which all of them were created for ready jobs. -/
inductive GraphRun (graph : ExecutionGraph) : List JobExecutionEntity → Prop where
  | start : GraphRun graph []
  | step {rows rows' : List JobExecutionEntity} {u : JobExecutionEntity → JobExecutionEntity}
      {created : List JobExecutionEntity} (hrun : GraphRun graph rows)
      (hstep : GraphStep graph rows rows' u created) : GraphRun graph rows'

section Ready

variable {graph : ExecutionGraph} {rows : List JobExecutionEntity} {jobId : UUID}

theorem ExecutionGraph.mem_ready : jobId ∈ graph.ready rows ↔
    (∃ job ∈ graph.jobs, job.id = jobId) ∧ (∀ e ∈ rows, e.jobId ≠ jobId) ∧
      ∀ edge ∈ graph.dependencies jobId, edgeSatisfied (latestStatus rows) edge = true := by
  rw [ready, resolveReadyJobs, List.mem_filter, List.mem_map]
  simp [dependenciesSatisfied]

theorem latestStatus_eq_some (hrows : (rows.map JobExecutionEntity.jobId).Nodup)
    {status : JobExecutionStatus} :
    latestStatus rows jobId = some status ↔ ∃ e ∈ rows, e.jobId = jobId ∧ e.status = status := by
  rw [latestStatus, Option.map_eq_some_iff]
  constructor
  · rintro ⟨e, hlatest, hstatus⟩
    obtain ⟨he, hjob, -⟩ := Latest.of_latest hlatest
    exact ⟨e, he, hjob, hstatus⟩
  · rintro ⟨e, he, hjob, hstatus⟩
    have heq : ∀ x ∈ rows, x.jobId = jobId → x = e := fun x hx hxjob ↦
      List.inj_on_of_nodup_map hrows hx he (hxjob.trans hjob.symm)
    refine ⟨e, (Latest.latest_eq_some_of_key ?_).mpr ⟨he, hjob, fun x hx hxjob ↦ ?_⟩, hstatus⟩
    · intro x hx y hy hxjob hyjob _
      rw [heq x hx hxjob, heq y hy hyjob]
    · rw [heq x hx hxjob]

end Ready

/-! ## The invariant -/

/-- Every job has one execution at most, and the edges into the job of an execution are
satisfied. -/
structure Founded (graph : ExecutionGraph) (rows : List JobExecutionEntity) : Prop where
  distinct : (rows.map JobExecutionEntity.jobId).Nodup
  satisfied : ∀ e ∈ rows, ∀ edge ∈ graph.dependencies e.jobId,
    edgeSatisfied (latestStatus rows) edge = true

section Invariant

variable {graph : ExecutionGraph} {rows rows' created : List JobExecutionEntity}
  {u : JobExecutionEntity → JobExecutionEntity}

theorem GraphStep.nodup (h : GraphStep graph rows rows' u created)
    (hrows : (rows.map JobExecutionEntity.jobId).Nodup) :
    (rows'.map JobExecutionEntity.jobId).Nodup := by
  have hmap : (rows.map u).map JobExecutionEntity.jobId = rows.map JobExecutionEntity.jobId := by
    rw [List.map_map]
    exact List.map_congr_left fun e _ ↦ h.keeps.jobId e
  rw [h.rows_eq, List.map_append, hmap]
  refine List.nodup_append.mpr ⟨hrows, h.distinct, ?_⟩
  rintro j hj k hk rfl
  obtain ⟨e, he, rfl⟩ := List.mem_map.mp hk
  rw [← hmap] at hj
  obtain ⟨x, hx, hxe⟩ := List.mem_map.mp hj
  exact (ExecutionGraph.mem_ready.mp (h.ready e he)).2.1 x hx hxe

theorem GraphStep.satisfied_created (h : GraphStep graph rows rows' u created)
    (hrows : (rows.map JobExecutionEntity.jobId).Nodup) {edge : DependencyEdge}
    (hedge : edgeSatisfied (latestStatus (rows.map u)) edge = true) :
    edgeSatisfied (latestStatus rows') edge = true := by
  obtain ⟨status, hstatus, hrest⟩ := edgeSatisfied_iff.mp hedge
  refine edgeSatisfied_iff.mpr ⟨status, (latestStatus_eq_some (h.nodup hrows)).mpr ?_, hrest⟩
  obtain ⟨e, hlatest, hrank⟩ := Option.map_eq_some_iff.mp hstatus
  obtain ⟨he, hjob, -⟩ := Latest.of_latest hlatest
  refine ⟨e, ?_, hjob, hrank⟩
  rw [h.rows_eq]
  exact List.mem_append_left _ he

/-- An edge that is satisfied stays so, since the status at its source is final. -/
theorem GraphStep.satisfied_kept (h : GraphStep graph rows rows' u created)
    (hrows : (rows.map JobExecutionEntity.jobId).Nodup) {edge : DependencyEdge}
    (hedge : edgeSatisfied (latestStatus rows) edge = true) :
    edgeSatisfied (latestStatus rows') edge = true := by
  obtain ⟨status, hstatus, hfinal, hrest⟩ := edgeSatisfied_iff.mp hedge
  obtain ⟨e, he, hjob, rfl⟩ := (latestStatus_eq_some hrows).mp hstatus
  refine edgeSatisfied_iff.mpr ⟨e.status, (latestStatus_eq_some (h.nodup hrows)).mpr
    ⟨u e, ?_, (h.keeps.jobId e).trans hjob, h.final e he hfinal⟩, hfinal, hrest⟩
  rw [h.rows_eq]
  exact List.mem_append_left _ (List.mem_map_of_mem he)

theorem Founded.step (hrows : Founded graph rows) (h : GraphStep graph rows rows' u created) :
    Founded graph rows' := by
  refine ⟨h.nodup hrows.distinct, fun e he edge hedge ↦ ?_⟩
  rw [h.rows_eq] at he
  rcases List.mem_append.mp he with he | he
  · obtain ⟨x, hx, rfl⟩ := List.mem_map.mp he
    rw [h.keeps.jobId] at hedge
    exact h.satisfied_kept hrows.distinct (hrows.satisfied x hx edge hedge)
  · exact h.satisfied_created hrows.distinct
      ((ExecutionGraph.mem_ready.mp (h.ready e he)).2.2 edge hedge)

/-- **Runs of a graph.** Whatever happens in a run, its executions stay founded. -/
theorem GraphRun.founded (h : GraphRun graph rows) : Founded graph rows := by
  induction h with
  | start => exact ⟨List.nodup_nil, by simp⟩
  | step _ hstep ih => exact ih.step hstep

/-- What a ready job waits for, and what that waited for in turn, has succeeded, if edges ask for
success only. -/
theorem Founded.success_of_upstream (h : Founded graph rows)
    (hsuccess : ∀ jobId, ∀ edge ∈ graph.dependencies jobId, edge.condition = .onSuccess)
    {jobId upstreamId : UUID}
    (hjob : ∀ edge ∈ graph.dependencies jobId, edgeSatisfied (latestStatus rows) edge = true)
    (hupstream : Relation.TransGen
      (fun j k ↦ ∃ edge ∈ graph.dependencies j, edge.dependsOnJobId = k) jobId upstreamId) :
    latestStatus rows upstreamId = some .success := by
  have hsource : ∀ {j k : UUID}, (∀ edge ∈ graph.dependencies j,
      edgeSatisfied (latestStatus rows) edge = true) →
      (∃ edge ∈ graph.dependencies j, edge.dependsOnJobId = k) →
      latestStatus rows k = some .success := by
    rintro j k hj ⟨edge, hedge, rfl⟩
    obtain ⟨status, hstatus, -, hcondition⟩ := edgeSatisfied_iff.mp (hj edge hedge)
    rw [hsuccess j edge hedge, conditionSatisfied, decide_eq_true_iff] at hcondition
    rw [hstatus, hcondition]
  induction hupstream using Relation.TransGen.head_induction_on with
  | single hedge => exact hsource hjob hedge
  | head hedge _ ih =>
    refine ih fun edge hin ↦ ?_
    obtain ⟨e, he, rfl, -⟩ := (latestStatus_eq_some h.distinct).mp (hsource hjob hedge)
    exact h.satisfied e he edge hin

end Invariant

/-! ## Histories without retries -/

def Operation.isRetry : Operation → Bool
  | .retryRun _ => true
  | .retryExecution _ => true
  | _ => false

section Histories

variable {c : Catalog} {v v' : RunView} {u : JobExecutionEntity → JobExecutionEntity}
  {sent : List UUID}

theorem graphStep_of_nothing {graph : ExecutionGraph} (h : ViewEffect v v' u [] sent)
    (hfinal : ∀ e ∈ v.rows, e.status.isFinalStatus = true → (u e).status = e.status) :
    GraphStep graph v.rows v'.rows u [] where
  rows_eq := h.rows
  keeps := h.keeps
  final := hfinal
  ready := by simp
  active := by simp
  distinct := List.nodup_nil

/-- One execution that is not final changes its status. -/
theorem final_of_setsStatus {rows : List JobExecutionEntity} {x : JobExecutionEntity}
    (hkeyed : Table.Keyed JobExecutionEntity.id rows) (hx : x ∈ rows) {t : JobExecutionStatus}
    (hstatus : SetsStatus rows u x.id t) (hmay : x.status.isFinalStatus = true → t = x.status) :
    ∀ e ∈ rows, e.status.isFinalStatus = true → (u e).status = e.status := by
  intro e he hfinal
  rw [hstatus e he]
  split
  case isTrue hid =>
    obtain rfl := hkeyed.eq he hx hid
    exact hmay hfinal
  case isFalse => rfl

theorem graphStep_of_created {runId : UUID} {created : List JobExecutionEntity}
    {rows rows' : List JobExecutionEntity} {pipelineId : UUID} (hkeeps : Keeps u)
    (hrows : rows' = rows.map u ++ created)
    (hfinal : ∀ e ∈ rows, e.status.isFinalStatus = true → (u e).status = e.status)
    (hcreated : List.Forall₂ (fun job e ↦ FreshRow c runId job 1 e)
      (c.readyJobs pipelineId (rows.map u)) created) :
    GraphStep (c.graphOf pipelineId) rows rows' u created where
  rows_eq := hrows
  keeps := hkeeps
  final := hfinal
  ready e he := by
    obtain ⟨job, hjob, hrow⟩ := exists_of_forall₂_right hcreated he
    obtain ⟨hmem, hnew, hedges⟩ := Catalog.mem_readyJobs.mp hjob
    rw [hrow.jobId]
    exact ExecutionGraph.mem_ready.mpr ⟨⟨job, hmem, rfl⟩, hnew, hedges⟩
  active e he := by
    obtain ⟨job, -, hrow⟩ := exists_of_forall₂_right hcreated he
    exact hrow.isActive
  distinct := by
    rw [map_jobId_of_forall₂ (f := JobEntity.id) (fun _ _ hrow ↦ hrow.jobId) hcreated]
    exact Catalog.keyed_readyJobs _ _

/-- What an operation does to a run when it is not a retry. -/
theorem RunStep.graphStep {db : Db} {call : Call} (hv : Attempted c v)
    (h : RunStep c db call v v') (hretry : call.operation.isRetry = false) :
    v'.run.pipelineId = v.run.pipelineId ∧
      ∃ u created, GraphStep (c.graphOf v.run.pipelineId) v.rows v'.rows u created := by
  have hnever : ∀ {x : JobExecutionEntity} {t : JobExecutionStatus},
      x.status.isFinalStatus = false → x.status.isFinalStatus = true → t = x.status := by
    intro x t hnot hfinal
    rw [hnot] at hfinal
    exact absurd hfinal Bool.false_ne_true
  cases h with
  | idle hidle heffect hstatus hrun =>
    exact ⟨by rw [hrun], _, _, graphStep_of_nothing heffect fun e he _ ↦ hstatus e he⟩
  | move hnew hx hid htarget hcan hfinal heffect hstatus hrun =>
    exact ⟨by rw [hrun], _, _, graphStep_of_nothing heffect (final_of_setsStatus hv.keyed hx
      hstatus fun hold ↦ JobExecutionStatus.eq_of_canTransition_of_final hold hcan)⟩
  | finish hnew hx hid htarget hcan hfinal heffect hstatus hcreated hrun =>
    refine ⟨by rw [hrun, recomputed], _, _, graphStep_of_created heffect.keeps heffect.rows
      (final_of_setsStatus hv.keyed hx hstatus fun hold ↦ ?_) hcreated⟩
    exact JobExecutionStatus.eq_of_canTransition_of_final hold hcan
  | cancelRun heffect hstatus hrun =>
    refine ⟨by rw [hrun, canceling], _, _, graphStep_of_nothing heffect fun e he hfinal ↦ ?_⟩
    rw [hstatus e he, JobExecutionStatus.not_active_of_final hfinal, if_neg Bool.false_ne_true]
  | cancelExecution hx hfinal heffect hstatus hrun =>
    exact ⟨by rw [hrun], _, _, graphStep_of_nothing heffect
      (final_of_setsStatus hv.keyed hx hstatus (hnever hfinal))⟩
  | retryRun => cases hretry
  | retryExecution => cases hretry
  | approve hx happroval hfor hpending hwaiting heffect hstatus hrun =>
    exact ⟨by rw [hrun, reopened], _, _, graphStep_of_nothing heffect
      (final_of_setsStatus hv.keyed hx hstatus (hnever (by rw [hwaiting]; rfl)))⟩
  | reject hx happroval hunique hfor hpending hwaiting heffect hstatus hrun =>
    exact ⟨by rw [hrun, recomputed], _, _, graphStep_of_nothing heffect
      (final_of_setsStatus hv.keyed hx hstatus (hnever (by rw [hwaiting]; rfl)))⟩
  | checkTimeouts heffect hstatus hrun =>
    refine ⟨by rw [hrun], _, _, graphStep_of_nothing heffect fun e he hfinal ↦ ?_⟩
    rw [hstatus e he, if_neg]
    rintro ⟨hrunning, -⟩
    rw [hrunning] at hfinal
    exact absurd hfinal (by decide)

theorem RunStart.graphStep (h : RunStart c v) :
    GraphStep (c.graphOf v.run.pipelineId) [] v.rows (fun e ↦ e) v.rows :=
  graphStep_of_created keeps_id (by simp) (by simp) h.rows

end Histories

/-- **Runs of the master.** As long as nothing is retried, the executions of every run are those of
a run of its graph. -/
theorem graphRun_history (c : Catalog) {calls : List Call}
    (hretry : ∀ call ∈ calls, call.operation.isRetry = false) {r : UUID} {v : RunView}
    (hv : (history c calls).view r = some v) : GraphRun (c.graphOf v.run.pipelineId) v.rows := by
  induction calls using List.reverseRecOn generalizing v with
  | nil => cases hv
  | append_singleton past call ih =>
    have hpast : ∀ {w : RunView}, (history c past).view r = some w →
        GraphRun (c.graphOf w.run.pipelineId) w.rows :=
      ih fun call hcall ↦ hretry call (List.mem_append_left _ hcall)
    rw [history, replay_concat] at hv
    cases hstep : step c call (history c past) with
    | error e =>
      rw [apply_of_error hstep] at hv
      exact hpast hv
    | ok db' =>
      rw [apply_of_ok hstep] at hv
      have hreachable : Reachable c (history c past) := ⟨past, rfl⟩
      have href := step_refines hreachable.sound hstep
      cases hold : (history c past).view r with
      | none => exact .step .start (href.new r v hold hv).1.graphStep
      | some w =>
        obtain ⟨w', hw', hrun⟩ := href.old r w hold
        obtain rfl := Option.some.inj (hw'.symm.trans hv)
        obtain ⟨hpipeline, u, created, hgraph⟩ := hrun.graphStep
          (attempted_view hreachable r w hold) (hretry call (by simp))
        rw [hpipeline]
        exact .step (hpast hold) hgraph

end FuzzingCiCd.Master
