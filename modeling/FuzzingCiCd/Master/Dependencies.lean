import FuzzingCiCd.Master.Attempts

/-!
# Dependency safety

An execution is to be created only when all edges into its job are satisfied by the latest
attempts. Dispatching checks the edges; the retries create attempts without looking at the graph.
An operation is therefore safe exactly when what it retries could have been dispatched: every edge
into a retried job is satisfied, and none of them starts at a job that is retried along with it.

## Main results

* `edgeSatisfied_after_iff`: which edges are satisfied after a step that adds attempts.
* `RunStep.safe_iff`: the condition is exact for one step.
* `dependencySafe_throughout_iff`: and for whole histories.
-/

namespace FuzzingCiCd.Master

open Transition PipelineRunService ReadyJobResolver

/-- Every edge into the job of an execution that the operation created is satisfied by the latest
attempts after the operation. -/
def DependencySafe (c : Catalog) (db db' : Db) : Prop :=
  ∀ r v', db'.view r = some v' →
    ∀ e ∈ v'.rows, (∀ x ∈ db.findByPipelineRunId r, x.id ≠ e.id) →
      ∀ edge ∈ (c.graphOf v'.run.pipelineId).dependencies e.jobId,
        edgeSatisfied (latestStatus v'.rows) edge = true

/-- The jobs could be dispatched together: every edge into one of them starts elsewhere and is
satisfied. -/
def MayRerun (c : Catalog) (v : RunView) (jobIds : List UUID) : Prop :=
  ∀ j ∈ jobIds, ∀ edge ∈ (c.graphOf v.run.pipelineId).dependencies j,
    edge.dependsOnJobId ∉ jobIds ∧ edgeSatisfied (latestStatus v.rows) edge = true

/-- The condition on an operation. -/
def KeepsDependencies (c : Catalog) (v : RunView) (call : Call) : Prop :=
  match call.operation with
  | .retryRun runId =>
    runId = v.run.id → MayRerun c v ((retryPicks c v.rows).map JobExecutionEntity.jobId)
  | .retryExecution executionId =>
    ∀ x ∈ v.rows, x.id = executionId → MayRerun c v [x.jobId]
  | _ => True

/-! ## Statuses after a step -/

section Steps

variable {c : Catalog} {v v' : RunView} {u : JobExecutionEntity → JobExecutionEntity}
  {fresh : List JobExecutionEntity} {sent : List UUID}

/-- When the statuses of the jobs without a new attempt stay, an edge is satisfied after the step
exactly when it was before and its source got no new attempt. -/
theorem edgeSatisfied_after_iff (hv : Attempted c v) (h : ViewEffect v v' u fresh sent)
    (hadds : AddsAttempts c v fresh) {edge : DependencyEdge}
    (hstatus : ∀ e ∈ v.rows, (∀ f ∈ fresh, f.jobId ≠ e.jobId) → (u e).status = e.status) :
    edgeSatisfied (latestStatus v'.rows) edge = true ↔
      (∀ f ∈ fresh, f.jobId ≠ edge.dependsOnJobId) ∧
        edgeSatisfied (latestStatus v.rows) edge = true := by
  by_cases hnew : ∃ f ∈ fresh, f.jobId = edge.dependsOnJobId
  · obtain ⟨f, hf, hjob⟩ := hnew
    refine iff_of_false (fun hsatisfied ↦ ?_) fun hboth ↦ hboth.1 f hf hjob
    obtain ⟨status, hlatest, hfinal, -⟩ := edgeSatisfied_iff.mp hsatisfied
    rw [← hjob, latestStatus_of_mem hv h hadds hf] at hlatest
    have hactive := hadds.active f hf
    rw [Option.some.inj hlatest, JobExecutionStatus.not_active_of_final hfinal] at hactive
    exact absurd hactive (by decide)
  · have hne : ∀ f ∈ fresh, f.jobId ≠ edge.dependsOnJobId := fun f hf hjob ↦ hnew ⟨f, hf, hjob⟩
    have hsame : latestStatus v'.rows edge.dependsOnJobId =
        latestStatus v.rows edge.dependsOnJobId := by
      rw [latestStatus_of_ne hv h hne, latestStatus]
      refine Option.map_congr fun e he ↦ ?_
      obtain ⟨hmem, hjob, -⟩ := Latest.of_latest he
      exact hstatus e hmem fun f hf ↦ hjob ▸ hne f hf
    rw [edgeSatisfied, edgeSatisfied, hsame]
    exact ⟨fun hsatisfied ↦ ⟨hne, hsatisfied⟩, fun hboth ↦ hboth.2⟩

theorem created_iff (h : ViewEffect v v' u fresh sent) {P : JobExecutionEntity → Prop} :
    (∀ e ∈ v'.rows, (∀ x ∈ v.rows, x.id ≠ e.id) → P e) ↔ ∀ f ∈ fresh, P f := by
  constructor
  · intro hP f hf
    exact hP f (h.mem.mpr (Or.inr hf)) fun x hx ↦ h.fresh_ids x hx f hf
  · intro hP e he hnew
    rcases h.mem.mp he with ⟨x, hx, rfl⟩ | he
    · exact absurd (h.keeps.id x).symm (hnew x hx)
    · exact hP e he

/-- New attempts that supersede others wait for what their jobs wait for. -/
theorem mayRerun_iff (hv : Attempted c v) (h : ViewEffect v v' u fresh sent)
    (hadds : AddsAttempts c v fresh)
    (hkeep : ∀ e ∈ v.rows, (∀ f ∈ fresh, f.jobId ≠ e.jobId) → (u e).status = e.status) :
    (∀ f ∈ fresh, ∀ edge ∈ (c.graphOf v.run.pipelineId).dependencies f.jobId,
      edgeSatisfied (latestStatus v'.rows) edge = true) ↔
      MayRerun c v (fresh.map JobExecutionEntity.jobId) := by
  rw [MayRerun, List.forall_mem_map]
  refine forall₂_congr fun f _ ↦ forall₂_congr fun edge _ ↦ ?_
  rw [edgeSatisfied_after_iff hv h hadds hkeep, List.mem_map]
  simp

end Steps

/-! ## Dispatching -/

/-- Dispatching what is ready after a change of statuses is safe. -/
theorem edgeSatisfied_of_created {c : Catalog} {v v' : RunView}
    {u : JobExecutionEntity → JobExecutionEntity} {created : List JobExecutionEntity}
    {sent : List UUID} (hv : Attempted c v) (h : ViewEffect v v' u created sent)
    (hcreated : List.Forall₂ (fun job e ↦ FreshRow c v.run.id job 1 e)
      (c.readyJobs v.run.pipelineId (v.rows.map u)) created) {e : JobExecutionEntity}
    (he : e ∈ created) {edge : DependencyEdge}
    (hedge : edge ∈ (c.graphOf v.run.pipelineId).dependencies e.jobId) :
    edgeSatisfied (latestStatus v'.rows) edge = true := by
  have hadds := addsAttempts_ready h.keeps hcreated
  obtain ⟨job, hjob, hrow⟩ := exists_of_forall₂_right hcreated he
  rw [hrow.jobId] at hedge
  have hready := (Catalog.mem_readyJobs.mp hjob).2.2 edge hedge
  obtain ⟨status, hlatest, hrest⟩ := edgeSatisfied_iff.mp hready
  -- the source of the edge has an execution, so it was not dispatched now
  have hne : ∀ f ∈ created, f.jobId ≠ edge.dependsOnJobId := by
    intro f hf hfjob
    obtain ⟨job', hjob', hrow'⟩ := exists_of_forall₂_right hcreated hf
    obtain ⟨x, hx, -⟩ := Option.map_eq_some_iff.mp hlatest
    obtain ⟨hmem, hxjob, -⟩ := Latest.of_latest hx
    exact (Catalog.mem_readyJobs.mp hjob').2.1 x hmem (by rw [hxjob, ← hfjob, hrow'.jobId])
  refine edgeSatisfied_iff.mpr ⟨status, ?_, hrest⟩
  rw [latestStatus_of_ne hv h hne, ← hlatest, latestStatus,
    Latest.latest_map h.keeps.jobId h.keeps.attempt, Option.map_map]
  rfl

/-- Nothing into a job that is ready without executions. -/
theorem no_edge_of_start {c : Catalog} {v : RunView} (h : RunStart c v) {e : JobExecutionEntity}
    (he : e ∈ v.rows) {edge : DependencyEdge} :
    edge ∉ (c.graphOf v.run.pipelineId).dependencies e.jobId := by
  intro hedge
  obtain ⟨job, hjob, hrow⟩ := exists_of_forall₂_right h.rows he
  rw [hrow.jobId] at hedge
  have hready := (Catalog.mem_readyJobs.mp hjob).2.2 edge hedge
  obtain ⟨status, hlatest, -⟩ := edgeSatisfied_iff.mp hready
  exact absurd hlatest (by simp [latestStatus, Latest.latest, Latest.descending])

/-! ## The exact condition

What an event or the start of a run creates is safe, because it was ready. A retry creates
attempts without a look at the graph; the attempt that is superseded may have been started before
its upstream jobs were retried as well, and that is the condition. -/

/-- **One step on a view.** What a step creates is safe exactly when the operation meets the
condition. -/
theorem RunStep.safe_iff {c : Catalog} {db : Db} {call : Call} {v v' : RunView}
    (hv : Attempted c v) (h : RunStep c db call v v') :
    (∀ e ∈ v'.rows, (∀ x ∈ v.rows, x.id ≠ e.id) →
      ∀ edge ∈ (c.graphOf v'.run.pipelineId).dependencies e.jobId,
        edgeSatisfied (latestStatus v'.rows) edge = true) ↔ KeepsDependencies c v call := by
  -- only the end of an execution and the retries create rows
  have hnone : ∀ {u : JobExecutionEntity → JobExecutionEntity} {sent : List UUID},
      ViewEffect v v' u [] sent → ∀ e ∈ v'.rows, (∀ x ∈ v.rows, x.id ≠ e.id) →
        ∀ edge ∈ (c.graphOf v'.run.pipelineId).dependencies e.jobId,
          edgeSatisfied (latestStatus v'.rows) edge = true :=
    fun heffect ↦ (created_iff heffect).mpr (by simp)
  cases h with
  | @idle call _ _ _ hidle heffect hstatus hrun =>
    refine iff_of_true (hnone heffect) ?_
    obtain ⟨ctx, operation⟩ := call
    cases operation with
    | retryRun runId =>
      intro hid j hj
      rw [hidle hid] at hj
      exact absurd hj List.not_mem_nil
    | retryExecution executionId =>
      intro x hx hid
      exact absurd hid (hidle x hx)
    | _ => trivial
  | move hnew hx hid htarget hcan hfinal heffect hstatus hrun =>
    exact iff_of_true (hnone heffect) trivial
  | finish hnew hx hid htarget hcan hfinal heffect hstatus hcreated hrun =>
    refine iff_of_true ((created_iff heffect).mpr fun f hf edge hedge ↦ ?_) trivial
    rw [hrun] at hedge
    exact edgeSatisfied_of_created hv heffect hcreated hf hedge
  | cancelRun heffect hstatus hrun => exact iff_of_true (hnone heffect) trivial
  | cancelExecution hx hfinal heffect hstatus hrun => exact iff_of_true (hnone heffect) trivial
  | @retryRun _ _ _ u retried hpicks heffect hstatus hretried hrun =>
    have hadds := addsAttempts_retried hv hretried
    have hjobs := map_jobId_of_forall₂ (f := JobExecutionEntity.jobId)
      (fun _ _ h ↦ jobId_of_retries h) hretried
    have hkeep : ∀ e ∈ v.rows, (∀ f ∈ retried, f.jobId ≠ e.jobId) →
        (u e).status = e.status := by
      intro e he hne
      rw [hstatus e he, if_neg]
      intro hid
      obtain ⟨x, hx, hxid⟩ := List.mem_map.mp hid
      obtain rfl := hv.keyed.eq (mem_of_mem_retryPicks hx) he hxid
      obtain ⟨f, hf, hretries⟩ := exists_of_forall₂_left hretried hx
      exact hne f hf (jobId_of_retries hretries)
    rw [created_iff heffect, hrun]
    have hsafe := mayRerun_iff hv heffect hadds hkeep
    rw [hjobs] at hsafe
    exact hsafe.trans ⟨fun h _ ↦ h, fun h ↦ h rfl⟩
  | @retryExecution _ _ _ u x retried job hx hjob hjobId hcandidate heffect hstatus hretried hrun =>
    have hadds := addsAttempts_retry hv hx hjobId hretried
    have hretriedJob : retried.jobId = x.jobId := by rw [hretried.jobId, hjobId]
    have hkeep : ∀ e ∈ v.rows, (∀ f ∈ [retried], f.jobId ≠ e.jobId) →
        (u e).status = e.status := by
      intro e he hne
      rw [hstatus e he, if_neg]
      intro hid
      obtain rfl := hv.keyed.eq he hx hid
      exact hne retried (List.mem_singleton.mpr rfl) hretriedJob
    rw [created_iff heffect, hrun]
    have hsafe := mayRerun_iff hv heffect hadds hkeep
    rw [List.map_singleton, hretriedJob] at hsafe
    refine hsafe.trans ⟨fun h y hy hyid ↦ ?_, fun h ↦ h x hx rfl⟩
    rwa [hv.keyed.eq hy hx hyid]
  | approve hx happroval hfor hpending hwaiting heffect hstatus hrun =>
    exact iff_of_true (hnone heffect) trivial
  | reject hx happroval hunique hfor hpending hwaiting heffect hstatus hrun =>
    exact iff_of_true (hnone heffect) trivial
  | checkTimeouts heffect hstatus hrun => exact iff_of_true (hnone heffect) trivial

/-- **One operation.** What it creates is safe exactly when it meets the condition on every run. -/
theorem dependencySafe_iff {c : Catalog} {db db' : Db} {call : Call} (hdb : Reachable c db)
    (h : step c call db = .ok db') :
    DependencySafe c db db' ↔ ∀ r v, db.view r = some v → KeepsDependencies c v call := by
  have href := step_refines hdb.sound h
  constructor
  · intro hsafe r v hv
    obtain ⟨v', hv', hstep⟩ := href.old r v hv
    refine (hstep.safe_iff (attempted_view hdb r v hv)).mp ?_
    rw [(Db.view_eq_some hv).2.1]
    exact hsafe r v' hv'
  · intro hok r v' hv' e he
    cases hold : db.view r with
    | none =>
      intro _ edge hedge
      exact absurd hedge (no_edge_of_start (href.new r v' hold hv').1 he)
    | some v =>
      obtain ⟨v'', hv'', hstep⟩ := href.old r v hold
      obtain rfl := Option.some.inj (hv''.symm.trans hv')
      have := (hstep.safe_iff (attempted_view hdb r v hold)).mpr (hok r v hold) e he
      rwa [(Db.view_eq_some hold).2.1] at this

/-- **Dependency safety.** What the operations of a history create is safe exactly when all of them
meet the condition on every run. -/
theorem dependencySafe_throughout_iff (c : Catalog) (calls : List Call) :
    (∀ past call, past ++ [call] <+: calls →
      DependencySafe c (history c past) (history c (past ++ [call]))) ↔
      Along (step c) (Permitted c fun _ v call ↦ KeepsDependencies c v call) Db.empty calls := by
  rw [along_iff]
  refine forall_congr' fun past ↦ forall_congr' fun call ↦ imp_congr_right fun _ ↦ ?_
  have hnext : history c (past ++ [call]) = apply (step c) (history c past) call := by
    rw [history, replay_concat]
  rw [hnext]
  cases h : step c call (history c past) with
  | ok db' =>
    rw [apply_of_ok h, dependencySafe_iff ⟨past, rfl⟩ h]
    constructor
    · intro hok db'' _
      exact hok
    · intro hok
      exact hok db' h
  | error e =>
    rw [apply_of_error h]
    refine iff_of_true ?_ fun db' hdb' ↦ absurd (h.symm.trans hdb') (by simp)
    intro r v' hv' x hx hnew
    rw [(Db.view_eq_some hv').2.1] at hx
    exact absurd rfl (hnew x hx)

/-- A job and its successor on failure both fail and are retried together. -/
def retriedTogether : List Call :=
  [Small.call (.createRun 0 none), Small.deliver (Small.message 100 2 .running),
   Small.deliver (Small.failure 101 2), Small.deliver (Small.message 102 7 .running),
   Small.deliver (Small.failure 103 7)]

theorem not_dependencySafe_throughout : ¬ ∀ c past call,
    DependencySafe c (history c past) (history c (past ++ [call])) := by
  intro h
  let c := Small.chain .onFailure
  let db := history c retriedTogether
  let db' := history c (retriedTogether ++ [Small.call (.retryRun 0)])
  have hbad : ∃ v' ∈ db'.view 0, ∃ e ∈ v'.rows,
      (∀ x ∈ db.findByPipelineRunId 0, x.id ≠ e.id) ∧
      ∃ edge ∈ (c.graphOf v'.run.pipelineId).dependencies e.jobId,
        edgeSatisfied (latestStatus v'.rows) edge = false := by decide +kernel
  obtain ⟨v', hv', e, he, hnew, edge, hedge, hunsatisfied⟩ := hbad
  have hsafe := h c retriedTogether (Small.call (.retryRun 0)) 0 v' hv' e he hnew edge hedge
  rw [hunsatisfied] at hsafe
  exact absurd hsafe (by decide)

end FuzzingCiCd.Master
