import FuzzingCiCd.Foundation.Dataflow
import FuzzingCiCd.Master.Completion
import FuzzingCiCd.Master.FanIn
import FuzzingCiCd.Master.GraphRuns

/-!
# The order of events does not matter

Executors finish in any order, report progress or do not, and the watchdog and other runs come in
between. What a run has executed when it ends depends on none of this. The graph of a pipeline is a
plan in the sense of the theory of dataflow, the executions of a run are grounded in it at all
times, and complete when the run has ended.

So a job was executed exactly when the results of the other jobs make it start
(`executed_iff_starts`), and two runs of a pipeline in which the jobs had the same results have
executed the same jobs (`confluent_of_ended`). Retries are left out, since they replace results, and
so are rejections, after which jobs that are ready may stay behind.

## Main results

* `GraphRun.grounded`: the executions of a run are grounded in its graph.
* `executed_iff_starts`, `confluent_of_ended`: what a run executes, and that two runs agree.
-/

namespace FuzzingCiCd.Master

open Transition PipelineRunService ReadyJobResolver Dataflow

/-! ## The graph as a plan -/

/-- A job waits for the jobs at its edges and accepts the statuses that satisfy the edge. -/
def ExecutionGraph.plan (graph : ExecutionGraph) : Plan UUID JobExecutionStatus where
  tasks := {jobId | ∃ job ∈ graph.jobs, job.id = jobId}
  Needs jobId k accepted := ∃ edge ∈ graph.dependencies jobId, edge.dependsOnJobId = k ∧
    accepted = {s | s.isFinalStatus = true ∧ conditionSatisfied edge.condition s = true}

/-- The result of a job, which says nothing about jobs that have not been executed. -/
def results (rows : List JobExecutionEntity) (jobId : UUID) : JobExecutionStatus :=
  (latestStatus rows jobId).getD .queued

section Plan

variable {graph : ExecutionGraph} {rows rows' created : List JobExecutionEntity}
  {u : JobExecutionEntity → JobExecutionEntity} {jobId : UUID}

theorem mem_jobIds_iff : jobId ∈ rows.map JobExecutionEntity.jobId ↔
    ∃ s, latestStatus rows jobId = some s := by
  rw [← Option.ne_none_iff_exists', ne_eq, latestStatus, Option.map_eq_none_iff,
    Latest.latest_eq_none, List.mem_map]
  push Not
  exact Iff.rfl

theorem edgeSatisfied_iff_results {edge : DependencyEdge} :
    edgeSatisfied (latestStatus rows) edge = true ↔
      (results rows edge.dependsOnJobId).isFinalStatus = true ∧
        conditionSatisfied edge.condition (results rows edge.dependsOnJobId) = true := by
  rw [edgeSatisfied_iff, results]
  rcases latestStatus rows edge.dependsOnJobId with _ | s
  · -- a job without executions counts as queued, which is not final
    refine iff_of_false ?_ (fun h ↦ absurd h.1 (by decide))
    rintro ⟨s, hs, -⟩
    cases hs
  · simp

/-- The resolver and the plan agree about what can start. -/
theorem ready_iff : Ready graph.plan (results rows) (rows.map JobExecutionEntity.jobId) jobId ↔
    (∃ job ∈ graph.jobs, job.id = jobId) ∧
      ∀ edge ∈ graph.dependencies jobId, edgeSatisfied (latestStatus rows) edge = true := by
  refine and_congr_right fun _ ↦ ⟨fun h edge hedge ↦ ?_, ?_⟩
  · exact edgeSatisfied_iff_results.mpr (h _ _ ⟨edge, hedge, rfl, rfl⟩).2
  · rintro h k accepted ⟨edge, hedge, rfl, rfl⟩
    obtain ⟨s, hs, -⟩ := edgeSatisfied_iff.mp (h edge hedge)
    exact ⟨mem_jobIds_iff.mpr ⟨s, hs⟩, edgeSatisfied_iff_results.mp (h edge hedge)⟩

/-- Without ready jobs nothing can start. -/
theorem complete_of_readyJobs_eq_nil {c : Catalog} {pipelineId : UUID}
    (h : c.readyJobs pipelineId rows = []) :
    Complete (c.graphOf pipelineId).plan (results rows) (rows.map JobExecutionEntity.jobId) := by
  intro j hready
  by_contra hnew
  obtain ⟨⟨job, hjob, rfl⟩, hedges⟩ := ready_iff.mp hready
  have hmem : job ∈ c.readyJobs pipelineId rows :=
    Catalog.mem_readyJobs.mpr ⟨hjob, fun e he hid ↦ hnew (List.mem_map.mpr ⟨e, he, hid⟩), hedges⟩
  rw [h] at hmem
  exact absurd hmem List.not_mem_nil

theorem GraphStep.grounded (h : GraphStep graph rows rows' u created)
    (hrows : (rows.map JobExecutionEntity.jobId).Nodup)
    (hgrounded : Grounded graph.plan (results rows) (rows.map JobExecutionEntity.jobId)) :
    Grounded graph.plan (results rows') (rows'.map JobExecutionEntity.jobId) := by
  have hold : (rows.map u).map JobExecutionEntity.jobId = rows.map JobExecutionEntity.jobId := by
    rw [List.map_map]
    exact List.map_congr_left fun e _ ↦ h.keeps.jobId e
  rw [h.rows_eq, List.map_append, hold, ← h.rows_eq]
  refine Grounded.append (hgrounded.congr ?_) fun j hj ↦ ?_
  · -- what an edge has accepted is final and stays
    rintro j - k accepted ⟨edge, -, rfl, rfl⟩ haccepted
    exact edgeSatisfied_iff_results.mp
      (h.satisfied_kept hrows (edgeSatisfied_iff_results.mpr haccepted))
  · obtain ⟨e, he, rfl⟩ := List.mem_map.mp hj
    obtain ⟨htask, -, hedges⟩ := ExecutionGraph.mem_ready.mp (h.ready e he)
    refine ⟨htask, ?_⟩
    rintro k accepted ⟨edge, hedge, rfl, rfl⟩
    obtain ⟨s, hs, -⟩ := edgeSatisfied_iff.mp (hedges edge hedge)
    exact ⟨hold ▸ mem_jobIds_iff.mpr ⟨s, hs⟩,
      edgeSatisfied_iff_results.mp (h.satisfied_created hrows (hedges edge hedge))⟩

/-- **The run lemma.** The executions of a run are grounded. -/
theorem GraphRun.grounded (h : GraphRun graph rows) :
    Grounded graph.plan (results rows) (rows.map JobExecutionEntity.jobId) := by
  induction h with
  | start => exact grounded_nil
  | step hrun hstep ih => exact hstep.grounded hrun.founded.distinct ih

end Plan

/-! ## Runs that nobody disturbs

Without retries and rejections a run of the master is a run of its graph that ends only when
nothing is ready. Which jobs start is then determined by the results of the jobs, not by their
order, and the result of the library on graphs carries over. -/

/-- The operation is a retry of the run or of one of its executions, or a rejection in it. -/
def Disturbs (v : RunView) (call : Call) : Prop :=
  match call.operation with
  | .retryRun runId => runId = v.run.id
  | .retryExecution executionId => ∃ e ∈ v.rows, e.id = executionId
  | .reject approvalId => ∃ a ∈ v.approvals, a.id = approvalId
  | _ => False

/-- No accepted operation of the history disturbs the run. -/
def Undisturbed (c : Catalog) (r : UUID) (calls : List Call) : Prop :=
  Along (step c) (PermittedOn c r fun _ v call ↦ ¬ Disturbs v call) Db.empty calls

section Undisturbed

variable {c : Catalog} {db : Db} {call : Call} {v v' : RunView} {calls : List Call} {r : UUID}

/-- A retry that is about another run does nothing to this one. -/
theorem RunStep.graphStep_of_undisturbed (hv : Attempted c v) (h : RunStep c db call v v')
    (hcall : ¬ Disturbs v call) : v'.run.pipelineId = v.run.pipelineId ∧
      ∃ u created, GraphStep (c.graphOf v.run.pipelineId) v.rows v'.rows u created := by
  by_cases hretry : call.operation.isRetry = false
  · exact h.graphStep hv hretry
  cases h with
  | idle hidle heffect hstatus hrun =>
    exact ⟨by rw [hrun], _, _, graphStep_of_nothing heffect fun e he _ ↦ hstatus e he⟩
  | retryRun => exact absurd rfl hcall
  | retryExecution hx => exact absurd ⟨_, hx, rfl⟩ hcall
  | move => exact absurd rfl hretry
  | finish => exact absurd rfl hretry
  | cancelRun => exact absurd rfl hretry
  | cancelExecution => exact absurd rfl hretry
  | approve => exact absurd rfl hretry
  | reject => exact absurd rfl hretry
  | checkTimeouts => exact absurd rfl hretry

theorem rejectsLast_of_undisturbed (hcall : ¬ Disturbs v call) : RejectsLast c v call := by
  rw [RejectsLast]
  split
  · rename_i approvalId hoperation
    intro a ha hid
    rw [Disturbs, hoperation] at hcall
    exact absurd ⟨a, ha, hid⟩ hcall
  · trivial

theorem graphRun_of_undisturbed (hcalls : Undisturbed c r calls)
    (hv : (history c calls).view r = some v) :
    GraphRun (c.graphOf v.run.pipelineId) v.rows ∧ DoneWhenEnded c v := by
  have hinv : Reachable c (history c calls) ∧ ∀ v, (history c calls).view r = some v →
      GraphRun (c.graphOf v.run.pipelineId) v.rows ∧ DoneWhenEnded c v := by
    refine replay_invariant (I := fun db ↦ Reachable c db ∧ ∀ v, db.view r = some v →
      GraphRun (c.graphOf v.run.pipelineId) v.rows ∧ DoneWhenEnded c v) ?_
      ⟨⟨[], rfl⟩, fun v hv ↦ absurd hv (by simp [Db.view, Db.findRun, Db.empty, Table.findById])⟩
      hcalls
    rintro db call db' ⟨hdb, hviews⟩ hok hstep
    refine ⟨hdb.step hstep, fun v' hv' ↦ ?_⟩
    have href := step_refines hdb.sound hstep
    rcases hold : db.view r with _ | v
    · have hstart := (href.new r v' hold hv').1
      exact ⟨.step .start hstart.graphStep, hstart.doneWhenEnded⟩
    · obtain ⟨w, hw, hrun⟩ := href.old r v hold
      obtain rfl := Option.some.inj (hw.symm.trans hv')
      obtain ⟨hgraph, hdone⟩ := hviews v hold
      have hcall := hok db' hstep v hold
      have hattempted := attempted_view hdb r v hold
      obtain ⟨hpipeline, u, created, hgraphStep⟩ :=
        hrun.graphStep_of_undisturbed hattempted hcall
      refine ⟨hpipeline ▸ .step hgraph hgraphStep, ?_⟩
      exact (hrun.doneWhenEnded_iff hattempted (concluded_view hdb r v hold) hdone).mp
        (rejectsLast_of_undisturbed hcall)
  exact hinv.2 v hv

theorem complete_of_ended (hcalls : Undisturbed c r calls)
    (hv : (history c calls).view r = some v) (hended : Ended v.run.status) :
    Complete (c.graphOf v.run.pipelineId).plan (results v.rows)
      (v.rows.map JobExecutionEntity.jobId) := by
  have hready := ((graphRun_of_undisturbed hcalls hv).2 hended).2
  rw [resolveReadyJobs_eq_nil (attempted_view ⟨calls, rfl⟩ r v hv)] at hready
  exact complete_of_readyJobs_eq_nil hready

/-- **What a run executes.** When an undisturbed run has ended, exactly those jobs have an execution
that the results of the jobs make start. -/
theorem executed_iff_starts (hcalls : Undisturbed c r calls)
    (hv : (history c calls).view r = some v) (hended : Ended v.run.status) (jobId : UUID) :
    (∃ e ∈ v.rows, e.jobId = jobId) ↔
      Starts (c.graphOf v.run.pipelineId).plan (results v.rows) jobId := by
  rw [← mem_iff_starts (graphRun_of_undisturbed hcalls hv).1.grounded
    (complete_of_ended hcalls hv hended), List.mem_map]

/-- **Confluence.** Take two undisturbed runs of a pipeline, in any two histories, that have both
ended. If the jobs that both have executed ended alike, then each job of one run is in the other
one, and ended alike there. -/
theorem confluent_of_ended {calls' : List Call} {r' : UUID} {w : RunView}
    (hcalls : Undisturbed c r calls) (hcalls' : Undisturbed c r' calls')
    (hv : (history c calls).view r = some v) (hw : (history c calls').view r' = some w)
    (hpipeline : w.run.pipelineId = v.run.pipelineId) (hended : Ended v.run.status)
    (hended' : Ended w.run.status)
    (hagree : ∀ e ∈ v.rows, ∀ f ∈ w.rows, e.jobId = f.jobId → e.status = f.status) :
    (∀ e ∈ v.rows, ∃ f ∈ w.rows, f.jobId = e.jobId ∧ f.status = e.status) ∧
      ∀ f ∈ w.rows, ∃ e ∈ v.rows, e.jobId = f.jobId ∧ e.status = f.status := by
  have hgraph := (graphRun_of_undisturbed hcalls hv).1
  have hgraph' := (graphRun_of_undisturbed hcalls' hw).1
  have hcomplete := complete_of_ended hcalls hv hended
  have hcomplete' := complete_of_ended hcalls' hw hended'
  rw [hpipeline] at hgraph' hcomplete'
  have hresult : ∀ {rows : List JobExecutionEntity}, (rows.map JobExecutionEntity.jobId).Nodup →
      ∀ e ∈ rows, results rows e.jobId = e.status := by
    intro rows hrows e he
    rw [results, (latestStatus_eq_some hrows).mpr ⟨e, he, rfl, rfl⟩, Option.getD_some]
  have hsame : ∀ jobId ∈ v.rows.map JobExecutionEntity.jobId,
      jobId ∈ w.rows.map JobExecutionEntity.jobId →
        results v.rows jobId = results w.rows jobId := by
    intro jobId hjob hjob'
    obtain ⟨e, he, rfl⟩ := List.mem_map.mp hjob
    obtain ⟨f, hf, hid⟩ := List.mem_map.mp hjob'
    rw [hresult hgraph.founded.distinct e he, ← hid, hresult hgraph'.founded.distinct f hf]
    exact hagree e he f hf hid.symm
  constructor
  · intro e he
    obtain ⟨f, hf, hid⟩ := List.mem_map.mp
      (confluent hgraph.grounded hcomplete' hsame e.jobId (List.mem_map_of_mem he))
    exact ⟨f, hf, hid, (hagree e he f hf hid.symm).symm⟩
  · intro f hf
    obtain ⟨e, he, hid⟩ := List.mem_map.mp (confluent hgraph'.grounded hcomplete
      (fun j hj hj' ↦ (hsame j hj' hj).symm) f.jobId (List.mem_map_of_mem hf))
    exact ⟨e, he, hid, hagree e he f hf hid⟩

end Undisturbed

/-- The operations that can disturb a run. -/
def Operation.disturbs : Operation → Bool
  | .retryRun _ => true
  | .retryExecution _ => true
  | .reject _ => true
  | _ => false

theorem undisturbed_of_forall {c : Catalog} (r : UUID) {calls : List Call}
    (h : ∀ call ∈ calls, call.operation.disturbs = false) : Undisturbed c r calls := by
  rw [Undisturbed, along_iff]
  rintro js call hpre db' - v - hdisturbs
  have hcall := h call (hpre.subset (by simp))
  obtain ⟨ctx, operation⟩ := call
  cases operation <;> first | exact hdisturbs | cases hcall

/-! ## Two orders -/

namespace Small

/-- The first of two upstream jobs ends first. -/
def inOrder : List Call :=
  bothRunning ++ [deliver (message 102 2 .success), deliver (message 103 5 .success),
    deliver (message 104 12 .running), deliver (message 105 12 .success)]

/-- The second one ends first, and the watchdog looks in between. -/
def outOfOrder : List Call :=
  bothRunning ++ [deliver (message 103 5 .success), call .checkTimeouts,
    deliver (message 102 2 .success), deliver (message 104 12 .running),
    deliver (message 105 12 .success)]

/-- What the run has executed in either case. -/
def executed : List (UUID × JobExecutionStatus) := [(2, .success), (3, .success), (5, .success)]

end Small

theorem view_of_inOrder : ∃ v ∈ (history Small.join Small.inOrder).view 0,
    Ended v.run.status ∧ v.run.pipelineId = 0 ∧
      v.rows.map (fun e ↦ (e.jobId, e.status)) = Small.executed := by decide +kernel

theorem view_of_outOfOrder : ∃ v ∈ (history Small.join Small.outOfOrder).view 0,
    Ended v.run.status ∧ v.run.pipelineId = 0 ∧
      v.rows.map (fun e ↦ (e.jobId, e.status)) = Small.executed := by decide +kernel

theorem executed_inOrder : ∃ v ∈ (history Small.join Small.inOrder).view 0,
    Starts (Small.join.graphOf v.run.pipelineId).plan (results v.rows) 5 := by
  obtain ⟨v, hv, hended, -, hrows⟩ := view_of_inOrder
  have hcalls : Undisturbed Small.join 0 Small.inOrder := undisturbed_of_forall 0 (by decide)
  refine ⟨v, hv, (executed_iff_starts hcalls hv hended 5).mp ?_⟩
  have hmem : (5, .success) ∈ v.rows.map fun e ↦ (e.jobId, e.status) := hrows ▸ by decide
  obtain ⟨e, he, hpair⟩ := List.mem_map.mp hmem
  exact ⟨e, he, (Prod.mk.inj hpair).1⟩

/-- The two orders end alike. -/
theorem confluent_join : ∃ v ∈ (history Small.join Small.inOrder).view 0,
    ∃ w ∈ (history Small.join Small.outOfOrder).view 0,
      (∀ e ∈ v.rows, ∃ f ∈ w.rows, f.jobId = e.jobId ∧ f.status = e.status) ∧
        ∀ f ∈ w.rows, ∃ e ∈ v.rows, e.jobId = f.jobId ∧ e.status = f.status := by
  obtain ⟨v, hv, hended, hpipeline, hrows⟩ := view_of_inOrder
  obtain ⟨w, hw, hended', hpipeline', hrows'⟩ := view_of_outOfOrder
  have hcalls : Undisturbed Small.join 0 Small.inOrder := undisturbed_of_forall 0 (by decide)
  have hcalls' : Undisturbed Small.join 0 Small.outOfOrder := undisturbed_of_forall 0 (by decide)
  refine ⟨v, hv, w, hw, confluent_of_ended hcalls hcalls' hv hw (hpipeline'.trans hpipeline.symm)
    hended hended' fun e he f hf hid ↦ ?_⟩
  have hfunction : ∀ p ∈ Small.executed, ∀ q ∈ Small.executed, p.1 = q.1 → p.2 = q.2 := by decide
  exact hfunction _ (hrows ▸ List.mem_map_of_mem he) _ (hrows' ▸ List.mem_map_of_mem hf) hid

end FuzzingCiCd.Master
