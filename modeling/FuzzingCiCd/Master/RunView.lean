import FuzzingCiCd.Master.Effect

/-!
# One run at a time

The operations of the master touch the database in many places, but what matters about a run is
its own row, the rows of its executions, its approvals and the messages dispatched for it: its
*view*. `RunStep` lists what an operation can do to the view of an existing run, one constructor
for each kind of change, and `RunStart` says what a new run looks like. The refinement theorem
shows that every operation acts on every view in one of these ways; all properties of runs are
proved over the views.

An operation acts on a run either by doing what its name says or, when it is addressed to another
run or finds nothing to do, not at all. The latter is `RunStep.idle`: rows may change in columns
other than the status, and `Idles` says why nothing else happens.
-/

namespace FuzzingCiCd.Master

open Transition PipelineRunService

/-! ## Views

The services read and write whole tables, and what is claimed is about one run. A view is the
part of the database that belongs to a run, and `RunStep` lists what an operation can do to one,
with everything that its guards have checked. `Refines` connects the two levels: every accepted
operation is a step on every view, and the runs that it adds start as `RunStart` says. -/

/-- What the database holds about one run. -/
structure RunView where
  run : PipelineRunEntity
  rows : List JobExecutionEntity
  approvals : List DeploymentApprovalEntity
  /-- The executions a message was dispatched for, once for each message. -/
  dispatched : List UUID

/-- The executions with an approval to decide. -/
def RunView.awaiting (v : RunView) : List UUID :=
  (v.approvals.filter fun approval ↦ approval.status = .pending).map
    DeploymentApprovalEntity.jobExecutionId

def Db.view (db : Db) (r : UUID) : Option RunView :=
  (db.findRun r).map fun run ↦
    { run := run
      rows := db.findByPipelineRunId r
      approvals := db.approvals.filter fun approval ↦ approval.pipelineRunId = r
      dispatched := db.dispatched r }

theorem Db.view_eq_some {db : Db} {r : UUID} {v : RunView} (h : db.view r = some v) :
    db.findRun r = some v.run ∧ v.rows = db.findByPipelineRunId r ∧ v.awaiting = db.awaiting r ∧
      v.dispatched = db.dispatched r := by
  rw [Db.view, Option.map_eq_some_iff] at h
  obtain ⟨run, hrun, rfl⟩ := h
  refine ⟨hrun, rfl, ?_, rfl⟩
  rw [RunView.awaiting, List.filter_filter, Db.awaiting]
  congr 2
  funext a
  exact Bool.and_comm _ _

theorem Db.view_of_findRun {db : Db} {r : UUID} {run : PipelineRunEntity}
    (h : db.findRun r = some run) : ∃ v, db.view r = some v ∧ v.run = run :=
  ⟨_, by rw [Db.view, h]; rfl, rfl⟩

/-- Rows are changed by `u`, those in `fresh` are added, and messages go out for `sent`. -/
structure ViewEffect (v v' : RunView) (u : JobExecutionEntity → JobExecutionEntity)
    (fresh : List JobExecutionEntity) (sent : List UUID) : Prop where
  keeps : Keeps u
  rows : v'.rows = v.rows.map u ++ fresh
  /-- Approvals are decided, or come with a new execution. -/
  awaiting : ∀ x ∈ v'.awaiting, x ∈ v.awaiting ∨ ∃ e ∈ fresh, e.id = x
  dispatched : v'.dispatched = v.dispatched ++ sent
  keyed : Table.Keyed JobExecutionEntity.id v'.rows
  /-- New rows belong to the run and have new identifiers. -/
  fresh_run : ∀ e ∈ fresh, e.pipelineRunId = v.run.id
  fresh_ids : ∀ e ∈ v.rows, ∀ f ∈ fresh, e.id ≠ f.id

/-- The created executions a message goes out for. -/
def queuedIds (fresh : List JobExecutionEntity) : List UUID :=
  (queuedRows fresh).map JobExecutionEntity.id

/-- The status of row `x` becomes `t`, and no other status changes. -/
def SetsStatus (rows : List JobExecutionEntity) (u : JobExecutionEntity → JobExecutionEntity)
    (x : UUID) (t : JobExecutionStatus) : Prop :=
  ∀ e ∈ rows, (u e).status = if e.id = x then t else e.status

/-- The row of a run after its status was recomputed from the given executions. -/
def recomputed (now : Instant) (run : PipelineRunEntity) (rows : List JobExecutionEntity) :
    PipelineRunEntity :=
  let status := reduceRunStatus rows
  { run with
    status := status
    finishedAt := if status.isFinalStatus then some now else run.finishedAt }

/-- The row of a run that is being canceled. -/
def canceling (run : PipelineRunEntity) : PipelineRunEntity := { run with status := .canceling }

/-- The row of a run that works again. -/
def reopened (run : PipelineRunEntity) (status : PipelineRunStatus) : PipelineRunEntity :=
  { run with status := status, finishedAt := none }

/-- The latest attempts that a retry of the run picks. -/
def retryPicks (c : Catalog) (rows : List JobExecutionEntity) : List JobExecutionEntity :=
  (Latest.latestEntries JobExecutionEntity.jobId JobExecutionEntity.attempt rows).filter
    (retryable c)

/-- An event that the inbox has not seen and whose type is known. -/
def Consumes (db : Db) (delivery : ExecutorEventService.Delivery)
    (message : ExecutorEventMessage) : Prop :=
  InboxDeduplicationService.isDuplicate delivery.consumerName delivery.eventSource
    delivery.sourceDocumentId message.messageId db = false ∧
  (ExecutorEventType.fromValue message.eventType).isSome = true

/-- An operation finds nothing to do on a run. -/
def Idles (c : Catalog) (db : Db) (v : RunView) (call : Call) : Prop :=
  match call.operation with
  | .createRun _ _ => True
  | .createRunBySystem _ _ _ => True
  | .executorEvent delivery message => Consumes db delivery message →
    ∀ e ∈ v.rows, message.jobExecutionId = some e.id → ExecutorEventService.changesStatus e.status
      (ExecutorEventService.mapStatus message.status) = false
  | .cancelRun runId => runId ≠ v.run.id
  | .cancelExecution executionId =>
    ∀ e ∈ v.rows, e.id = executionId → e.status.isFinalStatus = true
  | .retryRun runId => runId = v.run.id → retryPicks c v.rows = []
  | .retryExecution executionId => ∀ e ∈ v.rows, e.id ≠ executionId
  | .approve approvalId => ∀ a ∈ v.approvals, a.id = approvalId →
    ∀ e ∈ v.rows, e.id = a.jobExecutionId → e.status ≠ .waitingApproval
  | .reject approvalId => ∀ a ∈ v.approvals, a.id = approvalId →
    ∀ e ∈ v.rows, e.id = a.jobExecutionId → e.status ≠ .waitingApproval
  | .checkTimeouts => False

/-- What an operation can do to the view of a run. -/
inductive RunStep (c : Catalog) (db : Db) : Call → RunView → RunView → Prop where
  /-- Nothing that counts. -/
  | idle {call : Call} {v v' : RunView} {u : JobExecutionEntity → JobExecutionEntity}
      (hidle : Idles c db v call) (heffect : ViewEffect v v' u [] [])
      (hstatus : ∀ e ∈ v.rows, (u e).status = e.status)
      (hrun : v'.run = v.run) : RunStep c db call v v'
  /-- An event moves an execution to a status that is not final. -/
  | move {ctx : CallContext} {delivery : ExecutorEventService.Delivery}
      {message : ExecutorEventMessage} {v v' : RunView}
      {u : JobExecutionEntity → JobExecutionEntity} {x : JobExecutionEntity}
      {t : JobExecutionStatus} (hnew : Consumes db delivery message) (hx : x ∈ v.rows)
      (hid : message.jobExecutionId = some x.id)
      (htarget : ExecutorEventService.mapStatus message.status = some t)
      (hcan : canTransition x.status t = true) (hfinal : t.isFinalStatus = false)
      (heffect : ViewEffect v v' u [] []) (hstatus : SetsStatus v.rows u x.id t)
      (hrun : v'.run = v.run) : RunStep c db ⟨ctx, .executorEvent delivery message⟩ v v'
  /-- An event ends an execution; ready jobs are dispatched and the status is recomputed. -/
  | finish {ctx : CallContext} {delivery : ExecutorEventService.Delivery}
      {message : ExecutorEventMessage} {v v' : RunView}
      {u : JobExecutionEntity → JobExecutionEntity} {x : JobExecutionEntity}
      {t : JobExecutionStatus} {created : List JobExecutionEntity}
      (hnew : Consumes db delivery message) (hx : x ∈ v.rows)
      (hid : message.jobExecutionId = some x.id)
      (htarget : ExecutorEventService.mapStatus message.status = some t)
      (hcan : canTransition x.status t = true) (hfinal : t.isFinalStatus = true)
      (heffect : ViewEffect v v' u created (queuedIds created))
      (hstatus : SetsStatus v.rows u x.id t)
      (hcreated : List.Forall₂ (fun job e ↦ FreshRow c v.run.id job 1 e)
        (c.readyJobs v.run.pipelineId (v.rows.map u)) created)
      (hrun : v'.run = recomputed ctx.now v.run v'.rows) :
      RunStep c db ⟨ctx, .executorEvent delivery message⟩ v v'
  /-- The run is canceled: active executions are told to stop. -/
  | cancelRun {ctx : CallContext} {v v' : RunView}
      {u : JobExecutionEntity → JobExecutionEntity} (heffect : ViewEffect v v' u [] [])
      (hstatus : ∀ e ∈ v.rows,
        (u e).status = if e.status.isActive then .canceling else e.status)
      (hrun : v'.run = canceling v.run) :
      RunStep c db ⟨ctx, .cancelRun v.run.id⟩ v v'
  /-- An execution that is not final is told to stop. -/
  | cancelExecution {ctx : CallContext} {v v' : RunView}
      {u : JobExecutionEntity → JobExecutionEntity} {x : JobExecutionEntity} (hx : x ∈ v.rows)
      (hfinal : x.status.isFinalStatus = false) (heffect : ViewEffect v v' u [] [])
      (hstatus : SetsStatus v.rows u x.id .canceling) (hrun : v'.run = v.run) :
      RunStep c db ⟨ctx, .cancelExecution x.id⟩ v v'
  /-- The retryable latest attempts are superseded by new ones. -/
  | retryRun {ctx : CallContext} {v v' : RunView}
      {u : JobExecutionEntity → JobExecutionEntity} {retried : List JobExecutionEntity}
      (hpicks : retryPicks c v.rows ≠ []) (heffect : ViewEffect v v' u retried (queuedIds retried))
      (hstatus : ∀ e ∈ v.rows, (u e).status =
        if e.id ∈ (retryPicks c v.rows).map JobExecutionEntity.id then .retrying else e.status)
      (hretried : List.Forall₂ (Retries c v.run.id) (retryPicks c v.rows) retried)
      (hrun : v'.run = reopened v.run (statusOfCreated retried)) :
      RunStep c db ⟨ctx, .retryRun v.run.id⟩ v v'
  /-- A retryable attempt is superseded by a new one. -/
  | retryExecution {ctx : CallContext} {v v' : RunView}
      {u : JobExecutionEntity → JobExecutionEntity} {x retried : JobExecutionEntity}
      {job : JobEntity} (hx : x ∈ v.rows) (hjob : job ∈ c.jobs) (hjobId : job.id = x.jobId)
      (hcandidate : isRetryCandidate x job = true)
      (heffect : ViewEffect v v' u [retried] (queuedIds [retried]))
      (hstatus : SetsStatus v.rows u x.id .retrying)
      (hretried : FreshRow c v.run.id job (nextAttempt v.rows job.id) retried)
      (hrun : v'.run = reopened v.run (statusOfCreated [retried])) :
      RunStep c db ⟨ctx, .retryExecution x.id⟩ v v'
  /-- A waiting execution is approved and dispatched. -/
  | approve {ctx : CallContext} {v v' : RunView}
      {u : JobExecutionEntity → JobExecutionEntity} {x : JobExecutionEntity}
      {approval : DeploymentApprovalEntity} (hx : x ∈ v.rows) (happroval : approval ∈ v.approvals)
      (hfor : approval.jobExecutionId = x.id) (hpending : approval.status = .pending)
      (hwaiting : x.status = .waitingApproval) (heffect : ViewEffect v v' u [] [x.id])
      (hstatus : SetsStatus v.rows u x.id .queued) (hrun : v'.run = reopened v.run .running) :
      RunStep c db ⟨ctx, .approve approval.id⟩ v v'
  /-- A waiting execution is rejected and the status is recomputed. -/
  | reject {ctx : CallContext} {v v' : RunView}
      {u : JobExecutionEntity → JobExecutionEntity} {x : JobExecutionEntity}
      {approval : DeploymentApprovalEntity} (hx : x ∈ v.rows) (happroval : approval ∈ v.approvals)
      (hunique : ∀ a ∈ v.approvals, a.id = approval.id → a = approval)
      (hfor : approval.jobExecutionId = x.id) (hpending : approval.status = .pending)
      (hwaiting : x.status = .waitingApproval) (heffect : ViewEffect v v' u [] [])
      (hstatus : SetsStatus v.rows u x.id .skipped)
      (hrun : v'.run = recomputed ctx.now v.run v'.rows) :
      RunStep c db ⟨ctx, .reject approval.id⟩ v v'
  /-- Running executions past their duration time out. -/
  | checkTimeouts {ctx : CallContext} {v v' : RunView}
      {u : JobExecutionEntity → JobExecutionEntity} (heffect : ViewEffect v v' u [] [])
      (hstatus : ∀ e ∈ v.rows, (u e).status =
        if e.status = .running ∧ TimeoutWatchdog.isExpired ctx.now e = true then .timeout
        else e.status)
      (hrun : v'.run = v.run) : RunStep c db ⟨ctx, .checkTimeouts⟩ v v'

/-- What a new run looks like. -/
structure RunStart (c : Catalog) (v : RunView) : Prop where
  valid : ExecutionGraphValidator.validate (c.graphOf v.run.pipelineId) = .ok ()
  rows : List.Forall₂ (fun job e ↦ FreshRow c v.run.id job 1 e)
    (c.readyJobs v.run.pipelineId []) v.rows
  keyed : Table.Keyed JobExecutionEntity.id v.rows
  status : v.run.status = if v.rows = [] then .success else statusOfCreated v.rows
  finishedAt : v.rows = [] → v.run.finishedAt ≠ none
  unfinished : v.rows ≠ [] → v.run.finishedAt = none
  dispatched : v.dispatched = queuedIds v.rows

/-- The operation starts a run of the pipeline. -/
def Creates (operation : Operation) (pipelineId : UUID) : Prop :=
  match operation with
  | .createRun id _ => id = pipelineId
  | .createRunBySystem id _ _ => id = pipelineId
  | _ => False

/-- An operation acts on every run by a step, and a run it adds starts like one. -/
structure Refines (c : Catalog) (call : Call) (db db' : Db) : Prop where
  sound : Sound db'
  old : ∀ r v, db.view r = some v → ∃ v', db'.view r = some v' ∧ RunStep c db call v v'
  new : ∀ r v', db.view r = none → db'.view r = some v' →
    RunStart c v' ∧ Creates call.operation v'.run.pipelineId

end FuzzingCiCd.Master
