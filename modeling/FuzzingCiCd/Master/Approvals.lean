import FuzzingCiCd.Master.Attempts

/-!
# Approvals and dispatches

The database keeps a record of what was approved and what was dispatched: `Ledger`. An execution
whose job asks for an approval has exactly one, and is dispatched no earlier than it is approved;
any other execution is dispatched as it is created. In both cases one `job.dispatch` event is all
there ever is.

Most operations touch neither table. Those that do create an execution, decide an approval or
release an approved execution, and each has its own lemma.

## Main results

* `saveRun`, `saveExecution`, `requestCancellation`: what leaves the ledger alone.
* `createReady`: the executions that a dispatch creates enter it.
* `step`: every operation keeps it.
* `exists_of_sent`: a dispatched execution is in the database.
-/

namespace FuzzingCiCd.Master

open Transition PipelineRunService

/-! ## Dispatch events -/

namespace Db

/-- The `job.dispatch` events, oldest first. -/
def dispatches (db : Db) : List OutboxEventEntity :=
  db.outbox.filter fun event ↦ event.eventType = "job.dispatch"

/-- The executions they are for, once for each event. -/
def sent (db : Db) : List UUID := db.dispatches.map OutboxEventEntity.aggregateId

/-- The executions with an approval, once for each of them. -/
def requested (db : Db) : List UUID :=
  db.approvals.map DeploymentApprovalEntity.jobExecutionId

theorem dispatches_addOutboxEvent (db : Db) (event : OutboxEventEntity) :
    (db.addOutboxEvent event).dispatches =
      db.dispatches ++ if event.eventType = "job.dispatch" then [event] else [] := by
  rw [dispatches, addOutboxEvent, List.filter_append, List.filter_singleton, dispatches]
  by_cases h : event.eventType = "job.dispatch" <;> simp [h]

end Db

/-- The event carries the message for an execution of the job. -/
structure Carries (job : JobEntity) (event : OutboxEventEntity) (message : JobMessage) : Prop where
  payload : event.payload = .job message
  jobExecutionId : message.jobExecutionId = event.aggregateId
  jobType : message.jobType = job.jobType.value
  params : JobMessageFactory.toMap job.params = .ok message.params

/-- The message is for the execution and has the parameters of the job, masked. -/
theorem JobMessageFactory.build_ok {now : Instant} {messageId pipelineId stageId : UUID}
    {run : PipelineRunEntity} {job : JobEntity} {e : JobExecutionEntity}
    {templatePath : Option String} {message : JobMessage}
    (h : build now messageId run job e pipelineId stageId templatePath = .ok message) :
    message.jobExecutionId = e.id ∧ message.jobType = job.jobType.value ∧
      toMap job.params = .ok message.params := by
  rw [build] at h
  obtain ⟨params, hparams, h⟩ := bind_eq_ok.mp h
  obtain ⟨limits, -, h⟩ := bind_eq_ok.mp h
  obtain ⟨policy, -, h⟩ := bind_eq_ok.mp h
  obtain rfl := Except.ok.inj h
  exact ⟨rfl, rfl, hparams⟩

/-- Enqueueing an execution adds one dispatch event, with the message for its job. -/
theorem enqueueExecution_dispatches {c : Catalog} {now : Instant} {run : PipelineRunEntity}
    {job : JobEntity} {e : JobExecutionEntity} {db db' : Db} (hs : Sound db)
    (h : enqueueExecution c now run job e db = .ok db') :
    db'.approvals = db.approvals ∧ ∃ event message, event.aggregateId = e.id ∧
      Carries job event message ∧ db'.dispatches = db.dispatches ++ [event] := by
  rw [enqueueExecution] at h
  obtain ⟨message, hmessage, h⟩ := bind_eq_ok.mp h
  obtain ⟨topic, -, h⟩ := bind_eq_ok.mp h
  obtain ⟨hid, htype, hparams⟩ := JobMessageFactory.build_ok hmessage
  rw [outboxEnqueue_eq (hs.drawIds 1)] at h
  obtain rfl := Except.ok.inj h
  exact ⟨rfl, newOutboxEvent now (db.nextId + 1) "job_execution" e.id "job.dispatch" topic e.id
    (.job message), message, rfl, ⟨rfl, hid, htype, hparams⟩, Db.dispatches_addOutboxEvent _ _⟩

/-! ## The ledger -/

/-- The job asks for an approval before it is dispatched. -/
def Asks (c : Catalog) (job : JobEntity) : Prop :=
  (resolveApprovalEnvironment c job).isSome = true

/-- Approvals and dispatches belong to executions and to each other. -/
structure Ledger (c : Catalog) (db : Db) : Prop where
  sound : Sound db
  sent_once : db.sent.Nodup
  requested_once : db.requested.Nodup
  carried : ∀ event ∈ db.dispatches, ∃ e ∈ db.executions, e.id = event.aggregateId ∧
    ∃ job message, c.findJob e.jobId = some job ∧ Carries job event message
  /-- What is not approved is not dispatched. -/
  undecided : ∀ a ∈ db.approvals, a.status ≠ .approved → a.jobExecutionId ∉ db.sent
  /-- An execution waits for an approval or was dispatched as it was created. -/
  created : ∀ e ∈ db.executions, ∃ job, c.findJob e.jobId = some job ∧
    (Asks c job ∧ e.id ∈ db.requested ∨ ¬ Asks c job ∧ e.id ∈ db.sent ∧ e.id ∉ db.requested)

theorem ledger_empty (c : Catalog) : Ledger c Db.empty := by
  refine ⟨sound_empty, ?_, ?_, ?_, ?_, ?_⟩ <;>
    simp [Db.empty, Db.sent, Db.dispatches, Db.requested]

namespace Ledger

variable {c : Catalog} {db db' : Db}

/-- A dispatched execution is in the database. -/
theorem exists_of_sent (h : Ledger c db) {x : UUID} (hx : x ∈ db.sent) :
    ∃ e ∈ db.executions, e.id = x := by
  obtain ⟨event, hevent, rfl⟩ := List.mem_map.mp hx
  obtain ⟨e, he, hid, -⟩ := h.carried event hevent
  exact ⟨e, he, hid⟩

theorem not_sent_nextId (h : Ledger c db) : db.nextId ∉ db.sent := by
  intro hsent
  obtain ⟨e, he, hid⟩ := h.exists_of_sent hsent
  exact (h.sound.executions_lt e he).ne hid

theorem not_requested_nextId (h : Ledger c db) : db.nextId ∉ db.requested := by
  intro hrequested
  obtain ⟨a, ha, hid⟩ := List.mem_map.mp hrequested
  exact (h.sound.approvals_lt a ha).2.ne hid

/-- Executions are changed in place; approvals and dispatches stay. -/
theorem inPlace (h : Ledger c db) (hs : Sound db') {u : JobExecutionEntity → JobExecutionEntity}
    (hu : Keeps u) (hexec : db'.executions = db.executions.map u)
    (happr : db'.approvals = db.approvals) (hdisp : db'.dispatches = db.dispatches) :
    Ledger c db' where
  sound := hs
  sent_once := by
    rw [Db.sent, hdisp]
    exact h.sent_once
  requested_once := by
    rw [Db.requested, happr]
    exact h.requested_once
  carried := by
    intro event hevent
    rw [hdisp] at hevent
    obtain ⟨e, he, hid, job, message, hjob, hcarries⟩ := h.carried event hevent
    refine ⟨u e, hexec ▸ List.mem_map_of_mem he, (hu.id e).trans hid, job, message, ?_, hcarries⟩
    rwa [hu.jobId]
  undecided := by
    rw [happr, Db.sent, hdisp]
    exact h.undecided
  created := by
    intro e' he'
    rw [hexec] at he'
    obtain ⟨e, he, rfl⟩ := List.mem_map.mp he'
    rw [hu.jobId, hu.id, Db.requested, happr, Db.sent, hdisp]
    exact h.created e he

theorem of_effect (h : Ledger c db) {u : JobExecutionEntity → JobExecutionEntity}
    (heffect : Effect db db' u [] []) (happr : db'.approvals = db.approvals)
    (hdisp : db'.dispatches = db.dispatches) : Ledger c db' :=
  h.inPlace heffect.sound heffect.keeps (by rw [heffect.executions, List.append_nil]) happr hdisp

theorem updateRun (h : Ledger c db) {f : PipelineRunEntity → PipelineRunEntity}
    (hf : ∀ run, (f run).id = run.id) (r : UUID) : Ledger c (db.updateRun r f) :=
  h.inPlace (h.sound.updateRun hf r) keeps_id (List.map_id' _).symm rfl rfl

theorem addRun (h : Ledger c db) {run : PipelineRunEntity} (hid : run.id = db.nextId) :
    Ledger c (db.addRun run) :=
  h.inPlace (h.sound.addRun hid) keeps_id (List.map_id' _).symm rfl rfl

/-! ## Creating an execution

An execution is created together with its dispatch event or with its approval, and both carry the
identifier that was drawn for it. So neither can be there before, and each function that creates
executions keeps the ledger because `createExecution` does. -/

/-- The execution of a job that asks for nothing comes with its dispatch event. -/
theorem addSent (h : Ledger c db) (hs : Sound db') {e : JobExecutionEntity} {job : JobEntity}
    {event : OutboxEventEntity} {message : JobMessage} (hid : e.id = db.nextId)
    (hjob : c.findJob e.jobId = some job) (hasks : ¬ Asks c job)
    (hevent : event.aggregateId = e.id) (hcarries : Carries job event message)
    (hexec : db'.executions = db.executions ++ [e]) (happr : db'.approvals = db.approvals)
    (hdisp : db'.dispatches = db.dispatches ++ [event]) : Ledger c db' := by
  have hsent : db'.sent = db.sent ++ [e.id] := by
    rw [Db.sent, hdisp, List.map_append, List.map_singleton, hevent, Db.sent]
  have hrequested : db'.requested = db.requested := by rw [Db.requested, happr, Db.requested]
  refine ⟨hs, ?_, hrequested ▸ h.requested_once, ?_, ?_, ?_⟩
  · rw [hsent, List.nodup_append]
    refine ⟨h.sent_once, List.nodup_singleton _, ?_⟩
    rintro x hx y hy rfl
    rw [List.mem_singleton.mp hy, hid] at hx
    exact h.not_sent_nextId hx
  · intro event' hevent'
    rw [hdisp] at hevent'
    rcases List.mem_append.mp hevent' with hold | hnew
    · obtain ⟨e', he', hrest⟩ := h.carried event' hold
      exact ⟨e', hexec ▸ List.mem_append_left _ he', hrest⟩
    · obtain rfl := List.mem_singleton.mp hnew
      refine ⟨e, ?_, hevent.symm, job, message, hjob, hcarries⟩
      rw [hexec]
      exact List.mem_append_right _ (List.mem_singleton.mpr rfl)
  · intro a ha hstatus hmem
    rw [happr] at ha
    rw [hsent] at hmem
    rcases List.mem_append.mp hmem with hold | hnew
    · exact h.undecided a ha hstatus hold
    · rw [List.mem_singleton, hid] at hnew
      exact (h.sound.approvals_lt a ha).2.ne hnew
  · intro x hx
    rw [hexec] at hx
    rw [hsent, hrequested]
    rcases List.mem_append.mp hx with hold | hnew
    · obtain ⟨job', hjob', hcreated⟩ := h.created x hold
      refine ⟨job', hjob', hcreated.imp_right ?_⟩
      rintro ⟨hno, hin, hout⟩
      exact ⟨hno, List.mem_append_left _ hin, hout⟩
    · obtain rfl := List.mem_singleton.mp hnew
      refine ⟨job, hjob, Or.inr ⟨hasks, ?_, ?_⟩⟩
      · exact List.mem_append_right _ (List.mem_singleton.mpr rfl)
      · rw [hid]
        exact h.not_requested_nextId

theorem addRequested (h : Ledger c db) (hs : Sound db') {e : JobExecutionEntity} {job : JobEntity}
    {a : DeploymentApprovalEntity} (hid : e.id = db.nextId)
    (hjob : c.findJob e.jobId = some job) (hasks : Asks c job) (ha : a.jobExecutionId = e.id)
    (hexec : db'.executions = db.executions ++ [e]) (happr : db'.approvals = db.approvals ++ [a])
    (hdisp : db'.dispatches = db.dispatches) : Ledger c db' := by
  have hsent : db'.sent = db.sent := by rw [Db.sent, hdisp, Db.sent]
  have hrequested : db'.requested = db.requested ++ [e.id] := by
    rw [Db.requested, happr, List.map_append, List.map_singleton, ha, Db.requested]
  refine ⟨hs, hsent ▸ h.sent_once, ?_, ?_, ?_, ?_⟩
  · rw [hrequested, List.nodup_append]
    refine ⟨h.requested_once, List.nodup_singleton _, ?_⟩
    rintro x hx y hy rfl
    rw [List.mem_singleton.mp hy, hid] at hx
    exact h.not_requested_nextId hx
  · intro event hevent
    rw [hdisp] at hevent
    obtain ⟨e', he', hrest⟩ := h.carried event hevent
    exact ⟨e', hexec ▸ List.mem_append_left _ he', hrest⟩
  · intro a' ha' hstatus
    rw [happr] at ha'
    rw [hsent]
    rcases List.mem_append.mp ha' with hold | hnew
    · exact h.undecided a' hold hstatus
    · rw [List.mem_singleton.mp hnew, ha, hid]
      exact h.not_sent_nextId
  · intro x hx
    rw [hexec] at hx
    rw [hsent, hrequested]
    rcases List.mem_append.mp hx with hold | hnew
    · obtain ⟨job', hjob', hcreated⟩ := h.created x hold
      refine ⟨job', hjob', hcreated.imp (And.imp_right (List.mem_append_left _)) ?_⟩
      rintro ⟨hno, hin, hout⟩
      refine ⟨hno, hin, fun hmem ↦ ?_⟩
      rcases List.mem_append.mp hmem with hmem | hmem
      · exact hout hmem
      · rw [List.mem_singleton.mp hmem, hid] at hin
        exact h.not_sent_nextId hin
    · obtain rfl := List.mem_singleton.mp hnew
      exact ⟨job, hjob, Or.inl
        ⟨hasks, List.mem_append_right _ (List.mem_singleton.mpr rfl)⟩⟩

theorem createExecution (h : Ledger c db) {now : Instant} {run : PipelineRunEntity}
    {job : JobEntity} {attempt : ℕ} {e : JobExecutionEntity}
    (hrun : ∃ run' ∈ db.runs, run'.id = run.id) (hjob : c.findJob job.id = some job)
    (hcreate : PipelineRunService.createExecution c now run job attempt db = .ok (e, db')) :
    Ledger c db' := by
  obtain ⟨hrow, hid, heffect⟩ := createExecution_ok h.sound hrun hcreate
  have hexec : db'.executions = db.executions ++ [e] := by rw [heffect.executions, List.map_id']
  rw [← hrow.jobId] at hjob
  rw [PipelineRunService.createExecution, saveExecution_fresh h.sound rfl] at hcreate
  cases henv : resolveApprovalEnvironment c job with
  | none =>
    rw [henv] at hcreate
    obtain ⟨db₁, henqueue, hcreate⟩ := bind_eq_ok.mp hcreate
    obtain ⟨rfl, rfl⟩ := Prod.mk.inj (Except.ok.inj hcreate)
    have hadd := h.sound.addExecution (e := newExecution now db.nextId run job attempt) rfl hrun
    obtain ⟨happr, event, message, hevent, hcarries, hdisp⟩ :=
      enqueueExecution_dispatches hadd henqueue
    exact h.addSent heffect.sound hid hjob (by simp [Asks, henv]) hevent hcarries hexec happr hdisp
  | some environment =>
    have hadd := h.sound.addExecution (e := (newExecution now db.nextId run job attempt).setStatus
      .waitingApproval now) rfl hrun
    rw [henv] at hcreate
    dsimp only at hcreate
    rw [saveExecution_added (e := newExecution now db.nextId run job attempt) h.sound rfl (by rfl),
      createDeploymentApproval, saveApproval_fresh hadd (by rfl)] at hcreate
    obtain ⟨rfl, rfl⟩ := Prod.mk.inj (Except.ok.inj hcreate)
    exact h.addRequested heffect.sound hid hjob (by simp [Asks, henv]) rfl hexec rfl rfl

theorem createReady {now : Instant} {run : PipelineRunEntity} {jobs : List JobEntity}
    {existing created : List JobExecutionEntity} (h : Ledger c db)
    (hrun : ∃ run' ∈ db.runs, run'.id = run.id) (hjobs : ∀ job ∈ jobs, job ∈ c.jobs)
    (hready : PipelineRunService.createReady c now run jobs existing db = .ok (created, db')) :
    Ledger c db' := by
  induction jobs generalizing existing created db with
  | nil =>
    obtain ⟨-, rfl⟩ := Prod.mk.inj (Except.ok.inj hready)
    exact h
  | cons job jobs ih =>
    obtain ⟨⟨e, db₁⟩, hcreate, hready⟩ := bind_eq_ok.mp hready
    obtain ⟨⟨rest, db₂⟩, hrest, hready⟩ := bind_eq_ok.mp hready
    obtain ⟨-, rfl⟩ := Prod.mk.inj (Except.ok.inj hready)
    have hjob := Catalog.findJob_eq_some.mpr ⟨hjobs job List.mem_cons_self, rfl⟩
    have hruns := (createExecution_ok h.sound hrun hcreate).2.2.runs
    exact ih (h.createExecution hrun hjob hcreate) (hruns ▸ hrun)
      (fun job hmem ↦ hjobs job (List.mem_cons_of_mem _ hmem)) hrest

theorem dispatchReadyJobs {now : Instant} {run : PipelineRunEntity}
    {existing created : List JobExecutionEntity} (h : Ledger c db)
    (hrun : ∃ run' ∈ db.runs, run'.id = run.id)
    (hdispatch : PipelineRunService.dispatchReadyJobs c now run existing db =
      .ok (created, db')) : Ledger c db' := by
  obtain ⟨ready, hready, hdispatch⟩ := bind_eq_ok.mp hdispatch
  obtain ⟨-, rfl⟩ := Catalog.resolveReadyJobs_eq_ok.mp hready
  refine h.createReady hrun (fun job hjob ↦ ?_) hdispatch
  exact Catalog.mem_of_mem_jobsOf (Catalog.mem_readyJobs.mp hjob).1

theorem saveRun (h : Ledger c db) {run : PipelineRunEntity}
    (hrun : ∃ old ∈ db.runs, old.id = run.id) : Ledger c (db.saveRun run) := by
  obtain ⟨old, hold, hid⟩ := hrun
  let f : PipelineRunEntity → PipelineRunEntity := fun x ↦ if x.id = run.id then run else x
  have hf : ∀ x, (f x).id = x.id := by
    intro x
    by_cases hx : x.id = run.id
    · rw [show f x = run from if_pos hx, hx]
    · rw [show f x = x from if_neg hx]
  have hsame : f old = run := if_pos hid
  rw [← hsame, saveRun_update h.sound hold (hf old)]
  exact h.updateRun hf old.id

theorem createRunInternal {now : Instant} {pipelineId : UUID}
    {request : Option CreatePipelineRunRequest} {startedBy : Option UUID} (h : Ledger c db)
    (hcreate : PipelineRunService.createRunInternal c now pipelineId request startedBy db =
      .ok db') : Ledger c db' := by
  obtain ⟨pipeline, -, hcreate⟩ := bind_eq_ok.mp hcreate
  dsimp only at hcreate
  generalize hrow : newRun now db.nextId (db.nextId + 1) pipeline.id request startedBy = run
    at hcreate
  have hid : run.id = db.nextId := by rw [← hrow, newRun]
  have hmem : run ∈ (db.addRun run).runs := List.mem_append_right _ (List.mem_singleton.mpr rfl)
  rw [saveRun_fresh h.sound hid, bind_eq_ok] at hcreate
  obtain ⟨⟨created, db₁⟩, hdispatch, hcreate⟩ := hcreate
  have heffect := (dispatchReadyJobs_ok (h.sound.addRun hid) ⟨run, hmem, rfl⟩ hdispatch).2.2
  have hledger := (h.addRun hid).dispatchReadyJobs ⟨run, hmem, rfl⟩ hdispatch
  have hmem₁ : run ∈ db₁.runs := heffect.runs ▸ hmem
  split at hcreate
  · obtain rfl := Except.ok.inj hcreate
    exact hledger.saveRun ⟨run, hmem₁, rfl⟩
  · obtain rfl := Except.ok.inj hcreate
    exact hledger.saveRun ⟨run, hmem₁, rfl⟩

theorem recomputeRunStatus {now : Instant} {runId : UUID} (h : Ledger c db)
    (hrecompute : PipelineRunService.recomputeRunStatus now runId db = .ok db') :
    Ledger c db' := by
  obtain ⟨run, hrun, hrecompute⟩ := bind_eq_ok.mp hrecompute
  rw [orNotFound_eq_ok, h.sound.findRun] at hrun
  obtain rfl := Except.ok.inj hrecompute
  exact h.saveRun ⟨run, hrun.1, rfl⟩

end Ledger

/-! ## Rows written back

An execution that was read earlier is written back over its row, which may have changed since. -/

/-- The database has the row of the execution, possibly with other contents. -/
def Db.HasRow (db : Db) (e : JobExecutionEntity) : Prop :=
  ∃ row ∈ db.executions, row.id = e.id ∧ row.pipelineRunId = e.pipelineRunId ∧
    row.jobId = e.jobId ∧ row.attempt = e.attempt

theorem Effect.hasRow {db db' : Db} {u : JobExecutionEntity → JobExecutionEntity}
    {fresh sent : List JobExecutionEntity} (h : Effect db db' u fresh sent)
    {e : JobExecutionEntity} (hrow : db.HasRow e) : db'.HasRow e := by
  obtain ⟨row, hmem, hid, hrun, hjob, hattempt⟩ := hrow
  refine ⟨u row, ?_, (h.keeps.id row).trans hid, (h.keeps.pipelineRunId row).trans hrun,
    (h.keeps.jobId row).trans hjob, (h.keeps.attempt row).trans hattempt⟩
  rw [h.executions]
  exact List.mem_append_left _ (List.mem_map_of_mem hmem)

theorem saveExecution_row {db : Db} (hs : Sound db) {e : JobExecutionEntity}
    (h : db.HasRow e) : ∃ u, Effect db (db.saveExecution e) u [] [] := by
  obtain ⟨row, hmem, hid, hrun, hjob, hattempt⟩ := h
  have hkeeps : Keeps fun x ↦ if x = row then e else x := by
    constructor <;> intro x <;> by_cases hx : x = row <;>
      simp [hx, hid, hrun, hjob, hattempt]
  have hsave : db.saveExecution e = db.mapExecutions fun x ↦ if x = row then e else x := by
    rw [Db.saveExecution, Table.save_existing ⟨row, hmem, hid⟩, Db.mapExecutions]
    congr 1
    refine List.map_congr_left fun x hx ↦ ?_
    by_cases heq : x = row
    · rw [if_pos (heq ▸ hid), if_pos heq]
    · rw [if_neg fun hxe ↦ heq (hs.executions_keyed.eq hx hmem (hxe.trans hid.symm)), if_neg heq]
  rw [hsave]
  exact ⟨_, effect_mapExecutions hs hkeeps⟩

namespace Ledger

variable {c : Catalog} {db db' : Db}

theorem saveExecution (h : Ledger c db) {e : JobExecutionEntity} (hrow : db.HasRow e) :
    Ledger c (db.saveExecution e) := by
  obtain ⟨u, heffect⟩ := saveExecution_row h.sound hrow
  exact h.of_effect heffect rfl rfl

theorem retryLatest {now : Instant} {run : PipelineRunEntity}
    {latests retried : List JobExecutionEntity} (h : Ledger c db)
    (hrun : ∃ run' ∈ db.runs, run'.id = run.id) (hrows : ∀ e ∈ latests, db.HasRow e)
    (hretry : PipelineRunService.retryLatest c now run latests db = .ok (retried, db')) :
    Ledger c db' ∧ db'.runs = db.runs := by
  induction latests generalizing retried db with
  | nil =>
    obtain ⟨-, rfl⟩ := Prod.mk.inj (Except.ok.inj hretry)
    exact ⟨h, rfl⟩
  | cons latest latests ih =>
    obtain ⟨job, hjob, hretry⟩ := bind_eq_ok.mp hretry
    rw [orNotFound_eq_ok] at hjob
    split at hretry
    · exact ih h hrun (fun e he ↦ hrows e (List.mem_cons_of_mem _ he)) hretry
    · -- the latest attempt is superseded and the next one is created
      obtain ⟨⟨e, db₁⟩, hcreate, hretry⟩ := bind_eq_ok.mp hretry
      obtain ⟨⟨rest, db₂⟩, hrest, hretry⟩ := bind_eq_ok.mp hretry
      obtain ⟨-, rfl⟩ := Prod.mk.inj (Except.ok.inj hretry)
      obtain ⟨u, heffect⟩ := saveExecution_row h.sound
        (e := latest.setStatus .retrying now) (hrows latest List.mem_cons_self)
      have hrun₁ : ∃ run' ∈ (db.saveExecution (latest.setStatus .retrying now)).runs,
          run'.id = run.id := hrun
      have hcreated := (createExecution_ok heffect.sound hrun₁ hcreate).2.2
      have hjobid := (Catalog.findJob_eq_some.mp hjob).2
      have hledger :=
        (h.of_effect heffect rfl rfl).createExecution hrun₁ (hjobid ▸ hjob) hcreate
      obtain ⟨hlast, hruns⟩ := ih hledger (hcreated.runs ▸ hrun₁) (fun e he ↦
        hcreated.hasRow (heffect.hasRow (hrows e (List.mem_cons_of_mem _ he)))) hrest
      exact ⟨hlast, hruns.trans hcreated.runs⟩

theorem retryRun {ctx : CallContext} {runId : UUID} (h : Ledger c db)
    (hretry : PipelineRunService.retryRun c ctx runId db = .ok db') : Ledger c db' := by
  obtain ⟨run, hrun, hretry⟩ := bind_eq_ok.mp hretry
  rw [orNotFound_eq_ok, h.sound.findRun] at hrun
  obtain ⟨⟨retried, db₁⟩, hlatest, hretry⟩ := bind_eq_ok.mp hretry
  obtain ⟨hledger, hruns⟩ := h.retryLatest ⟨run, hrun.1, rfl⟩ (fun e he ↦
    ⟨e, (findByPipelineRunId_mem.mp (Latest.mem_of_mem_latestEntries he)).1, rfl, rfl, rfl, rfl⟩)
    hlatest
  dsimp only at hretry
  split at hretry
  · obtain rfl := Except.ok.inj hretry
    exact hledger
  · obtain rfl := Except.ok.inj hretry
    exact hledger.saveRun ⟨run, hruns ▸ hrun.1, rfl⟩

theorem retryExecution {ctx : CallContext} {executionId : UUID} (h : Ledger c db)
    (hretry : PipelineRunService.retryExecution c ctx executionId db = .ok db') :
    Ledger c db' := by
  obtain ⟨latest, hlatest, hretry⟩ := bind_eq_ok.mp hretry
  obtain ⟨run, hrun, hretry⟩ := bind_eq_ok.mp hretry
  obtain ⟨job, hjob, hretry⟩ := bind_eq_ok.mp hretry
  rw [orNotFound_eq_ok, h.sound.findExecution] at hlatest
  rw [orNotFound_eq_ok, h.sound.findRun] at hrun
  rw [orNotFound_eq_ok] at hjob
  split at hretry
  · cases hretry
  · obtain ⟨⟨retried, db₁⟩, hcreate, hretry⟩ := bind_eq_ok.mp hretry
    obtain rfl := Except.ok.inj hretry
    obtain ⟨u, heffect⟩ := saveExecution_row h.sound
      (e := latest.setStatus .retrying ctx.now) ⟨latest, hlatest.1, rfl, rfl, rfl, rfl⟩
    have hmem : run ∈ (db.saveExecution (latest.setStatus .retrying ctx.now)).runs := hrun.1
    have hcreated := (createExecution_ok heffect.sound ⟨run, hmem, rfl⟩ hcreate).2.2
    have hjobid := (Catalog.findJob_eq_some.mp hjob).2
    have hledger := (h.of_effect heffect rfl rfl).createExecution ⟨run, hmem, rfl⟩
      (hjobid ▸ hjob) hcreate
    exact hledger.saveRun ⟨run, hcreated.runs ▸ hmem, rfl⟩

/-! ## Canceling and timing out -/

theorem requestCancellation {ctx : CallContext} {run : PipelineRunEntity}
    {e : JobExecutionEntity} (h : Ledger c db) (hrow : db.HasRow e) :
    Ledger c (PipelineRunService.requestCancellation c ctx run db e) := by
  have hsaved := h.saveExecution (e := e.setStatus .canceling ctx.now) hrow
  have hcancel : ∀ cancel : CancellationRequestEntity,
      Sound (((db.saveExecution (e.setStatus .canceling ctx.now)).drawIds 2).saveCancellation
        cancel) :=
    fun _ ↦ hsaved.sound.of_tables rfl rfl rfl rfl (Nat.le_add_right _ 2)
  rw [PipelineRunService.requestCancellation, outboxEnqueue_eq (hcancel _)]
  refine hsaved.inPlace ((hcancel _).addOutboxEvent rfl fun _ h ↦ by cases h) keeps_id
    (List.map_id' _).symm rfl ?_
  rw [Db.dispatches_addOutboxEvent, if_neg (by simp [newOutboxEvent]), List.append_nil]
  rfl

theorem hasRow_requestCancellation (h : Ledger c db) (ctx : CallContext) (run : PipelineRunEntity)
    {e x : JobExecutionEntity} (hrow : db.HasRow e) (hx : db.HasRow x) :
    (PipelineRunService.requestCancellation c ctx run db e).HasRow x := by
  obtain ⟨u, heffect⟩ := saveExecution_row h.sound (e := e.setStatus .canceling ctx.now) hrow
  exact heffect.hasRow hx

theorem cancelRun {ctx : CallContext} {runId : UUID} (h : Ledger c db)
    (hcancel : PipelineRunService.cancelRun c ctx runId db = .ok db') : Ledger c db' := by
  obtain ⟨run, hrun, hcancel⟩ := bind_eq_ok.mp hcancel
  rw [orNotFound_eq_ok, h.sound.findRun] at hrun
  obtain rfl := Except.ok.inj hcancel
  have hfold : ∀ (active : List JobExecutionEntity) (run : PipelineRunEntity) (db : Db),
      Ledger c db → (∀ e ∈ active, db.HasRow e) →
      Ledger c (active.foldl (PipelineRunService.requestCancellation c ctx run) db) := by
    intro active run db h hrows
    induction active generalizing db with
    | nil => exact h
    | cons e active ih =>
      have hrow := hrows e List.mem_cons_self
      refine ih _ (h.requestCancellation hrow) fun x hx ↦ ?_
      exact h.hasRow_requestCancellation ctx run hrow (hrows x (List.mem_cons_of_mem _ hx))
  refine hfold _ _ _ (h.saveRun ⟨run, hrun.1, rfl⟩) fun e he ↦ ?_
  exact ⟨e, (List.mem_filter.mp (List.mem_filter.mp he).1).1, rfl, rfl, rfl, rfl⟩

theorem cancel {ctx : CallContext} {executionId : UUID} (h : Ledger c db)
    (hcancel : JobExecutionService.cancel c ctx executionId db = .ok db') : Ledger c db' := by
  obtain ⟨execution, hexecution, hcancel⟩ := bind_eq_ok.mp hcancel
  obtain ⟨run, -, hcancel⟩ := bind_eq_ok.mp hcancel
  rw [orNotFound_eq_ok, h.sound.findExecution] at hexecution
  split at hcancel
  · obtain rfl := Except.ok.inj hcancel
    exact h
  · obtain rfl := Except.ok.inj hcancel
    exact h.requestCancellation ⟨execution, hexecution.1, rfl, rfl, rfl, rfl⟩

theorem checkTimeouts (h : Ledger c db) (now : Instant) :
    Ledger c (TimeoutWatchdog.checkTimeouts now db) := by
  rw [checkTimeouts_eq h.sound]
  exact h.of_effect (effect_mapExecutions h.sound (keeps_expire now)) rfl rfl

/-! ## Events -/

theorem handle {now : Instant} {delivery : ExecutorEventService.Delivery}
    {message : ExecutorEventMessage} (h : Ledger c db)
    (hhandle : ExecutorEventService.handle c now delivery message db = .ok db') :
    Ledger c db' := by
  rcases ExecutorEventService.handle_cases h.sound hhandle with
    ⟨⟨heffect, happr, hout⟩, -⟩ | ⟨-, x, hx, -, hrest⟩
  · exact h.of_effect heffect happr (by rw [Db.dispatches, hout, Db.dispatches])
  have hstored : Ledger c (ExecutorEventService.store now delivery message x db) := by
    have heffect := ExecutorEventService.store_effect now delivery message h.sound hx
    obtain ⟨inbox, artifacts, n, hstore, -⟩ :=
      ExecutorEventService.store_frame now delivery message h.sound hx
    rw [hstore] at heffect ⊢
    exact h.of_effect heffect rfl rfl
  split at hrest
  · rw [ExecutorEventService.continueRun] at hrest
    split at hrest
    · obtain rfl := Except.ok.inj hrest
      exact hstored
    · rename_i run hfind
      rw [hstored.sound.findRun] at hfind
      obtain ⟨⟨created, db₁⟩, hdispatch, hrest⟩ := bind_eq_ok.mp hrest
      exact (hstored.dispatchReadyJobs ⟨run, hfind.1, rfl⟩ hdispatch).recomputeRunStatus hrest
  · rw [hrest]
    exact hstored

/-! ## Decisions -/

/-- A pending approval is decided. Its execution has not been dispatched. -/
theorem decide {status : ApprovalStatus} {ctx : CallContext} {approvalId : UUID}
    (h : Ledger c db)
    (hdecide : DeploymentApprovalService.decide status ctx approvalId db = .ok db') :
    Ledger c db' ∧ ∃ a ∈ db'.approvals, a.id = approvalId ∧ a.status = status ∧
      a.jobExecutionId ∉ db'.sent ∧ db'.executions = db.executions ∧ db'.runs = db.runs := by
  obtain ⟨a, ha, rfl, hpending, rfl⟩ := decide_ok h.sound hdecide
  have hwaiting : a.jobExecutionId ∉ db.sent := h.undecided a ha (by simp [hpending])
  have hrequested : (db.updateApproval a.id (decided status ctx)).requested = db.requested := by
    rw [Db.requested, Db.updateApproval, Table.update, List.map_map]
    refine List.map_congr_left fun x _ ↦ ?_
    rw [Function.comp_apply, apply_ite DeploymentApprovalEntity.jobExecutionId]
    exact ite_self _
  have hsound := h.sound.updateApproval (f := decided status ctx) (fun _ ↦ rfl) (fun _ ↦ rfl)
    (fun _ ↦ rfl) a.id
  refine ⟨⟨hsound, h.sent_once, hrequested ▸ h.requested_once, h.carried, ?_, ?_⟩,
    decided status ctx a, ?_, rfl, rfl, hwaiting, rfl, rfl⟩
  · intro x hx hstatus
    obtain ⟨y, hy, rfl⟩ := List.mem_map.mp hx
    by_cases hid : y.id = a.id
    · obtain rfl := h.sound.approvals_keyed.eq hy ha hid
      rw [if_pos rfl]
      exact hwaiting
    · rw [if_neg hid] at hstatus ⊢
      exact h.undecided y hy hstatus
  · intro e he
    rw [hrequested]
    exact h.created e he
  · exact List.mem_map.mpr ⟨a, ha, if_pos rfl⟩

theorem release (h : Ledger c db) (hs : Sound db') {a : DeploymentApprovalEntity}
    {e : JobExecutionEntity} {job : JobEntity} {event : OutboxEventEntity} {message : JobMessage}
    (ha : a ∈ db.approvals) (happroved : a.status = .approved) (hnew : a.jobExecutionId ∉ db.sent)
    (he : e ∈ db.executions) (hid : e.id = a.jobExecutionId)
    (hjob : c.findJob e.jobId = some job) (hevent : event.aggregateId = e.id)
    (hcarries : Carries job event message) (hexec : db'.executions = db.executions)
    (happr : db'.approvals = db.approvals) (hdisp : db'.dispatches = db.dispatches ++ [event]) :
    Ledger c db' := by
  have hsent : db'.sent = db.sent ++ [e.id] := by
    rw [Db.sent, hdisp, List.map_append, List.map_singleton, hevent, Db.sent]
  have hrequested : db'.requested = db.requested := by rw [Db.requested, happr, Db.requested]
  refine ⟨hs, ?_, hrequested ▸ h.requested_once, ?_, ?_, ?_⟩
  · rw [hsent, List.nodup_append]
    refine ⟨h.sent_once, List.nodup_singleton _, ?_⟩
    rintro x hx y hy rfl
    rw [List.mem_singleton.mp hy, hid] at hx
    exact hnew hx
  · intro event' hevent'
    rw [hexec]
    rw [hdisp] at hevent'
    rcases List.mem_append.mp hevent' with hold | hlast
    · exact h.carried event' hold
    · obtain rfl := List.mem_singleton.mp hlast
      exact ⟨e, he, hevent.symm, job, message, hjob, hcarries⟩
  · intro a' ha' hstatus hmem
    rw [happr] at ha'
    rw [hsent] at hmem
    rcases List.mem_append.mp hmem with hold | hlast
    · exact h.undecided a' ha' hstatus hold
    · -- the execution has no other approval
      have hsame : a'.jobExecutionId = a.jobExecutionId := (List.mem_singleton.mp hlast).trans hid
      obtain rfl := List.inj_on_of_nodup_map h.requested_once ha' ha hsame
      exact hstatus happroved
  · intro x hx
    rw [hexec] at hx
    rw [hsent, hrequested]
    obtain ⟨job', hjob', hcreated⟩ := h.created x hx
    refine ⟨job', hjob', hcreated.imp_right ?_⟩
    rintro ⟨hno, hin, hout⟩
    exact ⟨hno, List.mem_append_left _ hin, hout⟩

theorem approve {ctx : CallContext} {approvalId : UUID} (h : Ledger c db)
    (happrove : DeploymentApprovalService.approve c ctx approvalId db = .ok db') :
    Ledger c db' := by
  obtain ⟨db₁, hdecide, henqueue⟩ := bind_eq_ok.mp happrove
  obtain ⟨hdecided, a, ha, rfl, happroved, hnew, -, -⟩ := h.decide hdecide
  obtain ⟨found, hfound, henqueue⟩ := bind_eq_ok.mp henqueue
  rw [orNotFound_eq_ok, Db.findApproval,
    Table.findById_eq_some hdecided.sound.approvals_keyed] at hfound
  obtain rfl := hdecided.sound.approvals_keyed.eq ha hfound.1 hfound.2.symm
  split at henqueue
  · obtain rfl := Except.ok.inj henqueue
    exact hdecided
  · obtain ⟨e, he, henqueue⟩ := bind_eq_ok.mp henqueue
    rw [orNotFound_eq_ok, hdecided.sound.findExecution] at he
    split at henqueue
    · obtain rfl := Except.ok.inj henqueue
      exact hdecided
    · obtain ⟨run, hrun, henqueue⟩ := bind_eq_ok.mp henqueue
      obtain ⟨job, hjob, henqueue⟩ := bind_eq_ok.mp henqueue
      obtain ⟨db₂, hmessage, henqueue⟩ := bind_eq_ok.mp henqueue
      rw [orNotFound_eq_ok, hdecided.sound.findRun] at hrun
      rw [orNotFound_eq_ok] at hjob
      obtain rfl := Except.ok.inj henqueue
      rw [saveExecution_setStatus hdecided.sound he.1] at hmessage
      have hqueued := hdecided.of_effect (effect_mapExecutions hdecided.sound
        (keeps_mark [e.id] .queued ctx.now)) rfl rfl
      have hqueuedRow : e.setStatus .queued ctx.now ∈
          (db₁.mapExecutions (mark [e.id] .queued ctx.now)).executions :=
        List.mem_map.mpr ⟨e, he.1, mark_of_mem (List.mem_singleton.mpr rfl)⟩
      obtain ⟨hs, hexec, hruns, -⟩ := enqueueExecution_ok hqueued.sound ⟨run, hrun.1, rfl⟩ hmessage
      obtain ⟨happr, event, message, hevent, hcarries, hdisp⟩ :=
        enqueueExecution_dispatches hqueued.sound hmessage
      have hreleased := hqueued.release hs ha happroved hnew hqueuedRow he.2 hjob hevent hcarries
        hexec happr hdisp
      exact hreleased.saveRun ⟨run, hruns ▸ hrun.1, rfl⟩

theorem reject {ctx : CallContext} {approvalId : UUID} (h : Ledger c db)
    (hreject : DeploymentApprovalService.reject ctx approvalId db = .ok db') : Ledger c db' := by
  obtain ⟨db₁, hdecide, hreject⟩ := bind_eq_ok.mp hreject
  have hdecided := (h.decide hdecide).1
  obtain ⟨a, -, hreject⟩ := bind_eq_ok.mp hreject
  obtain ⟨e, he, hreject⟩ := bind_eq_ok.mp hreject
  rw [orNotFound_eq_ok, hdecided.sound.findExecution] at he
  split at hreject
  · obtain rfl := Except.ok.inj hreject
    exact hdecided
  · have hsaved := hdecided.saveExecution (e := e.finish .skipped ctx.now)
      ⟨e, he.1, rfl, rfl, rfl, rfl⟩
    exact hsaved.recomputeRunStatus hreject

/-! ## Histories -/

/-- **The ledger is kept.** By every operation. -/
theorem step {call : Call} (h : Ledger c db) (hstep : Master.step c call db = .ok db') :
    Ledger c db' := by
  obtain ⟨ctx, operation⟩ := call
  cases operation with
  | createRun pipelineId request => exact h.createRunInternal hstep
  | createRunBySystem pipelineId triggerType payload => exact h.createRunInternal hstep
  | executorEvent delivery message => exact h.handle hstep
  | cancelRun runId => exact h.cancelRun hstep
  | cancelExecution executionId => exact h.cancel hstep
  | retryRun runId => exact h.retryRun hstep
  | retryExecution executionId => exact h.retryExecution hstep
  | approve approvalId => exact h.approve hstep
  | reject approvalId => exact h.reject hstep
  | checkTimeouts =>
    obtain rfl := Except.ok.inj hstep
    exact h.checkTimeouts ctx.now

/-- What the ledger says about a dispatch: its job asked for nothing, or it is approved. -/
theorem approved_of_sent (h : Ledger c db) {x : UUID} (hx : x ∈ db.sent)
    (hrequested : x ∈ db.requested) :
    ∃ a ∈ db.approvals, a.jobExecutionId = x ∧ a.status = .approved := by
  obtain ⟨a, ha, rfl⟩ := List.mem_map.mp hrequested
  refine ⟨a, ha, rfl, ?_⟩
  by_contra hstatus
  exact h.undecided a ha hstatus hx

end Ledger

theorem ledger_history (c : Catalog) (calls : List Call) : Ledger c (history c calls) :=
  replay_invariant' (fun _ _ _ h hstep ↦ h.step hstep) calls (ledger_empty c)

/-! ## Executions persist -/

/-- No operation takes an execution away or changes its job. -/
theorem execution_of_apply {c : Catalog} {db : Db} (hdb : Reachable c db) (call : Call)
    {e : JobExecutionEntity} (he : e ∈ db.executions) :
    ∃ e' ∈ (apply (step c) db call).executions, e'.jobId = e.jobId := by
  rcases apply_cases (step c) db call with ⟨db', hstep, happly⟩ | happly
  · obtain ⟨run, hrun, hid⟩ := hdb.sound.run_of_execution e he
    obtain ⟨v, hv, -⟩ := Db.view_of_findRun (hdb.sound.findRun.mpr ⟨hrun, hid⟩)
    obtain ⟨v', hv', hrunStep⟩ := (step_refines hdb.sound hstep).old _ v hv
    obtain ⟨u, fresh, sent, hshape⟩ := hrunStep.shape (attempted_view hdb _ v hv)
    have hrow : u e ∈ v'.rows :=
      hshape.effect.mem.mpr (Or.inl ⟨e, (mem_rows hv).mpr ⟨he, rfl⟩, rfl⟩)
    exact ⟨u e, happly ▸ ((mem_rows hv').mp hrow).1, hshape.effect.keeps.jobId e⟩
  · exact ⟨e, happly.symm ▸ he, rfl⟩

theorem execution_of_history {c : Catalog} {calls : List Call} (later : List Call)
    {e : JobExecutionEntity} (he : e ∈ (history c calls).executions) :
    ∃ e' ∈ (history c (calls ++ later)).executions, e'.jobId = e.jobId := by
  induction later generalizing calls e with
  | nil =>
    rw [List.append_nil]
    exact ⟨e, he, rfl⟩
  | cons call later ih =>
    obtain ⟨e₁, he₁, hjob₁⟩ := execution_of_apply ⟨calls, rfl⟩ call he
    have hnext : apply (step c) (history c calls) call = history c (calls ++ [call]) :=
      (replay_concat Db.empty calls call).symm
    rw [hnext] at he₁
    obtain ⟨e₂, he₂, hjob₂⟩ := ih he₁
    rw [List.append_assoc, List.singleton_append] at he₂
    exact ⟨e₂, he₂, hjob₂.trans hjob₁⟩

end FuzzingCiCd.Master
