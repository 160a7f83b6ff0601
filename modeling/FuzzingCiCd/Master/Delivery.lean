import FuzzingCiCd.Master.Completion

/-!
# Events of one execution

What a stream of executor events makes of an execution that nobody else touches. An event moves the
status where the transition table allows it; an event that ends the execution is applied only if
the jobs that it makes ready can be dispatched, because the dispatch belongs to the same
transaction. `after` is this rule, and `tracks_replay` says that the service follows it for any
stream of messages the inbox has not seen.

## Main results

* `Tracks.apply`: the service follows the rule for one event.
* `tracks_replay`: and for a stream of them.
* `after_of_final`: events leave a final status alone.
-/

namespace FuzzingCiCd.Master

open Transition PipelineRunService

/-! ## Dispatching succeeds -/

/-- A job for which `createExecution` finds all it needs. -/
def dispatchable (c : Catalog) (job : JobEntity) : Bool :=
  (resolveApprovalEnvironment c job).isSome ||
    ((JobMessageFactory.toMap job.params).isOk &&
      (JobMessageFactory.toMap job.resourceLimits).isOk &&
      (JobMessageFactory.toMap job.sandboxPolicy).isOk && (resolveJobTopic c job.jobType).isOk)

theorem isOk_iff {ε α : Type} {x : Except ε α} : x.isOk = true ↔ ∃ a, x = .ok a := by
  cases x with
  | error e => exact iff_of_false Bool.false_ne_true (by simp)
  | ok a => exact iff_of_true rfl ⟨a, rfl⟩

section Dispatch

variable {c : Catalog} {now : Instant} {run : PipelineRunEntity}

theorem enqueueExecution_isOk {job : JobEntity} {execution : JobExecutionEntity} {db : Db} :
    (∃ db', enqueueExecution c now run job execution db = .ok db') ↔
      (JobMessageFactory.toMap job.params).isOk = true ∧
      (JobMessageFactory.toMap job.resourceLimits).isOk = true ∧
      (JobMessageFactory.toMap job.sandboxPolicy).isOk = true ∧
      (resolveJobTopic c job.jobType).isOk = true := by
  simp only [enqueueExecution, JobMessageFactory.build, bind_eq_ok, isOk_iff]
  constructor
  · rintro ⟨_, _, ⟨params, hparams, limits, hlimits, policy, hpolicy, -⟩, topic, htopic, -⟩
    exact ⟨⟨params, hparams⟩, ⟨limits, hlimits⟩, ⟨policy, hpolicy⟩, ⟨topic, htopic⟩⟩
  · rintro ⟨⟨params, hparams⟩, ⟨limits, hlimits⟩, ⟨policy, hpolicy⟩, ⟨topic, htopic⟩⟩
    exact ⟨_, _, ⟨params, hparams, limits, hlimits, policy, hpolicy, rfl⟩, topic, htopic, rfl⟩

theorem createExecution_isOk {job : JobEntity} {attempt : ℕ} {db : Db} :
    (∃ r, createExecution c now run job attempt db = .ok r) ↔ dispatchable c job = true := by
  rw [createExecution, dispatchable]
  cases resolveApprovalEnvironment c job with
  | some environment => exact iff_of_true ⟨_, rfl⟩ rfl
  | none =>
    rw [Option.isSome_none, Bool.false_or, Bool.and_eq_true, Bool.and_eq_true, Bool.and_eq_true,
      and_assoc, and_assoc]
    constructor
    · rintro ⟨r, h⟩
      obtain ⟨db', hdb', -⟩ := bind_eq_ok.mp h
      exact enqueueExecution_isOk.mp ⟨db', hdb'⟩
    · intro h
      obtain ⟨db', hdb'⟩ := enqueueExecution_isOk.mpr h
      exact ⟨_, bind_eq_ok.mpr ⟨db', hdb', rfl⟩⟩

/-- The loop over the ready jobs succeeds when each of them can be dispatched. -/
theorem createReady_isOk (now : Instant) (run : PipelineRunEntity) (jobs : List JobEntity)
    (existing : List JobExecutionEntity) (db : Db) :
    (∃ r, createReady c now run jobs existing db = .ok r) ↔
      ∀ job ∈ jobs, dispatchable c job = true := by
  induction jobs generalizing existing db with
  | nil => exact iff_of_true ⟨_, rfl⟩ (by simp)
  | cons job jobs ih =>
    rw [createReady, List.forall_mem_cons]
    constructor
    · rintro ⟨r, h⟩
      obtain ⟨⟨e, db₁⟩, hcreate, h⟩ := bind_eq_ok.mp h
      obtain ⟨⟨created, db₂⟩, hrest, -⟩ := bind_eq_ok.mp h
      exact ⟨createExecution_isOk.mp ⟨_, hcreate⟩, (ih _ _).mp ⟨_, hrest⟩⟩
    · rintro ⟨hjob, hjobs⟩
      obtain ⟨⟨e, db₁⟩, hcreate⟩ := createExecution_isOk.mpr hjob
      obtain ⟨⟨created, db₂⟩, hrest⟩ := (ih _ _).mpr hjobs
      exact ⟨_, bind_eq_ok.mpr ⟨_, hcreate, bind_eq_ok.mpr ⟨_, hrest, rfl⟩⟩⟩

/-- A run of a valid pipeline can be created when the jobs without dependencies can be
dispatched, whatever else is stored. -/
theorem createRunInternal_isOk {pipelineId : UUID} {pipeline : PipelineEntity}
    (hpipeline : c.findActivePipeline pipelineId = some pipeline)
    (hvalid : ExecutionGraphValidator.validate (c.graphOf pipeline.id) = .ok ())
    (request : Option CreatePipelineRunRequest) (startedBy : Option UUID) (db : Db) :
    (∃ db', createRunInternal c now pipelineId request startedBy db = .ok db') ↔
      ∀ job ∈ c.readyJobs pipeline.id [], dispatchable c job = true := by
  have hready := Catalog.resolveReadyJobs_eq_ok.mpr
    ⟨hvalid, (rfl : c.readyJobs pipeline.id [] = _)⟩
  rw [← createReady_isOk now (newRun now db.nextId (db.nextId + 1) pipeline.id request startedBy)
    _ [] ((db.drawIds 2).saveRun
      (newRun now db.nextId (db.nextId + 1) pipeline.id request startedBy)),
    createRunInternal, hpipeline, orNotFound, ok_bind]
  dsimp only
  rw [dispatchReadyJobs, newRun, hready, ok_bind]
  constructor
  · rintro ⟨db', h⟩
    obtain ⟨r, hcreate, -⟩ := bind_eq_ok.mp h
    exact ⟨r, hcreate⟩
  · rintro ⟨⟨created, db₁⟩, hcreate⟩
    rw [hcreate, ok_bind]
    split
    · exact ⟨_, rfl⟩
    · exact ⟨_, rfl⟩

/-- Continuing a run succeeds when every ready job can be dispatched. -/
theorem continueRun_isOk (now : Instant) {db : Db} (hs : Sound db) (hrun : run ∈ db.runs)
    (hvalid : ExecutionGraphValidator.validate (c.graphOf run.pipelineId) = .ok ()) :
    (∃ db', ExecutorEventService.continueRun c now run.id db = .ok db') ↔
      ∀ job ∈ c.readyJobs run.pipelineId (db.findByPipelineRunId run.id),
        dispatchable c job = true := by
  rw [← createReady_isOk now run _ (db.findByPipelineRunId run.id) db,
    ExecutorEventService.continueRun, hs.findRun.mpr ⟨hrun, rfl⟩]
  have hready := Catalog.resolveReadyJobs_eq_ok.mpr
    ⟨hvalid, (rfl : c.readyJobs run.pipelineId (db.findByPipelineRunId run.id) = _)⟩
  dsimp only
  constructor
  · rintro ⟨db', h⟩
    obtain ⟨r, hdispatch, -⟩ := bind_eq_ok.mp h
    rw [dispatchReadyJobs, hready, ok_bind] at hdispatch
    exact ⟨r, hdispatch⟩
  · rintro ⟨⟨created, db₁⟩, hcreate⟩
    have hdispatch : dispatchReadyJobs c now run (db.findByPipelineRunId run.id) db =
        .ok (created, db₁) := by
      rw [dispatchReadyJobs, hready, ok_bind, hcreate]
    obtain ⟨-, -, heffect⟩ := dispatchReadyJobs_ok hs ⟨run, hrun, rfl⟩ hdispatch
    have hfind : db₁.findRun run.id = some run :=
      heffect.sound.findRun.mpr ⟨heffect.runs ▸ hrun, rfl⟩
    have hrecompute : ∃ db', recomputeRunStatus now run.id db₁ = .ok db' :=
      ⟨_, by rw [recomputeRunStatus, hfind]; rfl⟩
    obtain ⟨db', hrecompute⟩ := hrecompute
    exact ⟨db', bind_eq_ok.mpr ⟨_, hdispatch, hrecompute⟩⟩

end Dispatch

/-! ## One event

The status of the execution is followed with the rule `after`, which knows the transition table
and whether the run could go on. `Touched` is the database as long as the execution is not final:
the row of the execution and the inbox have changed and nothing else has, so that the jobs that
would be ready can be told from the first database. Once the execution is final, its status is
all that is left to say. -/

/-- The jobs that are ready once the execution has the status can all be dispatched. -/
def lands (c : Catalog) (pipelineId : UUID) (rows : List JobExecutionEntity) (x : UUID)
    (t : JobExecutionStatus) : Bool :=
  (c.readyJobs pipelineId (withStatus rows x t)).all (dispatchable c)

/-- Whether the ready jobs can be dispatched depends on the status that was set. -/
theorem ready_iff_lands {c : Catalog} {db₀ db : Db} {u : JobExecutionEntity → JobExecutionEntity}
    {x : UUID} {t : JobExecutionStatus} (hu : Keeps u)
    (hexec : db.executions = db₀.executions.map u) (hset : SetsStatus db₀.executions u x t)
    {pipelineId r : UUID} :
    (∀ job ∈ c.readyJobs pipelineId (db.findByPipelineRunId r), dispatchable c job = true) ↔
      lands c pipelineId (db₀.findByPipelineRunId r) x t = true := by
  have hrows : db.findByPipelineRunId r = (db₀.findByPipelineRunId r).map u := by
    rw [Db.findByPipelineRunId, hexec, List.filter_map, Db.findByPipelineRunId]
    congr 1
    exact List.filter_congr fun e _ ↦ by simp [hu.pipelineRunId]
  have hset' : SetsStatus (db₀.findByPipelineRunId r) u x t :=
    fun e he ↦ hset e (List.mem_filter.mp he).1
  have hlatest := latestStatus_setsStatus hu hset'
  rw [lands, List.all_eq_true, hrows]
  exact forall_congr' fun job ↦ by rw [mem_readyJobs_congr hlatest]

/-- What an event that reports `t` makes of the status `s`. -/
def after (lands : JobExecutionStatus → Bool) (s t : JobExecutionStatus) : JobExecutionStatus :=
  if canTransition s t && (!t.isFinalStatus || lands t) then t else s

/-- Events leave a final status alone. -/
theorem after_of_final {lands : JobExecutionStatus → Bool} {s : JobExecutionStatus}
    (hs : s.isFinalStatus = true) (t : JobExecutionStatus) : after lands s t = s := by
  rw [after]
  split
  · rename_i h
    rw [Bool.and_eq_true] at h
    exact JobExecutionStatus.eq_of_canTransition_of_final hs h.1
  · rfl

/-- What a delivery says about an execution: the ids that the inbox goes by and the status. -/
structure StatusReport where
  messageId : UUID
  sourceDocumentId : Option String
  status : JobExecutionStatus

namespace StatusReport

/-- The inbox holds neither the message nor the document of the report. -/
def Unseen (report : StatusReport) (inbox : List InboxEventEntity) : Prop :=
  ∀ event ∈ inbox, event.messageId ≠ some report.messageId ∧
    (report.sourceDocumentId = none ∨ event.sourceDocumentId ≠ report.sourceDocumentId)

/-- The reports are about different messages and different documents. -/
def Apart (a b : StatusReport) : Prop :=
  a.messageId ≠ b.messageId ∧
    (b.sourceDocumentId = none ∨ a.sourceDocumentId ≠ b.sourceDocumentId)

/-- The operation handles a message that makes the report about the execution. -/
structure MadeBy (x : UUID) (delivery : ExecutorEventService.Delivery)
    (message : ExecutorEventMessage) (report : StatusReport) : Prop where
  messageId : message.messageId = some report.messageId
  sourceDocumentId : delivery.sourceDocumentId = report.sourceDocumentId
  jobExecutionId : message.jobExecutionId = some x
  type : (ExecutorEventType.fromValue message.eventType).isSome = true
  status : ExecutorEventService.mapStatus message.status = some report.status

end StatusReport

/-- The database differs from `db₀` in the row of one execution, which has the status `s`, and its
inbox in messages among `seen`. -/
structure Touched (db₀ : Db) (x : UUID) (s : JobExecutionStatus) (seen : List StatusReport)
    (db : Db) :
    Prop where
  sound : Sound db
  runs : db.runs = db₀.runs
  executions : ∃ u, Keeps u ∧ db.executions = db₀.executions.map u ∧
    SetsStatus db₀.executions u x s
  inbox : ∀ event ∈ db.inbox, event ∈ db₀.inbox ∨ ∃ report ∈ seen,
    event.messageId = some report.messageId ∧ event.sourceDocumentId = report.sourceDocumentId

/-- The database is such a one, or the execution is final with the status `s`. -/
def Tracks (db₀ : Db) (x : UUID) (s : JobExecutionStatus) (seen : List StatusReport)
    (db : Db) : Prop :=
  Touched db₀ x s seen db ∨
    s.isFinalStatus = true ∧ Sound db ∧ ∃ e ∈ db.executions, e.id = x ∧ e.status = s

namespace ExecutorEventService

theorem handle_of_consumes (c : Catalog) (now : Instant) {delivery : Delivery}
    {message : ExecutorEventMessage} {db : Db} {e : JobExecutionEntity} (hs : Sound db)
    (he : e ∈ db.executions) (hid : message.jobExecutionId = some e.id)
    (hnew : Consumes db delivery message) : handle c now delivery message db =
      if endsExecution message e then
        continueRun c now e.pipelineRunId (store now delivery message e db)
      else .ok (store now delivery message e db) := by
  obtain ⟨hdup, htype⟩ := hnew
  obtain ⟨type, htype⟩ := Option.isSome_iff_exists.mp htype
  have hfind : db.findExecution e.id = some e := hs.findExecution.mpr ⟨he, rfl⟩
  rw [handle, hdup, if_neg Bool.false_ne_true, htype, hid]
  dsimp only
  rw [hfind]

/-- No execution is lost, and a final status stays whatever is handled. -/
theorem handle_keeps {c : Catalog} {now : Instant} {delivery : Delivery}
    {message : ExecutorEventMessage} {db db' : Db} (hs : Sound db)
    (h : handle c now delivery message db = .ok db') {e : JobExecutionEntity}
    (he : e ∈ db.executions) :
    Sound db' ∧ ∃ e' ∈ db'.executions, e'.id = e.id ∧
      (e.status.isFinalStatus = true → e'.status = e.status) := by
  rcases handle_cases hs h with ⟨⟨heffect, -⟩, -⟩ | ⟨-, x, hx, -, hrest⟩
  · refine ⟨heffect.sound, e, ?_, rfl, fun _ ↦ rfl⟩
    rw [heffect.executions, List.map_id', List.append_nil]
    exact he
  have hstore := store_effect now delivery message hs hx
  have hstatus : e.status.isFinalStatus = true →
      (applyTo now message x e).status = e.status := by
    intro hfinal
    rw [applyTo_status]
    split
    · rename_i hboth
      obtain ⟨hid, hchange⟩ := hboth
      obtain rfl := hs.executions_keyed.eq he hx hid
      cases htarget : mapStatus message.status with
      | none => rfl
      | some t =>
        rw [htarget, changesStatus_some] at hchange
        exact JobExecutionStatus.eq_of_canTransition_of_final hfinal hchange
    · rfl
  have hmem : applyTo now message x e ∈ (store now delivery message x db).executions := by
    rw [hstore.executions, List.append_nil]
    exact List.mem_map_of_mem he
  by_cases hends : endsExecution message x = true
  · rw [if_pos hends] at hrest
    obtain ⟨run, hrun, hrunid⟩ := hs.run_of_execution x hx
    obtain ⟨-, -, -, created, db₁, -, hdispatch, rfl⟩ :=
      continueRun_ok hstore.sound ⟨run, hstore.runs ▸ hrun, hrunid⟩ hrest
    refine ⟨hdispatch.sound.updateRun (f := fun run ↦ recomputed now run _) (fun _ ↦ rfl) _,
      applyTo now message x e, ?_, hstore.keeps.id e, hstatus⟩
    have hexec : (applyTo now message x e) ∈ db₁.executions := by
      rw [hdispatch.executions, List.map_id']
      exact List.mem_append_left _ hmem
    exact hexec
  · rw [if_neg hends] at hrest
    rw [hrest]
    exact ⟨hstore.sound, _, hmem, hstore.keeps.id e, hstatus⟩

end ExecutorEventService

section Course

variable {c : Catalog} {db₀ db : Db} {x : UUID} {s t : JobExecutionStatus}
  {seen : List StatusReport} {message : ExecutorEventMessage}
  {delivery : ExecutorEventService.Delivery} {report : StatusReport}

theorem touched_refl (hs : Sound db) {e : JobExecutionEntity} (he : e ∈ db.executions) :
    Touched db e.id e.status [] db where
  sound := hs
  runs := rfl
  executions := by
    refine ⟨fun e ↦ e, keeps_id, (List.map_id' _).symm, fun e' he' ↦ ?_⟩
    by_cases hid : e'.id = e.id
    · rw [if_pos hid, hs.executions_keyed.eq he' he hid]
    · rw [if_neg hid]
  inbox := fun event h ↦ Or.inl h

theorem Touched.mono {seen' : List StatusReport} (h : Touched db₀ x s seen db)
    (hsub : seen ⊆ seen') :
    Touched db₀ x s seen' db where
  sound := h.sound
  runs := h.runs
  executions := h.executions
  inbox event hevent := (h.inbox event hevent).imp_right fun ⟨id, hid, heq⟩ ↦ ⟨id, hsub hid, heq⟩

theorem Touched.row (h : Touched db₀ x s seen db) {e₀ : JobExecutionEntity}
    (he₀ : e₀ ∈ db₀.executions) (hx : e₀.id = x) : ∃ e ∈ db.executions,
      e.id = x ∧ e.pipelineRunId = e₀.pipelineRunId ∧ e.status = s := by
  obtain ⟨u, hu, hexec, hset⟩ := h.executions
  refine ⟨u e₀, ?_, (hu.id e₀).trans hx, hu.pipelineRunId e₀, ?_⟩
  · rw [hexec]
    exact List.mem_map_of_mem he₀
  · rw [hset e₀ he₀, if_pos hx]

/-- Messages that neither the first database nor the stream so far has seen are consumed. -/
theorem Touched.consumes (h : Touched db₀ x s seen db) (hmade : report.MadeBy x delivery message)
    (hseen : ∀ earlier ∈ seen, earlier.Apart report) (hfresh : report.Unseen db₀.inbox) :
    Consumes db delivery message := by
  refine ⟨?_, hmade.type⟩
  have hnew : report.Unseen db.inbox := by
    intro event hevent
    rcases h.inbox event hevent with hold | ⟨earlier, hearlier, hid, hdocument⟩
    · exact hfresh event hold
    · obtain ⟨hne, hapart⟩ := hseen earlier hearlier
      rw [hid, hdocument]
      exact ⟨fun hsame ↦ hne (Option.some.inj hsame), hapart⟩
  rw [InboxDeduplicationService.isDuplicate, hmade.sourceDocumentId, hmade.messageId,
    Bool.or_eq_false_iff, Bool.and_eq_false_iff, Bool.and_eq_false_iff, List.any_eq_false,
    List.any_eq_false]
  refine ⟨Or.inr fun event hevent ↦ by simp [(hnew event hevent).1], ?_⟩
  cases hdocument : report.sourceDocumentId with
  | none => exact Or.inl rfl
  | some document =>
    refine Or.inr fun event hevent ↦ ?_
    have hne : event.sourceDocumentId ≠ some document := by
      obtain ⟨-, hnone | hne⟩ := hnew event hevent
      · rw [hdocument] at hnone
        cases hnone
      · exact hdocument ▸ hne
    simp [hne]

theorem Touched.store (h : Touched db₀ x s seen db) (hmade : report.MadeBy x delivery message)
    {e : JobExecutionEntity} (he : e ∈ db.executions) (hid : e.id = x) (hs : e.status = s)
    (now : Instant) :
    Touched db₀ x (if canTransition s report.status = true then report.status else s)
      (report :: seen) (ExecutorEventService.store now delivery message e db) := by
  obtain ⟨inbox, artifacts, n, hstore, hinbox⟩ :=
    ExecutorEventService.store_frame now delivery message h.sound he
  have heffect := ExecutorEventService.store_effect now delivery message h.sound he
  obtain ⟨u, hu, hexec, hset⟩ := h.executions
  refine ⟨heffect.sound, heffect.runs.trans h.runs,
    ⟨fun e' ↦ ExecutorEventService.applyTo now message e (u e'), heffect.keeps.comp hu, ?_, ?_⟩, ?_⟩
  · rw [heffect.executions, List.append_nil, hexec, List.map_map]
    rfl
  · intro e' he'
    rw [ExecutorEventService.applyTo_status, hu.id, hid, hs, hmade.status,
      ExecutorEventService.changesStatus_some, hset e' he']
    by_cases hx : e'.id = x
    · by_cases hcan : canTransition s report.status = true
      · simp [hx, hcan]
      · simp [hx, hcan]
    · simp [hx]
  · intro event hevent
    rw [hstore] at hevent
    rcases hinbox event hevent with hold | ⟨hmessage, hdocument⟩
    · exact (h.inbox event hold).imp_right fun ⟨earlier, hearlier, hsame⟩ ↦
        ⟨earlier, List.mem_cons_of_mem _ hearlier, hsame⟩
    · exact Or.inr ⟨report, List.mem_cons_self, hmessage.trans hmade.messageId,
        hdocument.trans hmade.sourceDocumentId⟩

theorem Touched.ready_iff (h : Touched db₀ x t seen db) {pipelineId r : UUID} :
    (∀ job ∈ c.readyJobs pipelineId (db.findByPipelineRunId r), dispatchable c job = true) ↔
      lands c pipelineId (db₀.findByPipelineRunId r) x t = true := by
  obtain ⟨u, hu, hexec, hset⟩ := h.executions
  exact ready_iff_lands hu hexec hset

/-- **One event.** The service follows the rule `after`. -/
theorem Tracks.apply {e₀ : JobExecutionEntity} {run : PipelineRunEntity} (hdb₀ : Reachable c db₀)
    (he₀ : e₀ ∈ db₀.executions) (hx : e₀.id = x) (hrun : run ∈ db₀.runs)
    (hrunid : run.id = e₀.pipelineRunId) (h : Tracks db₀ x s seen db)
    (hmade : report.MadeBy x delivery message) (hseen : ∀ earlier ∈ seen, earlier.Apart report)
    (hfresh : report.Unseen db₀.inbox) (ctx : CallContext) :
    Tracks db₀ x
      (after (lands c run.pipelineId (db₀.findByPipelineRunId run.id) x) s report.status)
      (report :: seen) (Transition.apply (step c) db ⟨ctx, .executorEvent delivery message⟩) := by
  have hstep : step c ⟨ctx, .executorEvent delivery message⟩ db =
      ExecutorEventService.handle c ctx.now delivery message db := rfl
  obtain h | ⟨hfinal, hs, e, he, rfl, rfl⟩ := h
  · obtain ⟨e, he, hid, hrunOf, hst⟩ := h.row he₀ hx
    have hstore := h.store hmade he hid hst ctx.now
    have hhandle := ExecutorEventService.handle_of_consumes c ctx.now h.sound he
      (hid ▸ hmade.jobExecutionId) (h.consumes hmade hseen hfresh)
    have hends : ExecutorEventService.endsExecution message e =
        (canTransition s report.status && report.status.isFinalStatus) := by
      rw [ExecutorEventService.endsExecution, hmade.status, hst]
      rfl
    rw [hends] at hhandle
    by_cases hcan : canTransition s report.status = true
    · rw [if_pos hcan] at hstore
      cases hfinal : report.status.isFinalStatus with
      | false =>
        rw [hcan, hfinal, Bool.and_false, if_neg Bool.false_ne_true] at hhandle
        rw [apply_of_ok (hstep.trans hhandle), after, hcan, hfinal]
        exact Or.inl hstore
      | true =>
        rw [hcan, hfinal, Bool.and_self, if_pos rfl, hrunOf, ← hrunid] at hhandle
        obtain ⟨v, hv, hvrun⟩ := Db.view_of_findRun (hdb₀.sound.findRun.mpr ⟨hrun, rfl⟩)
        have hvalid := (attempted_view hdb₀ run.id v hv).valid
        rw [hvrun] at hvalid
        have hcontinue := continueRun_isOk ctx.now hstore.sound (hstore.runs ▸ hrun) hvalid
        rw [hstore.ready_iff] at hcontinue
        by_cases hland :
            lands c run.pipelineId (db₀.findByPipelineRunId run.id) x report.status = true
        · obtain ⟨db', hdb'⟩ := hcontinue.mpr hland
          rw [apply_of_ok (hstep.trans (hhandle.trans hdb')), after, hcan, hland, Bool.or_true,
            Bool.and_self, if_pos rfl]
          obtain ⟨e', he', hid', -, hst'⟩ := hstore.row he₀ hx
          obtain ⟨-, -, -, created, db₁, -, hdispatch, rfl⟩ :=
            ExecutorEventService.continueRun_ok hstore.sound ⟨run, hstore.runs ▸ hrun, rfl⟩ hdb'
          refine Or.inr ⟨hfinal, hdispatch.sound.updateRun
            (f := fun run ↦ recomputed ctx.now run _) (fun _ ↦ rfl) _, e', ?_, hid', hst'⟩
          have hexec : e' ∈ db₁.executions := by
            rw [hdispatch.executions, List.map_id']
            exact List.mem_append_left _ he'
          exact hexec
        · -- the dispatch fails and takes the event with it
          have herror : ∃ error, ExecutorEventService.continueRun c ctx.now run.id
              (ExecutorEventService.store ctx.now delivery message e db) = .error error := by
            rcases hresult : ExecutorEventService.continueRun c ctx.now run.id
                (ExecutorEventService.store ctx.now delivery message e db) with error | db'
            · exact ⟨error, rfl⟩
            · exact absurd (hcontinue.mp ⟨db', hresult⟩) hland
          obtain ⟨error, herror⟩ := herror
          rw [Bool.not_eq_true] at hland
          rw [apply_of_error (hstep.trans (hhandle.trans herror)), after, hcan, hfinal, hland,
            Bool.not_true, Bool.or_self, Bool.and_false, if_neg Bool.false_ne_true]
          exact Or.inl (h.mono (List.subset_cons_self report seen))
    · rw [if_neg hcan] at hstore
      rw [Bool.not_eq_true] at hcan
      rw [hcan, Bool.false_and, if_neg Bool.false_ne_true] at hhandle
      rw [apply_of_ok (hstep.trans hhandle), after, hcan, Bool.false_and, if_neg Bool.false_ne_true]
      exact Or.inl hstore
  · rw [after_of_final hfinal]
    rcases apply_cases (step c) db ⟨ctx, .executorEvent delivery message⟩ with
      ⟨db', hdb', happly⟩ | happly
    · rw [happly]
      obtain ⟨hs', e', he', hid, hstatus⟩ := ExecutorEventService.handle_keeps hs (hstep ▸ hdb') he
      exact Or.inr ⟨hfinal, hs', e', he', hid, hstatus hfinal⟩
    · rw [happly]
      exact Or.inr ⟨hfinal, hs, e, he, rfl, rfl⟩

/-- The operation delivers the report. -/
def Delivers (x : UUID) (call : Call) (report : StatusReport) : Prop :=
  ∃ ctx delivery message, call = ⟨ctx, .executorEvent delivery message⟩ ∧
    report.MadeBy x delivery message

/-- **A stream of events.** The status is what the rule `after` makes of the reported ones. -/
theorem tracks_replay {e₀ : JobExecutionEntity} {run : PipelineRunEntity}
    (hdb₀ : Reachable c db₀) (he₀ : e₀ ∈ db₀.executions) (hx : e₀.id = x) (hrun : run ∈ db₀.runs)
    (hrunid : run.id = e₀.pipelineRunId) {calls : List Call} {reports : List StatusReport}
    (hcalls : List.Forall₂ (Delivers x) calls reports)
      (hapart : reports.Pairwise StatusReport.Apart)
    (hfresh : ∀ report ∈ reports, report.Unseen db₀.inbox)
    (hseen : ∀ report ∈ reports, ∀ earlier ∈ seen, earlier.Apart report)
    (h : Tracks db₀ x s seen db) :
    ∃ seen', Tracks db₀ x ((reports.map StatusReport.status).foldl
      (after (lands c run.pipelineId (db₀.findByPipelineRunId run.id) x)) s) seen'
      (replay (step c) db calls) := by
  induction hcalls generalizing db s seen with
  | nil => exact ⟨seen, h⟩
  | @cons call report calls reports hcall hcalls ih =>
    obtain ⟨ctx, delivery, message, rfl, hmade⟩ := hcall
    rw [List.pairwise_cons] at hapart
    have hnext := h.apply hdb₀ he₀ hx hrun hrunid hmade (hseen report List.mem_cons_self)
      (hfresh report List.mem_cons_self) ctx
    rw [replay_cons, List.map_cons, List.foldl_cons]
    refine ih hapart.2 (fun r hr ↦ hfresh r (List.mem_cons_of_mem _ hr)) ?_ hnext
    -- what the rest must differ from is this report and what was seen before
    intro r hr earlier hearlier
    rcases List.mem_cons.mp hearlier with rfl | hold
    · exact hapart.1 r hr
    · exact hseen r (List.mem_cons_of_mem _ hr) earlier hold

theorem Tracks.stored (h : Tracks db₀ x s seen db) {e₀ : JobExecutionEntity}
    (he₀ : e₀ ∈ db₀.executions) (hx : e₀.id = x) :
    ∃ e, db.findExecution x = some e ∧ e.status = s := by
  obtain h | ⟨-, hs, e, he, hid, hst⟩ := h
  · obtain ⟨e, he, hid, -, hst⟩ := h.row he₀ hx
    exact ⟨e, h.sound.findExecution.mpr ⟨he, hid⟩, hst⟩
  · exact ⟨e, hs.findExecution.mpr ⟨he, hid⟩, hst⟩

/-- The status of an execution after a stream of events that nothing interleaves. -/
theorem status_of_replay {e₀ : JobExecutionEntity} {run : PipelineRunEntity}
    (hdb₀ : Reachable c db₀) (he₀ : e₀ ∈ db₀.executions) (hrun : run ∈ db₀.runs)
    (hrunid : run.id = e₀.pipelineRunId) {calls : List Call} {reports : List StatusReport}
    (hcalls : List.Forall₂ (Delivers e₀.id) calls reports)
      (hapart : reports.Pairwise StatusReport.Apart)
    (hfresh : ∀ report ∈ reports, report.Unseen db₀.inbox) :
    ∃ e, (replay (step c) db₀ calls).findExecution e₀.id = some e ∧
      e.status = (reports.map StatusReport.status).foldl
        (after (lands c run.pipelineId (db₀.findByPipelineRunId run.id) e₀.id)) e₀.status := by
  obtain ⟨seen, h⟩ := tracks_replay hdb₀ he₀ rfl hrun hrunid hcalls hapart hfresh
    (fun _ _ _ hearlier ↦ absurd hearlier List.not_mem_nil)
    (Or.inl (touched_refl hdb₀.sound he₀))
  exact h.stored he₀ rfl

end Course

end FuzzingCiCd.Master
