import FuzzingCiCd.Master.Refinement

/-!
# Events and new runs act on views

The last two cases of the refinement: executor events, whose effect on their execution is followed
by a dispatch, and the creation of a run. With them the theorem for all operations and its
consequence for histories, the invariant rule over the views of runs.

## Main results

* `handle_cases`: an event is a duplicate, finds no execution, or is stored.
* `step_refines`: every operation acts on the view of every run by a step.
* `view_invariant`, `view_continuation`, `view_always_iff_from`: the rules by which everything else
  about runs is proved.
-/

namespace FuzzingCiCd.Master

open Transition PipelineRunService

/-! ## Executor events

An event writes to one execution, to the artifacts and to the inbox, and goes on with the run
only if it ends the execution. In the views of the other runs nothing changes, and in the one of
its own run it is a step that ends the execution, one that moves it, or none. -/

namespace ArtifactService

theorem registerOne_frame (now : Instant) (runId executionId : Option UUID) (db : Db)
    (descriptor : ArtifactDescriptor) :
    ∃ artifacts n, registerOne now runId executionId db descriptor =
      { db with artifacts := artifacts, nextId := db.nextId + n } := by
  rw [registerOne]
  cases descriptor.artifactId with
  | none => exact ⟨_, 1, rfl⟩
  | some id => exact ⟨_, 0, rfl⟩

/-- Registering artifacts writes artifacts only. -/
theorem register_frame (now : Instant) (runId executionId : Option UUID)
    (artifacts : Option (List ArtifactDescriptor)) (db : Db) :
    ∃ rows n, register now runId executionId artifacts db =
      { db with artifacts := rows, nextId := db.nextId + n } := by
  rw [register]
  induction artifacts.getD [] generalizing db with
  | nil => exact ⟨db.artifacts, 0, rfl⟩
  | cons descriptor descriptors ih =>
    obtain ⟨rows, n, hone⟩ := registerOne_frame now runId executionId db descriptor
    obtain ⟨rows', n', hrest⟩ := ih { db with artifacts := rows, nextId := db.nextId + n }
    rw [List.foldl_cons, hone, hrest]
    exact ⟨rows', n + n', by rw [Nat.add_assoc]⟩

end ArtifactService

namespace ExecutorEventService

/-- What an event writes to its execution. -/
def applyTo (now : Instant) (message : ExecutorEventMessage) (x e : JobExecutionEntity) :
    JobExecutionEntity :=
  let target := mapStatus message.status
  if e.id = x.id then applyEvent now message (changesStatus x.status target) target e else e

theorem keeps_applyTo (now : Instant) (message : ExecutorEventMessage) (x : JobExecutionEntity) :
    Keeps (applyTo now message x) :=
  Keeps.ite (u := applyEvent now message (changesStatus x.status (mapStatus message.status))
    (mapStatus message.status)) ⟨fun _ ↦ rfl, fun _ ↦ rfl, fun _ ↦ rfl, fun _ ↦ rfl⟩ _

/-- Storing an event changes its execution, the artifacts and the inbox. -/
theorem store_frame (now : Instant) (delivery : Delivery) (message : ExecutorEventMessage)
    {x : JobExecutionEntity} {db : Db} (hs : Sound db) (hx : x ∈ db.executions) :
    ∃ inbox artifacts n, store now delivery message x db =
      { db.mapExecutions (applyTo now message x) with
        inbox := inbox, artifacts := artifacts, nextId := db.nextId + n } ∧
      ∀ event ∈ inbox, event ∈ db.inbox ∨ event.messageId = message.messageId ∧
        event.sourceDocumentId = delivery.sourceDocumentId := by
  have hsave : db.saveExecution (applyEvent now message
      (changesStatus x.status (mapStatus message.status)) (mapStatus message.status) x) =
      db.mapExecutions (applyTo now message x) :=
    saveExecution_update hs hx (f := applyEvent now message
      (changesStatus x.status (mapStatus message.status)) (mapStatus message.status)) rfl
  obtain ⟨rows, n, hregister⟩ := ArtifactService.register_frame now message.pipelineRunId
    message.jobExecutionId message.artifacts (db.mapExecutions (applyTo now message x))
  rw [store, hsave, hregister]
  refine ⟨_, rows, n + 1, rfl, fun event hevent ↦ ?_⟩
  rcases Table.mem_save hevent with hevent | rfl
  · exact Or.inl hevent
  · exact Or.inr ⟨rfl, rfl⟩

theorem store_effect (now : Instant) (delivery : Delivery) (message : ExecutorEventMessage)
    {x : JobExecutionEntity} {db : Db} (hs : Sound db) (hx : x ∈ db.executions) :
    Effect db (store now delivery message x db) (applyTo now message x) [] [] := by
  obtain ⟨inbox, artifacts, n, hstore, -⟩ := store_frame now delivery message hs hx
  have hkeeps := keeps_applyTo now message x
  rw [hstore]
  exact Effect.inPlace ((hs.mapExecutions hkeeps).of_tables rfl rfl rfl rfl
    (Nat.le_add_right _ n)) hkeeps rfl rfl rfl fun _ ↦ rfl

/-- **The cases of an event.** It is a duplicate, it finds no execution, or it is stored and, when
it ends the execution, the run is continued. -/
theorem handle_cases {c : Catalog} {now : Instant} {delivery : Delivery}
    {message : ExecutorEventMessage} {db db' : Db} (hs : Sound db)
    (h : handle c now delivery message db = .ok db') :
    (Effect db db' (fun e ↦ e) [] [] ∧ db'.approvals = db.approvals ∧ db'.outbox = db.outbox) ∧
        (Consumes db delivery message →
          ∀ e ∈ db.executions, message.jobExecutionId ≠ some e.id) ∨
      Consumes db delivery message ∧ ∃ x ∈ db.executions, message.jobExecutionId = some x.id ∧
        if endsExecution message x = true then
          continueRun c now x.pipelineRunId (store now delivery message x db) = .ok db'
        else db' = store now delivery message x db := by
  have hdead : ∀ db₁ : Db, Except.ok (InboxDeduplicationService.registerProcessed now
      delivery.consumerName delivery.topic delivery.messageKey delivery.eventSource
      delivery.sourceDocumentId message db) = (.ok db₁ : Except ServiceException Db) →
      Effect db db₁ (fun e ↦ e) [] [] ∧ db₁.approvals = db.approvals ∧ db₁.outbox = db.outbox := by
    intro db₁ heq
    obtain rfl := Except.ok.inj heq
    exact ⟨Effect.inPlace (hs.of_tables rfl rfl rfl rfl (Nat.le_add_right _ 1)) keeps_id
      (List.map_id' _).symm rfl rfl fun _ ↦ rfl, rfl, rfl⟩
  rw [handle] at h
  by_cases hdup : InboxDeduplicationService.isDuplicate delivery.consumerName delivery.eventSource
      delivery.sourceDocumentId message.messageId db = true
  · rw [if_pos hdup] at h
    obtain rfl := Except.ok.inj h
    exact Or.inl ⟨⟨Effect.refl hs, rfl, rfl⟩,
      fun hnew ↦ absurd (hdup.symm.trans hnew.1) (by decide)⟩
  rw [if_neg hdup] at h
  cases htype : ExecutorEventType.fromValue message.eventType with
  | none =>
    rw [htype] at h
    exact Or.inl ⟨hdead db' h, fun hnew ↦ absurd hnew.2 (by rw [htype]; decide)⟩
  | some type =>
    cases hid : message.jobExecutionId with
    | none =>
      rw [htype, hid] at h
      exact absurd h (by simp)
    | some executionId =>
      cases hfind : db.findExecution executionId with
      | none =>
        simp only [htype, hid, hfind] at h
        refine Or.inl ⟨hdead db' h, fun _ e he heq ↦ ?_⟩
        obtain rfl := Option.some.inj heq
        exact Table.findById_eq_none.mp hfind e he rfl
      | some x =>
        simp only [htype, hid, hfind] at h
        rw [hs.findExecution] at hfind
        refine Or.inr ⟨⟨by simpa using hdup, by rw [htype]; rfl⟩, x, hfind.1,
          by rw [hfind.2], ?_⟩
        by_cases hends : endsExecution message x = true
        · rwa [if_pos hends] at h ⊢
        · rw [if_neg hends] at h ⊢
          exact (Except.ok.inj h).symm

theorem applyTo_status {now : Instant} {message : ExecutorEventMessage}
    {x e : JobExecutionEntity} :
    (applyTo now message x e).status =
      if e.id = x.id ∧ changesStatus x.status (mapStatus message.status) = true then
        (mapStatus message.status).getD e.status
      else e.status := by
  rw [applyTo]
  by_cases he : e.id = x.id
  · rw [if_pos he]
    by_cases hchange : changesStatus x.status (mapStatus message.status) = true
    · rw [if_pos ⟨he, hchange⟩, applyEvent, if_pos hchange]
    · rw [if_neg fun hand ↦ hchange hand.2, applyEvent, if_neg hchange]
  · rw [if_neg he, if_neg fun hand ↦ he hand.1]

theorem changesStatus_some {s t : JobExecutionStatus} :
    changesStatus s (some t) = canTransition s t := rfl

theorem setsStatus_applyTo {now : Instant} {message : ExecutorEventMessage}
    {x : JobExecutionEntity} {t : JobExecutionStatus} (htarget : mapStatus message.status = some t)
    (hcan : canTransition x.status t = true) (rows : List JobExecutionEntity) :
    SetsStatus rows (applyTo now message x) x.id t := by
  intro e _
  rw [applyTo_status, htarget, changesStatus_some, hcan]
  simp

theorem applyTo_status_of_not {now : Instant} {message : ExecutorEventMessage}
    {x : JobExecutionEntity} (h : changesStatus x.status (mapStatus message.status) ≠ true)
    (e : JobExecutionEntity) : (applyTo now message x e).status = e.status := by
  rw [applyTo_status, if_neg fun hand ↦ h hand.2]

/-- Continuing the run of a stored event dispatches its ready jobs and recomputes its status. -/
theorem continueRun_ok {c : Catalog} {now : Instant} {r : UUID} {db db' : Db} (hs : Sound db)
    (hrun : ∃ run ∈ db.runs, run.id = r) (h : continueRun c now r db = .ok db') :
    ∃ run ∈ db.runs, run.id = r ∧ ∃ created db₁,
      List.Forall₂ (fun job e ↦ FreshRow c r job 1 e)
        (c.readyJobs run.pipelineId (db.findByPipelineRunId r)) created ∧
      Effect db db₁ (fun e ↦ e) created (queuedRows created) ∧
      db' = db₁.updateRun r fun run ↦ recomputed now run (db₁.findByPipelineRunId r) := by
  obtain ⟨run, hmem, rfl⟩ := hrun
  rw [continueRun, hs.findRun.mpr ⟨hmem, rfl⟩] at h
  dsimp only at h
  rw [bind_eq_ok] at h
  obtain ⟨⟨created, db₁⟩, hdispatch, h⟩ := h
  obtain ⟨-, hrows, heffect⟩ := dispatchReadyJobs_ok hs ⟨run, hmem, rfl⟩ hdispatch
  exact ⟨run, hmem, rfl, created, db₁, hrows, heffect, recomputeRunStatus_ok heffect.sound h⟩

theorem handle_refines {c : Catalog} {ctx : CallContext} {delivery : Delivery}
    {message : ExecutorEventMessage} {db db' : Db} (hs : Sound db)
    (h : handle c ctx.now delivery message db = .ok db') :
    Refines c ⟨ctx, .executorEvent delivery message⟩ db db' := by
  rcases handle_cases hs h with ⟨⟨hnothing, -⟩, hnone⟩ | ⟨hnew, x, hx, hid, hrest⟩
  · have hidle : ∀ r v, db.view r = some v →
        Idles c db v ⟨ctx, .executorEvent delivery message⟩ :=
      fun r v hv hnew e he heq ↦ absurd heq (hnone hnew e ((mem_rows hv).mp he).1)
    exact refines_of_effect' (q := 0) hs hnothing (fun _ _ _ ↦ rfl)
      (fun r v hv _ ↦ hidle r v hv)
      fun v v' hv hview hrun ↦ .idle (hidle 0 v hv) hview (fun _ _ ↦ rfl) hrun
  have hidle : ∀ r v, db.view r = some v → r ≠ x.pipelineRunId →
      Idles c db v ⟨ctx, .executorEvent delivery message⟩ := by
    intro r v hv hr _ e he heq
    rw [hid] at heq
    exact absurd (Option.some.inj heq).symm (row_id_ne hs hv hx hr e he)
  have hstore := store_effect ctx.now delivery message hs hx
  have hothers : ∀ e ∈ db.executions, e.pipelineRunId ≠ x.pipelineRunId →
      (applyTo ctx.now message x e).status = e.status := by
    intro e he hne
    rw [applyTo_status, if_neg fun hand ↦ id_ne_of_run hs he hx hne hand.1]
  -- the event ends the execution, moves it without ending it, or leaves its status as it is
  by_cases hends : endsExecution message x = true
  · rw [if_pos hends] at hrest
    rw [endsExecution, Bool.and_eq_true] at hends
    obtain ⟨hcan, hfinal⟩ := hends
    cases htarget : mapStatus message.status with
    | none =>
      rw [htarget] at hfinal
      exact absurd hfinal (by simp)
    | some t =>
      rw [htarget, changesStatus_some] at hcan
      rw [htarget, Option.map_some, Option.getD_some] at hfinal
      obtain ⟨run₀, hrun₀, hrunid₀⟩ := hs.run_of_execution x hx
      obtain ⟨run, hrun, hrunid, created, db₁, hcreated, hdispatch, rfl⟩ :=
        continueRun_ok hstore.sound ⟨run₀, hstore.runs ▸ hrun₀, hrunid₀⟩ hrest
      have heffect := hstore.trans hdispatch (by simp)
      rw [List.nil_append, List.nil_append] at heffect
      have hfresh : ∀ e ∈ created, e.pipelineRunId = x.pipelineRunId := by
        intro e he
        obtain ⟨job, -, hrow⟩ := exists_of_forall₂_right hcreated he
        exact hrow.pipelineRunId
      refine refines_of_effect (q := x.pipelineRunId) hs heffect hfresh
        (fun e he ↦ hfresh e (List.mem_filter.mp he).1) hothers hidle (fun _ ↦ rfl)
        fun v v' hv hview hrows hrun' ↦ ?_
      obtain ⟨hfind, hvrows, -, -⟩ := Db.view_eq_some hv
      obtain ⟨hvmem, hvid⟩ := hs.findRun.mp hfind
      have hrunv : run = v.run :=
        hs.runs_keyed.eq (hstore.runs ▸ hrun) hvmem (hrunid.trans hvid.symm)
      refine .finish hnew ((mem_rows hv).mpr ⟨hx, rfl⟩) hid htarget hcan hfinal hview
        (setsStatus_applyTo htarget hcan _) ?_ ?_
      · rw [hvid, hvrows, ← hrunv]
        rwa [findByPipelineRunId_of_effect hstore, List.filter_nil, List.append_nil] at hcreated
      · rw [hrows]
        exact hrun'
  · rw [if_neg hends] at hrest
    subst hrest
    refine refines_of_effect' (q := x.pipelineRunId) hs hstore hothers hidle
      fun v v' hv hview hrun' ↦ ?_
    by_cases hchange : changesStatus x.status (mapStatus message.status) = true
    · cases htarget : mapStatus message.status with
      | none =>
        rw [htarget] at hchange
        exact absurd hchange (by simp [changesStatus])
      | some t =>
        rw [endsExecution, hchange, htarget, Option.map_some, Option.getD_some, Bool.true_and,
          Bool.not_eq_true] at hends
        rw [htarget, changesStatus_some] at hchange
        exact .move hnew ((mem_rows hv).mpr ⟨hx, rfl⟩) hid htarget hchange hends hview
          (setsStatus_applyTo htarget hchange _) hrun'
    · refine .idle (fun _ e he heq ↦ ?_) hview (fun e _ ↦ applyTo_status_of_not hchange e) hrun'
      rw [hid] at heq
      rw [hs.executions_keyed.eq ((mem_rows hv).mp he).1 hx (Option.some.inj heq).symm]
      simpa using hchange

end ExecutorEventService

/-! ## New runs

A run is created in three writes: its row, an execution for each job that is ready, and the row
again with the status. The views of the other runs do not see any of them, and the new view has
what the last write leaves. -/

theorem view_addRun {db : Db} {run : PipelineRunEntity} {r : UUID} (h : r ≠ run.id) :
    (db.addRun run).view r = db.view r := by
  have hfind : (db.addRun run).findRun r = db.findRun r := by
    rw [Db.findRun, Db.addRun, Table.findById, List.find?_append]
    simp [Db.findRun, Table.findById, Ne.symm h]
  rw [Db.view, hfind, Db.view]
  rfl

theorem view_addRun_self {db : Db} (hs : Sound db) {run : PipelineRunEntity}
    (hid : run.id = db.nextId) :
    ∃ v, (db.addRun run).view run.id = some v ∧ v.run = run ∧ v.rows = [] ∧ v.dispatched = [] := by
  have hfind : (db.addRun run).findRun run.id = some run := by
    rw [(hs.addRun hid).findRun]
    exact ⟨List.mem_append_right _ (List.mem_singleton.mpr rfl), rfl⟩
  obtain ⟨v, hv, hrun⟩ := Db.view_of_findRun hfind
  obtain ⟨-, hrows, -, hdisp⟩ := Db.view_eq_some hv
  refine ⟨v, hv, hrun, ?_, ?_⟩
  · rw [hrows, Db.findByPipelineRunId, List.filter_eq_nil_iff]
    intro e he
    obtain ⟨run', hrun', hid'⟩ := hs.run_of_execution e he
    rw [decide_eq_true_iff]
    intro heq
    exact (hs.runs_lt run' hrun').ne (hid'.trans (heq.trans hid))
  · rw [hdisp, Db.dispatched, List.filterMap_eq_nil_iff]
    intro event hevent
    rw [Db.dispatchTarget]
    cases hpayload : event.payload with
    | cancel command => rfl
    | job message =>
      refine if_neg fun hand ↦ ?_
      exact (hs.dispatched_lt event hevent message hpayload).ne (hand.2.trans hid)

/-- The status that ends the creation of a run. -/
def started (now : Instant) (created : List JobExecutionEntity) (run : PipelineRunEntity) :
    PipelineRunEntity :=
  if created = [] then { run with status := .success, finishedAt := some now }
  else { run with status := statusOfCreated created }

theorem createRunInternal_ok {c : Catalog} {now : Instant} {pipelineId : UUID}
    {request : Option CreatePipelineRunRequest} {startedBy : Option UUID} {db db' : Db}
    (hs : Sound db) (h : createRunInternal c now pipelineId request startedBy db = .ok db') :
    ∃ run created db₁, run.id = db.nextId ∧ run.pipelineId = pipelineId ∧ run.finishedAt = none ∧
      ExecutionGraphValidator.validate (c.graphOf run.pipelineId) = .ok () ∧
      List.Forall₂ (fun job e ↦ FreshRow c run.id job 1 e) (c.readyJobs run.pipelineId [])
        created ∧
      Effect (db.addRun run) db₁ (fun e ↦ e) created (queuedRows created) ∧
      db' = db₁.updateRun run.id (started now created) := by
  rw [createRunInternal, bind_eq_ok] at h
  obtain ⟨pipeline, hpipeline, h⟩ := h
  rw [orNotFound_eq_ok, Catalog.findActivePipeline] at hpipeline
  have hpipelineId : pipeline.id = pipelineId := by
    have hfound := List.find?_some hpipeline
    rw [Bool.and_eq_true, decide_eq_true_iff] at hfound
    exact hfound.1
  dsimp only at h
  generalize hrun : newRun now db.nextId (db.nextId + 1) pipeline.id request startedBy = run at h
  have hid : run.id = db.nextId := by rw [← hrun, newRun]
  have hpipe : run.pipelineId = pipelineId := by rw [← hrun, newRun, hpipelineId]
  have hunfinished : run.finishedAt = none := by rw [← hrun, newRun]
  have hmem : run ∈ (db.addRun run).runs :=
    List.mem_append_right _ (List.mem_singleton.mpr rfl)
  rw [saveRun_fresh hs hid, bind_eq_ok] at h
  obtain ⟨⟨created, db₁⟩, hdispatch, h⟩ := h
  obtain ⟨hvalid, hrows, heffect⟩ := dispatchReadyJobs_ok (hs.addRun hid) ⟨run, hmem, rfl⟩ hdispatch
  refine ⟨run, created, db₁, hid, hpipe, hunfinished, hvalid, hrows, heffect, ?_⟩
  have hstart : ∀ run, (started now created run).id = run.id := by
    intro run
    rw [started, apply_ite PipelineRunEntity.id, ite_self]
  have hsave := saveRun_update heffect.sound (heffect.runs ▸ hmem) (hstart run)
  by_cases hempty : created = []
  · rw [if_pos (by simpa using hempty)] at h
    rw [started, if_pos hempty] at hsave
    exact (Except.ok.inj h).symm.trans hsave
  · rw [if_neg (by simpa using hempty)] at h
    rw [started, if_neg hempty] at hsave
    exact (Except.ok.inj h).symm.trans hsave

theorem createRunInternal_refines {c : Catalog} {call : Call} {now : Instant} {pipelineId : UUID}
    {request : Option CreatePipelineRunRequest} {startedBy : Option UUID} {db db' : Db}
    (hcall : ∀ v, Idles c db v call) (hcreates : Creates call.operation pipelineId) (hs : Sound db)
    (h : createRunInternal c now pipelineId request startedBy db = .ok db') :
    Refines c call db db' := by
  obtain ⟨run, created, db₁, hid, hpipeline, hunfinished, hvalid, hrows, heffect, rfl⟩ :=
    createRunInternal_ok hs h
  have hadd := hs.addRun hid
  have hstart : ∀ run, (started now created run).id = run.id := by
    intro run
    rw [started, apply_ite PipelineRunEntity.id, ite_self]
  have hfresh : ∀ e ∈ created, e.pipelineRunId = run.id := by
    intro e he
    obtain ⟨job, -, hrow⟩ := exists_of_forall₂_right hrows he
    exact hrow.pipelineRunId
  have hsent : ∀ e ∈ queuedRows created, e.pipelineRunId = run.id :=
    fun e he ↦ hfresh e (List.mem_filter.mp he).1
  refine ⟨heffect.sound.updateRun hstart run.id, fun r v hv ↦ ?_, fun r v' hnone hv' ↦ ?_⟩
  · have hr : r ≠ run.id := by
      obtain ⟨hmem, hrid⟩ := hs.findRun.mp (Db.view_eq_some hv).1
      rw [hid, ← hrid]
      exact (hs.runs_lt _ hmem).ne
    rw [← view_addRun hr] at hv
    obtain ⟨v', hv', hstep⟩ := idle_of_effect _ _ hadd heffect hv
      (fun e he ↦ by rw [hfresh e he]; exact hr.symm)
      (fun e he ↦ by rw [hsent e he]; exact hr.symm) (fun _ _ _ ↦ rfl) (hcall v)
    refine ⟨v', ?_, hstep⟩
    rw [view_updateRun hstart, hv', Option.map_some, if_neg hr]
  · have hr : r = run.id := by
      by_contra hr
      rw [← view_addRun hr, ← view_eq_none_of_runs heffect.runs,
        ← view_updateRun_eq_none hstart (q := run.id)] at hnone
      rw [hnone] at hv'
      exact absurd hv' (by simp)
    subst hr
    obtain ⟨v₀, hv₀, hrun₀, hrows₀, hdisp₀⟩ := view_addRun_self hs hid
    obtain ⟨v₁, hv₁, hrun₁, hview⟩ := view_of_effect_self hadd heffect hv₀ hfresh hsent
    rw [view_updateRun hstart, hv₁, Option.map_some, if_pos rfl] at hv'
    obtain rfl := Option.some.inj hv'
    have hrows₁ : v₁.rows = created := by rw [hview.rows, hrows₀, List.map_nil, List.nil_append]
    have hdisp₁ : v₁.dispatched = queuedIds created := by
      rw [hview.dispatched, hdisp₀, List.nil_append]
      rfl
    have hpipe : (started now created v₁.run).pipelineId = run.pipelineId := by
      rw [started, apply_ite PipelineRunEntity.pipelineId, ite_self, hrun₁, hrun₀]
    refine ⟨?_, by rw [hpipe, hpipeline]; exact hcreates⟩
    constructor
    · rw [hpipe]
      exact hvalid
    · rw [hpipe, hstart, hrun₁, hrun₀, hrows₁]
      exact hrows
    · exact hview.keyed
    · dsimp only
      rw [hrows₁, started, apply_ite PipelineRunEntity.status]
    · dsimp only
      rw [hrows₁]
      intro hempty
      rw [started, if_pos hempty]
      exact Option.some_ne_none _
    · dsimp only
      rw [hrows₁]
      intro hsome
      rw [started, if_neg hsome, hrun₁, hrun₀]
      exact hunfinished
    · dsimp only
      rw [hrows₁, hdisp₁]

theorem Creates.unique {operation : Operation} {p q : UUID} (h : Creates operation p)
    (h' : Creates operation q) : p = q := by
  cases operation with
  | createRun pipelineId request => exact h.symm.trans h'
  | createRunBySystem pipelineId triggerType payload => exact h.symm.trans h'
  | _ => exact h.elim

theorem exists_new_view {c : Catalog} {call : Call} {pipelineId : UUID} {db db' : Db}
    (hs : Sound db) (hcreates : Creates call.operation pipelineId) (h : step c call db = .ok db') :
    ∃ r v', db.view r = none ∧ db'.view r = some v' := by
  have hcreated : ∃ now p request startedBy,
      createRunInternal c now p request startedBy db = .ok db' := by
    obtain ⟨ctx, operation⟩ := call
    cases operation with
    | createRun pipelineId request => exact ⟨_, _, _, _, h⟩
    | createRunBySystem pipelineId triggerType payload => exact ⟨_, _, _, _, h⟩
    | _ => exact hcreates.elim
  obtain ⟨now, p, request, startedBy, hcreated⟩ := hcreated
  obtain ⟨run, created, db₁, hid, -, -, -, -, heffect, rfl⟩ := createRunInternal_ok hs hcreated
  have hstart : ∀ run, (started now created run).id = run.id := by
    intro run
    rw [started, apply_ite PipelineRunEntity.id, ite_self]
  obtain ⟨v₀, hv₀, -⟩ := view_addRun_self hs hid
  obtain ⟨v₁, hv₁, -⟩ := view_of_effect (hs.addRun hid) heffect hv₀
  refine ⟨run.id, _, ?_, by rw [view_updateRun hstart, hv₁, Option.map_some]⟩
  cases hold : db.view run.id with
  | none => rfl
  | some v =>
    obtain ⟨hmem, hrunid⟩ := hs.findRun.mp (Db.view_eq_some hold).1
    exact absurd (hrunid.trans hid) (hs.runs_lt _ hmem).ne

/-! ## All operations

The operations of the services are put together: every accepted one refines a step on each view,
and an invariant of views that holds of new runs and is kept by `RunStep` holds of every view of
every reachable database. Most invariants of the other modules are proved with this rule. -/

/-- **Refinement.** Every operation acts on the view of every run by a step. -/
theorem step_refines {c : Catalog} {call : Call} {db db' : Db} (hs : Sound db)
    (h : step c call db = .ok db') : Refines c call db db' := by
  obtain ⟨ctx, operation⟩ := call
  rw [step] at h
  cases operation with
  | createRun pipelineId request => exact createRunInternal_refines (fun _ ↦ trivial) rfl hs h
  | createRunBySystem pipelineId triggerType payload =>
    exact createRunInternal_refines (fun _ ↦ trivial) rfl hs h
  | executorEvent delivery message => exact ExecutorEventService.handle_refines hs h
  | cancelRun runId => exact cancelRun_refines hs h
  | cancelExecution executionId => exact cancelExecution_refines hs h
  | retryRun runId => exact retryRun_refines hs h
  | retryExecution executionId => exact retryExecution_refines hs h
  | approve approvalId => exact approve_refines hs h
  | reject approvalId => exact reject_refines hs h
  | checkTimeouts =>
    obtain rfl := Except.ok.inj h
    exact checkTimeouts_refines hs

theorem sound_history (c : Catalog) (calls : List Call) : Sound (history c calls) :=
  replay_invariant' (fun _ _ _ hs h ↦ (step_refines hs h).sound) calls sound_empty

theorem Reachable.step {c : Catalog} {db db' : Db} (h : Reachable c db) {call : Call}
    (hstep : Master.step c call db = .ok db') : Reachable c db' := by
  obtain ⟨calls, rfl⟩ := h
  refine ⟨calls ++ [call], ?_⟩
  rw [history, replay_concat, apply_of_ok hstep]

theorem Reachable.sound {c : Catalog} {db : Db} (h : Reachable c db) : Sound db := by
  obtain ⟨calls, rfl⟩ := h
  exact sound_history c calls

/-- A property that every view of a database has. -/
def EveryView (P : RunView → Prop) (db : Db) : Prop := ∀ r v, db.view r = some v → P v

theorem everyView_empty (P : RunView → Prop) : EveryView P Db.empty := by
  intro r v hv
  exact absurd hv (by simp [Db.view, Db.findRun, Db.empty, Table.findById])

/-- **The invariant rule for views.** What new runs have and every step preserves holds of every
run of a reachable database. -/
theorem view_invariant {c : Catalog} {I : RunView → Prop} (hstart : ∀ v, RunStart c v → I v)
    (hstep : ∀ db call v v', I v → RunStep c db call v v' → I v') {db : Db}
    (hdb : Reachable c db) : EveryView I db := by
  obtain ⟨calls, rfl⟩ := hdb
  have hinv : Sound (history c calls) ∧ EveryView I (history c calls) := by
    refine replay_invariant' (I := fun db ↦ Sound db ∧ EveryView I db) ?_ calls
      ⟨sound_empty, everyView_empty I⟩
    rintro db call db' ⟨hs, hI⟩ hdb'
    have href := step_refines hs hdb'
    refine ⟨href.sound, fun r v' hv' ↦ ?_⟩
    cases hold : db.view r with
    | none => exact hstart v' (href.new r v' hold hv').1
    | some v =>
      obtain ⟨v'', hv'', hvstep⟩ := href.old r v hold
      obtain rfl := Option.some.inj (hv''.symm.trans hv')
      exact hstep db call v v'' (hI r v hold) hvstep
  exact hinv.2

/-- A condition on an operation, for every run, if the operation is accepted. -/
def Permitted (c : Catalog) (ok : Db → RunView → Call → Prop) (db : Db) (call : Call) : Prop :=
  ∀ db', step c call db = .ok db' → ∀ r v, db.view r = some v → ok db v call

/-- A condition on an operation, for one run, if the operation is accepted. -/
def PermittedOn (c : Catalog) (r : UUID) (ok : Db → RunView → Call → Prop) (db : Db)
    (call : Call) : Prop :=
  ∀ db', step c call db = .ok db' → ∀ v, db.view r = some v → ok db v call

/-- **The continuation rule.** What every step that meets the condition preserves on a run holds of
the run after every continuation whose operations meet it. -/
theorem view_continuation {c : Catalog} {r : UUID} {I : RunView → Prop}
    {ok : Db → RunView → Call → Prop}
    (hstep : ∀ db call v v', I v → ok db v call → RunStep c db call v v' → I v') {db : Db}
    {v : RunView} (hdb : Reachable c db) (hv : db.view r = some v) (hI : I v) {later : List Call}
    (hlater : Along (step c) (PermittedOn c r ok) db later) :
    ∃ v', (replay (step c) db later).view r = some v' ∧ I v' := by
  have hinv : Sound (replay (step c) db later) ∧
      ∃ v', (replay (step c) db later).view r = some v' ∧ I v' := by
    refine replay_invariant (I := fun db ↦ Sound db ∧ ∃ v, db.view r = some v ∧ I v) ?_
      ⟨hdb.sound, v, hv, hI⟩ hlater
    rintro db call db' ⟨hs, v, hv, hI⟩ hok hdb'
    have href := step_refines hs hdb'
    obtain ⟨v', hv', hvstep⟩ := href.old r v hv
    exact ⟨href.sound, v', hv', hstep db call v v' hI (hok db' hdb' v hv) hvstep⟩
  exact hinv.2

/-- A condition on an operation, for the run it starts and for every run that exists, if the
operation is accepted. -/
def PermittedFrom (c : Catalog) (start : UUID → Prop) (ok : Db → RunView → Call → Prop) (db : Db)
    (call : Call) : Prop :=
  ∀ db', step c call db = .ok db' → (∀ pipelineId, Creates call.operation pipelineId →
    start pipelineId) ∧ ∀ r v, db.view r = some v → ok db v call

/-- **The exact rule for views.** Let `J` be an invariant of views, and let a step from a view
with `P` lead to a view with `P` exactly when the operation meets a condition there, and a new run
have `P` exactly when its pipeline meets one. Then all runs have `P` throughout a history exactly
when its operations meet the conditions. -/
theorem view_always_iff_from {c : Catalog} {J P : RunView → Prop} (start : UUID → Prop)
    {ok : Db → RunView → Call → Prop} (hJ : ∀ db, Reachable c db → EveryView J db)
    (hstart : ∀ v, RunStart c v → (start v.run.pipelineId ↔ P v))
    (hstep : ∀ db call v v', J v → P v → RunStep c db call v v' → (ok db v call ↔ P v'))
    (calls : List Call) :
    (∀ past, past <+: calls → EveryView P (history c past)) ↔
      Along (step c) (PermittedFrom c start ok) Db.empty calls := by
  refine always_iff (J := Reachable c) ?_ ?_ ?_ ⟨[], rfl⟩ (everyView_empty P)
  · rintro db call db' ⟨past, rfl⟩ hdb'
    exact ⟨past ++ [call], by rw [history, replay_concat,
      apply_of_ok hdb']⟩
  · intro db call db' hdb hP hdb'
    have href := step_refines hdb.sound hdb'
    constructor
    · intro hok r v' hv'
      cases hold : db.view r with
      | none =>
        obtain ⟨hnew, hcreates⟩ := href.new r v' hold hv'
        exact (hstart v' hnew).mp ((hok db' hdb').1 _ hcreates)
      | some v =>
        obtain ⟨v'', hv'', hvstep⟩ := href.old r v hold
        obtain rfl := Option.some.inj (hv''.symm.trans hv')
        exact (hstep db call v v'' (hJ db hdb r v hold) (hP r v hold) hvstep).mp
          ((hok db' hdb').2 r v hold)
    · intro hP' db'' hdb''
      obtain rfl := Except.ok.inj (hdb'.symm.trans hdb'')
      refine ⟨fun pipelineId hcreates ↦ ?_, fun r v hv ↦ ?_⟩
      · obtain ⟨r, v', hold, hv'⟩ := exists_new_view hdb.sound hcreates hdb'
        obtain ⟨hnew, hcreates'⟩ := href.new r v' hold hv'
        rw [Creates.unique hcreates hcreates']
        exact (hstart v' hnew).mpr (hP' r v' hv')
      · obtain ⟨v', hv', hvstep⟩ := href.old r v hv
        exact (hstep db call v v' (hJ db hdb r v hv) (hP r v hv) hvstep).mpr (hP' r v' hv')
  · intro db call e he db' hdb'
    rw [he] at hdb'
    cases hdb'

theorem view_always_iff {c : Catalog} {J P : RunView → Prop} {ok : Db → RunView → Call → Prop}
    (hJ : ∀ db, Reachable c db → EveryView J db) (hstart : ∀ v, RunStart c v → P v)
    (hstep : ∀ db call v v', J v → P v → RunStep c db call v v' → (ok db v call ↔ P v'))
    (calls : List Call) :
    (∀ past, past <+: calls → EveryView P (history c past)) ↔
      Along (step c) (Permitted c ok) Db.empty calls := by
  rw [view_always_iff_from (fun _ ↦ True) hJ
    (fun v hv ↦ iff_of_true trivial (hstart v hv)) hstep]
  exact ⟨Along.mono fun db call h db' hdb' ↦ (h db' hdb').2,
    Along.mono fun db call h db' hdb' ↦ ⟨fun _ _ ↦ trivial, h db' hdb'⟩⟩

end FuzzingCiCd.Master
