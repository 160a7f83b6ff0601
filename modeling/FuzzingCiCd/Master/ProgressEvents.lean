import FuzzingCiCd.Master.ConcurrentUpdates
import FuzzingCiCd.Master.OpenSearchPoller
import FuzzingCiCd.Master.Transactions

/-!
# Events that report progress

Five of the nine types of events only report on a job: it was accepted, it makes progress, it has
an artifact, a line of its log or a sign of life. Nothing in the master holds them to that. The
status of an execution is taken from the status field of an event, and the type is looked at only
to refuse those that are unknown and, by the poller, to skip the log.

A report therefore ends its job and starts the successors whenever its status field says so and its
transaction commits.

## The result

`handle_endsNothing_iff` says exactly when an event ends nothing, whatever its type is, and
`transaction_endsNothing_iff` adds the constraints of the schema: an event that they refuse is
rolled back and ends nothing. `pollHit_endsNothing_iff` is the same for a document of the poller,
where the refusal is one of the exceptions that the handling may throw.
`progress_endsNothing_iff` is the statement about reports on both ways in.
-/

namespace FuzzingCiCd.Master

open Transition PipelineRunService

/-- The types that are no status events. -/
def ExecutorEventType.isProgress : ExecutorEventType → Bool
  | .jobAccepted | .jobProgress | .jobArtifact | .jobLog | .jobHeartbeat => true
  | .jobRunning | .jobFinished | .jobSkipped | .jobCanceled => false

namespace ExecutorEventService

/-! ## Ending something

What an operation does to the executions is an `Effect`: rows change and rows are added. It ends
nothing if no open row becomes final and none is added. An event does so only in the branch that
continues the run, and there it does unless it repeats a final status and no job is ready. -/

/-- No execution becomes final and none is created. -/
def EndsNothing (db db' : Db) : Prop :=
  (∀ e ∈ db.executions, e.status.isFinalStatus = false →
    ∀ e' ∈ db'.findExecution e.id, e'.status.isFinalStatus = false) ∧
  db'.executions.map JobExecutionEntity.id = db.executions.map JobExecutionEntity.id

/-- The execution of the event would end with the status, and its run can be continued: the graph
is valid and all jobs that become ready can be dispatched. -/
structure WouldEnd (c : Catalog) (db : Db) (message : ExecutorEventMessage)
    (x : JobExecutionEntity) (t : JobExecutionStatus) (run : PipelineRunEntity) : Prop where
  execution : x ∈ db.executions
  jobExecutionId : message.jobExecutionId = some x.id
  status : mapStatus message.status = some t
  allowed : canTransition x.status t = true
  final : t.isFinalStatus = true
  run_mem : run ∈ db.runs
  run_id : run.id = x.pipelineRunId
  valid : ExecutionGraphValidator.validate (c.graphOf run.pipelineId) = .ok ()
  dispatchable : lands c run.pipelineId (db.findByPipelineRunId run.id) x.id t = true

/-- The status of the event ends nothing, unless it repeats the final status of an execution after
which no job waits to be dispatched. -/
def Harmless (c : Catalog) (db : Db) (message : ExecutorEventMessage) : Prop :=
  ∀ x t run, WouldEnd c db message x t run →
    x.status = t ∧
      c.readyJobs run.pipelineId (withStatus (db.findByPipelineRunId run.id) x.id t) = []

section Ends

variable {c : Catalog} {now : Instant} {delivery : Delivery} {message : ExecutorEventMessage}
  {db db' : Db} {x : JobExecutionEntity}

theorem endsNothing_refl (hs : Sound db) : EndsNothing db db := by
  refine ⟨fun e he hopen e' he' ↦ ?_, rfl⟩
  rwa [hs.executions_keyed.eq (hs.findExecution.mp he').1 he (hs.findExecution.mp he').2]

/-- What ends nothing only changes rows, and no open row to a final status. -/
theorem endsNothing_iff_of_effect {u : JobExecutionEntity → JobExecutionEntity}
    {fresh sent : List JobExecutionEntity} (h : Effect db db' u fresh sent) :
    EndsNothing db db' ↔
      (∀ e ∈ db.executions, e.status.isFinalStatus = false →
        (u e).status.isFinalStatus = false) ∧ fresh = [] := by
  refine and_congr (forall₂_congr fun e he ↦ forall_congr' fun _ ↦ ?_) ?_
  · rw [h.findExecution he]
    simp
  · have hids : (db.executions.map u).map JobExecutionEntity.id =
        db.executions.map JobExecutionEntity.id := by
      rw [List.map_map]
      exact List.map_congr_left fun e _ ↦ h.keeps.id e
    rw [h.executions, List.map_append, hids]
    simp

theorem endsExecution_iff :
    endsExecution message x = true ↔
      ∃ t ∈ mapStatus message.status, canTransition x.status t = true ∧ t.isFinalStatus = true := by
  rw [endsExecution]
  rcases hmap : mapStatus message.status with _ | t
  · simp [changesStatus]
  · simp [changesStatus]

/-- Storing an event that sets no final status makes no open execution final. -/
theorem applyTo_open (hs : Sound db) (hx : x ∈ db.executions)
    (hends : endsExecution message x ≠ true) :
    ∀ e ∈ db.executions, e.status.isFinalStatus = false →
      (applyTo now message x e).status.isFinalStatus = false := by
  intro e he hopen
  rw [applyTo_status]
  split
  · rename_i hboth
    obtain rfl := hs.executions_keyed.eq he hx hboth.1
    rcases hmap : mapStatus message.status with _ | t
    · exact hopen
    · rw [Option.getD_some, Bool.eq_false_iff]
      intro hfinal
      rw [hmap] at hboth
      exact hends (endsExecution_iff.mpr ⟨t, hmap, hboth.2, hfinal⟩)
  · exact hopen

/-- **An event that ends its execution.** When the transaction succeeds, the event ended something
unless the status was there before and no job was ready. -/
theorem continueRun_endsNothing_iff {t : JobExecutionStatus} (hs : Sound db)
    (hx : x ∈ db.executions) (hmap : mapStatus message.status = some t)
    (hcan : canTransition x.status t = true) (hfinal : t.isFinalStatus = true)
    (h : continueRun c now x.pipelineRunId (store now delivery message x db) = .ok db') :
    ∃ run ∈ db.runs, run.id = x.pipelineRunId ∧
      (EndsNothing db db' ↔ x.status = t ∧
        c.readyJobs run.pipelineId (withStatus (db.findByPipelineRunId run.id) x.id t) = []) := by
  have hstore := store_effect now delivery message hs hx
  have hset := @setsStatus_applyTo now _ _ _ hmap hcan db.executions
  obtain ⟨run₀, hrun₀, hrunid₀⟩ := hs.run_of_execution x hx
  obtain ⟨run, hrun, hrunid, created, db₁, hcreated, hdispatch, rfl⟩ :=
    continueRun_ok hstore.sound ⟨run₀, hstore.runs ▸ hrun₀, hrunid₀⟩ h
  refine ⟨run, hstore.runs ▸ hrun, hrunid, ?_⟩
  have heffect := hstore.trans hdispatch (by simp)
  have hrows : EndsNothing db (db₁.updateRun x.pipelineRunId fun run ↦
      recomputed now run (db₁.findByPipelineRunId x.pipelineRunId)) ↔ EndsNothing db db₁ := Iff.rfl
  rw [hrows, endsNothing_iff_of_effect heffect, List.nil_append]
  refine and_congr ⟨fun hopen ↦ ?_, ?_⟩ ?_
  · by_contra hne
    have hx' : x.status.isFinalStatus = false := by
      rw [Bool.eq_false_iff]
      exact fun hxfinal ↦
        hne (JobExecutionStatus.eq_of_canTransition_of_final hxfinal hcan).symm
    have hafter := hopen x hx hx'
    rw [hset x hx, if_pos rfl, hfinal] at hafter
    cases hafter
  · rintro rfl e he hopen
    rw [hset e he]
    split
    · rename_i hid
      rwa [hs.executions_keyed.eq he hx hid] at hopen
    · exact hopen
  · -- whether jobs are ready depends on the status that was set
    have hready : c.readyJobs run.pipelineId
          ((store now delivery message x db).findByPipelineRunId x.pipelineRunId) = [] ↔
        c.readyJobs run.pipelineId (withStatus (db.findByPipelineRunId run.id) x.id t) = [] := by
      rw [findByPipelineRunId_of_effect hstore, List.filter_nil, List.append_nil, hrunid]
      exact readyJobs_eq_nil_congr (latestStatus_setsStatus hstore.keeps
        fun e he ↦ hset e (List.mem_filter.mp he).1)
    rw [← hready]
    constructor
    · rintro rfl
      exact List.forall₂_nil_right_iff.mp hcreated
    · intro hnil
      rw [hnil] at hcreated
      exact List.forall₂_nil_left_iff.mp hcreated

/-- The transaction of an event that ends its execution succeeds when the run can be continued. -/
theorem continueRun_isOk_iff {t : JobExecutionStatus} {run : PipelineRunEntity} (hs : Sound db)
    (hx : x ∈ db.executions) (hmap : mapStatus message.status = some t)
    (hcan : canTransition x.status t = true) (hrun : run ∈ db.runs)
    (hrunid : run.id = x.pipelineRunId)  :
    (∃ db', continueRun c now x.pipelineRunId (store now delivery message x db) = .ok db') ↔
      ExecutionGraphValidator.validate (c.graphOf run.pipelineId) = .ok () ∧
        lands c run.pipelineId (db.findByPipelineRunId run.id) x.id t = true := by
  have hstore := store_effect now delivery message hs hx
  have hset := @setsStatus_applyTo now _ _ _ hmap hcan db.executions
  have hrun' := hstore.runs ▸ hrun
  rw [← hrunid]
  by_cases hvalid : ExecutionGraphValidator.validate (c.graphOf run.pipelineId) = .ok ()
  · rw [and_iff_right hvalid, continueRun_isOk now hstore.sound hrun' hvalid,
      ready_iff_lands hstore.keeps (by rw [hstore.executions, List.append_nil]) hset]
  · refine iff_of_false ?_ fun h ↦ hvalid h.1
    rintro ⟨db', h⟩
    rw [continueRun, hstore.sound.findRun.mpr ⟨hrun', rfl⟩] at h
    obtain ⟨⟨created, db₁⟩, hdispatch, -⟩ := bind_eq_ok.mp h
    exact hvalid (dispatchReadyJobs_ok hstore.sound ⟨run, hrun', rfl⟩ hdispatch).1

/-- **An event ends nothing exactly when it is not consumed or its status is harmless.** -/
theorem handle_endsNothing_iff (hs : Sound db) :
    (∀ db', handle c now delivery message db = .ok db' → EndsNothing db db') ↔
      (Consumes db delivery message → Harmless c db message) := by
  constructor
  · intro h hnew x t run hend
    have hends : endsExecution message x = true :=
      endsExecution_iff.mpr ⟨t, hend.status, hend.allowed, hend.final⟩
    have hhandle := handle_of_consumes c now hs hend.execution hend.jobExecutionId hnew
    rw [if_pos hends] at hhandle
    obtain ⟨db', hok⟩ := (@continueRun_isOk_iff _ now delivery _ _ _ _ _ hs hend.execution
      hend.status hend.allowed hend.run_mem hend.run_id).mpr ⟨hend.valid, hend.dispatchable⟩
    obtain ⟨run', hrun', hrunid', hiff⟩ := continueRun_endsNothing_iff hs hend.execution
      hend.status hend.allowed hend.final hok
    obtain rfl := hs.runs_keyed.eq hrun' hend.run_mem (hrunid'.trans hend.run_id.symm)
    exact hiff.mp (h db' (hhandle.trans hok))
  · intro h db' hok
    rcases handle_cases hs hok with ⟨⟨heffect, -⟩, -⟩ | ⟨hnew, x, hx, hid, hrest⟩
    · exact (endsNothing_iff_of_effect heffect).mpr ⟨fun _ _ hopen ↦ hopen, rfl⟩
    by_cases hends : endsExecution message x = true
    · rw [if_pos hends] at hrest
      obtain ⟨t, hmap, hcan, hfinal⟩ := endsExecution_iff.mp hends
      obtain ⟨run, hrun, hrunid, hiff⟩ := continueRun_endsNothing_iff hs hx hmap hcan hfinal hrest
      obtain ⟨hvalid, hlands⟩ :=
        (continueRun_isOk_iff hs hx hmap hcan hrun hrunid).mp ⟨db', hrest⟩
      exact hiff.mpr (h hnew x t run ⟨hx, hid, hmap, hcan, hfinal, hrun, hrunid, hvalid, hlands⟩)
    · rw [if_neg hends] at hrest
      rw [hrest, endsNothing_iff_of_effect (store_effect now delivery message hs hx)]
      exact ⟨applyTo_open hs hx hends, rfl⟩

/-- **An event ends nothing exactly when it is not consumed, the schema refuses to store it, or its
status is harmless.** -/
theorem transaction_endsNothing_iff (h : Schema c db) (hs : Sound db) (hfresh : InboxFresh db) :
    (∀ db', transaction c now delivery message db = .ok db' → EndsNothing db db') ↔
      (Consumes db delivery message → Writable db delivery message → Harmless c db message) := by
  constructor
  · intro hends hnew hwritable x t run hend
    have hcommits := fun db' ↦ @transaction_eq_ok_iff c now _ _ _ db' h hs hfresh _
      hend.execution hend.jobExecutionId hnew
    exact (handle_endsNothing_iff hs).mp
      (fun db' hok ↦ hends db' ((hcommits db').mpr ⟨hwritable, hok⟩)) hnew x t run hend
  · intro hharmless db' hok
    obtain ⟨hhandle, hfound⟩ := handle_of_transaction h hs hfresh hok
    refine (handle_endsNothing_iff hs).mpr (fun hnew ↦ ?_) db' hhandle
    obtain ⟨e, he, hid⟩ := hfound hnew
    exact hharmless hnew ((transaction_eq_ok_iff h hs hfresh he hid hnew).mp hok).1

end Ends

/-- The event is of a type that reports progress. -/
def IsReport (eventType : Option String) : Prop :=
  ∃ type ∈ ExecutorEventType.fromValue eventType, type.isProgress = true

end ExecutorEventService

/-! ## The poller -/

namespace OpenSearchExecutorEventPoller

open ExecutorEventService

section Polls

variable {c : Catalog} {config : AppProperties} {poll : Poll} {page : Page} {hit : Document}

theorem applyHit_db (event : ExecutorEventMessage) (hs : Sound page.db) :
    EndsNothing page.db (applyHit c config poll page hit event).db ↔
      (poll.throws hit.documentId = false → ∀ db', handle c poll.now (deliveryOf config hit event)
        event page.db = .ok db' → EndsNothing page.db db') := by
  rw [applyHit]
  by_cases hthrows : poll.throws hit.documentId = true
  · rw [if_pos hthrows]
    exact iff_of_true (endsNothing_refl hs) fun h ↦ absurd (hthrows.symm.trans h) (by decide)
  rw [if_neg hthrows, forall_prop_of_true (by simpa using hthrows)]
  rcases hhandle : handle c poll.now (deliveryOf config hit event) event page.db with error | db'
  · exact iff_of_true (endsNothing_refl hs) fun _ h ↦ by cases h
  · exact ⟨fun h db'' heq ↦ Except.ok.inj heq ▸ h, fun h ↦ h db' rfl⟩

/-- **A hit ends nothing exactly when it is a line of the log, does not convert, throws, or its
event ends nothing.** -/
theorem pollHit_endsNothing_iff (hs : Sound page.db) :
    EndsNothing page.db (pollHit c config poll page hit).db ↔
      (ExecutorEventType.fromValue hit.source.eventType ≠ some .jobLog →
        poll.throws hit.documentId = false →
        ∀ event ∈ toEventMessage (randomUUID page.db) hit,
          Consumes page.db (deliveryOf config hit event) event →
            ExecutorEventService.Harmless c page.db event) := by
  rw [pollHit]
  by_cases hlog : ExecutorEventType.fromValue hit.source.eventType = some .jobLog
  · rw [if_pos hlog]
    exact iff_of_true (endsNothing_refl hs) fun h ↦ absurd hlog h
  rw [if_neg hlog, forall_prop_of_true hlog]
  rcases hevent : toEventMessage (randomUUID page.db) hit with _ | event
  · exact iff_of_true (endsNothing_refl hs) fun _ _ h ↦ by cases h
  · refine (applyHit_db event hs).trans (forall_congr' fun _ ↦ ?_)
    rw [handle_endsNothing_iff hs]
    simp

end Polls

end OpenSearchExecutorEventPoller

/-! ## Reports -/

namespace ExecutorEventService

open OpenSearchExecutorEventPoller

/-- **Reports.** An event that reports progress ends nothing and starts nothing, handed over
directly or read by the poller, exactly when its status is harmless or nobody acts on it. -/
theorem progress_endsNothing_iff {c : Catalog} {db : Db} (h : Schema c db) (hs : Sound db)
    (hfresh : InboxFresh db) :
    (∀ now delivery message, IsReport message.eventType →
      ((∀ db', transaction c now delivery message db = .ok db' → EndsNothing db db') ↔
        (Consumes db delivery message → Writable db delivery message →
          Harmless c db message))) ∧
    ∀ config poll page hit, page.db = db → IsReport hit.source.eventType →
      (EndsNothing db (pollHit c config poll page hit).db ↔
        (ExecutorEventType.fromValue hit.source.eventType ≠ some .jobLog →
          poll.throws hit.documentId = false →
          ∀ event ∈ toEventMessage (randomUUID db) hit,
            Consumes db (deliveryOf config hit event) event → Harmless c db event)) := by
  constructor
  · intro now delivery message _
    exact transaction_endsNothing_iff h hs hfresh
  · rintro config poll page hit rfl _
    exact pollHit_endsNothing_iff hs

/-! ## A report of success

The first of two jobs runs; its executor reports progress with the status `SUCCESS`. -/

/-- The first job runs. -/
def underway : Db :=
  history (Small.chain .onSuccess)
    [Small.call (.createRun 0 none), Small.deliver (Small.message 10 2 .running)]

def progress : ExecutorEventMessage :=
  { Small.message 11 2 .success with eventType := some ExecutorEventType.jobProgress.name }

instance (db db' : Db) : Decidable (EndsNothing db db') :=
  inferInstanceAs (Decidable (_ ∧ _))

instance (eventType : Option String) : Decidable (IsReport eventType) :=
  inferInstanceAs (Decidable (∃ type ∈ ExecutorEventType.fromValue eventType, _))

theorem progress_endsNothing_underway :
    (∀ db', transaction (Small.chain .onSuccess) 0 Small.results progress underway = .ok db' →
      EndsNothing underway db') ↔
      (Consumes underway Small.results progress → Writable underway Small.results progress →
        Harmless (Small.chain .onSuccess) underway progress) :=
  (progress_endsNothing_iff (by decide +kernel) (sound_history _ _) (inboxFresh_history _)).1
    0 Small.results progress (by decide)

/-- The report ends the job and starts its successor. -/
theorem progress_ends :
    IsReport progress.eventType ∧
      ∃ db', transaction (Small.chain .onSuccess) 0 Small.results progress underway = .ok db' ∧
        ¬ EndsNothing underway db' := by
  have hrun : ∃ db' ∈
      (transaction (Small.chain .onSuccess) 0 Small.results progress underway).toOption,
      ¬ EndsNothing underway db' := by
    decide +kernel
  obtain ⟨db', hok, hnot⟩ := hrun
  refine ⟨by decide, db', ?_, hnot⟩
  rcases htransaction : transaction (Small.chain .onSuccess) 0 Small.results progress underway
    with failure | db₁
  · rw [htransaction] at hok
    cases hok
  · rw [htransaction] at hok
    exact congrArg Except.ok (Option.some.inj hok)

end ExecutorEventService

end FuzzingCiCd.Master
