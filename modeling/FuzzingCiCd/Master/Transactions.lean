import FuzzingCiCd.Master.Schema

/-!
# Transactions of executor events

On a database with constraints the handler of executor events is `transaction`. It does what
`handle` does or nothing at all: when a statement violates a constraint, everything that the event
has written is rolled back.

## The two handlers

For an event that finds its execution, `transaction_eq_ok_iff` says when the transaction commits:
the event is `Writable`, which its own statements ask for, and `handle` succeeds. The dispatch that
an event triggers asks for nothing more of the schema, since what it writes always meets the
constraints (`schema_continueRun`).

## The two kinds of history

`constrained` is the step function of a database with constraints. A history under it is a history
of `step` over the calls that it accepts (`history_constrained`), so that everything that holds of
the reachable databases holds of those that a database with constraints gets to.
-/

namespace FuzzingCiCd.Master

open Transition PipelineRunService

/-! ## Continuing a run

What is created for the jobs that are ready satisfies the constraints: the attempts are the first
of their jobs, and new rows have no error and no artifact. So the constraints decide over the
event itself and never over the dispatch behind it. -/

section Continuing

variable {c : Catalog} {now : Instant} {run : PipelineRunEntity} {db db' : Db}

/-- A created execution has no error, and creating it stores no artifact. -/
theorem createExecution_rest {job : JobEntity} {attempt : ℕ} {e : JobExecutionEntity}
    (h : createExecution c now run job attempt db = .ok (e, db')) :
    db'.artifacts = db.artifacts ∧ e.errorType = none := by
  rw [createExecution] at h
  cases happroval : resolveApprovalEnvironment c job with
  | some environment =>
    rw [happroval] at h
    obtain ⟨rfl, rfl⟩ := Prod.mk.inj (Except.ok.inj h)
    exact ⟨rfl, rfl⟩
  | none =>
    rw [happroval] at h
    obtain ⟨db₁, henqueue, h⟩ := bind_eq_ok.mp h
    obtain ⟨rfl, rfl⟩ := Prod.mk.inj (Except.ok.inj h)
    obtain ⟨message, -, henqueue⟩ := bind_eq_ok.mp henqueue
    obtain ⟨topic, -, henqueue⟩ := bind_eq_ok.mp henqueue
    obtain rfl := Except.ok.inj henqueue
    exact ⟨rfl, rfl⟩

theorem createReady_rest {jobs : List JobEntity} {existing created : List JobExecutionEntity}
    (h : createReady c now run jobs existing db = .ok (created, db')) :
    db'.artifacts = db.artifacts ∧ ∀ e ∈ created, e.errorType = none := by
  induction jobs generalizing existing created db with
  | nil =>
    obtain ⟨rfl, rfl⟩ := Prod.mk.inj (Except.ok.inj h)
    exact ⟨rfl, by simp⟩
  | cons job jobs ih =>
    obtain ⟨⟨e, db₁⟩, hcreate, h⟩ := bind_eq_ok.mp h
    obtain ⟨⟨rest, db₂⟩, hrest, h⟩ := bind_eq_ok.mp h
    obtain ⟨rfl, rfl⟩ := Prod.mk.inj (Except.ok.inj h)
    obtain ⟨hartifacts, herror⟩ := createExecution_rest hcreate
    obtain ⟨hartifacts', herrors⟩ := ih hrest
    exact ⟨hartifacts'.trans hartifacts, List.forall_mem_cons.mpr ⟨herror, herrors⟩⟩

/-- A ready job gets its first attempt, and the run had no attempt of it before. -/
theorem unique_job_execution_attempt {created : List JobExecutionEntity} (h : Schema c db)
    (hrows : List.Forall₂ (fun job e ↦ FreshRow c run.id job 1 e)
      (c.readyJobs run.pipelineId (db.findByPipelineRunId run.id)) created) :
    ((db.executions ++ created).map fun e ↦ (e.pipelineRunId, e.jobId, e.attempt)).Nodup := by
  have hids : created.map JobExecutionEntity.jobId =
      (c.readyJobs run.pipelineId (db.findByPipelineRunId run.id)).map JobEntity.id := by
    rw [← List.forall₂_eq_eq_eq, List.forall₂_map_left_iff, List.forall₂_map_right_iff]
    exact hrows.flip.imp fun e job hrow ↦ hrow.jobId
  have hcreated : (created.map fun e ↦ (e.pipelineRunId, e.jobId, e.attempt)).Nodup := by
    refine List.Nodup.of_map (fun key : UUID × UUID × ℕ ↦ key.2.1) ?_
    rw [List.map_map]
    exact (congrArg List.Nodup hids).mpr (Catalog.keyed_readyJobs _ _)
  rw [List.map_append]
  refine h.unique_job_execution_attempt.append hcreated ?_
  intro key hold hnew
  obtain ⟨e, he, rfl⟩ := List.mem_map.mp hold
  obtain ⟨e', he', hsame⟩ := List.mem_map.mp hnew
  obtain ⟨job, hjob, hrow⟩ := exists_of_forall₂_right hrows he'
  obtain ⟨hrun, hpair⟩ := Prod.mk.inj hsame
  -- the row would be an execution of a job that is ready because it has none
  refine (Catalog.mem_readyJobs.mp hjob).2.1 e (List.mem_filter.mpr ⟨he, ?_⟩) ?_
  · exact decide_eq_true (hrun.symm.trans hrow.pipelineRunId)
  · exact (Prod.mk.inj hpair).1.symm.trans hrow.jobId

theorem schema_continueRun (h : Schema c db) (hs : Sound db) {r : UUID}
    (hrun : ∃ run ∈ db.runs, run.id = r)
    (hcontinue : ExecutorEventService.continueRun c now r db = .ok db') : Schema c db' := by
  have hinbox := (keepsInbox_continueRun hcontinue).inbox
  obtain ⟨run, hmem, rfl⟩ := hrun
  rw [ExecutorEventService.continueRun, hs.findRun.mpr ⟨hmem, rfl⟩] at hcontinue
  obtain ⟨⟨created, db₁⟩, hdispatch, hrecompute⟩ := bind_eq_ok.mp hcontinue
  obtain ⟨-, hrows, heffect⟩ := dispatchReadyJobs_ok hs ⟨run, hmem, rfl⟩ hdispatch
  obtain ⟨ready, -, hready⟩ := bind_eq_ok.mp hdispatch
  obtain ⟨hartifacts, herrors⟩ := createReady_rest hready
  have hupdate := recomputeRunStatus_ok heffect.sound hrecompute
  have hruns : ∀ {value}, Table.References PipelineRunEntity.id db'.runs value ↔
      Table.References PipelineRunEntity.id db.runs value := by
    intro value
    rw [hupdate, ← heffect.runs]
    exact Table.references_map (Table.key_update (f := fun run ↦ recomputed now run _)
      (fun _ ↦ rfl) _) value
  have hexec : db'.executions = db.executions ++ created := by
    rw [hupdate, ← List.map_id' db.executions]
    exact heffect.executions
  have hexecutions : ∀ {value}, Table.References JobExecutionEntity.id db.executions value →
      Table.References JobExecutionEntity.id db'.executions value := by
    intro value href id hid
    obtain ⟨e, he, hkey⟩ := href id hid
    exact ⟨e, hexec ▸ List.mem_append_left _ he, hkey⟩
  have hartifacts' : db'.artifacts = db.artifacts := by
    rw [hupdate]
    exact hartifacts
  have hkeyed : Table.Keyed JobExecutionEntity.id db'.executions := by
    rw [hupdate]
    exact heffect.sound.executions_keyed
  refine ⟨hkeyed, hexec ▸ unique_job_execution_attempt h hrows, ?_, hinbox ▸ h.inbox_event_pk,
    hinbox ▸ h.inbox_event_message_consumer_uq, hinbox ▸ h.inbox_event_source_document_consumer_uq,
    ?_, hartifacts' ▸ h.artifact_pk, ?_⟩
  · intro e he
    rw [hexec] at he
    rcases List.mem_append.mp he with hold | hnew
    · obtain ⟨hfk, hjob, hattempt, herror⟩ := h.job_execution e hold
      exact ⟨hruns.mpr hfk, hjob, hattempt, herror⟩
    · -- a created execution is the first attempt of a job of the pipeline
      obtain ⟨job, hjob, hrow⟩ := exists_of_forall₂_right hrows hnew
      have hjobs := Catalog.mem_of_mem_jobsOf (Catalog.mem_readyJobs.mp hjob).1
      refine ⟨hruns.mpr fun id hid ↦ ⟨run, hmem, ?_⟩, fun id hid ↦ ⟨job, hjobs, ?_⟩, ?_, ?_⟩
      · exact hrow.pipelineRunId.symm.trans (Option.some.inj hid)
      · exact hrow.jobId.symm.trans (Option.some.inj hid)
      · rw [hrow.attempt]
        exact Nat.one_pos
      · rw [herrors e hnew]
        intro type htype
        cases htype
  · intro event hevent
    rw [hinbox] at hevent
    obtain ⟨hfk, htype, hsource, hidentity, hversion⟩ := h.inbox_event event hevent
    exact ⟨hexecutions hfk, htype, hsource, hidentity, hversion⟩
  · intro artifact hartifact
    rw [hartifacts'] at hartifact
    obtain ⟨hfk, hfk', htype, hcheck, hname, huri, hsize⟩ := h.artifact artifact hartifact
    exact ⟨hruns.mpr hfk, hexecutions hfk', htype, hcheck, hname, huri, hsize⟩

end Continuing

/-! ## The two handlers

`handle` is the method and `transaction` the method with the constraints checked at each write.
What commits under constraints is what the method does (`handle_of_transaction`), so the theorems
on `handle` and its histories hold of the constrained service; a new event that is not writable
leaves the database as it was. -/

namespace ExecutorEventService

/-- The database once an event was handled: a transaction that fails is rolled back. -/
def handled (c : Catalog) (now : Instant) (delivery : Delivery) (message : ExecutorEventMessage)
    (db : Db) : Db :=
  Transition.apply (fun message ↦ transaction c now delivery message) db message

section Handled

variable {c : Catalog} {now : Instant} {delivery : Delivery} {message : ExecutorEventMessage}
  {db db' : Db}

theorem schema_of_transaction (h : Schema c db)
    (hok : transaction c now delivery message db = .ok db') : Schema c db' := by
  rw [transaction] at hok
  split at hok
  · obtain rfl := Except.ok.inj hok
    exact h
  split at hok
  · exact (statement_eq_ok.mp hok).1
  split at hok
  · cases hok
  split at hok
  · exact (statement_eq_ok.mp hok).1
  obtain ⟨db₁, hstored, hok⟩ := bind_eq_ok.mp hok
  split at hok
  · split at hok
    · cases hok
    · exact (statement_eq_ok.mp hok).1
  · obtain rfl := Except.ok.inj hok
    exact schema_of_storeStatements hstored

/-- A message that finds its execution is stored, and the run continued if it ends it. -/
theorem transaction_of_found (hs : Sound db) {e : JobExecutionEntity} (he : e ∈ db.executions)
    (hid : message.jobExecutionId = some e.id) (hnew : Consumes db delivery message) :
    transaction c now delivery message db = (do
      let db ← storeStatements c now delivery message e db
      if endsExecution message e then
        match continueRun c now e.pipelineRunId db with
        | .error exception => .error (.thrown exception)
        | .ok db => statement c id db
      else return db) := by
  obtain ⟨hdup, htype⟩ := hnew
  obtain ⟨type, htype⟩ := Option.isSome_iff_exists.mp htype
  have hfind : db.findExecution e.id = some e := hs.findExecution.mpr ⟨he, rfl⟩
  rw [transaction, hdup, if_neg Bool.false_ne_true, htype, hid]
  dsimp only
  generalize db.findExecution e.id = found at hfind
  subst hfind
  rfl

/-- **A transaction.** An event that finds its execution commits exactly when it is writable and the
handler succeeds, and what commits is what the handler does. -/
theorem transaction_eq_ok_iff (h : Schema c db) (hs : Sound db) (hfresh : InboxFresh db)
    {e : JobExecutionEntity} (he : e ∈ db.executions) (hid : message.jobExecutionId = some e.id)
    (hnew : Consumes db delivery message) :
    transaction c now delivery message db = .ok db' ↔
      Writable db delivery message ∧ handle c now delivery message db = .ok db' := by
  rw [transaction_of_found hs he hid hnew, handle_of_consumes c now hs he hid hnew, bind_eq_ok]
  simp only [storeStatements_iff h hs now hfresh hnew.1 he hid]
  by_cases hends : endsExecution message e = true
  · rw [if_pos hends]
    constructor
    · rintro ⟨_, ⟨hwritable, rfl⟩, hok⟩
      rw [if_pos hends] at hok
      split at hok
      · cases hok
      · rename_i hcontinue
        obtain ⟨-, rfl⟩ := statement_eq_ok.mp hok
        exact ⟨hwritable, hcontinue⟩
    · rintro ⟨hwritable, hcontinue⟩
      have hstored := (storeStatements_iff h hs now hfresh hnew.1 he hid).mpr ⟨hwritable, rfl⟩
      have hstore := store_effect now delivery message hs he
      obtain ⟨run, hrun, hrunid⟩ := hs.run_of_execution e he
      refine ⟨_, ⟨hwritable, rfl⟩, ?_⟩
      rw [if_pos hends, hcontinue]
      exact statement_eq_ok.mpr ⟨schema_continueRun (schema_of_storeStatements hstored)
        hstore.sound ⟨run, hstore.runs ▸ hrun, hrunid⟩ hcontinue, rfl⟩
  · rw [if_neg hends]
    constructor
    · rintro ⟨_, ⟨hwritable, rfl⟩, hok⟩
      rw [if_neg hends] at hok
      exact ⟨hwritable, congrArg Except.ok (Except.ok.inj hok)⟩
    · rintro ⟨hwritable, hok⟩
      refine ⟨_, ⟨hwritable, rfl⟩, ?_⟩
      rw [if_neg hends]
      exact congrArg Except.ok (Except.ok.inj hok)

/-- A message of an unknown type that is new to the inbox is only registered. -/
theorem transaction_of_register
    (hnew : InboxDeduplicationService.isDuplicate delivery.consumerName delivery.eventSource
      delivery.sourceDocumentId message.messageId db = false)
    (htype : ExecutorEventType.fromValue message.eventType = none) :
    transaction c now delivery message db = statement c
      (InboxDeduplicationService.registerProcessed now delivery.consumerName delivery.topic
        delivery.messageKey delivery.eventSource delivery.sourceDocumentId message) db := by
  rw [transaction, hnew, if_neg Bool.false_ne_true, htype]

/-- **What commits is what the handler does.** An event of a known type that is new to the inbox has
found its execution. -/
theorem handle_of_transaction (h : Schema c db) (hs : Sound db) (hfresh : InboxFresh db)
    (hok : transaction c now delivery message db = .ok db') :
    handle c now delivery message db = .ok db' ∧
      (Consumes db delivery message → ∃ e ∈ db.executions, message.jobExecutionId = some e.id) := by
  by_cases hdup : InboxDeduplicationService.isDuplicate delivery.consumerName delivery.eventSource
      delivery.sourceDocumentId message.messageId db = true
  · rw [transaction, if_pos hdup] at hok
    obtain rfl := Except.ok.inj hok
    exact ⟨if_pos hdup, fun hnew ↦ absurd (hdup.symm.trans hnew.1) (by decide)⟩
  rw [Bool.not_eq_true] at hdup
  cases htype : ExecutorEventType.fromValue message.eventType with
  | none =>
    rw [transaction_of_register hdup htype] at hok
    rw [handle, hdup, if_neg Bool.false_ne_true, htype]
    obtain ⟨-, rfl⟩ := statement_eq_ok.mp hok
    refine ⟨rfl, fun hnew ↦ absurd hnew.2 ?_⟩
    rw [htype]
    decide
  | some type =>
    have hnew : Consumes db delivery message := ⟨hdup, by rw [htype]; rfl⟩
    by_cases hfound : ∃ e ∈ db.executions, message.jobExecutionId = some e.id
    · obtain ⟨e, he, hid⟩ := hfound
      exact ⟨((transaction_eq_ok_iff h hs hfresh he hid hnew).mp hok).2, fun _ ↦ ⟨e, he, hid⟩⟩
    · -- the row of the inbox would refer to an execution that is not there
      rw [transaction, hdup, if_neg Bool.false_ne_true, htype] at hok
      cases hid : message.jobExecutionId with
      | none =>
        rw [hid] at hok
        cases hok
      | some executionId =>
        have hnone : db.findExecution executionId = none :=
          Table.findById_eq_none.mpr fun e he heq ↦ hfound ⟨e, he, by rw [hid, heq]⟩
        simp only [hid, hnone] at hok
        obtain ⟨hschema, heq⟩ := statement_eq_ok.mp hok
        rw [← heq, schema_registerProcessed_iff h _ hfresh hdup] at hschema
        obtain ⟨e, he, heid⟩ := hschema.job_execution executionId hid
        exact absurd ⟨e, he, by rw [hid, heid]⟩ hfound

/-- A new event of an execution that is not writable is rolled back. -/
theorem handled_of_not_writable (h : Schema c db) (hs : Sound db) (hfresh : InboxFresh db)
    {e : JobExecutionEntity} (he : e ∈ db.executions) (hid : message.jobExecutionId = some e.id)
    (hnew : Consumes db delivery message) (hnot : ¬ Writable db delivery message) :
    handled c now delivery message db = db := by
  rw [handled]
  rcases htransaction : transaction c now delivery message db with failure | db'
  · exact apply_of_error htransaction
  · exact absurd ((transaction_eq_ok_iff h hs hfresh he hid hnew).mp htransaction).1 hnot

/-- A writable event of an execution is handled as without constraints. -/
theorem handled_of_writable (h : Schema c db) (hs : Sound db) (hfresh : InboxFresh db)
    {e : JobExecutionEntity} (he : e ∈ db.executions) (hid : message.jobExecutionId = some e.id)
    (hnew : Consumes db delivery message) (hwritable : Writable db delivery message) :
    handled c now delivery message db =
      Transition.apply (fun message ↦ handle c now delivery message) db message := by
  have hiff := fun db' ↦ @transaction_eq_ok_iff c now delivery message db db' h hs hfresh e he hid
    hnew
  rw [handled]
  rcases hhandle : handle c now delivery message db with error | db'
  · rw [apply_of_error hhandle]
    rcases htransaction : transaction c now delivery message db with failure | db'
    · exact apply_of_error htransaction
    · rw [hhandle] at hiff
      cases ((hiff db').mp htransaction).2
  · rw [apply_of_ok hhandle, apply_of_ok ((hiff db').mpr ⟨hwritable, hhandle⟩)]

end Handled

end ExecutorEventService

/-! ## The two kinds of history -/

/-- One operation on a database with constraints. An event runs as `transaction`; of the other
operations it is enough that they end in a database that meets the constraints. -/
def constrained (c : Catalog) (call : Call) (db : Db) : Except Failure Db :=
  match call.operation with
  | .executorEvent delivery message =>
    ExecutorEventService.transaction c call.context.now delivery message db
  | _ =>
    match step c call db with
    | .error exception => .error (.thrown exception)
    | .ok db => statement c id db

section Histories

variable {c : Catalog} {call : Call} {db db' : Db}

/-- What an operation does under constraints is what it does without them. -/
theorem step_of_constrained (h : Schema c db) (hs : Sound db) (hfresh : InboxFresh db)
    (hok : constrained c call db = .ok db') : step c call db = .ok db' ∧ Schema c db' := by
  have hchecked : ∀ {result : Except ServiceException Db},
      (match result with
        | .error exception => .error (.thrown exception)
        | .ok db => statement c id db : Except Failure Db) = .ok db' →
      result = .ok db' ∧ Schema c db' := by
    intro result hresult
    cases result with
    | error exception => cases hresult
    | ok db₁ =>
      obtain ⟨hschema, rfl⟩ := statement_eq_ok.mp hresult
      exact ⟨rfl, hschema⟩
  obtain ⟨ctx, operation⟩ := call
  cases operation with
  | executorEvent delivery message =>
    exact ⟨(ExecutorEventService.handle_of_transaction h hs hfresh hok).1,
      ExecutorEventService.schema_of_transaction h hok⟩
  | _ => exact hchecked hok

/-- **Histories under constraints.** A history of a database with constraints is the history of the
calls that it accepts, and every database that it gets to meets the constraints. -/
theorem history_constrained (calls : List Call) :
    replay (constrained c) Db.empty calls =
        history c (committed (constrained c) Db.empty calls) ∧
      Schema c (replay (constrained c) Db.empty calls) := by
  have hstep : ∀ db call db', Reachable c db ∧ Schema c db → constrained c call db = .ok db' →
      step c call db = .ok db' ∧ Schema c db' := by
    rintro _ call db' ⟨⟨earlier, rfl⟩, hschema⟩ hok
    exact step_of_constrained hschema (sound_history _ _) (inboxFresh_history earlier) hok
  have hkeep : ∀ db call db', Reachable c db ∧ Schema c db → constrained c call db = .ok db' →
      Reachable c db' ∧ Schema c db' :=
    fun db call db' h hok ↦ ⟨h.1.step (hstep db call db' h hok).1, (hstep db call db' h hok).2⟩
  have hempty : Reachable c Db.empty ∧ Schema c Db.empty := ⟨⟨[], rfl⟩, schema_empty c⟩
  refine ⟨?_, (replay_invariant' hkeep calls hempty).2⟩
  rw [replay_committed (f := fun call ↦ call) hkeep (fun db call db' h hok ↦ (hstep db call db' h
    hok).1) hempty calls, List.map_id']

end Histories

end FuzzingCiCd.Master
