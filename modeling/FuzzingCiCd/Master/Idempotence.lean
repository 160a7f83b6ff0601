import FuzzingCiCd.Foundation.Redelivery
import FuzzingCiCd.Master.EventRefinement

/-!
# The inbox

Every event that the service handles leaves a row in the inbox, nothing takes a row away, and an
event that the inbox knows changes nothing. A redelivered event therefore changes nothing either,
wherever between the other operations of the master it arrives.

## Main results

* `step_grows`: no operation takes a row out of the inbox.
* `seen_of_handled`, `apply_of_seen`: a handled event is known, and a known event changes nothing.
* `replay_redelivered`: copies of handled events can be dropped from a run.
-/

namespace FuzzingCiCd.Master

open Transition PipelineRunService

/-! ## Operations that leave the inbox alone

No operation but an event writes the inbox. There is one lemma for each function of the services,
in the order in which they call each other; the identifiers that are drawn on the way only grow. -/

/-- The inbox is the same; random identifiers may have been drawn. -/
structure KeepsInbox (db db' : Db) : Prop where
  inbox : db'.inbox = db.inbox
  nextId : db.nextId ≤ db'.nextId

namespace KeepsInbox

theorem refl (db : Db) : KeepsInbox db db := ⟨rfl, le_refl _⟩

theorem trans {db db' db'' : Db} (h : KeepsInbox db db') (h' : KeepsInbox db' db'') :
    KeepsInbox db db'' :=
  ⟨h'.inbox.trans h.inbox, h.nextId.trans h'.nextId⟩

theorem after_write {db₀ db db' : Db} (h : KeepsInbox db db') (hinbox : db.inbox = db₀.inbox)
    (hid : db₀.nextId ≤ db.nextId) : KeepsInbox db₀ db' :=
  trans ⟨hinbox, hid⟩ h

end KeepsInbox

section Kept

variable {c : Catalog} {now : Instant} {ctx : CallContext} {run : PipelineRunEntity} {db db' : Db}

theorem keepsInbox_enqueueExecution {job : JobEntity} {execution : JobExecutionEntity}
    (h : enqueueExecution c now run job execution db = .ok db') : KeepsInbox db db' := by
  rw [enqueueExecution, bind_eq_ok] at h
  obtain ⟨message, -, h⟩ := h
  obtain ⟨topic, -, h⟩ := bind_eq_ok.mp h
  obtain rfl := Except.ok.inj h
  exact ⟨rfl, Nat.le_add_right db.nextId 2⟩

theorem keepsInbox_createExecution {job : JobEntity} {attempt : ℕ} {e : JobExecutionEntity}
    (h : createExecution c now run job attempt db = .ok (e, db')) : KeepsInbox db db' := by
  rw [createExecution] at h
  cases happroval : resolveApprovalEnvironment c job with
  | some environment =>
    rw [happroval] at h
    obtain ⟨-, rfl⟩ := Prod.mk.inj (Except.ok.inj h)
    exact ⟨rfl, Nat.le_add_right db.nextId 2⟩
  | none =>
    rw [happroval] at h
    obtain ⟨db₁, henqueue, h⟩ := bind_eq_ok.mp h
    obtain ⟨-, rfl⟩ := Prod.mk.inj (Except.ok.inj h)
    exact (keepsInbox_enqueueExecution henqueue).after_write rfl (Nat.le_add_right db.nextId 1)

theorem keepsInbox_createReady {jobs : List JobEntity} {existing created : List JobExecutionEntity}
    (h : createReady c now run jobs existing db = .ok (created, db')) : KeepsInbox db db' := by
  induction jobs generalizing existing created db with
  | nil =>
    obtain ⟨-, rfl⟩ := Prod.mk.inj (Except.ok.inj h)
    exact .refl db
  | cons job jobs ih =>
    obtain ⟨⟨e, db₁⟩, hcreate, h⟩ := bind_eq_ok.mp h
    obtain ⟨⟨rest, db₂⟩, hrest, h⟩ := bind_eq_ok.mp h
    obtain ⟨-, rfl⟩ := Prod.mk.inj (Except.ok.inj h)
    exact (keepsInbox_createExecution hcreate).trans (ih hrest)

theorem keepsInbox_dispatchReadyJobs {existing created : List JobExecutionEntity}
    (h : dispatchReadyJobs c now run existing db = .ok (created, db')) : KeepsInbox db db' := by
  obtain ⟨ready, -, h⟩ := bind_eq_ok.mp h
  exact keepsInbox_createReady h

theorem keepsInbox_recomputeRunStatus {runId : UUID}
    (h : recomputeRunStatus now runId db = .ok db') : KeepsInbox db db' := by
  obtain ⟨run, -, h⟩ := bind_eq_ok.mp h
  obtain rfl := Except.ok.inj h
  exact ⟨rfl, le_refl _⟩

theorem keepsInbox_createRunInternal {pipelineId : UUID}
    {request : Option CreatePipelineRunRequest} {startedBy : Option UUID}
    (h : createRunInternal c now pipelineId request startedBy db = .ok db') :
    KeepsInbox db db' := by
  obtain ⟨pipeline, -, h⟩ := bind_eq_ok.mp h
  obtain ⟨⟨created, db₁⟩, hdispatch, h⟩ := bind_eq_ok.mp h
  have hrow : KeepsInbox db ((db.drawIds 2).saveRun
      (newRun now db.nextId (db.nextId + 1) pipeline.id request startedBy)) :=
    ⟨rfl, Nat.le_add_right db.nextId 2⟩
  have hboth := hrow.trans (keepsInbox_dispatchReadyJobs hdispatch)
  dsimp only at h
  split at h
  · obtain rfl := Except.ok.inj h
    exact ⟨hboth.inbox, hboth.nextId⟩
  · obtain rfl := Except.ok.inj h
    exact ⟨hboth.inbox, hboth.nextId⟩

theorem keepsInbox_requestCancellation (execution : JobExecutionEntity) :
    KeepsInbox db (requestCancellation c ctx run db execution) :=
  ⟨rfl, Nat.le_add_right db.nextId 3⟩

theorem keepsInbox_cancelRun {runId : UUID} (h : cancelRun c ctx runId db = .ok db') :
    KeepsInbox db db' := by
  obtain ⟨run, -, h⟩ := bind_eq_ok.mp h
  obtain rfl := Except.ok.inj h
  have hfold : ∀ (active : List JobExecutionEntity) (run : PipelineRunEntity) (db : Db),
      KeepsInbox db (active.foldl (requestCancellation c ctx run) db) := by
    intro active run db
    induction active generalizing db with
    | nil => exact .refl db
    | cons e active ih => exact (keepsInbox_requestCancellation e).trans (ih _)
  exact (hfold _ _ _).after_write rfl (le_refl _)

theorem keepsInbox_cancel {executionId : UUID}
    (h : JobExecutionService.cancel c ctx executionId db = .ok db') : KeepsInbox db db' := by
  obtain ⟨execution, -, h⟩ := bind_eq_ok.mp h
  obtain ⟨run, -, h⟩ := bind_eq_ok.mp h
  split at h
  · obtain rfl := Except.ok.inj h
    exact .refl db
  · obtain rfl := Except.ok.inj h
    exact keepsInbox_requestCancellation execution

theorem keepsInbox_retryLatest {latests retried : List JobExecutionEntity}
    (h : retryLatest c now run latests db = .ok (retried, db')) : KeepsInbox db db' := by
  induction latests generalizing retried db with
  | nil =>
    obtain ⟨-, rfl⟩ := Prod.mk.inj (Except.ok.inj h)
    exact .refl db
  | cons latest latests ih =>
    obtain ⟨job, -, h⟩ := bind_eq_ok.mp h
    split at h
    · exact ih h
    · obtain ⟨⟨e, db₁⟩, hcreate, h⟩ := bind_eq_ok.mp h
      obtain ⟨⟨rest, db₂⟩, hrest, h⟩ := bind_eq_ok.mp h
      obtain ⟨-, rfl⟩ := Prod.mk.inj (Except.ok.inj h)
      have hkept := (keepsInbox_createExecution hcreate).trans (ih hrest)
      exact hkept.after_write rfl (le_refl _)

theorem keepsInbox_retryRun {runId : UUID} (h : retryRun c ctx runId db = .ok db') :
    KeepsInbox db db' := by
  obtain ⟨run, -, h⟩ := bind_eq_ok.mp h
  obtain ⟨⟨retried, db₁⟩, hretry, h⟩ := bind_eq_ok.mp h
  have hkept := keepsInbox_retryLatest hretry
  dsimp only at h
  split at h
  · obtain rfl := Except.ok.inj h
    exact hkept
  · obtain rfl := Except.ok.inj h
    exact ⟨hkept.inbox, hkept.nextId⟩

theorem keepsInbox_retryExecution {executionId : UUID}
    (h : retryExecution c ctx executionId db = .ok db') : KeepsInbox db db' := by
  obtain ⟨latest, -, h⟩ := bind_eq_ok.mp h
  obtain ⟨run, -, h⟩ := bind_eq_ok.mp h
  obtain ⟨job, -, h⟩ := bind_eq_ok.mp h
  split at h
  · cases h
  · obtain ⟨⟨retried, db₁⟩, hcreate, h⟩ := bind_eq_ok.mp h
    obtain rfl := Except.ok.inj h
    have hkept := keepsInbox_createExecution hcreate
    exact ⟨hkept.inbox, hkept.nextId⟩

theorem keepsInbox_decide {status : ApprovalStatus} {approvalId : UUID}
    (h : DeploymentApprovalService.decide status ctx approvalId db = .ok db') :
    KeepsInbox db db' := by
  obtain ⟨approval, -, h⟩ := bind_eq_ok.mp h
  split at h
  · cases h
  · obtain rfl := Except.ok.inj h
    exact ⟨rfl, le_refl _⟩

theorem keepsInbox_approve {approvalId : UUID}
    (h : DeploymentApprovalService.approve c ctx approvalId db = .ok db') : KeepsInbox db db' := by
  obtain ⟨db₁, hdecide, h⟩ := bind_eq_ok.mp h
  have hdecided := keepsInbox_decide hdecide
  obtain ⟨approval, -, h⟩ := bind_eq_ok.mp h
  split at h
  · obtain rfl := Except.ok.inj h
    exact hdecided
  · obtain ⟨execution, -, h⟩ := bind_eq_ok.mp h
    split at h
    · obtain rfl := Except.ok.inj h
      exact hdecided
    · obtain ⟨run, -, h⟩ := bind_eq_ok.mp h
      obtain ⟨job, -, h⟩ := bind_eq_ok.mp h
      obtain ⟨db₂, henqueue, h⟩ := bind_eq_ok.mp h
      obtain rfl := Except.ok.inj h
      have hkept := keepsInbox_enqueueExecution henqueue
      exact hdecided.trans ⟨hkept.inbox, hkept.nextId⟩

theorem keepsInbox_reject {approvalId : UUID}
    (h : DeploymentApprovalService.reject ctx approvalId db = .ok db') : KeepsInbox db db' := by
  obtain ⟨db₁, hdecide, h⟩ := bind_eq_ok.mp h
  have hdecided := keepsInbox_decide hdecide
  obtain ⟨approval, -, h⟩ := bind_eq_ok.mp h
  obtain ⟨execution, -, h⟩ := bind_eq_ok.mp h
  split at h
  · obtain rfl := Except.ok.inj h
    exact hdecided
  · have hkept := keepsInbox_recomputeRunStatus h
    exact hdecided.trans ⟨hkept.inbox, hkept.nextId⟩

theorem keepsInbox_checkTimeouts (now : Instant) (db : Db) :
    KeepsInbox db (TimeoutWatchdog.checkTimeouts now db) := by
  have hfold : ∀ (running : List JobExecutionEntity) (db : Db),
      KeepsInbox db (running.foldl (fun db execution ↦
        if TimeoutWatchdog.isExpired now execution then
          db.saveExecution (execution.finish .timeout now) else db) db) := by
    intro running db
    induction running generalizing db with
    | nil => exact .refl db
    | cons e running ih =>
      rw [List.foldl_cons]
      split
      · exact (ih _).after_write rfl (le_refl _)
      · exact ih db
  exact hfold _ db

end Kept

/-! ## Operations that write the inbox

An event adds its row if the inbox does not know it, and nothing removes a row. With identifiers
that are new to the inbox a saved row replaces none, so that a key that was seen stays seen
through every operation. -/

/-- Random identifiers are new to the inbox. -/
def InboxFresh (db : Db) : Prop := ∀ event ∈ db.inbox, event.id < db.nextId

instance (db : Db) : Decidable (InboxFresh db) :=
  inferInstanceAs (Decidable (∀ event ∈ db.inbox, event.id < db.nextId))

/-- No row of the inbox is lost. -/
structure GrowsInbox (db db' : Db) : Prop where
  inbox : ∀ event ∈ db.inbox, event ∈ db'.inbox
  fresh : InboxFresh db → InboxFresh db'

theorem KeepsInbox.grows {db db' : Db} (h : KeepsInbox db db') : GrowsInbox db db' where
  inbox event hevent := by rwa [h.inbox]
  fresh hfresh event hevent := by
    rw [h.inbox] at hevent
    exact lt_of_lt_of_le (hfresh event hevent) h.nextId

theorem GrowsInbox.trans {db db' db'' : Db} (h : GrowsInbox db db') (h' : GrowsInbox db' db'') :
    GrowsInbox db db'' where
  inbox event hevent := h'.inbox event (h.inbox event hevent)
  fresh hfresh := h'.fresh (h.fresh hfresh)

theorem isDuplicate_grows {consumerName eventSource : String} {sourceDocumentId : Option String}
    {messageId : Option UUID} {db db' : Db}
    (h : InboxDeduplicationService.isDuplicate consumerName eventSource sourceDocumentId messageId
      db = true) (hgrows : GrowsInbox db db') :
    InboxDeduplicationService.isDuplicate consumerName eventSource sourceDocumentId messageId
      db' = true := by
  have hany : ∀ p : InboxEventEntity → Bool, db.inbox.any p = true → db'.inbox.any p = true := by
    intro p hp
    obtain ⟨event, hevent, hp⟩ := List.any_eq_true.mp hp
    exact List.any_eq_true.mpr ⟨event, hgrows.inbox event hevent, hp⟩
  rw [InboxDeduplicationService.isDuplicate, Bool.or_eq_true, Bool.and_eq_true,
    Bool.and_eq_true] at h ⊢
  exact h.imp (And.imp_right (hany _)) (And.imp_right (hany _))

/-- An identifier that tells an event apart for a consumer. -/
structure EventKey where
  consumerName : String
  messageId : UUID
  eventSource : String
  sourceDocumentId : Option String
  deriving DecidableEq

namespace EventKey

/-- The key of an event that has a message id. -/
def ofOperation : Operation → Option EventKey
  | .executorEvent delivery message => message.messageId.map fun messageId ↦
      ⟨delivery.consumerName, messageId, delivery.eventSource, delivery.sourceDocumentId⟩
  | _ => none

/-- The inbox knows the event. -/
def Seen (key : EventKey) (db : Db) : Prop :=
  InboxDeduplicationService.isDuplicate key.consumerName key.eventSource key.sourceDocumentId
    (some key.messageId) db = true

theorem Seen.grows {key : EventKey} {db db' : Db} (h : key.Seen db) (hgrows : GrowsInbox db db') :
    key.Seen db' :=
  isDuplicate_grows h hgrows

end EventKey

section Written

variable {c : Catalog} {now : Instant} {delivery : ExecutorEventService.Delivery}
  {message : ExecutorEventMessage} {db db' : Db}

theorem registerProcessed_grows (now : Instant) (delivery : ExecutorEventService.Delivery)
    (message : ExecutorEventMessage) (hfresh : InboxFresh db) :
    GrowsInbox db (InboxDeduplicationService.registerProcessed now delivery.consumerName
      delivery.topic delivery.messageKey delivery.eventSource delivery.sourceDocumentId
        message db) ∧
    ∃ event ∈ (InboxDeduplicationService.registerProcessed now delivery.consumerName delivery.topic
      delivery.messageKey delivery.eventSource delivery.sourceDocumentId message db).inbox,
      event.messageId = message.messageId ∧ event.consumerName = delivery.consumerName ∧
        event.eventSource = delivery.eventSource ∧
        event.sourceDocumentId = delivery.sourceDocumentId := by
  have hsave : ∀ event : InboxEventEntity, event.id = db.nextId →
      Table.save InboxEventEntity.id (db.drawIds 1).inbox event = db.inbox ++ [event] :=
    fun event hid ↦ Table.save_fresh fun other hother ↦ by
      rw [hid]
      exact (hfresh other hother).ne
  rw [InboxDeduplicationService.registerProcessed, Db.saveInboxEvent, hsave _ rfl]
  refine ⟨⟨fun event hevent ↦ List.mem_append_left _ hevent, fun _ event hevent ↦ ?_⟩, _,
    List.mem_append_right _ (List.mem_singleton.mpr rfl), rfl, rfl, rfl, rfl⟩
  rcases List.mem_append.mp hevent with hold | hnew
  · exact Nat.lt_succ_of_lt (hfresh event hold)
  · rw [List.mem_singleton.mp hnew]
    exact Nat.lt_succ_self db.nextId

theorem store_eq_register (now : Instant) (delivery : ExecutorEventService.Delivery)
    (message : ExecutorEventMessage) (execution : JobExecutionEntity) (db : Db) :
    ∃ db₁, KeepsInbox db db₁ ∧ ExecutorEventService.store now delivery message execution db =
      InboxDeduplicationService.registerProcessed now delivery.consumerName delivery.topic
        delivery.messageKey delivery.eventSource delivery.sourceDocumentId message db₁ := by
  refine ⟨_, ?_, rfl⟩
  obtain ⟨rows, n, hregister⟩ := ArtifactService.register_frame now message.pipelineRunId
    message.jobExecutionId message.artifacts (db.saveExecution
      (ExecutorEventService.applyEvent now message (ExecutorEventService.changesStatus
        execution.status (ExecutorEventService.mapStatus message.status))
        (ExecutorEventService.mapStatus message.status) execution))
  rw [hregister]
  exact ⟨rfl, Nat.le_add_right db.nextId n⟩

theorem keepsInbox_continueRun {runId : UUID}
    (h : ExecutorEventService.continueRun c now runId db = .ok db') : KeepsInbox db db' := by
  rw [ExecutorEventService.continueRun] at h
  split at h
  · obtain rfl := Except.ok.inj h
    exact .refl db
  · obtain ⟨⟨created, db₁⟩, hdispatch, h⟩ := bind_eq_ok.mp h
    exact (keepsInbox_dispatchReadyJobs hdispatch).trans (keepsInbox_recomputeRunStatus h)

/-- An event is known already, or it is in the inbox once it was handled. -/
theorem handle_grows (hfresh : InboxFresh db)
    (h : ExecutorEventService.handle c now delivery message db = .ok db') :
    GrowsInbox db db' ∧ (InboxDeduplicationService.isDuplicate delivery.consumerName
        delivery.eventSource delivery.sourceDocumentId message.messageId db = true ∨
      ∃ event ∈ db'.inbox, event.messageId = message.messageId ∧
        event.consumerName = delivery.consumerName ∧ event.eventSource = delivery.eventSource ∧
        event.sourceDocumentId = delivery.sourceDocumentId) := by
  have hregister := registerProcessed_grows now delivery message hfresh
  rw [ExecutorEventService.handle] at h
  dsimp only at h
  by_cases hdup : InboxDeduplicationService.isDuplicate delivery.consumerName delivery.eventSource
      delivery.sourceDocumentId message.messageId db = true
  · rw [if_pos hdup] at h
    obtain rfl := Except.ok.inj h
    exact ⟨(KeepsInbox.refl db).grows, Or.inl hdup⟩
  rw [if_neg hdup] at h
  split at h
  · obtain rfl := Except.ok.inj h
    exact ⟨hregister.1, Or.inr hregister.2⟩
  · split at h
    · cases h
    · split at h
      · obtain rfl := Except.ok.inj h
        exact ⟨hregister.1, Or.inr hregister.2⟩
      · -- the execution is changed, and the run continued if the event ends it
        rename_i execution hfind
        obtain ⟨db₁, hkept, hstore⟩ := store_eq_register now delivery message execution db
        obtain ⟨hgrows, event, hevent, hids⟩ :=
          registerProcessed_grows now delivery message (hkept.grows.fresh hfresh)
        rw [← hstore] at hgrows hevent
        split at h
        · have hcontinue := keepsInbox_continueRun h
          refine ⟨(hkept.grows.trans hgrows).trans hcontinue.grows, Or.inr ⟨event, ?_, hids⟩⟩
          rwa [hcontinue.inbox]
        · obtain rfl := Except.ok.inj h
          exact ⟨hkept.grows.trans hgrows, Or.inr ⟨event, hevent, hids⟩⟩

end Written

/-! ## Idempotence -/

section Idempotence

variable {c : Catalog} {call : Call} {db db' : Db}

/-- No operation takes a row out of the inbox. -/
theorem step_grows (hfresh : InboxFresh db) (h : step c call db = .ok db') :
    GrowsInbox db db' := by
  obtain ⟨ctx, operation⟩ := call
  cases operation with
  | createRun pipelineId request => exact (keepsInbox_createRunInternal h).grows
  | createRunBySystem pipelineId triggerType payload => exact (keepsInbox_createRunInternal h).grows
  | executorEvent delivery message => exact (handle_grows hfresh h).1
  | cancelRun runId => exact (keepsInbox_cancelRun h).grows
  | cancelExecution executionId => exact (keepsInbox_cancel h).grows
  | retryRun runId => exact (keepsInbox_retryRun h).grows
  | retryExecution executionId => exact (keepsInbox_retryExecution h).grows
  | approve approvalId => exact (keepsInbox_approve h).grows
  | reject approvalId => exact (keepsInbox_reject h).grows
  | checkTimeouts =>
    obtain rfl := Except.ok.inj h
    exact (keepsInbox_checkTimeouts ctx.now db).grows

theorem inboxFresh_history (calls : List Call) : InboxFresh (history c calls) :=
  replay_invariant' (fun _ _ _ hfresh h ↦ (step_grows hfresh h).fresh hfresh) calls nofun

/-- A handled event is one that the inbox knows. -/
theorem seen_of_handled (hfresh : InboxFresh db) (h : step c call db = .ok db') {key : EventKey}
    (hkey : EventKey.ofOperation call.operation = some key) : key.Seen db' := by
  obtain ⟨ctx, operation⟩ := call
  cases operation with
  | executorEvent delivery message =>
    obtain ⟨messageId, hmessage, rfl⟩ := Option.map_eq_some_iff.mp hkey
    obtain ⟨hgrows, hdup | ⟨event, hevent, hid, hconsumer, -⟩⟩ := handle_grows hfresh h
    · rw [hmessage] at hdup
      exact EventKey.Seen.grows hdup hgrows
    · rw [EventKey.Seen, InboxDeduplicationService.isDuplicate, Option.isSome_some, Bool.true_and,
        Bool.or_eq_true, List.any_eq_true]
      exact Or.inl ⟨event, hevent, by simp [hid, hmessage, hconsumer]⟩
  | _ => cases hkey

/-- A known event changes nothing. -/
theorem apply_of_seen {key : EventKey} (hkey : EventKey.ofOperation call.operation = some key)
    (h : key.Seen db) : apply (step c) db call = db := by
  obtain ⟨ctx, operation⟩ := call
  cases operation with
  | executorEvent delivery message =>
    obtain ⟨messageId, hmessage, rfl⟩ := Option.map_eq_some_iff.mp hkey
    refine apply_of_ok ?_
    have hdup : InboxDeduplicationService.isDuplicate delivery.consumerName delivery.eventSource
        delivery.sourceDocumentId message.messageId db = true := hmessage ▸ h
    exact if_pos hdup
  | _ => cases hkey

/-- **Inbox idempotence.** Dropping every copy of an event that was handled before leaves the end
of a run of operations as it is, whatever the database it starts from. -/
theorem replay_redelivered (c : Catalog) {db : Db} (hfresh : InboxFresh db) (calls : List Call) :
    replay (step c) db calls = replay (step c) db
      (withoutCopies (step c) (fun call ↦ EventKey.ofOperation call.operation) db [] calls) := by
  refine (replay_withoutCopies InboxFresh EventKey.Seen ?_ ?_ ?_ ?_ hfresh ?_ calls).symm
  · exact fun db call db' hfresh h ↦ (step_grows hfresh h).fresh hfresh
  · exact fun db call db' hfresh h key hseen ↦ hseen.grows (step_grows hfresh h)
  · exact fun db call db' hfresh h key hkey ↦ seen_of_handled hfresh h hkey
  · exact fun db call key hkey hseen ↦ apply_of_seen hkey hseen
  · exact fun key hkey ↦ absurd hkey List.not_mem_nil

end Idempotence

/-- The event `RUNNING` arrives three times, the last time after the execution was canceled. -/
def redeliveredRunning : List Call :=
  [Small.call (.createRun 0 none), Small.deliver (Small.message 100 2 .running),
   Small.deliver (Small.message 100 2 .running), Small.call (.cancelExecution 2),
   Small.deliver (Small.message 100 2 .running), Small.deliver (Small.message 101 2 .canceled)]

theorem replay_redelivered_running : replay (step Small.solo) Db.empty redeliveredRunning =
    replay (step Small.solo) Db.empty (withoutCopies (step Small.solo)
      (fun call ↦ EventKey.ofOperation call.operation) Db.empty [] redeliveredRunning) :=
  replay_redelivered Small.solo (by decide) redeliveredRunning

example : withoutCopies (step Small.solo) (fun call ↦ EventKey.ofOperation call.operation) Db.empty
    [] redeliveredRunning =
      [Small.call (.createRun 0 none), Small.deliver (Small.message 100 2 .running),
       Small.call (.cancelExecution 2), Small.deliver (Small.message 101 2 .canceled)] := by
  decide +kernel

end FuzzingCiCd.Master
